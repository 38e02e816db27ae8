import Scriptlet.Proofs.Partition

/-!
# Texts below one another

A blank ends every token but an unterminated string (`Lexeme.read_append`), and a line feed ends a
comment too. So the tokens of a text without faults do not depend on the text in the lines below it,
and the tokens of that text are, but for their places, the ones that it has alone.

Main statements : `tokenize_stacked`, `contents_scan`.
-/

namespace Scriptlet

/-- A run of characters ends at one that does not belong to it. -/
theorem takeWhile_append_cons {α : Type} {p : α → Bool} {a : α} (ha : p a = false)
    (l more : List α) : (l ++ a :: more).takeWhile p = l.takeWhile p := by
  have hcut : (a :: more).takeWhile p = [] := by rw [List.takeWhile_cons, ha]; rfl
  rw [List.takeWhile_append, hcut, List.append_nil]
  split
  next hall => exact ((List.takeWhile_prefix p).eq_of_length hall).symm
  next => rfl

/-- The character at the end of a line. -/
def Glyph.lineFeed : Glyph := ⟨0x0A, [0x0A]⟩

theorem Glyph.code_of_isLayout {b : Glyph} (h : b.isLayout = true) :
    b.code ∈ [0x20, 0x09, 0x0A, 0x0D] := by
  simpa [isLayout, is, or_assoc] using h

/-! ## One token -/

/-- A blank belongs to no name and no number, and is no sign. -/
structure Glyph.Separates (b : Glyph) : Prop where
  name : Lexeme.continuesName b = false
  digit : isDigit b.code = false
  equal : b.is '=' = false
  point : b.is '.' = false
  hyphen : b.is '-' = false

/-- Blanks, tabs and the ends of lines separate tokens. -/
theorem Glyph.separates_of_isLayout {b : Glyph} (h : b.isLayout = true) : b.Separates := by
  have hall : ∀ c ∈ [0x20, 0x09, 0x0A, 0x0D], (Glyph.mk c []).Separates := by
    simp only [List.forall_mem_cons, List.not_mem_nil, false_imp_iff, implies_true, and_true]
    refine ⟨?_, ?_, ?_, ?_⟩ <;> constructor <;> decide
  obtain ⟨hname, hdigit, hequal, hpoint, hhyphen⟩ := hall _ (code_of_isLayout h)
  exact ⟨hname, hdigit, hequal, hpoint, hhyphen⟩

namespace Lexeme

variable {g b : Glyph} {gs rest more : List Glyph}

/-- A token that fits into some characters does not change with what stands behind them. -/
theorem covering_append {kind : TokenKind} {width : Nat} (h : width ≤ gs.length) :
    covering kind width (gs ++ more) = covering kind width gs := by
  rw [covering, covering, List.take_append_of_le_length h]

theorem digitRun_append (hb : isDigit b.code = false) :
    digitRun (gs ++ b :: more) = digitRun gs :=
  congrArg List.length (takeWhile_append_cons (p := fun g : Glyph => isDigit g.code) hb gs more)

/-- A number ends at a blank, be it before the point, behind it or without one. -/
theorem numberWidth_append (hb : b.Separates) : numberWidth (gs ++ b :: more) = numberWidth gs := by
  rw [numberWidth, numberWidth, digitRun_append hb.digit,
    List.drop_append_of_le_length (digitRun_le gs)]
  cases gs.drop (digitRun gs) with
  | nil => simp [hb.point]
  | cons point rest => simp only [List.cons_append, digitRun_append hb.digit]

theorem readName_append (hb : b.Separates) : readName (gs ++ b :: more) = readName gs := by
  rw [readName, readName, takeWhile_append_cons hb.name]

/-- A string that is closed ends at its own quote. -/
theorem readString_append {q : Glyph} (h : (readString q rest).kind ≠ .error) :
    readString q (rest ++ more) = readString q rest := by
  rw [readString] at h
  split at h
  next hclosed =>
    have hbody : (rest ++ more).takeWhile (fun g => g.code != q.code) =
        rest.takeWhile fun g => g.code != q.code := by
      rw [List.takeWhile_append, if_neg (Nat.ne_of_lt hclosed)]
    rw [readString, readString, hbody, if_pos hclosed, if_pos]
    rw [List.length_append]
    omega
  next => exact absurd rfl h

/-- The next character is an equals sign. -/
def equalNext (rest : List Glyph) : Bool := (rest.head?.map (·.is '=')).getD false

/-- How the first character of a token decides what is read : one character, two if the second one
is an equals sign, a string, a number or a name. -/
inductive Opens (g : Glyph) : (List Glyph → Lexeme) → Prop where
  | one (l : Lexeme) : l.width = 1 → Opens g fun _ => l
  | pair (two : TokenKind) (l : Lexeme) : l.width = 1 →
      Opens g fun rest => if equalNext rest then covering two 2 (g :: rest) else l
  | string : Opens g (readString g)
  | number : Opens g fun rest => covering .number (numberWidth (g :: rest)) (g :: rest)
  | name : Opens g fun rest => readName (g :: rest)

theorem Opens.sign (kind : TokenKind) : Opens g fun rest => covering kind 1 (g :: rest) :=
  .one (covering kind 1 [g]) rfl

theorem Opens.signs (two one : TokenKind) : Opens g fun rest =>
    if equalNext rest then covering two 2 (g :: rest) else covering one 1 (g :: rest) :=
  .pair two (covering one 1 [g]) rfl

theorem Opens.ite {c : Prop} [Decidable c] {f f' : List Glyph → Lexeme} (h : c → Opens g f)
    (h' : ¬c → Opens g f') : Opens g fun rest => if c then f rest else f' rest := by
  by_cases hc : c
  · simp only [hc, if_true]
    exact h hc
  · simp only [hc, if_false]
    exact h' hc

theorem read_colon (h : g.is ':' = true) : read g = fun rest =>
    if equalNext rest then covering .assign 2 (g :: rest) else ⟨.error, unexpected g.code, 1⟩ := by
  have hcode : g.code = 0x3A := beq_iff_eq.1 h
  have hdigit : isDigit 0x3A = false := by decide
  have hletter : isLetter 0x3A = false := by decide
  funext rest
  simp [read, Glyph.is, hcode, equalNext, hdigit, startsName, hletter]

/-- Every character opens a token in one of these ways. -/
theorem opens_read (g : Glyph) : Opens g (read g) := by
  cases hcolon : g.is ':' with
  | true =>
    rw [read_colon hcolon]
    exact .pair _ _ rfl
  | false =>
    unfold read
    simp only [hcolon, Bool.false_and, Bool.false_eq_true, if_false]
    iterate 8 refine .ite (fun _ => .sign _) fun _ => ?_
    refine .ite (fun _ => .signs _ _) fun _ => ?_
    refine .ite (fun _ => .pair _ _ rfl) fun _ => ?_
    iterate 2 refine .ite (fun _ => .signs _ _) fun _ => ?_
    refine .ite (fun _ => .string) fun _ => ?_
    refine .ite (fun _ => .number) fun _ => ?_
    exact .ite (fun _ => .name) fun _ => .one _ rfl

theorem equalNext_append (hb : b.is '=' = false) :
    equalNext (rest ++ b :: more) = equalNext rest := by
  cases rest with
  | nil => exact hb
  | cons next rest => rfl

theorem covering_two (h : equalNext rest = true) (kind : TokenKind) :
    covering kind 2 (g :: (rest ++ more)) = covering kind 2 (g :: rest) := by
  cases rest with
  | nil => cases h
  | cons next rest => rfl

/-- A token is read without regard to what stands behind a blank. -/
theorem read_append (hb : b.Separates) (h : (read g rest).kind ≠ .error) :
    read g (rest ++ b :: more) = read g rest := by
  generalize hread : read g = f at h ⊢
  have hopens : Opens g f := hread ▸ opens_read g
  cases hopens with
  | one l => rfl
  | pair two l =>
    dsimp only
    rw [equalNext_append hb.equal]
    cases hnext : equalNext rest with
    | true => exact covering_two hnext two
    | false => rfl
  | string => exact readString_append h
  | number =>
    dsimp only
    rw [← List.cons_append, numberWidth_append hb, covering_append (numberWidth_le _)]
  | name =>
    dsimp only
    rw [← List.cons_append, readName_append hb]

end Lexeme

/-! ## All tokens -/

/-- A hyphen before a blank is not the first of two. -/
theorem startsComment_append {b : Glyph} (hb : b.Separates) (g : Glyph) (rest more : List Glyph) :
    startsComment g (rest ++ b :: more) = startsComment g rest := by
  cases rest with
  | nil => simp [startsComment, hb.hyphen]
  | cons next rest => rfl

/-- There is always a token, the one that marks the end. -/
theorem scan_ne_nil (mode : ScanMode) (p : Position) (gs : List Glyph) : scan mode p gs ≠ [] := by
  obtain ⟨body, stop, hscan, -⟩ := scan_eq mode p gs
  rw [hscan]
  exact List.append_ne_nil_of_right_ne_nil _ (List.cons_ne_nil _ _)

/-- The tokens of some characters, none of them faulty, are followed by those of the next line. -/
theorem scan_append (more : List Glyph) : ∀ (mode : ScanMode) (p : Position) (gs : List Glyph),
    (∀ g ∈ gs, g.Faithful) → mode.left ≤ gs.length → (∀ t ∈ scan mode p gs, t.kind ≠ .error) →
    scan mode p (gs ++ .lineFeed :: more) =
      (scan mode p gs).dropLast ++ scan (.token 0) ((p.pastAll gs).past .lineFeed) more
  | .token (left + 1), p, [], _, hleft, _ => absurd hleft (Nat.not_succ_le_zero left)
  | .token 0, p, [], _, _, _ => rfl
  | .comment, p, [], _, _, _ => rfl
  | .token (left + 1), p, g :: rest, hgs, hleft, hnone => by
    rw [List.cons_append, scan, scan]
    exact scan_append more (.token left) (p.past g) rest (List.forall_mem_cons.1 hgs).2
      (Nat.le_of_succ_le_succ hleft) hnone
  | .comment, p, g :: rest, hgs, _, hnone => by
    rw [List.cons_append, scan, scan]
    refine scan_append more _ (p.past g) rest (List.forall_mem_cons.1 hgs).2 ?_ hnone
    split <;> exact Nat.zero_le _
  | .token 0, p, g :: rest, hgs, _, hnone => by
    have hrest := (List.forall_mem_cons.1 hgs).2
    have hfeed : Glyph.lineFeed.Separates := Glyph.separates_of_isLayout rfl
    rw [scan] at hnone
    rw [List.cons_append, scan, scan, startsComment_append hfeed]
    split at hnone
    next hlayout =>
      rw [if_pos hlayout, if_pos hlayout]
      exact scan_append more (.token 0) (p.past g) rest hrest (Nat.zero_le _) hnone
    next hlayout =>
    rw [if_neg hlayout, if_neg hlayout]
    split at hnone
    next hopen =>
      rw [if_pos hopen, if_pos hopen]
      exact scan_append more .comment (p.past g) rest hrest (Nat.zero_le _) hnone
    next hopen =>
      rw [if_neg hopen, if_neg hopen]
      obtain ⟨hfirst, hnone⟩ := List.forall_mem_cons.1 hnone
      have hwidth := (Lexeme.covers_read hgs).width_le
      have ih := scan_append more (.token ((Lexeme.read g rest).width - 1)) (p.past g) rest hrest
        (by rw [ScanMode.left]; rw [List.length_cons] at hwidth; omega) hnone
      dsimp only
      rw [Lexeme.read_append hfeed hfirst, ← List.cons_append, List.take_append_of_le_length hwidth,
        ih, List.dropLast_cons_of_ne_nil (scan_ne_nil _ _ _)]
      rfl

/-- A text with another one in the lines below. -/
def stacked (first second : Bytes) : Bytes := first ++ 0x0A :: second

/-- If no token of a text is faulty, the text with another one below it has its tokens, and then
those of the other one from the next line on. -/
theorem tokenize_stacked (first second : Bytes) (h : ∀ t ∈ tokenize first, t.kind ≠ .error) :
    tokenize (stacked first second) = (tokenize first).dropLast ++
      scan (.token 0) ((Position.start.pastAll (Utf8.glyphs first)).past .lineFeed)
        (Utf8.glyphs second) := by
  rw [tokenize, stacked, Utf8.glyphs_append_ascii (by decide)]
  exact scan_append _ (.token 0) Position.start _ (fun g => Utf8.faithful_of_mem) (Nat.zero_le _) h

/-- What a token says, but for its place. -/
def Token.content (t : Token) : TokenKind × Bytes := (t.kind, t.literal)

/-- Where a text stands matters to the places of its tokens only. -/
theorem contents_scan : ∀ (mode : ScanMode) (p q : Position) (gs : List Glyph),
    (scan mode p gs).map Token.content = (scan mode q gs).map Token.content
  | mode, _, _, [] => by cases mode <;> rfl
  | .token (left + 1), p, q, g :: rest => by
    rw [scan, scan]
    exact contents_scan (.token left) (p.past g) (q.past g) rest
  | .comment, p, q, g :: rest => by
    rw [scan, scan]
    exact contents_scan _ (p.past g) (q.past g) rest
  | .token 0, p, q, g :: rest => by
    rw [scan, scan]
    split
    · exact contents_scan (.token 0) (p.past g) (q.past g) rest
    split
    · exact contents_scan .comment (p.past g) (q.past g) rest
    · exact congrArg (_ :: ·)
        (contents_scan (.token ((Lexeme.read g rest).width - 1)) (p.past g) (q.past g) rest)

theorem kinds_of_contents {ts ts' : List Token}
    (h : ts'.map Token.content = ts.map Token.content) :
    ts'.map Token.kind = ts.map Token.kind := by
  have hkinds := congrArg (List.map Prod.fst) h
  rwa [List.map_map, List.map_map] at hkinds

end Scriptlet
