import Mathlib.Data.List.TakeWhile
import Scriptlet.Proofs.Agreement
import Scriptlet.Proofs.Compiled
import Scriptlet.Proofs.Lines
import Scriptlet.Proofs.Precedence

/-!
# Texts with the same tokens

The tokens of a text can be written out again with other blanks and comments between them
(`Respaced`). A token is read from its own characters alone (`Lexeme.read_take`) as well as before a
blank, so the text that comes of it has the same tokens but for their places (`contents_respaced`).
Neither the reader of trees nor the code generator looks at places : texts with the same tokens have
the same trees but for the ranges in them (`parse_of_contents`), and the same code.

Main statement : `layout_immaterial`.
-/

namespace Scriptlet

/-! ## One token -/

namespace Lexeme

variable {g b : Glyph} {gs rest more : List Glyph}

theorem digitRun_take (gs : List Glyph) : digitRun (gs.take (digitRun gs)) = digitRun gs := by
  rw [digitRun, digitRun, take_takeWhile, List.takeWhile_idem]

theorem numberWidth_take (gs : List Glyph) :
    numberWidth (gs.take (numberWidth gs)) = numberWidth gs := by
  have hrun := digitRun_take gs
  have hlength : (gs.take (digitRun gs)).length = digitRun gs :=
    List.length_take_of_le (digitRun_le gs)
  have hwhole (h : numberWidth gs = digitRun gs) :
      numberWidth (gs.take (numberWidth gs)) = numberWidth gs := by
    rw [h, numberWidth, hrun, List.drop_of_length_le (Nat.le_of_eq hlength)]
  cases hdrop : gs.drop (digitRun gs) with
  | nil => exact hwhole (by rw [numberWidth, hdrop])
  | cons point rest =>
    by_cases hpoint : (point.is '.' && decide (0 < digitRun rest)) = true
    · have hdigit : isDigit point.code = false := by
        rw [Bool.and_eq_true, Glyph.is, beq_iff_eq] at hpoint
        rw [hpoint.1]
        rfl
      have hwidth : numberWidth gs = digitRun gs + 1 + digitRun rest := by
        simp only [numberWidth, hdrop, hpoint, if_true]
      have htake : gs.take (numberWidth gs) =
          gs.take (digitRun gs) ++ point :: rest.take (digitRun rest) := by
        rw [hwidth, Nat.add_assoc, List.take_add, hdrop, Nat.add_comm 1, List.take_succ_cons]
      rw [htake, hwidth, numberWidth, digitRun_append hdigit, hrun, List.drop_left' hlength]
      simp only [digitRun_take, hpoint, if_true]
    · exact hwhole (by simp only [numberWidth, hdrop, hpoint, Bool.false_eq_true, if_false])

theorem readName_take (gs : List Glyph) :
    readName (gs.take (readName gs).width) = readName gs := by
  have htake : gs.take (readName gs).width = gs.takeWhile continuesName :=
    take_takeWhile continuesName gs
  rw [htake, readName, readName, List.takeWhile_idem]

/-- The characters that a token takes are read alone as the same token. -/
theorem read_take (h : (read g rest).kind ∉ [TokenKind.error, .string]) :
    read g (rest.take ((read g rest).width - 1)) = read g rest := by
  obtain ⟨hpos, -⟩ := proper_read g rest
  have htake := (List.take_cons (a := g) (l := rest) hpos).symm
  generalize hread : read g = f at h htake ⊢
  have hopens : Opens g f := hread ▸ opens_read g
  cases hopens with
  | one l => rfl
  | pair two l hl =>
    cases hnext : equalNext rest with
    | true =>
      cases rest with
      | nil => cases hnext
      | cons next rest =>
        have hkept : equalNext ((next :: rest).take 1) = true := hnext
        simp only [hnext, hkept, if_true, covering]
        rfl
    | false =>
      simp only [hnext, Bool.false_eq_true, if_false, hl]
      rfl
  | string =>
    refine absurd ?_ h
    rw [readString]
    split <;> simp
  | number =>
    dsimp only [covering] at htake ⊢
    rw [htake, numberWidth_take, List.take_take, Nat.min_self]
  | name =>
    dsimp only at htake ⊢
    rw [htake, readName_take]

/-- No token starts with a blank. -/
theorem kind_of_isLayout (h : g.isLayout = true) : (read g rest).kind = .error := by
  obtain ⟨⟨hletter, hdigit⟩, -⟩ : (isLetter g.code = false ∧ isDigit g.code = false) ∧
      g.is '_' = false := by
    have hname := (Glyph.separates_of_isLayout h).name
    rwa [continuesName, Bool.or_eq_false_iff, Bool.or_eq_false_iff] at hname
  have hcode := Glyph.code_of_isLayout h
  simp only [List.mem_cons, List.not_mem_nil, or_false] at hcode
  rcases hcode with hcode | hcode | hcode | hcode <;> rw [hcode] at hletter hdigit <;>
    simp [read, Glyph.is, hcode, hdigit, startsName, hletter]

theorem read_of_quote (h : (g.is '"' || g.is '\'') = true) : read g rest = readString g rest := by
  rw [Bool.or_eq_true, Glyph.is, Glyph.is, beq_iff_eq, beq_iff_eq] at h
  rcases h with h | h <;> simp [read, Glyph.is, h]

end Lexeme

/-- A blank stands behind the characters, or nothing. -/
def BlankNext (gs : List Glyph) : Prop := ∀ b ∈ gs.head?, b.isLayout = true

theorem Lexeme.read_append_blank {g : Glyph} {rest tail : List Glyph} (htail : BlankNext tail)
    (h : (read g rest).kind ≠ .error) : read g (rest ++ tail) = read g rest := by
  cases tail with
  | nil => rw [List.append_nil]
  | cons b more => exact read_append (Glyph.separates_of_isLayout (htail b rfl)) h

theorem startsComment_append_blank {tail : List Glyph} (htail : BlankNext tail) (g : Glyph)
    (rest : List Glyph) : startsComment g (rest ++ tail) = startsComment g rest := by
  cases tail with
  | nil => rw [List.append_nil]
  | cons b more =>
    exact startsComment_append (Glyph.separates_of_isLayout (htail b rfl)) g rest more

/-- What the tokens of some characters say. -/
def contents (gs : List Glyph) : List (TokenKind × Bytes) :=
  (scan (.token 0) .start gs).map Token.content

/-- A single hyphen is all that the token that starts with it takes. -/
theorem startsComment_of_read {g : Glyph} {rest : List Glyph}
    (hwidth : (Lexeme.read g rest).width = rest.length + 1) : startsComment g rest = false := by
  cases hhyphen : g.is '-' with
  | false => rw [startsComment, hhyphen, Bool.false_and]
  | true =>
    have hread : (Lexeme.read g rest).width = 1 := by
      have hcode : g.code = 0x2D := beq_iff_eq.1 hhyphen
      simp [Lexeme.read, Glyph.is, hcode, Lexeme.covering]
    obtain rfl : rest = [] := List.eq_nil_of_length_eq_zero (by omega)
    rw [startsComment, Bool.and_eq_false_iff]
    exact .inr rfl

/-- Characters that are read as one token give this token before a blank and at the end of the
text. -/
theorem contents_read {g : Glyph} {rest tail : List Glyph}
    (hkind : (Lexeme.read g rest).kind ≠ .error)
    (hwidth : (Lexeme.read g rest).width = rest.length + 1) (htail : BlankNext tail) :
    contents (g :: rest ++ tail) =
      ((Lexeme.read g rest).kind, (Lexeme.read g rest).literal) :: contents tail := by
  have hlayout : ¬g.isLayout = true := fun h => hkind (Lexeme.kind_of_isLayout h)
  have hcomment : ¬startsComment g (rest ++ tail) = true := by
    rw [startsComment_append_blank htail, startsComment_of_read hwidth]
    exact Bool.false_ne_true
  rw [contents, List.cons_append, scan, if_neg hlayout, if_neg hcomment]
  dsimp only
  rw [Lexeme.read_append_blank htail hkind, List.map_cons, scan_token, hwidth, Nat.add_sub_cancel,
    List.drop_left]
  exact congrArg (_ :: ·) (contents_scan _ _ _ _)

/-! ## Gaps -/

theorem contents_blank {b : Glyph} (hb : b.isLayout = true) (gs : List Glyph) :
    contents (b :: gs) = contents gs := by
  rw [contents, scan, if_pos hb]
  exact contents_scan _ _ _ _

/-- A comment ends with its line. -/
theorem contents_in_comment (gs : List Glyph) : ∀ (body : List Glyph) (p : Position),
    (∀ g ∈ body, g.is '\n' = false) →
    (scan .comment p (body ++ .lineFeed :: gs)).map Token.content = contents gs
  | [], p, _ => contents_scan (.token 0) _ _ gs
  | g :: body, p, h => by
    obtain ⟨hg, hbody⟩ := List.forall_mem_cons.1 h
    rw [List.cons_append, scan, hg]
    exact contents_in_comment gs body (p.past g) hbody

theorem contents_comment {body : Bytes} (hbody : 0x0A ∉ body) (s : Bytes) :
    contents (Utf8.glyphs (0x2D :: 0x2D :: body ++ 0x0A :: s)) = contents (Utf8.glyphs s) := by
  have hglyphs : Utf8.glyphs (0x2D :: 0x2D :: body ++ 0x0A :: s) =
      ⟨0x2D, [0x2D]⟩ :: ⟨0x2D, [0x2D]⟩ :: (Utf8.glyphs body ++ .lineFeed :: Utf8.glyphs s) := by
    have hfirst := Utf8.glyphs_append_ascii (b := 0x2D) (by decide) (0x2D :: body ++ 0x0A :: s) []
    have hsecond := Utf8.glyphs_append_ascii (b := 0x2D) (by decide) (body ++ 0x0A :: s) []
    exact hfirst.trans (congrArg (_ :: ·) (hsecond.trans
      (congrArg (_ :: ·) (Utf8.glyphs_append_ascii (by decide) s body))))
  have hline : ∀ g ∈ Utf8.glyphs body, g.is '\n' = false := by
    intro g hg
    rw [Glyph.is, beq_eq_false_iff_ne]
    intro hcode
    rw [← Utf8.join_glyphs body,
      Utf8.mem_join_iff (fun g => Utf8.faithful_of_mem) (by decide)] at hbody
    exact hbody ⟨g, hg, hcode⟩
  have hopen : startsComment ⟨0x2D, [0x2D]⟩ (⟨0x2D, [0x2D]⟩ ::
      (Utf8.glyphs body ++ .lineFeed :: Utf8.glyphs s)) = true := rfl
  rw [hglyphs, contents, scan, if_neg (by decide), if_pos hopen]
  exact contents_in_comment (Utf8.glyphs s) (⟨0x2D, [0x2D]⟩ :: Utf8.glyphs body) _
    (List.forall_mem_cons.2 ⟨rfl, hline⟩)

theorem ascii_of_blank {b : UInt8} (hb : b ∈ [(0x20 : UInt8), 0x09, 0x0A, 0x0D]) :
    b < 0x80 ∧ Glyph.isLayout ⟨b.toNat, [b]⟩ = true := by
  have hall : ∀ b ∈ [(0x20 : UInt8), 0x09, 0x0A, 0x0D],
      b < 0x80 ∧ Glyph.isLayout ⟨b.toNat, [b]⟩ = true := by
    simp [Glyph.isLayout, Glyph.is]
  exact hall b hb

/-- A gap holds no token. -/
theorem contents_gap {gap : Bytes} (h : Layout false gap) (s : Bytes) :
    contents (Utf8.glyphs (gap ++ s)) = contents (Utf8.glyphs s) := by
  generalize hend : false = atEnd at h
  induction h with
  | nil => rfl
  | @blank _ b gap hb _ ih =>
    obtain ⟨hascii, hlayout⟩ := ascii_of_blank hb
    have hglyphs := Utf8.glyphs_append_ascii hascii (gap ++ s) []
    exact (congrArg contents hglyphs).trans ((contents_blank hlayout _).trans (ih hend))
  | @comment _ body gap hbody _ ih =>
    rw [List.append_assoc]
    exact (contents_comment hbody (gap ++ s)).trans (ih hend)
  | lastComment => cases hend

/-- A gap that starts with a blank. -/
def Separator (gap : Bytes) : Prop :=
  ∃ b rest, gap = b :: rest ∧ b ∈ [(0x20 : UInt8), 0x09, 0x0A, 0x0D] ∧ Layout false rest

/-! ## Writing tokens out -/

/-- Tokens, given by what they say, are written out as the text : each as it is spelled, a string in
quotes that it does not hold, with a gap that starts with a blank between any two. The end of the
text is written as nothing; there may be a gap before it or not. -/
inductive Respaced : List (TokenKind × Bytes) → Bytes → Prop where
  | stop {literal} : Respaced [(.eof, literal)] []
  | last {kind literal covered literal'} : kind ≠ .eof → kind.Spells literal covered →
      Respaced [(kind, literal), (.eof, literal')] covered
  | token {kind literal cs covered gap s} : kind ≠ .eof → kind.Spells literal covered →
      Separator gap → Respaced cs s → Respaced ((kind, literal) :: cs) (covered ++ (gap ++ s))

/-- The tokens of a text can be written out. -/
theorem Cuts.exists_respaced {start : Nat} {s : Bytes} {ts : List Token} (h : Cuts start s ts) :
    ∃ text, Respaced (ts.map Token.content) text := by
  induction h with
  | stop _ hkind =>
    refine ⟨[], ?_⟩
    rw [List.map_singleton, Token.content, hkind]
    exact .stop
  | token _ _ hkind _ _ hspells _ ih =>
    obtain ⟨text, htext⟩ := ih
    exact ⟨_, .token hkind hspells ⟨0x20, [], rfl, by decide, .nil⟩ htext⟩

variable {source : Bytes} {t : Token} {covered : Bytes}

/-- A token of a text other than a string is read from its own bytes. -/
theorem read_of_mem_tokenize (ht : t ∈ tokenize source)
    (hkind : t.kind ∉ [TokenKind.eof, .error, .string]) :
    ∃ g rest, Utf8.glyphs t.literal = g :: rest ∧
      Lexeme.read g rest = ⟨t.kind, t.literal, rest.length + 1⟩ := by
  simp only [List.mem_cons, List.not_mem_nil, or_false, not_or] at hkind
  obtain ⟨g, rest, hsuffix, hk, hliteral⟩ := readIn_of_mem_scan ht hkind.1
  have hfaithful : ∀ g' ∈ g :: rest, g'.Faithful := fun g' hg' =>
    Utf8.faithful_of_mem (hsuffix.subset hg')
  obtain ⟨hle, hspells⟩ := Lexeme.covers_read hfaithful
  obtain ⟨hpos, -⟩ := Lexeme.proper_read g rest
  have hplain : (Lexeme.read g rest).kind ∉ [TokenKind.error, .string] := by
    rw [← hk]
    simp [hkind.2]
  have hcovered : t.literal = Utf8.join ((g :: rest).take (Lexeme.read g rest).width) := by
    rw [hliteral]
    exact hspells.eq hplain
  rw [List.take_cons hpos] at hcovered
  refine ⟨g, rest.take ((Lexeme.read g rest).width - 1), ?_, ?_⟩
  · rw [hcovered]
    refine Utf8.glyphs_join_of_infix (s := source) (List.IsInfix.trans ?_ hsuffix.isInfix)
    rw [← List.take_cons hpos]
    exact (List.take_prefix _ _).isInfix
  · rw [Lexeme.read_take hplain, hk, hliteral, List.length_take_of_le, Nat.sub_add_cancel hpos]
    rw [List.length_cons] at hle
    omega

/-- A string in quotes is read as the string. -/
theorem read_of_quoted {q : UInt8} (hq : q ∈ [(0x22 : UInt8), 0x27]) {literal : Bytes}
    (hfree : q ∉ literal) : ∃ g rest, Utf8.glyphs (q :: literal ++ [q]) = g :: rest ∧
      Lexeme.read g rest = ⟨.string, literal, rest.length + 1⟩ := by
  have hall : ∀ q ∈ [(0x22 : UInt8), 0x27], q < 0x80 ∧
      (Glyph.is ⟨q.toNat, [q]⟩ '"' || Glyph.is ⟨q.toNat, [q]⟩ '\'') = true := by
    simp [Glyph.is]
  obtain ⟨hascii, hquote⟩ := hall q hq
  have hglyphs : Utf8.glyphs (q :: literal ++ [q]) =
      ⟨q.toNat, [q]⟩ :: (Utf8.glyphs literal ++ [⟨q.toNat, [q]⟩]) :=
    (Utf8.glyphs_append_ascii hascii (literal ++ [q]) []).trans
      (congrArg (_ :: ·) (Utf8.glyphs_append_ascii hascii [] literal))
  have hbody : List.takeWhile (fun g : Glyph => g.code != q.toNat)
      (Utf8.glyphs literal ++ [⟨q.toNat, [q]⟩]) = Utf8.glyphs literal := by
    rw [takeWhile_append_cons (by simp), List.takeWhile_eq_self_iff]
    intro g hg
    rw [bne_iff_ne]
    intro hcode
    rw [← Utf8.join_glyphs literal,
      Utf8.mem_join_iff (fun g => Utf8.faithful_of_mem) hascii] at hfree
    exact hfree ⟨g, hg, hcode⟩
  refine ⟨_, _, hglyphs, ?_⟩
  rw [Lexeme.read_of_quote hquote, Lexeme.readString, hbody, if_pos (by simp), Utf8.join_glyphs]
  simp

/-- The bytes that spell a token of a text are read as the token. -/
theorem read_of_spells (ht : t ∈ tokenize source) (hkind : t.kind ∉ [TokenKind.eof, .error])
    (hspells : t.kind.Spells t.literal covered) : ∃ g rest, Utf8.glyphs covered = g :: rest ∧
      Lexeme.read g rest = ⟨t.kind, t.literal, rest.length + 1⟩ := by
  by_cases hstring : t.kind = .string
  · rw [hstring] at hspells ⊢
    obtain ⟨q, hq, hfree, rfl⟩ := hspells
    exact read_of_quoted hq hfree
  · simp only [List.mem_cons, List.not_mem_nil, or_false, not_or] at hkind
    rw [← hspells.eq (by simp [hkind.2, hstring])]
    exact read_of_mem_tokenize ht (by simp [hkind, hstring])

/-- A text that is read as one token gives this token before a blank and at the end of the text. -/
theorem contents_of_read {s literal : Bytes} {kind : TokenKind}
    (h : ∃ g rest, Utf8.glyphs s = g :: rest ∧
      Lexeme.read g rest = ⟨kind, literal, rest.length + 1⟩)
    (hkind : kind ≠ .error) {tail : List Glyph} (htail : BlankNext tail) :
    contents (Utf8.glyphs s ++ tail) = (kind, literal) :: contents tail := by
  obtain ⟨g, rest, hglyphs, hread⟩ := h
  rw [hglyphs, contents_read (by rw [hread]; exact hkind) (by rw [hread]) htail, hread]

/-- The bytes that spell a token give this token before a gap and at the end of the text. -/
theorem contents_spelled (ht : t ∈ tokenize source) (hkind : t.kind ∉ [TokenKind.eof, .error])
    (hspells : t.kind.Spells t.literal covered) {tail : List Glyph} (htail : BlankNext tail) :
    contents (Utf8.glyphs covered ++ tail) = t.content :: contents tail :=
  contents_of_read (read_of_spells ht hkind hspells) (fun h => hkind (h ▸ by simp)) htail

theorem contents_separated (ht : t ∈ tokenize source) (hkind : t.kind ∉ [TokenKind.eof, .error])
    (hspells : t.kind.Spells t.literal covered) {gap : Bytes} (hgap : Separator gap) (s : Bytes) :
    contents (Utf8.glyphs (covered ++ (gap ++ s))) = t.content :: contents (Utf8.glyphs s) := by
  obtain ⟨b, rest, rfl, hb, hrest⟩ := hgap
  obtain ⟨hascii, hlayout⟩ := ascii_of_blank hb
  rw [List.cons_append, Utf8.glyphs_append_ascii hascii,
    contents_spelled ht hkind hspells (by rintro - ⟨⟩; exact hlayout), contents_blank hlayout,
    contents_gap hrest]

/-- Tokens that are written out are read again. -/
theorem contents_respaced {cs : List (TokenKind × Bytes)} {text : Bytes} (h : Respaced cs text)
    (hcs : ∀ c ∈ cs, ∃ t ∈ tokenize source, t.content = c ∧ t.kind ≠ .error) :
    contents (Utf8.glyphs text) = cs := by
  have hcuts := cuts_tokenize source
  have hstop {literal : Bytes} (h : ∃ t ∈ tokenize source, t.content = (.eof, literal) ∧
      t.kind ≠ .error) : literal = [] := by
    obtain ⟨t, ht, hcontent, -⟩ := h
    obtain ⟨hkind, rfl⟩ := Prod.mk.inj hcontent
    exact ((hcuts.covered t ht).resolve_right fun h => h.1 hkind).2
  induction h with
  | stop =>
    obtain rfl := hstop (hcs _ List.mem_cons_self)
    rfl
  | last hkind hspells =>
    obtain ⟨⟨t, ht, hcontent, herror⟩, hrest⟩ := List.forall_mem_cons.1 hcs
    obtain rfl := hstop (hrest _ List.mem_cons_self)
    obtain ⟨rfl, rfl⟩ := Prod.mk.inj hcontent
    have hend : BlankNext [] := nofun
    have h := contents_spelled ht (by simp [hkind, herror]) hspells hend
    rw [List.append_nil] at h
    exact h
  | token hkind hspells hgap _ ih =>
    obtain ⟨⟨t, ht, hcontent, herror⟩, hrest⟩ := List.forall_mem_cons.1 hcs
    obtain ⟨rfl, rfl⟩ := Prod.mk.inj hcontent
    rw [contents_separated ht (by simp [hkind, herror]) hspells hgap, ih hrest]
    rfl

/-! ## Trees without their ranges -/

mutual

/-- The statement without its ranges. -/
def Stmt.bare : Stmt → Stmt
  | .print _ newline value => .print default newline value.bare
  | .assign _ name _ value => .assign default name default value.bare
  | .expr _ value => .expr default value.bare
  | .cond _ test yes no => .cond default test.bare (Stmt.bareOf yes) (Stmt.bareOf no)
  | .loop _ test body => .loop default test.bare (Stmt.bareOf body)

/-- Some statements without their ranges. -/
def Stmt.bareOf : List Stmt → List Stmt
  | [] => []
  | s :: rest => s.bare :: Stmt.bareOf rest

end

theorem Stmt.isOpen_bare (s : Stmt) : s.bare.isOpen = s.isOpen := by
  cases s <;> rfl

/-- The code of an expression does not depend on its ranges. -/
theorem Expr.code_bare (e : Expr) : e.bare.code = e.code := by
  induction e with
  | number | string | bool | ident => rfl
  | group _ _ ih => exact ih
  | unary _ _ _ ih => rw [bare, code, code, ih]
  | binary _ _ _ _ ihl ihr => rw [bare, code, code, ihl, ihr]

mutual

theorem Stmt.labelCount_bare : ∀ s : Stmt, s.bare.labelCount = s.labelCount
  | .print _ _ _ | .assign _ _ _ _ | .expr _ _ => rfl
  | .cond _ _ yes no => by
    rw [bare, labelCount, labelCount, labelCountOf_bare yes, labelCountOf_bare no]
  | .loop _ _ body => by rw [bare, labelCount, labelCount, labelCountOf_bare body]

theorem Stmt.labelCountOf_bare : ∀ ss : List Stmt,
    Stmt.labelCountOf (Stmt.bareOf ss) = Stmt.labelCountOf ss
  | [] => rfl
  | s :: rest => by
    rw [bareOf, labelCountOf, labelCountOf, labelCount_bare s, labelCountOf_bare rest]

end

mutual

/-- The code of a statement does not depend on its ranges. -/
theorem Stmt.code_bare : ∀ (n : Nat) (s : Stmt), s.bare.code n = s.code n
  | n, .print _ _ _ | n, .assign _ _ _ _ | n, .expr _ _ => by
    rw [bare, code, code, Expr.code_bare]
  | n, .cond _ _ yes no => by
    rw [bare, code, code, Expr.code_bare, codeOf_bare (n + 2) yes, labelCountOf_bare yes,
      codeOf_bare _ no]
  | n, .loop _ _ body => by rw [bare, code, code, Expr.code_bare, codeOf_bare (n + 2) body]

theorem Stmt.codeOf_bare : ∀ (n : Nat) (ss : List Stmt),
    Stmt.codeOf n (Stmt.bareOf ss) = Stmt.codeOf n ss
  | _, [] => rfl
  | n, s :: rest => by
    rw [bareOf, codeOf, codeOf, code_bare n s, labelCount_bare s, codeOf_bare _ rest]

end

/-! ## Reading tokens that say the same -/

theorem Token.kind_of_content {t t' : Token} (h : t'.content = t.content) : t'.kind = t.kind :=
  congrArg Prod.fst h

theorem Token.symbol_of_content {t t' : Token} (h : t'.content = t.content) :
    t'.symbol = t.symbol := by
  obtain ⟨hkind, hliteral⟩ := Prod.mk.inj h
  rw [symbol, symbol, hkind, hliteral]

theorem symbols_of_contents : ∀ {u u' : List Token},
    u'.map Token.content = u.map Token.content → u'.map Token.symbol = u.map Token.symbol
  | [], u', h => by rw [List.map_eq_nil_iff.1 h]
  | t :: u, u', h => by
    obtain ⟨t', u', rfl, ht, hu⟩ := List.map_eq_cons_iff.1 h
    rw [List.map_cons, List.map_cons, Token.symbol_of_content ht, symbols_of_contents hu]

/-- Tokens that say the same are read as the same expression, but for its ranges. -/
theorem Expr.Reads.exists_of_contents {c : Category} {e : Expr} {u u' : List Token}
    (h : e.Reads c u) (hc : c.isExpression) (hu : u'.map Token.content = u.map Token.content) :
    ∃ e', Expr.Reads c e' u' ∧ e'.bare = e.bare := by
  refine e.exists_reads_of_symbols (fun x hx => ?_) ?_ hc h.grouped.2
  · obtain ⟨_, _, -, hreads⟩ := h.allWithin x hx
    exact hreads.grouped.1
  · rw [symbols_of_contents hu, h.symbols_eq]

/-- The tokens are read as the part of a script, but for its ranges. -/
def Part.ReadsBare (u : List Token) : Part → Prop
  | .statement s => ∃ s', Part.Reads (.statement s') u ∧ s'.bare = s.bare
  | .block ss => ∃ ss', Part.Reads (.block ss') u ∧ Stmt.bareOf ss' = Stmt.bareOf ss
  | .branch word s => ∃ s', Part.Reads (.branch word s') u ∧ s'.bare = s.bare
  | .rest no _ => ∃ no' stop', Part.Reads (.rest no' stop') u ∧ Stmt.bareOf no' = Stmt.bareOf no

theorem Apart.of_contents {s s' : Stmt} {v v' : List Token} (h : Apart s v)
    (hs : s'.bare = s.bare) (hv : v'.map Token.content = v.map Token.content) : Apart s' v' := by
  intro hopen t ht hkind
  rw [← s'.isOpen_bare, hs, s.isOpen_bare] at hopen
  obtain ⟨rest, rfl⟩ := List.head?_eq_some_iff.1 ht
  obtain ⟨t₀, v₀, rfl, ht₀, -⟩ := List.map_eq_cons_iff.1 hv.symm
  exact h hopen t₀ rfl (Token.kind_of_content ht₀ ▸ hkind)

/-- Tokens that say the same are read as the same part of a script, but for its ranges. -/
theorem Part.Reads.readsBare {p : Part} {u u' : List Token} (h : p.Reads u)
    (hu : u'.map Token.content = u.map Token.content) : p.ReadsBare u' := by
  induction h generalizing u' with
  | print hk he =>
    obtain ⟨t', v', rfl, ht, hv⟩ := List.map_eq_cons_iff.1 hu
    have hkind := Token.kind_of_content ht
    obtain ⟨e', he', hbare⟩ := he.exists_of_contents rfl hv
    refine ⟨_, .print (hkind ▸ hk) he', ?_⟩
    rw [Stmt.bare, Stmt.bare, hbare, hkind]
  | assign hk ha he =>
    obtain ⟨t', av', rfl, ht, hav⟩ := List.map_eq_cons_iff.1 hu
    obtain ⟨a', v', rfl, ha', hv⟩ := List.map_eq_cons_iff.1 hav
    obtain ⟨hkind, hliteral⟩ := Prod.mk.inj ht
    obtain ⟨e', he', hbare⟩ := he.exists_of_contents rfl hv
    refine ⟨_, .assign (hkind.trans hk) ((Token.kind_of_content ha').trans ha) he', ?_⟩
    rw [Stmt.bare, Stmt.bare, hbare, hliteral]
  | expr he =>
    obtain ⟨e', he', hbare⟩ := he.exists_of_contents rfl hu
    refine ⟨_, .expr he', ?_⟩
    rw [Stmt.bare, Stmt.bare, hbare]
  | cond _ ih =>
    obtain ⟨s', hs', hbare⟩ := ih hu
    exact ⟨s', .cond hs', hbare⟩
  | loop hk he hd _ hr ih =>
    rw [List.map_append, List.map_append, List.map_cons, List.map_cons] at hu
    obtain ⟨uv', rs', rfl, huv, hrs⟩ := List.map_eq_append_iff.1 hu
    obtain ⟨tu', dv', rfl, htu, hdv⟩ := List.map_eq_append_iff.1 huv
    obtain ⟨t', u', rfl, ht, hu'⟩ := List.map_eq_cons_iff.1 htu
    obtain ⟨d', v', rfl, hd', hv'⟩ := List.map_eq_cons_iff.1 hdv
    obtain ⟨r', rfl, hr'⟩ := List.map_eq_singleton_iff.1 hrs
    obtain ⟨e', he', hbare⟩ := he.exists_of_contents rfl hu'
    obtain ⟨body', hbody', hbares⟩ := ih hv'
    refine ⟨_, .loop ((Token.kind_of_content ht).trans hk) he'
      ((Token.kind_of_content hd').trans hd) hbody' ((Token.kind_of_content hr').trans hr), ?_⟩
    rw [Stmt.bare, Stmt.bare, hbare, hbares]
  | done =>
    obtain rfl := List.map_eq_nil_iff.1 hu
    exact ⟨[], .done, rfl⟩
  | more _ hapart _ ihs ihss =>
    rw [List.map_append] at hu
    obtain ⟨u', v', rfl, hu', hv'⟩ := List.map_eq_append_iff.1 hu
    obtain ⟨s', hs', hbare⟩ := ihs hu'
    obtain ⟨ss', hss', hbares⟩ := ihss hv'
    refine ⟨_, .more hs' (hapart.of_contents hbare hv') hss', ?_⟩
    rw [Stmt.bareOf, Stmt.bareOf, hbare, hbares]
  | branch hword hk he hd _ _ ihv ihw =>
    rw [List.map_append, List.map_append, List.map_cons, List.map_cons] at hu
    obtain ⟨uv', w', rfl, huv, hw'⟩ := List.map_eq_append_iff.1 hu
    obtain ⟨tu', dv', rfl, htu, hdv⟩ := List.map_eq_append_iff.1 huv
    obtain ⟨t', u', rfl, ht, hu'⟩ := List.map_eq_cons_iff.1 htu
    obtain ⟨d', v', rfl, hd', hv'⟩ := List.map_eq_cons_iff.1 hdv
    obtain ⟨e', he', hbare⟩ := he.exists_of_contents rfl hu'
    obtain ⟨yes', hyes', hbareyes⟩ := ihv hv'
    obtain ⟨no', stop', hno', hbareno⟩ := ihw hw'
    refine ⟨_, .branch hword ((Token.kind_of_content ht).trans hk) he'
      ((Token.kind_of_content hd').trans hd) hyes' hno', ?_⟩
    rw [Stmt.bare, Stmt.bare, hbare, hbareyes, hbareno]
  | close hr =>
    obtain ⟨r', rfl, hr'⟩ := List.map_eq_singleton_iff.1 hu
    exact ⟨[], _, .close ((Token.kind_of_content hr').trans hr), rfl⟩
  | otherwise ht _ hr ih =>
    rw [List.map_append, List.map_cons] at hu
    obtain ⟨tu', rs', rfl, htu, hrs⟩ := List.map_eq_append_iff.1 hu
    obtain ⟨t', u', rfl, ht', hu'⟩ := List.map_eq_cons_iff.1 htu
    obtain ⟨r', rfl, hr'⟩ := List.map_eq_singleton_iff.1 hrs
    obtain ⟨no', hno', hbare⟩ := ih hu'
    exact ⟨no', _, .otherwise ((Token.kind_of_content ht').trans ht) hno'
      ((Token.kind_of_content hr').trans hr), hbare⟩
  | elif _ ih =>
    obtain ⟨s', hs', hbare⟩ := ih hu
    exact ⟨_, _, .elif hs', congrArg (fun s => [s]) hbare⟩

/-! ## Texts with the same tokens -/

/-- A text with the same tokens as one that is read has the same tree but for its ranges. -/
theorem parse_of_contents {source text : Bytes} {script : Script}
    (hsame : (tokenize text).map Token.content = (tokenize source).map Token.content)
    (h : parse source = .ok script) : ∃ script', parse text = .ok script' ∧
      Stmt.bareOf script'.statements = Stmt.bareOf script.statements := by
  obtain ⟨body, stop, htokens, hstop, hbody, hreads⟩ := reads_of_parse h
  rw [htokens, List.map_append] at hsame
  obtain ⟨body', rest', htokens', hbody', hrest⟩ := List.map_eq_append_iff.1 hsame
  obtain ⟨stop', rfl, hstop'⟩ := List.map_eq_singleton_iff.1 hrest
  obtain ⟨ss', hreads', hbare⟩ := hreads.readsBare hbody'
  have hkinds := kinds_of_contents hbody'
  have hnone : ∀ t ∈ body', t.kind ≠ .error := by
    intro t ht
    have hmem : t.kind ∈ body.map Token.kind := hkinds ▸ List.mem_map_of_mem ht
    obtain ⟨t₀, ht₀, hkind⟩ := List.mem_map.1 hmem
    exact hkind ▸ (hbody t₀ ht₀).2
  obtain ⟨hstatements, herrors⟩ :=
    Parser.script_of_reads ((Token.kind_of_content hstop').trans hstop) hnone hreads'
  rw [← htokens'] at hstatements herrors
  exact ⟨_, parse_eq_ok.2 ⟨rfl, herrors⟩, by rw [hstatements, hbare]⟩

theorem isScript_of_contents {source text : Bytes}
    (hsame : (tokenize text).map Token.content = (tokenize source).map Token.content) :
    IsScript source ↔ IsScript text := by
  constructor
  · rintro ⟨script, h⟩
    obtain ⟨script', h', -⟩ := parse_of_contents hsame h
    exact ⟨script', h'⟩
  · rintro ⟨script, h⟩
    obtain ⟨script', h', -⟩ := parse_of_contents hsame.symm h
    exact ⟨script', h'⟩

/-- The programs of texts with the same tokens differ in nothing but their source maps. -/
theorem programs_of_contents {source text name : Bytes} {p q : Program}
    (hsame : (tokenize text).map Token.content = (tokenize source).map Token.content)
    (hp : compileSource name source = .ok p) (hq : compileSource name text = .ok q) :
    q = { p with sourceMap := q.sourceMap } := by
  obtain ⟨script, hscript, hp⟩ := exists_script_of_compileSource hp
  obtain ⟨script', hscript', hq⟩ := exists_script_of_compileSource hq
  obtain ⟨script'', htext, hbare⟩ := parse_of_contents hsame hscript
  obtain rfl := Except.ok.inj (hscript'.symm.trans htext)
  have hcode : q.code = p.code := by
    rw [← Array.toList_inj, (Script.code_of_compile hp).2, (Script.code_of_compile hq).2,
      Script.code, Script.code, ← Stmt.codeOf_bare, hbare, Stmt.codeOf_bare]
  obtain ⟨hversion, hname⟩ := header_of_compile hp
  obtain ⟨hversion', hname'⟩ := header_of_compile hq
  cases p
  cases q
  simp_all

/-- Layout does not matter. In a text without faulty tokens, no string holds both quotes, so that
the tokens can be written out again; and any text that they are written out as, with blanks and
comments of any kind between them, has the same tokens but for their places. So one of the two texts
has a program, under any name, if the other has, and the programs differ in their source maps
only. -/
theorem layout_immaterial {source : Bytes} (h : ∀ t ∈ tokenize source, t.kind ≠ .error) :
    (∀ t ∈ tokenize source, t.kind = .string → ∃ q ∈ [(0x22 : UInt8), 0x27], q ∉ t.literal) ∧
    (∃ text, Respaced ((tokenize source).map Token.content) text) ∧
    ∀ text, Respaced ((tokenize source).map Token.content) text →
      (tokenize text).map Token.content = (tokenize source).map Token.content ∧
      ∀ name, ((∃ p, compileSource name source = .ok p) ↔ ∃ q, compileSource name text = .ok q) ∧
        ∀ p q, compileSource name source = .ok p → compileSource name text = .ok q →
          q = { p with sourceMap := q.sourceMap } := by
  have hcuts := cuts_tokenize source
  refine ⟨fun t ht hkind => ?_, hcuts.exists_respaced, fun text htext => ?_⟩
  · rcases hcuts.covered t ht with ⟨heof, -⟩ | ⟨-, _, _, _, -, -, -, hspells⟩
    · exact nomatch hkind.symm.trans heof
    · rw [hkind] at hspells
      obtain ⟨q, hq, hfree, -⟩ := hspells
      exact ⟨q, hq, hfree⟩
  · have hsame : (tokenize text).map Token.content = (tokenize source).map Token.content :=
      contents_respaced htext fun c hc => by
        obtain ⟨t, ht, rfl⟩ := List.mem_map.1 hc
        exact ⟨t, ht, rfl, h t ht⟩
    refine ⟨hsame, fun name => ⟨?_, fun p q hp hq => programs_of_contents hsame hp hq⟩⟩
    rw [compileSource_isOk_iff, compileSource_isOk_iff]
    exact isScript_of_contents hsame

/-- A subtraction of a negative number, and the same on three lines with a comment. -/
theorem layout_immaterial_of_comment :
    let source : Bytes := "x:=2- -1print'a'"
    let text : Bytes := "x :=\t2\n- -- minus\n-\r\n1 print \"a\""
    (∀ t ∈ tokenize source, t.kind ≠ .error) ∧
      Respaced ((tokenize source).map Token.content) text ∧
      (tokenize text).map Token.content = (tokenize source).map Token.content ∧
      ∃ p q, compileSource [] source = .ok p ∧ compileSource [] text = .ok q ∧
        q = { p with sourceMap := q.sourceMap } := by
  intro source text
  have hnone : ∀ t ∈ tokenize source, t.kind ≠ .error := by decide +kernel
  have hcontents : (tokenize source).map Token.content = ([(.identifier, "x"), (.assign, ":="),
      (.number, "2"), (.minus, "-"), (.minus, "-"), (.number, "1"), (.printWord, "print"),
      (.string, "a"), (.eof, "")] : List (TokenKind × Bytes)) := by decide +kernel
  have htext : text = ("x" : Bytes) ++ ([0x20] ++ ((":=" : Bytes) ++ ([0x09] ++ (("2" : Bytes) ++
      ([0x0A] ++ (("-" : Bytes) ++ ((0x20 :: 0x2D :: 0x2D :: (" minus" : Bytes) ++ 0x0A :: []) ++
      (("-" : Bytes) ++ ([0x0D, 0x0A] ++ (("1" : Bytes) ++ ([0x20] ++ (("print" : Bytes) ++
      ([0x20] ++ (0x22 :: ("a" : Bytes) ++ [0x22])))))))))))))) := by decide +kernel
  have hrespaced : Respaced ((tokenize source).map Token.content) text := by
    have hspace : Separator [0x20] := ⟨0x20, [], rfl, by decide, .nil⟩
    have hword : TokenKind.identifier.Spells "x" "x" := ⟨rfl, by decide +kernel⟩
    rw [hcontents, htext]
    refine .token (by decide) hword hspace (.token (by decide) rfl ⟨0x09, [], rfl, by decide, .nil⟩
      (.token (by decide) rfl ⟨0x0A, [], rfl, by decide, .nil⟩ (.token (by decide) rfl
      ⟨0x20, _, rfl, by decide, .comment (by decide +kernel) .nil⟩ (.token (by decide) rfl
      ⟨0x0D, _, rfl, by decide, .blank (by decide) .nil⟩ (.token (by decide) rfl hspace
      (.token (by decide) rfl hspace (.last (by decide) ?_)))))))
    exact ⟨0x22, by decide, by decide +kernel, rfl⟩
  obtain ⟨-, -, hall⟩ := layout_immaterial hnone
  obtain ⟨hsame, hprograms⟩ := hall text hrespaced
  obtain ⟨hiff, hequal⟩ := hprograms []
  have hok : (compileSource [] source).isOk = true := by decide +kernel
  cases hp : compileSource [] source with
  | error e =>
    rw [hp] at hok
    cases hok
  | ok p =>
    obtain ⟨q, hq⟩ := hiff.1 ⟨p, hp⟩
    exact ⟨hnone, hrespaced, hsame, p, q, rfl, hq, hequal p q hp hq⟩

end Scriptlet
