import Scriptlet.Proofs.Lines
import Scriptlet.Proofs.Positions

/-!
# What stands around a name

The characters of a text are tokens with gaps between them, and each token is read with everything
that stands behind it (`Scanned`). So a name is not followed by a character that would go on with
it. What is next to it in a text without faulty tokens is a blank, a sign or a quote, all of them
characters of ASCII that are in no name, or the last digit of a number right before it
(`exists_around_name`).
-/

namespace Scriptlet

/-- A character of ASCII that is in no name. -/
def Glyph.Plain (g : Glyph) : Prop := g.code < 0x80 ∧ Lexeme.continuesName g = false

instance (g : Glyph) : Decidable g.Plain := inferInstanceAs (Decidable (_ ∧ _))

theorem Glyph.plain_of_is {g : Glyph} {c : Char} (hc : Plain ⟨c.toNat, []⟩) (h : g.is c = true) :
    g.Plain := by
  have hcode : g.code = c.toNat := beq_iff_eq.1 h
  simpa only [Plain, Lexeme.continuesName, Glyph.is, hcode] using hc

theorem Glyph.plain_of_isLayout {g : Glyph} (h : g.isLayout = true) : g.Plain := by
  have hascii : ∀ code ∈ [0x20, 0x09, 0x0A, 0x0D], code < 0x80 := by decide
  exact ⟨hascii _ (code_of_isLayout h), (separates_of_isLayout h).name⟩

theorem ascii_of_isDigit {code : Nat} (h : isDigit code = true) : code < 0x80 := by
  simp only [isDigit, Bool.and_eq_true, decide_eq_true_eq] at h
  omega

/-! ## The ends of one token -/

namespace Lexeme

variable {g : Glyph} {gs rest : List Glyph}

/-- How a token starts and ends. A faulty token may start and end with any character. -/
structure Bounded (g : Glyph) (rest : List Glyph) (l : Lexeme) : Prop where
  first : l.kind ≠ .error → g.code < 0x80 ∨ startsName g = true
  number : l.kind = .number → ∃ b ∈ ((g :: rest).take l.width).getLast?, isDigit b.code = true
  last : l.kind ∉ [TokenKind.error, .number] →
    (∃ b ∈ ((g :: rest).take l.width).getLast?, b.Plain) ∨
      ∀ b ∈ ((g :: rest).drop l.width).head?, continuesName b = false

theorem bounded_error (message : Bytes) (g : Glyph) (rest : List Glyph) :
    Bounded g rest ⟨.error, message, 1⟩ :=
  ⟨fun h => absurd rfl h, nofun, fun h => absurd List.mem_cons_self h⟩

theorem bounded_sign {kind : TokenKind} (hkind : kind ≠ .number) (hg : g.Plain) :
    Bounded g rest (covering kind 1 (g :: rest)) :=
  ⟨fun _ => .inl hg.1, fun h => absurd h hkind, fun _ => .inl ⟨g, rfl, hg⟩⟩

theorem bounded_signs {kind : TokenKind} (hkind : kind ≠ .number) (hg : g.Plain)
    (h : equalNext rest = true) : Bounded g rest (covering kind 2 (g :: rest)) := by
  cases rest with
  | nil => cases h
  | cons next rest =>
    have hnext : next.is '=' = true := h
    exact ⟨fun _ => .inl hg.1, fun h => absurd h hkind,
      fun _ => .inl ⟨next, rfl, Glyph.plain_of_is (by decide) hnext⟩⟩

/-- A string ends with a quote like the one it starts with. -/
theorem bounded_readString {q : Glyph} (hq : q.Plain) : Bounded q rest (readString q rest) := by
  rw [readString]
  split
  next hclosed =>
    obtain ⟨close, hclose, htake⟩ := exists_close rfl hclosed
    refine ⟨fun _ => .inl hq.1, (fun h => by cases h), fun _ => .inl ⟨close, ?_, ?_⟩⟩
    · rw [htake]
      exact List.getLast?_concat
    · simpa only [Glyph.Plain, continuesName, Glyph.is, hclose] using hq
  next =>
    exact ⟨fun h => absurd rfl h, (fun h => by cases h), fun h => absurd List.mem_cons_self h⟩

/-- The last of some digits in a row. -/
theorem exists_last_digit (h : 0 < digitRun gs) (before : List Glyph) :
    ∃ b ∈ (before ++ gs.take (digitRun gs)).getLast?, isDigit b.code = true := by
  have htake : gs.take (digitRun gs) = gs.takeWhile fun g => isDigit g.code := take_takeWhile _ gs
  have hne : gs.takeWhile (fun g => isDigit g.code) ≠ [] := List.length_pos_iff.1 h
  have hlast := List.getLast?_eq_some_getLast hne
  rw [htake]
  exact ⟨_, List.mem_getLast?_append_of_mem_getLast? hlast,
    List.mem_takeWhile_imp (p := fun g : Glyph => isDigit g.code) (List.getLast_mem hne)⟩

/-- A number is some digits, or digits before and behind a point. -/
theorem take_numberWidth (gs : List Glyph) :
    gs.take (numberWidth gs) = gs.take (digitRun gs) ∨
      ∃ point more, point.is '.' = true ∧ 0 < digitRun more ∧
        gs.take (numberWidth gs) =
          gs.take (digitRun gs) ++ [point] ++ more.take (digitRun more) := by
  rw [numberWidth]
  split
  next point more hdrop =>
    split
    next hpoint =>
      rw [Bool.and_eq_true, decide_eq_true_eq] at hpoint
      refine .inr ⟨point, more, hpoint.1, hpoint.2, ?_⟩
      rw [Nat.add_assoc, List.take_add, hdrop, Nat.add_comm 1, List.take_succ_cons]
      simp
    next => exact .inl rfl
  next => exact .inl rfl

/-- A number ends with a digit. -/
theorem exists_last_of_number (rest : List Glyph) (h : isDigit g.code = true) :
    ∃ b ∈ ((g :: rest).take (numberWidth (g :: rest))).getLast?, isDigit b.code = true := by
  rcases take_numberWidth (g :: rest) with htake | ⟨point, more, -, hmore, htake⟩
  · rw [htake]
    exact exists_last_digit (@digitRun_pos g rest h) []
  · rw [htake]
    exact exists_last_digit hmore _

theorem drop_takeWhile (p : Glyph → Bool) (gs : List Glyph) :
    gs.drop (gs.takeWhile p).length = gs.dropWhile p := by
  have hdrop : (gs.takeWhile p ++ gs.dropWhile p).drop (gs.takeWhile p).length =
      gs.dropWhile p := List.drop_left
  rwa [List.takeWhile_append_dropWhile] at hdrop

/-- A name ends where a character does not go on with it. -/
theorem head_of_readName (gs : List Glyph) :
    ∀ b ∈ (gs.drop (readName gs).width).head?, continuesName b = false := by
  have hdrop : gs.drop (readName gs).width = gs.dropWhile continuesName := drop_takeWhile _ _
  have hhead := List.head?_dropWhile_not continuesName gs
  rw [hdrop]
  intro b hb
  rwa [Option.mem_def.1 hb] at hhead

theorem bounded_readName (h : startsName g = true) : Bounded g rest (readName (g :: rest)) := by
  have hkind : (readName (g :: rest)).kind ≠ .number := by
    have hreserved : ∀ k ∈ TokenKind.reserved, k ≠ .number := by decide
    rcases ofWord?_cases (Utf8.join ((g :: rest).takeWhile continuesName)) with hname | hword
    · rw [readName, hname]
      exact fun h => by cases h
    · exact hreserved _ hword
  exact ⟨fun _ => .inr h, fun hk => absurd hk hkind, fun _ => .inr (head_of_readName _)⟩

theorem bounded_read (g : Glyph) (rest : List Glyph) : Bounded g rest (read g rest) := by
  have hone {kind : TokenKind} {c : Char} (hkind : kind ≠ .number) (hc : Glyph.Plain ⟨c.toNat, []⟩)
      (h : g.is c = true) : Bounded g rest (covering kind 1 (g :: rest)) :=
    bounded_sign hkind (Glyph.plain_of_is hc h)
  have htwo {kind : TokenKind} {c : Char} (hkind : kind ≠ .number) (hc : Glyph.Plain ⟨c.toNat, []⟩)
      (h : g.is c = true) (hnext : equalNext rest = true) :
      Bounded g rest (covering kind 2 (g :: rest)) :=
    bounded_signs hkind (Glyph.plain_of_is hc h) hnext
  have hstring (h : (g.is '"' || g.is '\'') = true) : Bounded g rest (readString g rest) := by
    rcases Bool.or_eq_true_iff.1 h with h | h <;>
      exact bounded_readString (Glyph.plain_of_is (by decide) h)
  unfold read
  dsimp only
  -- the cases of a string are not to be taken apart again
  generalize readString g rest = string at hstring ⊢
  repeat' refine iteInduction (fun _ => ?_) fun _ => ?_
  all_goals try exact bounded_error _ g rest
  iterate 8
    next h => exact hone (by decide) (by decide) h
  · next h hnext => exact htwo (by decide) (by decide) h hnext
  · next h _ => exact hone (by decide) (by decide) h
  · next h hnext => exact htwo (by decide) (by decide) h hnext
  · next h =>
      obtain ⟨hcolon, hnext⟩ := Bool.and_eq_true_iff.1 h
      exact htwo (by decide) (by decide) hcolon hnext
  · next h hnext => exact htwo (by decide) (by decide) h hnext
  · next h _ => exact hone (by decide) (by decide) h
  · next h hnext => exact htwo (by decide) (by decide) h hnext
  · next h _ => exact hone (by decide) (by decide) h
  · next h => exact hstring h
  · next h =>
      exact ⟨fun _ => .inl (ascii_of_isDigit h), fun _ => exists_last_of_number rest h,
        fun hk => absurd (List.mem_cons_of_mem _ List.mem_cons_self) hk⟩
  · next h => exact bounded_readName h

end Lexeme

/-! ## Tokens and what is behind them -/

/-- The token at a position. -/
def Lexeme.token (l : Lexeme) (p : Position) (gs : List Glyph) : Token :=
  ⟨l.kind, l.literal, p, p.pastAll (gs.take l.width)⟩

/-- The characters from a position on are tokens with gaps before them. A gap starts with a plain
character and, if a token comes behind it, ends with one. Each token is read with all the characters
that stand behind it. -/
inductive Scanned : Position → List Glyph → List Token → Prop where
  | stop {p gap} : (∀ b ∈ gap.head?, b.Plain) →
      Scanned p gap [⟨.eof, [], p.pastAll gap, p.pastAll gap⟩]
  | token {p gap g rest ts} : (∀ b ∈ gap.head?, b.Plain) → (∀ b ∈ gap.getLast?, b.Plain) →
      Scanned ((p.pastAll gap).pastAll ((g :: rest).take (Lexeme.read g rest).width))
        ((g :: rest).drop (Lexeme.read g rest).width) ts →
      Scanned p (gap ++ g :: rest)
        ((Lexeme.read g rest).token (p.pastAll gap) (g :: rest) :: ts)

namespace Scanned

variable {p : Position} {gs : List Glyph} {ts : List Token}

/-- Blanks and comments before the characters belong to the first gap. -/
theorem after {g : Glyph} (gap : List Glyph) (hopen : g.Plain)
    (hclose : gs = [] ∨ ∃ b ∈ (g :: gap).getLast?, b.Plain)
    (h : Scanned (p.pastAll (g :: gap)) gs ts) : Scanned p (g :: gap ++ gs) ts := by
  have hfirst (more : List Glyph) : ∀ b ∈ (g :: gap ++ more).head?, b.Plain := by
    rintro b ⟨⟩
    exact hopen
  cases h with
  | stop =>
    rw [← Position.pastAll_append]
    exact .stop (hfirst gs)
  | @token _ inner g' rest _ _ hlast hrest =>
    obtain ⟨b, hb, hplain⟩ := hclose.resolve_left (List.append_ne_nil_of_right_ne_nil inner
      (List.cons_ne_nil g' rest))
    rw [← Position.pastAll_append p (g :: gap) inner] at hrest ⊢
    rw [← List.append_assoc]
    refine .token (hfirst inner) (fun b' hb' => ?_) hrest
    rcases List.eq_nil_or_concat' inner with rfl | ⟨kept, last, rfl⟩
    · rw [List.append_nil, Option.mem_def.1 hb] at hb'
      exact Option.some.inj hb' ▸ hplain
    · rw [← List.append_assoc, List.getLast?_concat] at hb'
      exact hlast b' (by rwa [List.getLast?_concat])

end Scanned

/-- A comment ends with its line or with the text. -/
theorem scan_comment : ∀ (p : Position) (gs : List Glyph), ∃ body rest, gs = body ++ rest ∧
    scan .comment p gs = scan (.token 0) (p.pastAll body) rest ∧
    (rest = [] ∨ ∃ b ∈ body.getLast?, b.Plain)
  | p, [] => ⟨[], [], rfl, rfl, .inl rfl⟩
  | p, g :: gs => by
    rw [scan]
    split
    next hline =>
      exact ⟨[g], gs, rfl, rfl, .inr ⟨g, rfl, Glyph.plain_of_is (by decide) hline⟩⟩
    next =>
      obtain ⟨body, rest, rfl, hscan, hend⟩ := scan_comment (p.past g) gs
      refine ⟨g :: body, rest, rfl, hscan, hend.imp_right ?_⟩
      rintro ⟨b, hb, hplain⟩
      exact ⟨b, @List.mem_getLast?_append_of_mem_getLast? _ [g] _ _ hb, hplain⟩

theorem scanned_scan (p : Position) (gs : List Glyph) : Scanned p gs (scan (.token 0) p gs) := by
  induction hlength : gs.length using Nat.strong_induction_on generalizing p gs with
  | _ n ih =>
    subst hlength
    cases gs with
    | nil => exact .stop fun b hb => by cases hb
    | cons g rest =>
      rw [scan]
      split
      next hlayout =>
        have hplain := Glyph.plain_of_isLayout hlayout
        exact .after [] hplain (.inr ⟨g, rfl, hplain⟩)
          (ih _ (Nat.lt_succ_self _) (p.past g) rest rfl)
      next =>
      split
      next hopen =>
        obtain ⟨body, rest', rfl, hscan, hend⟩ := scan_comment (p.past g) rest
        have hplain : g.Plain :=
          Glyph.plain_of_is (by decide) (Bool.and_eq_true_iff.1 hopen).1
        rw [hscan]
        refine .after body hplain (hend.imp_right ?_) (ih _ ?_ _ rest' rfl)
        · rintro ⟨b, hb, hlast⟩
          exact ⟨b, @List.mem_getLast?_append_of_mem_getLast? _ [g] _ _ hb, hlast⟩
        · rw [List.length_cons, List.length_append]
          omega
      next =>
        obtain ⟨hpos, -⟩ := Lexeme.proper_read g rest
        have hstep : (p.past g).pastAll (rest.take ((Lexeme.read g rest).width - 1)) =
            p.pastAll ((g :: rest).take (Lexeme.read g rest).width) := by
          rw [List.take_cons hpos]
          rfl
        have hdrop : rest.drop ((Lexeme.read g rest).width - 1) =
            (g :: rest).drop (Lexeme.read g rest).width := by
          rw [List.drop_cons hpos]
        dsimp only
        rw [scan_token, hstep, hdrop]
        have hnone : ∀ b ∈ (none : Option Glyph), b.Plain := fun b hb => by cases hb
        refine @Scanned.token p [] _ _ _ hnone hnone (ih _ ?_ _ _ rfl)
        rw [List.length_drop, List.length_cons]
        omega

/-! ## Names -/

/-- A number among the tokens ends at the position, with the character. -/
def EndsNumber (ts : List Token) (p : Position) (b : Glyph) : Prop :=
  isDigit b.code = true ∧ ∃ n ∈ ts, n.kind = .number ∧ n.stop = p

/-- A name among tokens : the characters before it, its own, and those behind it. -/
structure Token.Amid (t : Token) (p : Position) (ts : List Token)
    (before word behind : List Glyph) : Prop where
  start : t.start = p.pastAll before
  stop : t.stop = t.start.pastAll word
  literal : t.literal = Utf8.join word
  name : ∀ g ∈ word, Lexeme.continuesName g = true
  previous : ∀ b ∈ before.getLast?, b.Plain ∨ EndsNumber ts t.start b
  next : ∀ b ∈ behind.head?, b.Plain

/-- What the characters before some position end with : a plain character, a number, or a word,
which the next character does not go on with. -/
def Edge (ts : List Token) (p : Position) (before behind : List Glyph) : Prop :=
  ∀ b ∈ before.getLast?, b.Plain ∨ EndsNumber ts p b ∨
    ∀ a ∈ behind.head?, Lexeme.continuesName a = false

section

variable {p : Position} {ts : List Token} {before gap rest : List Glyph} {g : Glyph}

theorem Edge.past_gap (h : Edge ts p before (gap ++ g :: rest))
    (hclose : ∀ b ∈ gap.getLast?, b.Plain) :
    Edge ts (p.pastAll gap) (before ++ gap) (g :: rest) := by
  intro b hb
  rcases List.eq_nil_or_concat' gap with rfl | ⟨kept, last, rfl⟩
  · rw [List.append_nil] at hb
    exact h b hb
  · rw [← List.append_assoc, List.getLast?_concat] at hb
    exact .inl (hclose b (by rwa [List.getLast?_concat]))

theorem edge_of_read (ht : (Lexeme.read g rest).token p (g :: rest) ∈ ts)
    (hkind : (Lexeme.read g rest).kind ≠ .error) (before : List Glyph) :
    Edge ts ((Lexeme.read g rest).token p (g :: rest)).stop
      (before ++ (g :: rest).take (Lexeme.read g rest).width)
      ((g :: rest).drop (Lexeme.read g rest).width) := by
  obtain ⟨-, hnumber, hlast⟩ := Lexeme.bounded_read g rest
  have hne : (g :: rest).take (Lexeme.read g rest).width ≠ [] := by
    rw [List.take_cons (Lexeme.proper_read g rest).1]
    exact List.cons_ne_nil _ _
  intro b hb
  rw [List.getLast?_append_of_ne_nil before hne, Option.mem_def] at hb
  by_cases hn : (Lexeme.read g rest).kind = .number
  · obtain ⟨b', hb', hdigit⟩ := hnumber hn
    obtain rfl := Option.some.inj (hb.symm.trans hb')
    exact .inr (.inl ⟨hdigit, _, ht, hn, rfl⟩)
  · rcases hlast (by simp [hkind, hn]) with ⟨b', hb', hplain⟩ | hnext
    · obtain rfl := Option.some.inj (hb.symm.trans hb')
      exact .inl hplain
    · exact .inr (.inr hnext)

/-- A name stands between what comes before it and the next token. -/
theorem amid_of_read {q : Position} (hp : p = q.pastAll before)
    (hk : (Lexeme.read g rest).kind = .identifier) (hedge : Edge ts p before (g :: rest))
    (hnext : ∀ b ∈ ((g :: rest).drop (Lexeme.read g rest).width).head?, b.Plain) :
    ((Lexeme.read g rest).token p (g :: rest)).Amid q ts before
      ((g :: rest).take (Lexeme.read g rest).width)
      ((g :: rest).drop (Lexeme.read g rest).width) := by
  obtain ⟨hstart, hread⟩ := (Lexeme.shaped_read g rest).identifier hk
  have hword : (g :: rest).take (Lexeme.read g rest).width =
      (g :: rest).takeWhile Lexeme.continuesName := by
    rw [hread]
    exact Lexeme.take_takeWhile _ _
  refine ⟨hp, rfl, ?_, fun g' hg' => ?_, fun b hb => ?_, hnext⟩
  · rw [hword, hread]
    rfl
  · rw [hword] at hg'
    exact List.mem_takeWhile_imp hg'
  · refine (hedge b hb).imp_right fun h => h.resolve_right fun hword => ?_
    have hfirst := hword g rfl
    rw [Lexeme.continuesName_of_startsName hstart] at hfirst
    cases hfirst

end

namespace Scanned

variable {p q : Position} {gs : List Glyph} {ts all : List Token}

/-- Where a word has ended, the next token starts with a plain character. -/
theorem next_plain (h : Scanned p gs ts) (hnone : ∀ t ∈ ts, t.kind ≠ .error)
    (hword : ∀ b ∈ gs.head?, Lexeme.continuesName b = false) : ∀ b ∈ gs.head?, b.Plain := by
  cases h with
  | stop hopen => exact hopen
  | @token _ gap g rest _ hopen =>
    cases gap with
    | cons b gap => exact hopen
    | nil =>
      rintro b ⟨⟩
      have hb := hword g rfl
      have hfirst := (Lexeme.bounded_read g rest).first (hnone _ List.mem_cons_self)
      refine ⟨hfirst.resolve_right fun hstart => ?_, hb⟩
      rw [Lexeme.continuesName_of_startsName hstart] at hb
      cases hb

/-- The names among the tokens, where some characters are passed already. -/
theorem exists_amid (h : Scanned p gs ts) (hnone : ∀ t ∈ all, t.kind ≠ .error) :
    ∀ before, p = q.pastAll before → ts ⊆ all → Edge all p before gs →
      ∀ t ∈ ts, t.kind = .identifier → ∃ pre word post,
        before ++ gs = pre ++ (word ++ post) ∧ t.Amid q all pre word post := by
  induction h with
  | stop =>
    intro before _ _ _ t ht hk
    rw [List.mem_singleton.1 ht] at hk
    cases hk
  | @token p gap g rest ts _ hclose hrest ih =>
    intro before hp hts hedge t ht hk
    obtain ⟨hfirst, hts⟩ := List.cons_subset.1 hts
    have hpast : p.pastAll gap = q.pastAll (before ++ gap) := by
      rw [hp, Position.pastAll_append]
    have hsplit : before ++ (gap ++ g :: rest) =
        before ++ gap ++ (g :: rest).take (Lexeme.read g rest).width ++
          (g :: rest).drop (Lexeme.read g rest).width := by
      rw [List.append_assoc (before ++ gap), List.take_append_drop, List.append_assoc]
    rw [hsplit]
    rcases List.mem_cons.1 ht with rfl | ht
    · have hnext := hrest.next_plain (fun t ht => hnone t (hts ht)) (by
        rw [((Lexeme.shaped_read g rest).identifier hk).2]
        exact Lexeme.head_of_readName _)
      exact ⟨_, _, _, List.append_assoc _ _ _, amid_of_read hpast hk (hedge.past_gap hclose) hnext⟩
    · refine ih _ ?_ hts (edge_of_read hfirst (hnone _ hfirst) _) t ht hk
      rw [hpast, ← Position.pastAll_append]

end Scanned

/-- What stands around a name in a text without faulty tokens. -/
theorem exists_around_name {source : Bytes} (hnone : ∀ t ∈ tokenize source, t.kind ≠ .error)
    {t : Token} (ht : t ∈ tokenize source) (hk : t.kind = .identifier) :
    ∃ before word behind, Utf8.glyphs source = before ++ (word ++ behind) ∧
      t.Amid .start (tokenize source) before word behind :=
  (scanned_scan .start (Utf8.glyphs source)).exists_amid hnone [] rfl
    (List.Subset.refl _) nofun t ht hk

end Scriptlet
