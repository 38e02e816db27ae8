import Scriptlet.Proofs.Tokens

/-!
# The literals of tokens

The literals of names, strings and numbers stand in the text (`literal_in_source`). A name is not
empty, and all its characters are well-formed, also if the text around it is not
(`literal_of_identifier`). A string may hold any bytes but its quote.
-/

namespace Scriptlet

/-! ## Well-formed characters -/

/-- The bytes of the character are the well-formed sequence of its code point. -/
def Glyph.WellFormed (g : Glyph) : Prop :=
  ∀ rest, Utf8.sequence? (g.bytes ++ rest) = some (g.code, g.bytes.length)

namespace Utf8

/-- What comes after a well-formed sequence does not matter. -/
theorem sequence?_take {s : Bytes} {code width : Nat} (h : sequence? s = some (code, width))
    (rest : Bytes) : sequence? (s.take width ++ rest) = some (code, width) := by
  unfold sequence? at h
  repeat' split at h
  all_goals simp only [reduceCtorEq, Option.some.injEq, Prod.mk.injEq] at h
  all_goals
    obtain ⟨rfl, rfl⟩ := h
    simp [sequence?, *]

theorem glyphsAfter_eq : ∀ (skip : Nat) (s : Bytes), glyphsAfter skip s = glyphs (s.drop skip)
  | 0, s => rfl
  | skip + 1, [] => rfl
  | skip + 1, b :: rest => by
    rw [glyphsAfter, glyphsAfter_eq skip rest, List.drop_succ_cons]

theorem glyphs_cons (b : UInt8) (rest : Bytes) :
    glyphs (b :: rest) = ⟨(head (b :: rest)).1, (b :: rest).take (head (b :: rest)).2⟩ ::
      glyphs ((b :: rest).drop (head (b :: rest)).2) := by
  obtain ⟨w, hw⟩ := Nat.exists_eq_succ_of_ne_zero (Nat.pos_iff_ne_zero.1 (head_width b rest).1)
  rw [glyphs, glyphsAfter]
  dsimp only
  rw [hw, glyphsAfter_eq, Nat.succ_sub_one, List.drop_succ_cons]

/-- A byte outside every well-formed sequence is not of ASCII. -/
theorem tail_of_sequence?_eq_none {b : UInt8} {rest : Bytes} (h : sequence? (b :: rest) = none) :
    0x80 ≤ b.toNat := by
  refine Nat.not_lt.1 fun hlow => ?_
  have hb : b < 0x80 := UInt8.lt_iff_toNat_lt.2 hlow
  simp [sequence?, hb] at h

/-- The characters of a text are well-formed, or stand for a byte outside ASCII. -/
theorem wellFormed_or_stray : ∀ {s : Bytes} {g : Glyph}, g ∈ glyphs s →
    g.WellFormed ∨ ∃ b, g = ⟨Glyph.replacement, [b]⟩ ∧ 0x80 ≤ b.toNat
  | [], _, h => by simp [glyphs, glyphsAfter] at h
  | b :: rest, g, h => by
    obtain ⟨hpos, hle⟩ := head_width b rest
    rw [glyphs_cons, List.mem_cons] at h
    rcases h with rfl | h
    · cases hs : sequence? (b :: rest) with
      | none =>
        have hhead : head (b :: rest) = (Glyph.replacement, 1) := by simp [head, hs]
        rw [hhead]
        exact .inr ⟨b, rfl, tail_of_sequence?_eq_none hs⟩
      | some r =>
        have hhead : head (b :: rest) = r := by simp [head, hs]
        rw [hhead] at hle ⊢
        refine .inl fun tail => ?_
        have hlen : ((b :: rest).take r.2).length = r.2 := by
          rw [List.length_take]
          exact Nat.min_eq_left hle
        simp only [hlen]
        exact sequence?_take hs tail
    · have hlt : ((b :: rest).drop (head (b :: rest)).2).length < rest.length + 1 := by
        rw [List.length_drop, List.length_cons]
        omega
      exact wellFormed_or_stray h
termination_by s => s.length

theorem wellFormed_of_mem {s : Bytes} {g : Glyph} (h : g ∈ glyphs s)
    (hg : g.isMalformed = false) : g.WellFormed := by
  refine (wellFormed_or_stray h).resolve_right ?_
  rintro ⟨b, rfl, -⟩
  cases hg

theorem glyphs_append {g : Glyph} (hg : g.WellFormed) (rest : Bytes) :
    glyphs (g.bytes ++ rest) = g :: glyphs rest := by
  have hs := hg rest
  cases hbytes : g.bytes ++ rest with
  | nil => simp [hbytes, sequence?] at hs
  | cons b tail =>
    have hhead : head (b :: tail) = (g.code, g.bytes.length) := by
      rw [head, ← hbytes, hs]
      rfl
    rw [glyphs_cons, hhead, ← hbytes, List.take_left, List.drop_left]

/-- A text put together from well-formed characters is read as these characters. -/
theorem glyphs_join {gs : List Glyph} (h : ∀ g ∈ gs, g.WellFormed) : glyphs (join gs) = gs := by
  induction gs with
  | nil => rfl
  | cons g gs ih =>
    rw [join, List.flatMap_cons, glyphs_append (h g List.mem_cons_self)]
    exact congrArg _ (ih fun g' hg' => h g' (List.mem_cons_of_mem g hg'))

/-- A text put together from characters of another text is valid if none of them is malformed. -/
theorem isValid_join {s : Bytes} {gs : List Glyph} (h : ∀ g ∈ gs, g ∈ glyphs s)
    (hgs : ∀ g ∈ gs, g.isMalformed = false) : isValid (join gs) = true := by
  rw [isValid, glyphs_join fun g hg => wellFormed_of_mem (h g hg) (hgs g hg), List.all_eq_true]
  intro g hg
  simp [hgs g hg]

/-- Valid texts make a valid text. -/
theorem isValid_append {s t : Bytes} (hs : isValid s = true) (ht : isValid t = true) :
    isValid (s ++ t) = true := by
  rw [isValid, List.all_eq_true] at hs ht
  have hproper : ∀ g ∈ glyphs s ++ glyphs t, (!g.isMalformed) = true := fun g hg =>
    (List.mem_append.1 hg).elim (hs g) (ht g)
  have hjoin : s ++ t = join (glyphs s ++ glyphs t) := by
    rw [join, List.flatMap_append]
    change s ++ t = join (glyphs s) ++ join (glyphs t)
    rw [join_glyphs, join_glyphs]
  have hglyphs : glyphs (s ++ t) = glyphs s ++ glyphs t := by
    rw [hjoin]
    refine glyphs_join fun g hg => ?_
    have hwell : g.isMalformed = false := by simpa using hproper g hg
    rcases List.mem_append.1 hg with hg | hg <;> exact wellFormed_of_mem hg hwell
  rw [isValid, hglyphs, List.all_eq_true]
  exact hproper

theorem isValid_flatten {chunks : List Bytes} (h : chunks.all isValid = true) :
    isValid chunks.flatten = true := by
  induction chunks with
  | nil => rfl
  | cons chunk rest ih =>
    rw [List.all_cons, Bool.and_eq_true] at h
    exact isValid_append h.1 (ih h.2)

/-- A text of ASCII characters is valid. -/
theorem isValid_of_ascii : ∀ {s : Bytes}, (∀ b ∈ s, b < 0x80) → isValid s = true
  | [], _ => rfl
  | b :: rest, h => by
    have hhead : head (b :: rest) = (b.toNat, 1) := by
      simp [head, sequence?, h b List.mem_cons_self]
    have hne : b.toNat ≠ Glyph.replacement := by
      have hb : b.toNat < 0x80 := h b List.mem_cons_self
      simp only [Glyph.replacement]
      omega
    have ih : isValid rest = true :=
      isValid_of_ascii fun b' hb' => h b' (List.mem_cons_of_mem b hb')
    rw [isValid] at ih
    rw [isValid, glyphs_cons, hhead, List.all_cons, List.drop_one, List.tail_cons, ih]
    simp [Glyph.isMalformed, hne]

end Utf8

/-! ## The literal of one token -/

namespace Lexeme

/-- How the token that a text starts with is read, if it has a literal of its own. -/
structure Shaped (g : Glyph) (rest : List Glyph) (l : Lexeme) : Prop where
  identifier : l.kind = .identifier → startsName g = true ∧ l = readName (g :: rest)
  string : l.kind = .string → l = readString g rest
  number : l.kind = .number →
    isDigit g.code = true ∧ l = covering .number (numberWidth (g :: rest)) (g :: rest)

theorem ofWord?_cases (word : Bytes) : (TokenKind.ofWord? word).getD .identifier = .identifier ∨
    (TokenKind.ofWord? word).getD .identifier ∈ TokenKind.reserved := by
  cases h : TokenKind.ofWord? word with
  | none => exact .inl rfl
  | some k => exact .inr (List.mem_of_find?_eq_some h)

theorem shaped_of_kind {g : Glyph} {rest : List Glyph} {k : TokenKind} {literal : Bytes}
    {width : Nat} (hk : k ∉ [TokenKind.identifier, .string, .number]) :
    Shaped g rest ⟨k, literal, width⟩ := by
  simp only [List.mem_cons, List.not_mem_nil, or_false, not_or] at hk
  exact ⟨fun h => absurd h hk.1, fun h => absurd h hk.2.1, fun h => absurd h hk.2.2⟩

theorem shaped_readName {g : Glyph} {rest : List Glyph} (h : startsName g = true) :
    Shaped g rest (readName (g :: rest)) := by
  have hword : (readName (g :: rest)).kind = .identifier ∨
      (readName (g :: rest)).kind ∈ TokenKind.reserved := ofWord?_cases _
  refine ⟨fun _ => ⟨h, rfl⟩, fun hk => ?_, fun hk => ?_⟩
  all_goals
    rw [hk] at hword
    exact absurd hword (by decide)

theorem shaped_read (g : Glyph) (rest : List Glyph) : Shaped g rest (read g rest) := by
  unfold read
  dsimp only
  -- all but strings, numbers and names have a kind that is written out
  repeat' refine iteInduction (fun _ => ?_) fun _ => ?_
  all_goals try exact shaped_of_kind (by decide)
  · next hclosed => exact ⟨nofun, fun _ => by rw [readString, if_pos hclosed], nofun⟩
  · next hdigit => exact ⟨nofun, nofun, fun _ => ⟨hdigit, rfl⟩⟩
  · next hstart => exact shaped_readName hstart

end Lexeme

/-- The token is read from where some of the characters start. -/
def Token.ReadIn (gs : List Glyph) (t : Token) : Prop :=
  ∃ g rest, (g :: rest) <:+ gs ∧ t.kind = (Lexeme.read g rest).kind ∧
    t.literal = (Lexeme.read g rest).literal

theorem Token.ReadIn.cons {t : Token} {gs : List Glyph} (g : Glyph) (h : t.ReadIn gs) :
    t.ReadIn (g :: gs) := by
  obtain ⟨g', rest, hsuffix, ht⟩ := h
  exact ⟨g', rest, hsuffix.trans (List.suffix_cons g gs), ht⟩

/-- A token is the end of the text or read from its characters. -/
theorem readIn_of_mem_scan {t : Token} : ∀ {mode : ScanMode} {p : Position} {gs : List Glyph},
    t ∈ scan mode p gs → t.kind ≠ .eof → t.ReadIn gs
  | mode, p, [], h, hk => by
    have h : t ∈ [(⟨.eof, [], p, p⟩ : Token)] := by cases mode <;> exact h
    rw [List.mem_singleton.1 h] at hk
    exact absurd rfl hk
  | .token (left + 1), p, g :: rest, h, hk => by
    rw [scan] at h
    exact (readIn_of_mem_scan h hk).cons g
  | .comment, p, g :: rest, h, hk => by
    rw [scan] at h
    exact (readIn_of_mem_scan h hk).cons g
  | .token 0, p, g :: rest, h, hk => by
    rw [scan] at h
    split at h
    · exact (readIn_of_mem_scan h hk).cons g
    split at h
    · exact (readIn_of_mem_scan h hk).cons g
    · rcases List.mem_cons.1 h with rfl | h
      · exact ⟨g, rest, List.suffix_rfl, rfl, rfl⟩
      · exact (readIn_of_mem_scan h hk).cons g

/-! ## The literals of a text -/

theorem Utf8.join_isInfix {gs gs' : List Glyph} (h : gs <:+: gs') : join gs <:+: join gs' := by
  obtain ⟨before, after, rfl⟩ := h
  exact ⟨join before, join after, by simp [join]⟩

/-- The literals of names, strings and numbers stand in the text. -/
theorem literal_in_source {source : Bytes} {t : Token} (h : t ∈ tokenize source)
    (hk : t.kind ∈ [TokenKind.identifier, .string, .number]) : t.literal <:+: source := by
  have hne : t.kind ≠ .eof := by
    rintro he
    rw [he] at hk
    exact absurd hk (by decide)
  obtain ⟨g, rest, hsuffix, hkind, hliteral⟩ := readIn_of_mem_scan h hne
  have hshape := Lexeme.shaped_read g rest
  have hgs : ∃ gs, gs <:+: Utf8.glyphs source ∧ t.literal = Utf8.join gs := by
    rw [hkind] at hk
    simp only [List.mem_cons, List.not_mem_nil, or_false] at hk
    rw [hliteral]
    rcases hk with hk | hk | hk
    · rw [(hshape.identifier hk).2]
      exact ⟨_, (List.takeWhile_prefix _).isInfix.trans hsuffix.isInfix, rfl⟩
    · have hl := hshape.string hk
      rw [hl] at hk ⊢
      unfold Lexeme.readString at hk ⊢
      dsimp only at hk ⊢
      split
      next =>
        refine ⟨_, ?_, rfl⟩
        exact ((List.takeWhile_prefix _).isInfix.trans (List.suffix_cons g rest).isInfix).trans
          hsuffix.isInfix
      next hlen =>
        rw [if_neg hlen] at hk
        cases hk
    · rw [(hshape.number hk).2]
      exact ⟨_, (List.take_prefix _ _).isInfix.trans hsuffix.isInfix, rfl⟩
  obtain ⟨gs, hinfix, hl⟩ := hgs
  rw [hl, ← Utf8.join_glyphs source]
  exact Utf8.join_isInfix hinfix

/-- The replacement character is no letter. -/
theorem isLetter_replacement : isLetter Glyph.replacement = false := by
  rw [isLetter, if_neg (by decide), ← Array.any_toList]
  decide +kernel

/-- The characters of names are well-formed. -/
theorem Lexeme.isMalformed_of_continuesName {g : Glyph} (h : Lexeme.continuesName g = true) :
    g.isMalformed = false := by
  rw [Glyph.isMalformed, Bool.and_eq_false_iff]
  left
  rw [beq_eq_false_iff_ne]
  intro hcode
  rw [continuesName, Glyph.is, hcode, isLetter_replacement] at h
  exact absurd h (by decide)

/-- Names are not empty, and well-formed. -/
theorem literal_of_identifier {source : Bytes} {t : Token} (h : t ∈ tokenize source)
    (hk : t.kind = .identifier) : t.literal ≠ [] ∧ Utf8.isValid t.literal = true := by
  have hne : t.kind ≠ .eof := by
    rw [hk]
    decide
  obtain ⟨g, rest, hsuffix, hkind, hliteral⟩ := readIn_of_mem_scan h hne
  obtain ⟨hstart, hread⟩ := (Lexeme.shaped_read g rest).identifier (hkind.symm.trans hk)
  have hmem : ∀ g' ∈ (g :: rest).takeWhile Lexeme.continuesName, g' ∈ Utf8.glyphs source :=
    fun g' hg' => hsuffix.subset ((List.takeWhile_prefix _).subset hg')
  rw [hliteral, hread]
  constructor
  · have hword : g ∈ (g :: rest).takeWhile Lexeme.continuesName := by
      simp [Lexeme.continuesName_of_startsName hstart]
    intro hnil
    exact Utf8.bytes_ne_nil (hmem g hword) (List.flatMap_eq_nil_iff.1 hnil g hword)
  · refine Utf8.isValid_join hmem fun g' hg' => Lexeme.isMalformed_of_continuesName ?_
    exact List.all_eq_true.1 List.all_takeWhile g' hg'

end Scriptlet
