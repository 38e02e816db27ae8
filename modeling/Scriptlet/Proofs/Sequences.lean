import Scriptlet.Proofs.Literals

/-!
# Characters and their bytes

A well-formed character has the bytes of its code point (`Glyph.WellFormed.bytes_eq`). Of the
characters of any text, those of ASCII are one byte each, and no byte of ASCII is part of another
(`Utf8.faithful_of_mem`). So a text can be cut at a byte of ASCII : its characters are those of the
two parts and the byte between them (`Utf8.glyphs_append_ascii`). And characters in a row of a text,
taken out of it, are still the same characters (`Utf8.glyphs_join_of_infix`).
-/

namespace Scriptlet

/-! ## The sequence of a code point -/

namespace Utf8

theorem toUInt8_eq {n : Nat} {b : UInt8} (h : n = b.toNat) : n.toUInt8 = b := by
  rw [h]
  exact UInt8.ofNat_toNat

theorem isTail_iff {b : UInt8} : isTail b = true ↔ 0x80 ≤ b.toNat ∧ b.toNat ≤ 0xBF := by
  simp [isTail, UInt8.le_iff_toNat_le]

theorem range_of_opensThree {a b : UInt8} (h : opensThree a b = true) :
    0xE0 ≤ a.toNat ∧ a.toNat ≤ 0xEF ∧ 0x80 ≤ b.toNat ∧ b.toNat ≤ 0xBF ∧
      (a.toNat = 0xE0 → 0xA0 ≤ b.toNat) ∧ (a.toNat = 0xED → b.toNat ≤ 0x9F) := by
  simp [opensThree, isTail, UInt8.le_iff_toNat_le, ← UInt8.toNat_inj] at h
  omega

theorem range_of_opensFour {a b : UInt8} (h : opensFour a b = true) :
    0xF0 ≤ a.toNat ∧ a.toNat ≤ 0xF4 ∧ 0x80 ≤ b.toNat ∧ b.toNat ≤ 0xBF ∧
      (a.toNat = 0xF0 → 0x90 ≤ b.toNat) ∧ (a.toNat = 0xF4 → b.toNat ≤ 0x8F) := by
  simp [opensFour, isTail, UInt8.le_iff_toNat_le, ← UInt8.toNat_inj] at h
  omega

/-- A well-formed sequence is the sequence of its code point. -/
theorem encode_of_sequence? {s : Bytes} {code width : Nat} (h : sequence? s = some (code, width)) :
    encode code = s.take width := by
  unfold sequence? at h
  repeat' split at h
  all_goals simp only [reduceCtorEq, Option.some.injEq, Prod.mk.injEq] at h
  all_goals
    obtain ⟨rfl, rfl⟩ := h
    simp only [List.take_succ_cons, List.take_zero, tailBits]
    unfold encode
  · next a _ ha =>
    have ha : a.toNat < 0x80 := ha
    rw [if_pos ha, toUInt8_eq rfl]
  · next a _ b _ _ htwo =>
    simp only [Bool.and_eq_true, decide_eq_true_eq, isTail_iff] at htwo
    obtain ⟨⟨hlow, hhigh⟩, hb⟩ := htwo
    have hlow : 0xC2 ≤ a.toNat := hlow
    have hhigh : a.toNat ≤ 0xDF := hhigh
    rw [if_neg (by omega), if_pos (by omega), List.cons.injEq, List.cons.injEq]
    exact ⟨toUInt8_eq (by omega), toUInt8_eq (by omega), rfl⟩
  · next a _ b _ _ c _ hthree =>
    rw [Bool.and_eq_true, isTail_iff] at hthree
    obtain ⟨hab, hc⟩ := hthree
    have hrange := range_of_opensThree hab
    rw [if_neg (by omega), if_neg (by omega), if_neg, if_pos (by omega)]
    · simp only [List.cons.injEq, and_true]
      exact ⟨toUInt8_eq (by omega), toUInt8_eq (by omega), toUInt8_eq (by omega)⟩
    · simp only [Bool.or_eq_true, Bool.and_eq_true, decide_eq_true_eq]
      omega
  · next a _ b _ _ c _ _ d _ hfour =>
    rw [Bool.and_eq_true, Bool.and_eq_true, isTail_iff, isTail_iff] at hfour
    obtain ⟨⟨hab, hc⟩, hd⟩ := hfour
    have hrange := range_of_opensFour hab
    rw [if_neg (by omega), if_neg (by omega), if_neg, if_neg (by omega)]
    · simp only [List.cons.injEq, and_true]
      exact ⟨toUInt8_eq (by omega), toUInt8_eq (by omega), toUInt8_eq (by omega),
        toUInt8_eq (by omega)⟩
    · simp only [Bool.or_eq_true, Bool.and_eq_true, decide_eq_true_eq]
      omega

/-- The bytes of a character outside ASCII are outside ASCII. -/
theorem tail_of_mem_encode {code : Nat} (h : 0x80 ≤ code) {b : UInt8} (hb : b ∈ encode code) :
    0x80 ≤ b.toNat := by
  unfold encode at hb
  rw [if_neg (by omega)] at hb
  repeat' split at hb
  all_goals
    simp only [List.mem_cons, List.not_mem_nil, or_false] at hb
  · rcases hb with rfl | rfl <;> simp only [Nat.toUInt8, UInt8.toNat_ofNat'] <;> omega
  · rcases hb with rfl | rfl | rfl <;> decide
  · rcases hb with rfl | rfl | rfl <;> simp only [Nat.toUInt8, UInt8.toNat_ofNat'] <;> omega
  · next hcode _ =>
    simp only [Bool.or_eq_true, Bool.and_eq_true, decide_eq_true_eq] at hcode
    rcases hb with rfl | rfl | rfl | rfl <;> simp only [Nat.toUInt8, UInt8.toNat_ofNat'] <;> omega

end Utf8

theorem Glyph.WellFormed.bytes_eq {g : Glyph} (hg : g.WellFormed) :
    g.bytes = Utf8.encode g.code := by
  have hs := hg []
  rw [List.append_nil] at hs
  rw [Utf8.encode_of_sequence? hs, List.take_length]

/-! ## Characters of ASCII -/

/-- The character is one byte if it is of ASCII, and has no byte of ASCII otherwise. -/
structure Glyph.Faithful (g : Glyph) : Prop where
  ne_nil : g.bytes ≠ []
  ascii : g.code < 0x80 → g.bytes = [g.code.toUInt8]
  tail : 0x80 ≤ g.code → ∀ b ∈ g.bytes, 0x80 ≤ b.toNat

namespace Utf8

theorem faithful_of_mem {s : Bytes} {g : Glyph} (h : g ∈ glyphs s) : g.Faithful := by
  refine ⟨bytes_ne_nil h, fun hcode => ?_, fun hcode b hb => ?_⟩
  · rcases wellFormed_or_stray h with hg | ⟨b, rfl, -⟩
    · rw [hg.bytes_eq, encode, if_pos hcode]
    · have hcode : Glyph.replacement < 0x80 := hcode
      exact absurd hcode (by decide)
  · rcases wellFormed_or_stray h with hg | ⟨b', rfl, hb'⟩
    · rw [hg.bytes_eq] at hb
      exact tail_of_mem_encode hcode hb
    · rw [List.mem_singleton.1 hb]
      exact hb'

end Utf8

namespace Glyph.Faithful

variable {g : Glyph} {b : UInt8}

/-- The bytes of ASCII in a character are its code point. -/
theorem mem_bytes_iff (hg : g.Faithful) (hb : b < 0x80) : b ∈ g.bytes ↔ g.code = b.toNat := by
  have hb : b.toNat < 0x80 := hb
  rcases Nat.lt_or_ge g.code 0x80 with hcode | hcode
  · rw [hg.ascii hcode, List.mem_singleton, ← UInt8.toNat_inj, Nat.toUInt8, UInt8.toNat_ofNat']
    omega
  · refine iff_of_false (fun hmem => ?_) (by omega)
    have := hg.tail hcode b hmem
    omega

/-- A character of ASCII is its code point. -/
theorem bytes_eq (hg : g.Faithful) (hb : b < 0x80) (hcode : g.code = b.toNat) : g.bytes = [b] := by
  have hb : b.toNat < 0x80 := hb
  rw [hg.ascii (hcode ▸ hb), hcode]
  exact congrArg (fun b => [b]) UInt8.ofNat_toNat

end Glyph.Faithful

namespace Utf8

/-- A byte of ASCII is in a run of characters if one of them is that byte. -/
theorem mem_join_iff {gs : List Glyph} (hgs : ∀ g ∈ gs, g.Faithful) {b : UInt8} (hb : b < 0x80) :
    b ∈ join gs ↔ ∃ g ∈ gs, g.code = b.toNat := by
  rw [join, List.mem_flatMap]
  exact exists_congr fun g => and_congr_right fun hg => (hgs g hg).mem_bytes_iff hb

/-! ## Cutting a text at a byte of ASCII -/

/-- A byte of ASCII goes on with no sequence. -/
theorem not_tail_of_ascii {b : UInt8} (hb : b < 0x80) (a : UInt8) :
    isTail b = false ∧ opensThree a b = false ∧ opensFour a b = false := by
  have hb : b.toNat < 0x80 := hb
  refine ⟨?_, ?_, ?_⟩ <;> rw [Bool.eq_false_iff]
  · rw [ne_eq, isTail_iff]
    omega
  · intro h
    have := range_of_opensThree h
    omega
  · intro h
    have := range_of_opensFour h
    omega

/-- What comes after a byte of ASCII does not matter to what is before it. -/
theorem sequence?_append_ascii {b : UInt8} (hb : b < 0x80) (t : Bytes) :
    ∀ {s : Bytes}, s ≠ [] → sequence? (s ++ b :: t) = sequence? s
  | [], h => absurd rfl h
  | [a], _ => by
    obtain ⟨htail, hthree, hfour⟩ := not_tail_of_ascii hb a
    simp only [sequence?, List.cons_append, List.nil_append, htail, hthree, hfour]
    rcases t with _ | ⟨c, _ | ⟨d, t⟩⟩ <;> simp
  | [a, c], _ => by
    obtain ⟨htail, -, -⟩ := not_tail_of_ascii hb a
    simp only [sequence?, List.cons_append, List.nil_append, htail]
    rcases t with _ | ⟨d, t⟩ <;> simp
  | [a, c, d], _ => by
    obtain ⟨htail, -, -⟩ := not_tail_of_ascii hb a
    simp [sequence?, htail]
  | a :: c :: d :: e :: s, _ => by simp only [sequence?, List.cons_append]

/-- A text can be cut at a byte of ASCII. -/
theorem glyphs_append_ascii {b : UInt8} (hb : b < 0x80) (t : Bytes) : ∀ s : Bytes,
    glyphs (s ++ b :: t) = glyphs s ++ ⟨b.toNat, [b]⟩ :: glyphs t
  | [] => by
    have hhead : head (b :: t) = (b.toNat, 1) := by simp [head, sequence?, hb]
    rw [List.nil_append, glyphs_cons, hhead]
    rfl
  | a :: s => by
    obtain ⟨hpos, hle⟩ := head_width a s
    have hhead : head (a :: (s ++ b :: t)) = head (a :: s) := by
      rw [head, head, ← List.cons_append, sequence?_append_ascii hb t (List.cons_ne_nil a s)]
    have hlt : ((a :: s).drop (head (a :: s)).2).length < s.length + 1 := by
      rw [List.length_drop, List.length_cons]
      omega
    rw [List.cons_append, glyphs_cons, glyphs_cons a s, hhead, ← List.cons_append,
      List.take_append_of_le_length hle, List.drop_append_of_le_length hle, List.cons_append,
      glyphs_append_ascii hb t]
termination_by s => s.length

theorem isValid_append_ascii {b : UInt8} (hb : b < 0x80) (s t : Bytes) :
    isValid (s ++ b :: t) = (isValid s && isValid t) := by
  have hplain : Glyph.isMalformed ⟨b.toNat, [b]⟩ = false := by
    have hcode : b.toNat < 0x80 := hb
    simp only [Glyph.isMalformed, Glyph.replacement, Bool.and_eq_false_iff, beq_eq_false_iff_ne]
    omega
  rw [isValid, glyphs_append_ascii hb, List.all_append, List.all_cons, hplain]
  rfl

/-! ## Characters in a row -/

/-- A well-formed sequence does not depend on what comes after the text that it starts. -/
theorem sequence?_append {s : Bytes} {r : Nat × Nat} (h : sequence? s = some r) (t : Bytes) :
    sequence? (s ++ t) = some r := by
  have hseq := sequence?_take h (s.drop r.2 ++ t)
  rwa [← List.append_assoc, List.take_append_drop] at hseq

/-- The first character of a text is also that of a start of the text that holds all of it. -/
theorem head_take_append {s t : Bytes} (h : s.take (head s).2 ++ t <+: s) :
    head (s.take (head s).2 ++ t) = head s := by
  cases hs : sequence? s with
  | some r =>
    have hhead : head s = r := by rw [head, hs]; rfl
    rw [hhead, head, sequence?_take hs t]
    rfl
  | none =>
    have hnone : sequence? (s.take (head s).2 ++ t) = none := by
      refine Option.eq_none_iff_forall_ne_some.2 fun r hr => ?_
      obtain ⟨v, hv⟩ := h
      have hsome := sequence?_append hr v
      rw [hv, hs] at hsome
      cases hsome
    rw [head, hnone, head, hs]

theorem join_cons (g : Glyph) (gs : List Glyph) : join (g :: gs) = g.bytes ++ join gs :=
  List.flatMap_cons

theorem join_append (gs hs : List Glyph) : join (gs ++ hs) = join gs ++ join hs :=
  List.flatMap_append

/-- The first characters of a text are read from their own bytes in the same way. -/
theorem glyphs_join_take : ∀ (s : Bytes) (n : Nat),
    glyphs (join ((glyphs s).take n)) = (glyphs s).take n
  | [], n => by simp [glyphs, glyphsAfter, join]
  | _, 0 => rfl
  | b :: rest, n + 1 => by
    obtain ⟨hpos, hle⟩ := head_width b rest
    have hlt : ((b :: rest).drop (head (b :: rest)).2).length < rest.length + 1 := by
      rw [List.length_drop, List.length_cons]
      omega
    have ih := glyphs_join_take ((b :: rest).drop (head (b :: rest)).2) n
    have hprefix : (b :: rest).take (head (b :: rest)).2 ++
        join ((glyphs ((b :: rest).drop (head (b :: rest)).2)).take n) <+: b :: rest := by
      refine ⟨join ((glyphs ((b :: rest).drop (head (b :: rest)).2)).drop n), ?_⟩
      rw [List.append_assoc, ← join_append, List.take_append_drop, join_glyphs,
        List.take_append_drop]
    have hhead := head_take_append hprefix
    have hlength : ((b :: rest).take (head (b :: rest)).2).length = (head (b :: rest)).2 :=
      List.length_take_of_le hle
    rw [glyphs_cons, List.take_succ_cons, join_cons]
    generalize join ((glyphs ((b :: rest).drop (head (b :: rest)).2)).take n) = t at ih hhead ⊢
    dsimp only
    obtain ⟨a, u, hu⟩ : ∃ a u, (b :: rest).take (head (b :: rest)).2 ++ t = a :: u := by
      refine List.exists_cons_of_ne_nil (List.append_ne_nil_of_left_ne_nil ?_ t)
      exact List.length_pos_iff.1 (by omega)
    rw [hu, glyphs_cons, ← hu, hhead, List.take_left' hlength, List.drop_left' hlength, ih]
termination_by s => s.length

/-- The last characters of a text are read from their own bytes in the same way. -/
theorem glyphs_join_of_suffix : ∀ (before : List Glyph) {s : Bytes} {gs : List Glyph},
    glyphs s = before ++ gs → glyphs (join gs) = gs
  | [], s, gs, h => by
    rw [List.nil_append] at h
    rw [← h, join_glyphs]
  | _ :: before, [], gs, h => by simp [glyphs, glyphsAfter] at h
  | _ :: before, b :: rest, gs, h => by
    rw [glyphs_cons, List.cons_append] at h
    exact glyphs_join_of_suffix before (List.cons.inj h).2

/-- Characters in a row of a text are read from their own bytes in the same way. -/
theorem glyphs_join_of_infix {s : Bytes} {gs : List Glyph} (h : gs <:+: glyphs s) :
    glyphs (join gs) = gs := by
  obtain ⟨before, after, h⟩ := h
  rw [List.append_assoc] at h
  have hrest := glyphs_join_of_suffix before h.symm
  have hread := glyphs_join_take (join (gs ++ after)) gs.length
  rwa [hrest, List.take_left] at hread

end Utf8

end Scriptlet
