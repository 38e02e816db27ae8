import Scriptlet.Proofs.Sequences
import Scriptlet.Toml.Reader

/-!
# Texts and integers in configuration files

A text between quotes is read back up to its closing quote, whatever its bytes are
(`readString_quoted`). Each byte is written in one of three ways : as it is, as a letter after a
backslash, or by its number. An integer of 64 bits is read back up to the end of its line
(`readNumber_decimalInt`).
-/

namespace Scriptlet.Toml

/-! ## Bytes by their numbers -/

theorem length_hex (width n : Nat) : (hex width n).length = width := by
  induction width generalizing n with
  | zero => rfl
  | succ width ih => rw [hex, List.length_append, ih, List.length_singleton]

theorem exists_hexDigit_of_mem {b : UInt8} : ∀ {width n : Nat}, b ∈ hex width n →
    ∃ m, b = hexDigit 0x61 m
  | width + 1, n, h => by
    rcases List.mem_append.1 h with h | h
    · exact exists_hexDigit_of_mem h
    · exact ⟨n, List.mem_singleton.1 h⟩

theorem hexDigit_range (n : Nat) : 0x20 ≤ hexDigit 0x61 n ∧ hexDigit 0x61 n < 0x7F := by
  have h : n % 16 < 16 := Nat.mod_lt n (by decide)
  unfold hexDigit
  generalize n % 16 = m at h
  revert m
  decide

theorem isDigitOf_of_mem_hex {b : UInt8} {width n : Nat} (h : b ∈ hex width n) :
    isDigitOf 16 b = true := by
  obtain ⟨m, rfl⟩ := exists_hexDigit_of_mem h
  rw [isDigitOf, hexValue?_hexDigit (.inr rfl)]
  exact decide_eq_true (Nat.mod_lt m (by decide))

/-- The last hexadecimal digits of a number stand for the rest that it leaves. -/
theorem ofBase_hex (width n : Nat) : ofBase 16 (hex width n) = n % Nat.pow 16 width := by
  induction width generalizing n with
  | zero => exact (Nat.mod_one n).symm
  | succ width ih =>
    have ih := ih (n / 16)
    have hpow : Nat.pow 16 (width + 1) = 16 * Nat.pow 16 width := Nat.pow_succ'
    unfold ofBase at ih ⊢
    rw [hex, List.foldl_append, ih, List.foldl_cons, List.foldl_nil, hexValue?_hexDigit (.inr rfl),
      Option.getD_some, hpow, Nat.mod_mul, Nat.add_comm]

/-- A character is read back from its number. Numbers of half pairs stand for none. -/
theorem hexEscape?_hex {width n : Nat} (hwidth : n < Nat.pow 16 width) (hcode : n < 0xD800)
    (rest : Bytes) : hexEscape? width (hex width n ++ rest) = some (Utf8.encode n) := by
  have htake : (hex width n ++ rest).take width = hex width n :=
    List.take_left' (length_hex width n)
  have hall : (hex width n).all (isDigitOf 16) = true :=
    List.all_eq_true.2 fun _ => isDigitOf_of_mem_hex
  rw [hexEscape?]
  simp only [htake]
  rw [if_pos ⟨length_hex width n, hall⟩, ofBase_hex, Nat.mod_eq_of_lt hwidth, if_pos (by omega)]

/-! ## Bytes between quotes -/

/-- How a byte is written between quotes : as it is, as a letter after a backslash, or by its
number. -/
inductive Writes (b : UInt8) : Bytes → Prop where
  | itself : b ≠ 0x22 → b ≠ 0x5C → 0x20 ≤ b → b ≠ 0x7F → Writes b [b]
  | letter {e : UInt8} : 0x20 ≤ e → e < 0x7F → (∀ rest, escape? (e :: rest) = some ([b], 1)) →
      Writes b [0x5C, e]
  | number : b < 0x80 → Writes b (0x5C :: 0x75 :: hex 4 b.toNat)

/-- Every byte is written in one of these ways. -/
theorem writes_quotedByte (b : UInt8) : Writes b (quotedByte b) := by
  have hletter {s : Bytes} (out e : UInt8) (hs : s = [0x5C, e]) (hrange : 0x20 ≤ e ∧ e < 0x7F)
      (h : ∀ rest, escape? (e :: rest) = some ([out], 1)) (hb : (b == out) = true) :
      Writes b s := by
    rw [hs, beq_iff_eq.1 hb]
    exact .letter hrange.1 hrange.2 h
  rw [quotedByte]
  split
  next hself =>
    rw [Bool.or_eq_true, beq_iff_eq, beq_iff_eq] at hself
    rcases hself with rfl | rfl
    · exact .letter (by decide) (by decide) fun _ => rfl
    · exact .letter (by decide) (by decide) fun _ => rfl
  next hself =>
  split
  next hb => exact hletter 0x08 0x62 (by decide) (by decide) (fun _ => rfl) hb
  split
  next hb => exact hletter 0x09 0x74 (by decide) (by decide) (fun _ => rfl) hb
  split
  next hb => exact hletter 0x0A 0x6E (by decide) (by decide) (fun _ => rfl) hb
  split
  next hb => exact hletter 0x0C 0x66 (by decide) (by decide) (fun _ => rfl) hb
  split
  next hb => exact hletter 0x0D 0x72 (by decide) (by decide) (fun _ => rfl) hb
  split
  next hnumber =>
    have hopen : Bytes.ofString "\\u" = [0x5C, 0x75] := by decide
    have hlow : b < 0x80 := by
      rw [Bool.or_eq_true, decide_eq_true_eq, beq_iff_eq] at hnumber
      rcases hnumber with h | rfl
      · exact UInt8.lt_trans h (by decide)
      · decide
    rw [hopen]
    exact .number hlow
  next hnumber =>
    simp only [Bool.or_eq_true, beq_iff_eq, decide_eq_true_eq, not_or] at hself hnumber
    exact .itself hself.1 hself.2 (UInt8.not_lt.1 hnumber.1) hnumber.2

/-- No byte between quotes looks like the quote at their end. -/
theorem Writes.head {b : UInt8} {s : Bytes} (h : Writes b s) : ∃ c cs, s = c :: cs ∧ c ≠ 0x22 := by
  cases h with
  | itself hquote => exact ⟨b, [], rfl, hquote⟩
  | letter => exact ⟨_, _, rfl, by decide⟩
  | number => exact ⟨_, _, rfl, by decide⟩

/-- A byte between quotes is written with bytes that can be printed. -/
theorem Writes.printable {b : UInt8} {s : Bytes} (h : Writes b s) {c : UInt8} (hc : c ∈ s) :
    0x20 ≤ c ∧ c ≠ 0x7F ∧ (c = b ∨ c < 0x80) := by
  have hascii {c : UInt8} (hlow : 0x20 ≤ c) (hhigh : c < 0x7F) :
      0x20 ≤ c ∧ c ≠ 0x7F ∧ (c = b ∨ c < 0x80) :=
    ⟨hlow, UInt8.ne_of_lt hhigh, .inr (UInt8.lt_trans hhigh (by decide))⟩
  cases h with
  | itself _ _ hlow hne =>
    obtain rfl := List.mem_singleton.1 hc
    exact ⟨hlow, hne, .inl rfl⟩
  | letter hlow hhigh =>
    rcases List.mem_cons.1 hc with rfl | hc
    · exact hascii (by decide) (by decide)
    · obtain rfl := List.mem_singleton.1 hc
      exact hascii hlow hhigh
  | number =>
    rcases List.mem_cons.1 hc with rfl | hc
    · exact hascii (by decide) (by decide)
    rcases List.mem_cons.1 hc with rfl | hc
    · exact hascii (by decide) (by decide)
    obtain ⟨m, rfl⟩ := exists_hexDigit_of_mem hc
    exact hascii (hexDigit_range m).1 (hexDigit_range m).2

/-- The bytes of an escape are passed once it is read. -/
theorem readBasicAfter_append : ∀ s rest : Bytes, readBasicAfter s.length (s ++ rest) =
    readBasicAfter 0 rest
  | [], _ => rfl
  | b :: s, rest => by
    rw [List.length_cons, List.cons_append, readBasicAfter, readBasicAfter_append s rest]

/-- An escape stands for what it is read as, whatever follows it. -/
theorem readBasicAfter_escape {e out rest : Bytes}
    (h : escape? (e ++ rest) = some (out, e.length)) :
    readBasicAfter 0 (0x5C :: e ++ rest) =
      (readBasicAfter 0 rest).map (Prod.map (out ++ ·) id) := by
  rw [List.cons_append, readBasicAfter, if_neg (by decide), if_pos (by decide), h]
  change (readBasicAfter e.length (e ++ rest) >>= fun r => pure (out ++ r.1, r.2)) = _
  rw [readBasicAfter_append]
  cases readBasicAfter 0 rest <;> rfl

theorem escape?_number (rest : Bytes) :
    escape? (0x75 :: rest) = (hexEscape? 4 rest).map (·, 5) := rfl

theorem escape?_hex {b : UInt8} (h : b < 0x80) (rest : Bytes) :
    escape? (0x75 :: hex 4 b.toNat ++ rest) = some ([b], 5) := by
  have hcode : b.toNat < 0x80 := UInt8.lt_iff_toNat_lt.1 h
  have hencode : Utf8.encode b.toNat = [b] := by
    rw [Utf8.encode, if_pos hcode, Utf8.toUInt8_eq rfl]
  have hlt := Nat.lt_of_lt_of_le hcode (show 0x80 ≤ 16 ^ 4 by decide)
  rw [List.cons_append, escape?_number, hexEscape?_hex hlt (by omega), hencode]
  rfl

/-- A byte between quotes is read back, whatever follows it. -/
theorem Writes.read {b : UInt8} {s : Bytes} (h : Writes b s) (rest : Bytes) :
    readBasicAfter 0 (s ++ rest) = (readBasicAfter 0 rest).map (Prod.map ([b] ++ ·) id) := by
  cases h with
  | itself hquote hslash hlow =>
    have hend : isLineEnd b = false := by
      rw [isLineEnd, Bool.or_eq_false_iff, beq_eq_false_iff_ne, beq_eq_false_iff_ne]
      exact ⟨fun h => absurd hlow (h ▸ by decide), fun h => absurd hlow (h ▸ by decide)⟩
    rw [List.singleton_append, readBasicAfter, if_neg (by simpa using hquote),
      if_neg (by simpa using hslash), if_neg (by simp [hend])]
    cases readBasicAfter 0 rest <;> rfl
  | @letter e _ _ hescape => exact @readBasicAfter_escape [e] [b] rest (hescape rest)
  | number hlow => exact readBasicAfter_escape (escape?_hex hlow rest)

/-! ## Texts between quotes -/

/-- A text is read back up to its closing quote. -/
theorem readBasicAfter_quoted (s rest : Bytes) :
    readBasicAfter 0 (s.flatMap quotedByte ++ 0x22 :: rest) = some (s, rest) := by
  induction s with
  | nil => rfl
  | cons b s ih =>
    rw [List.flatMap_cons, List.append_assoc, (writes_quotedByte b).read, ih]
    rfl

theorem quoted_eq (s : Bytes) : quoted s = 0x22 :: (s.flatMap quotedByte ++ [0x22]) := by
  have hquote : Bytes.ofString "\"" = [0x22] := by decide
  rw [quoted, hquote]
  rfl

/-- A quote that is not followed by two more starts a text of one line. -/
theorem readString_basic : ∀ {s : Bytes}, (∀ a b t, s = a :: b :: t → a ≠ 0x22 ∨ b ≠ 0x22) →
    readString 0x22 s = readBasicAfter 0 s
  | [], _ => rfl
  | [_], _ => rfl
  | a :: b :: t, h => by
    have hshort : ¬(a == 0x22 && b == 0x22) = true := by
      rw [Bool.and_eq_true, beq_iff_eq, beq_iff_eq, Decidable.not_and_iff_or_not]
      exact h a b t rfl
    rw [readString, if_neg hshort]
    rfl

/-- A text is read back from between its quotes, unless a third one follows. -/
theorem readString_quoted (s : Bytes) {rest : Bytes} (h : rest.head? ≠ some 0x22) :
    readString 0x22 (s.flatMap quotedByte ++ 0x22 :: rest) = some (s, rest) := by
  rw [readString_basic, readBasicAfter_quoted]
  intro a b t ht
  cases s with
  | nil =>
    obtain ⟨-, hrest⟩ := List.cons.inj ht
    rw [hrest] at h
    exact .inr fun hb => h (congrArg some hb)
  | cons c s =>
    obtain ⟨d, ds, hd, hne⟩ := (writes_quotedByte c).head
    rw [List.flatMap_cons, hd] at ht
    exact .inl ((List.cons.inj ht).1 ▸ hne)

/-- A quoted text holds no control character. -/
theorem printable_quoted {s : Bytes} {c : UInt8} (h : c ∈ quoted s) : 0x20 ≤ c ∧ c ≠ 0x7F := by
  have hquote : (0x20 : UInt8) ≤ 0x22 ∧ (0x22 : UInt8) ≠ 0x7F := by decide
  rw [quoted_eq] at h
  rcases List.mem_cons.1 h with rfl | h
  · exact hquote
  rcases List.mem_append.1 h with h | h
  · obtain ⟨b, -, hb⟩ := List.mem_flatMap.1 h
    obtain ⟨hlow, hne, -⟩ := (writes_quotedByte b).printable hb
    exact ⟨hlow, hne⟩
  · exact List.mem_singleton.1 h ▸ hquote

/-- A byte outside ASCII is written as it is. -/
theorem quotedByte_of_tail {b : UInt8} (h : 0x80 ≤ b) : quotedByte b = [b] := by
  have hne (c : UInt8) (hc : c < 0x80) : (b == c) = false := by
    rw [beq_eq_false_iff_ne]
    rintro rfl
    exact absurd hc (UInt8.not_lt.2 h)
  have hlow : ¬b < 0x20 := UInt8.not_lt.2 (UInt8.le_trans (by decide) h)
  simp [quotedByte, hne, hlow]

/-- A well-formed text is well-formed between quotes. -/
theorem isValid_quoted {s : Bytes} (h : Utf8.isValid s = true) :
    Utf8.isValid (quoted s) = true := by
  have hquote : Utf8.isValid [0x22] = true := by decide
  have hcontent : s.flatMap quotedByte =
      ((Utf8.glyphs s).map fun g => g.bytes.flatMap quotedByte).flatten := by
    rw [← List.flatMap_def, ← List.flatMap_assoc]
    exact congrArg _ (Utf8.join_glyphs s).symm
  rw [quoted_eq, ← List.singleton_append, hcontent]
  refine Utf8.isValid_append hquote (Utf8.isValid_append (Utf8.isValid_flatten ?_) hquote)
  rw [List.all_map, List.all_eq_true]
  intro g hg
  rw [Function.comp_apply]
  have hfaithful := Utf8.faithful_of_mem hg
  rcases Nat.lt_or_ge g.code 0x80 with hcode | hcode
  · refine Utf8.isValid_of_ascii fun c hc => ?_
    rw [hfaithful.ascii hcode, List.flatMap_singleton] at hc
    obtain ⟨-, -, rfl | hc⟩ := (writes_quotedByte _).printable hc
    · rw [UInt8.lt_iff_toNat_lt, Nat.toUInt8, UInt8.toNat_ofNat']
      exact Nat.lt_of_le_of_lt (Nat.mod_le _ _) hcode
    · exact hc
  · have hsame : g.bytes.flatMap quotedByte = g.bytes := by
      rw [List.flatMap_def, List.map_congr_left fun b hb =>
        quotedByte_of_tail (hfaithful.tail hcode b hb), ← List.flatMap_def, List.flatMap_singleton']
    have hproper : g.isMalformed = false := by
      rw [Utf8.isValid, List.all_eq_true] at h
      simpa using h g hg
    have hvalid := @Utf8.isValid_join s [g] (List.forall_mem_singleton.2 hg)
      (List.forall_mem_singleton.2 hproper)
    rw [Utf8.join, List.flatMap_singleton] at hvalid
    rw [hsame]
    exact hvalid

/-! ## Integers -/

/-- Without underscores a text is its own figures. -/
theorem figures?_eq {isFigure : UInt8 → Bool} (hmark : isFigure 0x5F = false) : ∀ {s : Bytes},
    s ≠ [] → (∀ b ∈ s, isFigure b = true) → figures? isFigure s = some s
  | [], hne, _ => absurd rfl hne
  | [a], _, h => by rw [figures?, if_pos (h a (List.mem_singleton_self a))]
  | a :: b :: rest, _, h => by
    obtain ⟨ha, hrest⟩ := List.forall_mem_cons.1 h
    have hb : ¬(b == 0x5F) = true := by
      rw [beq_iff_eq]
      rintro rfl
      rw [hrest 0x5F List.mem_cons_self] at hmark
      cases hmark
    rw [figures?, ha, if_neg (by decide), if_neg hb, figures?_eq hmark (List.cons_ne_nil _ _) hrest]
    rfl

theorem isDigitByte_of_mem_decimal {n : Nat} {b : UInt8} (h : b ∈ decimal n) :
    isDigitByte b = true := by
  obtain ⟨hlow, hhigh⟩ := range_of_mem_decimal h
  rw [isDigitByte, decide_eq_true hlow, decide_eq_true hhigh]
  rfl

theorem decimal_zero : decimal 0 = [0x30] := by
  rw [decimal]
  rfl

/-- A numeral has no zero in front, so it may stand as a number. -/
theorem wholeFigures?_decimal (n : Nat) : wholeFigures? (decimal n) = some (decimal n) := by
  have hshort : ¬(1 < (decimal n).length ∧ (decimal n).head? = some 0x30) := by
    by_cases hn : n = 0
    · rw [hn, decimal_zero]
      decide
    · obtain ⟨b, s, hs, hb⟩ := decimal_head hn
      rw [hs]
      exact fun h => hb (Option.some.inj h.2)
  rw [wholeFigures?, figures?_eq rfl (decimal_ne_nil n) fun _ => isDigitByte_of_mem_decimal]
  exact if_neg hshort

theorem mem_decimalInt {n : Int} {b : UInt8} (h : b ∈ decimalInt n) :
    b = 0x2D ∨ isDigitByte b = true := by
  cases n with
  | ofNat n => exact .inr (isDigitByte_of_mem_decimal h)
  | negSucc n =>
    rw [decimalInt_negSucc] at h
    exact (List.mem_cons.1 h).imp_right isDigitByte_of_mem_decimal

theorem decimalInt_ne_nil (n : Int) : decimalInt n ≠ [] := by
  cases n with
  | ofNat n => exact decimal_ne_nil n
  | negSucc n =>
    rw [decimalInt_negSucc]
    exact List.cons_ne_nil _ _

/-- The minus sign of a negative integer is cut off, and nothing else. -/
theorem splitSign_decimalInt (n : Int) :
    splitSign (decimalInt n) = (decide (n < 0), decimal n.natAbs) := by
  cases n with
  | ofNat n =>
    have hsign (c : UInt8) (hc : isDigitByte c = false) (rest : Bytes) : decimal n ≠ c :: rest := by
      intro h
      rw [isDigitByte_of_mem_decimal (h ▸ List.mem_cons_self)] at hc
      cases hc
    rw [decimalInt, splitSign]
    · rfl
    · exact fun rest h => hsign 0x2D rfl rest h
    · exact fun rest h => hsign 0x2B rfl rest h
  | negSucc n =>
    rw [decimalInt_negSucc, decide_eq_true (Int.negSucc_lt_zero n)]
    rfl

/-- No numeral starts like a number of another base. -/
theorem decimalInt_ne (n : Int) (b : UInt8) (rest : Bytes) : decimalInt n ≠ 0x30 :: b :: rest := by
  cases n with
  | ofNat n =>
    intro h
    rw [decimalInt] at h
    by_cases hn : n = 0
    · rw [hn, decimal_zero] at h
      cases h
    · obtain ⟨c, s, hs, hc⟩ := decimal_head hn
      rw [hs] at h
      exact hc (List.cons.inj h).1
  | negSucc n =>
    rw [decimalInt_negSucc]
    exact fun h => absurd (List.cons.inj h).1 (by decide)

theorem printable_decimalInt {n : Int} {b : UInt8} (h : b ∈ decimalInt n) :
    0x20 ≤ b ∧ b < 0x7F := by
  rcases mem_decimalInt h with rfl | h
  · decide
  · rw [isDigitByte, Bool.and_eq_true, decide_eq_true_eq, decide_eq_true_eq] at h
    exact ⟨UInt8.le_trans (by decide) h.1, UInt8.lt_of_le_of_lt h.2 (by decide)⟩

/-- An integer is what its numeral stands for. -/
theorem integerOf?_decimalInt (n : Int) : integerOf? (decimalInt n) = some n := by
  rw [integerOf?]
  · rw [splitSign_decimalInt]
    simp only [wholeFigures?_decimal, ofDecimal_decimal, Option.bind_eq_bind, Option.bind_some,
      Option.pure_def, Option.some.injEq, decide_eq_true_eq]
    split <;> omega
  · exact fun rest h => decimalInt_ne n _ rest h
  · exact fun rest h => decimalInt_ne n _ rest h
  · exact fun rest h => decimalInt_ne n _ rest h

/-- An integer is read back up to the end of its line. -/
theorem readNumber_decimalInt {n : Int} (h : fitsInt64 n = true) (rest : Bytes) :
    readNumber (decimalInt n ++ 0x0A :: rest) = some (.integer n, 0x0A :: rest) := by
  have hdate : startsDate (decimalInt n ++ 0x0A :: rest) = false := by
    cases n with
    | ofNat n =>
      rw [decimalInt, startsDate, List.dropWhile_append_of_pos fun _ => isDigitByte_of_mem_decimal]
      exact Bool.and_false _
    | negSucc n =>
      rw [decimalInt_negSucc]
      rfl
  have htake : (decimalInt n ++ 0x0A :: rest).takeWhile isNumberByte = decimalInt n := by
    rw [List.takeWhile_append_of_pos, List.takeWhile_cons_of_neg (by decide), List.append_nil]
    intro b hb
    rw [isNumberByte, isBareByte]
    rcases mem_decimalInt hb with rfl | hb
    · rfl
    · rw [isDigitByte] at hb
      simp [hb]
  rw [readNumber, hdate]
  simp only [htake, integerOf?_decimalInt, h, List.drop_left]
  rfl

end Scriptlet.Toml
