import Scriptlet.Text.Utf8

/-!
# Numerals

Integers in decimal, and fixed-width hexadecimal. What is written as an integer in a message, a
setting or a command line must have 64 bits (`fitsInt64`).
-/

namespace Scriptlet

/-- The number of integers of 64 bits that are not negative. -/
abbrev int64Bound : Nat := 0x8000000000000000

/-- Whether an integer has 64 bits with its sign. -/
def fitsInt64 (n : Int) : Bool := -(int64Bound : Int) ≤ n && n < (int64Bound : Int)

/-- The ASCII digit of `n % 10`. -/
def digit (n : Nat) : UInt8 := (0x30 + n % 10).toUInt8

/-- A natural number in decimal, without leading zeros. -/
def decimal (n : Nat) : Bytes :=
  if n < 10 then [digit n] else decimal (n / 10) ++ [digit n]

/-- An integer in decimal, a negative one after a minus sign. -/
def decimalInt : Int → Bytes
  | .ofNat n => decimal n
  | .negSucc n => "-" ++ decimal (n + 1)

/-- The value of a text of ASCII digits. -/
def ofDecimal (s : Bytes) : Nat := s.foldl (fun n b => 10 * n + (b.toNat - 0x30)) 0

/-- The hexadecimal digit of `n % 16`; its letters start at the code `a`. -/
def hexDigit (a : Nat) (n : Nat) : UInt8 :=
  if n % 16 < 10 then (0x30 + n % 16).toUInt8 else (a + n % 16 - 10).toUInt8

/-- The last `width` hexadecimal digits of `n`, in lower case. -/
def hex : (width : Nat) → Nat → Bytes
  | 0, _ => []
  | width + 1, n => hex width (n / 16) ++ [hexDigit 0x61 n]

/-- The last `width` hexadecimal digits of `n`, in upper case. -/
def hexUpper : (width : Nat) → Nat → Bytes
  | 0, _ => []
  | width + 1, n => hexUpper width (n / 16) ++ [hexDigit 0x41 n]

/-- The value of a hexadecimal digit of either case. -/
def hexValue? (b : UInt8) : Option Nat :=
  if 0x30 ≤ b && b ≤ 0x39 then some (b.toNat - 0x30)
  else if 0x61 ≤ b && b ≤ 0x66 then some (b.toNat - 0x61 + 10)
  else if 0x41 ≤ b && b ≤ 0x46 then some (b.toNat - 0x41 + 10)
  else none

/-- `s` with zeros in front, at least `width` bytes long. -/
def zeroPadded (width : Nat) (s : Bytes) : Bytes :=
  List.replicate (width - s.length) 0x30 ++ s

theorem toNat_digit (n : Nat) : (digit n).toNat = 0x30 + n % 10 := by
  simp only [digit, Nat.toUInt8, UInt8.toNat_ofNat']
  omega

theorem decimal_ne_nil (n : Nat) : decimal n ≠ [] := by
  unfold decimal
  split <;> simp

/-- The bytes of a numeral are digits. -/
theorem exists_digit_of_mem {b : UInt8} {n : Nat} (h : b ∈ decimal n) : ∃ m, b = digit m := by
  induction n using Nat.strongRecOn with
  | ind n ih =>
    unfold decimal at h
    split at h
    · exact ⟨n, List.mem_singleton.1 h⟩
    · rcases List.mem_append.1 h with h | h
      · exact ih (n / 10) (by omega) h
      · exact ⟨n, List.mem_singleton.1 h⟩

theorem range_of_mem_decimal {b : UInt8} {n : Nat} (h : b ∈ decimal n) : 0x30 ≤ b ∧ b ≤ 0x39 := by
  obtain ⟨m, rfl⟩ := exists_digit_of_mem h
  have hdigit : m % 10 < 10 := Nat.mod_lt m (by decide)
  rw [UInt8.le_iff_toNat_le, UInt8.le_iff_toNat_le, toNat_digit]
  exact show 0x30 ≤ 0x30 + m % 10 ∧ 0x30 + m % 10 ≤ 0x39 by omega

theorem digit_ne_zero {n : Nat} (h : n % 10 ≠ 0) : digit n ≠ 0x30 := by
  rw [ne_eq, ← UInt8.toNat_inj, toNat_digit]
  exact show 0x30 + n % 10 ≠ 0x30 by omega

/-- A numeral has no zeros in front. -/
theorem decimal_head {n : Nat} (h : n ≠ 0) : ∃ b s, decimal n = b :: s ∧ b ≠ 0x30 := by
  induction n using Nat.strongRecOn with
  | ind n ih =>
    unfold decimal
    split
    · exact ⟨_, _, rfl, digit_ne_zero (by omega)⟩
    · obtain ⟨b, s, hs, hb⟩ := ih (n / 10) (by omega) (by omega)
      exact ⟨b, s ++ [digit n], by rw [hs, List.cons_append], hb⟩

theorem decimalInt_negSucc (n : Nat) : decimalInt (.negSucc n) = 0x2D :: decimal (n + 1) := by
  have hminus : Bytes.ofString "-" = [0x2D] := by decide
  rw [decimalInt, hminus]
  rfl

theorem ofDecimal_append_digit (s : Bytes) (n : Nat) :
    ofDecimal (s ++ [digit n]) = 10 * ofDecimal s + n % 10 := by
  simp only [ofDecimal, List.foldl_append, List.foldl_cons, List.foldl_nil, toNat_digit]
  omega

/-- A number is read back from its decimal numeral. -/
theorem ofDecimal_decimal (n : Nat) : ofDecimal (decimal n) = n := by
  induction n using Nat.strongRecOn with
  | ind n ih =>
    unfold decimal
    split
    next h =>
      have := ofDecimal_append_digit [] n
      simp only [List.nil_append] at this
      rw [this]
      simp [ofDecimal]
      omega
    next h =>
      rw [ofDecimal_append_digit, ih (n / 10) (by omega)]
      omega

/-- A hexadecimal digit of either case is read back. -/
theorem hexValue?_hexDigit {a : Nat} (ha : a = 0x41 ∨ a = 0x61) (n : Nat) :
    hexValue? (hexDigit a n) = some (n % 16) := by
  have h : n % 16 < 16 := Nat.mod_lt _ (by decide)
  unfold hexDigit
  generalize n % 16 = m at h
  rcases ha with rfl | rfl
  · revert m
    decide
  · revert m
    decide

end Scriptlet
