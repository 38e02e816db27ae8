import Mathlib
import Scriptlet.Cbor.Item
import Scriptlet.Number.Numeral

/-!
# Bits of numbers

A number of a narrow format is decoded from the last bits of its pattern only (`Format.decode_mod`),
and a number that a format holds is read back from its bits (`Format.decode_of_encode?`). What is
not a number has one pattern, so the pattern of a number decides it (`toBits_ofBits`). No part of
the library that is smaller than the whole has the lemmas on `Float.Model` that this rests on.
-/

namespace Scriptlet

/-! ## Narrow formats -/

namespace Format

variable (f : Format)

/-- The number of bits of a format. -/
def width : Nat := f.fractionBits + f.exponentBits + 1

theorem fraction_mod (bits : Nat) : f.fraction (bits % 2 ^ f.width) = f.fraction bits := by
  rw [fraction, fraction, Nat.one_shiftLeft, width]
  exact Nat.mod_mod_of_dvd _ (pow_dvd_pow 2 (by omega))

theorem exponentField_mod (bits : Nat) :
    f.exponentField (bits % 2 ^ f.width) = f.exponentField bits := by
  rw [exponentField, exponentField, Nat.one_shiftLeft, width]
  refine Nat.eq_of_testBit_eq fun i => ?_
  simp only [Nat.testBit_mod_two_pow, Nat.testBit_shiftRight]
  by_cases hi : i < f.exponentBits
  · have hlt : f.fractionBits + i < f.fractionBits + f.exponentBits + 1 := by omega
    simp [hlt]
  · simp [hi]

theorem isNegative_mod (bits : Nat) : f.isNegative (bits % 2 ^ f.width) = f.isNegative bits := by
  have htwo (n : Nat) : (n % 2 == 1) = n.testBit 0 := by
    rw [Nat.testBit_zero]
    rfl
  rw [isNegative, isNegative, htwo, htwo, Nat.testBit_shiftRight, Nat.testBit_shiftRight,
    Nat.testBit_mod_two_pow, width]
  simp

/-- The bits past the width of the format do not count. -/
theorem decode_mod (bits : Nat) : f.decode (bits % 2 ^ f.width) = f.decode bits := by
  simp only [decode, parts?, fraction_mod, exponentField_mod, isNegative_mod]

/-- A number that the format holds is read back from its bits. -/
theorem decode_of_encode? {x : Float} {bits : Nat} (h : f.encode? x = some bits) :
    f.decode bits = x := by
  obtain ⟨p, -, h⟩ := Option.bind_eq_some_iff.1 h
  dsimp only at h
  split at h
  next heq =>
    obtain rfl := Option.some.inj h
    exact Float.toBits_inj.1 heq
  next => cases h

end Format

/-! ## Infinities and zeros -/

section

open Float.Model

theorem eq_of_unpack {x : Float} {u : UnpackedFloat} (h : x.toModel.unpack = u) :
    x = .ofModel (.pack u) := by
  rw [← h]
  exact (Float.ofBits_toBits x).symm

/-- There are two infinities. -/
theorem eq_of_isInf {x : Float} (h : x.isInf = true) :
    x = if x < 0 then Format.half.decode 0xFC00 else Format.half.decode 0x7C00 := by
  have h : x.toModel.unpack.isInf = true := h
  cases hu : x.toModel.unpack with
  | infinity s =>
    rw [eq_of_unpack hu]
    cases s <;> decide
  | _ =>
    rw [hu] at h
    cases h

/-- What is not a number has one pattern. -/
theorem eq_of_isNaN {x : Float} (h : x.isNaN = true) : x = Format.half.decode 0x7E00 := by
  rw [Float.isNaN_eq_decide_eq_nan, decide_eq_true_eq] at h
  rw [h]
  decide

/-- The pattern of the zero with a sign. -/
def negativeZero : UInt64 := 0x8000000000000000

/-- The number without the sign of a zero. -/
def storedNumber (x : Float) : Float := if x.toBits = negativeZero then 0 else x

/-- The numbers that equal zero are the two zeros. -/
theorem beq_zero_iff (x : Float) : (x == 0) = true ↔ x = 0 ∨ x = -0 := by
  have hzero : (0 : Float) ≠ Float.nan := by decide
  have hneg : (-0 : Float) ≠ Float.nan := by decide
  rw [Float.beq_iff_ne_nan_and_eq]
  constructor
  · rintro ⟨-, -, h | ⟨h, -⟩ | ⟨h, -⟩⟩
    · exact .inl h
    · exact .inl h
    · exact .inr h
  · rintro (rfl | rfl)
    · exact ⟨hzero, hzero, .inl rfl⟩
    · exact ⟨hneg, hzero, .inr (.inr ⟨rfl, rfl⟩)⟩

theorem storedNumber_eq (x : Float) : storedNumber x = if x != 0 then x else 0 := by
  have hbits : x.toBits = negativeZero ↔ x = -0 := by
    rw [← Float.toBits_inj]
    rfl
  have hne : (0 : Float) ≠ -0 := by decide
  rw [storedNumber, bne]
  by_cases hx : x = 0 ∨ x = -0
  · rw [(beq_zero_iff x).2 hx]
    rcases hx with rfl | rfl <;> simp [hbits, hne]
  · have hbeq : (x == 0) = false := by
      rw [← Bool.not_eq_true, beq_zero_iff]
      exact hx
    rw [not_or] at hx
    simp [hbeq, hbits, hx.2]

/-- The pattern is that of no number : its exponent field is full, and its fraction is not zero. -/
def isNaNPattern (b : UInt64) : Bool := 0x7FF0000000000000 < b.toNat % 0x8000000000000000

/-- The pattern of what is not a number. -/
def nanPattern : UInt64 := 0x7FF8000000000000

/-- The library and this one agree on which patterns are no numbers. -/
theorem isNaNBits_eq (b : UInt64) :
    @UnpackedFloat.isNaNBits Format.binary64 b.toBitVec = isNaNPattern b := by
  have hexp : @UnpackedFloat.unpackExponent Format.binary64 b.toBitVec = -1#_ ↔
      b.toNat / 2 ^ 52 % 2 ^ 11 = 2047 := by
    rw [UnpackedFloat.unpackExponent_def, ← BitVec.toNat_inj, BitVec.extractLsb'_toNat,
      Nat.shiftRight_eq_div_pow]
    rfl
  have hfrac : @UnpackedFloat.unpackMantissa Format.binary64 b.toBitVec = 0#_ ↔
      b.toNat % 2 ^ 52 = 0 := by
    rw [UnpackedFloat.unpackMantissa_def, ← BitVec.toNat_inj, BitVec.extractLsb'_toNat,
      Nat.shiftRight_zero]
    rfl
  rw [UnpackedFloat.isNaNBits, isNaNPattern, decide_eq_decide, ne_eq, hexp, hfrac]
  omega

/-- The patterns of numbers are kept, and what is no number has one pattern. -/
theorem toBits_ofBits (b : UInt64) :
    (Float.ofBits b).toBits = if isNaNPattern b then nanPattern else b := by
  have h := @UnpackedFloat.pack_unpack Format.binary64 b.toBitVec (by decide)
  rw [isNaNBits_eq] at h
  apply UInt64.toBitVec_inj.1
  refine Eq.trans h ?_
  split <;> rfl

/-! ## Numbers without a sign -/

/-- The number has no sign. -/
def Unsigned : UnpackedFloat → Prop
  | .notANumber => True
  | .infinity s | .zero s | .finite s _ _ _ => s = .positive

variable {spec : Float.Model.Format}

theorem unpackSign_pack {u : UnpackedFloat} (h : Unsigned u) :
    UnpackedFloat.unpackSign (u.pack spec) = 0#1 := by
  cases u with
  | notANumber => exact UnpackedFloat.unpackSign_packComponents _ _ _
  | infinity s =>
    obtain rfl : s = .positive := h
    exact UnpackedFloat.unpackSign_packComponents _ _ _
  | zero s =>
    obtain rfl : s = .positive := h
    exact UnpackedFloat.unpackSign_packComponents _ _ _
  | finite s m e hm =>
    obtain rfl : s = .positive := h
    rw [UnpackedFloat.pack]
    split
    · exact UnpackedFloat.unpackSign_packComponents _ _ _
    · split <;> exact UnpackedFloat.unpackSign_packComponents _ _ _

theorem unsigned_unpack {b : BitVec spec.numBits} (h : UnpackedFloat.unpackSign b = 0#1) :
    Unsigned (UnpackedFloat.unpack spec b) := by
  have hsign : UnpackedFloat.Sign.ofBitVec (UnpackedFloat.unpackSign b) = .positive := by
    rw [h]
    rfl
  unfold UnpackedFloat.unpack
  dsimp only
  split
  · split
    · exact hsign
    · trivial
  · split
    · split <;> exact hsign
    · exact hsign

/-- A number that is packed without a sign has none. -/
theorem unsigned_pack {u : UnpackedFloat} (h : Unsigned u) :
    Unsigned (Float.Model.pack u).unpack :=
  unsigned_unpack (unpackSign_pack h)

/-- Rounding does not add a sign. -/
theorem unsigned_round (m : Nat) (e : Int) (acc : UnpackedFloat.Accuracy) :
    Unsigned (UnpackedFloat.roundWithAccuracy spec .positive m e acc) := by
  unfold UnpackedFloat.roundWithAccuracy
  dsimp only
  split <;> rfl

theorem unsigned_mul {u v : UnpackedFloat} (hu : Unsigned u) (hv : Unsigned v) :
    Unsigned (u.mul spec v) := by
  cases u <;> cases v <;> simp only [Unsigned] at hu hv <;> subst_vars <;>
    first | trivial | exact unsigned_round _ _ _

theorem unsigned_div {u v : UnpackedFloat} (hu : Unsigned u) (hv : Unsigned v) :
    Unsigned (u.div spec v) := by
  cases u <;> cases v <;> simp only [Unsigned] at hu hv <;> subst_vars <;>
    first | trivial | exact unsigned_round _ _ _

theorem unsigned_ofNat (n : Nat) : Unsigned (UnpackedFloat.ofNat spec n) := by
  rw [UnpackedFloat.ofNat, UnpackedFloat.ofInt, UnpackedFloat.normalize]
  split
  next h =>
    rw [Int.compare_eq_lt] at h
    omega
  next => rfl
  next => exact unsigned_round _ _ _

theorem unsigned_scientific (m : Nat) (e : Int) :
    Unsigned (UnpackedFloat.ofScientific spec m e) := by
  unfold UnpackedFloat.ofScientific
  split
  · rfl
  split
  · rfl
  split
  · rfl
  split
  · exact unsigned_mul rfl rfl
  · exact unsigned_div rfl rfl

/-- The powers of ten that the parser of literals looks up have no sign. -/
theorem unsigned_power : ∀ x ∈ Float.exactlyRepresentablePowersOfTen,
    Unsigned x.toModel.unpack := by
  have h : ∀ x ∈ Float.exactlyRepresentablePowersOfTen,
      @UnpackedFloat.unpackSign Float.Model.Format.binary64 x.toBits.toBitVec = 0#1 := by
    decide
  exact fun x hx => unsigned_unpack (h x hx)

/-- A decimal fraction has no sign. -/
theorem unsigned_ofScientific (m e : Nat) :
    Unsigned (Float.ofScientific m true e).toModel.unpack := by
  unfold Float.ofScientific
  split
  · exact unsigned_pack (unsigned_div (unsigned_pack (unsigned_ofNat _))
      (unsigned_power _ (Array.getElem_mem _)))
  · exact unsigned_pack (unsigned_scientific m _)

/-- The number of a literal is not the zero with a sign. -/
theorem storedNumber_of_literal {literal : Bytes} {x : Float}
    (h : numberOfLiteral? literal = some x) : storedNumber x = x := by
  unfold numberOfLiteral? at h
  dsimp only at h
  split at h
  · cases h
  · obtain rfl := Option.some.inj h
    have hsign := unsigned_ofScientific (ofDecimal (literal.takeWhile (· != 0x2E) ++
      literal.drop ((literal.takeWhile (· != 0x2E)).length + 1)))
      (literal.drop ((literal.takeWhile (· != 0x2E)).length + 1)).length
    generalize Float.ofScientific _ true _ = x at hsign ⊢
    rw [storedNumber, if_neg]
    intro hx
    have hx : x = Float.ofBits negativeZero := by rw [← hx, Float.ofBits_toBits]
    rw [hx] at hsign
    cases hsign

end

end Scriptlet
