import Scriptlet.Text.Digits

/-!
# Percent escapes

A byte may be written as a percent sign and two hexadecimal digits. `Percent.unescaped?` reads a
text with such escapes, and reads back what `Percent.escaped` writes (`unescaped?_escaped`).
-/

namespace Scriptlet.Percent

/-- The percent sign. -/
def sign : UInt8 := 0x25

/-- The bytes that a text with escapes stands for; none if a percent sign starts no escape. -/
def unescaped? : Bytes → Option Bytes
  | [] => some []
  | b :: rest =>
    if b = sign then
      match rest with
      | h :: l :: rest => do
        let h ← hexValue? h
        let l ← hexValue? l
        return (h * 16 + l).toUInt8 :: (← unescaped? rest)
      | _ => none
    else (unescaped? rest).map (b :: ·)

/-- The escape of a byte. -/
def escape (b : UInt8) : Bytes := sign :: hexUpper 2 b.toNat

/-- A text in which only the bytes that satisfy `plain` are written as they are. -/
def escaped (plain : UInt8 → Bool) (s : Bytes) : Bytes :=
  s.flatMap fun b => if plain b then [b] else escape b

/-- An escape is read back as its byte. -/
theorem unescaped?_escape (b : UInt8) (rest : Bytes) :
    unescaped? (escape b ++ rest) = (unescaped? rest).map (b :: ·) := by
  have h : (b.toNat / 16 % 16 * 16 + b.toNat % 16).toUInt8 = b := by
    have := b.toNat_lt
    rw [show b.toNat / 16 % 16 * 16 + b.toNat % 16 = b.toNat by omega]
    simp
  simp only [escape, hexUpper, List.nil_append, List.cons_append]
  rw [unescaped?, if_pos rfl]
  simp only [hexValue?_hexDigit (Or.inl rfl), Option.bind_eq_bind, Option.bind_some, h]
  cases unescaped? rest <;> rfl

/-- What is written with escapes is read back, if percent signs are among the bytes escaped. -/
theorem unescaped?_escaped (plain : UInt8 → Bool) (h : plain sign = false) (s : Bytes) :
    unescaped? (escaped plain s) = some s := by
  induction s with
  | nil => rfl
  | cons b rest ih =>
    rw [escaped, List.flatMap_cons, ← escaped]
    by_cases hb : plain b = true
    · have hs : b ≠ sign := fun e => by simp [e, h] at hb
      simp only [hb, if_true, List.singleton_append]
      rw [unescaped?.eq_def]
      simp only [if_neg hs, ih, Option.map_some]
    · simp only [hb, Bool.false_eq_true, if_false, unescaped?_escape, ih, Option.map_some]

end Scriptlet.Percent
