/-!
# Binary floating-point formats

A finite number of a binary format is `± mantissa · 2 ^ exponent`. `Parts.ofFloat?` takes a double
apart and `Parts.toFloat` puts one together. A narrower `Format` is read with `Format.decode`, and
`Format.encode?` finds the bits of a number that the format holds exactly.
-/

namespace Scriptlet

/-- The number `± mantissa · 2 ^ exponent`. -/
structure Parts where
  negative : Bool
  mantissa : Nat
  exponent : Int
  deriving DecidableEq, Repr

/-- `n · 2 ^ k`, rounded down. -/
def shiftBy (n : Nat) (k : Int) : Nat :=
  if 0 ≤ k then n <<< k.toNat else n >>> (-k).toNat

/-- The layout of a binary format: the widths of its fraction and exponent fields. -/
structure Format where
  fractionBits : Nat
  exponentBits : Nat
  deriving DecidableEq, Repr

namespace Format

/-- Sixteen bits. -/
def half : Format := ⟨10, 5⟩

/-- Thirty-two bits. -/
def single : Format := ⟨23, 8⟩

/-- Sixty-four bits. -/
def double : Format := ⟨52, 11⟩

variable (f : Format)

/-- The exponent field of the numbers from one up to two. -/
def bias : Nat := (1 <<< (f.exponentBits - 1)) - 1

/-- The exponent field of the infinities and of what is not a number. -/
def special : Nat := (1 <<< f.exponentBits) - 1

/-- The exponent of the last place of the smallest numbers. -/
def leastExponent : Int := 1 - f.bias - f.fractionBits

/-- The sign bit of a bit pattern. -/
def isNegative (bits : Nat) : Bool := (bits >>> (f.fractionBits + f.exponentBits)) % 2 == 1

/-- The exponent field of a bit pattern. -/
def exponentField (bits : Nat) : Nat := (bits >>> f.fractionBits) % (1 <<< f.exponentBits)

/-- The fraction field of a bit pattern. -/
def fraction (bits : Nat) : Nat := bits % (1 <<< f.fractionBits)

/-- The bit pattern with the given fields. -/
def pack (negative : Bool) (exponentField fraction : Nat) : Nat :=
  (if negative then 1 <<< (f.fractionBits + f.exponentBits) else 0) +
    (exponentField <<< f.fractionBits) + fraction

/-- The finite number that a bit pattern stands for. -/
def parts? (bits : Nat) : Option Parts :=
  let e := f.exponentField bits
  if e = f.special then none
  else if e = 0 then some ⟨f.isNegative bits, f.fraction bits, f.leastExponent⟩
  else some ⟨f.isNegative bits, (1 <<< f.fractionBits) + f.fraction bits, f.leastExponent + (e - 1)⟩

/-- The bit pattern of a finite number, its low bits dropped where the format has no room for them;
infinity where the number is too large. -/
def ofParts (p : Parts) : Nat :=
  if p.mantissa = 0 then f.pack p.negative 0 0
  else
    let field := p.exponent + p.mantissa.log2 - f.leastExponent - f.fractionBits + 1
    if field ≤ 0 then f.pack p.negative 0 (shiftBy p.mantissa (p.exponent - f.leastExponent))
    else if (f.special : Int) ≤ field then f.pack p.negative f.special 0
    else
      let fraction := shiftBy p.mantissa (f.fractionBits - p.mantissa.log2)
      f.pack p.negative field.toNat (fraction - (1 <<< f.fractionBits))

end Format

/-- The parts of a double that is finite. -/
def Parts.ofFloat? (x : Float) : Option Parts := Format.double.parts? x.toBits.toNat

/-- The double of a number that doubles hold exactly. -/
def Parts.toFloat (p : Parts) : Float := Float.ofBits (Format.double.ofParts p).toUInt64

/-- The double that a bit pattern of the format stands for. -/
def Format.decode (f : Format) (bits : Nat) : Float :=
  match f.parts? bits with
  | some p => p.toFloat
  | none =>
    if f.fraction bits = 0 then
      Float.ofBits (Format.double.pack (f.isNegative bits) Format.double.special 0).toUInt64
    else Float.ofBits (Format.double.pack false Format.double.special 1).toUInt64

/-- The bit pattern of a finite double that the format holds exactly. -/
def Format.encode? (f : Format) (x : Float) : Option Nat := do
  let bits := f.ofParts (← Parts.ofFloat? x)
  if (f.decode bits).toBits = x.toBits then some bits else none

end Scriptlet
