import Scriptlet.Number.Shortest

/-!
# Numerals

How a number is printed, and the number that a literal of the language stands for. A number is
printed by its shortest decimal: whole numbers without a point, others positionally while the
decimal exponent is from `-4` to `15`.
-/

namespace Scriptlet

namespace Decimal

/-- The exponent of the first digit. -/
def magnitude (d : Decimal) : Int := d.exponent + (decimal d.digits).length - 1

/-- The decimal written out without an exponent. -/
def positional (d : Decimal) : Bytes :=
  let s := decimal d.digits
  if 0 ≤ d.exponent then s ++ List.replicate d.exponent.toNat 0x30
  else
    let places := (-d.exponent).toNat
    if places < s.length then s.take (s.length - places) ++ "." ++ s.drop (s.length - places)
    else "0." ++ zeroPadded places s

/-- The decimal with one digit before the point and an exponent of at least two digits. -/
def scientific (d : Decimal) : Bytes :=
  let s := decimal d.digits
  let fraction : Bytes := if s.length ≤ 1 then [] else "." ++ s.drop 1
  let sign : Bytes := if d.magnitude < 0 then "-" else "+"
  s.take 1 ++ fraction ++ "e" ++ sign ++ zeroPadded 2 (decimal d.magnitude.natAbs)

/-- The decimal the way programs print it. -/
def text (d : Decimal) : Bytes :=
  if 0 ≤ d.exponent then d.positional
  else if d.magnitude < -4 ∨ 16 ≤ d.magnitude then d.scientific
  else d.positional

end Decimal

/-- The number the way programs print it. Zero has no sign. -/
def numberText (x : Float) : Bytes :=
  match Parts.ofFloat? x with
  | some p =>
    if p.mantissa = 0 then "0"
    else (if p.negative then "-" else "") ++ (Decimal.ofParts p).text
  | none => if x.isNaN then "nan" else if x < 0 then "-inf" else "inf"

/-- The number nearest to a literal of digits, with or without a point; none if it is too large for
a double. -/
def numberOfLiteral? (literal : Bytes) : Option Float :=
  let whole := literal.takeWhile (· != 0x2E)
  let fraction := literal.drop (whole.length + 1)
  let x := Float.ofScientific (ofDecimal (whole ++ fraction)) true fraction.length
  if x.isInf then none else some x

end Scriptlet
