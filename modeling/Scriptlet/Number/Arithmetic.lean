import Scriptlet.Number.Binary

/-!
# Remainders and bits

The operations on numbers that the machine needs beyond addition, subtraction, multiplication and
division.
-/

namespace Scriptlet.Arithmetic

/-- The exact remainder of `x / y` with the quotient rounded toward zero. It has the sign of `x`. -/
def truncatedRemainder (x y : Float) : Float :=
  match Parts.ofFloat? x, Parts.ofFloat? y with
  | some a, some b =>
    let e := min a.exponent b.exponent
    let n := shiftBy a.mantissa (a.exponent - e) % shiftBy b.mantissa (b.exponent - e)
    if b.mantissa = 0 then 0 / 0 else Parts.toFloat ⟨a.negative, n, e⟩
  | some _, none => if y.isNaN then y else x
  | none, _ => 0 / 0

/-- The remainder with the quotient rounded down: it has the sign of `y`, unless it is zero. -/
def flooredRemainder (x y : Float) : Float :=
  let r := truncatedRemainder x y
  if r != 0 && (r < 0) != (y < 0) then r + y else r

/-- A bitwise operation on the whole parts of two numbers, as 64-bit integers. A number beyond these
integers stands for the nearest of them; processors differ in what they make of it. -/
def bitwise (op : Int64 → Int64 → Int64) (x y : Float) : Float :=
  (op x.toInt64 y.toInt64).toFloat

end Scriptlet.Arithmetic
