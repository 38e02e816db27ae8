import Scriptlet.Machine.Fault
import Scriptlet.Number.Arithmetic

/-!
# Operators

The meaning of the machine's operators on values.
-/

namespace Scriptlet.Operator

/-- Arithmetic on two numbers. The last bit of a power is that of the platform's own function. -/
def arithmetic (op : Opcode) (x y : Float) : Except RuntimeCause Float :=
  match op with
  | .add => .ok (x + y)
  | .sub => .ok (x - y)
  | .mul => .ok (x * y)
  | .div => if y == 0 then .error .divisionByZero else .ok (x / y)
  | .mod => if y == 0 then .error .divisionByZero else .ok (Arithmetic.flooredRemainder x y)
  | .exp => if x == 0 && y < 0 then .error .divisionByZero else .ok (x.pow y)
  | _ => .error .typeMismatch

/-- A bitwise operation on the whole parts of two numbers. -/
def bits (op : Opcode) (x y : Float) : Float :=
  match op with
  | .and => Arithmetic.bitwise (· &&& ·) x y
  | .or => Arithmetic.bitwise (· ||| ·) x y
  | _ => Arithmetic.bitwise (· ^^^ ·) x y

/-- A logical operation on two truth values. -/
def logic (op : Opcode) (x y : Bool) : Bool :=
  match op with
  | .and => x && y
  | .or => x || y
  | _ => x != y

/-- A comparison of two numbers. -/
def compareNumbers (op : Opcode) (x y : Float) : Bool :=
  match op with
  | .lt => x < y
  | .le => x ≤ y
  | .gt => y < x
  | _ => y ≤ x

/-- A comparison of two texts, byte by byte. -/
def compareTexts (op : Opcode) (x y : Bytes) : Bool :=
  match op with
  | .lt => x < y
  | .le => x ≤ y
  | .gt => y < x
  | _ => y ≤ x

/-- The value of a binary operator, `a` on its left and `b` on its right. -/
def binary (op : Opcode) (a b : Value) : Except RuntimeCause Value :=
  match op with
  | .add =>
    match a, b with
    | .number x, .number y => (arithmetic .add x y).map .number
    | .string s, b => .ok (.string (s ++ b.text))
    | a, .string t => .ok (.string (a.text ++ t))
    | _, _ => .error .typeMismatch
  | .sub | .mul | .div | .mod | .exp =>
    match a, b with
    | .number x, .number y => (arithmetic op x y).map .number
    | _, _ => .error .typeMismatch
  | .and | .or | .xor =>
    match a, b with
    | .number x, .number y => .ok (.number (bits op x y))
    | .bool x, .bool y => .ok (.bool (logic op x y))
    | _, _ => .error .typeMismatch
  | .eq => if a.kind = b.kind then .ok (.bool (a.equal b)) else .error .typeMismatch
  | .ne => if a.kind = b.kind then .ok (.bool !(a.equal b)) else .error .typeMismatch
  | .lt | .le | .gt | .ge =>
    match a, b with
    | .number x, .number y => .ok (.bool (compareNumbers op x y))
    | .string x, .string y => .ok (.bool (compareTexts op x y))
    | _, _ => .error .typeMismatch
  | _ => .error .typeMismatch

/-- The value of the negation operator. -/
def negate : Value → Except RuntimeCause Value
  | .number x => .ok (.number (-x))
  | _ => .error .typeMismatch

end Scriptlet.Operator
