import Scriptlet.Number.Numeral
import Scriptlet.Text.Quoted

/-!
# Values

A value is a number, a text or a truth value.
-/

namespace Scriptlet

/-- The kind of a value. -/
inductive ValueKind where
  | number | string | bool
  deriving DecidableEq, Repr

namespace ValueKind

/-- The number of a kind. -/
def code : ValueKind → Nat
  | number => 0
  | string => 1
  | bool => 2

/-- The kind with the given number. -/
def ofCode? : Nat → Option ValueKind
  | 0 => some number
  | 1 => some string
  | 2 => some bool
  | _ => none

/-- The name of a kind in messages. -/
def name : ValueKind → Bytes
  | number => "number"
  | string => "string"
  | bool => "bool"

/-- The name of the kind with the given number, if any. -/
def nameOfCode (code : Nat) : Bytes :=
  match ofCode? code with
  | some k => k.name
  | none => "Kind(" ++ decimal code ++ ")"

end ValueKind

/-- A value of the language. -/
inductive Value where
  | number (x : Float)
  | string (s : Bytes)
  | bool (b : Bool)
  deriving Repr, Inhabited

namespace Value

/-- The kind of a value. -/
def kind : Value → ValueKind
  | number _ => .number
  | string _ => .string
  | bool _ => .bool

/-- The value the way programs print it, before its escapes are resolved. -/
def text : Value → Bytes
  | number x => numberText x
  | string s => s
  | bool true => "true"
  | bool false => "false"

/-- The value the way a program would write it as a literal. -/
def literal : Value → Bytes
  | string s => Quoted.text s
  | v => v.text

/-- Whether a condition with this value fails: zero and false do, texts never. -/
def isFalsy : Value → Bool
  | number x => x == 0
  | bool b => !b
  | string _ => false

/-- Whether two values are of the same kind and equal. The two zeros are equal, and what is not a
number equals nothing. -/
def equal : Value → Value → Bool
  | number x, number y => x == y
  | string s, string t => s == t
  | bool a, bool b => a == b
  | _, _ => false

end Value

/-- The literal form of a value that may be absent. -/
def literalOf : Option Value → Bytes
  | some v => v.literal
  | none => "<nil>"

end Scriptlet
