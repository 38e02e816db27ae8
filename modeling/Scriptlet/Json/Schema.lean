import Scriptlet.Json.Reader
import Scriptlet.Text.Case
import Scriptlet.Text.Table

/-!
# Reading typed data from JSON

How a JSON value is read as a value of a known type, in the place of an earlier one. Null leaves a
single value as it was and empties a list or a table; the items of a list are read in the places of
earlier ones (`Shelf`). The members of an object are read one after the other, so the last member
for a field counts; members for no field are passed over.
-/

namespace Scriptlet.JsonValue

/-- The places of a list that may be read several times. The places that a shorter list leaves over
are hidden, and a longer one finds their items again. -/
structure Shelf (α : Type) where
  items : List α := []
  hidden : List α := []
  deriving Repr

/-- Reads a value in the place of another one. -/
abbrev Slot (α : Type) := α → JsonValue → Option α

namespace Slot

/-- A text. -/
def text : Slot Bytes := fun old value =>
  match value with
  | .null => some old
  | .string s => some s
  | _ => none

/-- A truth value. -/
def bool : Slot Bool := fun old value =>
  match value with
  | .null => some old
  | .bool b => some b
  | _ => none

/-- The integer of a literal without fraction and exponent. -/
def intOfLiteral? (literal : Bytes) : Option Int :=
  match literal with
  | 0x2D :: digits => if digits.all isDigitByte then some (-(ofDecimal digits : Int)) else none
  | digits => if digits.all isDigitByte then some (ofDecimal digits) else none

/-- An integer of 64 bits. -/
def int : Slot Int := fun old value =>
  match value with
  | .null => some old
  | .number literal => do
    let n ← intOfLiteral? literal
    if fitsInt64 n then some n else none
  | _ => none

/-- The items of an array, each read in the place of the one that was there. -/
def items {α : Type} (zero : α) (element : Slot α) : List α → List JsonValue → Option (List α)
  | _, [] => some []
  | old, v :: rest => do
    let a ← element (old.head?.getD zero) v
    return a :: (← items zero element (old.drop 1) rest)

/-- A list. -/
def list {α : Type} (zero : α) (element : Slot α) : Slot (Shelf α) := fun old value =>
  match value with
  | .null | .array [] => some {}
  | .array values => do
    let places := old.items ++ old.hidden
    return ⟨← items zero element places values, places.drop values.length⟩
  | _ => none

/-- A table of texts. The entries of an object are added to those that were there. -/
def table : Slot (Table Bytes) := fun old value =>
  match value with
  | .null => some .empty
  | .object members => members.foldlM (fun t m => do return t.insert m.1 (← text [] m.2)) old
  | _ => none

end Slot

/-- How one type of records reads a member: the name of the field, and how the record is read with a
new value for it. -/
abbrev Fields (ρ : Type) := List (Bytes × Slot ρ)

/-- The field that a key names: one of that very name, or else one of that name but for the case of
letters. -/
def Fields.slotOf? {ρ : Type} (fields : Fields ρ) (key : Bytes) : Option (Slot ρ) :=
  match List.find? (fun f => f.1 = key) fields with
  | some f => some f.2
  | none => (List.find? (fun f => key.isNameFolded f.1) fields).map Prod.snd

/-- A record with the given fields. -/
def Slot.record {ρ : Type} (fields : Fields ρ) : Slot ρ := fun old value =>
  match value with
  | .null => some old
  | .object members =>
    members.foldlM (fun r m =>
      match fields.slotOf? m.1 with
      | some slot => slot r m.2
      | none => some r) old
  | _ => none

end Scriptlet.JsonValue
