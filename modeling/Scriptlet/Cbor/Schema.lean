import Scriptlet.Cbor.Reader
import Scriptlet.Text.Case
import Scriptlet.Text.Digits

/-!
# Reading typed data from CBOR

How a data item is read as a value of a known type. Null stands for the value that was there before,
tags are looked through, an integer may stand for a floating-point number, and a record is a map in
which the first entry for a field counts and entries for no field are passed over.
-/

namespace Scriptlet.Cbor

/-- The tag that marks a byte string as CBOR. -/
def selfDescribed : Nat := 55799

/-- Whether an item is what the tag of the given number asks for: a text for a date, a number for a
point in time, and bytes for large integers. -/
def fitsTag (number : Nat) (content : Item) : Bool :=
  match number, content with
  | 0, .text _ => true
  | 0, _ => false
  | 1, .unsigned _ | 1, .negative _ | 1, .float _ => true
  | 1, _ => false
  | 2, .bytes _ | 3, .bytes _ => true
  | 2, _ | 3, _ => false
  | _, _ => true

/-- The item inside all tags around it. Large integers become integers. -/
def Item.untagged? : Item → Option Item
  | .tag number content =>
    if number = selfDescribed then content.untagged?
    else if !fitsTag number content then none
    else match number, content with
      | 2, .bytes s =>
        if ofBigEndian s < 2 * int64Bound then some (.unsigned (ofBigEndian s)) else none
      | 3, .bytes s => if ofBigEndian s < int64Bound then some (.negative (ofBigEndian s)) else none
      | _, content => content.untagged?
  | item => some item

/-- Reads a value in the place of another one. -/
abbrev Slot (α : Type) := α → Item → Option α

namespace Slot

/-- Null leaves the value as it was. -/
def ofItem {α : Type} (read : Item → Option α) : Slot α := fun old item => do
  match ← item.untagged? with
  | .null => some old
  | item => read item

/-- An integer of 64 bits. -/
def int : Slot Int := ofItem fun
  | .unsigned n | .simple n => if n < int64Bound then some n else none
  | .negative n => if n < int64Bound then some (.negSucc n) else none
  | _ => none

/-- A natural number below `bound`. -/
def nat (bound : Nat) : Slot Nat := ofItem fun
  | .unsigned n | .simple n => if n < bound then some n else none
  | _ => none

/-- A floating-point number. -/
def float : Slot Float := ofItem fun
  | .float x => some x
  | .unsigned n | .simple n => some (Float.ofNat n)
  | .negative n => if n < int64Bound then some (Float.ofInt (.negSucc n)) else none
  | _ => none

/-- The text of some chunks, each of which must be well-formed. -/
def joinChunks? (chunks : List Bytes) : Option Bytes :=
  if chunks.all Utf8.isValid then some chunks.flatten else none

/-- A text. -/
def text : Slot Bytes := ofItem fun
  | .text chunks => joinChunks? chunks
  | _ => none

/-- A truth value. -/
def bool : Slot Bool := ofItem fun
  | .bool b => some b
  | _ => none

/-- A list; null stands for the empty one. -/
def list {α : Type} (zero : α) (element : Slot α) : Slot (List α) := fun _ item => do
  match ← item.untagged? with
  | .null => some []
  | .array items => items.mapM (element zero)
  | _ => none

/-- A value that may be absent; null stands for its absence, unless it is tagged. -/
def optional {α : Type} (zero : α) (inner : Slot α) : Slot (Option α) := fun _ item =>
  match item with
  | .null => some none
  | item => (inner zero item).map some

end Slot

/-- How the entries of a record name a field. -/
inductive FieldKey where
  /-- By a number, or by its digits. -/
  | number (n : Nat) (digits : Bytes)
  /-- By a name, in either case of letters. -/
  | name (s : Bytes)
  deriving DecidableEq, Repr

namespace FieldKey

/-- The text that names the field. -/
def text : FieldKey → Bytes
  | number _ digits => digits
  | name s => s

/-- Whether the field is named by `key` but for the case of letters. -/
def matchesLoosely (key : Bytes) (f : FieldKey) : Bool := key.map lowerByte == f.text.map lowerByte

end FieldKey

/-- A field of a record, with the item of the first entry that names it. -/
structure Field where
  key : FieldKey
  item : Option Item
  deriving Repr

/-- Gives `item` to the first field without an item that satisfies `p`; none if there is none. -/
def fill (p : FieldKey → Bool) (item : Item) : List Field → Option (List Field)
  | [] => none
  | f :: rest =>
    if f.item.isNone && p f.key then some (⟨f.key, some item⟩ :: rest)
    else (fill p item rest).map (f :: ·)

/-- The fields after one entry; none if its key cannot name a field. -/
def place (fields : List Field) (key item : Item) : Option (List Field) :=
  match key with
  | .text chunks => do
    let key ← Slot.joinChunks? chunks
    match fill (fun f => f.text == key) item fields with
    | some fields => some fields
    | none => some ((fill (FieldKey.matchesLoosely key) item fields).getD fields)
  | .unsigned n =>
    let named : FieldKey → Bool
      | .number m _ => m == n
      | .name _ => false
    some ((fill named item fields).getD fields)
  | .negative n => if n < int64Bound then some fields else none
  | _ => none

/-- The items of a record's fields, in the order of `keys`. Null stands for a record without
entries. -/
def record? (keys : List FieldKey) (item : Item) : Option (List (Option Item)) := do
  let fields : List Field := keys.map fun k => ⟨k, none⟩
  match ← item.untagged? with
  | .null => some (fields.map Field.item)
  | .map entries =>
    let fields ← entries.foldlM (fun fields e => place fields e.1 e.2) fields
    some (fields.map Field.item)
  | _ => none

/-- Reads a field in the place of `old`; without an item, `old` stays. -/
def Slot.field {α : Type} (slot : Slot α) (old : α) : Option Item → Option α
  | none => some old
  | some item => slot old item

end Scriptlet.Cbor
