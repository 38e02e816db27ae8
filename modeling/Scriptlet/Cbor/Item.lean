import Scriptlet.Number.Binary
import Scriptlet.Text.Utf8

/-!
# CBOR data items

The data items of the Concise Binary Object Representation (RFC 8949), and their canonical encoding:
every length and number in its shortest form, floating-point numbers in the shortest format that
keeps their value.
-/

namespace Scriptlet.Cbor

/-- A data item. -/
inductive Item where
  | unsigned (n : Nat)
  /-- The integer `-1 - n`. -/
  | negative (n : Nat)
  | bytes (s : Bytes)
  /-- A text, in the chunks in which it was written. -/
  | text (chunks : List Bytes)
  | array (items : List Item)
  | map (entries : List (Item × Item))
  | tag (number : Nat) (content : Item)
  | bool (b : Bool)
  /-- The absence of a value; the undefined value is read as this too. -/
  | null
  /-- A simple value without a meaning of its own. -/
  | simple (n : Nat)
  | float (x : Float)
  deriving Repr, Inhabited

/-- The last `width` bytes of `n`, the most significant first. -/
def bigEndian : (width : Nat) → Nat → Bytes
  | 0, _ => []
  | width + 1, n => bigEndian width (n / 256) ++ [(n % 256).toUInt8]

/-- The number that some bytes stand for, the most significant first. -/
def ofBigEndian (s : Bytes) : Nat := s.foldl (fun n b => 256 * n + b.toNat) 0

/-- The first byte of an item: its major type and five more bits. -/
def initialByte (major info : Nat) : UInt8 := (major * 32 + info).toUInt8

/-- The head of an item: its major type and a number, in the shortest form. -/
def head (major n : Nat) : Bytes :=
  if n < 24 then [initialByte major n]
  else if n < 0x100 then initialByte major 24 :: bigEndian 1 n
  else if n < 0x10000 then initialByte major 25 :: bigEndian 2 n
  else if n < 0x100000000 then initialByte major 26 :: bigEndian 4 n
  else initialByte major 27 :: bigEndian 8 n

/-- The shortest encoding of a floating-point number. What is not a number has one encoding. -/
def encodeFloat (x : Float) : Bytes :=
  if x.isNaN then [0xF9, 0x7E, 0x00]
  else if x.isInf then if x < 0 then [0xF9, 0xFC, 0x00] else [0xF9, 0x7C, 0x00]
  else match Format.half.encode? x with
    | some bits => 0xF9 :: bigEndian 2 bits
    | none =>
      match Format.single.encode? x with
      | some bits => 0xFA :: bigEndian 4 bits
      | none => 0xFB :: bigEndian 8 x.toBits.toNat

mutual

/-- The canonical encoding of an item. The entries of a map keep their order. -/
def encode : Item → Bytes
  | .unsigned n => head 0 n
  | .negative n => head 1 n
  | .bytes s => head 2 s.length ++ s
  | .text chunks => head 3 chunks.flatten.length ++ chunks.flatten
  | .array items => head 4 items.length ++ encodeItems items
  | .map entries => head 5 entries.length ++ encodeEntries entries
  | .tag number content => head 6 number ++ encode content
  | .bool false => [0xF4]
  | .bool true => [0xF5]
  | .null => [0xF6]
  | .simple n => head 7 n
  | .float x => encodeFloat x

/-- The items of an array, one after the other. -/
def encodeItems : List Item → Bytes
  | [] => []
  | i :: rest => encode i ++ encodeItems rest

/-- The entries of a map, each key before its value. -/
def encodeEntries : List (Item × Item) → Bytes
  | [] => []
  | (k, v) :: rest => encode k ++ encode v ++ encodeEntries rest

end

/-- The item of an integer. -/
def Item.ofInt : Int → Item
  | .ofNat n => .unsigned n
  | .negSucc n => .negative n

/-- The item of a text. -/
def Item.ofText (s : Bytes) : Item := .text [s]

end Scriptlet.Cbor
