import Scriptlet.Cbor.Item

/-!
# Reading CBOR

`decode` reads a byte string that holds one data item and nothing else. Lengths may be written in
any form, and texts, byte strings, arrays and maps may come without a length and end with a break.
Arrays and maps may hold at most 131072 items or pairs, and items may be nested 32 deep.

Every data item takes at least one byte, so the length of the input bounds the nesting of calls.
-/

namespace Scriptlet.Cbor

/-- The largest number of items of an array and of pairs of a map. -/
def maxCount : Nat := 131072

/-- The deepest nesting of items. -/
def maxDepth : Nat := 32

/-- The break, which ends an item without a length. -/
def breakByte : UInt8 := 0xFF

/-- The first part of an item: its major type, the five bits beside it, and the number that they and
the bytes after them stand for. -/
structure Head where
  major : Nat
  info : Nat
  number : Nat
  deriving DecidableEq, Repr

/-- Whether the item has no length and ends with a break. -/
def Head.isOpen (h : Head) : Bool := h.info == 31

/-- Reads a number of `width` bytes. -/
def readNumber (width : Nat) (s : Bytes) : Option (Nat × Bytes) :=
  if s.length < width then none else some (ofBigEndian (s.take width), s.drop width)

/-- Reads the head of an item. -/
def readHead : Bytes → Option (Head × Bytes)
  | [] => none
  | b :: rest =>
    let major := b.toNat / 32
    let info := b.toNat % 32
    if info < 24 then some (⟨major, info, info⟩, rest)
    else if info = 24 then do
      let (n, rest) ← readNumber 1 rest
      -- the short form holds the first simple values
      if major = 7 ∧ n < 32 then none else some (⟨major, info, n⟩, rest)
    else if info = 25 then do
      let (n, rest) ← readNumber 2 rest
      some (⟨major, info, n⟩, rest)
    else if info = 26 then do
      let (n, rest) ← readNumber 4 rest
      some (⟨major, info, n⟩, rest)
    else if info = 27 then do
      let (n, rest) ← readNumber 8 rest
      some (⟨major, info, n⟩, rest)
    else if info = 31 ∧ major ∈ [2, 3, 4, 5] then some (⟨major, info, 0⟩, rest)
    else none

/-- Reads `n` bytes. -/
def readBytes (n : Nat) (s : Bytes) : Option (Bytes × Bytes) :=
  if s.length < n then none else some (s.take n, s.drop n)

/-- Reads the chunks of a byte string or text without a length, up to the break. Each chunk has a
length and the same major type. -/
def readChunks (major : Nat) : (fuel : Nat) → Bytes → Option (List Bytes × Bytes)
  | 0, _ => none
  | fuel + 1, s =>
    if s.head? = some breakByte then some ([], s.drop 1)
    else do
      let (h, s) ← readHead s
      if h.major ≠ major ∨ h.isOpen then none
      else
        let (chunk, s) ← readBytes h.number s
        let (chunks, s) ← readChunks major fuel s
        return (chunk :: chunks, s)

/-- Reads the content of a byte string or text. -/
def readString (h : Head) (s : Bytes) : Option (List Bytes × Bytes) :=
  if h.isOpen then readChunks h.major (s.length + 1) s
  else do
    let (chunk, s) ← readBytes h.number s
    return ([chunk], s)

/-- The item of major type 7 with the given head. -/
def special (h : Head) : Item :=
  match h.info with
  | 20 => .bool false
  | 21 => .bool true
  | 22 | 23 => .null
  | 25 => .float (Format.half.decode h.number)
  | 26 => .float (Format.single.decode h.number)
  | 27 => .float (Float.ofBits h.number.toUInt64)
  | _ => .simple h.number

/-- The items of a map in pairs; none if one is left over. -/
def pairUp : List Item → Option (List (Item × Item))
  | [] => some []
  | [_] => none
  | k :: v :: rest => (pairUp rest).map ((k, v) :: ·)

mutual

/-- Reads an item inside `depth` others. -/
def readItem : (fuel depth : Nat) → Bytes → Option (Item × Bytes)
  | 0, _, _ => none
  | fuel + 1, depth, s => do
    let (h, s) ← readHead s
    match h.major with
    | 0 => return (.unsigned h.number, s)
    | 1 => return (.negative h.number, s)
    | 2 => do
      let (chunks, s) ← readString h s
      return (.bytes chunks.flatten, s)
    | 3 => do
      let (chunks, s) ← readString h s
      return (.text chunks, s)
    | 4 =>
      if maxDepth ≤ depth ∨ maxCount < h.number then none
      else do
        let (items, s) ←
          if h.isOpen then readOpen fuel (depth + 1) s else readItems fuel (depth + 1) h.number s
        if maxCount < items.length then none else return (.array items, s)
    | 5 =>
      if maxDepth ≤ depth ∨ maxCount < h.number then none
      else do
        let (items, s) ←
          if h.isOpen then readOpen fuel (depth + 1) s
          else readItems fuel (depth + 1) (2 * h.number) s
        let entries ← pairUp items
        if maxCount < entries.length then none else return (.map entries, s)
    | 6 => do
      -- a tag inside a tag is one level deeper
      let nested := (s.head?.map fun b => b.toNat / 32 == 6).getD false
      if nested ∧ maxDepth ≤ depth then none
      else
        let (content, s) ← readItem fuel (if nested then depth + 1 else depth) s
        return (.tag h.number content, s)
    | _ => return (special h, s)

/-- Reads `n` items. -/
def readItems : (fuel depth n : Nat) → Bytes → Option (List Item × Bytes)
  | _, _, 0, s => some ([], s)
  | 0, _, _ + 1, _ => none
  | fuel + 1, depth, n + 1, s => do
    let (item, s) ← readItem fuel depth s
    let (items, s) ← readItems fuel depth n s
    return (item :: items, s)

/-- Reads items up to the break. -/
def readOpen : (fuel depth : Nat) → Bytes → Option (List Item × Bytes)
  | 0, _, _ => none
  | fuel + 1, depth, s =>
    if s.head? = some breakByte then some ([], s.drop 1)
    else do
      let (item, s) ← readItem fuel depth s
      let (items, s) ← readOpen fuel depth s
      return (item :: items, s)

end

/-- The item that a byte string holds, if it holds just one. -/
def decode (s : Bytes) : Option Item :=
  match readItem (2 * s.length + 2) 0 s with
  | some (item, []) => some item
  | _ => none

end Scriptlet.Cbor
