import Scriptlet.Json.Value

/-!
# Reading JSON

`JsonValue.parse?` reads a text that holds one value, with blanks around it and between its parts,
and nothing else. Values may be nested 10000 deep. In strings, every byte outside every well-formed
sequence and every surrogate without its partner is read as the replacement character.

Each value takes at least one byte, so twice the length of the input bounds the nesting of calls.
-/

namespace Scriptlet.JsonValue

/-- The deepest nesting of arrays and objects. -/
def maxDepth : Nat := 10000

/-- A blank between the parts of a value. -/
def isSpace (b : UInt8) : Bool := b == 0x20 || b == 0x09 || b == 0x0A || b == 0x0D

/-- The text after the blanks that it starts with. -/
def skipSpace (s : Bytes) : Bytes := s.dropWhile isSpace

/-- An ASCII digit. -/
def isDigitByte (b : UInt8) : Bool := 0x30 ≤ b && b ≤ 0x39

/-! ## Numbers -/

/-- The digits that a text starts with, at least one, and the rest. -/
def readDigits (s : Bytes) : Option (Bytes × Bytes) :=
  match s.takeWhile isDigitByte with
  | [] => none
  | digits => some (digits, s.dropWhile isDigitByte)

/-- The integral part of a number: a zero, or digits that do not start with one. -/
def readWhole (s : Bytes) : Option (Bytes × Bytes) :=
  match s with
  | 0x30 :: rest => some ([0x30], rest)
  | s => readDigits s

/-- The fraction of a number, if there is one. -/
def readFraction (s : Bytes) : Option (Bytes × Bytes) :=
  match s with
  | 0x2E :: rest => do
    let (digits, rest) ← readDigits rest
    return (0x2E :: digits, rest)
  | s => some ([], s)

/-- The sign of an exponent, if there is one. -/
def readSign (s : Bytes) : Bytes × Bytes :=
  match s with
  | b :: rest => if b == 0x2B || b == 0x2D then ([b], rest) else ([], s)
  | [] => ([], [])

/-- The exponent of a number, if there is one. -/
def readExponent (s : Bytes) : Option (Bytes × Bytes) :=
  match s with
  | b :: rest =>
    if b == 0x65 || b == 0x45 then do
      let (sign, rest) := readSign rest
      let (digits, rest) ← readDigits rest
      return (b :: sign ++ digits, rest)
    else some ([], s)
  | [] => some ([], [])

/-- The literal of a number. -/
def readNumber (s : Bytes) : Option (Bytes × Bytes) := do
  let (minus, s) := match s with
    | 0x2D :: rest => (([0x2D] : Bytes), rest)
    | s => ([], s)
  let (whole, s) ← readWhole s
  let (fraction, s) ← readFraction s
  let (exponent, s) ← readExponent s
  return (minus ++ whole ++ fraction ++ exponent, s)

/-! ## Strings -/

/-- The number that four hexadecimal digits stand for. -/
def hexQuad? : Bytes → Option Nat
  | a :: b :: c :: d :: _ => do
    let a ← hexValue? a
    let b ← hexValue? b
    let c ← hexValue? c
    let d ← hexValue? d
    return ((a * 16 + b) * 16 + c) * 16 + d
  | _ => none

/-- The second half of a pair of surrogates, as the escape that the text starts with. -/
def lowSurrogate? : Bytes → Option Nat
  | 0x5C :: 0x75 :: rest =>
    match hexQuad? rest with
    | some n => if 0xDC00 ≤ n ∧ n ≤ 0xDFFF then some n else none
    | none => none
  | _ => none

/-- What a backslash and the text after it stand for, and how many bytes of that text the escape
takes. -/
def escape? : Bytes → Option (Bytes × Nat)
  | [] => none
  | e :: rest =>
    if e == 0x22 || e == 0x5C || e == 0x2F then some ([e], 1)
    else if e == 0x62 then some ([0x08], 1)
    else if e == 0x66 then some ([0x0C], 1)
    else if e == 0x6E then some ([0x0A], 1)
    else if e == 0x72 then some ([0x0D], 1)
    else if e == 0x74 then some ([0x09], 1)
    else if e == 0x75 then
      match hexQuad? rest with
      | none => none
      | some n =>
        if 0xD800 ≤ n ∧ n ≤ 0xDBFF then
          match lowSurrogate? (rest.drop 4) with
          | some low => some (Utf8.encode (0x10000 + (n - 0xD800) * 0x400 + (low - 0xDC00)), 11)
          | none => some (Utf8.encode Glyph.replacement, 5)
        else some (Utf8.encode n, 5)
    else none

/-- The content of a string up to its closing quote, after the first `skip` bytes, and the rest. -/
def readTextAfter : (skip : Nat) → Bytes → Option (Bytes × Bytes)
  | _, [] => none
  | skip + 1, _ :: rest => readTextAfter skip rest
  | 0, b :: rest =>
    if b == 0x22 then some ([], rest)
    else if b == 0x5C then do
      let (out, width) ← escape? rest
      let (text, rest) ← readTextAfter width rest
      return (out ++ text, rest)
    else if b < 0x20 then none
    else do
      let (text, rest) ← readTextAfter 0 rest
      return (b :: text, rest)

/-- The content of a string after its opening quote, and the rest. -/
def readText (s : Bytes) : Option (Bytes × Bytes) := do
  let (text, rest) ← readTextAfter 0 s
  return (Utf8.repaired text, rest)

/-! ## Values -/

/-- The rest of a text after a word that it must start with. -/
def readWord : (word : Bytes) → Bytes → Option Bytes
  | [], s => some s
  | _ :: _, [] => none
  | w :: word, b :: s => if w = b then readWord word s else none

mutual

/-- Reads a value inside `depth` others, and the blanks before it. -/
def readValue : (fuel depth : Nat) → Bytes → Option (JsonValue × Bytes)
  | 0, _, _ => none
  | fuel + 1, depth, s =>
    match skipSpace s with
    | [] => none
    | b :: rest =>
      if b == 0x7B then
        if maxDepth ≤ depth then none
        else match skipSpace rest with
          | 0x7D :: rest => some (.object [], rest)
          | rest => do
            let (members, rest) ← readMembers fuel (depth + 1) rest
            return (.object members, rest)
      else if b == 0x5B then
        if maxDepth ≤ depth then none
        else match skipSpace rest with
          | 0x5D :: rest => some (.array [], rest)
          | rest => do
            let (items, rest) ← readItems fuel (depth + 1) rest
            return (.array items, rest)
      else if b == 0x22 then do
        let (text, rest) ← readText rest
        return (.string text, rest)
      else if b == 0x74 then do return (.bool true, ← readWord "rue" rest)
      else if b == 0x66 then do return (.bool false, ← readWord "alse" rest)
      else if b == 0x6E then do return (.null, ← readWord "ull" rest)
      else do
        let (literal, rest) ← readNumber (b :: rest)
        return (.number literal, rest)

/-- Reads the items of an array, at least one, and its closing bracket. -/
def readItems : (fuel depth : Nat) → Bytes → Option (List JsonValue × Bytes)
  | 0, _, _ => none
  | fuel + 1, depth, s => do
    let (item, s) ← readValue fuel depth s
    match skipSpace s with
    | 0x5D :: s => return ([item], s)
    | 0x2C :: s => do
      let (items, s) ← readItems fuel depth s
      return (item :: items, s)
    | _ => none

/-- Reads the members of an object, at least one, and its closing brace. -/
def readMembers : (fuel depth : Nat) → Bytes → Option (List (Bytes × JsonValue) × Bytes)
  | 0, _, _ => none
  | fuel + 1, depth, s =>
    match skipSpace s with
    | 0x22 :: s => do
      let (key, s) ← readText s
      match skipSpace s with
      | 0x3A :: s => do
        let (value, s) ← readValue fuel depth s
        match skipSpace s with
        | 0x7D :: s => return ([(key, value)], s)
        | 0x2C :: s => do
          let (members, s) ← readMembers fuel depth s
          return ((key, value) :: members, s)
        | _ => none
      | _ => none
    | _ => none

end

/-- The value that a text holds, if it holds just one. -/
def parse? (s : Bytes) : Option JsonValue :=
  match readValue (2 * s.length + 2) 0 s with
  | some (value, rest) => if skipSpace rest = [] then some value else none
  | none => none

end Scriptlet.JsonValue
