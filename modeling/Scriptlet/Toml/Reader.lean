import Scriptlet.Toml.Scalar
import Scriptlet.Text.Utf8

/-!
# Reading configuration files

A TOML document (version 1.1) as the lines that it consists of: headers of tables, and keys with
their values. What the lines mean together is said in `Scriptlet.Toml.Document`.

Each line and each value takes at least one byte, so twice the length of the input bounds the
nesting of calls.
-/

namespace Scriptlet.Toml

/-- A value as it is written. The keys of a table between braces may be paths. -/
inductive Literal where
  | string (s : Bytes)
  | integer (n : Int)
  | float (literal : Bytes)
  | bool (b : Bool)
  | dateTime (literal : Bytes)
  | array (items : List Literal)
  | inlineTable (pairs : List (KeyPath × Literal))
  deriving Repr, Inhabited

/-- A line of a document. -/
inductive Line where
  /-- The header of a table. -/
  | table (path : KeyPath)
  /-- The header of one more table under a key. -/
  | element (path : KeyPath)
  /-- A key with its value. -/
  | entry (path : KeyPath) (value : Literal)
  deriving Repr, Inhabited

/-! ## Blanks -/

/-- A blank within a line. -/
def isSpace (b : UInt8) : Bool := b == 0x20 || b == 0x09

/-- A byte that ends a line. -/
def isLineEnd (b : UInt8) : Bool := b == 0x0A || b == 0x0D

/-- The text after the blanks that it starts with. -/
def skipSpace (s : Bytes) : Bytes := s.dropWhile isSpace

/-- The text after blanks, line ends and comments; `comment` says whether it starts inside a
comment. -/
def skipFiller : (comment : Bool) → Bytes → Bytes
  | _, [] => []
  | true, b :: rest => skipFiller (b != 0x0A) rest
  | false, b :: rest =>
    if isSpace b || isLineEnd b then skipFiller false rest
    else if b == 0x23 then skipFiller true rest
    else b :: rest

/-- The text after the end of a line, before which blanks and a comment may stand. -/
def skipLineEnd (s : Bytes) : Option Bytes :=
  match skipSpace s with
  | [] => some []
  | b :: rest =>
    if b == 0x23 then some (skipFiller true rest)
    else if isLineEnd b then some rest
    else none

/-- Whether a text may be a document at all: valid UTF-8 without control characters, but for tabs
and line ends. -/
def isPlainText (s : Bytes) : Bool :=
  let rec plain : Bytes → Bool
    | [] => true
    | b :: rest =>
      (if b == 0x0D then rest.head? == some 0x0A
        else b == 0x09 || b == 0x0A || (0x20 ≤ b && b != 0x7F)) && plain rest
  Utf8.isValid s && plain s

/-- The text without a mark of the byte order. -/
def skipMark : Bytes → Bytes
  | 0xEF :: 0xBB :: 0xBF :: rest => rest
  | 0xFF :: 0xFE :: rest => rest
  | 0xFE :: 0xFF :: rest => rest
  | s => s

/-! ## Texts -/

/-- The character of an escape of `width` hexadecimal digits. -/
def hexEscape? (width : Nat) (s : Bytes) : Option Bytes :=
  let digits := s.take width
  if digits.length = width ∧ digits.all (isDigitOf 16) then
    let code := ofBase 16 digits
    if code ≤ 0x10FFFF ∧ ¬(0xD800 ≤ code ∧ code ≤ 0xDFFF) then some (Utf8.encode code) else none
  else none

/-- What a backslash and the text after it stand for, and how many bytes of that text the escape
takes. -/
def escape? : Bytes → Option (Bytes × Nat)
  | [] => none
  | e :: rest =>
    if e == 0x22 || e == 0x5C then some ([e], 1)
    else if e == 0x62 then some ([0x08], 1)
    else if e == 0x74 then some ([0x09], 1)
    else if e == 0x6E then some ([0x0A], 1)
    else if e == 0x66 then some ([0x0C], 1)
    else if e == 0x72 then some ([0x0D], 1)
    else if e == 0x65 then some ([0x1B], 1)
    else if e == 0x78 then (hexEscape? 2 rest).map (·, 3)
    else if e == 0x75 then (hexEscape? 4 rest).map (·, 5)
    else if e == 0x55 then (hexEscape? 8 rest).map (·, 9)
    else none

/-- The content of a text of one line up to its closing quote, after the first `skip` bytes, and the
rest. -/
def readBasicAfter : (skip : Nat) → Bytes → Option (Bytes × Bytes)
  | _, [] => none
  | skip + 1, _ :: rest => readBasicAfter skip rest
  | 0, b :: rest =>
    if b == 0x22 then some ([], rest)
    else if b == 0x5C then do
      let (out, width) ← escape? rest
      let (text, rest) ← readBasicAfter width rest
      return (out ++ text, rest)
    else if isLineEnd b then none
    else do
      let (text, rest) ← readBasicAfter 0 rest
      return (b :: text, rest)

/-- The content of a text of one line without escapes, and the rest. -/
def readLiteral : Bytes → Option (Bytes × Bytes)
  | [] => none
  | b :: rest =>
    if b == 0x27 then some ([], rest)
    else if isLineEnd b then none
    else do
      let (text, rest) ← readLiteral rest
      return (b :: text, rest)

/-- What a backslash inside a long text stands for, and how many bytes after it the escape takes: at
the end of a line it takes all blanks and line ends away. -/
def longEscape? (s : Bytes) : Option (Bytes × Nat) :=
  match s.takeWhile fun b => isSpace b || isLineEnd b with
  | [] => escape? s
  | blanks => if 0x0A ∈ blanks then some ([], blanks.length) else none

/-- The content of a long text between `quote` bytes, after the first `skip` bytes, and the rest.
Three quotes end it, and up to two more before them belong to it; three more do if the byte `last`
before them is a backslash, which an escape stands for. -/
def readLongAfter (quote : UInt8) (escapes : Bool) :
    (skip : Nat) → (last : UInt8) → Bytes → Option (Bytes × Bytes)
  | _, _, [] => none
  | skip + 1, _, b :: rest => readLongAfter quote escapes skip b rest
  | 0, last, b :: rest =>
    if b == quote then
      let run := 1 + (rest.takeWhile (· == quote)).length
      let most := if escapes && last == 0x5C then 6 else 5
      if most < run then none
      else if 3 ≤ run then some (List.replicate (run - 3) quote, rest.drop (run - 1))
      else do
        let (text, rest) ← readLongAfter quote escapes 0 b rest
        return (b :: text, rest)
    else if escapes && b == 0x5C then do
      let (out, width) ← longEscape? rest
      let (text, rest) ← readLongAfter quote escapes width b rest
      return (out ++ text, rest)
    else do
      let (text, rest) ← readLongAfter quote escapes 0 b rest
      return (b :: text, rest)

/-- The text after a line end that it starts with. -/
def skipFirstLineEnd : Bytes → Bytes
  | 0x0A :: rest => rest
  | 0x0D :: 0x0A :: rest => rest
  | s => s

/-- Reads a text of either kind after its first quote. -/
def readString (quote : UInt8) (s : Bytes) : Option (Bytes × Bytes) :=
  let escapes := quote == 0x22
  match s with
  | a :: b :: rest =>
    if a == quote && b == quote then readLongAfter quote escapes 0 0 (skipFirstLineEnd rest)
    else if escapes then readBasicAfter 0 s else readLiteral s
  | s => if escapes then readBasicAfter 0 s else readLiteral s

/-! ## Keys -/

/-- Reads a key. -/
def readKey (s : Bytes) : Option (Bytes × Bytes) :=
  match s with
  | 0x22 :: rest => readBasicAfter 0 rest
  | 0x27 :: rest => readLiteral rest
  | s =>
    match s.takeWhile isBareByte with
    | [] => none
    | key => some (key, s.dropWhile isBareByte)

/-- Reads keys with dots between them, and the blanks around them. -/
def readPath : (fuel : Nat) → Bytes → Option (KeyPath × Bytes)
  | 0, _ => none
  | fuel + 1, s => do
    let (key, s) ← readKey (skipSpace s)
    match skipSpace s with
    | 0x2E :: rest => do
      let (keys, rest) ← readPath fuel rest
      return (key :: keys, rest)
    | rest => return ([key], rest)

/-! ## Values -/

/-- A byte of a number. -/
def isNumberByte (b : UInt8) : Bool := isBareByte b || b == 0x2B || b == 0x2E

/-- A byte of a date or a time. -/
def isDateByte (b : UInt8) : Bool :=
  isDigitByte b || b == 0x2D || b == 0x3A || b == 0x54 || b == 0x74 || b == 0x20 || b == 0x2E ||
    b == 0x5A || b == 0x7A || b == 0x2B

/-- The text without the blanks that it ends with. -/
def withoutTrailingSpace (s : Bytes) : Bytes := (s.reverse.dropWhile isSpace).reverse

/-- Whether a text starts like a date or a time: digits, and then a dash or a colon. -/
def startsDate (s : Bytes) : Bool :=
  s.head?.any isDigitByte && (s.dropWhile isDigitByte).head?.any fun b => b == 0x2D || b == 0x3A

/-- Reads a number, a date or a time. -/
def readNumber (s : Bytes) : Option (Literal × Bytes) :=
  if startsDate s then
    let text := withoutTrailingSpace (s.takeWhile isDateByte)
    if isDateTime text then some (.dateTime text, s.drop text.length) else none
  else
    let text := s.takeWhile isNumberByte
    let rest := s.drop text.length
    match integerOf? text with
    | some n => if fitsInt64 n then some (.integer n, rest) else none
    | none => if isFloat text then some (.float text, rest) else none

/-- The rest of a text after a word that it must start with. -/
def readWord : (word : Bytes) → Bytes → Option Bytes
  | [], s => some s
  | _ :: _, [] => none
  | w :: word, b :: s => if w = b then readWord word s else none

mutual

/-- Reads a value, and the blanks before it. -/
def readValue : (fuel : Nat) → Bytes → Option (Literal × Bytes)
  | 0, _ => none
  | fuel + 1, s =>
    match skipSpace s with
    | [] => none
    | b :: rest =>
      if b == 0x22 || b == 0x27 then do
        let (text, rest) ← readString b rest
        return (.string text, rest)
      else if b == 0x5B then do
        let (items, rest) ← readItems fuel rest
        return (.array items, rest)
      else if b == 0x7B then do
        let (pairs, rest) ← readPairs fuel rest
        return (.inlineTable pairs, rest)
      else if b == 0x74 then do return (.bool true, ← readWord "rue" rest)
      else if b == 0x66 then do return (.bool false, ← readWord "alse" rest)
      else readNumber (b :: rest)

/-- Reads the items of an array and its closing bracket. A comma may stand after the last item. -/
def readItems : (fuel : Nat) → Bytes → Option (List Literal × Bytes)
  | 0, _ => none
  | fuel + 1, s =>
    match skipFiller false s with
    | 0x5D :: rest => some ([], rest)
    | s => do
      let (item, s) ← readValue fuel s
      match skipFiller false s with
      | 0x5D :: rest => return ([item], rest)
      | 0x2C :: rest => do
        let (items, rest) ← readItems fuel rest
        return (item :: items, rest)
      | _ => none

/-- Reads the pairs of a table between braces and its closing brace. A comma may stand after the
last pair. -/
def readPairs : (fuel : Nat) → Bytes → Option (List (KeyPath × Literal) × Bytes)
  | 0, _ => none
  | fuel + 1, s =>
    match skipFiller false s with
    | 0x7D :: rest => some ([], rest)
    | s => do
      let (path, s) ← readPath fuel s
      match s with
      | 0x3D :: s => do
        let (value, s) ← readValue fuel s
        match skipFiller false s with
        | 0x7D :: rest => return ([(path, value)], rest)
        | 0x2C :: rest => do
          let (pairs, rest) ← readPairs fuel rest
          return ((path, value) :: pairs, rest)
        | _ => none
      | _ => none

end

/-! ## Lines -/

/-- Reads a header after its first bracket. -/
def readHeader (fuel : Nat) (s : Bytes) : Option (Line × Bytes) :=
  match s with
  | 0x5B :: s => do
    let (path, s) ← readPath fuel s
    match s with
    | 0x5D :: 0x5D :: rest => return (.element path, rest)
    | _ => none
  | s => do
    let (path, s) ← readPath fuel s
    match s with
    | 0x5D :: rest => return (.table path, rest)
    | _ => none

/-- Reads a key and its value. -/
def readEntry (fuel : Nat) (s : Bytes) : Option (Line × Bytes) := do
  let (path, s) ← readPath fuel s
  match s with
  | 0x3D :: s => do
    let (value, s) ← readValue fuel s
    return (.entry path value, s)
  | _ => none

/-- Reads lines up to the end of the text. -/
def readLines : (fuel : Nat) → Bytes → Option (List Line)
  | 0, _ => none
  | fuel + 1, s =>
    match skipFiller false s with
    | [] => some []
    | b :: rest => do
      let (line, rest) ← if b == 0x5B then readHeader fuel rest else readEntry fuel (b :: rest)
      let rest ← skipLineEnd rest
      return line :: (← readLines fuel rest)

/-- The lines of a document. -/
def lines? (s : Bytes) : Option (List Line) :=
  let s := skipMark s
  if isPlainText s then readLines (2 * s.length + 2) s else none

end Scriptlet.Toml
