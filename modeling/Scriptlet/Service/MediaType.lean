import Scriptlet.Text.Blank
import Scriptlet.Text.Case
import Scriptlet.Text.Parts
import Scriptlet.Text.Percent
import Scriptlet.Text.Table

/-!
# Media types

A content type is the name of a media type and some parameters, each after a semicolon. The value of
a parameter is a token or stands between quotes. A long value may be given in numbered pieces, and a
value or piece whose name ends with a star has percent escapes (RFC 2231). What is given in that way
counts more than a plain parameter of the same name, and is passed over if it makes no sense.
-/

namespace Scriptlet

/-- A media type with its parameters. -/
structure MediaType where
  /-- The name, in any case of letters. -/
  name : Bytes
  parameters : Table Bytes
  deriving DecidableEq, Repr

namespace MediaType

/-! ## Tokens and values -/

/-- The bytes that end a token, blanks and control characters apart. -/
def specials : Bytes := "()<>@,;:\\\"/[]?="

/-- A byte of a token. -/
def isTokenByte (b : UInt8) : Bool := 0x20 < b && b < 0x7F && !specials.contains b

/-- The token that a text starts with, at least one byte long, and the rest. -/
def readToken (s : Bytes) : Option (Bytes × Bytes) :=
  match s.takeWhile isTokenByte with
  | [] => none
  | token => some (token, s.dropWhile isTokenByte)

/-- The content of a value between quotes after the opening one, and the rest. A backslash stands
for itself, unless one of the special bytes follows. -/
def readQuoted : Bytes → Option (Bytes × Bytes)
  | [] => none
  | [b] => if b = 0x22 then some ([], []) else none
  | b :: c :: rest =>
    if b = 0x22 then some ([], c :: rest)
    else if b = 0x0A ∨ b = 0x0D then none
    else if b = 0x5C ∧ c ∈ specials then do
      let (value, rest) ← readQuoted rest
      return (c :: value, rest)
    else do
      let (value, rest) ← readQuoted (c :: rest)
      return (b :: value, rest)

/-- The value that a text starts with, and the rest. -/
def readParameterValue (s : Bytes) : Option (Bytes × Bytes) :=
  match s with
  | 0x22 :: rest => readQuoted rest
  | s => readToken s

/-! ## Parameters as they are written -/

/-- Reads a byte that must come after blanks, and the blanks after it. -/
def readMark (mark : UInt8) (s : Bytes) : Option Bytes :=
  match Bytes.trimmedStart s with
  | b :: rest => if b = mark then some (Bytes.trimmedStart rest) else none
  | [] => none

/-- Reads a parameter and the semicolon before it: its name in lower case, its value, and the
rest. -/
def readParameter (s : Bytes) : Option ((Bytes × Bytes) × Bytes) := do
  let s ← readMark 0x3B s
  let (name, s) ← readToken s
  let s ← readMark 0x3D s
  let (value, s) ← readParameterValue s
  return ((name.map lowerByte, value), s)

/-- Reads parameters up to the end of the text, where a semicolon may be left over. -/
def readParameters : (fuel : Nat) → Bytes → Option (List (Bytes × Bytes))
  | 0, _ => none
  | fuel + 1, s =>
    if Bytes.isBlank s then some []
    else match readParameter s with
      | some (parameter, rest) => (readParameters fuel rest).map (parameter :: ·)
      | none => if Bytes.trimmed s = [0x3B] then some [] else none

/-- The table of some parameters; none if one of them is given twice with different values. -/
def tableOf? (parameters : List (Bytes × Bytes)) : Option (Table Bytes) :=
  parameters.foldlM (fun t p =>
    if (t.find? p.1).any (· ≠ p.2) then none else some (t.insert p.1 p.2)) .empty

/-! ## Values with escapes and in pieces -/

/-- The star in the names of parameters. -/
def star : UInt8 := 0x2A

/-- The value of a parameter with escapes: a character set, a language and the escaped text, with
apostrophes between them. -/
def extendedValue? (s : Bytes) : Option Bytes :=
  match Bytes.partsAt 0x27 s with
  | charset :: _ :: part :: parts =>
    if Bytes.isNameLowered charset "utf-8" || Bytes.isNameLowered charset "us-ascii" then
      Percent.unescaped? (Bytes.joined 0x27 (part :: parts))
    else none
  | _ => none

/-- The piece of a value with the given number. Only the first piece names a character set. -/
def piece? (written : Table Bytes) (name : Bytes) (n : Nat) : Option Bytes :=
  let key := name ++ star :: decimal n
  match written.find? key with
  | some value => some value
  | none => (written.find? (key ++ [star])).map fun value =>
    (if n = 0 then extendedValue? value else Percent.unescaped? value).getD []

/-- The pieces of a value from number `n` up to the first that is missing. -/
def pieces (written : Table Bytes) (name : Bytes) : (fuel n : Nat) → List Bytes
  | 0, _ => []
  | fuel + 1, n =>
    match piece? written name n with
    | some piece => piece :: pieces written name fuel (n + 1)
    | none => []

/-- The value that the parameters with stars give to a name. A value in one piece with escapes goes
before numbered pieces. -/
def starredValue? (written : Table Bytes) (name : Bytes) : Option Bytes :=
  match written.find? (name ++ [star]) with
  | some value => extendedValue? value
  | none =>
    match pieces written name written.size 0 with
    | [] => none
    | found => some found.flatten

/-- The parameters that some written ones stand for. -/
def parametersOf (written : Table Bytes) : Table Bytes :=
  written.keys.foldl (fun t key =>
    if star ∈ key then
      let name := key.takeWhile (· ≠ star)
      match starredValue? written name with
      | some value => t.insert name value
      | none => t
    else t) ⟨written.entries.filter fun e => !e.1.contains star⟩

/-- The media type that a content type names. -/
def ofText? (s : Bytes) : Option MediaType := do
  let name := s.takeWhile (· ≠ 0x3B)
  let written ← tableOf? (← readParameters (s.length + 1) (s.drop name.length))
  return ⟨Bytes.trimmed name, parametersOf written⟩

/-- Whether the media type is the one of the given name, which is in lower case. -/
def isNamed (m : MediaType) (name : Bytes) : Bool := Bytes.isNameLowered m.name name

/-- Whether the only parameter says that texts are in UTF-8. -/
def isUtf8 (m : MediaType) : Bool :=
  match m.parameters.entries with
  | [(key, value)] => key == ("charset" : Bytes) && Bytes.isNameLowered value "utf-8"
  | _ => false

end MediaType

end Scriptlet
