import Scriptlet.Text.Digits

/-!
# Configuration data

The values of TOML documents, the paths that name them, and how texts and paths are written. A path
is a list of keys; each stands for itself if it is a plain word, and between quotes otherwise.
-/

namespace Scriptlet.Toml

/-- The keys from the top of a document down to a value. -/
abbrev KeyPath := List Bytes

/-- A value. Numbers with a fraction, dates and times keep the text that they were written with. -/
inductive Value where
  | string (s : Bytes)
  | integer (n : Int)
  | float (literal : Bytes)
  | bool (b : Bool)
  | dateTime (literal : Bytes)
  | array (items : List Value)
  | table (entries : List (Bytes × Value))
  /-- Tables under one key, the latest last. -/
  | tables (elements : List (List (Bytes × Value)))
  deriving Repr, Inhabited

/-- The entries of a table, in the order in which they were made. -/
abbrev Entries := List (Bytes × Value)

/-- A byte of a plain key. -/
def isBareByte (b : UInt8) : Bool :=
  (0x41 ≤ b && b ≤ 0x5A) || (0x61 ≤ b && b ≤ 0x7A) || (0x30 ≤ b && b ≤ 0x39) ||
    b == 0x5F || b == 0x2D

/-- A byte between quotes. -/
def quotedByte (b : UInt8) : Bytes :=
  if b == 0x22 || b == 0x5C then [0x5C, b]
  else if b == 0x08 then "\\b"
  else if b == 0x09 then "\\t"
  else if b == 0x0A then "\\n"
  else if b == 0x0C then "\\f"
  else if b == 0x0D then "\\r"
  else if b < 0x20 || b == 0x7F then "\\u" ++ hex 4 b.toNat
  else [b]

/-- A text between quotes. -/
def quoted (s : Bytes) : Bytes := "\"" ++ s.flatMap quotedByte ++ "\""

/-- A key as it is written. -/
def keyText (key : Bytes) : Bytes := if key ≠ [] ∧ key.all isBareByte then key else quoted key

/-- A path as it is written. -/
def KeyPath.text : KeyPath → Bytes
  | [] => []
  | [key] => keyText key
  | key :: next :: rest => keyText key ++ "." ++ KeyPath.text (next :: rest)

end Scriptlet.Toml
