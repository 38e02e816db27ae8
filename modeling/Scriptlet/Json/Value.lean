import Scriptlet.Text.Digits

/-!
# JSON values

The values of JSON and their written form. Numbers keep the literal that they were written with, and
the members of an object keep their order. The written form is one line of valid UTF-8: characters
that could end a line or a piece of markup are escaped.
-/

namespace Scriptlet

/-- A JSON value. -/
inductive JsonValue where
  | null
  | bool (b : Bool)
  | number (literal : Bytes)
  | string (s : Bytes)
  | array (items : List JsonValue)
  | object (members : List (Bytes × JsonValue))
  deriving Repr, Inhabited

namespace JsonValue

/-- The value of an integer. -/
def ofInt (n : Int) : JsonValue := .number (decimalInt n)

/-- The value of a natural number. -/
def ofNat (n : Nat) : JsonValue := .number (decimal n)

/-- A member of an object under a fixed name. -/
def member (name : String) (value : JsonValue) : Bytes × JsonValue := (name, value)

/-- A member that is left out unless `present` holds. -/
def memberIf (present : Bool) (name : String) (value : JsonValue) : List (Bytes × JsonValue) :=
  if present then [member name value] else []

/-- The escape of a control character of one letter. -/
def shortEscape? (code : Nat) : Option UInt8 :=
  match code with
  | 0x08 => some 0x62
  | 0x0C => some 0x66
  | 0x0A => some 0x6E
  | 0x0D => some 0x72
  | 0x09 => some 0x74
  | _ => none

/-- The characters that are written by their number: control characters, those of markup, and the
separators of lines and paragraphs. -/
def isWrittenByNumber (code : Nat) : Bool :=
  code < 0x20 || code == 0x3C || code == 0x3E || code == 0x26 || code == 0x2028 || code == 0x2029

/-- A character inside a string. -/
def showGlyph (g : Glyph) : Bytes :=
  if g.isMalformed then Utf8.encode Glyph.replacement
  else if g.code = 0x22 ∨ g.code = 0x5C then 0x5C :: g.bytes
  else match shortEscape? g.code with
    | some letter => [0x5C, letter]
    | none => if isWrittenByNumber g.code then "\\u" ++ hex 4 g.code else g.bytes

/-- A string between its quotes. -/
def showString (s : Bytes) : Bytes := "\"" ++ (Utf8.glyphs s).flatMap showGlyph ++ "\""

mutual

/-- The written form of a value, without blanks. -/
def render : JsonValue → Bytes
  | null => "null"
  | bool true => "true"
  | bool false => "false"
  | number literal => literal
  | string s => showString s
  | array items => "[" ++ renderItems items ++ "]"
  | object members => "\x7b" ++ renderMembers members ++ "\x7d"

/-- The items of an array, with commas between them. -/
def renderItems : List JsonValue → Bytes
  | [] => []
  | [v] => v.render
  | v :: w :: rest => v.render ++ "," ++ renderItems (w :: rest)

/-- The members of an object, with commas between them. -/
def renderMembers : List (Bytes × JsonValue) → Bytes
  | [] => []
  | [(k, v)] => showString k ++ ":" ++ v.render
  | (k, v) :: m :: rest => showString k ++ ":" ++ v.render ++ "," ++ renderMembers (m :: rest)

end

end JsonValue

end Scriptlet
