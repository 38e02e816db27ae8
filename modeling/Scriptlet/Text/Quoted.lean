import Scriptlet.Text.Digits
import Scriptlet.Text.Graphic

/-!
# Quoted text

How messages and listings show a text: between double quotes, graphic characters as they are,
all others by an escape. A single character is shown between single quotes.
-/

namespace Scriptlet.Quoted

/-- The letter that escapes a control character, for the seven that have one. -/
def letter? (code : Nat) : Option UInt8 :=
  match code with
  | 0x07 => some 0x61
  | 0x08 => some 0x62
  | 0x0C => some 0x66
  | 0x0A => some 0x6E
  | 0x0D => some 0x72
  | 0x09 => some 0x74
  | 0x0B => some 0x76
  | _ => none

/-- A code point between quotes of the given kind. -/
def showCode (quote : Nat) (code : Nat) : Bytes :=
  if code == quote || code == 0x5C then 0x5C :: Utf8.encode code
  else if isGraphic code then Utf8.encode code
  else match letter? code with
    | some c => [0x5C, c]
    | none =>
      if code < 0x20 || code == 0x7F then "\\x" ++ hex 2 code
      else if code < 0x10000 then "\\u" ++ hex 4 code
      else "\\U" ++ hex 8 code

/-- A character between double quotes; a byte outside every well-formed sequence is shown by its
value. -/
def showGlyph (g : Glyph) : Bytes :=
  if g.isMalformed then "\\x" ++ g.bytes.flatMap fun b => hex 2 b.toNat
  else showCode 0x22 g.code

/-- A text between double quotes. -/
def text (s : Bytes) : Bytes :=
  "\"" ++ (Utf8.glyphs s).flatMap showGlyph ++ "\""

/-- A single character between single quotes. -/
def character (code : Nat) : Bytes :=
  "'" ++ showCode 0x27 code ++ "'"

end Scriptlet.Quoted
