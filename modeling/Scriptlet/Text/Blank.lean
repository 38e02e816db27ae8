import Scriptlet.Text.Utf8

/-!
# Blank text

The characters that count as white space at the ends of a text (Unicode's `White_Space`).
-/

namespace Scriptlet

/-- A white-space character. -/
def isBlank (code : Nat) : Bool :=
  (0x09 ≤ code && code ≤ 0x0D) || code == 0x20 || code == 0x85 || code == 0xA0 ||
  code == 0x1680 || (0x2000 ≤ code && code ≤ 0x200A) || code == 0x2028 || code == 0x2029 ||
  code == 0x202F || code == 0x205F || code == 0x3000

/-- A text of nothing but white space. -/
def Bytes.isBlank (s : Bytes) : Bool := (Utf8.glyphs s).all fun g => Scriptlet.isBlank g.code

/-- The text without the white space that it starts with. -/
def Bytes.trimmedStart (s : Bytes) : Bytes :=
  Utf8.join ((Utf8.glyphs s).dropWhile fun g => Scriptlet.isBlank g.code)

/-- The text without the white space at its ends. -/
def Bytes.trimmed (s : Bytes) : Bytes :=
  let blank (g : Glyph) := Scriptlet.isBlank g.code
  Utf8.join (((Utf8.glyphs s).dropWhile blank).reverse.dropWhile blank).reverse

end Scriptlet
