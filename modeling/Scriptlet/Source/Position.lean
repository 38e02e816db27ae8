import Scriptlet.Text.Utf8

/-!
# Places in a source text

A position counts bytes, lines and columns; lines and columns start at one, and a column is one
character wide.
-/

namespace Scriptlet

/-- A place between two characters of a source text. -/
structure Position where
  offset : Nat
  line : Nat
  column : Nat
  deriving DecidableEq, Repr, Inhabited

namespace Position

/-- The start of a text. -/
def start : Position := ⟨0, 1, 1⟩

/-- The line feed, which ends a line. -/
def lineFeed : Nat := 0x0A

/-- The position past a character. -/
def past (p : Position) (g : Glyph) : Position :=
  if g.code = lineFeed then ⟨p.offset + g.bytes.length, p.line + 1, 1⟩
  else ⟨p.offset + g.bytes.length, p.line, p.column + 1⟩

/-- The position past a run of characters. -/
def pastAll (p : Position) (gs : List Glyph) : Position := gs.foldl past p

end Position

/-- A range of a source text; its end is past its last character. -/
structure Span where
  start : Position
  stop : Position
  deriving DecidableEq, Repr, Inhabited

end Scriptlet
