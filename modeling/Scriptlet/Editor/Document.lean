import Scriptlet.Syntax.Diagnostic
import Scriptlet.Text.Letter
import Scriptlet.Text.Parts

/-!
# Open documents

A document that is open in an editor, with what is known of it. Editors count lines and characters
from zero. A character of a place in a document is a byte of its line, while the ranges that are
sent back count characters. Names are cut out of a line byte by byte, each byte taken as the
character of that number.
-/

namespace Scriptlet.Editor

/-- A place in a document. -/
structure Place where
  line : Nat
  character : Nat
  deriving DecidableEq, Repr, Inhabited

/-- A range of a document; its end is past its last character. -/
structure PlaceRange where
  start : Place
  stop : Place
  deriving DecidableEq, Repr, Inhabited

/-- The place of a line and a column, which count from one. -/
def Place.ofColumn (line column : Nat) : Place := ⟨line - 1, column - 1⟩

/-- The range of a span of the source. -/
def PlaceRange.ofSpan (s : Span) : PlaceRange :=
  ⟨.ofColumn s.start.line s.start.column, .ofColumn s.stop.line s.stop.column⟩

/-- A document. -/
structure Document where
  text : Bytes
  analysis : Analysis
  deriving DecidableEq, Repr, Inhabited

/-- The document of a text. -/
def Document.ofText (text : Bytes) : Document := ⟨text, (Inspection.ofSource text).analysis⟩

/-- A byte that a name may hold. -/
def isNameByte (b : UInt8) : Bool := b == 0x5F || isLetter b.toNat || isDigit b.toNat

namespace Document

/-- The line at a place; none past the last line. -/
def lineAt? (text : Bytes) (place : Place) : Option Bytes := (Bytes.partsAt 0x0A text)[place.line]?

/-- The part of a name that ends before a place, empty if there is none. -/
def fragmentAt (text : Bytes) (place : Place) : Bytes :=
  match lineAt? text place with
  | none => []
  | some line => ((line.take place.character).reverse.takeWhile isNameByte).reverse

/-- The name around a place, empty if there is none. -/
def wordAt (text : Bytes) (place : Place) : Bytes :=
  match lineAt? text place with
  | none => []
  | some line => fragmentAt text place ++ (line.drop place.character).takeWhile isNameByte

end Document

end Scriptlet.Editor
