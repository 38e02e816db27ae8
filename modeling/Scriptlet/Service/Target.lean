import Scriptlet.Text.Parts
import Scriptlet.Text.Percent

/-!
# Request targets

What a request is aimed at: a path, with a scheme and a host before it or without, or the service as
a whole. What follows a question mark is no part of the path. The parts of a path are compared after
their escapes are read, so an escaped slash does not divide a part.
-/

namespace Scriptlet

/-- What a request is aimed at. -/
inductive Target where
  /-- The service as a whole. -/
  | whole
  | path (path : Bytes)
  deriving DecidableEq, Repr

namespace Target

/-! ## Targets as they are written -/

/-- An ASCII letter. -/
def isLetterByte (b : UInt8) : Bool := (0x41 ≤ b && b ≤ 0x5A) || (0x61 ≤ b && b ≤ 0x7A)

/-- An ASCII digit. -/
def isDigitByte (b : UInt8) : Bool := 0x30 ≤ b && b ≤ 0x39

/-- A byte of the name of a scheme. -/
def isSchemeByte (b : UInt8) : Bool :=
  isLetterByte b || isDigitByte b || b == 0x2B || b == 0x2D || b == 0x2E

/-- The text after the scheme that a target starts with, if it does. -/
def afterScheme? (s : Bytes) : Option Bytes :=
  match s.dropWhile isSchemeByte with
  | 0x3A :: rest => if s.head?.any isLetterByte then some rest else none
  | _ => none

/-- The path after a host, which two slashes announce. Without a slash at all there is no path. -/
def afterHost (s : Bytes) : Bytes :=
  match s with
  | 0x2F :: 0x2F :: rest => rest.dropWhile (· ≠ 0x2F)
  | 0x2F :: rest => 0x2F :: rest
  | _ => []

/-- The target that a text stands for. -/
def ofText (s : Bytes) : Target :=
  if s = ("*" : Bytes) then .whole
  else
    let s := s.takeWhile (· ≠ 0x3F)
    match afterScheme? s with
    | some rest => .path (afterHost rest)
    | none => .path s

/-! ## Paths -/

/-- A byte that never needs an escape in a path: a letter, a digit, or a mark that divides nothing
but paths and their parts. -/
def isPlainByte (b : UInt8) : Bool :=
  isLetterByte b || isDigitByte b || ("-_.~$&+,/:;=@" : Bytes).contains b

/-- A byte that may stand in a path as it is written. -/
def isPathByte (b : UInt8) : Bool := isPlainByte b || ("!'()*[]%" : Bytes).contains b

/-- The text with its escapes read; a text with malformed escapes stands for itself. -/
def unescaped (s : Bytes) : Bytes := (Percent.unescaped? s).getD s

/-- The parts of a path as they are written. A path with bytes that may not stand in one is written
anew. -/
def writtenParts (path : Bytes) : List Bytes :=
  Bytes.partsAt 0x2F
    (if path.all isPathByte then path else Percent.escaped isPlainByte (unescaped path))

/-- The parts of a path with their escapes read. -/
def parts (path : Bytes) : List Bytes := (writtenParts path).map unescaped

/-- A path in its plain form starts with a slash and has no empty part but the last, and no part
that stands for this or the outer place. -/
def isPlain (path : Bytes) : Bool :=
  match writtenParts path with
  | [] :: parts =>
    parts ≠ [] && parts.dropLast.all (· ≠ []) && parts.all fun p => p ≠ [0x2E] && p ≠ [0x2E, 0x2E]
  | _ => false

end Target

end Scriptlet
