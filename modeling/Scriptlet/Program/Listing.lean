import Scriptlet.Program.Basic

/-!
# Listings

A program in words: a header, then a line for each instruction. Labels stand on lines of their own,
and an instruction with which a new source line begins shows its number.
-/

namespace Scriptlet

/-- `s` with blanks behind it, at least `width` characters long. -/
def padded (width : Nat) (s : Bytes) : Bytes :=
  s ++ List.replicate (width - (Utf8.glyphs s).length) 0x20

namespace Program

/-- The width of an opcode's name in a listing. -/
def nameWidth : Nat := 12

/-- The width of an instruction before the number of its source line. -/
def instructionWidth : Nat := 36

/-- The instruction at `pc` in words. -/
def instructionText (p : Program) (pc : Int) : Bytes :=
  match if pc < 0 then none else p.code[pc.toNat]? with
  | some i => i.textPadded nameWidth
  | none => "<end of code>"

/-- The line of a listing for an instruction at `pc`; the source map starts with the entry of the
instruction, if it has one. -/
def instructionLine (i : Instruction) (pc : Nat) (map : List SourceLocation) : Bytes :=
  let line := zeroPadded 4 (decimal pc) ++ "  " ++ i.textPadded nameWidth
  match map with
  | e :: _ =>
    if e.pc = pc then padded instructionWidth line ++ " ; line " ++ decimalInt e.line else line
  | [] => line

/-- The lines of a listing for some code that starts at `pc`, with the entries of the source map
that are not behind it. -/
def codeLines : (pc : Nat) → List SourceLocation → List Instruction → List Bytes
  | _, _, [] => []
  | pc, map, i :: rest =>
    if i.op = Opcode.label.byte then (i.name ++ ":") :: codeLines (pc + 1) map rest
    else
      let map := map.dropWhile fun e => decide (e.pc < (pc : Int))
      instructionLine i pc map :: codeLines (pc + 1) map rest

/-- The first lines of a listing. -/
def headerLines (p : Program) : List Bytes :=
  let title := if p.name = [] then [] else ["; === " ++ p.name ++ " ==="]
  title ++
    ["; Pinky Bytecode v" ++ decimal p.version,
      "; " ++ decimal p.code.size ++ " instructions, " ++ decimal p.labels.size ++ " labels", ""]

/-- The program in words. Each line ends with a line feed. -/
def listing (p : Program) : Bytes :=
  (p.headerLines ++ codeLines 0 p.sourceMap.toList p.code.toList).flatMap (· ++ "\n")

end Program

/-- The pieces of a text between its line feeds. -/
def splitLines : Bytes → List Bytes
  | [] => [[]]
  | b :: rest =>
    if b = 0x0A then [] :: splitLines rest
    else match splitLines rest with
      | [] => [[b]]
      | line :: lines => (b :: line) :: lines

/-- The lines of a program's listing. A name with line feeds takes several. -/
def Program.listingLines (p : Program) : List Bytes := splitLines p.listing.dropLast

end Scriptlet
