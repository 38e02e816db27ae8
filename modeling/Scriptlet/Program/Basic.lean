import Scriptlet.Program.Opcode
import Scriptlet.Text.Table
import Scriptlet.Value

/-!
# Programs

A program is a sequence of instructions with a source map, which says from which line on each run of
instructions comes. `Program.emit` and `Program.locate` build one from front to back: `locate`
records the line of the instructions emitted after it.
-/

namespace Scriptlet

/-- An instruction: an opcode byte, a literal and a name. Which of the last two it needs depends on
the opcode; a program read from a file may hold any combination. -/
structure Instruction where
  op : UInt8
  arg : Option Value := none
  name : Bytes := []
  deriving Repr, Inhabited

namespace Instruction

/-- Puts `v` on the stack. -/
def push (v : Value) : Instruction := ⟨Opcode.push.byte, some v, []⟩

/-- Marks a target of jumps. -/
def label (name : Bytes) : Instruction := ⟨Opcode.label.byte, none, name⟩

/-- Continues at a label. -/
def jump (name : Bytes) : Instruction := ⟨Opcode.jump.byte, none, name⟩

/-- Continues at a label if the value on top of the stack is falsy. -/
def jumpZero (name : Bytes) : Instruction := ⟨Opcode.jumpZero.byte, none, name⟩

/-- Puts the value of a variable on the stack. -/
def loadGlobal (name : Bytes) : Instruction := ⟨Opcode.loadGlobal.byte, none, name⟩

/-- Gives a variable the value on top of the stack. -/
def storeGlobal (name : Bytes) : Instruction := ⟨Opcode.storeGlobal.byte, none, name⟩

/-- An instruction without operand. -/
def simple (op : Opcode) : Instruction := ⟨op.byte, none, []⟩

/-- The description of the instruction's opcode. -/
def info (i : Instruction) : Opcode.Info := Opcode.infoOfByte i.op

/-- The instruction in words, with the opcode's name padded to `width`. -/
def textPadded (width : Nat) (i : Instruction) : Bytes :=
  let name := i.info.name ++ List.replicate (width - i.info.name.length) 0x20
  match i.info.operand with
  | .value => name ++ " " ++ literalOf i.arg
  | .name | .label => name ++ " " ++ i.name
  | .none => i.info.name

/-- The instruction in words. -/
def text (i : Instruction) : Bytes := i.textPadded 0

end Instruction

/-- An entry of a source map: the instructions from `pc` up to the next entry come from `line`. -/
structure SourceLocation where
  pc : Int
  line : Int
  column : Int
  deriving DecidableEq, Repr, Inhabited

/-- A program of the machine. -/
structure Program where
  version : Nat := 1
  name : Bytes := []
  code : Array Instruction := #[]
  sourceMap : Array SourceLocation := #[]
  deriving Repr, Inhabited

namespace Program

/-- The version of the instruction set. -/
def currentVersion : Nat := 1

/-- The program with one more instruction. -/
def emit (p : Program) (i : Instruction) : Program := { p with code := p.code.push i }

/-- The program with its next instructions placed at a line. An entry for the line of the last
entry is left out, and an entry without instructions is replaced. -/
def locate (p : Program) (line column : Int) : Program :=
  let entry : SourceLocation := ⟨p.code.size, line, column⟩
  match p.sourceMap.back? with
  | some last =>
    if last.line = line then p
    else if last.pc = p.code.size then
      { p with sourceMap := p.sourceMap.pop.push { last with line := line, column := column } }
    else { p with sourceMap := p.sourceMap.push entry }
  | none => { p with sourceMap := p.sourceMap.push entry }

/-- The last entry of the source map at or before an instruction. -/
def locationOf? (p : Program) (pc : Int) : Option SourceLocation :=
  p.sourceMap.toList.reverse.find? fun e => e.pc ≤ pc

/-- The line of an instruction, zero if it is not known. -/
def lineOf (p : Program) (pc : Int) : Int := ((p.locationOf? pc).map (·.line)).getD 0

/-- The column of an instruction's entry, zero if it is not known. -/
def columnOf (p : Program) (pc : Int) : Int := ((p.locationOf? pc).map (·.column)).getD 0

/-- The labels of some code that starts at `pc`, with their places. -/
def labelsFrom (t : Table Nat) : (pc : Nat) → List Instruction → Table Nat
  | _, [] => t
  | pc, i :: rest =>
    labelsFrom (if i.op = Opcode.label.byte then t.insert i.name pc else t) (pc + 1) rest

/-- The labels of a program with their places. The last of two labels of one name counts. -/
def labels (p : Program) : Table Nat := labelsFrom .empty 0 p.code.toList

end Program

end Scriptlet
