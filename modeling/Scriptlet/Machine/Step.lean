import Scriptlet.Machine.Operator
import Scriptlet.Text.Escape

/-!
# Single instructions

The state of the machine, and what each instruction does to it. A value may be absent: a malformed
program can push no value at all. Moving such a value around is harmless, using it is a fault.
-/

namespace Scriptlet

namespace Machine

/-- The state of the machine between two instructions. -/
structure State where
  /-- The place of the next instruction. -/
  pc : Nat := 0
  /-- The operands, the top first. -/
  stack : List (Option Value) := []
  globals : Table (Option Value) := .empty
  /-- The pieces that were printed. -/
  output : Array Bytes := #[]
  /-- The number of instructions executed. -/
  steps : Nat := 0
  deriving Repr, Inhabited

namespace State

/-- The text that was printed. -/
def printed (s : State) : Bytes := s.output.toList.flatten

/-- The state past the next instruction, before its effect. -/
def advance (s : State) : State := { s with pc := s.pc + 1, steps := s.steps + 1 }

/-- The state with a value on top of the stack. -/
def push (s : State) (v : Option Value) : State := { s with stack := v :: s.stack }

/-- The state with one more piece printed. -/
def print (s : State) (piece : Bytes) : State := { s with output := s.output.push piece }

theorem printed_print (s : State) (piece : Bytes) :
    (s.print piece).printed = s.printed ++ piece := by
  simp [print, printed]

end State

/-- What an instruction leads to. -/
inductive Step where
  | running (s : State)
  | halted (s : State)
  | failed (fault : Fault) (s : State)
  deriving Repr

/-- A violated rule at the instruction before `s.pc`. -/
def internalFault (i : Instruction) (s : State) (name : Bytes) (cause : InternalCause) : Fault :=
  .internal ⟨i.op, s.pc - 1, name, cause⟩

/-- A mistake at the instruction before `s.pc`. -/
def runtimeFault (p : Program) (i : Instruction) (s : State) (kinds : List ValueKind)
    (cause : RuntimeCause) : Fault :=
  .runtime ⟨i.op, s.pc - 1, p.lineOf ((s.pc - 1 : Nat) : Int), kinds, cause⟩

/-- Takes the top of the stack. -/
def withOne (i : Instruction) (s : State) (k : Option Value → State → Step) : Step :=
  match s.stack with
  | [] => .failed (internalFault i s [] .stackUnderflow) s
  | v :: rest => k v { s with stack := rest }

/-- Takes the two values on top of the stack, the lower one first. -/
def withTwo (i : Instruction) (s : State) (k : Option Value → Option Value → State → Step) : Step :=
  withOne i s fun b s => withOne i s fun a s => k a b s

/-- The value of an operator goes on the stack. -/
def finish (p : Program) (i : Instruction) (s : State) (kinds : List ValueKind) :
    Except RuntimeCause Value → Step
  | .ok v => .running (s.push (some v))
  | .error cause => .failed (runtimeFault p i s kinds cause) s

/-- Continues at the label that the instruction names. -/
def jump (labels : Table Nat) (i : Instruction) (s : State) : Step :=
  match labels.find? i.name with
  | some pc => .running { s with pc := pc }
  | none => .failed (internalFault i s i.name .undefinedLabel) s

/-- Whether a condition fails; an absent value does not. -/
def isFalsy : Option Value → Bool
  | some v => v.isFalsy
  | none => false

/-- The effect of an instruction on the state past it. -/
def execute (p : Program) (labels : Table Nat) (i : Instruction) (s : State) : Step :=
  match Opcode.ofByte? i.op with
  | none => .failed (internalFault i s i.name .unknownOpcode) s
  | some op =>
    match op with
    | .label => .running s
    | .push => .running (s.push i.arg)
    | .pop => withOne i s fun _ s => .running s
    | .neg => withOne i s fun v s =>
      match v with
      | some v => finish p i s [v.kind] (Operator.negate v)
      | none => .failed .absentValue s
    | .print => withOne i s fun v s =>
      match v with
      | some v => .running (s.print (Escape.decode v.text))
      | none => .failed .absentValue s
    | .println => withOne i s fun v s =>
      match v with
      | some v => .running (s.print (Escape.decode v.text ++ "\n"))
      | none => .failed .absentValue s
    | .jump => jump labels i s
    | .jumpZero => withOne i s fun v s => if isFalsy v then jump labels i s else .running s
    | .storeGlobal =>
      withOne i s fun v s => .running { s with globals := s.globals.insert i.name v }
    | .loadGlobal =>
      match s.globals.find? i.name with
      | some v => .running (s.push v)
      | none => .failed (internalFault i s i.name .undefinedGlobal) s
    | .halt => .halted s
    | .add | .sub | .mul | .div | .mod | .exp | .and | .or | .xor
    | .eq | .ne | .lt | .le | .gt | .ge => withTwo i s fun a b s =>
      match a, b with
      | some a, some b => finish p i s [a.kind, b.kind] (Operator.binary op a b)
      | _, _ => .failed .absentValue s

end Machine

end Scriptlet
