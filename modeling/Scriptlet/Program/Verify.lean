import Scriptlet.Program.Basic

/-!
# Well-formed programs

What a program must satisfy before it is run: every opcode is known and has the operand it needs, no
label is defined twice, every jump has a target, and the last instruction ends the run.
`Program.problems` lists every violation.
-/

namespace Scriptlet

/-- A violated rule of well-formed programs. -/
inductive Problem where
  | unknownOpcode (op : UInt8)
  | missingValue (op : UInt8)
  | missingName (op : UInt8)
  | duplicateLabel (name : Bytes) (previous : Nat)
  | undefinedLabel (op : UInt8) (name : Bytes)
  | missingHalt
  deriving DecidableEq, Repr

/-- What is wrong, in words. -/
def Problem.message : Problem → Bytes
  | unknownOpcode op => "unknown opcode 0x" ++ hexUpper 2 op.toNat
  | missingValue op => (Opcode.infoOfByte op).name ++ " without a value"
  | missingName op => (Opcode.infoOfByte op).name ++ " without a name"
  | duplicateLabel name previous =>
    "label " ++ Quoted.text name ++ " already defined at pc " ++ decimal previous
  | undefinedLabel op name =>
    (Opcode.infoOfByte op).name ++ " to undefined label " ++ Quoted.text name
  | missingHalt => "program does not end with HALT"

namespace Program

/-- What is wrong with the operand of an instruction. -/
def operandProblems (i : Instruction) : List Problem :=
  match Opcode.ofByte? i.op with
  | none => [.unknownOpcode i.op]
  | some op =>
    match op.info.operand with
    | .value => if i.arg.isNone then [.missingValue i.op] else []
    | .name | .label => if i.name = [] then [.missingName i.op] else []
    | .none => []

/-- Whether an instruction defines a label. -/
def definesLabel (i : Instruction) : Bool := i.op == Opcode.label.byte && i.name != []

/-- The problems of operands and label definitions in some code that starts at `pc`, after code that
defines the labels of `defined`. -/
def definitionProblems (defined : Table Nat) : (pc : Nat) → List Instruction → List (Nat × Problem)
  | _, [] => []
  | pc, i :: rest =>
    let duplicates :=
      if definesLabel i then
        ((defined.find? i.name).map fun previous => Problem.duplicateLabel i.name previous).toList
      else []
    (operandProblems i ++ duplicates).map (fun problem => (pc, problem)) ++
      definitionProblems (if definesLabel i then defined.insert i.name pc else defined) (pc + 1)
        rest

/-- The problems of jump targets in some code that starts at `pc`. -/
def jumpProblems (defined : Table Nat) : (pc : Nat) → List Instruction → List (Nat × Problem)
  | _, [] => []
  | pc, i :: rest =>
    let here :=
      if Opcode.isJump i.op && i.name != [] && !defined.contains i.name then
        [(pc, Problem.undefinedLabel i.op i.name)]
      else []
    here ++ jumpProblems defined (pc + 1) rest

/-- Whether the last instruction ends the run. -/
def endsWithHalt (p : Program) : Bool :=
  match p.code.back? with
  | some i => i.op == Opcode.halt.byte
  | none => false

/-- Everything that is wrong with a program, each at an instruction. -/
def problems (p : Program) : List (Nat × Problem) :=
  definitionProblems .empty 0 p.code.toList ++
    jumpProblems (p.labels.erase []) 0 p.code.toList ++
    (if p.endsWithHalt then [] else [(p.code.size, .missingHalt)])

/-- A problem at an instruction, in words. -/
def problemText (problem : Nat × Problem) : Bytes :=
  "invalid program: pc " ++ decimal problem.1 ++ ": " ++ problem.2.message

/-- All problems of a program in words, one a line; none if there is no problem. -/
def verifyMessage? (p : Program) : Option Bytes :=
  match p.problems with
  | [] => none
  | problems => some (List.intercalate "\n" (problems.map problemText))

end Program

end Scriptlet
