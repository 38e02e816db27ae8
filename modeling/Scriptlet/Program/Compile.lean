import Scriptlet.Program.Basic
import Scriptlet.Syntax.Parser

/-!
# Compilation

A script becomes a sequence of emissions: instructions, and marks that place the instructions after
them at a source line. `Program.ofEmissions` builds the program. The operands of an operator come
first, from left to right, so that the machine finds them on its stack.
-/

namespace Scriptlet

/-- An operator that the machine does not have. -/
inductive CompileError where
  | unaryOperator (op : TokenKind)
  | binaryOperator (op : TokenKind)
  deriving DecidableEq, Repr

/-- The error in words. -/
def CompileError.message : CompileError → Bytes
  | unaryOperator op => "compiler: unsupported node: unary operator " ++ op.name
  | binaryOperator op => "compiler: unsupported node: binary operator " ++ op.name

/-- A step in building a program. -/
inductive Emission where
  | locate (line column : Nat)
  | instruction (i : Instruction)
  deriving Repr

/-- The mark for a position; an unknown one has line zero and is not marked. -/
def Position.mark (p : Position) : List Emission :=
  if 0 < p.line then [.locate p.line p.column] else []

/-- The program with one step done. -/
def Program.add (p : Program) : Emission → Program
  | .locate line column => p.locate line column
  | .instruction i => p.emit i

/-- The program that some steps build. -/
def Program.ofEmissions (name : Bytes) (steps : List Emission) : Program :=
  steps.foldl Program.add { name := name }

/-- The opcode of a binary operator. -/
def binaryOpcode? : TokenKind → Option Opcode
  | .plus => some .add
  | .minus => some .sub
  | .star => some .mul
  | .slash => some .div
  | .percent => some .mod
  | .caret => some .exp
  | .equal => some .eq
  | .unequal => some .ne
  | .less => some .lt
  | .lessEqual => some .le
  | .greater => some .gt
  | .greaterEqual => some .ge
  | .andWord => some .and
  | .orWord => some .or
  | .xorWord => some .xor
  | _ => none

/-- The instructions of a unary operator, after its operand. -/
def unaryInstructions? : TokenKind → Option (List Instruction)
  | .minus => some [.simple .neg]
  | .plus => some []
  | .tilde => some [.push (.bool true), .simple .xor]
  | _ => none

/-- The steps that leave the value of an expression on the stack. -/
def Expr.emissions (e : Expr) : Except CompileError (List Emission) :=
  match e with
  | number span x => return span.start.mark ++ [.instruction (.push (.number x))]
  | string span s => return span.start.mark ++ [.instruction (.push (.string s))]
  | bool span b => return span.start.mark ++ [.instruction (.push (.bool b))]
  | ident span name => return span.start.mark ++ [.instruction (.loadGlobal name)]
  | group span inner => return span.start.mark ++ (← inner.emissions)
  | unary span op operand => do
    let operand ← operand.emissions
    match unaryInstructions? op with
    | some code => return span.start.mark ++ operand ++ code.map .instruction
    | none => throw (.unaryOperator op)
  | binary span op left right =>
    match binaryOpcode? op with
    | some opcode => do
      let left ← left.emissions
      let right ← right.emissions
      return span.start.mark ++ left ++ right ++ [.instruction (.simple opcode)]
    | none => throw (.binaryOperator op)

/-- The name of the label with the given number. -/
def labelName (n : Nat) : Bytes := "LBL" ++ decimal n

mutual

/-- The steps of a statement, and the number of the first label that they leave unused. -/
def Stmt.emissions (stmt : Stmt) (labels : Nat) : Except CompileError (List Emission × Nat) :=
  match stmt with
  | .print span newline value => do
    let value ← value.emissions
    let op := if newline then Opcode.println else Opcode.print
    return (span.start.mark ++ value ++ [.instruction (.simple op)], labels)
  | .assign span name _ value => do
    let value ← value.emissions
    return (span.start.mark ++ value ++ [.instruction (.storeGlobal name)], labels)
  | .expr span value => do
    let value ← value.emissions
    return (span.start.mark ++ value ++ [.instruction (.simple .pop)], labels)
  | .cond span test yes no => do
    let other := labelName labels
    let done := labelName (labels + 1)
    let test ← test.emissions
    let (yes, labels) ← emissionsOf yes (labels + 2)
    let (no, labels) ← emissionsOf no labels
    return (span.start.mark ++ test ++ [.instruction (.jumpZero other)] ++ yes ++
      [.instruction (.jump done), .instruction (.label other)] ++ no ++
      [.instruction (.label done)], labels)
  | .loop span test body => do
    let top := labelName labels
    let done := labelName (labels + 1)
    let test ← test.emissions
    let (body, labels) ← emissionsOf body (labels + 2)
    return (span.start.mark ++ [.instruction (.label top)] ++ test ++
      [.instruction (.jumpZero done)] ++ body ++
      [.instruction (.jump top), .instruction (.label done)], labels)

/-- The steps of some statements, and the number of the first label that they leave unused. -/
def Stmt.emissionsOf (stmts : List Stmt) (labels : Nat) :
    Except CompileError (List Emission × Nat) :=
  match stmts with
  | [] => return ([], labels)
  | s :: rest => do
    let (s, labels) ← s.emissions labels
    let (rest, labels) ← emissionsOf rest labels
    return (s ++ rest, labels)

end

/-- The steps of a whole script. The run ends after its last statement. -/
def Script.emissions (script : Script) : Except CompileError (List Emission) := do
  let (body, _) ← Stmt.emissionsOf script.statements 0
  return body ++ script.span.stop.mark ++ [.instruction (.simple .halt)]

/-- The program of a script. -/
def Script.compile (script : Script) (name : Bytes) : Except CompileError Program :=
  (Program.ofEmissions name) <$> script.emissions

/-- Why a source text has no program. -/
inductive SourceError where
  | refused (errors : List SyntaxError)
  | unsupported (error : CompileError)
  deriving DecidableEq, Repr

/-- The error in words. -/
def SourceError.message : SourceError → Bytes
  | refused errors => SyntaxError.summary errors
  | unsupported error => error.message

/-- The program of a source text. -/
def compileSource (name source : Bytes) : Except SourceError Program :=
  match parse source with
  | .error errors => .error (.refused errors)
  | .ok script =>
    match script.compile name with
    | .error error => .error (.unsupported error)
    | .ok program => .ok program

end Scriptlet
