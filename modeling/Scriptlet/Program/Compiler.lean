import Scriptlet.Program.Compile

/-!
# Compilers

A compiler builds one program after another. It keeps what it has built and the number of labels it
has handed out, also of a script that it could not finish, and starts anew with each script : what
comes of a script is `Compiler.result`, the program of `Script.compile`.
-/

namespace Scriptlet

/-- What a compiler keeps. -/
structure Compiler where
  /-- The program that it builds, or built last. -/
  program : Program := {}
  /-- The number of labels handed out for that program. -/
  labelCount : Nat := 0
  deriving Repr, Inhabited

/-- A step of a compiler. What it keeps stays also when the step fails. -/
abbrev Compiling := ExceptT CompileError (StateM Compiler)

namespace Compiler

/-- Adds an instruction. -/
def emit (i : Instruction) : Compiling Unit :=
  modify fun c => { c with program := c.program.emit i }

/-- Places the next instructions at a position, if it is known. -/
def mark (p : Position) : Compiling Unit :=
  if 0 < p.line then modify fun c => { c with program := c.program.locate p.line p.column }
  else pure ()

/-- Hands out a label. -/
def newLabel : Compiling Bytes :=
  modifyGet fun c => (labelName c.labelCount, { c with labelCount := c.labelCount + 1 })

/-- Adds the instructions that leave the value of an expression on the stack. -/
def expr (e : Expr) : Compiling Unit := do
  mark e.span.start
  match e with
  | .number _ x => emit (.push (.number x))
  | .string _ s => emit (.push (.string s))
  | .bool _ b => emit (.push (.bool b))
  | .ident _ name => emit (.loadGlobal name)
  | .group _ inner => expr inner
  | .unary _ op operand =>
    expr operand
    match unaryInstructions? op with
    | some code => code.forM emit
    | none => throw (.unaryOperator op)
  | .binary _ op left right =>
    match binaryOpcode? op with
    | some opcode =>
      expr left
      expr right
      emit (.simple opcode)
    | none => throw (.binaryOperator op)

mutual

/-- Adds the instructions of a statement. -/
def stmt (s : Stmt) : Compiling Unit := do
  mark s.span.start
  match s with
  | .print _ newline value =>
    expr value
    emit (.simple (if newline then .println else .print))
  | .assign _ name _ value =>
    expr value
    emit (.storeGlobal name)
  | .expr _ value =>
    expr value
    emit (.simple .pop)
  | .cond _ test yes no =>
    let other ← newLabel
    let done ← newLabel
    expr test
    emit (.jumpZero other)
    stmts yes
    emit (.jump done)
    emit (.label other)
    stmts no
    emit (.label done)
  | .loop _ test body =>
    let top ← newLabel
    let done ← newLabel
    emit (.label top)
    expr test
    emit (.jumpZero done)
    stmts body
    emit (.jump top)
    emit (.label done)

/-- Adds the instructions of some statements. -/
def stmts : List Stmt → Compiling Unit
  | [] => pure ()
  | s :: rest => do
    stmt s
    stmts rest

end

/-- Adds the instructions of a whole script. The run ends after its last statement. -/
def script (s : Script) : Compiling Unit := do
  stmts s.statements
  mark s.span.stop
  emit (.simple .halt)

/-- Compiles a script. What was kept before is dropped. -/
def compile (s : Script) (name : Bytes) : Compiling Program := do
  set { program := { name := name } : Compiler }
  script s
  return (← get).program

/-- What comes of a script when the compiler is in the state `c`. -/
def result (c : Compiler) (s : Script) (name : Bytes) : Except CompileError Program :=
  ((compile s name).run.run c).1

end Compiler

end Scriptlet
