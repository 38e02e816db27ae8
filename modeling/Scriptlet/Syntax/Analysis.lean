import Scriptlet.Syntax.Tree
import Scriptlet.Text.Table
import Scriptlet.Value

/-!
# Analysis of scripts

Where each variable is assigned and read, and warnings about expressions that cannot work. Nothing
here stops a script from being compiled.
-/

namespace Scriptlet

/-- Why a piece of a script will probably fail or misbehave. -/
inductive WarningCause where
  /-- A variable is read that no statement assigns. -/
  | neverAssigned (name : Bytes)
  /-- A condition is a text, which is never falsy. -/
  | textCondition
  /-- A literal of this kind is negated. -/
  | negation (kind : ValueKind)
  /-- A number is inverted. -/
  | inversion
  | divisionByZero
  deriving DecidableEq, Repr

/-- The warning in words. -/
def WarningCause.message : WarningCause → Bytes
  | neverAssigned name => "variable '" ++ name ++ "' is never assigned"
  | textCondition => "condition is a string and is always true"
  | negation kind => "'-' cannot be applied to a " ++ kind.name
  | inversion => "'~' cannot be applied to a number"
  | divisionByZero => "division by zero"

/-- A warning about a range of the source. -/
structure Warning where
  span : Span
  cause : WarningCause
  deriving DecidableEq, Repr

/-- The warning in words. -/
def Warning.message (w : Warning) : Bytes := w.cause.message

/-- The place and the warning in words. -/
def Warning.text (w : Warning) : Bytes :=
  decimal w.span.start.line ++ ":" ++ decimal w.span.start.column ++ ": warning: " ++ w.message

/-- A variable at a place. -/
abbrev Occurrence := Bytes × Span

namespace Expr

/-- The variables that an expression reads, from left to right. -/
def references : Expr → List Occurrence
  | number _ _ | string _ _ | bool _ _ => []
  | ident span name => [(name, span)]
  | group _ inner => inner.references
  | unary _ _ operand => operand.references
  | binary _ _ left right => left.references ++ right.references

/-- The warning about a unary operator on a literal that it does not take. -/
def unaryWarning (span : Span) (op : TokenKind) (operand : Expr) : List Warning :=
  match op, operand.unparen with
  | .minus, string _ _ => [⟨span, .negation .string⟩]
  | .minus, bool _ _ => [⟨span, .negation .bool⟩]
  | .tilde, number _ _ => [⟨span, .inversion⟩]
  | _, _ => []

/-- The warning about a division by a literal zero. -/
def binaryWarning (span : Span) (op : TokenKind) (right : Expr) : List Warning :=
  match right.unparen with
  | number _ x => if (op = .slash ∨ op = .percent) ∧ x == 0 then [⟨span, .divisionByZero⟩] else []
  | _ => []

/-- The warning about a condition that is a text. -/
def conditionWarning (test : Expr) : List Warning :=
  match test.unparen with
  | string _ _ => [⟨test.span, .textCondition⟩]
  | _ => []

/-- The warnings about operators, an expression before its parts. -/
def warnings : Expr → List Warning
  | number _ _ | string _ _ | bool _ _ | ident _ _ => []
  | group _ inner => inner.warnings
  | unary span op operand => unaryWarning span op operand ++ operand.warnings
  | binary span op left right => binaryWarning span op right ++ (left.warnings ++ right.warnings)

end Expr

namespace Stmt

mutual

/-- The assignments of a statement, each with the range of its name. -/
def assignments : Stmt → List Occurrence
  | print _ _ _ | expr _ _ => []
  | assign span name nameStop _ => [(name, ⟨span.start, nameStop⟩)]
  | cond _ _ yes no => assignmentsOf yes ++ assignmentsOf no
  | loop _ _ body => assignmentsOf body

/-- The assignments of some statements. -/
def assignmentsOf : List Stmt → List Occurrence
  | [] => []
  | s :: rest => s.assignments ++ assignmentsOf rest

end

mutual

/-- The variables that a statement reads. -/
def references : Stmt → List Occurrence
  | print _ _ value | assign _ _ _ value | expr _ value => value.references
  | cond _ test yes no => test.references ++ (referencesOf yes ++ referencesOf no)
  | loop _ test body => test.references ++ referencesOf body

/-- The variables that some statements read. -/
def referencesOf : List Stmt → List Occurrence
  | [] => []
  | s :: rest => s.references ++ referencesOf rest

end

mutual

/-- The warnings about a statement, but for variables. -/
def warnings : Stmt → List Warning
  | print _ _ value | assign _ _ _ value | expr _ value => value.warnings
  | cond _ test yes no =>
    test.conditionWarning ++ (test.warnings ++ (warningsOf yes ++ warningsOf no))
  | loop _ test body => test.conditionWarning ++ (test.warnings ++ warningsOf body)

/-- The warnings about some statements, but for variables. -/
def warningsOf : List Stmt → List Warning
  | [] => []
  | s :: rest => s.warnings ++ warningsOf rest

end

end Stmt

/-- What is known of a script without running it. -/
structure Analysis where
  warnings : List Warning
  /-- Every assignment, in the order of the source. -/
  assignments : List Occurrence
  /-- Every reading of a variable, in the order of the source. -/
  references : List Occurrence
  deriving DecidableEq, Repr, Inhabited

namespace Analysis

/-- The places of a name among some occurrences. -/
def spansOf (name : Bytes) (occurrences : List Occurrence) : List Span :=
  (occurrences.filter fun o => o.1 = name).map Prod.snd

/-- The places of each name among some occurrences, by name. -/
def index (occurrences : List Occurrence) : Table (List Span) :=
  .ofList (occurrences.map fun o => (o.1, spansOf o.1 occurrences))

/-- The names that are assigned, in order. -/
def globals (a : Analysis) : List Bytes := (index a.assignments).keys

/-- The warnings about variables that are read and never assigned. -/
def unassigned (assignments references : List Occurrence) : List Warning :=
  (references.filter fun r => (assignments.all fun a => a.1 ≠ r.1)).map fun r =>
    ⟨r.2, .neverAssigned r.1⟩

/-- The analysis of a script. Warnings at one place stand in the order in which they are found,
those about variables last. -/
def ofScript (script : Script) : Analysis :=
  let assignments := Stmt.assignmentsOf script.statements
  let references := Stmt.referencesOf script.statements
  let warnings := Stmt.warningsOf script.statements ++ unassigned assignments references
  { warnings := warnings.mergeSort fun a b => a.span.start.offset ≤ b.span.start.offset
    assignments := assignments
    references := references }

end Analysis

end Scriptlet
