import Scriptlet.Syntax.Diagnostic

/-!
# Messages of the service

What clients of the evaluation service send and get. A message read from the wire may hold any
integers and texts, so the fields are no narrower than that.
-/

namespace Scriptlet

/-- A request to compile and run a script. -/
structure RunRequest where
  source : Bytes := []
  /-- The largest number of instructions; zero asks for the limit of the service. -/
  maxSteps : Int := 0
  deriving DecidableEq, Repr, Inhabited

/-- A request that holds a script and nothing else. -/
structure SourceRequest where
  source : Bytes := []
  deriving DecidableEq, Repr, Inhabited

/-- What a run produced. A run that failed still tells what it printed before. -/
structure RunResponse where
  output : Bytes := []
  /-- The variables in their literal form. -/
  globals : Table Bytes := .empty
  steps : Int := 0
  /-- The error in words, empty if there is none. -/
  error : Bytes := []
  errorKind : Bytes := []
  /-- The source line of a mistake in the script. -/
  line : Int := 0
  deriving DecidableEq, Repr, Inhabited

/-- A diagnostic as it is sent. -/
structure DiagnosticMessage where
  line : Int := 0
  column : Int := 0
  endLine : Int := 0
  endColumn : Int := 0
  severity : Bytes := []
  message : Bytes := []
  deriving DecidableEq, Repr, Inhabited

/-- The message of a diagnostic. -/
def DiagnosticMessage.ofDiagnostic (d : Diagnostic) : DiagnosticMessage :=
  ⟨d.line, d.column, d.endLine, d.endColumn, d.severity.name, d.message⟩

/-- The findings in a script. -/
structure CheckResponse where
  valid : Bool := false
  diagnostics : List DiagnosticMessage := []
  deriving DecidableEq, Repr, Inhabited

/-- The listing of a script's program. -/
structure DisassembleResponse where
  listing : Bytes := []
  instructions : Int := 0
  deriving DecidableEq, Repr, Inhabited

end Scriptlet
