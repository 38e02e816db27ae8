import Scriptlet.Syntax.Analysis
import Scriptlet.Syntax.Parser

/-!
# Diagnostics

What a look at a source text finds without running it: every syntax error, or, if there is none,
every warning. The analysis is there in either case, of as much of the script as could be read.
-/

namespace Scriptlet

/-- How bad a finding is. -/
inductive Severity where
  | error | warning
  deriving DecidableEq, Repr

/-- The name of a severity. -/
def Severity.name : Severity → Bytes
  | error => "error"
  | warning => "warning"

/-- A finding in a source text, with the lines and columns of its range. -/
structure Diagnostic where
  line : Nat
  column : Nat
  endLine : Nat
  endColumn : Nat
  severity : Severity
  message : Bytes
  deriving DecidableEq, Repr

namespace Diagnostic

/-- The diagnostic of a syntax error. A range without characters is made one column wide. -/
def ofError (e : SyntaxError) : Diagnostic :=
  let start := e.span.start
  let stop := e.span.stop
  if stop.line = 0 ∨ (stop.line = start.line ∧ stop.column ≤ start.column) then
    ⟨start.line, start.column, start.line, start.column + 1, .error, e.message⟩
  else ⟨start.line, start.column, stop.line, stop.column, .error, e.message⟩

/-- The diagnostic of a warning. -/
def ofWarning (w : Warning) : Diagnostic :=
  ⟨w.span.start.line, w.span.start.column, w.span.stop.line, w.span.stop.column, .warning,
    w.message⟩

end Diagnostic

/-- The result of looking at a source text. -/
structure Inspection where
  diagnostics : List Diagnostic
  analysis : Analysis
  /-- Whether there are no syntax errors. -/
  valid : Bool
  deriving DecidableEq, Repr, Inhabited

/-- Looks at a source text. -/
def Inspection.ofSource (source : Bytes) : Inspection :=
  let (script, errors) := parsePartial source
  let analysis := Analysis.ofScript script
  match errors with
  | [] => ⟨analysis.warnings.map .ofWarning, analysis, true⟩
  | errors => ⟨errors.map .ofError, analysis, false⟩

end Scriptlet
