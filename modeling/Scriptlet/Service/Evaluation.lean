import Scriptlet.Program.Compile
import Scriptlet.Program.Listing
import Scriptlet.Service.Message
import Scriptlet.Service.Runner
import Scriptlet.Text.Blank

/-!
# The evaluation service

Compiles and runs scripts for clients. A script that does not compile or fails is a result like any
other; an error says that the request made no sense or that there is no result.
-/

namespace Scriptlet

/-- The classes of errors that clients are told. -/
inductive ErrorCode where
  | invalidArgument | canceled | deadlineExceeded | internal
  deriving DecidableEq, Repr

/-- The name of a class. -/
def ErrorCode.name : ErrorCode → Bytes
  | invalidArgument => "invalid_argument"
  | canceled => "canceled"
  | deadlineExceeded => "deadline_exceeded"
  | internal => "internal"

/-- Why a request has no result. -/
inductive ServiceError where
  | sourceRequired
  | negativeLimit
  /-- The script has no program to list. -/
  | notCompiled (error : SourceError)
  /-- The run was given up. -/
  | noResult (error : JobError)
  deriving DecidableEq, Repr

namespace ServiceError

/-- The class of an error. -/
def code : ServiceError → ErrorCode
  | sourceRequired | negativeLimit | notCompiled _ => .invalidArgument
  | noResult (.interrupted .canceled) => .canceled
  | noResult (.interrupted .deadline) => .deadlineExceeded
  | noResult _ => .internal

/-- The error in words. -/
def message : ServiceError → Bytes
  | sourceRequired => "source is required"
  | negativeLimit => "maxSteps must not be negative"
  | notCompiled error => error.message
  | noResult error => error.message

end ServiceError

/-- The service over a runner. -/
structure Service where
  /-- The largest number of instructions of a run; zero is no limit. -/
  cap : Int := 0
  runner : Runner := {}
  deriving DecidableEq, Repr, Inhabited

/-- The kind of a failed run. -/
def Outcome.kind : Outcome → Bytes
  | .halted => []
  | .failed (.runtime _) => "runtime"
  | .stepLimit _ => "step_limit"
  | .interrupted _ _ => "stopped"
  | .failed _ | .writeFailed _ => "internal"

/-- The kinds that there are. A run that did not fail has the empty one. -/
def Outcome.kinds : List Bytes := [[], "runtime", "step_limit", "stopped", "internal"]

theorem Outcome.kind_mem_kinds (o : Outcome) : o.kind ∈ kinds := by
  cases o with
  | failed fault => cases fault <;> simp [kind, kinds]
  | _ => simp [kind, kinds]

/-- The source line of a mistake in a script; zero for any other end of a run. -/
def Outcome.line : Outcome → Int
  | .failed (.runtime f) => f.line
  | _ => 0

/-- The response about a run. -/
def RunResponse.ofReport (r : Report) : RunResponse where
  output := r.state.printed
  globals := .ofList (r.state.globals.entries.map fun e => (e.1, literalOf e.2))
  steps := r.state.steps
  error := (r.outcome.message?).getD []
  errorKind := r.outcome.kind
  line := r.outcome.line

namespace Service

/-- The name of programs made from requests. -/
def programName : Bytes := "request"

/-- The limit of a run: the smaller of the requested one and the cap, where zero is none. -/
def stepLimit (s : Service) (requested : Int) : Int :=
  if requested = 0 then s.cap
  else if s.cap = 0 then requested
  else min requested s.cap

/-- What is settled before a script runs : the answer, if the request makes no sense or the script
does not compile, or else the program. -/
def prepare (r : RunRequest) : Except (Except ServiceError RunResponse) Program :=
  if Bytes.isBlank r.source then .error (.error .sourceRequired)
  else if r.maxSteps < 0 then .error (.error .negativeLimit)
  else match compileSource programName r.source with
    | .error error => .error (.ok { error := error.message, errorKind := "syntax" })
    | .ok program => .ok program

/-- Answers a request to run a script. A run that its context interrupts has no result: the context
is asked once more for the reason. None if the rounds granted do not suffice. -/
def run (fuel : Nat) (s : Service) (c : Context) (r : RunRequest) :
    Option (Except ServiceError RunResponse) :=
  match prepare r with
  | .error answer => some answer
  | .ok program =>
    let limit := (s.stepLimit r.maxSteps).toNat
    match s.runner.submit c fun c => .ok (Machine.run fuel program limit c .working) with
    | .error error => some (.error (.noResult error))
    | .ok none => none
    | .ok (some report) =>
      match report.outcome, report.context.poll.1 with
      | .interrupted _ _, some reason => some (.error (.noResult (.interrupted reason)))
      | _, _ => some (.ok (.ofReport report))

/-- Answers a request to check a script. -/
def check (r : SourceRequest) : CheckResponse :=
  let found := Inspection.ofSource r.source
  ⟨found.valid, found.diagnostics.map .ofDiagnostic⟩

/-- Answers a request for the listing of a script's program. -/
def disassemble (r : SourceRequest) : Except ServiceError DisassembleResponse :=
  match compileSource programName r.source with
  | .error error => .error (.notCompiled error)
  | .ok program => .ok ⟨program.listing, program.code.size⟩

/-- Stops the runner of the service. -/
def stop (s : Service) : Service := { s with runner := s.runner.stop }

end Service

end Scriptlet
