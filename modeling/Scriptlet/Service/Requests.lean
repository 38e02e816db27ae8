import Scriptlet.Service.Evaluation
import Scriptlet.Service.Pool

/-!
# Requests that share a pool

Several requests to run scripts are answered at a time. The caller of each prepares its program,
brings it to a pool of workers as a job, and makes an answer of what the pool returns. Others may
bring jobs of any kind to the same pool; their results are those on the right.
-/

namespace Scriptlet.Service

variable {n : Nat} {β : Type}

/-- How a job crashes that uses a value that is absent. -/
def crashMessage : Bytes := "runtime error: invalid memory address or nil pointer dereference"

/-- The result of a run : its response, unless it crashed. -/
def resultOf (r : Report) : Except Bytes (RunResponse ⊕ β) :=
  match r.outcome with
  | .failed .absentValue => .error crashMessage
  | _ => .ok (.inl (.ofReport r))

/-- The job that runs a program under a limit, with an output of its own. -/
def job (limit : Int) (program : Program) : Job (RunResponse ⊕ β) := fun c first result last =>
  ∃ fuel report, (first.configure .working limit).run fuel program c = some (report, last) ∧
    result = resultOf report

/-- A call asks for the run of a request. -/
def Asks (svc : Service) (r : RunRequest) (call : Call (RunResponse ⊕ β)) : Prop :=
  ∃ program, prepare r = .ok program ∧ call.job = job (svc.stepLimit r.maxSteps) program

/-- The answer to a request, from what the pool answered and from why the context of the request is
done, if it is. A run that was interrupted has no result. -/
def conclude (expired : Option Interruption) :
    Except JobError (RunResponse ⊕ β) → Option (Except ServiceError RunResponse)
  | .error error => some (.error (.noResult error))
  | .ok (.inl response) =>
    if response.errorKind = "stopped" then
      expired.map fun reason => .error (.noResult (.interrupted reason))
    else some (.ok response)
  | .ok (.inr _) => none

/-- A request is answered : before it comes to the pool, or by what its call returns with. -/
def Answered (svc : Service) (s : Pool n (RunResponse ⊕ β)) (id : Nat) (r : RunRequest)
    (answer : Except ServiceError RunResponse) : Prop :=
  prepare r = .error answer ∨ ∃ call returned, s.calls id = some call ∧ svc.Asks r call ∧
    call.phase = .returned returned ∧ conclude call.expired returned = some answer

end Scriptlet.Service
