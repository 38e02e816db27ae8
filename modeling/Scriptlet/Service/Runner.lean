import Scriptlet.Machine.Run

/-!
# The runner

Jobs run on workers, each of which owns a machine; a machine starts every run from an empty state,
so no job sees anything of another one. A job whose context is done before it is submitted is not
run, and a runner that was stopped runs no more jobs.
-/

namespace Scriptlet

/-- Why a submitted job has no result. -/
inductive JobError where
  /-- The context of the caller was done. -/
  | interrupted (reason : Interruption)
  /-- The runner was stopped before. -/
  | stopped
  /-- The job crashed with a message. -/
  | crashed (message : Bytes)
  deriving DecidableEq, Repr

/-- The error in words. -/
def JobError.message : JobError → Bytes
  | interrupted reason => reason.message
  | stopped => "runner stopped"
  | crashed message => "runner: panic: " ++ message

/-- The state of a runner that later jobs can see. -/
structure Runner where
  running : Bool := true
  deriving DecidableEq, Repr, Inhabited

namespace Runner

/-- Stops the runner. -/
def stop (_ : Runner) : Runner := ⟨false⟩

/-- Submits a job. Its context is asked once before the job starts; what is left of the context is
handed to the job, which ends with a result or crashes with a message. -/
def submit {α : Type} (r : Runner) (c : Context) (job : Context → Except Bytes α) :
    Except JobError α :=
  match c.poll with
  | (some reason, _) => .error (.interrupted reason)
  | (none, c) =>
    if r.running then
      match job c with
      | .ok result => .ok result
      | .error message => .error (.crashed message)
    else .error .stopped

end Runner

end Scriptlet
