import Scriptlet.Machine.Engine
import Scriptlet.Service.Runner

/-!
# The protocol of a pool of workers

Callers hand jobs to workers through a queue and wait for the results; each worker owns an engine
and keeps it from job to job. `Pool.Step` lists everything that a caller, a context, a worker or
someone who stops the pool may do next, and `Pool.Runs` strings such steps together in any order.
Where several things are possible at once, as for a caller whose result is there when the pool is
told to quit, there is a step for each.
-/

namespace Scriptlet

/-- A job on an engine. `job c e r e'` says that under a context that answers like `c` the job,
begun on the engine `e`, may end with the result `r`, or with a crash and its message, and leave the
engine `e'`. A job need not end, and it may end in several ways. -/
abbrev Job (α : Type) := Context → Engine → Except Bytes α → Engine → Prop

/-- How far a caller has come. -/
inductive Phase (α : Type) where
  /-- It has not asked its context yet. -/
  | calling
  /-- It waits for room in the queue. -/
  | submitting
  /-- It waits for its result. -/
  | waiting
  | returned (answer : Except JobError α)

/-- A call with a job. -/
structure Call (α : Type) where
  job : Job α
  /-- Why the context of the caller is done, if it is. -/
  expired : Option Interruption := none
  phase : Phase α := .calling
  /-- The result, from when a worker hands it over until the caller takes it. -/
  result : Option (Except Bytes α) := none

/-- What a worker does. -/
inductive Worker (α : Type) where
  | idle (engine : Engine)
  | executing (id : Nat) (engine : Engine)
  /-- The job of the call has ended, and its result is to be handed over. -/
  | sending (id : Nat) (result : Except Bytes α) (engine : Engine)
  | exited

/-- A pool with `n + 1` workers. There is always one. -/
structure Pool (n : Nat) (α : Type) where
  calls : Nat → Option (Call α) := fun _ => none
  queue : List Nat := []
  workers : Fin (n + 1) → Worker α := fun _ => .idle {}
  /-- Whether the workers are told to exit. -/
  quit : Bool := false
  /-- The number of those who wait for the workers to exit. -/
  stopping : Nat := 0

/-- What happens in a pool. -/
inductive Event (n : Nat) (α : Type) where
  /-- A caller brings a job; its context may be done already. -/
  | begin (id : Nat) (job : Job α) (expired : Option Interruption)
  /-- The context of a caller is done from now on. -/
  | expire (id : Nat) (reason : Interruption)
  /-- A caller has found its context not done. -/
  | proceed (id : Nat)
  | enqueue (id : Nat)
  /-- A caller returns. -/
  | answer (id : Nat) (answer : Except JobError α)
  /-- A worker takes a job from the queue and begins to execute it. -/
  | take (worker : Fin (n + 1)) (id : Nat)
  /-- A job ends, begun on the first engine under a context with such answers. -/
  | finish (worker : Fin (n + 1)) (id : Nat) (context : Context) (first : Engine)
      (result : Except Bytes α) (last : Engine)
  /-- A worker hands a result over. -/
  | send (worker : Fin (n + 1)) (id : Nat)
  | exit (worker : Fin (n + 1))
  /-- Someone stops the pool and waits for the workers. -/
  | stop
  /-- Someone has waited for all workers. -/
  | stopped

namespace Pool

variable {n : Nat} {α : Type}

/-- The largest number of jobs in the queue. -/
def capacity : Nat := 64

/-- The pool with a call changed. -/
def setCall (s : Pool n α) (id : Nat) (call : Call α) : Pool n α :=
  { s with calls := fun i => if i = id then some call else s.calls i }

/-- The pool with a worker changed. -/
def setWorker (s : Pool n α) (w : Fin (n + 1)) (worker : Worker α) : Pool n α :=
  { s with workers := fun v => if v = w then worker else s.workers v }

section Fields

variable (s : Pool n α) (id i : Nat) (call : Call α) (w v : Fin (n + 1)) (worker : Worker α)

@[simp, grind =] theorem setCall_calls :
    (s.setCall id call).calls i = if i = id then some call else s.calls i := rfl

theorem setCall_self : (s.setCall id call).calls id = some call := by simp

@[simp, grind =] theorem setCall_queue : (s.setCall id call).queue = s.queue := rfl

@[simp, grind =] theorem setCall_workers : (s.setCall id call).workers v = s.workers v := rfl

@[simp, grind =] theorem setCall_quit : (s.setCall id call).quit = s.quit := rfl

@[simp, grind =] theorem setWorker_calls : (s.setWorker w worker).calls i = s.calls i := rfl

@[simp, grind =] theorem setWorker_queue : (s.setWorker w worker).queue = s.queue := rfl

@[simp, grind =] theorem setWorker_workers :
    (s.setWorker w worker).workers v = if v = w then worker else s.workers v := rfl

theorem setWorker_self : (s.setWorker w worker).workers w = worker := by simp

@[simp, grind =] theorem setWorker_quit : (s.setWorker w worker).quit = s.quit := rfl

end Fields

/-- The answer to a caller whose job has a result. A crash is an error of the job. -/
def answerOf (result : Except Bytes α) : Except JobError α := result.mapError .crashed

/-- A context may have answered like `c` by now : not done at all, or done for the reason why it is
done. -/
def MayAnswer (call : Call α) (c : Context) : Prop :=
  c.polls = none ∨ call.expired = some c.reason

/-- What may happen next. -/
inductive Step : Pool n α → Event n α → Pool n α → Prop
  | begin {s : Pool n α} {id : Nat} {job : Job α} {expired : Option Interruption} :
      s.calls id = none →
      Step s (.begin id job expired) (s.setCall id { job := job, expired := expired })
  | expire {s : Pool n α} {id : Nat} {call : Call α} {reason : Interruption} :
      s.calls id = some call → call.expired = none →
      Step s (.expire id reason) (s.setCall id { call with expired := some reason })
  | proceed {s : Pool n α} {id : Nat} {call : Call α} :
      s.calls id = some call → call.phase = .calling → call.expired = none →
      Step s (.proceed id) (s.setCall id { call with phase := .submitting })
  | enqueue {s : Pool n α} {id : Nat} {call : Call α} :
      s.calls id = some call → call.phase = .submitting → s.queue.length < capacity →
      Step s (.enqueue id)
        { s.setCall id { call with phase := .waiting } with queue := s.queue ++ [id] }
  | answerExpired {s : Pool n α} {id : Nat} {call : Call α} {reason : Interruption} :
      s.calls id = some call → (∀ answer, call.phase ≠ .returned answer) →
      call.expired = some reason →
      Step s (.answer id (.error (.interrupted reason)))
        (s.setCall id { call with phase := .returned (.error (.interrupted reason)) })
  | answerQuit {s : Pool n α} {id : Nat} {call : Call α} :
      s.calls id = some call → call.phase = .submitting ∨ call.phase = .waiting →
      s.quit = true →
      Step s (.answer id (.error .stopped))
        (s.setCall id { call with phase := .returned (.error .stopped) })
  | answerResult {s : Pool n α} {id : Nat} {call : Call α} {result : Except Bytes α} :
      s.calls id = some call → call.phase = .waiting → call.result = some result →
      Step s (.answer id (answerOf result))
        (s.setCall id { call with phase := .returned (answerOf result), result := none })
  | take {s : Pool n α} {w : Fin (n + 1)} {id : Nat} {rest : List Nat} {engine : Engine} :
      s.workers w = .idle engine → s.queue = id :: rest →
      Step s (.take w id) { s.setWorker w (.executing id engine) with queue := rest }
  | finish {s : Pool n α} {w : Fin (n + 1)} {id : Nat} {call : Call α} {c : Context}
      {first last : Engine} {result : Except Bytes α} :
      s.workers w = .executing id first → s.calls id = some call → MayAnswer call c →
      call.job c first result last →
      -- whatever the job did to the engine, its sink and its limit are taken back
      Step s (.finish w id c first result last)
        (s.setWorker w (.sending id result (last.configure .working 0)))
  | send {s : Pool n α} {w : Fin (n + 1)} {id : Nat} {call : Call α} {result : Except Bytes α}
      {engine : Engine} :
      s.workers w = .sending id result engine → s.calls id = some call → call.result = none →
      Step s (.send w id)
        ((s.setCall id { call with result := some result }).setWorker w (.idle engine))
  | exit {s : Pool n α} {w : Fin (n + 1)} {engine : Engine} :
      s.workers w = .idle engine → s.quit = true → Step s (.exit w) (s.setWorker w .exited)
  | stop {s : Pool n α} : Step s .stop { s with quit := true, stopping := s.stopping + 1 }
  | stopped {s : Pool n α} :
      0 < s.stopping → (∀ w, s.workers w = .exited) →
      Step s .stopped { s with stopping := s.stopping - 1 }

/-- A sequence of events leads from one state of a pool to another. -/
inductive Runs (s : Pool n α) : List (Event n α) → Pool n α → Prop
  | refl : Runs s [] s
  | snoc {s' s'' : Pool n α} {es : List (Event n α)} {e : Event n α} :
      Runs s es s' → Step s' e s'' → Runs s (es ++ [e]) s''

end Pool

end Scriptlet
