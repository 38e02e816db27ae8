import Scriptlet.Machine.Run

/-!
# Engines

An engine is a machine that is kept from run to run, with where its output goes and how many
instructions a run may take. A run first discards all that the last one left (`Engine.reset`), so it
ends as a run from an empty state does (`Engine.run_eq`).
-/

namespace Scriptlet

/-- A machine between two runs. -/
structure Engine where
  /-- The program of the last run. -/
  program : Program := {}
  /-- The labels of that program. -/
  labels : Table Nat := .empty
  /-- What the last run left behind. -/
  state : Machine.State := {}
  /-- Whether that run did not come to its end. -/
  running : Bool := false
  sink : Sink := .working
  /-- The largest number of instructions of a run; one that is not positive is no limit. -/
  limit : Int := 0
  deriving Repr, Inhabited

namespace Engine

/-- The engine with another sink and another limit. -/
def configure (e : Engine) (sink : Sink) (limit : Int) : Engine :=
  { e with sink := sink, limit := limit }

/-- The engine at the start of a program. -/
def reset (e : Engine) (p : Program) : Engine :=
  { e with
    program := p
    labels := p.labels
    state := { e.state with pc := 0, stack := [], globals := .empty, output := #[], steps := 0 }
    running := true }

/-- Runs a program on the engine. None if the rounds granted do not suffice. -/
def run (fuel : Nat) (e : Engine) (p : Program) (c : Context) : Option (Report × Engine) :=
  let e := e.reset p
  let report :=
    if e.running then Machine.drive e.program e.labels e.limit.toNat fuel c e.state
    else some ⟨.halted, e.state, c⟩
  report.map fun r =>
    (Machine.settle e.sink r, { e with state := r.state, running := r.outcome ≠ .halted })

/-- What a run reports does not depend on what earlier runs left on the engine. -/
theorem run_eq (fuel : Nat) (e : Engine) (p : Program) (c : Context) :
    (e.run fuel p c).map Prod.fst = Machine.run fuel p e.limit.toNat c e.sink := by
  have hstate : (e.reset p).state = {} := rfl
  simp only [run, Machine.run, Option.map_map, hstate]
  rfl

end Engine

end Scriptlet
