import Scriptlet.Machine.Step

/-!
# Runs

A run executes instructions until the program halts, an instruction fails, a limit on the number of
instructions is reached, or its context is done. The context is asked every 1024 instructions. A run
without limit may go on forever, so `Machine.drive` also takes the number of rounds that its caller
grants it; an answer does not depend on that number.
-/

namespace Scriptlet

/-- What may interrupt a run from outside. -/
structure Context where
  /-- How often the context still answers that it is not done; none if it never is. -/
  polls : Option Nat := none
  /-- What it answers afterwards. -/
  reason : Interruption := .canceled
  deriving DecidableEq, Repr, Inhabited

/-- Asks whether the context is done. -/
def Context.poll (c : Context) : Option Interruption × Context :=
  match c.polls with
  | none => (none, c)
  | some 0 => (some c.reason, c)
  | some (n + 1) => (none, { c with polls := some n })

/-- Where output goes. -/
inductive Sink where
  | working
  /-- Every write fails with the given message. -/
  | broken (message : Bytes)
  deriving DecidableEq, Repr

/-- How a run ended. -/
inductive Outcome where
  | halted
  | failed (fault : Fault)
  /-- The limit on the number of instructions was reached. -/
  | stepLimit (limit : Nat)
  /-- The context was done after the given number of instructions. -/
  | interrupted (steps : Nat) (reason : Interruption)
  /-- All went well, but the output could not be written. -/
  | writeFailed (message : Bytes)
  deriving DecidableEq, Repr

/-- The error in words, if there is one that has words. -/
def Outcome.message? : Outcome → Option Bytes
  | halted => none
  | failed (.runtime f) => some f.message
  | failed (.internal f) => some f.message
  | failed .absentValue => none
  | stepLimit limit => some ("vm: step limit exceeded (" ++ decimal limit ++ " instructions)")
  | interrupted steps reason =>
    some ("vm: run stopped after " ++ decimal steps ++ " instructions: " ++ reason.message)
  | writeFailed message => some ("vm: write output: " ++ message)

/-- What a run leaves behind. -/
structure Report where
  outcome : Outcome
  state : Machine.State
  context : Context
  deriving Repr

namespace Machine

/-- The number of instructions between two questions to the context. -/
def pollInterval : Nat := 1024

/-- Asks the context if it is time to. -/
def pollAt (steps : Nat) (c : Context) : Option Interruption × Context :=
  if steps % pollInterval = 0 then c.poll else (none, c)

/-- Runs from a state for at most `fuel` rounds; none if they do not suffice. A limit of zero is no
limit. -/
def drive (p : Program) (labels : Table Nat) (limit : Nat) :
    (fuel : Nat) → Context → State → Option Report
  | 0, _, _ => none
  | fuel + 1, c, s =>
    match p.code[s.pc]? with
    | none => some ⟨.failed (.internal ⟨Opcode.halt.byte, s.pc, [], .missingHalt⟩), s, c⟩
    | some i =>
      if 0 < limit ∧ limit ≤ s.steps then some ⟨.stepLimit limit, s, c⟩
      else match pollAt s.steps c with
        | (some reason, c) => some ⟨.interrupted s.steps reason, s, c⟩
        | (none, c) =>
          match execute p labels i s.advance with
          | .running s => drive p labels limit fuel c s
          | .halted s => some ⟨.halted, s, c⟩
          | .failed fault s => some ⟨.failed fault, s, c⟩

/-- How a run ended, once its output has been handed to the sink. -/
def settle (sink : Sink) (r : Report) : Report :=
  match sink, r.outcome with
  | .broken message, .halted =>
    if r.state.printed = [] then r else { r with outcome := .writeFailed message }
  | _, _ => r

/-- The text that reached the sink. -/
def delivered (sink : Sink) (s : State) : Bytes :=
  match sink with
  | .working => s.printed
  | .broken _ => []

/-- Runs a program from an empty state. -/
def run (fuel : Nat) (p : Program) (limit : Nat) (c : Context) (sink : Sink) : Option Report :=
  (drive p p.labels limit fuel c {}).map (settle sink)

end Machine

end Scriptlet
