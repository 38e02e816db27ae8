import Scriptlet.Machine.Run

/-!
# Output

What a program prints is collected and handed to a device a piece at a time: whenever as much has
been collected as a piece may hold, and once more at the end of the run. Nobody asks whether a piece
was taken before the run is over. After a piece that was refused nothing more is handed on.

`Machine.runTo` is a run whose output goes to a device in this way.
-/

namespace Scriptlet

/-- Where output goes, a piece at a time. -/
structure Device where
  /-- Whether it takes long texts as they are, in one piece. -/
  direct : Bool
  /-- The answer to a piece after the pieces before it: none if the piece is taken, otherwise the
  number of its bytes that are, and why the others are not. -/
  answer : List Bytes → Bytes → Option (Nat × Bytes)

/-- The device of a sink. -/
def Sink.device : Sink → Device
  | .working => { direct := true, answer := fun _ _ => none }
  | .broken message => { direct := true, answer := fun _ _ => some (0, message) }

/-- Output on its way to a device. -/
structure Writer where
  /-- What has been collected. -/
  pending : Bytes := []
  /-- The pieces that were handed to the device. -/
  handed : List Bytes := []
  /-- Why a piece was refused, if one was. -/
  failure : Option Bytes := none
  deriving DecidableEq, Repr, Inhabited

/-- What an instruction asks of a writer. -/
inductive Write where
  | text (s : Bytes)
  | byte (b : UInt8)
  deriving DecidableEq, Repr

namespace Write

/-- The bytes that are to be written. -/
def bytes : Write → Bytes
  | text s => s
  | byte b => [b]

end Write

namespace Writer

/-- The number of bytes that are collected before they are handed on. -/
def capacity : Nat := 4096

/-- The number of bytes that can still be collected. -/
def room (w : Writer) : Nat := capacity - w.pending.length

/-- Hands what has been collected to the device. What the device did not take stays. -/
def flush (d : Device) (w : Writer) : Writer :=
  if w.failure.isSome ∨ w.pending = [] then w
  else
    let handed := w.handed ++ [w.pending]
    match d.answer w.handed w.pending with
    | none => { pending := [], handed, failure := none }
    | some (n, reason) => { pending := w.pending.drop n, handed, failure := some reason }

/-- Hands a text to the device as it is. -/
def pass (d : Device) (w : Writer) (s : Bytes) : Writer :=
  { w with handed := w.handed ++ [s], failure := (d.answer w.handed s).map Prod.snd }

/-- Collects as much of a text as there is room for. -/
def fill (w : Writer) (s : Bytes) : Writer := { w with pending := w.pending ++ s.take w.room }

theorem pending_flush {d : Device} {w : Writer} (h : (w.flush d).failure = none) :
    (w.flush d).pending = [] := by
  unfold flush at h ⊢
  split at h
  next hw =>
    rw [if_pos hw]
    exact hw.resolve_left (by simp [h])
  next hw =>
    rw [if_neg hw]
    cases hd : d.answer w.handed w.pending with
    | none => rfl
    | some refusal => simp [hd] at h

/-- Writes a text: what has room is collected, and the collection is handed on whenever it is full.
A long text that nothing waits before is handed on as it is, if the device takes such texts. -/
def writeText (d : Device) (w : Writer) (s : Bytes) : Writer :=
  if w.failure.isSome then w
  else if s.length ≤ w.room then { w with pending := w.pending ++ s }
  else if w.pending = [] ∧ d.direct then w.pass d s
  else if _h : ((w.fill s).flush d).failure = none then
    writeText d ((w.fill s).flush d) (s.drop w.room)
  else (w.fill s).flush d
termination_by 2 * s.length + min w.pending.length 1
decreasing_by
  -- a full collection is handed on before the text gets shorter
  have hempty := congrArg List.length (pending_flush _h)
  rw [List.length_nil] at hempty
  have hroom : w.room = capacity - w.pending.length := rfl
  have hcapacity : capacity = 4096 := rfl
  rw [List.length_drop, hempty]
  omega

/-- Writes a byte. -/
def writeByte (d : Device) (w : Writer) (b : UInt8) : Writer :=
  let w := if w.pending.length < capacity then w else w.flush d
  if w.failure.isSome then w else { w with pending := w.pending ++ [b] }

/-- Does what an instruction asks for. -/
def write (d : Device) (w : Writer) : Write → Writer
  | .text s => w.writeText d s
  | .byte b => w.writeByte d b

end Writer

namespace Machine

/-- What an instruction asks of the writer in the state past it. -/
def writes (i : Instruction) (s : State) : List Write :=
  match Opcode.ofByte? i.op, s.stack with
  | some .print, some v :: _ => [.text (Escape.decode v.text)]
  | some .println, some v :: _ => [.text (Escape.decode v.text), .byte 0x0A]
  | _, _ => []

/-- Runs from a state for at most `fuel` rounds, with a writer for the output; none if they do not
suffice. -/
def driveTo (d : Device) (p : Program) (labels : Table Nat) (limit : Nat) :
    (fuel : Nat) → Context → State → Writer → Option (Report × Writer)
  | 0, _, _, _ => none
  | fuel + 1, c, s, w =>
    match p.code[s.pc]? with
    | none => some (⟨.failed (.internal ⟨Opcode.halt.byte, s.pc, [], .missingHalt⟩), s, c⟩, w)
    | some i =>
      if 0 < limit ∧ limit ≤ s.steps then some (⟨.stepLimit limit, s, c⟩, w)
      else match pollAt s.steps c with
        | (some reason, c) => some (⟨.interrupted s.steps reason, s, c⟩, w)
        | (none, c) =>
          -- whether the writer can go on is not asked here
          let w := (writes i s.advance).foldl (Writer.write d) w
          match execute p labels i s.advance with
          | .running s => driveTo d p labels limit fuel c s w
          | .halted s => some (⟨.halted, s, c⟩, w)
          | .failed fault s => some (⟨.failed fault, s, c⟩, w)

/-- The report of a run whose output was refused for the given reason, or was not. An error of the
run itself goes before. -/
def reportWriting (failure : Option Bytes) (r : Report) : Report :=
  match failure, r.outcome with
  | some reason, .halted => { r with outcome := .writeFailed reason }
  | _, _ => r

/-- The end of a run, at which what is left of the output is handed on. -/
def conclude (d : Device) (r : Report × Writer) : Report × Writer :=
  (reportWriting (r.2.flush d).failure r.1, r.2.flush d)

/-- Runs a program from an empty state, with its output going to a device. -/
def runTo (fuel : Nat) (p : Program) (limit : Nat) (c : Context) (d : Device) :
    Option (Report × Writer) :=
  (driveTo d p p.labels limit fuel c {} {}).map (conclude d)

end Machine

end Scriptlet
