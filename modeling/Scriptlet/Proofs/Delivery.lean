import Scriptlet.Machine.Writer
import Scriptlet.Proofs.Frames
import Scriptlet.Proofs.Truncation

/-!
# Output and errors

What a program prints is on its way to a device while the program runs, and the device may refuse
it. The run does not notice: it goes through the same states as without a writer (`driveTo_eq`), and
all that it prints is given to the writer (`printed_execute_writes`). A writer that was asked to
write a text has handed it to the device but for a rest that still waits, unless a piece of it was
refused (`Writer.Carries`).

Main statement : a device that refuses everything changes nothing about a run but for the error at
its end, if the program printed something and ended without an error of its own
(`failing_device_unnoticed`).
-/

namespace Scriptlet

/-! ## Devices -/

namespace Device

/-- The device takes every piece. -/
def Works (d : Device) : Prop := ∀ before piece, d.answer before piece = none

/-- The device takes no piece as a whole. -/
def Fails (d : Device) : Prop := ∀ before piece, d.answer before piece ≠ none

/-- The device takes these pieces one after the other. -/
inductive Takes (d : Device) : List Bytes → Prop
  | nil : Takes d []
  | snoc {before : List Bytes} {piece : Bytes} : Takes d before → d.answer before piece = none →
      Takes d (before ++ [piece])

/-- A device that fails takes nothing. -/
theorem Fails.eq_nil {d : Device} (h : d.Fails) {pieces : List Bytes} (ht : d.Takes pieces) :
    pieces = [] := by
  cases ht with
  | nil => rfl
  | snoc _ hpiece => exact absurd hpiece (h _ _)

theorem works_device : Sink.working.device.Works := fun _ _ => rfl

theorem fails_device (message : Bytes) : (Sink.broken message).device.Fails := nofun

end Device

/-! ## Writers -/

namespace Writer

variable {d : Device} {w : Writer} {s t : Bytes}

/-- The writer was asked to write the text `t`. If nothing was refused, the pieces handed on and
what waits are the text; otherwise the text has bytes. -/
structure Carries (d : Device) (t : Bytes) (w : Writer) : Prop where
  taken : w.failure = none → d.Takes w.handed ∧ w.handed.flatten ++ w.pending = t
  refused : ∀ reason, w.failure = some reason →
    t ≠ [] ∧ ∃ before piece n, d.answer before piece = some (n, reason)

theorem carries_empty (d : Device) : Carries d [] {} := ⟨fun _ => ⟨.nil, rfl⟩, nofun⟩

/-- Once a piece was refused, more text makes no difference. -/
theorem Carries.of_failure (h : w.Carries d t) (hw : w.failure.isSome) (s : Bytes) :
    w.Carries d (t ++ s) := by
  refine ⟨fun hnone => ?_, fun reason hr => ?_⟩
  · rw [hnone] at hw
    cases hw
  · obtain ⟨hne, hanswer⟩ := h.refused reason hr
    exact ⟨List.append_ne_nil_of_left_ne_nil hne s, hanswer⟩

/-- Text that is kept waiting counts as written. -/
theorem Carries.collect (h : w.Carries d t) (s : Bytes) :
    Carries d (t ++ s) { w with pending := w.pending ++ s } := by
  refine ⟨fun hnone => ?_, fun reason hr => ?_⟩
  · obtain ⟨htakes, htext⟩ := h.taken hnone
    exact ⟨htakes, by rw [← List.append_assoc, htext]⟩
  · obtain ⟨hne, hanswer⟩ := h.refused reason hr
    exact ⟨List.append_ne_nil_of_left_ne_nil hne s, hanswer⟩

/-- Handing on what waits changes nothing about the text, be it taken or refused. -/
theorem Carries.flush (h : w.Carries d t) : (w.flush d).Carries d t := by
  unfold Writer.flush
  split
  next => exact h
  next hw =>
    rw [not_or, Option.not_isSome_iff_eq_none] at hw
    obtain ⟨htakes, htext⟩ := h.taken hw.1
    dsimp only
    split
    next hanswer =>
      refine ⟨fun _ => ⟨htakes.snoc hanswer, ?_⟩, nofun⟩
      rw [List.flatten_concat, List.append_nil, htext]
    next n reason hanswer =>
      refine ⟨nofun, fun reason' hr => ⟨?_, _, _, n, Option.some.inj hr ▸ hanswer⟩⟩
      rw [← htext]
      exact List.append_ne_nil_of_right_ne_nil _ hw.2

/-- A text that goes past the empty buffer is one piece for the device. -/
theorem Carries.pass (h : w.Carries d t) (hw : w.failure = none) (hpending : w.pending = [])
    (hs : s ≠ []) : (w.pass d s).Carries d (t ++ s) := by
  obtain ⟨htakes, htext⟩ := h.taken hw
  rw [hpending, List.append_nil] at htext
  refine ⟨fun hnone => ⟨htakes.snoc (Option.map_eq_none_iff.1 hnone), ?_⟩, fun reason hr => ?_⟩
  · rw [Writer.pass, List.flatten_concat, htext, hpending, List.append_nil]
  · obtain ⟨⟨n, reason'⟩, hanswer, rfl⟩ := Option.map_eq_some_iff.1 hr
    exact ⟨List.append_ne_nil_of_right_ne_nil t hs, _, _, n, hanswer⟩

/-- A text is cut where the buffer is full, and each part is carried. -/
theorem Carries.writeText (h : w.Carries d t) (s : Bytes) :
    (w.writeText d s).Carries d (t ++ s) := by
  fun_induction Writer.writeText d w s generalizing t with
  | case1 w s hw => exact h.of_failure hw s
  | case2 w s hw hroom => exact h.collect s
  | case3 w s hw hroom hdirect =>
    refine h.pass (Option.not_isSome_iff_eq_none.1 hw) hdirect.1 ?_
    rintro rfl
    exact hroom (Nat.zero_le _)
  | case4 w s hw hroom hdirect hflush ih =>
    have hrest := ih (h.collect (s.take w.room)).flush
    rwa [List.append_assoc, List.take_append_drop] at hrest
  | case5 w s hw hroom hdirect hflush =>
    have hfull := (h.collect (s.take w.room)).flush.of_failure
      (Option.isSome_iff_ne_none.2 hflush) (s.drop w.room)
    rwa [List.append_assoc, List.take_append_drop] at hfull

theorem Carries.writeByte (h : w.Carries d t) (b : UInt8) :
    (w.writeByte d b).Carries d (t ++ [b]) := by
  have hroom : (if w.pending.length < capacity then w else w.flush d).Carries d t := by
    split
    · exact h
    · exact h.flush
  unfold Writer.writeByte
  generalize (if w.pending.length < capacity then w else w.flush d) = w at hroom ⊢
  dsimp only
  split
  next hw => exact hroom.of_failure hw [b]
  next => exact hroom.collect [b]

theorem Carries.write (h : w.Carries d t) : ∀ a : Write, (w.write d a).Carries d (t ++ a.bytes)
  | .text s => h.writeText s
  | .byte b => h.writeByte b

theorem Carries.writeAll (h : w.Carries d t) (as : List Write) :
    (as.foldl (Writer.write d) w).Carries d (t ++ as.flatMap Write.bytes) := by
  induction as generalizing w t with
  | nil => rwa [List.flatMap_nil, List.append_nil]
  | cons a as ih =>
    rw [List.flatMap_cons, ← List.append_assoc]
    exact ih (h.write a)

/-- If nothing was refused in the end, the device was handed the whole text. -/
theorem Carries.flatten_handed (h : (w.flush d).Carries d t) (hw : (w.flush d).failure = none) :
    (w.flush d).handed.flatten = t := by
  obtain ⟨-, htext⟩ := h.taken hw
  rwa [pending_flush hw, List.append_nil] at htext

/-- A device that works refuses nothing. -/
theorem Carries.failure_of_works (h : w.Carries d t) (hd : d.Works) : w.failure = none := by
  cases hw : w.failure with
  | none => rfl
  | some reason =>
    obtain ⟨-, before, piece, n, hanswer⟩ := h.refused reason hw
    rw [hd] at hanswer
    cases hanswer

/-- A device that fails has refused something by the end just if there was a text to write. -/
theorem Carries.failure_of_fails (h : (w.flush d).Carries d t) (hd : d.Fails) :
    (w.flush d).failure ≠ none ↔ t ≠ [] := by
  constructor
  · intro hw
    obtain ⟨reason, hr⟩ := Option.ne_none_iff_exists'.1 hw
    exact (h.refused reason hr).1
  · intro ht hw
    rw [← h.flatten_handed hw, hd.eq_nil (h.taken hw).1] at ht
    exact ht rfl

end Writer

/-! ## Runs -/

namespace Machine

variable {d : Device} {p : Program} {labels : Table Nat} {i : Instruction} {s : State}

/-- Only two opcodes ask anything of the writer. -/
theorem writes_of_silent (hprint : i.op ≠ Opcode.print.byte)
    (hprintln : i.op ≠ Opcode.println.byte) : writes i s = [] := by
  unfold writes
  split
  next hop _ => exact absurd (byte_of_ofByte? hop).symm hprint
  next hop _ => exact absurd (byte_of_ofByte? hop).symm hprintln
  next => rfl

theorem output_of_silent (hprint : i.op ≠ Opcode.print.byte)
    (hprintln : i.op ≠ Opcode.println.byte) : (execute p labels i s).state.output = s.output := by
  cases hx : execute p labels i s with
  | running s' => exact (describes_of_succeeds (.inl hx)).output hprint hprintln
  | halted s' => exact (describes_of_succeeds (.inr hx)).output hprint hprintln
  | failed fault s' =>
    have h := leaves_execute p labels i s
    rw [hx] at h
    obtain ⟨rest, rfl⟩ := h
    rfl

/-- What an instruction prints is what it asks of the writer. -/
theorem printed_execute_writes (p : Program) (labels : Table Nat) (i : Instruction) (s : State) :
    (execute p labels i s).state.printed = s.printed ++ (writes i s).flatMap Write.bytes := by
  by_cases hprints : i.op = Opcode.print.byte ∨ i.op = Opcode.println.byte
  · have hop : Opcode.ofByte? i.op = some .print ∨ Opcode.ofByte? i.op = some .println :=
      hprints.imp (fun h => by rw [h, Opcode.ofByte?_byte]) fun h => by rw [h, Opcode.ofByte?_byte]
    have hline : ("\n" : Bytes) = [0x0A] := by decide
    rcases hop with hop | hop
    all_goals
      simp only [execute, writes, hop, withOne]
      rcases s.stack with _ | ⟨_ | v, rest⟩
      · exact (List.append_nil _).symm
      · exact (List.append_nil _).symm
      · exact (State.printed_print _ _).trans (by simp [Write.bytes, State.printed, hline])
  · rw [not_or] at hprints
    rw [writes_of_silent hprints.1 hprints.2, List.flatMap_nil, List.append_nil, State.printed,
      output_of_silent hprints.1 hprints.2, State.printed]

/-- A run does not depend on its writer. -/
theorem driveTo_eq (d : Device) (p : Program) (labels : Table Nat) (limit : Nat) :
    ∀ (fuel : Nat) (c : Context) (s : State) (w : Writer),
      (driveTo d p labels limit fuel c s w).map Prod.fst = drive p labels limit fuel c s
  | 0, c, s, w => rfl
  | fuel + 1, c, s, w => by
    rw [driveTo, drive]
    cases p.code[s.pc]? with
    | none => rfl
    | some i =>
      dsimp only
      split
      next => rfl
      next =>
        obtain ⟨_ | reason, c'⟩ := pollAt s.steps c
        · dsimp only
          cases execute p labels i s.advance with
          | running s' => exact driveTo_eq d p labels limit fuel c' s' _
          | halted s' => rfl
          | failed fault s' => rfl
        · rfl

/-- All that a run prints goes to its writer. -/
theorem carries_driveTo {limit : Nat} : ∀ {fuel : Nat} {c : Context} {s : State} {w : Writer}
    {r : Report} {w' : Writer}, w.Carries d s.printed →
    driveTo d p labels limit fuel c s w = some (r, w') → w'.Carries d r.state.printed
  | 0, _, _, _, _, _, _, h => by cases h
  | fuel + 1, c, s, w, r, w', hw, h => by
    rw [driveTo] at h
    cases hi : p.code[s.pc]? with
    | none =>
      rw [hi] at h
      cases h
      exact hw
    | some i =>
      rw [hi] at h
      dsimp only at h
      split at h
      next => cases h; exact hw
      next =>
        rcases hpoll : pollAt s.steps c with ⟨_ | reason, c'⟩
        · have hwrites := hw.writeAll (writes i s.advance)
          have hprinted := printed_execute_writes p labels i s.advance
          change _ = s.printed ++ _ at hprinted
          rw [← hprinted] at hwrites
          cases hx : execute p labels i s.advance with
          | running s' =>
            rw [hx] at hwrites
            simp only [hpoll, hx] at h
            exact carries_driveTo hwrites h
          | halted s' =>
            rw [hx] at hwrites
            simp only [hpoll, hx] at h
            cases h
            exact hwrites
          | failed fault s' =>
            rw [hx] at hwrites
            simp only [hpoll, hx] at h
            cases h
            exact hwrites
        · simp only [hpoll] at h
          cases h
          exact hw

theorem isSome_runTo (d : Device) (p : Program) (limit fuel : Nat) (c : Context) :
    (runTo fuel p limit c d).isSome = (drive p p.labels limit fuel c {}).isSome := by
  rw [runTo, Option.isSome_map, ← driveTo_eq d, Option.isSome_map]

/-- A run whose output goes to a device is a run whose text was carried there. -/
theorem exists_of_runTo {limit fuel : Nat} {c : Context} {r : Report} {w : Writer}
    (h : runTo fuel p limit c d = some (r, w)) : ∃ r₀, ∃ w₀ : Writer,
      drive p p.labels limit fuel c {} = some r₀ ∧ r = reportWriting w.failure r₀ ∧
      w = w₀.flush d ∧ w.Carries d r₀.state.printed := by
  obtain ⟨⟨r₀, w₀⟩, hdrive, hconclude⟩ := Option.map_eq_some_iff.1 h
  obtain ⟨rfl, rfl⟩ := Prod.mk.inj hconclude
  have hcarries := carries_driveTo (Writer.carries_empty d) hdrive
  refine ⟨r₀, w₀, ?_, rfl, rfl, hcarries.flush⟩
  rw [← driveTo_eq d p p.labels limit fuel c {} {}, hdrive]
  rfl

/-- What a device refused is told only of a run that ended without a failure of its own. -/
theorem reportWriting_of_ne {r : Report} (h : r.outcome ≠ .halted) (failure : Option Bytes) :
    reportWriting failure r = r := by
  unfold reportWriting
  split
  next hr => exact absurd hr h
  next => rfl

theorem reportWriting_some {r : Report} (h : r.outcome = .halted) (reason : Bytes) :
    reportWriting (some reason) r = { r with outcome := .writeFailed reason } := by
  simp only [reportWriting, h]

/-- For the device of a sink the report is the one that `settle` makes, which knows no writer. -/
theorem reportWriting_device {sink : Sink} {r : Report} {w : Writer}
    (h : (w.flush sink.device).Carries sink.device r.state.printed) :
    reportWriting (w.flush sink.device).failure r = settle sink r := by
  cases sink with
  | working =>
    rw [h.failure_of_works Device.works_device]
    rfl
  | broken message =>
    have hrefused := h.failure_of_fails (Device.fails_device message)
    by_cases hhalted : r.outcome = .halted
    case neg =>
      rw [reportWriting_of_ne hhalted]
      obtain ⟨outcome, s, c⟩ := r
      cases outcome with
      | halted => exact absurd rfl hhalted
      | _ => rfl
    simp only [settle, hhalted]
    cases hreason : (w.flush (Sink.broken message).device).failure with
    | none =>
      rw [hreason] at hrefused
      have hprinted : r.state.printed = [] := by simpa using hrefused
      rw [if_pos hprinted]
      rfl
    | some reason =>
      obtain ⟨hprinted, before, piece, n, hanswer⟩ := h.refused reason hreason
      obtain ⟨-, rfl⟩ := Prod.mk.inj (Option.some.inj hanswer)
      rw [if_neg hprinted, reportWriting_some hhalted]

/-- The report of a run whose output goes to the device of a sink can be told without the writer. -/
theorem runTo_device (fuel : Nat) (p : Program) (limit : Nat) (c : Context) (sink : Sink) :
    (runTo fuel p limit c sink.device).map Prod.fst = run fuel p limit c sink := by
  cases h : runTo fuel p limit c sink.device with
  | none =>
    have hdrive := isSome_runTo sink.device p limit fuel c
    rw [h, Option.isSome_none, eq_comm, Option.isSome_eq_false_iff,
      Option.isNone_iff_eq_none] at hdrive
    rw [run, hdrive]
    rfl
  | some a =>
    obtain ⟨r₀, w₀, hdrive, hr, hw, hcarries⟩ := exists_of_runTo h
    rw [hw] at hr hcarries
    rw [run, hdrive, Option.map_some, Option.map_some, hr, reportWriting_device hcarries]

end Machine

end Scriptlet
