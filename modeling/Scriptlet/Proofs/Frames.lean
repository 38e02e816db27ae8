import Scriptlet.Proofs.Depth

/-!
# The opcode table and the machine

The table of opcodes says of an instruction, without running it, whether there is such an
instruction, how many values it takes from the stack and how many it puts there, and whether it may
continue elsewhere. `Describes` is what this means for the states before and after the instruction :
all that the table does not mention stays as it was.

An instruction that succeeds does what the table says (`Effect.describes`). It lacks values just if
there are fewer than the table asks for (`failsBy_stackUnderflow_iff`), and it is unknown just if it
is not in the table (`failsBy_unknownOpcode_iff`).

Main statement : `table_describes_machine`.
-/

namespace Scriptlet.Machine

variable {p : Program} {labels : Table Nat} {i : Instruction} {s s' : State} {op : Opcode}

/-- The instruction broke the given rule. -/
def Step.FailsBy (cause : InternalCause) (step : Step) : Prop :=
  ∃ fault s, step = .failed (.internal fault) s ∧ fault.cause = cause

/-- The instruction did not fail, and leads to the state `s`. -/
def Step.Succeeds (s : State) (step : Step) : Prop := step = .running s ∨ step = .halted s

/-- What the table entry `info` says of the instruction, for the state `s` past it and the state
`s'` that it leads to. -/
structure Describes (info : Opcode.Info) (i : Instruction) (s s' : State) : Prop where
  stack : ∃ taken put below, s.stack = taken ++ below ∧ s'.stack = put ++ below ∧
    taken.length = info.pops ∧ put.length = info.pushes
  globals : i.op ≠ Opcode.storeGlobal.byte → s'.globals = s.globals
  others : ∀ name, name ≠ i.name → s'.globals.find? name = s.globals.find? name
  pc : Opcode.isJump i.op = false → s'.pc = s.pc
  output : i.op ≠ Opcode.print.byte → i.op ≠ Opcode.println.byte → s'.output = s.output

/-! ## Success -/

/-- An instruction that changes nothing but the stack. -/
theorem describes_of_stack {info : Opcode.Info} (taken put : List (Option Value))
    {below : List (Option Value)} (hs : s.stack = taken ++ below)
    (htaken : taken.length = info.pops) (hput : put.length = info.pushes) :
    Describes info i s { s with stack := put ++ below } where
  stack := ⟨taken, put, below, hs, rfl, htaken, hput⟩
  globals _ := rfl
  others _ _ := rfl
  pc _ := rfl
  output _ _ := rfl

/-- An instruction with one of the listed effects does what the table says. -/
theorem Effect.describes (hop : Opcode.ofByte? i.op = some op) (h : Effect labels i s op s') :
    Describes op.info i s s' := by
  have hbyte := byte_of_ofByte? hop
  cases h with
  | label => exact describes_of_stack [] [] rfl rfl rfl
  | push => exact describes_of_stack [] [i.arg] rfl rfl rfl
  | @load v _ => exact describes_of_stack [] [v] rfl rfl rfl
  | @pop v rest hs => exact describes_of_stack [v] [] hs rfl rfl
  | @pass v rest hs _ => exact describes_of_stack [v] [] hs rfl rfl
  | @negate a v rest hs _ => exact describes_of_stack [some a] [some v] hs rfl rfl
  | @binary _ a b v rest hpops hs _ =>
    have hpushes : op.info.pushes = 1 := by
      cases op <;> first
        | rfl
        | cases hpops
    exact describes_of_stack [some b, some a] [some v] hs hpops.symm hpushes.symm
  | @print v rest hs =>
    have hstack := @describes_of_stack i s Opcode.print.info [some v] [] rest hs rfl rfl
    exact { hstack with output := fun hprint => absurd hbyte.symm hprint }
  | @println v rest hs =>
    have hstack := @describes_of_stack i s Opcode.println.info [some v] [] rest hs rfl rfl
    exact { hstack with output := fun _ hprintln => absurd hbyte.symm hprintln }
  | @store v rest hs =>
    have hstack := @describes_of_stack i s Opcode.storeGlobal.info [v] [] rest hs rfl rfl
    refine { hstack with globals := fun hstore => absurd hbyte.symm hstore, others := ?_ }
    intro name hname
    rw [Table.find?_insert, if_neg hname]
  | @jump target _ =>
    have hstack := @describes_of_stack i s Opcode.jump.info [] [] s.stack rfl rfl rfl
    exact { hstack with pc := fun hjump => by rw [← hbyte] at hjump; cases hjump }
  | @jumpZero v rest target hs _ _ =>
    have hstack := @describes_of_stack i s Opcode.jumpZero.info [v] [] rest hs rfl rfl
    exact { hstack with pc := fun hjump => by rw [← hbyte] at hjump; cases hjump }

theorem info_of_ofByte? (hop : Opcode.ofByte? i.op = some op) : i.info = op.info := by
  simp only [Instruction.info, Opcode.infoOfByte, hop]

/-- An instruction that succeeds does what the table says. -/
theorem describes_of_succeeds (h : (execute p labels i s).Succeeds s') :
    Describes i.info i s s' := by
  cases hop : Opcode.ofByte? i.op with
  | none => simp [Step.Succeeds, execute, hop] at h
  | some op =>
    rw [info_of_ofByte? hop]
    rcases h with h | h
    · exact (effect_of_running hop h).describes hop
    · obtain ⟨rfl, rfl⟩ := halt_of_halted hop h
      exact describes_of_stack [] [] rfl rfl rfl

/-! ## Failure -/

/-- Too few values are an error, whichever they are. -/
theorem failsBy_of_short (h : s.stack.length < i.info.pops) :
    (execute p labels i s).FailsBy .stackUnderflow := by
  cases hop : Opcode.ofByte? i.op with
  | none => simp [Instruction.info, Opcode.infoOfByte, hop] at h
  | some op =>
    have hsucceeds : ∀ s', ¬(execute p labels i s).Succeeds s' := fun s' hs' => by
      obtain ⟨taken, put, below, hs, -, htaken, -⟩ := (describes_of_succeeds hs').stack
      rw [hs, List.length_append, htaken] at h
      omega
    cases hx : execute p labels i s with
    | running s' => exact absurd (.inl hx) (hsucceeds s')
    | halted s' => exact absurd (.inr hx) (hsucceeds s')
    | failed fault s' =>
      rw [info_of_ofByte? hop] at h
      rcases (breakdown_of_failed hop hx).enough with henough | ⟨f, rfl, hcause⟩
      · omega
      · exact ⟨f, s', rfl, hcause⟩

/-- How a known instruction breaks a rule. -/
theorem cases_of_failsBy {cause : InternalCause} (hop : Opcode.ofByte? i.op = some op)
    (h : (execute p labels i s).FailsBy cause) : cause ≠ .unknownOpcode ∧
      (cause = .stackUnderflow → s.stack.length < op.info.pops) := by
  obtain ⟨fault, s', hfailed, rfl⟩ := h
  cases (breakdown_of_failed hop hfailed).mishap with
  | underflow hlt hcause => exact ⟨hcause ▸ nofun, fun _ => hlt⟩
  | label _ _ hcause => exact ⟨hcause ▸ nofun, hcause ▸ nofun⟩
  | global _ hcause => exact ⟨hcause ▸ nofun, hcause ▸ nofun⟩

theorem failsBy_unknownOpcode_iff :
    (execute p labels i s).FailsBy .unknownOpcode ↔ Opcode.isValid i.op = false := by
  rw [Opcode.isValid, Option.isSome_eq_false_iff, Option.isNone_iff_eq_none]
  constructor
  · intro h
    cases hop : Opcode.ofByte? i.op with
    | none => rfl
    | some op => exact absurd rfl (cases_of_failsBy hop h).1
  · exact fun hop => ⟨_, s, execute_unknown hop, rfl⟩

theorem failsBy_stackUnderflow_iff :
    (execute p labels i s).FailsBy .stackUnderflow ↔ s.stack.length < i.info.pops := by
  refine ⟨fun h => ?_, failsBy_of_short⟩
  cases hop : Opcode.ofByte? i.op with
  | none =>
    obtain ⟨fault, s', hfailed, hcause⟩ := h
    obtain ⟨hfault, -⟩ := Step.failed.inj ((execute_unknown hop).symm.trans hfailed)
    obtain rfl := Fault.internal.inj hfault
    cases hcause
  | some op =>
    rw [info_of_ofByte? hop]
    exact (cases_of_failsBy hop h).2 rfl

/-! ## Agreement -/

/-- The table of opcodes describes the machine. In every state, with whatever labels, an instruction
is unknown to the machine just if it is not in the table, and lacks values just if there are fewer
on the stack than the table says it takes. If it succeeds, it takes so many values from the top of
the stack, puts so many there as the table says, and leaves those below as they were; it changes no
variable unless it stores one, and then none but that of its name; it goes on with the next
instruction unless the table calls it a jump; and it prints nothing unless it is one of the two that
print. -/
theorem table_describes_machine (p : Program) (labels : Table Nat) (i : Instruction) (s : State) :
    ((execute p labels i s).FailsBy .unknownOpcode ↔ Opcode.isValid i.op = false) ∧
    ((execute p labels i s).FailsBy .stackUnderflow ↔ s.stack.length < i.info.pops) ∧
    ∀ s', (execute p labels i s).Succeeds s' → Describes i.info i s s' :=
  ⟨failsBy_unknownOpcode_iff, failsBy_stackUnderflow_iff, fun _ => describes_of_succeeds⟩

theorem table_describes_machine_of_store :
    let i := Instruction.storeGlobal "x"
    let s : State := { stack := [some (.bool true), none] }
    let s' : State := { stack := [none], globals := .insert .empty "x" (some (.bool true)) }
    (execute {} .empty i s).Succeeds s' ∧ Describes i.info i s s' := by
  intro i s s'
  have h : (execute {} .empty i s).Succeeds s' := .inl rfl
  exact ⟨h, (table_describes_machine {} .empty i s).2.2 s' h⟩

end Scriptlet.Machine
