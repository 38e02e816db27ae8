import Scriptlet.Machine.Step

/-!
# What an instruction can do

`Effect` lists what an instruction may change when it lets the run go on, and `Mishap` how it may
fail. `Breakdown` adds what a failed instruction tells of itself and what it leaves. `Leads` puts
these together : it says what the step of an instruction can be.

All invariants of runs follow from one look at each opcode (`leads_execute`), by
`effect_of_running`, `breakdown_of_failed` and `halt_of_halted`, without another look at `execute`.
-/

namespace Scriptlet

/-- What a fault of the instruction `i` at the place `pc` tells. -/
def Fault.Tells (p : Program) (i : Instruction) (pc : Nat) : Fault → Prop
  | .runtime fault => fault.op = i.op ∧ fault.pc = pc ∧ fault.line = p.lineOf (pc : Int)
  | .internal fault => fault.op = i.op ∧ fault.pc = pc
  | .absentValue => True

namespace Machine

variable {p : Program} {labels : Table Nat} {i : Instruction} {s s' : State} {op : Opcode}

/-- The instruction with opcode `op` leads from the state `s` past it to another state. -/
inductive Effect (labels : Table Nat) (i : Instruction) (s : State) : Opcode → State → Prop
  | label : Effect labels i s .label s
  | push : Effect labels i s .push (s.push i.arg)
  | pop {v : Option Value} {rest : List (Option Value)} : s.stack = v :: rest →
      Effect labels i s .pop { s with stack := rest }
  | negate {a v : Value} {rest : List (Option Value)} : s.stack = some a :: rest →
      Operator.negate a = .ok v → Effect labels i s .neg ({ s with stack := rest }.push (some v))
  | binary {op : Opcode} {a b v : Value} {rest : List (Option Value)} : op.info.pops = 2 →
      s.stack = some b :: some a :: rest → Operator.binary op a b = .ok v →
      Effect labels i s op ({ s with stack := rest }.push (some v))
  | print {v : Value} {rest : List (Option Value)} : s.stack = some v :: rest →
      Effect labels i s .print ({ s with stack := rest }.print (Escape.decode v.text))
  | println {v : Value} {rest : List (Option Value)} : s.stack = some v :: rest →
      Effect labels i s .println ({ s with stack := rest }.print (Escape.decode v.text ++ "\n"))
  | jump {target : Nat} : labels.find? i.name = some target →
      Effect labels i s .jump { s with pc := target }
  | jumpZero {v : Option Value} {rest : List (Option Value)} {target : Nat} :
      s.stack = v :: rest → isFalsy v = true → labels.find? i.name = some target →
      Effect labels i s .jumpZero { s with stack := rest, pc := target }
  | pass {v : Option Value} {rest : List (Option Value)} : s.stack = v :: rest →
      isFalsy v = false → Effect labels i s .jumpZero { s with stack := rest }
  | store {v : Option Value} {rest : List (Option Value)} : s.stack = v :: rest →
      Effect labels i s .storeGlobal { s with stack := rest, globals := s.globals.insert i.name v }
  | load {v : Option Value} : s.globals.find? i.name = some v →
      Effect labels i s .loadGlobal (s.push v)

/-- The instruction with opcode `op` fails in the state `s` past it. -/
inductive Mishap (labels : Table Nat) (i : Instruction) (s : State) : Opcode → Fault → Prop
  | underflow {op : Opcode} {fault : InternalFault} : s.stack.length < op.info.pops →
      fault.cause = .stackUnderflow → Mishap labels i s op (.internal fault)
  | absent {op : Opcode} : none ∈ s.stack → Mishap labels i s op .absentValue
  | operator {op : Opcode} {fault : RuntimeFault} : Mishap labels i s op (.runtime fault)
  | label {op : Opcode} {fault : InternalFault} : Opcode.isJump op.byte = true →
      labels.find? i.name = none → fault.cause = .undefinedLabel →
      Mishap labels i s op (.internal fault)
  | global {fault : InternalFault} : s.globals.find? i.name = none →
      fault.cause = .undefinedGlobal → Mishap labels i s .loadGlobal (.internal fault)

/-- The instruction with opcode `op` fails in the state `s` past it, and leaves the state `s'`. It
has taken some operands by then, and changed nothing else. -/
structure Breakdown (p : Program) (labels : Table Nat) (i : Instruction) (s : State) (op : Opcode)
    (fault : Fault) (s' : State) : Prop where
  mishap : Mishap labels i s op fault
  enough : op.info.pops ≤ s.stack.length ∨ ∃ f, fault = .internal f ∧ f.cause = .stackUnderflow
  operator : ∀ f, fault = .runtime f → op = .neg ∨ op.info.pops = 2
  tells : fault.Tells p i (s.pc - 1)
  leaves : ∃ rest, List.IsSuffix rest s.stack ∧ s' = { s with stack := rest }

/-- What the instruction with opcode `op` can lead to from the state `s` past it. -/
inductive Leads (p : Program) (labels : Table Nat) (i : Instruction) (s : State) (op : Opcode) :
    Step → Prop
  | running {s' : State} : Effect labels i s op s' → Leads p labels i s op (.running s')
  | halted : op = .halt → Leads p labels i s op (.halted s)
  | failed {fault : Fault} {s' : State} : Breakdown p labels i s op fault s' →
      Leads p labels i s op (.failed fault s')

/-! ## The parts of an instruction -/

section Parts

variable {rest : List (Option Value)}

theorem leads_underflow (h : s.stack.length < op.info.pops) (hrest : List.IsSuffix rest s.stack) :
    Leads p labels i s op
      (.failed (internalFault i s [] .stackUnderflow) { s with stack := rest }) :=
  .failed ⟨.underflow h rfl, .inr ⟨_, rfl, rfl⟩, nofun, ⟨rfl, rfl⟩, rest, hrest, rfl⟩

theorem leads_absent (hpops : op.info.pops ≤ s.stack.length) (h : none ∈ s.stack)
    (hrest : List.IsSuffix rest s.stack) :
    Leads p labels i s op (.failed .absentValue { s with stack := rest }) :=
  .failed ⟨.absent h, .inl hpops, nofun, trivial, rest, hrest, rfl⟩

theorem leads_withOne (hpops : 0 < op.info.pops) {k : Option Value → State → Step}
    (hk : ∀ v rest, s.stack = v :: rest → Leads p labels i s op (k v { s with stack := rest })) :
    Leads p labels i s op (withOne i s k) := by
  unfold withOne
  split
  next hs => exact leads_underflow (by rw [hs]; exact hpops) List.suffix_rfl
  next v rest hs => exact hk v rest hs

theorem leads_withValue (hpops : op.info.pops = 1) {k : Value → State → Step}
    (hk : ∀ v rest, s.stack = some v :: rest →
      Leads p labels i s op (k v { s with stack := rest })) :
    Leads p labels i s op (withOne i s fun v s =>
      match v with
      | some v => k v s
      | none => .failed .absentValue s) := by
  refine leads_withOne (by omega) fun v rest hs => ?_
  cases v with
  | none =>
    exact leads_absent (by rw [hs, hpops]; exact Nat.succ_pos _) (by simp [hs])
      (hs ▸ List.suffix_cons none rest)
  | some v => exact hk v rest hs

theorem leads_withTwo (hpops : op.info.pops = 2) {k : Option Value → Option Value → State → Step}
    (hk : ∀ a b rest, s.stack = b :: a :: rest →
      Leads p labels i s op (k a b { s with stack := rest })) :
    Leads p labels i s op (withTwo i s k) := by
  refine leads_withOne (by omega) fun b rest hb => ?_
  unfold withOne
  split
  next hs =>
    obtain rfl : rest = [] := hs
    exact leads_underflow (by rw [hb, hpops]; exact Nat.one_lt_two) (List.nil_suffix)
  next a rest' hs =>
    obtain rfl : rest = a :: rest' := hs
    exact hk a b rest' hb

theorem leads_finish (hop : op = .neg ∨ op.info.pops = 2) (hpops : op.info.pops ≤ s.stack.length)
    (hrest : List.IsSuffix rest s.stack) {kinds : List ValueKind}
    {result : Except RuntimeCause Value}
    (hvalue : ∀ v, result = .ok v →
      Effect labels i s op ({ s with stack := rest }.push (some v))) :
    Leads p labels i s op (finish p i { s with stack := rest } kinds result) := by
  cases result with
  | ok v => exact .running (hvalue v rfl)
  | error cause =>
    exact .failed ⟨.operator, .inl hpops, fun _ _ => hop, ⟨rfl, rfl, rfl⟩, rest, hrest, rfl⟩

theorem leads_jump (hop : Opcode.isJump op.byte = true) (hpops : op.info.pops ≤ s.stack.length)
    (hrest : List.IsSuffix rest s.stack)
    (htarget : ∀ target, labels.find? i.name = some target →
      Effect labels i s op { s with stack := rest, pc := target }) :
    Leads p labels i s op (Machine.jump labels i { s with stack := rest }) := by
  unfold Machine.jump
  split
  next target ht => exact .running (htarget target ht)
  next ht =>
    exact .failed ⟨.label hop ht rfl, .inl hpops, nofun, ⟨rfl, rfl⟩, rest, hrest, rfl⟩

theorem execute_binary (hop : Opcode.ofByte? i.op = some op) (h : op.info.pops = 2) :
    execute p labels i s = withTwo i s fun a b s =>
      match a, b with
      | some a, some b => finish p i s [a.kind, b.kind] (Operator.binary op a b)
      | _, _ => .failed .absentValue s := by
  simp only [execute, hop]
  cases op <;> first
    | exact absurd h (by decide)
    | rfl

end Parts

theorem execute_unknown (hop : Opcode.ofByte? i.op = none) :
    execute p labels i s = .failed (internalFault i s i.name .unknownOpcode) s := by
  simp only [execute, hop]

/-! ## Instructions -/

/-- A binary operator takes two values before it looks at them. -/
theorem leads_binary (hop : Opcode.ofByte? i.op = some op) (hpops : op.info.pops = 2) :
    Leads p labels i s op (execute p labels i s) := by
  rw [execute_binary hop hpops]
  refine leads_withTwo hpops fun a b rest hs => ?_
  have henough : op.info.pops ≤ s.stack.length := by rw [hs, hpops]; simp
  have hrest : List.IsSuffix rest s.stack := hs ▸ ⟨[b, a], rfl⟩
  rcases a with _ | a
  · exact leads_absent henough (by simp [hs]) hrest
  rcases b with _ | b
  · exact leads_absent henough (by simp [hs]) hrest
  · exact leads_finish (.inr hpops) henough hrest fun v hv => .binary hpops hs hv

/-- What each instruction can lead to. -/
theorem leads_execute (hop : Opcode.ofByte? i.op = some op) :
    Leads p labels i s op (execute p labels i s) := by
  by_cases hpops : op.info.pops = 2
  · exact leads_binary hop hpops
  have htaken {v : Option Value} {rest : List (Option Value)} (hs : s.stack = v :: rest) :
      1 ≤ s.stack.length ∧ List.IsSuffix rest s.stack := by
    rw [hs]
    exact ⟨Nat.succ_pos _, List.suffix_cons v rest⟩
  simp only [execute, hop]
  cases op with
  | label => exact .running .label
  | push => exact .running .push
  | halt => exact .halted rfl
  | pop => exact leads_withOne (by decide) fun v rest hs => .running (.pop hs)
  | storeGlobal => exact leads_withOne (by decide) fun v rest hs => .running (.store hs)
  | neg =>
    refine leads_withValue rfl fun v rest hs => ?_
    obtain ⟨henough, hrest⟩ := htaken hs
    exact leads_finish (.inl rfl) henough hrest fun w hw => .negate hs hw
  | print => exact leads_withValue rfl fun v rest hs => .running (.print hs)
  | println => exact leads_withValue rfl fun v rest hs => .running (.println hs)
  | loadGlobal =>
    dsimp only
    split
    next v hv => exact .running (.load hv)
    next hv =>
      exact .failed
        ⟨.global hv rfl, .inl (Nat.zero_le _), nofun, ⟨rfl, rfl⟩, _, List.suffix_rfl, rfl⟩
  | jump => exact leads_jump rfl (Nat.zero_le _) List.suffix_rfl fun target ht => .jump ht
  | jumpZero =>
    refine leads_withOne (by decide) fun v rest hs => ?_
    obtain ⟨henough, hrest⟩ := htaken hs
    split
    next hv => exact leads_jump rfl henough hrest fun target ht => .jumpZero hs hv ht
    next hv => exact .running (.pass hs (by simpa using hv))
  | _ => exact absurd rfl hpops

/-! ## Inversion -/

/-- An instruction that lets the run go on has one of the listed effects. -/
theorem effect_of_running (hop : Opcode.ofByte? i.op = some op)
    (h : execute p labels i s = .running s') : Effect labels i s op s' := by
  have hleads : Leads p labels i s op (execute p labels i s) := leads_execute hop
  rw [h] at hleads
  cases hleads with
  | running heffect => exact heffect

/-- An instruction that fails tells how, and leaves what was there less some operands. -/
theorem breakdown_of_failed {fault : Fault} (hop : Opcode.ofByte? i.op = some op)
    (h : execute p labels i s = .failed fault s') : Breakdown p labels i s op fault s' := by
  have hleads : Leads p labels i s op (execute p labels i s) := leads_execute hop
  rw [h] at hleads
  cases hleads with
  | failed hbreak => exact hbreak

/-- A failed instruction, known or not, tells what it is and where, and leaves what was there less
some operands. -/
theorem tells_and_leaves_of_failed {fault : Fault} (h : execute p labels i s = .failed fault s') :
    fault.Tells p i (s.pc - 1) ∧
      ∃ rest, List.IsSuffix rest s.stack ∧ s' = { s with stack := rest } := by
  cases hop : Opcode.ofByte? i.op with
  | none =>
    obtain ⟨rfl, rfl⟩ := Step.failed.inj ((execute_unknown hop).symm.trans h)
    exact ⟨⟨rfl, rfl⟩, s.stack, List.suffix_rfl, rfl⟩
  | some op =>
    have hbreak := breakdown_of_failed hop h
    exact ⟨hbreak.tells, hbreak.leaves⟩

/-- One opcode ends a run, and it changes nothing. -/
theorem halt_of_halted (hop : Opcode.ofByte? i.op = some op)
    (h : execute p labels i s = .halted s') : op = .halt ∧ s' = s := by
  have hleads : Leads p labels i s op (execute p labels i s) := leads_execute hop
  rw [h] at hleads
  cases hleads with
  | halted hhalt => exact ⟨hhalt, rfl⟩

end Machine

end Scriptlet
