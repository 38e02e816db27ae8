import Scriptlet.Proofs.Depth
import Scriptlet.Program.Verify

/-!
# Verified programs

`Program.WellFormed` states the rules of programs without a look at how they are checked, and a
program has no problem exactly if it keeps them (`verifyMessage?_eq_none_iff`). Nothing is said
about the stack : a verified program may take more values than there are, and read variables that
were never given a value.

`Secure` is the invariant of the runs of a verified program : the place is inside the code, and no
value on the stack or in a variable is absent. A turn keeps it (`secure_of_turn`) or fails in one of
the ways that are left (`fault_of_secure`).

Main statement : `verify_sound`.
-/

namespace Scriptlet

/-! ## The rules of programs -/

/-- The opcodes whose instructions carry a name. -/
def Opcode.named : List Opcode := [label, jump, jumpZero, loadGlobal, storeGlobal]

/-- The rules of programs. -/
structure Program.WellFormed (p : Program) : Prop where
  /-- Every opcode is one of the instruction set. -/
  known : ∀ i ∈ p.code.toList, ∃ op : Opcode, i.op = op.byte
  /-- Every literal has a value. -/
  valued : ∀ i ∈ p.code.toList, i.op = Opcode.push.byte → i.arg ≠ none
  /-- Labels, jumps and variables have names. -/
  named : ∀ i ∈ p.code.toList, i.op ∈ Opcode.named.map Opcode.byte → i.name ≠ []
  /-- No label is defined twice. -/
  distinct : (labelNames p.code.toList).Nodup
  /-- Every jump leads to a label. -/
  closed : ∀ i ∈ p.code.toList, i.op = Opcode.jump.byte ∨ i.op = Opcode.jumpZero.byte →
    i.name ∈ labelNames p.code.toList
  /-- The last instruction ends the run. -/
  ended : ∃ i, p.code.back? = some i ∧ i.op = Opcode.halt.byte

namespace Program

theorem operandProblems_eq_nil_iff (i : Instruction) : operandProblems i = [] ↔
    (∃ op : Opcode, i.op = op.byte) ∧ (i.op = Opcode.push.byte → i.arg ≠ none) ∧
      (i.op ∈ Opcode.named.map Opcode.byte → i.name ≠ []) := by
  cases h : Opcode.ofByte? i.op with
  | none =>
    have hop : ¬∃ op : Opcode, i.op = op.byte := by
      rintro ⟨op, hop⟩
      rw [hop, Opcode.ofByte?_byte] at h
      cases h
    simp [operandProblems, h, hop]
  | some op =>
    have hbyte : i.op = op.byte := (byte_of_ofByte? h).symm
    rw [operandProblems, hbyte, Opcode.ofByte?_byte]
    have hknown : ∃ op' : Opcode, op.byte = op'.byte := ⟨op, rfl⟩
    rw [and_iff_right hknown]
    cases op <;> simp [Opcode.info, Opcode.named, Opcode.byte, Option.isNone_iff_eq_none]

/-- An instruction with its operand defines a label if its opcode does. -/
theorem definesLabel_iff {i : Instruction} (h : operandProblems i = []) :
    definesLabel i = true ↔ i.op = Opcode.label.byte := by
  have hnamed := ((operandProblems_eq_nil_iff i).1 h).2.2
  rw [definesLabel, Bool.and_eq_true, beq_iff_eq, bne_iff_ne, and_iff_left_iff_imp]
  intro hop
  exact hnamed (by rw [hop]; decide)

/-- The operands are complete, and no label is defined twice or once more than before. -/
theorem definitionProblems_eq_nil_iff : ∀ (defined : Table Nat) (pc : Nat)
    (code : List Instruction), definitionProblems defined pc code = [] ↔
      (∀ i ∈ code, operandProblems i = []) ∧ (labelNames code).Nodup ∧
        ∀ name ∈ labelNames code, defined.find? name = none
  | _, _, [] => by simp [definitionProblems]
  | defined, pc, i :: rest => by
    rw [definitionProblems, List.append_eq_nil_iff, List.map_eq_nil_iff, List.append_eq_nil_iff,
      definitionProblems_eq_nil_iff, List.forall_mem_cons]
    by_cases hi : operandProblems i = []
    · by_cases hop : i.op = Opcode.label.byte
      · have hdef : definesLabel i = true := (definesLabel_iff hi).2 hop
        have hfresh : ∀ name ∈ labelNames rest, (defined.insert i.name pc).find? name = none ↔
            name ≠ i.name ∧ defined.find? name = none := by
          intro name _
          rw [Table.find?_insert]
          by_cases hname : name = i.name <;> simp [hname]
        simp only [hi, hdef, if_true, labelNames_cons, if_pos hop, List.nodup_cons,
          List.forall_mem_cons, forall₂_congr hfresh, true_and]
        simp only [Option.toList_eq_nil_iff, Option.map_eq_none_iff]
        grind
      · have hdef : definesLabel i = false := by
          rw [← Bool.not_eq_true, definesLabel_iff hi]
          exact hop
        simp [hi, hdef, labelNames_cons, hop]
    · simp [hi]

theorem jumpProblems_eq_nil_iff (defined : Table Nat) : ∀ (pc : Nat) (code : List Instruction),
    jumpProblems defined pc code = [] ↔
      ∀ i ∈ code, Opcode.isJump i.op = true → i.name ≠ [] → defined.contains i.name = true
  | _, [] => by simp [jumpProblems]
  | pc, i :: rest => by
    rw [jumpProblems, List.append_eq_nil_iff, jumpProblems_eq_nil_iff, List.forall_mem_cons]
    refine and_congr_left' ?_
    split
    next h => simp_all
    next h => simp_all

theorem contains_labelsFrom (name : Bytes) : ∀ (t : Table Nat) (pc : Nat)
    (code : List Instruction), (labelsFrom t pc code).contains name = true ↔
      name ∈ labelNames code ∨ t.contains name = true
  | _, _, [] => by simp [labelsFrom]
  | t, pc, i :: rest => by
    rw [labelsFrom, contains_labelsFrom, labelNames_cons]
    split
    next hop =>
      by_cases hname : name = i.name <;> simp [Table.contains, hname]
    next hop => rfl

/-- A name is in the table of labels if some label has it. -/
theorem contains_labels (p : Program) (name : Bytes) :
    p.labels.contains name = true ↔ name ∈ labelNames p.code.toList := by
  rw [labels, contains_labelsFrom]
  simp [Table.contains]

theorem endsWithHalt_iff (p : Program) :
    p.endsWithHalt = true ↔ ∃ i, p.code.back? = some i ∧ i.op = Opcode.halt.byte := by
  rw [endsWithHalt]
  cases p.code.back? <;> simp

theorem isJump_iff (b : UInt8) :
    Opcode.isJump b = true ↔ b = Opcode.jump.byte ∨ b = Opcode.jumpZero.byte := by
  simp [Opcode.isJump]

theorem problems_eq_nil_iff (p : Program) : p.problems = [] ↔ p.WellFormed := by
  have hlast : (if p.endsWithHalt then [] else [(p.code.size, Problem.missingHalt)]) = [] ↔
      ∃ i, p.code.back? = some i ∧ i.op = Opcode.halt.byte := by
    rw [← endsWithHalt_iff]
    cases p.endsWithHalt <;> simp
  have hcontains : ∀ name : Bytes, name ≠ [] → ((p.labels.erase []).contains name = true ↔
      name ∈ labelNames p.code.toList) := by
    intro name hname
    rw [← contains_labels, Table.contains, Table.find?_erase, if_neg hname]
    rfl
  rw [problems, List.append_eq_nil_iff, List.append_eq_nil_iff, definitionProblems_eq_nil_iff,
    jumpProblems_eq_nil_iff, hlast]
  constructor
  · rintro ⟨⟨⟨hoperands, hnodup, -⟩, hjumps⟩, hended⟩
    have hoperand := fun i hi => (operandProblems_eq_nil_iff i).1 (hoperands i hi)
    refine ⟨fun i hi => (hoperand i hi).1, fun i hi => (hoperand i hi).2.1,
      fun i hi => (hoperand i hi).2.2, hnodup, fun i hi hop => ?_, hended⟩
    have hmem : i.op ∈ Opcode.named.map Opcode.byte := by
      rcases hop with hop | hop <;> simp [hop, Opcode.named]
    have hname : i.name ≠ [] := (hoperand i hi).2.2 hmem
    exact (hcontains _ hname).1 (hjumps i hi ((isJump_iff _).2 hop) hname)
  · intro h
    have hoperands : ∀ i ∈ p.code.toList, operandProblems i = [] := fun i hi =>
      (operandProblems_eq_nil_iff i).2 ⟨h.known i hi, h.valued i hi, h.named i hi⟩
    refine ⟨⟨⟨hoperands, h.distinct, fun _ _ => Table.find?_empty _⟩, fun i hi hjump hname => ?_⟩,
      h.ended⟩
    exact (hcontains _ hname).2 (h.closed i hi ((isJump_iff _).1 hjump))

/-- A program passes its check if it keeps the rules. -/
theorem verifyMessage?_eq_none_iff (p : Program) : p.verifyMessage? = none ↔ p.WellFormed := by
  rw [← problems_eq_nil_iff, verifyMessage?]
  split <;> simp_all

end Program

/-! ## Runs of verified programs -/

/-- The ways in which a run of a verified program can fail : by an operator, by a stack without
enough values or by a variable without a value. -/
def Fault.Possible (fault : Fault) : Prop :=
  (∃ f, fault = .runtime f) ∨
    ∃ f, fault = .internal f ∧ (f.cause = .stackUnderflow ∨ f.cause = .undefinedGlobal)

namespace Machine

variable {p : Program} {s s' : State}

/-- What a failed instruction leaves is what was there, less some operands. -/
def Step.Shrinks (s : State) : Step → Prop
  | .failed _ s' => List.IsSuffix s'.stack s.stack ∧ s'.globals = s.globals
  | _ => True

/-- An instruction that fails has taken some operands and changed nothing else. -/
theorem shrinks_execute {labels : Table Nat} {i : Instruction} :
    (execute p labels i s).Shrinks s := by
  cases h : execute p labels i s with
  | running _ => trivial
  | halted _ => trivial
  | failed fault s' =>
    obtain ⟨-, rest, hrest, rfl⟩ := tells_and_leaves_of_failed h
    exact ⟨hrest, rfl⟩

/-- No value on the stack or in a variable is absent. -/
structure Present (s : State) : Prop where
  stack : none ∉ s.stack
  globals : ∀ name, s.globals.find? name ≠ some none

/-- The invariant of the runs of a verified program. -/
structure Secure (p : Program) (s : State) : Prop extends Present s where
  inside : s.pc < p.code.size

theorem Present.of_suffix (h : Present s) (hstack : List.IsSuffix s'.stack s.stack)
    (hglobals : s'.globals = s.globals) : Present s' where
  stack := fun hmem => h.stack (hstack.mem hmem)
  globals := hglobals ▸ h.globals

/-- A state with a value on what is left of the stack. -/
theorem Present.push (h : Present s) {v : Value} (hstack : ∃ top rest, s.stack = top ++ rest ∧
    s'.stack = some v :: rest) (hglobals : s'.globals = s.globals) : Present s' where
  stack := by
    obtain ⟨top, rest, hs, hs'⟩ := hstack
    rw [hs', List.mem_cons, not_or]
    refine ⟨by simp, fun hmem => h.stack ?_⟩
    rw [hs]
    exact List.mem_append_right top hmem
  globals := hglobals ▸ h.globals

end Machine

namespace Program.WellFormed

variable {p : Program} (h : p.WellFormed)

include h

theorem size_pos : 0 < p.code.size := by
  obtain ⟨i, hi, -⟩ := h.ended
  rw [Array.back?] at hi
  obtain ⟨hlt, -⟩ := Array.getElem?_eq_some_iff.1 hi
  omega

/-- Past an instruction that does not end the run there is another one. -/
theorem succ_lt {pc : Nat} {i : Instruction} (hi : p.code[pc]? = some i)
    (hop : i.op ≠ Opcode.halt.byte) : pc + 1 < p.code.size := by
  obtain ⟨last, hlast, hhalt⟩ := h.ended
  obtain ⟨hlt, -⟩ := Array.getElem?_eq_some_iff.1 hi
  rw [Array.back?] at hlast
  rcases Nat.lt_or_ge (pc + 1) p.code.size with hnext | hnext
  · exact hnext
  obtain rfl : pc = p.code.size - 1 := by omega
  obtain rfl : i = last := Option.some.inj (hi.symm.trans hlast)
  exact absurd hhalt hop

/-- The target of a jump is inside the code. -/
theorem target_lt {pc target : Nat} {i : Instruction} (hi : p.code[pc]? = some i)
    (hjump : i.op = Opcode.jump.byte ∨ i.op = Opcode.jumpZero.byte)
    (ht : p.labels.find? i.name = some target) : target < p.code.size := by
  have hmem : i ∈ p.code.toList := List.mem_of_getElem? (by rw [Array.getElem?_toList, hi])
  obtain ⟨k, j, hj, hop, hname⟩ := exists_of_mem_labelNames (h.closed i hmem hjump)
  rw [Array.getElem?_toList] at hj
  have hfind := Program.find?_labels h.distinct hj hop
  rw [hname, ht] at hfind
  obtain rfl := Option.some.inj hfind
  exact (Array.getElem?_eq_some_iff.1 hj).1

end Program.WellFormed

namespace Machine

variable {p : Program} {s s' : State}

theorem secure_start (h : p.WellFormed) : Secure p {} :=
  ⟨⟨by simp, by simp⟩, h.size_pos⟩

/-- Where a secure state stands there is an instruction with a known opcode. -/
theorem Secure.fetch (h : p.WellFormed) (hs : Secure p s) :
    ∃ i op, p.code[s.pc]? = some i ∧ Opcode.ofByte? i.op = some op ∧ i.op = op.byte ∧
      i ∈ p.code.toList := by
  obtain ⟨i, hi⟩ : ∃ i, p.code[s.pc]? = some i := ⟨_, Array.getElem?_eq_getElem hs.inside⟩
  have hmem : i ∈ p.code.toList := List.mem_of_getElem? (by rw [Array.getElem?_toList, hi])
  obtain ⟨op, hop⟩ := h.known i hmem
  exact ⟨i, op, hi, by rw [hop, Opcode.ofByte?_byte], hop, hmem⟩

/-- A turn that goes on keeps the invariant. -/
theorem secure_of_turn (h : p.WellFormed) (hs : Secure p s) (ht : turn p s = .running s') :
    Secure p s' := by
  obtain ⟨i, op, hi, hop, hbyte, hmem⟩ := hs.fetch h
  rw [turn_of_code hi] at ht
  have hnext : op ≠ .halt → s.pc + 1 < p.code.size := fun hne => by
    refine h.succ_lt hi fun hhalt => hne ?_
    rw [hhalt, Opcode.ofByte?_byte] at hop
    exact (Option.some.inj hop).symm
  have hrest : ∀ {v : Option Value} {rest}, s.stack = v :: rest → List.IsSuffix rest s.stack :=
    fun hstack => hstack ▸ List.suffix_cons _ _
  have hpresent : Present s := hs.toPresent
  cases effect_of_running hop ht with
  | label => exact ⟨hpresent.of_suffix List.suffix_rfl rfl, hnext (by simp)⟩
  | push =>
    obtain ⟨v, hv⟩ := Option.ne_none_iff_exists'.1 (h.valued i hmem hbyte)
    exact ⟨hpresent.push ⟨[], s.stack, rfl, by rw [hv]; rfl⟩ rfl, hnext (by simp)⟩
  | pop hstack => exact ⟨hpresent.of_suffix (hrest hstack) rfl, hnext (by simp)⟩
  | @negate a v rest hstack =>
    exact ⟨hpresent.push ⟨[some a], rest, hstack, rfl⟩ rfl, hnext (by simp)⟩
  | @binary _ a b v rest h2 hstack =>
    refine ⟨hpresent.push ⟨[some b, some a], rest, hstack, rfl⟩ rfl, hnext ?_⟩
    rintro rfl
    exact absurd h2 (by decide)
  | print hstack | println hstack =>
    exact ⟨hpresent.of_suffix (hrest hstack) rfl, hnext (by simp)⟩
  | jump hl => exact ⟨hpresent.of_suffix List.suffix_rfl rfl, h.target_lt hi (.inl hbyte) hl⟩
  | jumpZero hstack _ hl =>
    exact ⟨hpresent.of_suffix (hrest hstack) rfl, h.target_lt hi (.inr hbyte) hl⟩
  | pass hstack => exact ⟨hpresent.of_suffix (hrest hstack) rfl, hnext (by simp)⟩
  | @store v rest hstack =>
    have hstack : s.stack = v :: rest := hstack
    refine ⟨⟨fun hmem => hs.stack ((hrest hstack).mem hmem), fun name hname => ?_⟩,
      hnext (by simp)⟩
    rw [Table.find?_insert] at hname
    split at hname
    · exact hs.stack (by rw [hstack, Option.some.inj hname]; exact List.mem_cons_self)
    · exact hs.globals name hname
  | @load v hg =>
    have hv : v ≠ none := fun hnone => hs.globals i.name (hnone ▸ hg)
    obtain ⟨w, rfl⟩ := Option.ne_none_iff_exists'.1 hv
    exact ⟨hpresent.push ⟨[], s.stack, rfl, rfl⟩ rfl, hnext (by simp)⟩

/-- A turn of a verified program fails in one of the ways that are left, and no value that it leaves
is absent. -/
theorem fault_of_secure (h : p.WellFormed) (hs : Secure p s) {fault : Fault}
    (ht : turn p s = .failed fault s') : fault.Possible ∧ Present s' := by
  obtain ⟨i, op, hi, hop, hbyte, hmem⟩ := hs.fetch h
  rw [turn_of_code hi] at ht
  have hshrinks : (Step.failed fault s').Shrinks s.advance := ht ▸ shrinks_execute
  refine ⟨?_, hs.toPresent.of_suffix hshrinks.1 hshrinks.2⟩
  cases (breakdown_of_failed hop ht).mishap with
  | underflow _ hcause => exact .inr ⟨_, rfl, .inl hcause⟩
  | absent habsent => exact absurd habsent hs.stack
  | operator => exact .inl ⟨_, rfl⟩
  | label hjump hl =>
    rw [← hbyte] at hjump
    have hlabel := h.closed i hmem ((Program.isJump_iff _).1 hjump)
    rw [← Program.contains_labels, Table.contains, hl] at hlabel
    cases hlabel
  | global _ hcause => exact .inr ⟨_, rfl, .inr hcause⟩

/-- The invariant holds in every state that a run comes to. -/
theorem secure_of_visits (h : p.WellFormed) {limit : Nat} {c₀ c : Context}
    (hv : Visits p limit c₀ c s) : Secure p s :=
  hv.invariant (fun _ _ => secure_of_turn h) (secure_start h)

/-- What a run of a verified program leaves behind. -/
theorem run_of_wellFormed (h : p.WellFormed) {fuel limit : Nat} {c : Context} {sink : Sink}
    {r : Report} (hr : run fuel p limit c sink = some r) :
    Present r.state ∧ ∀ fault, r.outcome = .failed fault → fault.Possible := by
  refine ⟨?_, fun fault hf => ?_⟩
  · obtain ⟨c', s, r', hv, hsettles, hstate, -⟩ := visits_of_run hr
    have hs := secure_of_visits h hv
    rw [hstate]
    rcases hsettles with ⟨hat, -⟩ | ⟨-, ht⟩ | ⟨fault, -, ht⟩
    · exact hat ▸ hs.toPresent
    · obtain ⟨i, op, hi, hop, -⟩ := hs.fetch h
      rw [turn_of_code hi] at ht
      obtain ⟨-, hsame⟩ := halt_of_halted hop ht
      exact hsame ▸ hs.toPresent.of_suffix List.suffix_rfl rfl
    · exact (fault_of_secure h hs ht).2
  · obtain ⟨c', s, hv, ht⟩ := failed_of_run hr hf
    exact (fault_of_secure h (secure_of_visits h hv) ht).1

end Machine

/-- The check of programs is what the machine relies on. It passes exactly the well-formed programs.
In every run of a program that passes, under every limit and context, each instruction is fetched
inside the code, no value on the stack or in a variable is ever absent, and no label, opcode or end
of the program is found missing. The stack and the variables are not checked : both can still make
such a program fail. -/
theorem verify_sound :
    (∀ p : Program, (p.verifyMessage? = none ↔ p.WellFormed) ∧ (p.verifyMessage? = none →
      (∀ (limit : Nat) (c₀ c : Context) (s : Machine.State), Machine.Visits p limit c₀ c s →
        Machine.Secure p s) ∧
      ∀ (fuel limit : Nat) (c : Context) (sink : Sink) (r : Report),
        Machine.run fuel p limit c sink = some r →
          Machine.Present r.state ∧ ∀ fault, r.outcome = .failed fault → fault.Possible)) ∧
    ∀ cause ∈ [InternalCause.stackUnderflow, .undefinedGlobal], ∃ p fuel r f,
      p.verifyMessage? = none ∧ Machine.run fuel p 0 {} .working = some r ∧
        r.outcome = .failed (.internal f) ∧ f.cause = cause := by
  refine ⟨fun p => ⟨p.verifyMessage?_eq_none_iff, fun hp => ?_⟩, ?_⟩
  · have h := p.verifyMessage?_eq_none_iff.1 hp
    exact ⟨fun limit c₀ c s hv => Machine.secure_of_visits h hv,
      fun fuel limit c sink r hr => Machine.run_of_wellFormed h hr⟩
  · simp only [List.forall_mem_cons, List.not_mem_nil, false_implies, implies_true, and_true]
    exact ⟨⟨{ code := #[.simple .pop, .simple .halt] }, 1, _, _, rfl, rfl, rfl, rfl⟩,
      ⟨{ code := #[.loadGlobal "x", .simple .halt] }, 1, _, _, rfl, rfl, rfl, rfl⟩⟩

/-- A loop that never ends, and what its runs keep. -/
theorem verify_sound_of_endless_loop : ∃ p : Program, p.code.toList =
    [.label "a", .push (.bool true), .jumpZero "b", .jump "a", .label "b", .simple .halt] ∧
      p.verifyMessage? = none ∧ p.WellFormed ∧
      (∀ (limit : Nat) (c₀ c : Context) (s : Machine.State), Machine.Visits p limit c₀ c s →
        Machine.Secure p s) ∧
      ∀ (fuel limit : Nat) (c : Context) (sink : Sink) (r : Report),
        Machine.run fuel p limit c sink = some r →
          Machine.Present r.state ∧ ∀ fault, r.outcome = .failed fault → fault.Possible := by
  have h : ({ code := #[.label "a", .push (.bool true), .jumpZero "b", .jump "a", .label "b",
    .simple .halt] } : Program).verifyMessage? = none := rfl
  obtain ⟨hiff, hruns⟩ := verify_sound.1 _
  exact ⟨_, rfl, h, hiff.1 h, hruns h⟩

end Scriptlet
