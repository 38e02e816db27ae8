import Scriptlet.Machine.Run

/-!
# Runs as sequences of turns

`Machine.turn` is what the machine does in a state when nothing outside the program stops it.
`Turns p n s s'` says that `n` turns lead from `s` to `s'`. A run without limit, under a context
that is never done, is a sequence of turns : it passes over them (`free_turns`), it gives no answer
while it is granted no more rounds than there are turns (`free_eq_none_of_turns`), and two answers
to different grants are the same (`free_unique`).

Under a limit and a context a run visits states (`Visits`), and fetches an instruction in those in
which neither ends it (`Fetches`). It goes through the states it visits (`drive_of_visits`), all of
which are reached by turns (`turns_of_visits`), and gives its answer in one of them
(`visits_of_run`), by a turn if the program comes to its end or fails (`halted_of_run`,
`failed_of_run`). So an invariant of turns is one of runs (`Visits.invariant`).
-/

namespace Scriptlet.Machine

variable {p : Program}

/-- What the machine does in a state. Past the end of the code it fails. -/
def turn (p : Program) (s : State) : Step :=
  match p.code[s.pc]? with
  | none => .failed (.internal ⟨Opcode.halt.byte, s.pc, [], .missingHalt⟩) s
  | some i => execute p p.labels i s.advance

/-- `n` turns lead from one state to another. -/
inductive Turns (p : Program) : Nat → State → State → Prop
  | refl (s : State) : Turns p 0 s s
  | head {n : Nat} {s s' s'' : State} :
      turn p s = .running s' → Turns p n s' s'' → Turns p (n + 1) s s''

theorem turn_of_code {s : State} {i : Instruction} (h : p.code[s.pc]? = some i) :
    turn p s = execute p p.labels i s.advance := by
  simp [turn, h]

theorem Turns.single {s s' : State} (h : turn p s = .running s') : Turns p 1 s s' :=
  .head h (.refl s')

theorem Turns.trans {m n : Nat} {s s' s'' : State} (h₁ : Turns p m s s') (h₂ : Turns p n s' s'') :
    Turns p (m + n) s s'' := by
  induction h₁ with
  | refl => simpa using h₂
  | head ht _ ih =>
    rw [Nat.add_right_comm]
    exact .head ht (ih h₂)

theorem Turns.snoc {n : Nat} {s s' s'' : State} (h : Turns p n s s')
    (ht : turn p s' = .running s'') : Turns p (n + 1) s s'' :=
  h.trans (.single ht)

/-- What each turn keeps, turns keep. -/
theorem Turns.invariant {I : State → Prop} {n : Nat} {s s' : State} (h : Turns p n s s')
    (hturn : ∀ t t', I t → turn p t = .running t' → I t') (hs : I s) : I s' := by
  induction h with
  | refl => exact hs
  | head ht _ ih => exact ih (hturn _ _ hs ht)

theorem Turns.congr {n n' : Nat} {s s' s'' : State} (h : Turns p n s s') (hn : n = n')
    (hs : s' = s'') : Turns p n' s s'' := by
  subst hn hs
  exact h

/-! ## Free runs -/

/-- A run without limit, under a context that is never done. -/
def free (p : Program) (fuel : Nat) (s : State) : Option Report := drive p p.labels 0 fuel {} s

theorem free_succ (fuel : Nat) (s : State) :
    free p (fuel + 1) s = match turn p s with
      | .running s' => free p fuel s'
      | .halted s' => some ⟨.halted, s', {}⟩
      | .failed fault s' => some ⟨.failed fault, s', {}⟩ := by
  have hpoll : pollAt s.steps {} = (none, {}) := by
    unfold pollAt Context.poll
    split <;> rfl
  simp only [free, turn]
  rw [drive]
  cases p.code[s.pc]? with
  | none => rfl
  | some i =>
    cases hx : execute p p.labels i s.advance
    all_goals simp only [Nat.lt_irrefl, false_and, if_false, hpoll, hx]

theorem free_running {s s' : State} (h : turn p s = .running s') (fuel : Nat) :
    free p (fuel + 1) s = free p fuel s' := by
  rw [free_succ, h]

/-- A run passes over turns. -/
theorem free_turns {n : Nat} {s s' : State} (h : Turns p n s s') (fuel : Nat) :
    free p (n + fuel) s = free p fuel s' := by
  induction h with
  | refl => rw [Nat.zero_add]
  | head ht _ ih => rw [Nat.add_right_comm, free_running ht, ih]

/-- A run gives no answer while it goes on. -/
theorem free_eq_none_of_turns {n : Nat} {s s' : State} (h : Turns p n s s') :
    ∀ {fuel : Nat}, fuel ≤ n → free p fuel s = none := by
  induction h with
  | refl =>
    intro fuel hf
    obtain rfl : fuel = 0 := by omega
    rfl
  | head ht _ ih =>
    intro fuel hf
    cases fuel with
    | zero => rfl
    | succ fuel =>
      rw [free_running ht]
      exact ih (by omega)

theorem free_mono {fuel : Nat} {s : State} {r : Report} (h : free p fuel s = some r) (k : Nat) :
    free p (fuel + k) s = some r := by
  induction fuel generalizing s with
  | zero => simp [free, drive] at h
  | succ fuel ih =>
    rw [Nat.add_right_comm, free_succ]
    rw [free_succ] at h
    cases ht : turn p s with
    | running s' =>
      rw [ht] at h
      exact ih h
    | halted s' => simpa [ht] using h
    | failed fault s' => simpa [ht] using h

/-- The answer of a run does not depend on the number of rounds granted to it. -/
theorem free_unique {fuel fuel' : Nat} {s : State} {r r' : Report} (h : free p fuel s = some r)
    (h' : free p fuel' s = some r') : r = r' := by
  have h₁ := free_mono h fuel'
  have h₂ := free_mono h' fuel
  rw [Nat.add_comm, h₁] at h₂
  exact Option.some.inj h₂

/-- Turns that lead to the end of a program are a run of it. -/
theorem free_of_halted {n : Nat} {s s' s'' : State} (h : Turns p n s s')
    (ht : turn p s' = .halted s'') : free p (n + 1) s = some ⟨.halted, s'', {}⟩ := by
  rw [free_turns h, free_succ, ht]

/-- Turns that lead to a fault are a run that fails. -/
theorem free_of_failed {n : Nat} {s s' s'' : State} {fault : Fault} (h : Turns p n s s')
    (ht : turn p s' = .failed fault s'') : free p (n + 1) s = some ⟨.failed fault, s'', {}⟩ := by
  rw [free_turns h, free_succ, ht]

/-! ## Bounded runs -/

/-- In state `s` and context `c`, a run under `limit` fetches `i` and goes on with context `c'`. -/
def Fetches (p : Program) (limit : Nat) (c : Context) (s : State) (i : Instruction)
    (c' : Context) : Prop :=
  p.code[s.pc]? = some i ∧ ¬(0 < limit ∧ limit ≤ s.steps) ∧ pollAt s.steps c = (none, c')

/-- The states between the instructions of a run of `p` under `limit` and the context `c₀`, each
with what is left of the context. -/
inductive Visits (p : Program) (limit : Nat) (c₀ : Context) : Context → State → Prop
  | start : Visits p limit c₀ c₀ {}
  | next {c c' : Context} {s s' : State} {i : Instruction} : Visits p limit c₀ c s →
      Fetches p limit c s i c' → execute p p.labels i s.advance = .running s' →
      Visits p limit c₀ c' s'

/-- Every state that a bounded run visits is reached by turns. -/
theorem turns_of_visits {limit : Nat} {c₀ c : Context} {s : State} (h : Visits p limit c₀ c s) :
    ∃ n, Turns p n {} s := by
  induction h with
  | start => exact ⟨0, .refl _⟩
  | next _ hf he ih =>
    obtain ⟨n, hn⟩ := ih
    exact ⟨n + 1, hn.snoc ((turn_of_code hf.1).trans he)⟩

/-- What holds at the start and is kept by each turn holds in every state that a run visits. -/
theorem Visits.invariant {I : State → Prop} {limit : Nat} {c₀ c : Context} {s : State}
    (h : Visits p limit c₀ c s) (hturn : ∀ t t', I t → turn p t = .running t' → I t')
    (hstart : I {}) : I s := by
  obtain ⟨n, hn⟩ := turns_of_visits h
  exact hn.invariant hturn hstart

/-- A bounded run goes through the states that it visits. -/
theorem drive_of_visits {limit : Nat} {c₀ c : Context} {s : State} (h : Visits p limit c₀ c s) :
    ∃ n, ∀ fuel, drive p p.labels limit (n + fuel) c₀ {} = drive p p.labels limit fuel c s := by
  induction h with
  | start => exact ⟨0, fun fuel => by rw [Nat.zero_add]⟩
  | next _ hf he ih =>
    obtain ⟨n, hn⟩ := ih
    refine ⟨n + 1, fun fuel => ?_⟩
    obtain ⟨hi, hl, hp⟩ := hf
    rw [Nat.add_assoc, hn, Nat.add_comm, drive]
    simp only [hi, if_neg hl, hp, he]

/-- How a run ends in a state that it visits : between two instructions, or by a turn. -/
def Settles (p : Program) (s : State) (r : Report) : Prop :=
  (r.state = s ∧ ((∃ limit, r.outcome = .stepLimit limit) ∨
    ∃ reason, r.outcome = .interrupted s.steps reason)) ∨
  (r.outcome = .halted ∧ turn p s = .halted r.state) ∨
  ∃ fault, r.outcome = .failed fault ∧ turn p s = .failed fault r.state

/-- An answer that tells of a fault is given by the turn that fails. -/
theorem Settles.failed {s : State} {r : Report} {fault : Fault} (h : Settles p s r)
    (hr : r.outcome = .failed fault) : turn p s = .failed fault r.state := by
  rcases h with ⟨-, ⟨limit, ho⟩ | ⟨reason, ho⟩⟩ | ⟨ho, -⟩ | ⟨fault', ho, ht⟩
  · cases hr.symm.trans ho
  · cases hr.symm.trans ho
  · cases hr.symm.trans ho
  · obtain rfl := Outcome.failed.inj (hr.symm.trans ho)
    exact ht

/-- An answer that tells of the end of the program is given by the turn that halts. -/
theorem Settles.halted {s : State} {r : Report} (h : Settles p s r) (hr : r.outcome = .halted) :
    turn p s = .halted r.state := by
  rcases h with ⟨-, ⟨limit, ho⟩ | ⟨reason, ho⟩⟩ | ⟨-, ht⟩ | ⟨fault, ho, -⟩
  · cases hr.symm.trans ho
  · cases hr.symm.trans ho
  · exact ht
  · cases hr.symm.trans ho

/-- The answer of a bounded run is given in a state that it visits. -/
theorem visits_of_drive {limit : Nat} {c₀ : Context} :
    ∀ (fuel : Nat) {c : Context} {s : State} {r : Report}, Visits p limit c₀ c s →
      drive p p.labels limit fuel c s = some r →
      ∃ c' s', Visits p limit c₀ c' s' ∧ Settles p s' r
  | 0, c, s, r, _, h => by simp [drive] at h
  | fuel + 1, c, s, r, hv, h => by
    unfold drive at h
    cases hi : p.code[s.pc]? with
    | none =>
      simp only [hi, Option.some.injEq] at h
      subst h
      exact ⟨c, s, hv, Or.inr (Or.inr ⟨_, rfl, by simp [turn, hi]⟩)⟩
    | some i =>
      simp only [hi] at h
      split at h
      · obtain rfl := Option.some.inj h
        exact ⟨c, s, hv, Or.inl ⟨rfl, Or.inl ⟨limit, rfl⟩⟩⟩
      · rename_i hl
        split at h
        · rename_i reason c' hp
          obtain rfl := Option.some.inj h
          exact ⟨c, s, hv, Or.inl ⟨rfl, Or.inr ⟨reason, rfl⟩⟩⟩
        · rename_i c' hp
          have ht := turn_of_code hi
          split at h
          · rename_i s' he
            exact visits_of_drive fuel (.next hv ⟨hi, hl, hp⟩ he) h
          · rename_i s' he
            obtain rfl := Option.some.inj h
            exact ⟨c, s, hv, Or.inr (Or.inl ⟨rfl, ht.trans he⟩)⟩
          · rename_i fault s' he
            obtain rfl := Option.some.inj h
            exact ⟨c, s, hv, Or.inr (Or.inr ⟨fault, rfl, ht.trans he⟩)⟩

theorem settle_state (sink : Sink) (r : Report) : (settle sink r).state = r.state := by
  unfold settle
  split
  · split <;> rfl
  · rfl

/-- A sink changes the outcome of a run only to a failure to write. -/
theorem settle_outcome (sink : Sink) (r : Report) :
    (settle sink r).outcome = r.outcome ∨
      ∃ message, (settle sink r).outcome = .writeFailed message := by
  unfold settle
  split
  · split
    · exact Or.inl rfl
    · exact Or.inr ⟨_, rfl⟩
  · exact Or.inl rfl

/-- The answer of a run, but for what a sink does to its outcome, is given in a state that the run
visits. -/
theorem visits_of_run {fuel limit : Nat} {c : Context} {sink : Sink} {r : Report}
    (h : run fuel p limit c sink = some r) :
    ∃ c' s r', Visits p limit c c' s ∧ Settles p s r' ∧ r.state = r'.state ∧
      (r.outcome = r'.outcome ∨ ∃ message, r.outcome = .writeFailed message) := by
  obtain ⟨r', hr', rfl⟩ := Option.map_eq_some_iff.1 h
  obtain ⟨c', s, hv, hs⟩ := visits_of_drive fuel .start hr'
  exact ⟨c', s, r', hv, hs, settle_state sink r', settle_outcome sink r'⟩

/-- A run that fails does so by a turn in a state that it visits. -/
theorem failed_of_run {fuel limit : Nat} {c : Context} {sink : Sink} {r : Report} {fault : Fault}
    (h : run fuel p limit c sink = some r) (hr : r.outcome = .failed fault) :
    ∃ c' s, Visits p limit c c' s ∧ turn p s = .failed fault r.state := by
  obtain ⟨c', s, r', hv, hs, hstate, hout | ⟨message, hout⟩⟩ := visits_of_run h
  · exact ⟨c', s, hv, hstate ▸ hs.failed (hout.symm.trans hr)⟩
  · cases hr.symm.trans hout

/-- A run that comes to the end of its program does so by a turn in a state that it visits. -/
theorem halted_of_run {fuel limit : Nat} {c : Context} {sink : Sink} {r : Report}
    (h : run fuel p limit c sink = some r) (hr : r.outcome = .halted) :
    ∃ c' s, Visits p limit c c' s ∧ turn p s = .halted r.state := by
  obtain ⟨c', s, r', hv, hs, hstate, hout | ⟨message, hout⟩⟩ := visits_of_run h
  · exact ⟨c', s, hv, hstate ▸ hs.halted (hout.symm.trans hr)⟩
  · cases hr.symm.trans hout

end Scriptlet.Machine
