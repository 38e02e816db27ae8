import Mathlib.Data.ENat.Lattice
import Mathlib.Data.Set.Card
import Mathlib.Order.Interval.Finset.Nat
import Scriptlet.Proofs.Effects
import Scriptlet.Proofs.Runs

/-!
# Bounded runs are cut-off runs

A limit and a context stop a run between two of its instructions and change nothing else.
`instructionCount p` is the number of instructions that `p` executes if nothing stops it, and
`allowance m c` the number that the limit `m` and the context `c` grant. If the count is within the
allowance, the bounded run ends as the free one does or goes on forever with it; otherwise it stops
after exactly as many instructions as it is granted, in the state that the free run is in then
(`bounded_run_truncates`).

An instruction only adds to the output (`state_execute`). A bounded run passes over the turns that
it is granted (`drive_turns`), and in the state after them either the program stops it
(`drive_of_stop`) or the bound does.
-/

namespace Scriptlet

namespace Machine

variable {p : Program} {labels : Table Nat} {i : Instruction} {s s' : State}

/-! ## What an instruction adds -/

/-- The state that a step leads to. -/
def Step.state : Step → State
  | .running s | .halted s | .failed _ s => s

/-- A failed step has changed nothing but the stack. -/
def Step.Leaves (s : State) : Step → Prop
  | .failed _ s' => ∃ rest, s' = { s with stack := rest }
  | _ => True

/-- An instruction that fails changes nothing but the stack. -/
theorem leaves_execute (p : Program) (labels : Table Nat) (i : Instruction) (s : State) :
    (execute p labels i s).Leaves s := by
  cases h : execute p labels i s with
  | running _ => trivial
  | halted _ => trivial
  | failed fault s' =>
    obtain ⟨-, rest, -, hs'⟩ := tells_and_leaves_of_failed h
    exact ⟨rest, hs'⟩

/-- An instruction does not count itself, and takes back nothing that was printed. -/
theorem state_execute (p : Program) (labels : Table Nat) (i : Instruction) (s : State) :
    (execute p labels i s).state.steps = s.steps ∧
      ∃ pieces, (execute p labels i s).state.output.toList = s.output.toList ++ pieces := by
  cases hx : execute p labels i s with
  | failed fault s' =>
    have h := leaves_execute p labels i s
    rw [hx] at h
    obtain ⟨rest, rfl⟩ := h
    exact ⟨rfl, [], (List.append_nil _).symm⟩
  | halted s' =>
    cases hop : Opcode.ofByte? i.op with
    | none => simp [execute, hop] at hx
    | some op =>
      obtain ⟨-, rfl⟩ := halt_of_halted hop hx
      exact ⟨rfl, [], (List.append_nil _).symm⟩
  | running s' =>
    cases hop : Opcode.ofByte? i.op with
    | none => simp [execute, hop] at hx
    | some op =>
      cases effect_of_running hop hx with
      | print | println => exact ⟨rfl, _, Array.toList_push⟩
      | _ => exact ⟨rfl, [], (List.append_nil _).symm⟩

theorem printed_execute : s.printed <+: (execute p labels i s).state.printed := by
  obtain ⟨-, pieces, h⟩ := state_execute p labels i s
  rw [State.printed, State.printed, h, List.flatten_append]
  exact List.prefix_append _ _

/-- A turn that goes on executes an instruction. -/
theorem exists_of_running (h : turn p s = .running s') : ∃ i, p.code[s.pc]? = some i := by
  cases hi : p.code[s.pc]? with
  | none => simp [turn, hi] at h
  | some i => exact ⟨i, rfl⟩

theorem steps_of_running (h : turn p s = .running s') : s'.steps = s.steps + 1 := by
  obtain ⟨i, hi⟩ := exists_of_running h
  rw [turn_of_code hi] at h
  have hstate := (state_execute p p.labels i s.advance).1
  rw [h] at hstate
  exact hstate

theorem printed_turn : s.printed <+: (turn p s).state.printed := by
  cases hi : p.code[s.pc]? with
  | none => simp [turn, hi, Step.state]
  | some i =>
    rw [turn_of_code hi]
    exact printed_execute (s := s.advance)

theorem Turns.steps {n : Nat} (h : Turns p n s s') : s'.steps = s.steps + n := by
  induction h with
  | refl => rfl
  | head ht _ ih =>
    rw [ih, steps_of_running ht]
    omega

theorem Turns.printed {n : Nat} (h : Turns p n s s') : s.printed <+: s'.printed := by
  refine h.invariant (I := fun t => s.printed <+: t.printed) (fun t t' hp ht => ?_)
    (List.prefix_refl _)
  have hnext := printed_turn (p := p) (s := t)
  rw [ht] at hnext
  exact hp.trans hnext

/-- Turns can be cut in two. -/
theorem Turns.split {n : Nat} : ∀ {m : Nat} {s : State}, Turns p (m + n) s s' →
    ∃ t, Turns p m s t ∧ Turns p n t s'
  | 0, s, h => ⟨s, .refl s, Nat.zero_add n ▸ h⟩
  | m + 1, s, h => by
    rw [Nat.add_right_comm] at h
    cases h with
    | head ht hrest =>
      obtain ⟨t, h₁, h₂⟩ := hrest.split
      exact ⟨t, .head ht h₁, h₂⟩

theorem Turns.unique {n : Nat} {t : State} (h : Turns p n s s') (h' : Turns p n s t) : s' = t := by
  induction h with
  | refl =>
    cases h'
    rfl
  | head ht _ ih =>
    cases h' with
    | head ht' hrest =>
      obtain rfl := Step.running.inj (ht.symm.trans ht')
      exact ih hrest

/-! ## The length of a run -/

/-- If nothing stops it, a run of `p` executes an instruction after `n` others. -/
def Executes (p : Program) (n : Nat) : Prop := ∃ s i, Turns p n {} s ∧ p.code[s.pc]? = some i

/-- The number of instructions that `p` executes if nothing stops it. -/
noncomputable def instructionCount (p : Program) : ℕ∞ := {n | Executes p n}.encard

theorem Executes.earlier {m n : Nat} (h : Executes p n) (hm : m ≤ n) : Executes p m := by
  obtain ⟨k, rfl⟩ := Nat.exists_eq_add_of_le hm
  obtain ⟨s, i, ht, hi⟩ := h
  obtain ⟨t, h₁, h₂⟩ := ht.split
  cases h₂ with
  | refl => exact ⟨_, i, h₁, hi⟩
  | head hturn _ =>
    obtain ⟨j, hj⟩ := exists_of_running hturn
    exact ⟨t, j, h₁, hj⟩

/-- Instructions are executed one after the other, so those before the count are. -/
theorem executes_iff (n : Nat) : Executes p n ↔ (n : ℕ∞) < instructionCount p := by
  have hcard : ∀ k : Nat, (Set.Iio k).encard = (k : ℕ∞) := fun k => by
    rw [← Finset.coe_Iio, Set.encard_coe_eq_coe_finsetCard, Nat.card_Iio]
  constructor
  · intro h
    have hsub : Set.Iio (n + 1) ⊆ {m | Executes p m} := fun m hm =>
      h.earlier (Nat.le_of_lt_succ hm)
    have hle := Set.encard_le_encard hsub
    rw [hcard] at hle
    exact lt_of_lt_of_le (by exact_mod_cast Nat.lt_succ_self n) hle
  · intro h
    by_contra hn
    have hsub : {m | Executes p m} ⊆ Set.Iio n := fun m hm => by
      rw [Set.mem_Iio, ← not_le]
      exact fun hle => hn (Executes.earlier hm hle)
    have hle := Set.encard_le_encard hsub
    rw [hcard] at hle
    exact absurd h (not_lt.2 hle)

/-! ## What a bound grants -/

/-- The number of instructions that a limit grants; one that is not positive is no limit. -/
def ceiling (m : Int) : ℕ∞ := if 0 < m then (m.toNat : ℕ∞) else ⊤

end Machine

/-- How often a context answers that it is not done. -/
def Context.patience (c : Context) : ℕ∞ :=
  match c.polls with
  | some n => n
  | none => ⊤

/-- What is left of a context after `n` instructions. It was asked before every 1024th. -/
def Context.after (c : Context) (n : Nat) : Context :=
  { c with polls := c.polls.map (· - (n + 1023) / 1024) }

namespace Machine

/-- The number of instructions that a limit and a context grant. -/
noncomputable def allowance (m : Int) (c : Context) : ℕ∞ := min (ceiling m) (1024 * c.patience)

theorem after_zero (c : Context) : c.after 0 = c := by
  obtain ⟨polls, reason⟩ := c
  cases polls <;> rfl

/-- Within its patience, a context lets the next instruction pass. -/
theorem pollAt_after {c : Context} {n : Nat} (h : (n : ℕ∞) < 1024 * c.patience) :
    pollAt n (c.after n) = (none, c.after (n + 1)) := by
  obtain ⟨polls, reason⟩ := c
  cases polls with
  | none =>
    unfold pollAt
    split <;> rfl
  | some k =>
    have h : (n : ℕ∞) < 1024 * (k : ℕ∞) := h
    have hk : n < 1024 * k := by exact_mod_cast h
    unfold pollAt pollInterval
    split
    · next hn =>
      obtain ⟨j, hj⟩ : ∃ j, k - (n + 1023) / 1024 = j + 1 := ⟨k - (n + 1023) / 1024 - 1, by omega⟩
      have hj' : k - (n + 1 + 1023) / 1024 = j := by omega
      simp [Context.poll, Context.after, hj, hj']
    · next hn =>
      have hk' : (n + 1 + 1023) / 1024 = (n + 1023) / 1024 := by omega
      simp [Context.after, hk']

/-- Out of patience, a context stops the run. -/
theorem pollAt_patience {c : Context} {n : Nat} (h : (n : ℕ∞) = 1024 * c.patience) :
    (pollAt n (c.after n)).1 = some c.reason := by
  obtain ⟨polls, reason⟩ := c
  cases polls with
  | none => exact absurd h (by simp [Context.patience])
  | some k =>
    have h : (n : ℕ∞) = 1024 * (k : ℕ∞) := h
    obtain rfl : n = 1024 * k := by exact_mod_cast h
    have hk : k - (1024 * k + 1023) / 1024 = 0 := by omega
    simp [pollAt, pollInterval, Context.poll, Context.after, hk]

/-- Below its ceiling, a limit lets the next instruction pass. -/
theorem not_limited {m : Int} {n : Nat} (h : (n : ℕ∞) < ceiling m) :
    ¬(0 < m.toNat ∧ m.toNat ≤ n) := by
  unfold ceiling at h
  split at h
  · have hn : n < m.toNat := by exact_mod_cast h
    omega
  · omega

/-! ## Runs within a bound -/

/-- A run under a limit and a context ends with this outcome in this state. -/
def Ends (p : Program) (limit : Nat) (c : Context) (sink : Sink) (outcome : Outcome) (s : State) :
    Prop :=
  ∃ fuel rest, run fuel p limit c sink = some ⟨outcome, s, rest⟩

/-- How a step ends a run, if it does. -/
def Step.outcome? : Step → Option Outcome
  | .running _ => none
  | .halted _ => some .halted
  | .failed fault _ => some (.failed fault)

theorem drive_mono {limit fuel : Nat} {c : Context} {r : Report}
    (h : drive p labels limit fuel c s = some r) (k : Nat) :
    drive p labels limit (fuel + k) c s = some r := by
  induction fuel generalizing c s with
  | zero => simp [drive] at h
  | succ fuel ih =>
    rw [Nat.add_right_comm, drive]
    rw [drive] at h
    cases hi : p.code[s.pc]? with
    | none => simpa only [hi] using h
    | some i =>
      simp only [hi] at h ⊢
      split at h
      · next hl => rwa [if_pos hl]
      · next hl =>
        rw [if_neg hl]
        split at h
        · next hp => simpa only [hp] using h
        · split at h
          · next hx => simpa only [hx] using ih h
          · next hx => simpa only [hx] using h
          · next hx => simpa only [hx] using h

/-- The answer of a bounded run does not depend on the number of rounds granted to it. -/
theorem drive_unique {limit fuel fuel' : Nat} {c : Context} {r r' : Report}
    (h : drive p labels limit fuel c s = some r) (h' : drive p labels limit fuel' c s = some r') :
    r = r' := by
  have h₁ := drive_mono h fuel'
  have h₂ := drive_mono h' fuel
  rw [Nat.add_comm, h₁] at h₂
  exact Option.some.inj h₂

theorem Ends.unique {limit : Nat} {c : Context} {sink : Sink} {o o' : Outcome}
    (h : Ends p limit c sink o s) (h' : Ends p limit c sink o' s') : o = o' ∧ s = s' := by
  obtain ⟨fuel, rest, h⟩ := h
  obtain ⟨fuel', rest', h'⟩ := h'
  obtain ⟨r, hr, hrs⟩ := Option.map_eq_some_iff.1 h
  obtain ⟨r', hr', hrs'⟩ := Option.map_eq_some_iff.1 h'
  obtain rfl := drive_unique hr hr'
  obtain ⟨rfl, rfl, -⟩ := Report.mk.inj (hrs.symm.trans hrs')
  exact ⟨rfl, rfl⟩

/-- A bounded run passes over the turns that it is granted. -/
theorem drive_turns {m : Int} {c : Context} {n : Nat} (h : Turns p n s s')
    (hn : ((s.steps + n : Nat) : ℕ∞) ≤ allowance m c) (fuel : Nat) :
    drive p p.labels m.toNat (n + fuel) (c.after s.steps) s =
      drive p p.labels m.toNat fuel (c.after s'.steps) s' := by
  induction h with
  | refl => rw [Nat.zero_add]
  | @head n s t s' ht _ ih =>
    obtain ⟨i, hi⟩ := exists_of_running ht
    have hlt : ((s.steps : Nat) : ℕ∞) < allowance m c :=
      lt_of_lt_of_le (by exact_mod_cast (by omega : s.steps < s.steps + (n + 1))) hn
    have hpoll := pollAt_after (lt_of_lt_of_le hlt (min_le_right _ _))
    have hlimit := not_limited (lt_of_lt_of_le hlt (min_le_left _ _))
    rw [steps_of_running ht] at ih
    rw [Nat.add_right_comm, drive]
    rw [turn_of_code hi] at ht
    simp only [hi, if_neg hlimit, hpoll, ht]
    exact ih (by rwa [Nat.add_right_comm])

/-- In a state whose instruction is granted, or that has none, the program stops a bounded run as
it does a free one. -/
theorem drive_of_stop {m : Int} {c : Context} {o : Outcome} (ho : (turn p s).outcome? = some o)
    (hs : ∀ i, p.code[s.pc]? = some i → (s.steps : ℕ∞) < allowance m c) :
    ∃ rest, drive p p.labels m.toNat 1 (c.after s.steps) s = some ⟨o, (turn p s).state, rest⟩ := by
  rw [drive]
  cases hi : p.code[s.pc]? with
  | none =>
    simp only [turn, hi, Step.outcome?, Option.some.injEq] at ho
    subst ho
    exact ⟨_, by simp [turn, hi, Step.state]; rfl⟩
  | some i =>
    have hlt := hs i hi
    have hpoll := pollAt_after (lt_of_lt_of_le hlt (min_le_right _ _))
    have hlimit := not_limited (lt_of_lt_of_le hlt (min_le_left _ _))
    rw [turn_of_code hi] at ho ⊢
    simp only [if_neg hlimit, hpoll]
    cases hx : execute p p.labels i s.advance with
    | running s' => simp [hx, Step.outcome?] at ho
    | halted s' =>
      rw [hx] at ho
      obtain rfl := Option.some.inj ho
      exact ⟨_, rfl⟩
    | failed fault s' =>
      rw [hx] at ho
      obtain rfl := Option.some.inj ho
      exact ⟨_, rfl⟩

/-- A run goes on forever or comes to a state in which the program stops it. -/
theorem endless_or_stops (p : Program) : (∀ n, ∃ s, Turns p n {} s) ∨
    ∃ n s o, Turns p n {} s ∧ (turn p s).outcome? = some o := by
  by_contra! h
  obtain ⟨⟨n, hn⟩, hstop⟩ := h
  induction n with
  | zero => exact hn {} (.refl _)
  | succ n ih =>
    refine ih fun s hs => ?_
    cases hturn : turn p s with
    | running s' => exact hn s' (hs.snoc hturn)
    | halted s' => exact hstop n s _ hs (by rw [hturn]; rfl)
    | failed fault s' => exact hstop n s _ hs (by rw [hturn]; rfl)

theorem Turns.le_instructionCount {n : Nat} (h : Turns p n {} s) :
    (n : ℕ∞) ≤ instructionCount p := by
  cases n with
  | zero => exact zero_le
  | succ n =>
    obtain ⟨t, h₁, h₂⟩ := h.split
    cases h₂ with
    | head ht _ =>
      obtain ⟨i, hi⟩ := exists_of_running ht
      have hlt := (executes_iff n).1 ⟨t, i, h₁, hi⟩
      exact_mod_cast Order.add_one_le_of_lt hlt

/-- A sink sees the outcome and the state of a run, but not its context. -/
theorem settle_mk (sink : Sink) (o : Outcome) (s : State) (c : Context) :
    settle sink ⟨o, s, c⟩ = ⟨(settle sink ⟨o, s, {}⟩).outcome, s, c⟩ := by
  cases sink with
  | working => rfl
  | broken message =>
    cases o with
    | halted =>
      simp only [settle]
      split <;> rfl
    | _ => rfl

theorem ends_of_drive {limit fuel : Nat} {c rest : Context} {o : Outcome}
    (h : drive p p.labels limit fuel c {} = some ⟨o, s, rest⟩) (sink : Sink) :
    Ends p limit c sink (settle sink ⟨o, s, {}⟩).outcome s :=
  ⟨fuel, rest, by rw [run, h, Option.map_some, settle_mk]⟩

/-- Within its bound, a run ends as the program does. -/
theorem ends_iff_of_le {m : Int} {c : Context} (hc : instructionCount p ≤ allowance m c)
    (sink : Sink) (o : Outcome) : Ends p m.toNat c sink o s ↔ ∃ n t o', Turns p n {} t ∧
      (turn p t).outcome? = some o' ∧ (turn p t).state = s ∧
        (settle sink ⟨o', s, {}⟩).outcome = o := by
  have hturns : ∀ {n : Nat} {t : State}, Turns p n {} t → ∀ fuel,
      drive p p.labels m.toNat (n + fuel) c {} =
        drive p p.labels m.toNat fuel (c.after t.steps) t := fun {n t} ht fuel => by
    have h := drive_turns (m := m) (c := c) ht
      (by rw [Nat.zero_add]; exact ht.le_instructionCount.trans hc) fuel
    rwa [show ({} : State).steps = 0 from rfl, after_zero] at h
  have hstops : ∀ {n : Nat} {t : State} {o' : Outcome}, Turns p n {} t →
      (turn p t).outcome? = some o' →
        Ends p m.toNat c sink (settle sink ⟨o', (turn p t).state, {}⟩).outcome (turn p t).state :=
    fun {n t o'} ht ho => by
      obtain ⟨rest, hrest⟩ := drive_of_stop (m := m) (c := c) ho fun i hi => by
        have hlt := (executes_iff n).1 ⟨t, i, ht, hi⟩
        rw [ht.steps, show ({} : State).steps = 0 from rfl, Nat.zero_add]
        exact lt_of_lt_of_le hlt hc
      exact ends_of_drive ((hturns ht 1).trans hrest) sink
  constructor
  · intro h
    rcases endless_or_stops p with hgo | ⟨n, t, o', ht, ho⟩
    · obtain ⟨fuel, rest, hrun⟩ := h
      obtain ⟨t, ht⟩ := hgo fuel
      have hnone := hturns ht 0
      rw [Nat.add_zero] at hnone
      simp [run, hnone, drive] at hrun
    · obtain ⟨rfl, rfl⟩ := h.unique (hstops ht ho)
      exact ⟨n, t, o', ht, ho, rfl, rfl⟩
  · rintro ⟨n, t, o', ht, ho, rfl, rfl⟩
    exact hstops ht ho

/-- A run without limit, under a context that is never done, is granted everything. -/
theorem allowance_free : allowance 0 {} = ⊤ := rfl

theorem printed_of_le {m n : Nat} {t : State} (hs : Turns p m {} s) (ht : Turns p n {} t)
    (h : m ≤ n) : s.printed <+: t.printed := by
  obtain ⟨k, rfl⟩ := Nat.exists_eq_add_of_le h
  obtain ⟨u, h₁, h₂⟩ := ht.split
  obtain rfl := hs.unique h₁
  exact h₂.printed

/-- A run does not stop before an instruction that it executes. -/
theorem le_of_executes {m n : Nat} {o : Outcome} (hm : Executes p m) (hs : Turns p n {} s)
    (ho : (turn p s).outcome? = some o) : m ≤ n := by
  by_contra hlt
  obtain ⟨t, i, ht, -⟩ := hm
  obtain ⟨k, rfl⟩ := Nat.exists_eq_add_of_lt (Nat.lt_of_not_le hlt)
  obtain ⟨u, h₁, h₂⟩ := Turns.split (m := n) (n := k + 1) ht
  obtain rfl := hs.unique h₁
  cases h₂ with
  | head hturn _ => simp [hturn, Step.outcome?] at ho

/-- A run under a limit `m` and a context is an exact part of the run that nothing stops. If the
program executes no more instructions than it is granted, both end in the same way and in the same
state, or neither ends. Otherwise the bounded run ends after as many instructions as it is granted,
by the limit if that does not exceed what the context grants and by the context if it does, in the
state that the free run is in then, and what it printed is the first part of what the free run
prints. -/
theorem bounded_run_truncates (p : Program) (m : Int) (c : Context) (sink : Sink) :
    (instructionCount p ≤ allowance m c →
      ∀ o s, Ends p m.toNat c sink o s ↔ Ends p 0 {} sink o s) ∧
    (allowance m c < instructionCount p → ∃ s : State,
      (s.steps : ℕ∞) = allowance m c ∧ Turns p s.steps {} s ∧
      (ceiling m ≤ 1024 * c.patience → Ends p m.toNat c sink (.stepLimit m.toNat) s) ∧
      (1024 * c.patience < ceiling m →
        Ends p m.toNat c sink (.interrupted s.steps c.reason) s) ∧
      (∀ n t, s.steps ≤ n → Turns p n {} t → s.printed <+: t.printed) ∧
      ∀ o t, Ends p 0 {} sink o t → s.printed <+: t.printed) := by
  constructor
  · intro hc o s
    have hfree : instructionCount p ≤ allowance 0 {} := allowance_free ▸ le_top
    exact (ends_iff_of_le hc sink o).trans (ends_iff_of_le hfree sink o).symm
  · intro hc
    obtain ⟨n, hn⟩ : ∃ n : ℕ, (n : ℕ∞) = allowance m c := ENat.ne_top_iff_exists.1 hc.ne_top
    have hexec : Executes p n := (executes_iff n).2 (hn ▸ hc)
    obtain ⟨s, i, hs, hi⟩ := hexec
    have hsteps : s.steps = n := hs.steps.trans (Nat.zero_add n)
    have hdrive := drive_turns (m := m) (c := c) hs
      (by rw [show ({} : State).steps = 0 from rfl, Nat.zero_add]; exact hn.le) 1
    rw [show ({} : State).steps = 0 from rfl, after_zero] at hdrive
    refine ⟨s, hsteps ▸ hn, hsteps ▸ hs, fun hle => ?_, fun hlt => ?_, fun k t hk ht => ?_,
      fun o t ht => ?_⟩
    · have hm : (n : ℕ∞) = ceiling m := hn.trans (min_eq_left hle)
      have hpos : 0 < m := by
        by_contra hneg
        rw [ceiling, if_neg hneg] at hm
        exact ENat.natCast_ne_top n hm
      rw [ceiling, if_pos hpos] at hm
      have hlimit : 0 < m.toNat ∧ m.toNat ≤ s.steps := by
        have : n = m.toNat := by exact_mod_cast hm
        omega
      have h : drive p p.labels m.toNat (n + 1) c {} =
          some ⟨.stepLimit m.toNat, s, c.after s.steps⟩ := by
        rw [hdrive, drive]
        simp only [hi, if_pos hlimit]
      cases sink <;> exact ends_of_drive h _
    · have hpatience : (n : ℕ∞) = 1024 * c.patience := hn.trans (min_eq_right hlt.le)
      have hlimit := not_limited (m := m) (n := s.steps) (by rw [hsteps, hpatience]; exact hlt)
      have hpoll := pollAt_patience hpatience
      obtain ⟨rest, hrest⟩ : ∃ rest, pollAt s.steps (c.after s.steps) = (some c.reason, rest) :=
        ⟨_, Prod.ext (by rw [hsteps, hpoll]) rfl⟩
      have h : drive p p.labels m.toNat (n + 1) c {} =
          some ⟨.interrupted s.steps c.reason, s, rest⟩ := by
        rw [hdrive, drive]
        simp only [hi, if_neg hlimit, hrest]
      cases sink <;> exact ends_of_drive h _
    · exact printed_of_le hs ht (hsteps ▸ hk)
    · obtain ⟨k, u, o', hu, ho, rfl, -⟩ :=
        (ends_iff_of_le (allowance_free ▸ le_top) sink o).1 ht
      have hle := le_of_executes ((executes_iff n).2 (hn ▸ hc)) hu ho
      exact (printed_of_le hs hu hle).trans printed_turn

/-- An endless loop whose limit and context grant the same number of instructions : the limit stops
it. -/
theorem bounded_run_truncates_of_loop : ∃ p : Program,
    p.code.toList = [.label "a", .jump "a"] ∧
      allowance 1024 { polls := some 1 } < instructionCount p ∧ ∃ s : State, s.steps = 1024 ∧
        Turns p s.steps {} s ∧ Ends p 1024 { polls := some 1 } .working (.stepLimit 1024) s := by
  let p : Program := { code := #[.label "a", .jump "a"] }
  have hturn : ∀ s : State, s.pc < 2 → ∃ s', turn p s = .running s' ∧ s'.pc < 2 := by
    rintro ⟨pc, stack, globals, output, steps⟩ hpc
    match pc, hpc with
    | 0, _ => exact ⟨_, rfl, Nat.one_lt_two⟩
    | 1, _ => exact ⟨_, rfl, Nat.zero_lt_two⟩
  have hturns : ∀ n, ∃ s, Turns p n {} s ∧ s.pc < 2 := by
    intro n
    induction n with
    | zero => exact ⟨{}, .refl _, by decide⟩
    | succ n ih =>
      obtain ⟨s, hs, hpc⟩ := ih
      obtain ⟨s', ht, hpc'⟩ := hturn s hpc
      exact ⟨s', hs.snoc ht, hpc'⟩
  have hexec : Executes p 1024 := by
    obtain ⟨s, hs, hpc⟩ := hturns 1024
    exact ⟨s, _, hs, Array.getElem?_eq_getElem hpc⟩
  have hallow : allowance 1024 { polls := some 1 } = (1024 : ℕ) := by
    simp [allowance, ceiling, Context.patience]
  have hlt : allowance 1024 { polls := some 1 } < instructionCount p :=
    hallow ▸ (executes_iff 1024).1 hexec
  obtain ⟨s, hsteps, hs, hlimit, -⟩ :=
    (bounded_run_truncates p 1024 { polls := some 1 } .working).2 hlt
  have hceiling : ceiling 1024 ≤ 1024 * ({ polls := some 1 } : Context).patience := by
    simp [ceiling, Context.patience]
  exact ⟨p, rfl, hlt, s, by exact_mod_cast hsteps.trans hallow, hs, hlimit hceiling⟩

end Machine

end Scriptlet
