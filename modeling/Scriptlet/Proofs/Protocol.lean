import Mathlib.Data.List.Induction
import Scriptlet.Service.Pool

/-!
# What a pool of workers guarantees

Every run of a pool leaves a list of events. What was put into the queue, started, finished and
handed over is read off that list, and the state of the pool is what is missing between these
lists : the queue holds what was put into it and not started (`enqueued_eq`), a worker executes what
it started and did not finish (`startedBy_eq`), and is handing over what it finished and did not
hand over (`finishedBy_eq`). Each of these is one equation about a single step, summed up along a
run.

Main statement : `runner_protocol`.
-/

namespace Scriptlet

/-- The call whose job a worker executes. -/
def Worker.executing? {α : Type} : Worker α → Option Nat
  | .executing id _ => some id
  | _ => none

/-- The call whose result a worker is about to hand over. -/
def Worker.sending? {α : Type} : Worker α → Option Nat
  | .sending id _ _ => some id
  | _ => none

/-- The phases in order. -/
def Phase.rank {α : Type} : Phase α → Nat
  | .calling => 0
  | .submitting => 1
  | .waiting => 2
  | .returned _ => 3

/-- To have returned is the last phase. -/
theorem Phase.rank_le {α : Type} {answer : Except JobError α} (phase : Phase α) :
    phase.rank ≤ (Phase.returned answer).rank := by
  cases phase <;> simp [Phase.rank]

/-- A call may become another one in time. -/
structure Call.Becomes {α : Type} (call call' : Call α) : Prop where
  job : call'.job = call.job
  expired : ∀ reason, call.expired = some reason → call'.expired = some reason
  phase : call.phase.rank ≤ call'.phase.rank
  returned : ∀ answer, call.phase = .returned answer → call'.phase = .returned answer

theorem Call.Becomes.refl {α : Type} (call : Call α) : call.Becomes call :=
  ⟨rfl, fun _ h => h, Nat.le_refl _, fun _ h => h⟩

theorem Call.Becomes.trans {α : Type} {a b c : Call α} (h : a.Becomes b) (h' : b.Becomes c) :
    a.Becomes c :=
  ⟨h'.job.trans h.job, fun r hr => h'.expired r (h.expired r hr), Nat.le_trans h.phase h'.phase,
    fun x hx => h'.returned x (h.returned x hx)⟩

/-- A caller that has not returned moves on. -/
theorem Call.Becomes.move {α : Type} {call : Call α} {phase : Phase α}
    (result : Option (Except Bytes α)) (hphase : call.phase.rank ≤ phase.rank)
    (hreturned : ∀ answer, call.phase ≠ .returned answer) :
    call.Becomes { call with phase := phase, result := result } :=
  ⟨rfl, fun _ h => h, hphase, fun answer h => absurd h (hreturned answer)⟩

namespace Pool

variable {n : Nat} {α : Type} {s s' : Pool n α} {es : List (Event n α)} {e : Event n α} {id : Nat}
  {w : Fin (n + 1)}

/-! ## Events -/

/-- The call that is put into the queue. -/
def enqueued? : Event n α → Option Nat
  | .enqueue id => some id
  | _ => none

/-- The worker that starts a job, and its call. -/
def started? : Event n α → Option (Fin (n + 1) × Nat)
  | .take w id => some (w, id)
  | _ => none

/-- The worker whose job ends, and its call. -/
def finished? : Event n α → Option (Fin (n + 1) × Nat)
  | .finish w id _ _ _ _ => some (w, id)
  | _ => none

/-- The worker that hands a result over, and the call that it is for. -/
def sent? : Event n α → Option (Fin (n + 1) × Nat)
  | .send w id => some (w, id)
  | _ => none

/-- The calls that were put into the queue, in order. -/
def enqueued (es : List (Event n α)) : List Nat := es.filterMap enqueued?

/-- The jobs that were started, in order. -/
def started (es : List (Event n α)) : List (Fin (n + 1) × Nat) := es.filterMap started?

/-- The calls of one worker among some. -/
def ofWorker (w : Fin (n + 1)) (calls : List (Fin (n + 1) × Nat)) : List Nat :=
  (calls.filter fun x => x.1 = w).map Prod.snd

/-- The calls whose jobs a worker started, in order. -/
def startedBy (w : Fin (n + 1)) (es : List (Event n α)) : List Nat := ofWorker w (started es)

/-- The calls whose jobs a worker finished, in order. -/
def finishedBy (w : Fin (n + 1)) (es : List (Event n α)) : List Nat :=
  ofWorker w (es.filterMap finished?)

/-- The calls whose results a worker handed over, in order. -/
def sentBy (w : Fin (n + 1)) (es : List (Event n α)) : List Nat := ofWorker w (es.filterMap sent?)

theorem filterMap_concat {β γ : Type} (f : β → Option γ) (xs : List β) (x : β) :
    (xs ++ [x]).filterMap f = xs.filterMap f ++ (f x).toList := by
  cases h : f x <;> simp [h]

theorem ofWorker_append (w : Fin (n + 1)) (a b : List (Fin (n + 1) × Nat)) :
    ofWorker w (a ++ b) = ofWorker w a ++ ofWorker w b := by
  simp [ofWorker]

theorem mem_ofWorker {calls : List (Fin (n + 1) × Nat)} :
    id ∈ ofWorker w calls ↔ (w, id) ∈ calls := by
  simp [ofWorker]

theorem mem_started : (w, id) ∈ started es ↔ Event.take w id ∈ es := by
  rw [started, List.mem_filterMap]
  constructor
  · rintro ⟨e, he, h⟩
    cases e with
    | take v i =>
      obtain ⟨rfl, rfl⟩ := Prod.mk.inj (Option.some.inj h)
      exact he
    | _ => cases h
  · exact fun h => ⟨_, h, rfl⟩

/-! ## Single steps -/

theorem exists_setCall {i : Nat} {c₀ c₁ call : Call α} (hi : s.calls i = some c₀)
    (hb : c₀.Becomes c₁) (hc : s.calls id = some call) :
    ∃ call', (s.setCall i c₁).calls id = some call' ∧ call.Becomes call' := by
  by_cases hid : id = i
  · subst hid
    obtain rfl := Option.some.inj (hc.symm.trans hi)
    exact ⟨c₁, by simp, hb⟩
  · exact ⟨call, by simp [hid, hc], .refl call⟩

section Step

variable (h : Step s e s')

include h

/-- What is in the queue and what is put into it is what is taken from it and what stays. -/
theorem Step.queue : s.queue ++ (enqueued? e).toList =
    ((started? e).toList.map Prod.snd) ++ s'.queue := by
  cases h with
  | take _ hq => simp [enqueued?, started?, hq]
  | _ => simp [enqueued?, started?]

/-- What a worker executes and what it starts is what it finishes and what it executes then. -/
theorem Step.executing (w : Fin (n + 1)) :
    (s.workers w).executing?.toList ++ ofWorker w (started? e).toList =
      ofWorker w (finished? e).toList ++ (s'.workers w).executing?.toList := by
  cases h <;> grind [ofWorker, started?, finished?, Worker.executing?]

/-- What a worker is handing over and what it finishes is what it hands over and what is left. -/
theorem Step.sending (w : Fin (n + 1)) :
    (s.workers w).sending?.toList ++ ofWorker w (finished? e).toList =
      ofWorker w (sent? e).toList ++ (s'.workers w).sending?.toList := by
  cases h <;> grind [ofWorker, sent?, finished?, Worker.sending?]

/-- A call stays, with its job, and only moves on. -/
theorem Step.call {call : Call α} (hc : s.calls id = some call) :
    ∃ call', s'.calls id = some call' ∧ call.Becomes call' := by
  cases h with
  | @begin i _ _ hi =>
    have hne : id ≠ i := by
      rintro rfl
      simp [hi] at hc
    exact ⟨call, by simp [hne, hc], .refl call⟩
  | expire hi he => exact exists_setCall hi ⟨rfl, by simp [he], Nat.le_refl _, fun _ h => h⟩ hc
  | proceed hi hp => exact exists_setCall hi (.move _ (by simp [hp, Phase.rank]) (by simp [hp])) hc
  | enqueue hi hp => exact exists_setCall hi (.move _ (by simp [hp, Phase.rank]) (by simp [hp])) hc
  | answerExpired hi hp => exact exists_setCall hi (.move _ (Phase.rank_le _) hp) hc
  | answerQuit hi hp =>
    refine exists_setCall hi (.move _ (Phase.rank_le _) ?_) hc
    rcases hp with hp | hp <;> simp [hp]
  | answerResult hi hp => exact exists_setCall hi (.move _ (Phase.rank_le _) (by simp [hp])) hc
  | send _ hi => exact exists_setCall hi ⟨rfl, fun _ h => h, Nat.le_refl _, fun _ h => h⟩ hc
  | take | finish | exit | stop | stopped => exact ⟨call, hc, .refl call⟩

/-- A new call was brought by its caller. -/
theorem Step.begin_of_none {call : Call α} (hn : s.calls id = none) (hc : s'.calls id = some call) :
    ∃ expired, e = .begin id call.job expired := by
  cases h with
  | @begin i job expired =>
    by_cases hid : id = i
    · subst hid
      obtain rfl : _ = call := by simpa using hc
      exact ⟨expired, rfl⟩
    · simp [hid, hn] at hc
  | _ => grind

/-- A call that is put into the queue was waiting for that. -/
theorem Step.submitting (he : enqueued? e = some id) :
    ∃ call call', s.calls id = some call ∧ call.phase = .submitting ∧
      s'.calls id = some call' ∧ call'.phase = .waiting := by
  cases h <;> grind [enqueued?]

/-- A worker that hands a result over has just finished a job with it or did so before. -/
theorem Step.finish_of_sending {result : Except Bytes α} {engine : Engine}
    (hw : s'.workers w = .sending id result engine) :
    s.workers w = .sending id result engine ∨
      ∃ c first last, e = .finish w id c first result last := by
  cases h with
  | @finish v _ _ _ _ _ _ hv =>
    by_cases hwv : w = v
    · subst hwv
      obtain ⟨rfl, rfl, -⟩ : _ = id ∧ _ = result ∧ _ = engine := by simpa using hw
      exact Or.inr ⟨_, _, _, rfl⟩
    · exact Or.inl (by simpa [hwv] using hw)
  | _ => exact Or.inl (by grind)

/-- A result comes from a worker that hands it over. -/
theorem Step.sending_of_result {call' : Call α} {result : Except Bytes α}
    (hc : s'.calls id = some call') (hr : call'.result = some result) :
    (∃ call, s.calls id = some call ∧ call.result = some result) ∨
      ∃ w engine, s.workers w = .sending id result engine ∧ e = .send w id := by
  cases h with
  | @send v i call r engine hv hi =>
    by_cases hid : id = i
    · subst hid
      obtain rfl : _ = call' := by simpa using hc
      obtain rfl : r = result := by simpa using hr
      exact Or.inr ⟨v, engine, hv, rfl⟩
    · exact Or.inl ⟨call', by simpa [hid] using hc, hr⟩
  | _ => exact Or.inl (by grind)

/-- A caller returns because its context is done, because the pool is stopped, or with its
result. -/
theorem Step.cause_of_answer {call' : Call α} {answer : Except JobError α}
    (hc : s'.calls id = some call') (ha : call'.phase = .returned answer) :
    (∃ call, s.calls id = some call ∧ call.phase = .returned answer) ∨
      (∃ reason, call'.expired = some reason ∧ answer = .error (.interrupted reason)) ∨
      (s.quit = true ∧ answer = .error .stopped) ∨
      ∃ call result, s.calls id = some call ∧ call.result = some result ∧
        answer = answerOf result := by
  cases h <;> grind

theorem Step.quit (hq : s.quit = true) : s'.quit = true := by
  cases h <;> first | exact hq | rfl

/-- A job ends as the job of its call may. -/
theorem Step.finish_job {c : Context} {first last : Engine} {result : Except Bytes α}
    (he : e = .finish w id c first result last) :
    ∃ call, s'.calls id = some call ∧ MayAnswer call c ∧ call.job c first result last := by
  subst he
  cases h with
  | finish _ hc hm hj => exact ⟨_, hc, hm, hj⟩

end Step

/-! ## Runs -/

theorem Runs.trans {t : Pool n α} {es' : List (Event n α)} (h : Runs s es t) (h' : Runs t es' s') :
    Runs s (es ++ es') s' := by
  induction h' with
  | refl => rwa [List.append_nil]
  | snoc _ hs ih =>
    rw [← List.append_assoc]
    exact ih.snoc hs

/-- A run passes through a state between any two of its events. -/
theorem Runs.split {before after : List (Event n α)} (h : Runs s (before ++ after) s') :
    ∃ t, Runs s before t ∧ Runs t after s' := by
  induction after using List.reverseRecOn generalizing s' with
  | nil => exact ⟨s', List.append_nil before ▸ h, .refl⟩
  | append_singleton after e ih =>
    rw [← List.append_assoc] at h
    generalize hes : before ++ after ++ [e] = es at h
    cases h with
    | refl => simp at hes
    | snoc hrun hstep =>
      obtain ⟨rfl, he⟩ := List.append_inj' hes rfl
      obtain rfl := List.singleton_inj.1 he
      obtain ⟨t, h₁, h₂⟩ := ih hrun
      exact ⟨t, h₁, h₂.snoc hstep⟩

/-- A call stays along a run. -/
theorem Runs.call {call : Call α} (h : Runs s es s') (hc : s.calls id = some call) :
    ∃ call', s'.calls id = some call' ∧ call.Becomes call' := by
  induction h with
  | refl => exact ⟨call, hc, .refl call⟩
  | snoc _ hs ih =>
    obtain ⟨call', hc', hb⟩ := ih
    obtain ⟨call'', hc'', hb'⟩ := hs.call hc'
    exact ⟨call'', hc'', hb.trans hb'⟩

section Reached

variable (h : Runs {} es s)

include h

/-- The queue holds the calls that were put into it and whose jobs were not started, in order. -/
theorem enqueued_eq : enqueued es = (started es).map Prod.snd ++ s.queue := by
  induction h with
  | refl => rfl
  | snoc _ hs ih =>
    rw [enqueued, started, filterMap_concat, filterMap_concat, ← enqueued, ← started, ih,
      List.append_assoc, hs.queue, List.map_append, List.append_assoc]

/-- A worker executes the job that it started and did not finish. -/
theorem startedBy_eq (w : Fin (n + 1)) :
    startedBy w es = finishedBy w es ++ (s.workers w).executing?.toList := by
  induction h with
  | refl => rfl
  | snoc _ hs ih =>
    rw [startedBy, finishedBy, started, filterMap_concat, filterMap_concat, ofWorker_append,
      ofWorker_append, ← started, ← startedBy, ← finishedBy, ih, List.append_assoc, hs.executing,
      List.append_assoc]

/-- A worker is handing over the result that it has and did not hand over. -/
theorem finishedBy_eq (w : Fin (n + 1)) :
    finishedBy w es = sentBy w es ++ (s.workers w).sending?.toList := by
  induction h with
  | refl => rfl
  | snoc _ hs ih =>
    rw [finishedBy, sentBy, filterMap_concat, filterMap_concat, ofWorker_append, ofWorker_append,
      ← finishedBy, ← sentBy, ih, List.append_assoc, hs.sending, List.append_assoc]

/-- A caller whose job was put into the queue is past that. -/
theorem past_of_enqueued (hid : id ∈ enqueued es) :
    ∃ call, s.calls id = some call ∧ 2 ≤ call.phase.rank := by
  induction h with
  | refl => simp [enqueued] at hid
  | @snoc s s' es e _ hs ih =>
    rw [enqueued, filterMap_concat, ← enqueued, List.mem_append, Option.mem_toList] at hid
    rcases hid with hid | hid
    · obtain ⟨call, hc, hrank⟩ := ih hid
      obtain ⟨call', hc', hb⟩ := hs.call hc
      exact ⟨call', hc', Nat.le_trans hrank hb.phase⟩
    · obtain ⟨-, call', -, -, hc', hp⟩ := hs.submitting hid
      exact ⟨call', hc', by simp [hp, Phase.rank]⟩

/-- No job is put into the queue twice. -/
theorem nodup_enqueued : (enqueued es).Nodup := by
  induction h with
  | refl => exact List.nodup_nil
  | @snoc s s' es e hrun hs ih =>
    rw [enqueued, filterMap_concat, ← enqueued]
    cases he : enqueued? e with
    | none => simpa using ih
    | some id =>
      obtain ⟨call, -, hc, hp, -⟩ := hs.submitting he
      refine List.nodup_append.2 ⟨ih, by simp, fun i hi j hj => ?_⟩
      obtain rfl : j = id := by simpa using hj
      rintro rfl
      obtain ⟨call', hc', hrank⟩ := past_of_enqueued hrun hi
      obtain rfl := Option.some.inj (hc.symm.trans hc')
      simp [hp, Phase.rank] at hrank

/-- No job is started twice. -/
theorem nodup_started : ((started es).map Prod.snd).Nodup := by
  have hnodup := nodup_enqueued h
  rw [enqueued_eq h] at hnodup
  exact (List.nodup_append.1 hnodup).1

/-- A job is executed by the worker that started it. -/
theorem start_of_finish (hf : id ∈ finishedBy w es) : Event.take w id ∈ es := by
  rw [← mem_started, ← mem_ofWorker, ← startedBy, startedBy_eq h w]
  exact List.mem_append_left _ hf

/-- A job was put into the queue before it is started. -/
theorem enqueued_of_start (ht : Event.take w id ∈ es) : id ∈ enqueued es := by
  rw [enqueued_eq h]
  exact List.mem_append_left _ (List.mem_map.2 ⟨_, mem_started.2 ht, rfl⟩)

/-- A job was brought by its caller. -/
theorem begin_of_call {call : Call α} (hc : s.calls id = some call) :
    ∃ expired, Event.begin id call.job expired ∈ es := by
  induction h generalizing call with
  | refl => cases hc
  | @snoc s s' es e _ hs ih =>
    cases hold : s.calls id with
    | some old =>
      obtain ⟨call', hc', hb⟩ := hs.call hold
      obtain rfl := Option.some.inj (hc.symm.trans hc')
      obtain ⟨expired, he⟩ := ih hold
      exact ⟨expired, List.mem_append_left _ (hb.job ▸ he)⟩
    | none =>
      obtain ⟨expired, rfl⟩ := hs.begin_of_none hold hc
      exact ⟨expired, by simp⟩

/-- A job ends as it may. -/
theorem job_of_finish {c : Context} {first last : Engine} {result : Except Bytes α}
    (hf : Event.finish w id c first result last ∈ es) :
    ∃ call, s.calls id = some call ∧ MayAnswer call c ∧ call.job c first result last := by
  induction h with
  | refl => cases hf
  | @snoc s s' es e _ hs ih =>
    rcases List.mem_append.1 hf with hf | hf
    · obtain ⟨call, hc, hm, hj⟩ := ih hf
      obtain ⟨call', hc', hb⟩ := hs.call hc
      exact ⟨call', hc', hm.imp (fun hp => hp) (hb.expired _), hb.job ▸ hj⟩
    · exact hs.finish_job (List.mem_singleton.1 hf).symm

end Reached

/-- The job of a call has ended with a result. -/
def Finished (es : List (Event n α)) (id : Nat) (result : Except Bytes α) : Prop :=
  ∃ w c first last, Event.finish w id c first result last ∈ es

theorem Finished.append {result : Except Bytes α} (h : Finished es id result)
    (es' : List (Event n α)) : Finished (es ++ es') id result := by
  obtain ⟨w, c, first, last, hf⟩ := h
  exact ⟨w, c, first, last, List.mem_append_left _ hf⟩

/-- A job that has ended was started. -/
theorem Finished.start {result : Except Bytes α} (h : Runs {} es s) (hf : Finished es id result) :
    ∃ w, Event.take w id ∈ es := by
  obtain ⟨w, c, first, last, hf⟩ := hf
  exact ⟨w, start_of_finish h (mem_ofWorker.2 (List.mem_filterMap.2 ⟨_, hf, rfl⟩))⟩

section Reached

variable (h : Runs {} es s)

include h

theorem finished_of_sending {result : Except Bytes α} {engine : Engine}
    (hw : s.workers w = .sending id result engine) : Finished es id result := by
  induction h generalizing engine with
  | refl => cases hw
  | @snoc s s' es e _ hs ih =>
    rcases hs.finish_of_sending hw with hw | ⟨c, first, last, rfl⟩
    · exact (ih hw).append _
    · exact ⟨w, c, first, last, by simp⟩

theorem finished_of_result {call : Call α} {result : Except Bytes α} (hc : s.calls id = some call)
    (hr : call.result = some result) : Finished es id result := by
  induction h generalizing call with
  | refl => cases hc
  | @snoc s s' es e hrun hs ih =>
    rcases hs.sending_of_result hc hr with ⟨old, hold, hr⟩ | ⟨w, engine, hw, -⟩
    · exact (ih hold hr).append _
    · exact (finished_of_sending hrun hw).append _

/-- Why a caller may have returned as it did. -/
theorem cause_of_returned {call : Call α} {answer : Except JobError α}
    (hc : s.calls id = some call) (ha : call.phase = .returned answer) :
    (∃ reason, call.expired = some reason ∧ answer = .error (.interrupted reason)) ∨
      (s.quit = true ∧ answer = .error .stopped) ∨
      ∃ result, Finished es id result ∧ answer = answerOf result := by
  induction h generalizing call with
  | refl => cases hc
  | @snoc s s' es e hrun hs ih =>
    rcases hs.cause_of_answer hc ha with ⟨old, hold, ha⟩ | hexp | ⟨hq, rfl⟩ |
      ⟨old, result, hold, hr, rfl⟩
    · obtain ⟨call', hc', hb⟩ := hs.call hold
      obtain rfl := Option.some.inj (hc.symm.trans hc')
      rcases ih hold ha with ⟨reason, he, rfl⟩ | ⟨hq, rfl⟩ | ⟨result, hf, rfl⟩
      · exact Or.inl ⟨reason, hb.expired _ he, rfl⟩
      · exact Or.inr (Or.inl ⟨hs.quit hq, rfl⟩)
      · exact Or.inr (Or.inr ⟨result, hf.append _, rfl⟩)
    · exact Or.inl hexp
    · exact Or.inr (Or.inl ⟨hs.quit hq, rfl⟩)
    · exact Or.inr (Or.inr ⟨result, (finished_of_result hrun hold hr).append _, rfl⟩)

end Reached

/-! ## Callers whose context is done -/

/-- A caller whose context is done before it looks can only return with that. -/
theorem Step.refused (h : Step s e s') {call : Call α} {reason : Interruption}
    (hc : s.calls id = some call) (he : call.expired = some reason)
    (hp : call.phase = .calling ∨ call.phase = .returned (.error (.interrupted reason))) :
    enqueued? e ≠ some id ∧ ∃ call', s'.calls id = some call' ∧ call'.expired = some reason ∧
      (call'.phase = .calling ∨ call'.phase = .returned (.error (.interrupted reason))) := by
  cases h <;> grind [enqueued?]

theorem Runs.refused (h : Runs s es s') {call : Call α} {reason : Interruption}
    (hc : s.calls id = some call) (he : call.expired = some reason)
    (hp : call.phase = .calling ∨ call.phase = .returned (.error (.interrupted reason))) :
    id ∉ enqueued es ∧ ∃ call', s'.calls id = some call' ∧ call'.expired = some reason ∧
      (call'.phase = .calling ∨ call'.phase = .returned (.error (.interrupted reason))) := by
  induction h with
  | refl => exact ⟨by simp [enqueued], call, hc, he, hp⟩
  | snoc _ hs ih =>
    obtain ⟨hid, call', hc', he', hp'⟩ := ih
    obtain ⟨hne, hcall⟩ := hs.refused hc' he' hp'
    rw [enqueued, filterMap_concat, ← enqueued, List.mem_append, Option.mem_toList]
    exact ⟨by rintro (hmem | hmem) <;> contradiction, hcall⟩

/-! ## Stopping -/

/-- Workers that have exited start nothing. -/
theorem Step.of_exited (h : Step s e s') (hw : ∀ w, s.workers w = .exited) :
    (∀ w, s'.workers w = .exited) ∧ started? e = none := by
  cases h <;> grind [started?]

theorem Runs.of_exited (h : Runs s es s') (hw : ∀ w, s.workers w = .exited) :
    (∀ w, s'.workers w = .exited) ∧ ∀ w id, Event.take w id ∉ es := by
  induction h with
  | refl => exact ⟨hw, by simp⟩
  | snoc _ hs ih =>
    obtain ⟨hw', hstart⟩ := hs.of_exited ih.1
    refine ⟨hw', fun w id hmem => ?_⟩
    rcases List.mem_append.1 hmem with hmem | hmem
    · exact ih.2 w id hmem
    · obtain rfl := List.mem_singleton.1 hmem
      cases hstart

theorem Runs.quit (h : Runs s es s') (hq : s.quit = true) : s'.quit = true := by
  induction h with
  | refl => exact hq
  | snoc _ hs ih => exact hs.quit ih

/-- A call that is brought is new. -/
theorem Runs.calls_of_begin (h : Runs s es s') {job : Job α} {expired : Option Interruption}
    (hb : .begin id job expired ∈ es) : s.calls id = none ∧ ∃ call, s'.calls id = some call := by
  induction h with
  | refl => cases hb
  | @snoc t u es e hrun hs ih =>
    rcases List.mem_append.1 hb with hb | hb
    · obtain ⟨hn, call, hc⟩ := ih hb
      obtain ⟨call', hc', -⟩ := hs.call hc
      exact ⟨hn, call', hc'⟩
    · obtain rfl := List.mem_singleton.1 hb
      cases hs with
      | begin hn =>
        refine ⟨?_, _, setCall_self ..⟩
        by_contra hne
        obtain ⟨call, hc⟩ := Option.ne_none_iff_exists'.1 hne
        obtain ⟨call', hc', -⟩ := hrun.call hc
        rw [hn] at hc'
        cases hc'

/-- Someone who has waited for the workers has stopped the pool. -/
theorem quit_of_stopping (h : Runs {} es s) (hs : 0 < s.stopping) : s.quit = true := by
  induction h with
  | refl => cases hs
  | snoc _ hstep ih =>
    cases hstep with
    | stop => rfl
    | stopped hpos _ => exact ih hpos
    | _ => exact ih hs

/-- The caller that an event is about, if it is something that the caller does. -/
def caller? : Event n α → Option Nat
  | .proceed id | .enqueue id | .answer id _ => some id
  | _ => none

/-- Once the pool is told to quit, a caller returns without anybody's help. -/
theorem exists_answer_of_quit (hq : s.quit = true) {call : Call α} (hc : s.calls id = some call) :
    ∃ es s' call' answer, Runs s es s' ∧ (∀ e ∈ es, caller? e = some id) ∧
      s'.calls id = some call' ∧ call'.phase = .returned answer := by
  have hblocked : ∀ {t : Pool n α} {call : Call α}, t.quit = true → t.calls id = some call →
      call.phase = .submitting ∨ call.phase = .waiting → ∃ s' call' answer,
        Runs t [.answer id (.error .stopped)] s' ∧ s'.calls id = some call' ∧
          call'.phase = .returned answer := fun hq hc hp =>
    ⟨_, _, _, Runs.refl.snoc (.answerQuit hc hp hq), setCall_self .., rfl⟩
  cases hp : call.phase with
  | calling =>
    cases he : call.expired with
    | some reason =>
      exact ⟨_, _, _, _, Runs.refl.snoc (.answerExpired hc (by simp [hp]) he), by simp [caller?],
        setCall_self .., rfl⟩
    | none =>
      have hproceed : Step s (.proceed id) (s.setCall id { call with phase := .submitting }) :=
        .proceed hc hp he
      obtain ⟨s', call', answer, hrun, hc', ha⟩ := hblocked
        (hproceed.quit hq) (setCall_self ..) (Or.inl rfl)
      exact ⟨_, s', call', answer, (Runs.refl.snoc hproceed).trans hrun, by simp [caller?], hc', ha⟩
  | submitting =>
    obtain ⟨s', call', answer, hrun, hc', ha⟩ := hblocked hq hc (Or.inl hp)
    exact ⟨_, s', call', answer, hrun, by simp [caller?], hc', ha⟩
  | waiting =>
    obtain ⟨s', call', answer, hrun, hc', ha⟩ := hblocked hq hc (Or.inr hp)
    exact ⟨_, s', call', answer, hrun, by simp [caller?], hc', ha⟩
  | returned answer => exact ⟨[], s, call, answer, .refl, by simp, hc, hp⟩

theorem answerOf_injective {r r' : Except Bytes α} (h : answerOf r = answerOf r') : r = r' := by
  cases r with
  | ok v =>
    cases r' with
    | ok v' =>
      obtain rfl := Except.ok.inj h
      rfl
    | error m => cases h
  | error m =>
    cases r' with
    | ok v => cases h
    | error m' =>
      obtain rfl := JobError.crashed.inj (Except.error.inj h)
      rfl

/-- A caller with a result has that of its own job. -/
theorem finished_of_returned (h : Runs {} es s) {call : Call α} {result : Except Bytes α}
    (hc : s.calls id = some call) (ha : call.phase = .returned (answerOf result)) :
    Finished es id result := by
  rcases cause_of_returned h hc ha with ⟨reason, -, ha⟩ | ⟨-, ha⟩ | ⟨result', hf, ha⟩
  · cases result <;> cases ha
  · cases result <;> cases ha
  · exact answerOf_injective ha ▸ hf

/-- Where someone has waited for the workers, they have exited. -/
theorem exited_of_stopped {before after : List (Event n α)}
    (h : Runs {} (before ++ .stopped :: after) s) : ∃ t, Runs {} (before ++ [.stopped]) t ∧
      (∀ w, t.workers w = .exited) ∧ t.quit = true ∧ Runs t after s := by
  rw [List.append_cons] at h
  obtain ⟨t, h₁, h₂⟩ := h.split
  refine ⟨t, h₁, ?_, ?_, h₂⟩
  all_goals
    generalize hes : before ++ [Event.stopped] = es at h₁
    cases h₁ with
    | refl => simp at hes
    | snoc hrun hstep =>
      obtain ⟨rfl, he⟩ := List.append_inj' hes rfl
      obtain rfl := List.singleton_inj.1 he
      cases hstep with
      | stopped hpos hw =>
        have hq := quit_of_stopping hrun hpos
        first | exact hw | exact hq

/-- The job of a caller that comes after the workers have exited is not started. -/
theorem not_start_of_late {before after : List (Event n α)}
    (h : Runs {} (before ++ .stopped :: after) s) {job : Job α} {expired : Option Interruption}
    (hb : .begin id job expired ∈ after) : Event.take w id ∉ before ++ .stopped :: after := by
  obtain ⟨t, h₁, hw, -, h₂⟩ := exited_of_stopped h
  intro ht
  rw [List.append_cons, List.mem_append] at ht
  rcases ht with ht | ht
  · obtain ⟨call, hc, -⟩ := past_of_enqueued h₁ (enqueued_of_start h₁ ht)
    rw [(h₂.calls_of_begin hb).1] at hc
    cases hc
  · exact (h₂.of_exited hw).2 w id ht

/-- The protocol of a pool, in every run. A job is started at most once, by one worker, and a worker
has finished all jobs that it started but at most one. A caller that returns with a result, or with
the crash of a job, returns with that of its own job. A caller whose context is done before it looks
puts nothing into the queue. After someone has waited for the workers of a stopped pool no job is
started; a caller that comes later can always return, and it returns with the news that the pool is
stopped or with the reason why its context is done. -/
theorem runner_protocol (h : Runs {} es s) :
    ((started es).map Prod.snd).Nodup ∧
    (∀ w, ∃ current : Option Nat, startedBy w es = finishedBy w es ++ current.toList) ∧
    (∀ id call result, s.calls id = some call → call.phase = .returned (answerOf result) →
      (∃ expired, Event.begin id call.job expired ∈ es) ∧ ∃ w c first last,
        Event.finish w id c first result last ∈ es ∧ call.job c first result last) ∧
    (∀ before after t, es = before ++ after → Runs {} before t → Runs t after s →
      ∀ id call reason, t.calls id = some call → call.phase = .calling →
        call.expired = some reason → id ∉ enqueued es) ∧
    ∀ before after, es = before ++ .stopped :: after →
      (∀ w id, Event.take w id ∉ after) ∧
      ∀ id job expired, .begin id job expired ∈ after →
        (∃ es' s' call answer, Runs s es' s' ∧ (∀ e ∈ es', caller? e = some id) ∧
          s'.calls id = some call ∧ call.phase = .returned answer) ∧
        ∀ call answer, s.calls id = some call → call.phase = .returned answer →
          answer = .error .stopped ∨
            ∃ reason, call.expired = some reason ∧ answer = .error (.interrupted reason) := by
  refine ⟨nodup_started h, fun w => ⟨_, startedBy_eq h w⟩, fun id call result hc ha => ?_, ?_, ?_⟩
  · obtain ⟨w, c, first, last, hf⟩ := finished_of_returned h hc ha
    obtain ⟨call', hc', -, hj⟩ := job_of_finish h hf
    obtain rfl := Option.some.inj (hc.symm.trans hc')
    exact ⟨begin_of_call h hc, w, c, first, last, hf, hj⟩
  · rintro before after t rfl h₁ h₂ id call reason hc hp he hid
    rw [enqueued, List.filterMap_append, List.mem_append] at hid
    rcases hid with hid | hid
    · obtain ⟨call', hc', hrank⟩ := past_of_enqueued h₁ hid
      obtain rfl := Option.some.inj (hc.symm.trans hc')
      simp [hp, Phase.rank] at hrank
    · exact (h₂.refused hc he (Or.inl hp)).1 hid
  · rintro before after rfl
    obtain ⟨t, h₁, hw, hq, h₂⟩ := exited_of_stopped h
    refine ⟨(h₂.of_exited hw).2, fun id job expired hb => ⟨?_, fun call answer hc ha => ?_⟩⟩
    · obtain ⟨call, hc⟩ := (h₂.calls_of_begin hb).2
      exact exists_answer_of_quit (h₂.quit hq) hc
    · rcases cause_of_returned h hc ha with hexp | ⟨-, rfl⟩ | ⟨result, hf, -⟩
      · exact Or.inr hexp
      · exact Or.inl rfl
      · obtain ⟨w, ht⟩ := hf.start h
        exact absurd ht (not_start_of_late h hb)

/-- A job that crashes on the only worker, and a caller that comes after the worker has exited. -/
theorem runner_protocol_of_crash : ∃ (job : Job Nat) (es : List (Event 0 Nat)) (s : Pool 0 Nat)
    (call : Call Nat), Runs {} (es ++ [.stopped, .begin 1 job none]) s ∧
      s.calls 0 = some call ∧ call.phase = .returned (.error (.crashed "boom")) ∧
      (∃ w c first last, Event.finish w 0 c first (.error "boom") last ∈
        es ++ [.stopped, .begin 1 job none] ∧ job c first (.error "boom") last) ∧
      ∃ es' s' call answer, Runs s es' s' ∧ (∀ e ∈ es', caller? e = some 1) ∧
        s'.calls 1 = some call ∧ call.phase = .returned answer := by
  let job : Job Nat := fun _ e r e' => r = .error "boom" ∧ e' = e
  have h := Runs.snoc (s := ({} : Pool 0 Nat)) (e := .begin 0 job none) .refl (.begin rfl)
  have h := h.snoc (e := .proceed 0) (.proceed rfl rfl rfl)
  have h := h.snoc (e := .enqueue 0) (.enqueue rfl rfl (by decide))
  have h := h.snoc (e := .take 0 0) (.take rfl rfl)
  have h := h.snoc (e := .finish 0 0 {} {} (.error "boom") {})
    (.finish rfl rfl (Or.inl rfl) ⟨rfl, rfl⟩)
  have h := h.snoc (e := .send 0 0) (.send rfl rfl rfl)
  have h := h.snoc (e := .answer 0 (answerOf (.error "boom"))) (.answerResult rfl rfl rfl)
  have h := h.snoc (e := .stop) .stop
  have h := h.snoc (e := .exit 0) (.exit rfl rfl)
  have h := h.snoc (e := .stopped) (.stopped (by decide) fun | 0 => rfl)
  have h := h.snoc (e := .begin 1 job none) (.begin rfl)
  obtain ⟨s, hs, call, hc, hjob, ha⟩ : ∃ s, Runs ({} : Pool 0 Nat) ([.begin 0 job none, .proceed 0,
      .enqueue 0, .take 0 0, .finish 0 0 {} {} (.error "boom") {}, .send 0 0,
      .answer 0 (.error (.crashed "boom")), .stop, .exit 0] ++ [.stopped, .begin 1 job none]) s ∧
      ∃ call, s.calls 0 = some call ∧ call.job = job ∧
        call.phase = .returned (.error (.crashed "boom")) := ⟨_, h, _, rfl, rfl, rfl⟩
  obtain ⟨-, -, hresult, -, hlate⟩ := runner_protocol hs
  obtain ⟨-, w, c, first, last, hf, hj⟩ := hresult 0 call (.error "boom") hc ha
  obtain ⟨hanswer, -⟩ := (hlate _ _ rfl).2 1 job none (by simp)
  exact ⟨job, _, s, call, hs, hc, ha, ⟨w, c, first, last, hf, hjob ▸ hj⟩, hanswer⟩

end Pool

end Scriptlet
