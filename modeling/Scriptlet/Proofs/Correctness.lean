import Scriptlet.Proofs.Language
import Scriptlet.Proofs.Simulation

/-!
# Compiled scripts do what they say

A script and its program agree (`compile_correct`) : a run of the program without limit halts, fails
or goes on forever exactly as the evaluation of the script does, and leaves the same variables and
the same output.

The simulation gives one direction, from the evaluation to the run. The other one follows, since an
evaluation ends or does not, and a run has one answer.
-/

namespace Scriptlet

theorem Table.map_some_injective {α : Type} {t t' : Table α} (h : t.map some = t'.map some) :
    t = t' := by
  obtain ⟨es⟩ := t
  obtain ⟨es'⟩ := t'
  have hes : es.map (fun e => (e.1, some e.2)) = es'.map fun e => (e.1, some e.2) :=
    Table.mk.inj h
  refine congrArg Table.mk ((List.map_inj_right fun e e' he => ?_).1 hes)
  obtain ⟨hkey, hvalue⟩ := Prod.mk.inj he
  exact Prod.ext hkey (Option.some.inj hvalue)

namespace Machine

variable {p : Program}

theorem State.Shows.unique {m : State} {s s' : Store} (h : m.Shows s) (h' : m.Shows s') :
    s = s' := by
  obtain ⟨globals, output⟩ := s
  obtain ⟨globals', output'⟩ := s'
  obtain rfl : globals = globals' := Table.map_some_injective (h.1.symm.trans h'.1)
  obtain rfl : output = output' := h.2.symm.trans h'.2
  rfl

/-- A run without limit, under a context that is never done and with a sink that works. -/
theorem run_eq_free (fuel : Nat) : run fuel p 0 {} .working = free p fuel {} := by
  have hsettle : settle .working = id := rfl
  rw [run, hsettle, Option.map_id]
  rfl

end Machine

/-- The report is one of an evaluation with the given end. -/
def Report.Shows (r : Report) : Ending → Prop
  | .finished s => r.outcome = .halted ∧ r.state.Shows s
  | .failed failure s =>
    ∃ fault, r.outcome = .failed fault ∧ fault.failure? = some failure ∧ r.state.Shows s

/-- A report is one of a single end. -/
theorem Report.Shows.unique {r : Report} :
    ∀ {ending ending' : Ending}, r.Shows ending → r.Shows ending' → ending = ending'
  | .finished s, .finished s', h, h' => by rw [h.2.unique h'.2]
  | .failed failure s, .failed failure' s', h, h' => by
    obtain ⟨fault, hout, hfail, hs⟩ := h
    obtain ⟨fault', hout', hfail', hs'⟩ := h'
    obtain rfl : fault = fault' := Outcome.failed.inj (hout.symm.trans hout')
    obtain rfl : failure = failure' := Option.some.inj (hfail.symm.trans hfail')
    rw [hs.unique hs']
  | .finished _, .failed _ _, h, h' => by
    obtain ⟨fault, hout, -⟩ := h'
    cases h.1.symm.trans hout
  | .failed _ _, .finished _, h, h' => by
    obtain ⟨fault, hout, -⟩ := h
    cases hout.symm.trans h'.1

namespace Machine

/-! ## From the evaluation to the run -/

variable {script : Script} {name : Bytes} {p : Program}

theorem resolves_of_compile (h : script.compile name = .ok p) : Resolves p := by
  obtain ⟨-, hc⟩ := Script.code_of_compile h
  intro pc label hi
  exact Program.find?_labels (hc ▸ script.labelled.nodup) hi rfl

/-- The program of a script follows its evaluation, up to its last instruction. -/
theorem follows_script (h : script.compile name = .ok p) (rounds : Nat) :
    Follows p {} (Stmt.codeOf 0 script.statements).length [] rounds (script.evaluate rounds) := by
  obtain ⟨hs, hc⟩ := Script.code_of_compile h
  have hhas : p.Has 0 (Stmt.codeOf 0 script.statements) := by
    have hself := p.has_self
    rw [hc] at hself
    exact hself.left
  have hfollows := follows_stmts (resolves_of_compile h) rounds script.statements 0 {} hs 0 {} hhas
    rfl ⟨rfl, rfl⟩
  rwa [Nat.zero_add] at hfollows

/-- Past the code of the statements stands the end of the program. -/
theorem code_halt (h : script.compile name = .ok p) :
    p.code[(Stmt.codeOf 0 script.statements).length]? = some (.simple .halt) := by
  obtain ⟨-, hc⟩ := Script.code_of_compile h
  rw [← Array.getElem?_toList, hc, Script.code]
  simp

theorem run_of_endsIn (h : script.compile name = .ok p) {ending : Ending}
    (he : script.EndsIn ending) :
    ∃ fuel r, run fuel p 0 {} .working = some r ∧ r.Shows ending := by
  obtain ⟨rounds, he⟩ := he
  have hfollows := follows_script h rounds
  rw [he] at hfollows
  cases ending with
  | finished s =>
    obtain ⟨n, m, ht, hpc, -, hs⟩ := hfollows
    have hhalt := turn_halt (m := m) (hpc ▸ code_halt h)
    exact ⟨n + 1, _, (run_eq_free _).trans (free_of_halted ht hhalt), rfl, hs⟩
  | failed failure s =>
    obtain ⟨n, m, fault, m', ht, hfail, hfailure, hs⟩ := hfollows
    exact ⟨n + 1, _, (run_eq_free _).trans (free_of_failed ht hfail), fault, rfl, hfailure, hs⟩

/-- An evaluation that goes on for any number of rounds keeps the run going for as many turns. -/
theorem run_of_diverges (h : script.compile name = .ok p) (hd : script.Diverges) (fuel : Nat) :
    run fuel p 0 {} .working = none := by
  have hfollows := follows_script h fuel
  rw [hd fuel] at hfollows
  obtain ⟨n, m, hle, ht⟩ := hfollows
  rw [run_eq_free]
  exact free_eq_none_of_turns ht hle

end Machine

/-! ## Back to the evaluation -/

theorem Script.endsIn_or_diverges (script : Script) :
    (∃ ending, script.EndsIn ending) ∨ script.Diverges := by
  by_cases h : ∃ ending, script.EndsIn ending
  · exact .inl h
  · refine .inr fun rounds => ?_
    cases he : script.evaluate rounds with
    | none => rfl
    | some ending => exact absurd ⟨ending, rounds, he⟩ h

theorem supported_of_parse {source : Bytes} {script : Script} (h : parse source = .ok script) :
    script.Supported := by
  obtain ⟨body, stop, -, -, -, hreads⟩ := reads_of_parse h
  exact hreads.supported

/-- Every script whose operators are those of the language, so every script that was read, has a
program. A run of it without limit ends the way the evaluation of the script ends, with the same
variables and output, and goes on forever if the evaluation does. -/
theorem compile_correct :
    (∀ source script, parse source = .ok script → script.Supported) ∧
    ∀ (script : Script) (name : Bytes), script.Supported →
      ∃ p, script.compile name = .ok p ∧
        (∀ ending, (∃ fuel r, Machine.run fuel p 0 {} .working = some r ∧ r.Shows ending) ↔
          script.EndsIn ending) ∧
        ((∀ fuel, Machine.run fuel p 0 {} .working = none) ↔ script.Diverges) := by
  refine ⟨fun _ _ h => supported_of_parse h, fun script name hs => ?_⟩
  obtain ⟨p, hp⟩ := Script.compile_of_supported hs name
  refine ⟨p, hp, fun ending => ⟨?_, Machine.run_of_endsIn hp⟩, ?_, Machine.run_of_diverges hp⟩
  · rintro ⟨fuel, r, hrun, hshows⟩
    rcases script.endsIn_or_diverges with ⟨ending', hends⟩ | hdiverges
    · obtain ⟨fuel', r', hrun', hshows'⟩ := Machine.run_of_endsIn hp hends
      rw [Machine.run_eq_free] at hrun hrun'
      obtain rfl := Machine.free_unique hrun hrun'
      exact hshows.unique hshows' ▸ hends
    · rw [Machine.run_of_diverges hp hdiverges fuel] at hrun
      cases hrun
  · intro hnone
    rcases script.endsIn_or_diverges with ⟨ending, hends⟩ | hdiverges
    · obtain ⟨fuel, r, hrun, -⟩ := Machine.run_of_endsIn hp hends
      rw [hnone fuel] at hrun
      cases hrun
    · exact hdiverges

/-- The store of an evaluation that finished. -/
def Ending.store? : Ending → Option Store
  | .finished s => some s
  | .failed _ _ => none

theorem Ending.eq_of_store? {ending : Ending} {s : Store} (h : ending.store? = some s) :
    ending = .finished s := by
  cases ending with
  | finished s' => rw [Option.some.inj h]
  | failed failure s' => cases h

/-- A loop that ends after one round, and its run. -/
theorem compile_correct_of_loop : ∃ script p s fuel r,
    parse "x := true while x do print x x := false end" = .ok script ∧ script.Supported ∧
      script.compile [] = .ok p ∧ script.EndsIn (.finished s) ∧ s.output = "true" ∧
      Machine.run fuel p 0 {} .working = some r ∧ r.Shows (.finished s) := by
  have hfinished : ((parse "x := true while x do print x x := false end").toOption.bind
      fun script => (script.evaluate 2).bind Ending.store?).map (·.output) =
        some ("true" : Bytes) := by decide +kernel
  obtain ⟨s, hs, houtput⟩ := Option.map_eq_some_iff.1 hfinished
  obtain ⟨script, hparse, hstore⟩ := Option.bind_eq_some_iff.1 hs
  obtain ⟨ending, hevaluate, hending⟩ := Option.bind_eq_some_iff.1 hstore
  obtain rfl := Ending.eq_of_store? hending
  have hsource : parse "x := true while x do print x x := false end" = .ok script := by
    cases hresult : parse "x := true while x do print x x := false end" with
    | ok script' =>
      rw [hresult] at hparse
      rw [Option.some.inj hparse]
    | error e =>
      rw [hresult] at hparse
      cases hparse
  have hsupported := compile_correct.1 _ script hsource
  obtain ⟨p, hp, hends, -⟩ := compile_correct.2 script [] hsupported
  obtain ⟨fuel, r, hrun, hshows⟩ := (hends (.finished s)).2 ⟨2, hevaluate⟩
  exact ⟨script, p, s, fuel, r, hsource, hsupported, hp, ⟨2, hevaluate⟩, houtput, hrun, hshows⟩

end Scriptlet
