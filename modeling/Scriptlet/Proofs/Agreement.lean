import Scriptlet.Proofs.Correctness
import Scriptlet.Proofs.Protocol
import Scriptlet.Proofs.Sessions
import Scriptlet.Service.Requests

/-!
# What counts as a script

A source text is a script if it is read without an error (`IsScript`). It then has a program, under
any name, as the code generator has an answer to every tree that is read. So all that depends on it
gives the same verdict : the service when it checks, lists or runs the text, alone or in a pool, and
the editor's session when the text is given to it.

Main statement : `verdicts_agree`.
-/

namespace Scriptlet

/-- The source text is read without an error. -/
def IsScript (source : Bytes) : Prop := ∃ tree, parse source = .ok tree

/-- The diagnostic is an error that reports a fault : it says what is wrong, and begins where the
fault begins. -/
structure DiagnosticMessage.Reports (d : DiagnosticMessage) (e : SyntaxError) : Prop where
  severity : d.severity = Severity.error.name
  message : d.message = e.message
  line : d.line = e.span.start.line
  column : d.column = e.span.start.column

variable {source : Bytes}

/-! ## Looking at a text -/

theorem isScript_or_refused (source : Bytes) :
    IsScript source ∨ ∃ errors, parse source = .error errors := by
  cases h : parse source with
  | ok tree => exact Or.inl ⟨tree, h⟩
  | error errors => exact Or.inr ⟨errors, rfl⟩

theorem not_isScript {errors : List SyntaxError} (h : parse source = .error errors) :
    ¬IsScript source := by
  rintro ⟨tree, htree⟩
  rw [h] at htree
  cases htree

/-- Of a script, there are only warnings. -/
theorem Inspection.of_isScript (h : IsScript source) : (Inspection.ofSource source).valid = true ∧
    ∀ d ∈ (Inspection.ofSource source).diagnostics, d.severity ≠ .error := by
  obtain ⟨tree, htree⟩ := h
  rw [parse] at htree
  split at htree
  next script hpartial =>
    rw [ofSource, hpartial]
    refine ⟨rfl, fun d hd => ?_⟩
    obtain ⟨w, -, rfl⟩ := List.mem_map.1 hd
    exact Severity.noConfusion
  next => cases htree

/-- Of a text that is refused, there is one error for each fault, in their order, and there is at
least one. -/
theorem Inspection.of_refused {errors : List SyntaxError} (h : parse source = .error errors) :
    errors ≠ [] ∧ (Inspection.ofSource source).valid = false ∧
      (Inspection.ofSource source).diagnostics = errors.map .ofError := by
  rw [parse] at h
  split at h
  next => cases h
  next script found hne hpartial =>
    obtain rfl := Except.error.inj h
    rw [ofSource, hpartial]
    cases found with
    | nil => exact (hne rfl).elim
    | cons e rest => exact ⟨List.cons_ne_nil e rest, rfl, rfl⟩

theorem Diagnostic.severity_ofError (e : SyntaxError) : (ofError e).severity = .error := by
  rw [ofError]
  split <;> rfl

/-- The message of an error reports the fault. -/
theorem DiagnosticMessage.reports_ofError (e : SyntaxError) :
    (ofDiagnostic (.ofError e)).Reports e := by
  rw [Diagnostic.ofError]
  split <;> exact ⟨rfl, rfl, rfl, rfl⟩

theorem Inspection.valid_iff : (Inspection.ofSource source).valid = true ↔ IsScript source := by
  rcases isScript_or_refused source with h | ⟨errors, h⟩
  · exact iff_of_true (of_isScript h).1 h
  · rw [(of_refused h).2.1]
    exact iff_of_false Bool.noConfusion (not_isScript h)

theorem Inspection.without_error_iff :
    (∀ d ∈ (Inspection.ofSource source).diagnostics, d.severity ≠ .error) ↔ IsScript source := by
  rcases isScript_or_refused source with h | ⟨errors, h⟩
  · exact iff_of_true (of_isScript h).2 h
  · obtain ⟨hne, -, hdiagnostics⟩ := of_refused h
    obtain ⟨e, rest, rfl⟩ := List.exists_cons_of_ne_nil hne
    refine iff_of_false (fun hall => hall (.ofError e) ?_ (Diagnostic.severity_ofError e))
      (not_isScript h)
    rw [hdiagnostics]
    exact List.mem_cons_self

/-! ## Programs -/

/-- Every script has a program, and nothing else has. -/
theorem compileSource_isOk_iff (name : Bytes) :
    (∃ p, compileSource name source = .ok p) ↔ IsScript source := by
  constructor
  · rintro ⟨p, hp⟩
    rw [compileSource] at hp
    split at hp
    next => cases hp
    next tree htree => exact ⟨tree, htree⟩
  · rintro ⟨tree, htree⟩
    obtain ⟨p, hp⟩ := Script.compile_of_supported (supported_of_parse htree) name
    exact ⟨p, by rw [compileSource, htree]; dsimp only; rw [hp]⟩

/-! ## The service -/

namespace Service

/-- The text has a listing if it has a program. -/
theorem disassemble_isOk_iff :
    (∃ listing, disassemble ⟨source⟩ = .ok listing) ↔ IsScript source := by
  rw [← compileSource_isOk_iff programName, disassemble]
  cases compileSource programName source <;> simp

/-- The answer says that the source text is no script. -/
def Refuses (answer : Except ServiceError RunResponse) : Prop :=
  ∃ response, answer = .ok response ∧ response.errorKind = "syntax"

/-- No run has the kind of a text that is no script. -/
theorem kind_ne_syntax (o : Outcome) : o.kind ≠ "syntax" := fun h =>
  absurd (h ▸ o.kind_mem_kinds) (by decide)

/-- The answer about a run does not refuse it. -/
theorem not_refuses_ofReport (report : Report) : ¬Refuses (.ok (.ofReport report)) := by
  rintro ⟨response, h, hkind⟩
  obtain rfl := Except.ok.inj h
  exact kind_ne_syntax report.outcome hkind

theorem not_refuses_error (error : ServiceError) : ¬Refuses (.error error) := by
  rintro ⟨response, h, -⟩
  cases h

variable {svc : Service} {r : RunRequest}

/-- A request that makes sense is refused at once if its text is no script, and otherwise has a
program. -/
theorem prepare_cases (hsource : Bytes.isBlank r.source = false) (hsteps : 0 ≤ r.maxSteps) :
    (¬IsScript r.source ∧ ∃ answer, prepare r = .error answer ∧ Refuses answer) ∨
      IsScript r.source ∧ ∃ program, prepare r = .ok program := by
  rw [← compileSource_isOk_iff programName, prepare, if_neg (by simp [hsource]),
    if_neg (by omega)]
  cases compileSource programName r.source with
  | error error => exact Or.inl ⟨by simp, _, rfl, _, rfl, rfl⟩
  | ok program => exact Or.inr ⟨⟨program, rfl⟩, program, rfl⟩

/-- A service on its own refuses a request just if its text is no script. -/
theorem run_not_refuses_iff (hsource : Bytes.isBlank r.source = false) (hsteps : 0 ≤ r.maxSteps)
    (c : Context) :
    (∀ fuel answer, svc.run fuel c r = some answer → ¬Refuses answer) ↔ IsScript r.source := by
  rcases prepare_cases hsource hsteps with ⟨hnot, answer, hp, hrefuses⟩ | ⟨hscript, program, hp⟩
  · refine iff_of_false (fun h => h 0 answer ?_ hrefuses) hnot
    rw [Service.run, hp]
  · refine iff_of_true (fun fuel answer h => ?_) hscript
    rw [Service.run, hp] at h
    dsimp only at h
    split at h
    next => exact Option.some.inj h ▸ not_refuses_error _
    next => cases h
    next report _ =>
      split at h
      · exact Option.some.inj h ▸ not_refuses_error _
      · exact Option.some.inj h ▸ not_refuses_ofReport report

variable {n : Nat} {β : Type}

/-- The result of a job is no refusal. -/
theorem not_refuses_of_result {expired : Option Interruption} {report : Report}
    {answer : Except ServiceError RunResponse}
    (h : conclude expired (Pool.answerOf (resultOf report : Except Bytes (RunResponse ⊕ β))) =
      some answer) : ¬Refuses answer := by
  rw [resultOf] at h
  split at h
  next => exact Option.some.inj h ▸ not_refuses_error _
  next =>
    change (if _ then _ else _) = _ at h
    split at h
    · obtain ⟨reason, -, rfl⟩ := Option.map_eq_some_iff.1 h
      exact not_refuses_error _
    · exact Option.some.inj h ▸ not_refuses_ofReport report

/-- A service on a pool refuses a request just if its text is no script, whatever else happens in
the pool. -/
theorem answered_not_refuses_iff (hsource : Bytes.isBlank r.source = false)
    (hsteps : 0 ≤ r.maxSteps) {es : List (Event n (RunResponse ⊕ β))}
    {s : Pool n (RunResponse ⊕ β)} (hruns : Pool.Runs {} es s) (id : Nat) :
    (∀ answer, svc.Answered s id r answer → ¬Refuses answer) ↔ IsScript r.source := by
  rcases prepare_cases hsource hsteps with ⟨hnot, answer, hp, hrefuses⟩ | ⟨hscript, program, hp⟩
  · exact iff_of_false (fun h => h answer (Or.inl hp) hrefuses) hnot
  · refine iff_of_true (fun answer h => ?_) hscript
    rcases h with herror | ⟨call, returned, hcall, ⟨program', -, hjob⟩, hphase, hconclude⟩
    · rw [hp] at herror
      cases herror
    · rcases Pool.cause_of_returned hruns hcall hphase with ⟨reason, -, rfl⟩ | ⟨-, rfl⟩ |
        ⟨result, ⟨w, c, first, last, hfinish⟩, rfl⟩
      · exact Option.some.inj hconclude ▸ not_refuses_error _
      · exact Option.some.inj hconclude ▸ not_refuses_error _
      · obtain ⟨call', hcall', -, hj⟩ := Pool.job_of_finish hruns hfinish
        obtain rfl := Option.some.inj (hcall.symm.trans hcall')
        rw [hjob] at hj
        obtain ⟨fuel, report, -, rfl⟩ := hj
        exact not_refuses_of_result hconclude

end Service

/-! ## The editor -/

/-- A session tells of no error in a text that an event gives just if the text is a script. -/
theorem Editor.Session.without_error_iff (session : Session) {event : Event} {uri : Bytes}
    {version : Int} (h : event.Gives uri version source) :
    (∀ n ∈ (session.handle event).2.2, ∀ d ∈ n.diagnostics, d.severity ≠ .error) ↔
      IsScript source := by
  rw [handle_of_gives h, List.forall_mem_singleton]
  exact Inspection.without_error_iff

/-- All verdicts on a source text agree. If it is not blank, then the following say the same : the
service finds it valid, it is read without an error, it has a program under any name, it has a
listing, a service does not refuse to run it with a limit that is not negative, on its own or in a
pool, and a session finds no error in it when an event gives it. If the service does not find it
valid, its diagnostics are errors that report the faults one by one, and there is a fault. -/
theorem verdicts_agree (hsource : Bytes.isBlank source = false) :
    ((Service.check ⟨source⟩).valid = true ↔ IsScript source) ∧
    (∀ name, (∃ p, compileSource name source = .ok p) ↔ IsScript source) ∧
    ((∃ listing, Service.disassemble ⟨source⟩ = .ok listing) ↔ IsScript source) ∧
    (∀ (svc : Service) (maxSteps : Int), 0 ≤ maxSteps →
      (∀ c, (∀ fuel answer, svc.run fuel c ⟨source, maxSteps⟩ = some answer →
        ¬Service.Refuses answer) ↔ IsScript source) ∧
      ∀ (n : Nat) (β : Type) (es : List (Event n (RunResponse ⊕ β)))
        (s : Pool n (RunResponse ⊕ β)) (id : Nat), Pool.Runs {} es s →
        ((∀ answer, svc.Answered s id ⟨source, maxSteps⟩ answer → ¬Service.Refuses answer) ↔
          IsScript source)) ∧
    (∀ (session : Editor.Session) (event : Editor.Event) (uri : Bytes) (version : Int),
      event.Gives uri version source →
      ((∀ n ∈ (session.handle event).2.2, ∀ d ∈ n.diagnostics, d.severity ≠ .error) ↔
        IsScript source)) ∧
    ((Service.check ⟨source⟩).valid = false → ∃ errors, parse source = .error errors ∧
      errors ≠ [] ∧ List.Forall₂ DiagnosticMessage.Reports
        (Service.check ⟨source⟩).diagnostics errors) := by
  refine ⟨Inspection.valid_iff, fun name => compileSource_isOk_iff name,
    Service.disassemble_isOk_iff, fun svc maxSteps hsteps => ⟨fun c => ?_, ?_⟩,
    fun session event uri version hgives => session.without_error_iff hgives, fun hvalid => ?_⟩
  · exact Service.run_not_refuses_iff (r := ⟨source, maxSteps⟩) hsource hsteps c
  · intro n β es s id hruns
    exact Service.answered_not_refuses_iff (r := ⟨source, maxSteps⟩) hsource hsteps hruns id
  · have hnot : ¬IsScript source := fun h =>
      Bool.noConfusion (hvalid.symm.trans (Inspection.valid_iff.2 h))
    obtain ⟨errors, herrors⟩ := (isScript_or_refused source).resolve_left hnot
    obtain ⟨hne, -, hdiagnostics⟩ := Inspection.of_refused herrors
    refine ⟨errors, herrors, hne, ?_⟩
    rw [Service.check, hdiagnostics, List.map_map, List.forall₂_map_left_iff, List.forall₂_same]
    exact fun e _ => DiagnosticMessage.reports_ofError e

/-- A text with two faults is found invalid, and refused by a service on its own, in a pool that has
nothing to do, and in an editor. -/
theorem verdicts_agree_of_two_faults : let source : Bytes := "print (1\nwhile"
    Bytes.isBlank source = false ∧ (Service.check ⟨source⟩).valid = false ∧
    (∃ errors, parse source = .error errors ∧ List.Forall₂ DiagnosticMessage.Reports
      (Service.check ⟨source⟩).diagnostics errors) ∧
    (∃ fuel answer, ({} : Service).run fuel {} ⟨source, 5⟩ = some answer ∧
      Service.Refuses answer) ∧
    (∃ answer, ({} : Service).Answered ({} : Pool 0 (RunResponse ⊕ Unit)) 0 ⟨source, 5⟩ answer ∧
      Service.Refuses answer) ∧
    ∃ n ∈ (({} : Editor.Session).handle (.opened "a" 1 source)).2.2, ∃ d ∈ n.diagnostics,
      d.severity = .error := by
  intro source
  have hsource : Bytes.isBlank source = false := by decide
  have hnot : ¬IsScript source := by
    rintro ⟨tree, htree⟩
    have hnone : (Parser.script (tokenize source)).2.errors = [] := (parse_eq_ok.1 htree).2
    revert hnone
    decide +kernel
  obtain ⟨hchecks, -, -, hruns, htells, herrors⟩ := verdicts_agree hsource
  have hvalid : (Service.check ⟨source⟩).valid = false := Bool.eq_false_iff.2 (mt hchecks.1 hnot)
  obtain ⟨halone, hpooled⟩ := hruns {} 5 (by decide)
  obtain ⟨errors, hparse, -, hreports⟩ := herrors hvalid
  refine ⟨hsource, hvalid, ⟨errors, hparse, hreports⟩, ?_, ?_, ?_⟩
  · have h := mt (halone {}).1 hnot
    push Not at h
    exact h
  · have h := mt (hpooled 0 Unit [] {} 0 .refl).1 hnot
    push Not at h
    exact h
  · have h := mt (htells {} (.opened "a" 1 source) "a" 1 ⟨rfl, rfl, rfl⟩).1 hnot
    push Not at h
    exact h

end Scriptlet
