import Scriptlet.Proofs.Complaints
import Scriptlet.Proofs.Isolation
import Scriptlet.Proofs.Tables

/-!
# The texts of responses

Whatever bytes a script is made of, and whatever it does, the service answers in well-formed texts,
but for one : what the script printed is handed on byte by byte. The variables of a run are those
that its program names (`Machine.named_of_run`), so their names are well-formed. Their values are
shown as literals, and complaints are well-formed too.

Main statements : `Service.legible_of_run`, `Service.oneLine_of_check`,
`Service.isValid_of_disassemble`.
-/

namespace Scriptlet

/-! ## The variables of runs -/

namespace Machine

variable {p : Program} {labels : Table Nat} {i : Instruction} {s s' : State}

/-- The variables are named by instructions of the program. -/
def State.NamedIn (p : Program) (s : State) : Prop :=
  ∀ key ∈ s.globals.keys, ∃ i ∈ p.code.toList, i.name = key

/-- An instruction gives a value to no variable but the one that it names. -/
theorem mem_keys_execute {key : Bytes} (h : key ∈ (execute p labels i s).state.globals.keys) :
    key = i.name ∨ key ∈ s.globals.keys := by
  cases hx : execute p labels i s with
  | failed fault s' =>
    have hleaves := leaves_execute p labels i s
    rw [hx] at hleaves h
    obtain ⟨rest, rfl⟩ := hleaves
    exact .inr h
  | halted s' =>
    cases hop : Opcode.ofByte? i.op with
    | none => simp [execute, hop] at hx
    | some op =>
      obtain ⟨-, rfl⟩ := halt_of_halted hop hx
      rw [hx] at h
      exact .inr h
  | running s' =>
    cases hop : Opcode.ofByte? i.op with
    | none => simp [execute, hop] at hx
    | some op =>
      rw [hx] at h
      cases effect_of_running hop hx with
      | store => exact Table.mem_keys_insert.1 h
      | _ => exact .inr h

theorem State.NamedIn.turn (h : s.NamedIn p) : (turn p s).state.NamedIn p := by
  cases hi : p.code[s.pc]? with
  | none =>
    have hfailed : (Machine.turn p s).state = s := by simp [Machine.turn, hi, Step.state]
    rwa [hfailed]
  | some i =>
    intro key hkey
    rw [turn_of_code hi] at hkey
    rcases mem_keys_execute hkey with rfl | hkey
    · exact ⟨i, Array.mem_toList_iff.2 (Array.mem_of_getElem? hi), rfl⟩
    · exact h key hkey

/-- The variables that a run leaves behind are named by instructions of its program. -/
theorem named_of_run {fuel limit : Nat} {c : Context} {sink : Sink} {r : Report}
    (h : run fuel p limit c sink = some r) : r.state.NamedIn p := by
  obtain ⟨c', s, r', hvisits, hsettles, hstate, -⟩ := visits_of_run h
  have hs : s.NamedIn p := by
    refine hvisits.invariant (fun t t' ht hgoes => ?_) nofun
    have hnext := ht.turn
    rwa [hgoes] at hnext
  have hend := hs.turn
  rw [hstate]
  rcases hsettles with ⟨hsame, -⟩ | ⟨-, ht⟩ | ⟨fault, -, ht⟩
  · rwa [hsame]
  · rwa [ht] at hend
  · rwa [ht] at hend

/-- A run whose output is kept does not fail to write it. -/
theorem outcome_ne_writeFailed {fuel limit : Nat} {c : Context} {r : Report}
    (h : run fuel p limit c .working = some r) (message : Bytes) :
    r.outcome ≠ .writeFailed message := by
  rw [run_working] at h
  obtain ⟨c', s, -, hsettles⟩ := visits_of_drive fuel .start h
  rcases hsettles with ⟨-, ⟨limit, ho⟩ | ⟨reason, ho⟩⟩ | ⟨ho, -⟩ | ⟨fault, ho, -⟩
  all_goals
    rw [ho]
    nofun

end Machine

/-! ## Programs of texts -/

section

variable {source name : Bytes} {p : Program}

/-- The names in the program of a text are well-formed. -/
theorem bare_name_of_compileSource (h : compileSource name source = .ok p) :
    ∀ i ∈ p.code.toList, Bare i.name := by
  obtain ⟨script, hparse, hcompile⟩ := exists_script_of_compileSource h
  exact fun i hi => bare_name_of_mem_code (from_of_parse hparse) hcompile hi

theorem name_of_compileSource (h : compileSource name source = .ok p) : p.name = name := by
  obtain ⟨script, -, hcompile⟩ := exists_script_of_compileSource h
  exact (header_of_compile hcompile).2

/-- A listing is well-formed if the names in it are. -/
theorem Program.isValid_listing (hname : OneLine p.name)
    (hcode : ∀ i ∈ p.code.toList, Bare i.name) : Utf8.isValid p.listing = true := by
  have hlines : ∀ line ∈ p.headerLines ++ codeLines 0 p.sourceMap.toList p.code.toList,
      OneLine line := by
    exact List.forall_mem_append.2 ⟨oneLine_headerLines hname, oneLine_codeLines hcode _ _⟩
  rw [listing, List.flatMap_def]
  refine Utf8.isValid_flatten (List.all_eq_true.2 (List.forall_mem_map.2 fun line hline => ?_))
  exact Utf8.isValid_append (hlines line hline).valid (by decide)

end

/-! ## Responses about runs -/

/-- The texts of the response, but for the output of the script, are well-formed and stay on one
line, and the variables are in order. -/
structure RunResponse.Legible (r : RunResponse) : Prop where
  globals : ∀ e ∈ r.globals.entries, OneLine e.1 ∧ OneLine e.2
  ordered : r.globals.Ordered
  error : OneLine r.error
  errorKind : OneLine r.errorKind

theorem Outcome.oneLine_kind (o : Outcome) : OneLine o.kind := by
  have hkinds : ∀ kind ∈ kinds, OneLine kind := by
    simp only [kinds, List.forall_mem_cons, List.not_mem_nil, false_implies, implies_true, and_true]
    exact ⟨oneLine_nil, .of_bytes rfl, .of_bytes rfl, .of_bytes rfl, .of_bytes rfl⟩
  exact hkinds _ o.kind_mem_kinds

theorem RunResponse.legible_ofReport {source name : Bytes} {p : Program} {fuel limit : Nat}
    {c : Context} {report : Report} (hp : compileSource name source = .ok p)
    (h : Machine.run fuel p limit c .working = some report) : (ofReport report).Legible := by
  obtain ⟨hordered, hentries⟩ := Table.ordered_ofList
    (report.state.globals.entries.map fun e => (e.1, literalOf e.2))
  refine ⟨fun e he => ?_, hordered, ?_, report.outcome.oneLine_kind⟩
  · obtain ⟨e, hmem, rfl⟩ := List.mem_map.1 (hentries e he)
    obtain ⟨i, hi, hname⟩ := Machine.named_of_run h e.1 (List.mem_map_of_mem hmem)
    exact ⟨hname ▸ (bare_name_of_compileSource hp i hi).toOneLine, oneLine_literalOf e.2⟩
  · have hmessage := @Outcome.oneLine_message report.outcome (Machine.outcome_ne_writeFailed h)
    unfold ofReport
    cases hsome : report.outcome.message? with
    | none => exact oneLine_nil
    | some message => exact hmessage hsome

/-- The result of a job that was submitted is that of the job. -/
theorem Runner.exists_of_submit {α : Type} {runner : Runner} {c : Context}
    {job : Context → Except Bytes α} {result : α} (h : runner.submit c job = .ok result) :
    ∃ c', job c' = .ok result := by
  unfold submit at h
  split at h
  next => cases h
  next c' _ =>
    split at h
    next =>
      split at h
      next hjob => exact ⟨c', Except.ok.inj h ▸ hjob⟩
      next => cases h
    next => cases h

namespace Service

/-- What is answered in advance is only that the text has no program. -/
theorem refusal_of_prepare {request : RunRequest} {r : RunResponse}
    (h : prepare request = .error (.ok r)) : ∃ error,
      compileSource programName request.source = .error error ∧
        r = { error := error.message, errorKind := "syntax" } := by
  unfold prepare at h
  split at h
  · cases h
  split at h
  · cases h
  split at h
  next error hcompile =>
    obtain rfl := Except.ok.inj (Except.error.inj h)
    exact ⟨error, hcompile, rfl⟩
  next => cases h

/-- A response says why the text has no program, or it is about a run of the program. -/
theorem cases_of_run {svc : Service} {fuel : Nat} {c : Context} {request : RunRequest}
    {r : RunResponse} (h : svc.run fuel c request = some (.ok r)) :
    (∃ error, compileSource programName request.source = .error error ∧
      r = { error := error.message, errorKind := "syntax" }) ∨
    ∃ p limit c' report, compileSource programName request.source = .ok p ∧
      Machine.run fuel p limit c' .working = some report ∧ r = .ofReport report := by
  unfold run at h
  split at h
  next answer hprepare =>
    rw [Option.some.inj h] at hprepare
    exact .inl (refusal_of_prepare hprepare)
  next p hprepare =>
    have hp := compileSource_of_prepare hprepare
    dsimp only at h
    split at h
    next => cases h
    next => cases h
    next report hsubmit =>
      obtain ⟨c', hrun⟩ := Runner.exists_of_submit hsubmit
      refine .inr ⟨p, _, c', report, hp, Except.ok.inj hrun, ?_⟩
      split at h
      next => cases Option.some.inj h
      next => exact (Except.ok.inj (Option.some.inj h)).symm

/-- A request to run is answered in well-formed texts, but for what the script printed. -/
theorem legible_of_run {svc : Service} {fuel : Nat} {c : Context} {request : RunRequest}
    {r : RunResponse} (h : svc.run fuel c request = some (.ok r)) : r.Legible := by
  rcases cases_of_run h with ⟨error, hcompile, rfl⟩ | ⟨p, limit, c', report, hp, hrun, rfl⟩
  · exact ⟨nofun, Table.ordered_empty, SourceError.oneLine_message hcompile, .of_bytes rfl⟩
  · exact RunResponse.legible_ofReport hp hrun

/-- A request to check is answered in well-formed texts. -/
theorem oneLine_of_check {request : SourceRequest} :
    ∀ d ∈ (check request).diagnostics, OneLine d.severity ∧ OneLine d.message := by
  intro d hd
  obtain ⟨d, hfound, rfl⟩ := List.mem_map.1 hd
  refine ⟨?_, Diagnostic.oneLine_message hfound⟩
  change OneLine d.severity.name
  cases d.severity with
  | error | warning => exact .of_bytes rfl

/-- A request for a listing is answered with a well-formed text. -/
theorem isValid_of_disassemble {request : SourceRequest} {r : DisassembleResponse}
    (h : disassemble request = .ok r) : Utf8.isValid r.listing = true := by
  unfold disassemble at h
  split at h
  next => cases h
  next p hp =>
    obtain rfl := Except.ok.inj h
    have hname : OneLine p.name := name_of_compileSource hp ▸ .of_bytes rfl
    exact Program.isValid_listing hname (bare_name_of_compileSource hp)

end Service

end Scriptlet
