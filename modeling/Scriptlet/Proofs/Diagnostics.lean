import Scriptlet.Proofs.Agreement
import Scriptlet.Proofs.Emitters
import Scriptlet.Proofs.PositionOrder
import Scriptlet.Proofs.Warnings

/-!
# The ranges of diagnostics

Faults are found at tokens and warnings at expressions. Both ranges are stretches of the text
(`Span.Stretch`), and on those the order by bytes, in which faults and warnings are sorted, is the
order by line and column, in which they are shown. Expressions cover at least one token, so their
ranges are never empty; the token at the end of a text is, and a fault there is shown one column
wide.

Main statement : `diagnostics_well_formed`.
-/

namespace Scriptlet

/-- The range starts and ends at positions of the text, and it does not end before it starts. -/
structure Span.Stretch (source : Bytes) (span : Span) : Prop where
  start : span.start.In source
  stop : span.stop.In source
  forwards : span.start.offset ≤ span.stop.offset

namespace Diagnostic

/-- The line and the column at which the range starts. -/
def place (d : Diagnostic) : ℕ ×ₗ ℕ := toLex (d.line, d.column)

/-- The line and the column at which the range ends. -/
def endPlace (d : Diagnostic) : ℕ ×ₗ ℕ := toLex (d.endLine, d.endColumn)

/-- Lines and columns are counted from one, and the range is not empty. -/
structure WellFormed (d : Diagnostic) : Prop where
  line : 1 ≤ d.line
  column : 1 ≤ d.column
  nonempty : d.place < d.endPlace

variable {source : Bytes}

theorem place_ofError (e : SyntaxError) : (ofError e).place = e.span.start.place := by
  rw [ofError]
  split <;> rfl

theorem wellFormed_ofError {e : SyntaxError} (h : e.span.Stretch source) :
    (ofError e).WellFormed := by
  obtain ⟨hline, hcolumn⟩ := h.start.pos
  rw [ofError]
  split
  next => exact ⟨hline, hcolumn, Prod.Lex.toLex_lt_toLex.2 (.inr ⟨rfl, Nat.lt_succ_self _⟩)⟩
  next hwide =>
    refine ⟨hline, hcolumn, Position.place_lt_iff.2 ?_⟩
    rcases Position.place_le_iff.1 ((h.start.place_le_iff h.stop).2 h.forwards) with hless | hsame
    · exact .inl hless
    · exact .inr ⟨hsame.1, Nat.lt_of_not_le fun hle => hwide (.inr ⟨hsame.1.symm, hle⟩)⟩

theorem wellFormed_ofWarning {w : Warning} (h : w.span.Stretch source)
    (hwide : w.span.start.offset < w.span.stop.offset) : (ofWarning w).WellFormed :=
  ⟨h.start.pos.1, h.start.pos.2, (h.start.place_lt_iff h.stop).2 hwide⟩

end Diagnostic

/-! ## Faults and warnings are stretches of the text -/

variable {source : Bytes}

theorem Span.stretch_of_token {t : Token} (ht : t ∈ tokenize source) : t.span.Stretch source :=
  ⟨(in_of_mem_tokenize ht).1, (in_of_mem_tokenize ht).2, (cuts_tokenize source).forwards t ht⟩

/-- An expression that is read, with or without faults around it, covers at least one byte. -/
theorem Span.stretch_of_expr {e : Expr}
    (he : .expr e ∈ (Node.script (parsePartial source).1).walk) :
    e.span.Stretch source ∧ e.span.start.offset < e.span.stop.offset := by
  obtain ⟨u, hu, c, hreads⟩ := (builtFrom_parsePartial source).exists_of_mem_walk _ he
  obtain ⟨t, v, hfirst, hstart⟩ := hreads.covers.first
  have ht : t ∈ u := hfirst ▸ List.mem_cons_self
  have hkind : t.kind ≠ .eof := by
    have hkinds : ∀ k ∈ Category.expressionKinds, k ≠ .eof := by decide
    exact hkinds _ (hreads.kinds t ht)
  have horder := (inOrder_tokenize source).sublist hu.sublist
  have hone : t.span.Covers [t] := ⟨⟨t, [], rfl, rfl⟩, ⟨[], t, rfl, rfl⟩⟩
  have hinside := horder.within ⟨[], v, hfirst.symm⟩ hreads.covers hone
  have hwide : t.start.offset < t.stop.offset :=
    (ordered_tokenize source).nonempty t (List.mem_filter.1 (hu.subset ht)).1 hkind
  have hless : e.span.start.offset < e.span.stop.offset :=
    Nat.lt_of_lt_of_le (hstart ▸ hwide) hinside.2
  have hin := in_of_mem_walk he
  exact ⟨⟨hin.1, hin.2, hless.le⟩, hless⟩

/-- Every fault is found at a token : it is the fault of an error token, or it is about a token of
another kind. -/
theorem token_of_error {e : SyntaxError} (he : e ∈ (parsePartial source).2) :
    ∃ t ∈ tokenize source,
      (t.kind = .error ∧ e = .ofToken t) ∨ (e.span = t.span ∧ e.cause.IsAbout t) := by
  obtain ⟨body, stop, htokens, hstop, hbody⟩ := tokenize_eq source
  rw [parsePartial, (SyntaxError.perm_sorted _).mem_iff, htokens] at he
  rw [htokens]
  cases hlexical : e.cause.isLexical with
  | true =>
    have hmem : e ∈ (Parser.script (body ++ [stop])).2.errors.filter (·.cause.isLexical) :=
      List.mem_filter.2 ⟨he, hlexical⟩
    rw [Parser.lexical_script hstop hbody] at hmem
    obtain ⟨t, ht, rfl⟩ := List.mem_map.1 hmem
    obtain ⟨hbodied, hkind⟩ := List.mem_filter.1 ht
    exact ⟨t, List.mem_append_left _ hbodied, .inl ⟨by simpa using hkind, rfl⟩⟩
  | false =>
    obtain ⟨t, ht, -, habout⟩ := Parser.isAbout_of_mem_script hstop he hlexical
    exact ⟨t, ht, .inr habout⟩

/-- An error is about a token, be it faulty or only in the wrong place. -/
theorem exists_token_of_error {e : SyntaxError} (he : e ∈ (parsePartial source).2) :
    ∃ t ∈ tokenize source, e.span = t.span := by
  obtain ⟨t, ht, ⟨-, rfl⟩ | ⟨hspan, -⟩⟩ := token_of_error he
  · exact ⟨t, ht, rfl⟩
  · exact ⟨t, ht, hspan⟩

theorem Stmt.test_of_fork {s : Stmt} {f : Fork} {n k : Nat} (h : s.fork? n k = some f) :
    f.test = s.value := by
  cases s with
  | cond | loop => exact Option.some.inj h ▸ rfl
  | print | assign | expr => cases h

/-- Every warning is about the range of an expression. -/
theorem Analysis.exists_expr_of_warning {script : Script} {w : Warning}
    (h : w ∈ (ofScript script).warnings) :
    ∃ e, .expr e ∈ (Node.script script).walk ∧ w.span = e.span := by
  rcases exists_of_warnings h with ⟨e, k, he, hon⟩ | ⟨s, n, k, f, hs, hf, hwarned⟩
  · exact ⟨e, he.mem_walk, hon.span_eq⟩
  · have hplace : script.Places s.value (s.valuePlace k) := ⟨s, n, k, hs, .self _ _⟩
    rw [Stmt.test_of_fork hf] at hwarned
    exact ⟨s.value, hplace.mem_walk, congrArg Warning.span (Expr.of_conditionWarning hwarned)⟩

theorem Analysis.pairwise_warnings (script : Script) : (ofScript script).warnings.Pairwise
    fun a b => a.span.start.offset ≤ b.span.start.offset :=
  pairwise_mergeSort_key _ _

/-! ## The list of diagnostics -/

/-- What is sorted by bytes is sorted by line and column. -/
theorem Position.pairwise_place {α : Type} {f : α → Position} {as : List α}
    (h : as.Pairwise fun a b => (f a).offset ≤ (f b).offset) (hin : ∀ a ∈ as, (f a).In source) :
    as.Pairwise fun a b => (f a).place ≤ (f b).place :=
  h.imp_of_mem fun ha hb hle => ((hin _ ha).place_le_iff (hin _ hb)).2 hle

/-- Warnings are shown if there is no fault. -/
theorem Inspection.diagnostics_ofSource (source : Bytes) :
    (IsScript source ∧ (ofSource source).diagnostics =
        (Analysis.ofScript (parsePartial source).1).warnings.map .ofWarning) ∨
      (¬IsScript source ∧
        (ofSource source).diagnostics = (parsePartial source).2.map .ofError) := by
  rw [ofSource]
  cases hparsed : parsePartial source with
  | mk tree errors =>
    cases errors with
    | nil => exact .inl ⟨⟨tree, by rw [parse, hparsed]⟩, rfl⟩
    | cons e rest => exact .inr ⟨@not_isScript _ (e :: rest) (by rw [parse, hparsed]), rfl⟩

/-- The diagnostics of a text start at its lines and columns and are not empty, and they are in the
order of their places. Those of a text with a fault are errors, and there is at least one; those of
any other text are warnings. The text is valid if there is no error among them. -/
theorem diagnostics_well_formed (source : Bytes) :
    (∀ d ∈ (Inspection.ofSource source).diagnostics, d.WellFormed) ∧
      ((Inspection.ofSource source).diagnostics.Pairwise fun a b => a.place ≤ b.place) ∧
      (¬IsScript source → (Inspection.ofSource source).diagnostics ≠ [] ∧
        ∀ d ∈ (Inspection.ofSource source).diagnostics, d.severity = .error) ∧
      (IsScript source → ∀ d ∈ (Inspection.ofSource source).diagnostics, d.severity = .warning) ∧
      ((Inspection.ofSource source).valid = true ↔
        ∀ d ∈ (Inspection.ofSource source).diagnostics, d.severity ≠ .error) := by
  have hvalid := Inspection.valid_iff.trans (@Inspection.without_error_iff source).symm
  rcases Inspection.diagnostics_ofSource source with ⟨hscript, hfound⟩ | ⟨hfault, hfound⟩
  · have hwarning : ∀ w ∈ (Analysis.ofScript (parsePartial source).1).warnings,
        w.span.Stretch source ∧ w.span.start.offset < w.span.stop.offset := fun w hw => by
      obtain ⟨e, he, hspan⟩ := Analysis.exists_expr_of_warning hw
      exact hspan ▸ Span.stretch_of_expr he
    rw [hfound] at hvalid ⊢
    refine ⟨List.forall_mem_map.2 fun w hw => ?_, List.pairwise_map.2 ?_,
      fun hno => absurd hscript hno, fun _ => List.forall_mem_map.2 fun w _ => rfl, hvalid⟩
    · exact Diagnostic.wellFormed_ofWarning (hwarning w hw).1 (hwarning w hw).2
    · exact Position.pairwise_place (Analysis.pairwise_warnings _) fun w hw =>
        (hwarning w hw).1.start
  · have herror : ∀ e ∈ (parsePartial source).2, e.span.Stretch source := fun e he => by
      obtain ⟨t, ht, hspan⟩ := exists_token_of_error he
      exact hspan ▸ Span.stretch_of_token ht
    have hsorted : (parsePartial source).2.Pairwise fun a b =>
        a.span.start.offset ≤ b.span.start.offset := by
      rw [parsePartial]
      exact SyntaxError.pairwise_sorted _
    have hnonempty : (Inspection.ofSource source).diagnostics ≠ [] := fun hnil =>
      hfault (Inspection.without_error_iff.1 (by simp [hnil]))
    rw [hfound] at hvalid hnonempty ⊢
    refine ⟨List.forall_mem_map.2 fun e he => Diagnostic.wellFormed_ofError (herror e he),
      List.pairwise_map.2 ?_, fun _ => ⟨hnonempty, List.forall_mem_map.2 fun e _ =>
        Diagnostic.severity_ofError e⟩, fun hyes => absurd hyes hfault, hvalid⟩
    simp only [Diagnostic.place_ofError]
    exact Position.pairwise_place hsorted fun e he => (herror e he).start

end Scriptlet
