import Scriptlet.Proofs.Lines
import Scriptlet.Proofs.Recovery
import Scriptlet.Syntax.Diagnostic

/-!
# The statements above a fault

What stands below a text without faults, whatever it is, costs it at most its last statement, and
not even that one if the line below starts with a word of a statement and a token that can be read.
The reader looks at two tokens, so it finds a faulty token right after that word while it still
reads the last statement, and leaves the statement out (`statement_lost`).

Main statement : `statements_survive`.
-/

namespace Scriptlet

namespace Parser

/-- The words that a statement surely starts with. -/
def statementWords : List TokenKind := [.printWord, .printlnWord, .ifWord, .whileWord]

/-! ## Blocks that go on -/

theorem ne_nil_of_block {ss : List Stmt} {u : List Token} (h : Part.Reads (.block ss) u)
    (hss : ss ≠ []) : u ≠ [] := by
  cases h with
  | done => exact absurd rfl hss
  | more hfirst =>
    obtain ⟨t, v, rfl, -⟩ := hfirst.first_of_statement
    exact List.cons_ne_nil _ _

section

variable {last : Stmt} {rest : List Token}

/-- A block of statements up to the last of them. -/
theorem block_upto_last : ∀ (ss : List Stmt) {u : List Token} {fuel : Nat} {s : State},
    Part.Reads (.block (ss ++ [last])) u → s.Faces (u ++ rest) → 20 * s.left + 17 ≤ fuel →
    ∃ fuel' s' v, Part.Reads (.statement last) v ∧ s'.Faces (v ++ rest) ∧
      20 * s'.left + 17 ≤ fuel' ∧
      block fuel [] s = (ss ++ (block fuel' [] s').1, (block fuel' [] s').2)
  | [], u, fuel, s, h, hs, hfuel => by
    cases h with
    | more hlast _ hdone =>
      cases hdone
      rw [List.append_nil] at hs
      exact ⟨fuel, s, _, hlast, hs, hfuel, rfl⟩
  | stmt :: ss, u, fuel, s, h, hs, hfuel => by
    cases h with
    | @more _ u _ v hstmt hapart hss =>
      have hss : Part.Reads (.block (ss ++ [last])) v := hss
      obtain ⟨t, x, rfl⟩ := List.exists_cons_of_ne_nil (ne_nil_of_block hss (by simp))
      obtain ⟨fuel, rfl⟩ : ∃ f, fuel = f + 1 := ⟨fuel - 1, by omega⟩
      rw [List.append_assoc] at hs
      obtain ⟨s₁, -, hs₁, hleft, hrun⟩ := block_of_accepts (List.nil_subset _) hstmt hs
        (accepts_parts hstmt fuel s t _ hs (ends_of_first hapart hss) (by omega))
      have hrest : 20 * s₁.left + 17 ≤ fuel := by omega
      obtain ⟨fuel', s', w, hlast, hs', hfuel', hrun'⟩ := block_upto_last ss hss hs₁ hrest
      exact ⟨fuel', s', w, hlast, hs', hfuel', by rw [hrun, hrun']; rfl⟩

/-- The last statement before a word that starts another one. -/
theorem block_of_last {v : List Token} {word : Token} {fuel : Nat} {s : State}
    (h : Part.Reads (.statement last) v) (hs : s.Faces (v ++ word :: rest))
    (hword : word.kind ∈ statementWords) (hfuel : 20 * s.left + 17 ≤ fuel) :
    [last] <+: (block fuel [] s).1 := by
  obtain ⟨fuel, rfl⟩ : ∃ f, fuel = f + 1 := ⟨fuel - 1, by omega⟩
  have hends : ∀ k ∈ statementWords, k ∉ Category.operators ∧ k ≠ .assign := by decide
  obtain ⟨s', -, -, -, hrun⟩ := block_of_accepts (List.nil_subset _) h hs
    (accepts_parts h fuel s word rest hs (fun _ => hends _ hword) (by omega))
  rw [hrun]
  exact ⟨_, rfl⟩

end

/-! ## Scripts that go on -/

/-- Tokens without faults before others. -/
theorem items_append {ts : List Token} (h : ∀ t ∈ ts, t.kind ≠ .error) (rest : List Token) :
    items [] (ts ++ rest) = ts.map (⟨[], ·⟩) ++ items [] rest := by
  induction ts with
  | nil => rfl
  | cons t ts ih =>
    obtain ⟨ht, hts⟩ := List.forall_mem_cons.1 h
    rw [List.cons_append, items, if_neg ht, ih hts]
    rfl

/-- At the start the reader faces the tokens before one that can be read. -/
theorem faces_ofTokens {ts : List Token} {next : Token} (hts : ∀ t ∈ ts, t.kind ≠ .error)
    (hnext : next.kind ≠ .error) (rest : List Token) :
    (State.ofTokens (ts ++ next :: rest)).Faces ts := by
  cases ts with
  | nil => exact ⟨List.nil_prefix, fun i hi => by simp at hi⟩
  | cons t ts =>
    have hall : ∀ t' ∈ t :: ts ++ [next], t'.kind ≠ .error :=
      List.forall_mem_append.2 ⟨hts, List.forall_mem_singleton.2 hnext⟩
    have hitems : items [] (t :: ts ++ next :: rest) =
        ⟨[], t⟩ :: ((ts ++ [next]).map (⟨[], ·⟩) ++ items [] rest) := by
      simpa using items_append hall rest
    rw [State.ofTokens, hitems]
    refine ⟨?_, fun i hi => ?_⟩
    · simp [State.tokens, Function.comp_def]
    · have htake : ((ts ++ [next]).map (fun t => (⟨[], t⟩ : Item)) ++ items [] rest).take
          (t :: ts).length = (ts ++ [next]).map fun t => (⟨[], t⟩ : Item) :=
        List.take_left' (by simp)
      rw [htake] at hi
      obtain ⟨t', -, rfl⟩ := List.mem_map.1 (List.mem_of_mem_drop hi)
      rfl

/-- The statements that some tokens are read as, with more tokens behind them : all but the last one
are kept in any case. The last one is kept if the token after the next word can be read. -/
theorem script_append {body later more : List Token} {word next stop : Token} {ss : List Stmt}
    (hreads : Part.Reads (.block ss) body) (hbody : ∀ t ∈ body, t.kind ≠ .error)
    (hword : word.kind ∈ statementWords) (hstop : stop.kind = .eof)
    (hend : body ++ word :: next :: later = more ++ [stop]) :
    ss.dropLast <+: (script (body ++ word :: next :: later)).1.statements ∧
      (next.kind ≠ .error → ss <+: (script (body ++ word :: next :: later)).1.statements) := by
  have hne : ∀ k ∈ statementWords, k ≠ .error := by decide
  rcases List.eq_nil_or_concat ss with rfl | ⟨ss, last, rfl⟩
  · exact ⟨List.nil_prefix, fun _ => List.nil_prefix⟩
  have hfuel := @fuel_ofTokens more stop hstop
  rw [← hend] at hfuel
  rw [List.concat_eq_append] at hreads ⊢
  rw [List.dropLast_concat]
  rw [script]
  refine ⟨?_, fun hnext => ?_⟩
  · have hs : (State.ofTokens (body ++ word :: next :: later)).Faces (body ++ []) := by
      rw [List.append_nil]
      exact faces_ofTokens hbody (hne _ hword) _
    obtain ⟨fuel', s', v, -, -, -, hrun⟩ := block_upto_last ss hreads hs hfuel
    rw [hrun]
    exact List.prefix_append _ _
  · have hs : (State.ofTokens (body ++ word :: next :: later)).Faces (body ++ [word]) := by
      rw [List.append_cons]
      refine faces_ofTokens ?_ hnext _
      exact List.forall_mem_append.2 ⟨hbody, List.forall_mem_singleton.2 (hne _ hword)⟩
    obtain ⟨fuel', s', v, hlast, hs', hfuel', hrun⟩ := block_upto_last ss hreads hs hfuel
    rw [hrun]
    exact (List.prefix_append_right_inj ss).2 (block_of_last hlast hs' hword hfuel')

end Parser

/-! ## Occurrences -/

namespace Stmt

theorem assignmentsOf_append (ss ss' : List Stmt) :
    assignmentsOf (ss ++ ss') = assignmentsOf ss ++ assignmentsOf ss' := by
  induction ss with
  | nil => rfl
  | cons s ss ih => rw [List.cons_append, assignmentsOf, assignmentsOf, ih, List.append_assoc]

theorem referencesOf_append (ss ss' : List Stmt) :
    referencesOf (ss ++ ss') = referencesOf ss ++ referencesOf ss' := by
  induction ss with
  | nil => rfl
  | cons s ss ih => rw [List.cons_append, referencesOf, referencesOf, ih, List.append_assoc]

end Stmt

/-- What the analysis of some statements finds, it finds with more statements behind them. -/
theorem Analysis.prefix_ofScript {tree tree' : Script} (h : tree.statements <+: tree'.statements) :
    (Analysis.ofScript tree).assignments <+: (Analysis.ofScript tree').assignments ∧
      (Analysis.ofScript tree).references <+: (Analysis.ofScript tree').references := by
  obtain ⟨more, hmore⟩ := h
  rw [ofScript, ofScript, ← hmore]
  exact ⟨Stmt.assignmentsOf_append tree.statements more ▸ List.prefix_append _ _,
    Stmt.referencesOf_append tree.statements more ▸ List.prefix_append _ _⟩

theorem Inspection.analysis_ofSource (source : Bytes) :
    (Inspection.ofSource source).analysis = Analysis.ofScript (parsePartial source).1 := by
  rw [ofSource]
  split
  split <;> simp_all

/-! ## Texts -/

/-- A text without faults, with lines below that start with a word of a statement, keeps all its
statements but the last one. It keeps that one too, and with it every place where a variable is
assigned or read, if the token after the word can be read, or if there is none to keep. -/
theorem statements_survive {first second : Bytes} {tree : Script} {word next : Token}
    {later : List Token} (h : parse first = .ok tree)
    (htokens : tokenize second = word :: next :: later)
    (hword : word.kind ∈ Parser.statementWords) :
    tree.statements.dropLast <+: (parsePartial (stacked first second)).1.statements ∧
      (next.kind ≠ .error ∨ tree.statements = [] →
        tree.statements <+: (parsePartial (stacked first second)).1.statements ∧
        (Analysis.ofScript tree).assignments <+:
          (Inspection.ofSource (stacked first second)).analysis.assignments ∧
        (Analysis.ofScript tree).references <+:
          (Inspection.ofSource (stacked first second)).analysis.references) := by
  obtain ⟨body, stop, hfirst, hstop, hbody, hreads⟩ := reads_of_parse h
  have hnone : ∀ t ∈ tokenize first, t.kind ≠ .error := by
    rw [hfirst]
    refine List.forall_mem_append.2 ⟨fun t ht => (hbody t ht).2, List.forall_mem_singleton.2 ?_⟩
    rw [hstop]
    decide
  have happend := tokenize_stacked first second hnone
  generalize (Position.start.pastAll (Utf8.glyphs first)).past .lineFeed = p at happend
  have hkinds := kinds_of_contents (contents_scan (.token 0) p Position.start (Utf8.glyphs second))
  change _ = (tokenize second).map Token.kind at hkinds
  rw [htokens] at hkinds
  obtain ⟨word', tail, hscan, hword', htail⟩ := List.map_eq_cons_iff.1 hkinds
  obtain ⟨next', later', rfl, hnext', -⟩ := List.map_eq_cons_iff.1 htail
  rw [hscan, hfirst, List.dropLast_concat] at happend
  obtain ⟨more, stop', hsource, hstop', -⟩ := tokenize_eq (stacked first second)
  obtain ⟨hall, hlast⟩ := Parser.script_append hreads (fun t ht => (hbody t ht).2)
    (hword' ▸ hword) hstop' (happend.symm.trans hsource)
  rw [← happend] at hall hlast
  rw [Inspection.analysis_ofSource]
  refine ⟨hall, fun hkept => ?_⟩
  have hpre : tree.statements <+: (parsePartial (stacked first second)).1.statements := by
    rcases hkept with hnext | hnil
    · exact hlast (hnext' ▸ hnext)
    · rw [hnil]
      exact List.nil_prefix
  exact ⟨hpre, Analysis.prefix_ofScript hpre⟩

/-- Two statements above a line with faults, the first of them behind its first two tokens. -/
theorem statements_survive_of_parenthesis : ∃ tree : Script, parse "x := 1\ny := x" = .ok tree ∧
    tree.statements <+: (parsePartial (stacked "x := 1\ny := x" "print ) @")).1.statements ∧
    (Analysis.ofScript tree).assignments <+:
      (Inspection.ofSource (stacked "x := 1\ny := x" "print ) @")).analysis.assignments := by
  have htokens : tokenize "print ) @" = [⟨.printWord, "print", ⟨0, 1, 1⟩, ⟨5, 1, 6⟩⟩,
      ⟨.rightParen, ")", ⟨6, 1, 7⟩, ⟨7, 1, 8⟩⟩,
      ⟨.error, Lexeme.unexpected 0x40, ⟨8, 1, 9⟩, ⟨9, 1, 10⟩⟩,
      ⟨.eof, "", ⟨9, 1, 10⟩, ⟨9, 1, 10⟩⟩] := by
    decide +kernel
  have hok : (parse "x := 1\ny := x").isOk = true := by decide +kernel
  cases hparse : parse "x := 1\ny := x" with
  | ok tree =>
    obtain ⟨hall, hassign, -⟩ :=
      (statements_survive hparse htokens (by decide)).2 (.inl (by decide))
    exact ⟨tree, rfl, hall, hassign⟩
  | error errors =>
    rw [hparse] at hok
    cases hok

/-- A statement above a line whose second token cannot be read is lost, with its assignment. -/
theorem statement_lost : (parse "x := 1").isOk ∧
    ((parse "x := 1").toOption.map fun tree => (Analysis.ofScript tree).assignments.length) =
      some 1 ∧
    (tokenize "print @").map Token.kind = [.printWord, .error, .eof] ∧
    (parsePartial (stacked "x := 1" "print @")).1.statements = [] ∧
    (Inspection.ofSource (stacked "x := 1" "print @")).analysis.assignments = [] := by
  rw [Inspection.analysis_ofSource]
  decide +kernel

end Scriptlet
