import Scriptlet.Proofs.Accepting
import Scriptlet.Proofs.Tokens

/-!
# The texts that are programs

A text is read without a fault exactly if its tokens make a program of the grammar (`parse_iff`) :
no token is faulty, every number fits, and the kinds of the tokens before the end of the text make a
word of `Category.statements`. The tree that is returned is one that the tokens are read as
(`reads_of_parse`), and every such tree is returned (`script_of_reads`).
-/

namespace Scriptlet

namespace Parser

/-! ## Where reading starts -/

/-- Faulty tokens are not shown to the reader. -/
theorem items_tokens (pending : List SyntaxError) (ts : List Token) :
    (items pending ts).map (·.token) = ts.filter fun t => t.kind ≠ .error := by
  induction ts generalizing pending with
  | nil => rfl
  | cons t rest ih =>
    rw [items]
    split
    next hk => rw [ih, List.filter_cons_of_neg (by simp [hk])]
    next hk => rw [List.map_cons, ih, List.filter_cons_of_pos (by simpa using hk)]

/-- Every faulty token is kept as a fault, if a token follows it. -/
theorem items_faults (pending : List SyntaxError) (body : List Token) {stop : Token}
    (hstop : stop.kind ≠ .error) : (items pending (body ++ [stop])).flatMap (·.faults) =
      pending ++ (body.filter fun t => t.kind = .error).map .ofToken := by
  induction body generalizing pending with
  | nil => simp [items, hstop]
  | cons t rest ih =>
    rw [List.cons_append, items]
    split
    next hk => rw [ih, List.filter_cons_of_pos (by simpa using hk)]; simp
    next hk => rw [List.flatMap_cons, ih, List.filter_cons_of_neg (by simpa using hk)]; simp

/-- The state before the first of some tokens : no faulty token is in view, and their faults are
reported or pending. -/
theorem ofTokens_spec (body : List Token) {stop : Token} (hstop : stop.kind = .eof) :
    (State.ofTokens (body ++ [stop])).tokens = (body.filter fun t => t.kind ≠ .error) ++ [stop] ∧
      (State.ofTokens (body ++ [stop])).errors ++ (State.ofTokens (body ++ [stop])).pending =
        (body.filter fun t => t.kind = .error).map .ofToken := by
  have hne : stop.kind ≠ .error := by rw [hstop]; decide
  have htokens := items_tokens [] (body ++ [stop])
  have hfaults := items_faults [] body hne
  rw [List.filter_append, List.filter_cons_of_pos (by simpa using hne), List.filter_nil] at htokens
  rw [State.ofTokens]
  cases hitems : items [] (body ++ [stop]) with
  | nil =>
    rw [hitems] at htokens
    simp at htokens
  | cons i rest =>
    rw [hitems] at htokens hfaults
    refine ⟨htokens, ?_⟩
    rw [← List.nil_append (List.map _ _), ← hfaults]
    cases rest <;> simp [State.pending, State.headFaults]

theorem left_ofTokens (body : List Token) {stop : Token} (hstop : stop.kind = .eof) :
    (State.ofTokens (body ++ [stop])).left ≤ body.length := by
  have hlen := congrArg List.length (ofTokens_spec body hstop).1
  have hfilter := List.length_filter_le (fun t : Token => t.kind ≠ .error) body
  rw [State.length_tokens, List.length_append, List.length_singleton] at hlen
  omega

/-! ## Reading tokens -/

section

variable {body : List Token} {stop : Token} (hstop : stop.kind = .eof)

include hstop

/-- If no fault is found, no token is faulty, and the tokens are read as the statements. -/
theorem reads_of_script (hbody : ∀ t ∈ body, t.kind ≠ .eof)
    (herrors : (script (body ++ [stop])).2.errors = []) : (∀ t ∈ body, t.kind ≠ .error) ∧
      Part.Reads (.block (script (body ++ [stop])).1.statements) body := by
  obtain ⟨hview, hfaults⟩ := ofTokens_spec body hstop
  have hleft := left_ofTokens body hstop
  rw [script] at herrors ⊢
  generalize State.ofTokens (body ++ [stop]) = s at hview hfaults hleft herrors ⊢
  generalize hfuel : fuelFor (body ++ [stop]).length = fuel at herrors ⊢
  have hample : 20 * s.left + 17 ≤ fuel := by
    rw [← hfuel, fuelFor, List.length_append, List.length_singleton]
    omega
  have hs : s.Ended :=
    ⟨_, stop, hview, hstop, fun t ht => hbody t ((List.mem_filter.1 ht).1)⟩
  -- the faults found before the first token are kept, so there are none
  have hstart : s.errors = [] := by
    have hgrows := Growing.prefix_errors (p := always (block fuel [])) s
    exact List.prefix_nil.1 (herrors ▸ hgrows)
  obtain ⟨ss, u, s', hrun, hpass, hreads, hend⟩ :=
    (reads_statements fuel).block [] s hs hample (herrors.trans hstart.symm)
  have hblock : block fuel [] s = (ss, s') := by
    obtain ⟨hss, hs'⟩ := Prod.mk.inj hrun
    exact Prod.ext (Option.some.inj hss) hs'
  -- reading ends at the end of the text, where no fault is pending
  have hkind : s'.kind = .eof := by simpa [State.endsBlock] using hend
  have hlast := (hpass.ended hs).tokens_of_eof hkind
  have hpending : s.pending = [] := by
    rw [← hpass.pending]
    have hup : s'.upcoming = [] := by simpa [State.tokens] using hlast
    simp [State.pending, hup]
  rw [hstart, hpending, List.append_nil] at hfaults
  have hnone : ∀ t ∈ body, t.kind ≠ .error := by
    simpa using hfaults.symm
  refine ⟨hnone, ?_⟩
  have htokens := hpass.tokens
  rw [hview, hlast, List.filter_eq_self.2 (by simpa using hnone)] at htokens
  obtain ⟨rfl, -⟩ := List.append_inj' htokens rfl
  rw [hblock]
  exact hreads

/-- The statements that some tokens, none of them faulty, are read as are returned. -/
theorem script_of_reads {ss : List Stmt} (hnone : ∀ t ∈ body, t.kind ≠ .error)
    (h : Part.Reads (.block ss) body) :
    (script (body ++ [stop])).1.statements = ss ∧ (script (body ++ [stop])).2.errors = [] := by
  obtain ⟨hview, hfaults⟩ := ofTokens_spec body hstop
  have hleft := left_ofTokens body hstop
  rw [script]
  generalize State.ofTokens (body ++ [stop]) = s at hview hfaults hleft ⊢
  generalize hfuel : fuelFor (body ++ [stop]).length = fuel
  have hample : 20 * s.left + 17 ≤ fuel := by
    rw [← hfuel, fuelFor, List.length_append, List.length_singleton]
    omega
  rw [List.filter_eq_self.2 (by simpa using hnone)] at hview
  rw [List.filter_eq_nil_iff.2 (by simpa using hnone), List.map_nil,
    List.append_eq_nil_iff] at hfaults
  obtain ⟨s', hrun, hpass⟩ := accepts_parts h fuel [] s stop [] (.of_pending hview hfaults.2)
    (List.nil_subset _) (by rw [hstop]; exact List.mem_cons_self) hample
  obtain ⟨hss, rfl⟩ := Prod.mk.inj hrun
  exact ⟨Option.some.inj hss, hpass.errors.trans hfaults.1⟩

end

end Parser

theorem SyntaxError.sorted_eq_nil {errors : List SyntaxError} :
    SyntaxError.sorted errors = [] ↔ errors = [] := by
  rw [sorted, ← List.length_eq_zero_iff, List.length_mergeSort, List.length_eq_zero_iff]

/-! ## Trees and texts -/

/-- A text has a tree if reading it finds no fault. -/
theorem parse_eq_ok {source : Bytes} {tree : Script} : parse source = .ok tree ↔
    (Parser.script (tokenize source)).1 = tree ∧
      (Parser.script (tokenize source)).2.errors = [] := by
  rw [parse, parsePartial]
  rcases Parser.script (tokenize source) with ⟨tree', s⟩
  dsimp only
  rw [← SyntaxError.sorted_eq_nil]
  cases SyntaxError.sorted s.errors <;> simp

theorem tree_of_parse {source : Bytes} {tree : Script} (h : parse source = .ok tree) :
    (parsePartial source).1 = tree :=
  (parse_eq_ok.1 h).1

theorem exists_tree_of_isOk {source : Bytes} (h : (parse source).isOk = true) :
    ∃ tree, parse source = .ok tree := by
  cases hparse : parse source with
  | error e =>
    rw [hparse] at h
    cases h
  | ok tree => exact ⟨tree, rfl⟩

/-- A text without a fault has a tree that its tokens, none of them faulty, are read as. -/
theorem reads_of_parse {source : Bytes} {tree : Script} (h : parse source = .ok tree) :
    ∃ body stop, tokenize source = body ++ [stop] ∧ stop.kind = .eof ∧
      (∀ t ∈ body, t.kind ≠ .eof ∧ t.kind ≠ .error) ∧ Part.Reads (.block tree.statements) body := by
  obtain ⟨body, stop, htokens, hstop, hbody⟩ := tokenize_eq source
  obtain ⟨rfl, herrors⟩ := parse_eq_ok.1 h
  rw [htokens] at herrors ⊢
  obtain ⟨hnone, hreads⟩ := Parser.reads_of_script hstop hbody herrors
  exact ⟨body, stop, rfl, hstop, fun t ht => ⟨hbody t ht, hnone t ht⟩, hreads⟩

/-- A text with a tree has no faulty token. -/
theorem noErrors_of_parse {source : Bytes} {tree : Script} (h : parse source = .ok tree) :
    ∀ t ∈ tokenize source, t.kind ≠ .error := by
  obtain ⟨body, stop, htokens, hstop, hbody, -⟩ := reads_of_parse h
  rw [htokens, List.forall_mem_append, List.forall_mem_singleton, hstop]
  exact ⟨fun t ht => (hbody t ht).2, nofun⟩

/-- A text is a program exactly if none of its tokens is faulty, every number in it fits, and its
tokens before the end of the text make a program of the grammar. -/
theorem parse_iff (source : Bytes) : (∃ tree, parse source = .ok tree) ↔
    (∀ t ∈ tokenize source, t.kind ≠ .error) ∧
      (∀ t ∈ tokenize source, t.kind = .number → (numberOfLiteral? t.literal).isSome) ∧
      Derives .statements ((tokenize source).dropLast.map Token.kind) := by
  constructor
  · rintro ⟨tree, h⟩
    obtain ⟨body, stop, htokens, hstop, hbody, hreads⟩ := reads_of_parse h
    have hnumbers := hreads.numbersFit
    rw [htokens, List.dropLast_concat]
    refine ⟨fun t ht => ?_, fun t ht hk => ?_, hreads.derives⟩
    · rcases List.mem_append.1 ht with ht | ht
      · exact (hbody t ht).2
      · rw [List.mem_singleton.1 ht, hstop]
        decide
    · rcases List.mem_append.1 ht with ht | ht
      · exact hnumbers t ht hk
      · rw [List.mem_singleton.1 ht, hstop] at hk
        cases hk
  · rintro ⟨hnone, hnumbers, hderives⟩
    obtain ⟨body, stop, htokens, hstop, hbody⟩ := tokenize_eq source
    rw [htokens] at hnone hnumbers hderives
    rw [List.dropLast_concat] at hderives
    have hfit : NumbersFit body := fun t ht => hnumbers t (List.mem_append_left _ ht)
    obtain ⟨ss, hss⟩ := hderives.realized rfl hfit
    refine ⟨_, parse_eq_ok.2 ⟨rfl, ?_⟩⟩
    rw [htokens]
    exact (Parser.script_of_reads hstop (fun t ht => hnone t (List.mem_append_left _ ht)) hss).2

end Scriptlet
