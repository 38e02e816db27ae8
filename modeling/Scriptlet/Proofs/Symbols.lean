import Mathlib.Data.List.Nodup
import Scriptlet.Editor.Feature
import Scriptlet.Proofs.Prefixes
import Scriptlet.Proofs.Recovery
import Scriptlet.Proofs.Tables

/-!
# Names and the index of a script

The names among the tokens of a text are of two kinds : those before an assignment sign, and all
others (`identifiers`). In a text without faults, the first are the assignments that the analysis
lists, and the others are the readings, each with its own range and in the order of the source
(`Part.Reads.occurrences`). So the index by name holds each name of the text once, and nothing else.

Main statement : `index_of_identifiers`.
-/

namespace Scriptlet

/-! ## Names among tokens -/

/-- The next token is an assignment sign. -/
def assignNext (ts : List Token) : Bool := ts.head?.map Token.kind == some .assign

/-- The names among some tokens : those before an assignment sign, or all others. -/
def identifiers (assigned : Bool) : List Token → List Token
  | [] => []
  | t :: rest =>
    if t.kind = .identifier ∧ assignNext rest = assigned then t :: identifiers assigned rest
    else identifiers assigned rest

/-- The name of a token, with its range. -/
def Token.occurrence (t : Token) : Occurrence := (t.literal, t.span)

section

variable {assigned : Bool} {t : Token} {u v : List Token}

theorem identifiers_cons (h : t.kind ≠ .identifier) :
    identifiers assigned (t :: u) = identifiers assigned u := by
  rw [identifiers, if_neg fun hname => h hname.1]

/-- The names of two parts of a text, the second of which does not start with an assignment sign. -/
theorem identifiers_append (hv : assignNext v = false) : ∀ u : List Token,
    identifiers assigned (u ++ v) = identifiers assigned u ++ identifiers assigned v
  | [] => rfl
  | t :: u => by
    have hnext : assignNext (u ++ v) = assignNext u := by
      cases u with
      | nil => exact hv
      | cons => rfl
    rw [List.cons_append, identifiers, identifiers, hnext, identifiers_append hv u]
    split <;> rfl

/-- Without assignment signs there are no assigned names. -/
theorem identifiers_of_ne_assign : ∀ {u : List Token}, (∀ t ∈ u, t.kind ≠ .assign) →
    identifiers true u = [] ∧ identifiers false u = u.filter fun t => t.kind = .identifier
  | [], _ => ⟨rfl, rfl⟩
  | t :: u, h => by
    obtain ⟨-, hu⟩ := List.forall_mem_cons.1 h
    obtain ⟨htrue, hfalse⟩ := identifiers_of_ne_assign hu
    have hnext : assignNext u = false := by
      cases u with
      | nil => rfl
      | cons t' u => simpa [assignNext] using hu t' List.mem_cons_self
    simp [identifiers, hnext, htrue, hfalse, List.filter_cons]

theorem identifiers_sublist (assigned : Bool) : ∀ u : List Token,
    (identifiers assigned u).Sublist (u.filter fun t => t.kind = .identifier)
  | [] => .slnil
  | t :: u => by
    have ih := identifiers_sublist assigned u
    rw [identifiers]
    split
    next hname =>
      rw [List.filter_cons_of_pos (by simpa using hname.1)]
      exact ih.cons_cons t
    next =>
      by_cases hk : t.kind = .identifier
      · rw [List.filter_cons_of_pos (by simpa using hk)]
        exact ih.cons t
      · rw [List.filter_cons_of_neg (by simpa using hk)]
        exact ih

/-- Each name is of one of the two kinds. -/
theorem identifiers_perm : ∀ u : List Token,
    (identifiers true u ++ identifiers false u).Perm (u.filter fun t => t.kind = .identifier)
  | [] => .refl _
  | t :: u => by
    have ih := identifiers_perm u
    by_cases hk : t.kind = .identifier
    · rw [List.filter_cons_of_pos (by simpa using hk), identifiers, identifiers]
      cases hnext : assignNext u with
      | true => simpa [hk] using ih.cons t
      | false => simpa [hk] using List.perm_middle.trans (ih.cons t)
    · rwa [identifiers_cons hk, identifiers_cons hk, List.filter_cons_of_neg (by simpa using hk)]

theorem assignNext_cons (h : t.kind ≠ .assign) : assignNext (t :: u) = false := by
  simpa [assignNext] using h

end

/-! ## Names in trees -/

/-- The variables that an expression assigns, of which there are none, or those that it reads. -/
def Expr.occurrences (assigned : Bool) (e : Expr) : List Occurrence :=
  if assigned then [] else e.references

/-- The variables that a part of a script assigns, or those that it reads. -/
def Part.occurrences (assigned : Bool) : Part → List Occurrence
  | .statement s | .branch _ s => if assigned then s.assignments else s.references
  | .block ss | .rest ss _ => if assigned then Stmt.assignmentsOf ss else Stmt.referencesOf ss

/-- The variables that an expression reads are the names among its tokens. -/
theorem Expr.Reads.references_eq {c : Category} {e : Expr} {u : List Token} (h : e.Reads c u) :
    e.references = (u.filter fun t => t.kind = .identifier).map Token.occurrence := by
  have hop : ∀ k ∈ Category.operators, k ≠ .identifier := by decide
  have hsign : ∀ k ∈ Category.signs, k ≠ .identifier := by decide
  induction h with
  | operand _ _ ih | unsigned _ ih | base _ ih => exact ih
  | operator hc _ ho _ iha ihb =>
    simp [Expr.references, iha, ihb, hop _ (Category.mem_operators_of_chain hc ho)]
  | signed ho _ ih => simp [Expr.references, ih, hsign _ ho]
  | raised _ ho _ iha ihb => simp [Expr.references, iha, ihb, ho]
  | number hk | string hk => simp [Expr.references, hk]
  | @bool b t hk => cases b <;> simp [Expr.references, hk]
  | ident hk => simp [Expr.references, hk, Token.occurrence]
  | group hl _ hr ih => simp [Expr.references, ih, hl, hr]

theorem Expr.Reads.occurrences {c : Category} {e : Expr} {u : List Token} (h : e.Reads c u)
    (assigned : Bool) : (identifiers assigned u).map Token.occurrence = e.occurrences assigned := by
  have hkinds : ∀ k ∈ Category.expressionKinds, k ≠ .assign := by decide
  obtain ⟨htrue, hfalse⟩ := identifiers_of_ne_assign fun t ht => hkinds _ (h.kinds t ht)
  cases assigned with
  | true => rw [htrue]; rfl
  | false => rw [hfalse, ← h.references_eq]; rfl

/-- What comes behind a statement does not start with an assignment sign. -/
theorem Part.Reads.assignNext_block {ss : List Stmt} {u : List Token}
    (h : Part.Reads (.block ss) u) : assignNext u = false := by
  have hstarts : ∀ k ∈ Category.statementStarts, k ≠ .assign := by decide
  cases u with
  | nil => rfl
  | cons t u => exact assignNext_cons (hstarts _ h.first_of_block)

theorem Part.Reads.assignNext_rest {no : List Stmt} {stop : Position} {u : List Token}
    (h : Part.Reads (.rest no stop) u) : assignNext u = false := by
  have hwords : ∀ k ∈ [TokenKind.elifWord, .elseWord, .endWord], k ≠ .assign := by decide
  obtain ⟨t, v, rfl, hk⟩ := h.first_of_rest
  exact assignNext_cons (hwords _ hk)

/-- The variables of a part of a script are the names among its tokens, in the same order. -/
theorem Part.Reads.occurrences {p : Part} {u : List Token} (h : p.Reads u) (assigned : Bool) :
    (identifiers assigned u).map Token.occurrence = p.occurrences assigned := by
  have hprint : ∀ k ∈ [TokenKind.printWord, .printlnWord], k ≠ .identifier := by decide
  have hbranch : ∀ k ∈ [TokenKind.ifWord, .elifWord], k ≠ .identifier := by decide
  induction h with
  | print hk he =>
    rw [identifiers_cons (hprint _ hk), he.occurrences]
    cases assigned <;> rfl
  | @assign e u t a hk ha he =>
    have hnext : assignNext (a :: u) = true := by simp [assignNext, ha]
    rw [identifiers, hnext, identifiers_cons (by simp [ha])]
    cases assigned with
    | true =>
      rw [if_pos ⟨hk, rfl⟩, List.map_cons, he.occurrences]
      rfl
    | false =>
      rw [if_neg (by simp), he.occurrences]
      rfl
  | expr he =>
    rw [he.occurrences]
    cases assigned <;> rfl
  | cond _ ih => exact ih
  | loop hk he hd _ hr ih =>
    rw [List.append_assoc, List.cons_append, List.cons_append, identifiers_cons (by simp [hk]),
      identifiers_append (assignNext_cons (by simp [hd])), identifiers_cons (by simp [hd]),
      identifiers_append (assignNext_cons (by simp [hr])), identifiers_cons (by simp [hr]),
      identifiers, List.append_nil, List.map_append, he.occurrences, ih]
    cases assigned <;> rfl
  | done => cases assigned <;> rfl
  | more _ _ hss ihs ihss =>
    rw [identifiers_append hss.assignNext_block, List.map_append, ihs, ihss]
    cases assigned <;> rfl
  | branch hword hk he hd _ hrest ihyes ihno =>
    rw [List.append_assoc, List.cons_append, List.cons_append,
      identifiers_cons (hk ▸ hbranch _ hword), identifiers_append (assignNext_cons (by simp [hd])),
      identifiers_cons (by simp [hd]), identifiers_append hrest.assignNext_rest, List.map_append,
      List.map_append, he.occurrences, ihyes, ihno]
    cases assigned <;> rfl
  | close hr =>
    rw [identifiers_cons (by simp [hr])]
    cases assigned <;> rfl
  | otherwise ht _ hr ih =>
    rw [List.cons_append, identifiers_cons (by simp [ht]),
      identifiers_append (assignNext_cons (by simp [hr])), identifiers_cons (by simp [hr]),
      identifiers, List.append_nil, ih]
    rfl
  | elif _ ih =>
    rw [ih]
    cases assigned <;> simp [Part.occurrences, Stmt.assignmentsOf, Stmt.referencesOf]

/-- The analysis of a script that is read lists the names among the tokens of the text. -/
theorem occurrences_of_parse {source : Bytes} {script : Script} (h : parse source = .ok script) :
    (Analysis.ofScript script).assignments =
        (identifiers true (tokenize source)).map Token.occurrence ∧
      (Analysis.ofScript script).references =
        (identifiers false (tokenize source)).map Token.occurrence := by
  obtain ⟨body, stop, htokens, hstop, -, hreads⟩ := reads_of_parse h
  have hlast (assigned : Bool) :
      identifiers assigned (tokenize source) = identifiers assigned body := by
    rw [htokens, identifiers_append (assignNext_cons (by simp [hstop])),
      identifiers_cons (by simp [hstop]), identifiers, List.append_nil]
  rw [hlast, hlast, hreads.occurrences, hreads.occurrences]
  exact ⟨rfl, rfl⟩

/-! ## The index -/

/-- The ranges of a name among some tokens : those before an assignment sign, or all others. -/
def sites (assigned : Bool) (name : Bytes) (ts : List Token) : List Span :=
  ((identifiers assigned ts).filter fun t => t.literal = name).map Token.span

theorem spansOf_occurrences (name : Bytes) (ts : List Token) (assigned : Bool) :
    Analysis.spansOf name ((identifiers assigned ts).map Token.occurrence) =
      sites assigned name ts := by
  rw [Analysis.spansOf, List.filter_map, List.map_map]
  rfl

/-- The index holds the ranges of each name that occurs. -/
theorem Analysis.find?_index (os : List Occurrence) (name : Bytes) :
    (index os).find? name = if spansOf name os = [] then none else some (spansOf name os) := by
  have hentries : os.map (fun o => (o.1, spansOf o.1 os)) =
      (os.map Prod.fst).map fun k => (k, spansOf k os) := by
    rw [List.map_map]
    rfl
  have hnil : spansOf name os = [] ↔ name ∉ os.map Prod.fst := by
    rw [spansOf, List.map_eq_nil_iff, List.filter_eq_nil_iff, List.mem_map]
    constructor
    · rintro h ⟨o, ho, heq⟩
      exact h o ho (decide_eq_true heq)
    · intro h o ho heq
      exact h ⟨o, ho, of_decide_eq_true heq⟩
  rw [index, Table.ofList, hentries, Table.find?_foldl_insert, Table.find?_empty]
  by_cases hmem : name ∈ os.map Prod.fst <;> simp [hnil, hmem]

/-- Sorting ranges that start at different places gives them in order. -/
theorem Span.mergeSort_eq {l l' : List Span} (hperm : l.Perm l')
    (h : l'.Pairwise fun a b => a.start.offset < b.start.offset) :
    l.mergeSort (fun a b => a.start.offset ≤ b.start.offset) = l' := by
  have hsorted := pairwise_mergeSort_key (fun s : Span => s.start.offset) l
  have hall := (List.mergeSort_perm l fun a b => a.start.offset ≤ b.start.offset).trans hperm
  have hstarts : (l'.map fun s => s.start.offset).Nodup := List.pairwise_map.2 (h.imp Nat.ne_of_lt)
  refine hall.eq_of_pairwise (fun a b ha hb hab hba => ?_) hsorted
    (h.imp Nat.le_of_lt)
  refine List.inj_on_of_nodup_map hstarts (hall.subset ha) hb ?_
  exact Nat.le_antisymm hab hba

section

variable {source : Bytes} {assigned : Bool} {name : Bytes} {t : Token}

/-- The ranges of a name stand in the order of the source. -/
theorem pairwise_spans {ts : List Token} (h : ts.Sublist (tokenize source)) :
    (ts.map Token.span).Pairwise fun a b => a.start.offset < b.start.offset :=
  List.pairwise_map.2 ((starts_tokenize source).sublist h)

theorem sites_sublist (assigned : Bool) (name : Bytes) (ts : List Token) :
    ((identifiers assigned ts).filter fun t => t.literal = name).Sublist ts :=
  List.filter_sublist.trans ((identifiers_sublist assigned ts).trans List.filter_sublist)

/-- A name is found with the others of its kind. -/
theorem mem_identifiers (hk : t.kind = .identifier) (post : List Token) : ∀ pre : List Token,
    t ∈ identifiers (assignNext post) (pre ++ t :: post)
  | [] => by
    rw [List.nil_append, identifiers, if_pos ⟨hk, rfl⟩]
    exact List.mem_cons_self
  | t' :: pre => by
    have ih := mem_identifiers hk post pre
    rw [List.cons_append, identifiers]
    split
    · exact List.mem_cons_of_mem t' ih
    · exact ih

/-- No name is of both kinds. -/
theorem not_mem_identifiers (ht : t ∈ identifiers assigned (tokenize source)) :
    t ∉ identifiers (!assigned) (tokenize source) := by
  have hnodup : (tokenize source).Nodup :=
    (starts_tokenize source).imp fun {a b} hlt (heq : a = b) => Nat.lt_irrefl _ (heq ▸ hlt)
  have happend := (identifiers_perm (tokenize source)).nodup_iff.2 (hnodup.filter _)
  have hdisjoint := (List.nodup_append.1 happend).2.2
  intro ht'
  cases assigned with
  | true => exact hdisjoint t ht t ht' rfl
  | false => exact hdisjoint t ht' t ht rfl

/-- A name has its own range once in the index, among those of its kind. -/
theorem count_sites {pre post : List Token} (h : tokenize source = pre ++ t :: post)
    (hk : t.kind = .identifier) :
    (sites (assignNext post) t.literal (tokenize source)).count t.span = 1 ∧
      (sites (!assignNext post) t.literal (tokenize source)).count t.span = 0 := by
  have hmem := mem_identifiers hk post pre
  rw [← h] at hmem
  constructor
  · have hspans := pairwise_spans (sites_sublist (assignNext post) t.literal (tokenize source))
    refine List.count_eq_one_of_mem (hspans.imp fun {a b} hlt (heq : a = b) => ?_) ?_
    · exact Nat.lt_irrefl _ (heq ▸ hlt)
    · exact List.mem_map_of_mem (List.mem_filter.2 ⟨hmem, by simp⟩)
  · rw [List.count_eq_zero, sites, List.mem_map]
    rintro ⟨t', ht', hspan⟩
    have hother := (List.mem_filter.1 ht').1
    have hsub (b : Bool) : identifiers b (tokenize source) ⊆ tokenize source := fun x hx =>
      (List.mem_filter.1 ((identifiers_sublist b _).subset hx)).1
    obtain rfl := eq_of_start (starts_tokenize source) (hsub _ hother) (hsub _ hmem)
      (congrArg Span.start hspan)
    exact not_mem_identifiers hmem hother

end

/-- The ranges of a name of both kinds are all its ranges. -/
theorem perm_sites (name : Bytes) (ts : List Token) :
    (sites true name ts ++ sites false name ts).Perm
      ((ts.filter fun t => t.kind = .identifier ∧ t.literal = name).map Token.span) := by
  have h := ((identifiers_perm ts).filter fun t => t.literal = name).map Token.span
  rw [List.filter_append, List.map_append, List.filter_filter] at h
  simpa [sites, Bool.decide_and, Bool.and_comm] using h

/-- An editor knows the analysis of the script. -/
theorem Editor.Document.analysis_ofText {source : Bytes} {script : Script}
    (h : parse source = .ok script) : (ofText source).analysis = Analysis.ofScript script := by
  rw [ofText, Inspection.analysis_ofSource, tree_of_parse h]

open Editor in
/-- The index of a script is the names among its tokens. In a text that is read without faults, each
name is found in the index once, under its own spelling and with its own range : among the
assignments if the next token is an assignment sign, and among the readings otherwise. There is
nothing else in the index, and its ranges stand in the order of the source. So an editor finds all
places of a name in this order, or the readings only, and goes to the first assignment. -/
theorem index_of_identifiers {source : Bytes} {script : Script} (h : parse source = .ok script) :
    let a := Analysis.ofScript script
    let ts := tokenize source
    (Document.ofText source).analysis = a ∧
    (∀ pre t post, ts = pre ++ t :: post → t.kind = .identifier →
      (sites (assignNext post) t.literal ts).count t.span = 1 ∧
        (sites (!assignNext post) t.literal ts).count t.span = 0) ∧
    ∀ name,
      ((Analysis.index a.assignments).find? name =
        if sites true name ts = [] then none else some (sites true name ts)) ∧
      ((Analysis.index a.references).find? name =
        if sites false name ts = [] then none else some (sites false name ts)) ∧
      (∀ assigned, (sites assigned name ts).Pairwise fun x y => x.start.offset < y.start.offset) ∧
      ∀ uri, let location : Span → Location := fun s => ⟨uri, .ofSpan s⟩
        referencesOf a uri name true =
          (ts.filter fun t => t.kind = .identifier ∧ t.literal = name).map (location ∘ Token.span) ∧
        referencesOf a uri name false = (sites false name ts).map location ∧
        definitionOf? a uri name = (sites true name ts).head?.map location := by
  intro a ts
  obtain ⟨hassignments, hreferences⟩ := occurrences_of_parse h
  refine ⟨Document.analysis_ofText h, fun pre t post hts hk => count_sites hts hk, fun name => ?_⟩
  have hassigned : Analysis.spansOf name a.assignments = sites true name ts := by
    rw [hassignments, spansOf_occurrences]
  have hread : Analysis.spansOf name a.references = sites false name ts := by
    rw [hreferences, spansOf_occurrences]
  have hordered (assigned : Bool) : (sites assigned name ts).Pairwise fun x y =>
      x.start.offset < y.start.offset := pairwise_spans (sites_sublist assigned name ts)
  refine ⟨?_, ?_, hordered, fun uri => ⟨?_, ?_, ?_⟩⟩
  · rw [Analysis.find?_index, hassigned]
  · rw [Analysis.find?_index, hread]
  · rw [referencesOf, hassigned, hread, if_pos rfl,
      Span.mergeSort_eq (perm_sites name ts) (pairwise_spans List.filter_sublist), List.map_map]
  · rw [referencesOf, hread, if_neg Bool.false_ne_true, List.nil_append,
      Span.mergeSort_eq (.refl _) (hordered false)]
  · rw [definitionOf?, hassigned]

/-- A name that is assigned twice and read twice, and a name that is only read. -/
theorem index_of_identifiers_of_loop : ∃ script,
    parse "n := 3 while n > m do n := n - 1 end" = .ok script ∧
      (Analysis.index (Analysis.ofScript script).assignments).find? "n" =
        some [⟨⟨0, 1, 1⟩, ⟨1, 1, 2⟩⟩, ⟨⟨22, 1, 23⟩, ⟨23, 1, 24⟩⟩] ∧
      (Analysis.index (Analysis.ofScript script).references).find? "n" =
        some [⟨⟨13, 1, 14⟩, ⟨14, 1, 15⟩⟩, ⟨⟨27, 1, 28⟩, ⟨28, 1, 29⟩⟩] ∧
      (Analysis.index (Analysis.ofScript script).assignments).find? "m" = none ∧
      Editor.definitionOf? (Analysis.ofScript script) [] "n" =
        some ⟨[], ⟨⟨0, 0⟩, ⟨0, 1⟩⟩⟩ := by
  cases hparse : parse "n := 3 while n > m do n := n - 1 end" with
  | error e =>
    have hok : (parse "n := 3 while n > m do n := n - 1 end").isOk = true := by decide +kernel
    rw [hparse] at hok
    cases hok
  | ok script =>
    obtain ⟨-, -, hnames⟩ := index_of_identifiers hparse
    refine ⟨script, rfl, ?_, ?_, ?_, ?_⟩
    · rw [(hnames "n").1]
      decide +kernel
    · rw [(hnames "n").2.1]
      decide +kernel
    · rw [(hnames "m").1]
      decide +kernel
    · rw [((hnames "n").2.2.2 []).2.2]
      decide +kernel

end Scriptlet
