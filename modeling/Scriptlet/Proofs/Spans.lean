import Scriptlet.Proofs.Partition
import Scriptlet.Proofs.Precedence
import Scriptlet.Proofs.Recovery

/-!
# The ranges of trees

A node of a tree is a script, a statement or an expression. Each is built from some tokens in a row
(`Node.BuiltFrom`), and its range goes from the start of the first of them to the end of the last
(`Node.BuiltFrom.covers`). The nodes below it are built from parts of these tokens, one behind the
other (`Node.BuiltFrom.children`). This holds of the trees of all texts, since a block keeps only
statements that are read without a fault, and leaves out the tokens of the others
(`Parser.tiles_block`).

Main statement : `spans_exact`.
-/

namespace Scriptlet

/-! ## Nodes -/

/-- A node of a tree. -/
inductive Node where
  | script (s : Script)
  | stmt (s : Stmt)
  | expr (e : Expr)

namespace Node

/-- The range of a node. -/
def span : Node → Span
  | script s => s.span
  | stmt s => s.span
  | expr e => e.span

/-- The nodes right below a node, from left to right. -/
def children : Node → List Node
  | script s => s.statements.map stmt
  | stmt (.print _ _ value) | stmt (.assign _ _ _ value) | stmt (.expr _ value) => [expr value]
  | stmt (.cond _ test yes no) => expr test :: (yes.map stmt ++ no.map stmt)
  | stmt (.loop _ test body) => expr test :: body.map stmt
  | expr (.group _ inner) => [expr inner]
  | expr (.unary _ _ operand) => [expr operand]
  | expr (.binary _ _ left right) => [expr left, expr right]
  | expr _ => []

end Node

mutual

/-- The statement and all nodes below it, a node before those below it. -/
def Stmt.walk : Stmt → List Node
  | .print s newline value => .stmt (.print s newline value) :: value.nodes.map .expr
  | .assign s name stop value => .stmt (.assign s name stop value) :: value.nodes.map .expr
  | .expr s value => .stmt (.expr s value) :: value.nodes.map .expr
  | .cond s test yes no => .stmt (.cond s test yes no) ::
      (test.nodes.map .expr ++ (Stmt.walkOf yes ++ Stmt.walkOf no))
  | .loop s test body => .stmt (.loop s test body) :: (test.nodes.map .expr ++ Stmt.walkOf body)

/-- Some statements and all nodes below them. -/
def Stmt.walkOf : List Stmt → List Node
  | [] => []
  | s :: rest => s.walk ++ Stmt.walkOf rest

end

namespace Node

/-- The node and all nodes below it, a node before those below it. -/
def walk : Node → List Node
  | script s => script s :: Stmt.walkOf s.statements
  | stmt s => s.walk
  | expr e => e.nodes.map expr

theorem walkOf_eq (ss : List Stmt) : Stmt.walkOf ss = (ss.map stmt).flatMap walk := by
  induction ss with
  | nil => rfl
  | cons s rest ih => rw [Stmt.walkOf, ih, List.map_cons, List.flatMap_cons, walk]

/-- A walk goes to the node, and from there to the nodes right below it in order. -/
theorem walk_eq (n : Node) : n.walk = n :: n.children.flatMap walk := by
  cases n with
  | script s => rw [walk, walkOf_eq, children]
  | stmt s =>
    cases s <;>
      simp only [walk, Stmt.walk, walkOf_eq, children, List.flatMap_cons, List.flatMap_append,
        List.flatMap_nil, List.append_nil]
  | expr e =>
    cases e <;>
      simp only [walk, Expr.nodes, children, List.flatMap_cons, List.flatMap_nil, List.append_nil,
        List.map_cons, List.map_append, List.map_nil]

theorem induction_expr {P : Node → Prop} (step : ∀ n, (∀ m ∈ n.children, P m) → P n) (e : Expr) :
    P (expr e) := by
  induction e with
  | number | string | bool | ident => exact step _ nofun
  | group _ _ ih | unary _ _ _ ih => exact step _ (List.forall_mem_singleton.2 ih)
  | binary _ _ _ _ ihl ihr =>
    exact step _ (List.forall_mem_cons.2 ⟨ihl, List.forall_mem_singleton.2 ihr⟩)

mutual

theorem induction_stmt {P : Node → Prop} (step : ∀ n, (∀ m ∈ n.children, P m) → P n) :
    ∀ s : Stmt, P (stmt s)
  | .print _ _ value | .assign _ _ _ value | .expr _ value =>
    step _ (List.forall_mem_singleton.2 (induction_expr step value))
  | .cond _ test yes no => step _ (List.forall_mem_cons.2 ⟨induction_expr step test,
      List.forall_mem_append.2 ⟨induction_stmts step yes, induction_stmts step no⟩⟩)
  | .loop _ test body =>
    step _ (List.forall_mem_cons.2 ⟨induction_expr step test, induction_stmts step body⟩)

theorem induction_stmts {P : Node → Prop} (step : ∀ n, (∀ m ∈ n.children, P m) → P n) :
    ∀ ss : List Stmt, ∀ m ∈ ss.map stmt, P m
  | [] => nofun
  | s :: rest => List.forall_mem_cons.2 ⟨induction_stmt step s, induction_stmts step rest⟩

end

/-- Induction from the nodes below. -/
theorem induction {P : Node → Prop} (step : ∀ n, (∀ m ∈ n.children, P m) → P n) : ∀ n, P n
  | script s => step _ (induction_stmts step s.statements)
  | stmt s => induction_stmt step s
  | expr e => induction_expr step e

end Node

/-! ## Tokens and ranges -/

/-- The range goes from the start of the first of the tokens to the end of the last. -/
structure Span.Covers (span : Span) (u : List Token) : Prop where
  first : ∃ t v, u = t :: v ∧ t.start = span.start
  last : ∃ v t, u = v ++ [t] ∧ t.stop = span.stop

/-- The things are made of parts of the tokens, one behind the other; there may be tokens between
these parts. -/
inductive Tiles {α : Type} (R : α → List Token → Prop) : List α → List Token → Prop where
  | nil {u} : Tiles R [] u
  | cons {a as v w} (pre : List Token) : R a v → Tiles R as w → Tiles R (a :: as) (pre ++ (v ++ w))

namespace Tiles

variable {α β : Type} {R : α → List Token → Prop} {S : β → List Token → Prop} {as bs : List α}
  {a : α} {u v w : List Token}

theorem after (pre : List Token) (h : Tiles R as u) : Tiles R as (pre ++ u) := by
  cases h with
  | nil => exact .nil
  | cons pre' ha has =>
    rw [← List.append_assoc]
    exact .cons (pre ++ pre') ha has

theorem append (h : Tiles R as u) (h' : Tiles R bs v) : Tiles R (as ++ bs) (u ++ v) := by
  induction h with
  | nil => exact h'.after _
  | cons pre ha _ ih =>
    rw [List.append_assoc, List.append_assoc]
    exact .cons pre ha ih

theorem before (h : Tiles R as u) (post : List Token) : Tiles R as (u ++ post) := by
  have happend : Tiles R (as ++ []) (u ++ post) := h.append .nil
  rwa [List.append_nil] at happend

theorem one (pre : List Token) (h : R a u) (post : List Token) : Tiles R [a] (pre ++ (u ++ post)) :=
  .cons pre h .nil

theorem last (pre : List Token) (h : R a u) : Tiles R [a] (pre ++ u) := by
  have hone := one pre h []
  rwa [List.append_nil] at hone

theorem map (f : α → β) (hf : ∀ a u, R a u → S (f a) u) (h : Tiles R as u) :
    Tiles S (as.map f) u := by
  induction h with
  | nil => exact .nil
  | cons pre ha _ ih => exact .cons pre (hf _ _ ha) ih

/-- Each thing is made of tokens in a row. -/
theorem exists_infix (h : Tiles R as u) : ∀ a ∈ as, ∃ v, v <:+: u ∧ R a v := by
  induction h with
  | nil => nofun
  | @cons a as v w pre ha _ ih =>
    refine List.forall_mem_cons.2 ⟨⟨v, ⟨pre, w, by simp⟩, ha⟩, fun b hb => ?_⟩
    obtain ⟨x, hx, hbx⟩ := ih b hb
    exact ⟨x, hx.trans ⟨pre ++ v, [], by simp⟩, hbx⟩

end Tiles

/-- The tokens stand one behind the other. -/
structure InOrder (u : List Token) : Prop where
  pairwise : u.Pairwise fun a b => a.stop.offset ≤ b.start.offset
  forwards : ∀ t ∈ u, t.start.offset ≤ t.stop.offset

namespace InOrder

variable {u v w : List Token} {a b : Span}

theorem sublist (h : InOrder u) (hv : v.Sublist u) : InOrder v :=
  ⟨h.pairwise.sublist hv, fun t ht => h.forwards t (hv.subset ht)⟩

/-- The range of some of the tokens lies within the range of all. -/
theorem within (h : InOrder u) (hv : v <:+: u) (ha : a.Covers u) (hb : b.Covers v) :
    a.start.offset ≤ b.start.offset ∧ b.stop.offset ≤ a.stop.offset := by
  obtain ⟨t, x, hu, hfirst⟩ := ha.first
  obtain ⟨y, r, hu', hlast⟩ := ha.last
  obtain ⟨t', x', hv', hfirst'⟩ := hb.first
  obtain ⟨y', r', hv'', hlast'⟩ := hb.last
  have ht' : t' ∈ u := hv.subset (hv' ▸ List.mem_cons_self)
  have hr' : r' ∈ u := hv.subset (hv'' ▸ List.mem_append_right _ List.mem_cons_self)
  rw [← hfirst, ← hlast, ← hfirst', ← hlast']
  constructor
  · rw [hu] at ht'
    rcases List.mem_cons.1 ht' with rfl | hmem
    · exact Nat.le_refl _
    · have hnext := List.rel_of_pairwise_cons (hu ▸ h.pairwise) hmem
      exact Nat.le_trans (h.forwards t (hu ▸ List.mem_cons_self)) hnext
  · rw [hu'] at hr'
    rcases List.mem_append.1 hr' with hmem | hmem
    · exact Nat.le_trans ((List.pairwise_append.1 (hu' ▸ h.pairwise)).2.2 r' hmem r
        List.mem_cons_self) (h.forwards r (hu' ▸ List.mem_append_right _ List.mem_cons_self))
    · obtain rfl := List.mem_singleton.1 hmem
      exact Nat.le_refl _

/-- The range of the first tokens ends before the range of the last ones starts. -/
theorem apart (h : InOrder (v ++ w)) (ha : a.Covers v) (hb : b.Covers w) :
    a.stop.offset ≤ b.start.offset := by
  obtain ⟨y, r, rfl, hlast⟩ := ha.last
  obtain ⟨t, x, rfl, hfirst⟩ := hb.first
  rw [← hlast, ← hfirst]
  exact (List.pairwise_append.1 h.pairwise).2.2 r (List.mem_append_right _ List.mem_cons_self) t
    List.mem_cons_self

/-- A range does not end before it starts. -/
theorem forwards_of_covers (h : InOrder u) (ha : a.Covers u) : a.start.offset ≤ a.stop.offset := by
  obtain ⟨t, x, rfl, hfirst⟩ := ha.first
  obtain ⟨y, r, hu, hlast⟩ := ha.last
  have hr : r ∈ t :: x := hu ▸ List.mem_append_right _ List.mem_cons_self
  rw [← hfirst, ← hlast]
  rcases List.mem_cons.1 hr with rfl | hmem
  · exact h.forwards r hr
  · have hstart := h.forwards t List.mem_cons_self
    have hnext := List.rel_of_pairwise_cons h.pairwise hmem
    have hstop := h.forwards r hr
    omega

end InOrder

/-! ## What nodes are built from -/

/-- The tokens that a node is built from. A conditional that starts with `elif` is a statement too;
it is the other branch of the one above it. -/
def Node.BuiltFrom : Node → List Token → Prop
  | .script s, u => s.span.Covers u ∧ Tiles (fun s u => Part.Reads (.statement s) u) s.statements u
  | .stmt s, u => Part.Reads (.statement s) u ∨ Part.Reads (.branch .elifWord s) u
  | .expr e, u => ∃ c, Expr.Reads c e u

section

variable {c : Category} {e : Expr} {s : Stmt} {u : List Token}

theorem Expr.Reads.covers (h : e.Reads c u) : e.span.Covers u := by
  obtain ⟨t, v, hu, hstart, -⟩ := h.first
  exact ⟨⟨t, v, hu, hstart⟩, h.last⟩

theorem Part.Reads.covers_branch {word : TokenKind} (h : Part.Reads (.branch word s) u) :
    s.span.Covers u := by
  obtain ⟨v, r, hu, hstop, -⟩ := h.last _ rfl
  refine ⟨?_, ⟨v, r, hu, hstop⟩⟩
  cases h with
  | branch => exact ⟨_, _, rfl, rfl⟩

theorem Part.Reads.covers_statement (h : Part.Reads (.statement s) u) : s.span.Covers u := by
  cases h with
  | @print _ _ t _ he =>
    obtain ⟨v, r, rfl, hstop⟩ := he.last
    exact ⟨⟨_, _, rfl, rfl⟩, ⟨t :: v, r, rfl, hstop⟩⟩
  | @assign _ _ t a _ _ he =>
    obtain ⟨v, r, rfl, hstop⟩ := he.last
    exact ⟨⟨_, _, rfl, rfl⟩, ⟨t :: a :: v, r, rfl, hstop⟩⟩
  | expr he => exact he.covers
  | cond hb => exact hb.covers_branch
  | loop => exact ⟨⟨_, _, rfl, rfl⟩, ⟨_, _, rfl, rfl⟩⟩

/-- The statements of a block are read one behind the other. -/
theorem Part.Reads.tiles : ∀ {ss : List Stmt} {u : List Token}, Part.Reads (.block ss) u →
    Tiles (fun s u => Part.Reads (.statement s) u) ss u
  | [], _, _ => .nil
  | _ :: _, _, .more hs _ hss => .cons [] hs hss.tiles

end

namespace Node.BuiltFrom

variable {n : Node} {u : List Token}

/-- The range of a node goes from its first token to its last. -/
theorem covers (h : n.BuiltFrom u) : n.span.Covers u := by
  cases n with
  | script s => exact h.1
  | stmt s => exact h.elim Part.Reads.covers_statement Part.Reads.covers_branch
  | expr e =>
    obtain ⟨c, he⟩ := h
    exact he.covers

theorem children_expr {c : Category} {e : Expr} (h : e.Reads c u) :
    Tiles BuiltFrom (Node.expr e).children u := by
  induction h with
  | operand _ _ ih | unsigned _ ih | base _ ih => exact ih
  | @operator _ _ _ a u b v o _ ha _ hb | @raised a u b v o ha _ hb =>
    have hright : Tiles BuiltFrom [.expr b] (o :: v) := .last [o] ⟨_, hb⟩
    exact .cons [] ⟨_, ha⟩ hright
  | @signed e u o _ he => exact .last [o] ⟨_, he⟩
  | number | string | bool | ident => exact .nil
  | @group e u l r _ he _ => exact .one [l] ⟨_, he⟩ [r]

theorem children_block {ss : List Stmt} (h : Part.Reads (.block ss) u) :
    Tiles BuiltFrom (ss.map .stmt) u :=
  h.tiles.map Node.stmt fun _ _ => .inl

theorem children_rest {no : List Stmt} {stop : Position} (h : Part.Reads (.rest no stop) u) :
    Tiles BuiltFrom (no.map .stmt) u := by
  cases h with
  | close => exact .nil
  | @otherwise _ u t r _ hno _ => exact ((children_block hno).before [r]).after [t]
  | elif hs => exact .last [] (.inr hs)

theorem children_branch {word : TokenKind} {s : Stmt} (h : Part.Reads (.branch word s) u) :
    Tiles BuiltFrom (Node.stmt s).children u := by
  cases h with
  | @branch _ e u yes v no stop w t d _ _ he _ hyes hno =>
    have hbranches := (children_block hyes).append (children_rest hno)
    have h : Tiles BuiltFrom (Node.stmt (.cond ⟨t.start, stop⟩ e yes no)).children
      ([t] ++ (u ++ ([d] ++ (v ++ w)))) := .cons [t] ⟨_, he⟩ (hbranches.after [d])
    simpa using h

theorem children_statement {s : Stmt} (h : Part.Reads (.statement s) u) :
    Tiles BuiltFrom (Node.stmt s).children u := by
  cases h with
  | @print _ _ t _ he => exact .last [t] ⟨_, he⟩
  | @assign _ _ t a _ _ he => exact .last [t, a] ⟨_, he⟩
  | expr he => exact .last [] ⟨_, he⟩
  | cond hb => exact children_branch hb
  | @loop e u body v t d r _ he _ hbody _ =>
    have h : Tiles BuiltFrom (Node.stmt (.loop ⟨t.start, r.stop⟩ e body)).children
      ([t] ++ (u ++ ([d] ++ (v ++ [r])))) :=
        .cons [t] ⟨_, he⟩ (((children_block hbody).before [r]).after [d])
    simpa using h

/-- The nodes right below a node are built from parts of its tokens, one behind the other. -/
theorem children (h : n.BuiltFrom u) : Tiles BuiltFrom n.children u := by
  cases n with
  | script s => exact h.2.map Node.stmt fun _ _ => .inl
  | stmt s => exact h.elim children_statement children_branch
  | expr e =>
    obtain ⟨c, he⟩ := h
    exact children_expr he

end Node.BuiltFrom

/-! ## Ranges in a tree -/

theorem Tiles.pairwise {ns : List Node} {u : List Token} (h : Tiles Node.BuiltFrom ns u)
    (hu : InOrder u) : ns.Pairwise fun a b => a.span.stop.offset ≤ b.span.start.offset := by
  induction h with
  | nil => exact .nil
  | @cons n ns v w pre hn hns ih =>
    have hvw : InOrder (v ++ w) := hu.sublist (List.sublist_append_right _ _)
    refine List.pairwise_cons.2 ⟨fun m hm => ?_, ih (hvw.sublist (List.sublist_append_right _ _))⟩
    obtain ⟨x, hx, hmx⟩ := hns.exists_infix m hm
    exact (hvw.sublist (List.Sublist.append_left hx.sublist v)).apart hn.covers hmx.covers

/-- The ranges right below a node lie within its range, one behind the other. -/
def Node.Nested (n : Node) : Prop :=
  (∀ m ∈ n.children, n.span.start.offset ≤ m.span.start.offset ∧
    m.span.stop.offset ≤ n.span.stop.offset) ∧
  n.children.Pairwise fun a b => a.span.stop.offset ≤ b.span.start.offset

namespace Node.BuiltFrom

variable {n : Node} {u : List Token}

theorem nested (h : n.BuiltFrom u) (hu : InOrder u) : n.Nested := by
  refine ⟨fun m hm => ?_, h.children.pairwise hu⟩
  obtain ⟨v, hv, hmv⟩ := h.children.exists_infix m hm
  exact hu.within hv h.covers hmv.covers

/-- All nodes below a node are built from some of its tokens in a row. -/
theorem exists_of_mem_walk : ∀ {n : Node} {u : List Token}, n.BuiltFrom u →
    ∀ m ∈ n.walk, ∃ v, v <:+: u ∧ m.BuiltFrom v := by
  intro n
  induction n using Node.induction with
  | step n ih =>
    intro u h m hm
    rw [walk_eq] at hm
    rcases List.mem_cons.1 hm with rfl | hm
    · exact ⟨u, List.infix_rfl, h⟩
    · obtain ⟨child, hchild, hm⟩ := List.mem_flatMap.1 hm
      obtain ⟨v, hv, hchildv⟩ := h.children.exists_infix child hchild
      obtain ⟨x, hx, hmx⟩ := ih child hchild hchildv m hm
      exact ⟨x, hx.trans hv, hmx⟩

/-- The nodes below a node start within its range. -/
theorem start_of_mem_walk (h : n.BuiltFrom u) (hu : InOrder u) {m : Node} (hm : m ∈ n.walk) :
    n.span.start.offset ≤ m.span.start.offset ∧ m.span.start.offset ≤ n.span.stop.offset := by
  obtain ⟨v, hv, hmv⟩ := h.exists_of_mem_walk m hm
  obtain ⟨hstart, hstop⟩ := hu.within hv h.covers hmv.covers
  exact ⟨hstart, Nat.le_trans ((hu.sublist hv.sublist).forwards_of_covers hmv.covers) hstop⟩

/-- A walk goes forwards. -/
theorem pairwise_walk : ∀ {n : Node} {u : List Token}, n.BuiltFrom u → InOrder u →
    n.walk.Pairwise fun a b => a.span.start.offset ≤ b.span.start.offset := by
  intro n
  induction n using Node.induction with
  | step n ih =>
    intro u h hu
    have hchild {a : Node} (ha : a ∈ n.children) : ∃ v, InOrder v ∧ a.BuiltFrom v := by
      obtain ⟨v, hv, hav⟩ := h.children.exists_infix a ha
      exact ⟨v, hu.sublist hv.sublist, hav⟩
    have hbelow : ∀ m ∈ n.walk, n.span.start.offset ≤ m.span.start.offset := fun m hm =>
      (h.start_of_mem_walk hu hm).1
    rw [walk_eq] at hbelow ⊢
    refine List.pairwise_cons.2 ⟨fun m hm => hbelow m (List.mem_cons_of_mem _ hm), ?_⟩
    refine List.pairwise_flatMap.2 ⟨fun a ha => ?_, ?_⟩
    · obtain ⟨v, hv, hav⟩ := hchild ha
      exact ih a ha hav hv
    · -- what is below one node starts before its end, and what is below the next one behind it
      refine (h.children.pairwise hu).imp_of_mem fun {a b} ha hb hab x hx y hy => ?_
      obtain ⟨v, hv, hav⟩ := hchild ha
      obtain ⟨w, hw, hbw⟩ := hchild hb
      exact Nat.le_trans (hav.start_of_mem_walk hv hx).2
        (Nat.le_trans hab (hbw.start_of_mem_walk hw hy).1)

end Node.BuiltFrom

/-! ## Trees that are read -/

namespace Parser

/-- The statements that a block keeps are read from some of its tokens, one behind the other. -/
theorem tiles_block (terminators : List TokenKind) : ∀ (fuel : Nat) (s : State), s.Ended →
    20 * s.left + 17 ≤ fuel →
    Tiles (fun s u => Part.Reads (.statement s) u) (block fuel terminators s).1 s.tokens
  | 0, _, _, hfuel => absurd hfuel (by omega)
  | fuel + 1, s, hs, hfuel => by
    cases hend : s.endsBlock terminators with
    | true =>
      rw [block, if_pos hend]
      exact .nil
    | false =>
      obtain ⟨ss, s', hreach, hless, hkeeps, hstep⟩ := block_step hs hend hfuel
      have ih := tiles_block terminators fuel s' (hreach.ended hs) (by omega)
      rw [hstep fuel (Agree.refl _ s)]
      rcases hkeeps with rfl | ⟨stmt, u, rfl, hpass, hreads⟩
      · obtain ⟨passed, hpassed⟩ := hreach.tokens
        rw [← hpassed]
        exact ih.after passed
      · rw [hpass.tokens]
        exact .cons [] hreads ih

variable {body : List Token} {stop : Token}

/-- A script is built from all tokens but the faulty ones. -/
theorem builtFrom_script (hstop : stop.kind = .eof) (hbody : ∀ t ∈ body, t.kind ≠ .eof) :
    (Node.script (script (body ++ [stop])).1).BuiltFrom
      ((body ++ [stop]).filter fun t => t.kind ≠ .error) := by
  have hended := ended_ofTokens hstop hbody
  have htokens : (State.ofTokens (body ++ [stop])).tokens =
      (body ++ [stop]).filter fun t => t.kind ≠ .error := by
    rw [(ofTokens_spec body hstop).1, List.filter_append, List.filter_cons_of_pos (by simp [hstop]),
      List.filter_nil]
  have hreach := @reaches_script body stop
  have hlast := (hreach.ended hended).tokens_of_eof (kind_script hstop hbody)
  obtain ⟨passed, hpassed⟩ := hreach.tokens
  rw [hlast] at hpassed
  rw [← htokens]
  refine ⟨⟨⟨_, _, rfl, rfl⟩, ⟨passed, _, hpassed.symm, rfl⟩⟩, ?_⟩
  exact tiles_block [] _ _ hended (fuel_ofTokens hstop)

end Parser

theorem inOrder_tokenize (source : Bytes) :
    InOrder ((tokenize source).filter fun t => t.kind ≠ .error) :=
  InOrder.sublist ⟨(ordered_tokenize source).pairwise, (cuts_tokenize source).forwards⟩
    List.filter_sublist

/-- The script of a text is built from all its tokens but the faulty ones. -/
theorem builtFrom_parsePartial (source : Bytes) :
    (Node.script (parsePartial source).1).BuiltFrom
      ((tokenize source).filter fun t => t.kind ≠ .error) := by
  obtain ⟨body, stop, htokens, hstop, hbody⟩ := tokenize_eq source
  have hscript := Parser.builtFrom_script hstop hbody
  rwa [← htokens] at hscript

/-! ## Names and shared ends -/

/-- The bytes of a text within a range. -/
def Span.bytes (span : Span) (source : Bytes) : Bytes :=
  (source.drop span.start.offset).take (span.stop.offset - span.start.offset)

/-- The bytes within the range of a name are the name. -/
theorem bytes_of_identifier {source : Bytes} {t : Token} (ht : t ∈ tokenize source)
    (hkind : t.kind = .identifier) : t.span.bytes source = t.literal := by
  have hcuts := cuts_tokenize source
  rcases hcuts.covered t ht with
    ⟨heof, -⟩ | ⟨-, before, covered, after, rfl, hstart, hstop, hspells⟩
  · exact nomatch hkind.symm.trans heof
  · rw [Nat.zero_add] at hstart
    rw [Span.bytes, Token.span, hstop, Nat.add_sub_cancel_left, hstart, List.drop_left,
      List.take_left, hspells.eq (by simp [hkind])]

section

variable {span : Span} {name : Bytes} {u : List Token}

/-- A variable is a name. -/
theorem Expr.Reads.of_ident {c : Category} (h : Expr.Reads c (.ident span name) u) :
    ∃ t ∈ u, t.kind = .identifier ∧ t.span = span ∧ t.literal = name := by
  generalize he : Expr.ident span name = e at h
  induction h with
  | operand _ _ ih | unsigned _ ih | base _ ih => exact ih he
  | ident hk =>
    obtain ⟨rfl, rfl⟩ := Expr.ident.inj he
    exact ⟨_, List.mem_cons_self, hk, rfl, rfl⟩
  | _ => cases he

/-- An assignment starts with a name. -/
theorem Node.BuiltFrom.of_assign {nameStop : Position} {value : Expr}
    (h : (Node.stmt (.assign span name nameStop value)).BuiltFrom u) :
    ∃ t ∈ u, t.kind = .identifier ∧ t.span = ⟨span.start, nameStop⟩ ∧ t.literal = name := by
  rcases h with h | h
  · cases h with
    | assign hk => exact ⟨_, List.mem_cons_self, hk, rfl, rfl⟩
    | cond hb => cases hb
  · cases h

/-- A conditional is built from a branch. -/
theorem Node.BuiltFrom.of_cond {test : Expr} {yes no : List Stmt}
    (h : (Node.stmt (.cond span test yes no)).BuiltFrom u) :
    ∃ w, w <:+: u ∧ Part.Reads (.rest no span.stop) w := by
  have hbranch {word : TokenKind} (h : Part.Reads (.branch word (.cond span test yes no)) u) :
      ∃ w, w <:+: u ∧ Part.Reads (.rest no span.stop) w := by
    cases h with
    | branch _ _ _ _ _ hrest => exact ⟨_, (List.suffix_append _ _).isInfix, hrest⟩
  rcases h with h | h
  · cases h with
    | cond hb => exact hbranch hb
  · exact hbranch h

/-- In a conditional with an `elif`, the conditional that starts there is the whole other branch and
has the same end. -/
theorem Part.Reads.of_elif {ts : List Token} {no : List Stmt} {stop : Position} {nested : Stmt}
    (h : Part.Reads (.rest no stop) u)
    (hts : ts.Pairwise fun a b => a.start.offset < b.start.offset) (hu : u <:+: ts)
    (hnested : nested ∈ no) {t : Token} (ht : t ∈ ts) (hkind : t.kind = .elifWord)
    (hstart : t.start = nested.span.start) : no = [nested] ∧ nested.span.stop = stop := by
  cases h with
  | close => cases hnested
  | @otherwise _ v d r _ hno _ =>
    -- no statement of an `else` branch starts with `elif`
    obtain ⟨x, hx, hreads⟩ := hno.tiles.exists_infix nested hnested
    obtain ⟨t', y, rfl, hstatement⟩ := hreads.first_of_statement
    obtain ⟨⟨t'', y', hcons, hfirst⟩, -⟩ := hreads.covers_statement
    obtain ⟨rfl, rfl⟩ := List.cons.inj hcons
    have hmem : t' ∈ ts := hu.subset (List.mem_append_left [r]
      (List.mem_cons_of_mem d (hx.subset List.mem_cons_self)))
    obtain rfl := eq_of_start hts ht hmem (hstart.trans hfirst.symm)
    rw [hkind] at hstatement
    exact absurd hstatement (by decide)
  | elif _ =>
    obtain rfl := List.mem_singleton.1 hnested
    exact ⟨rfl, rfl⟩

end

/-- Ranges are exact. In the tree of any text, with or without faults, each node is built from some
tokens in a row, faulty ones left out, and its range goes from the start of the first of them to the
end of the last; the script is built from all of them. So the ranges right below a node lie within
its range, one behind the other, and a walk over the tree goes forwards. The bytes within the range
of a variable, and those of an assignment up to the end of its name, are the name. A conditional
ends where a word `end` does, and a conditional that starts with `elif` is the other branch of one
that has the same end. -/
theorem spans_exact (source : Bytes) :
    let root := Node.script (parsePartial source).1
    let tokens := (tokenize source).filter fun t => t.kind ≠ .error
    root.BuiltFrom tokens ∧
    (∀ n ∈ root.walk, (∃ u, u <:+: tokens ∧ n.BuiltFrom u ∧ n.span.Covers u) ∧ n.Nested) ∧
    (root.walk.Pairwise fun a b => a.span.start.offset ≤ b.span.start.offset) ∧
    (∀ span name, .expr (.ident span name) ∈ root.walk → span.bytes source = name) ∧
    (∀ span name nameStop value, .stmt (.assign span name nameStop value) ∈ root.walk →
      Span.bytes ⟨span.start, nameStop⟩ source = name) ∧
    ∀ span test yes no, .stmt (.cond span test yes no) ∈ root.walk →
      (∃ r ∈ tokens, r.kind = .endWord ∧ r.stop = span.stop) ∧
      ∀ nested ∈ no, (∃ t ∈ tokens, t.kind = .elifWord ∧ t.start = nested.span.start) →
        no = [nested] ∧ nested.span.stop = span.stop := by
  intro root tokens
  have hordered := inOrder_tokenize source
  have hroot : root.BuiltFrom tokens := builtFrom_parsePartial source
  have hbelow := hroot.exists_of_mem_walk
  have hname {u : List Token} {span : Span} {name : Bytes} (hu : u <:+: tokens)
      (h : ∃ t ∈ u, t.kind = .identifier ∧ t.span = span ∧ t.literal = name) :
      span.bytes source = name := by
    obtain ⟨t, ht, hkind, rfl, rfl⟩ := h
    exact bytes_of_identifier (List.mem_filter.1 (hu.subset ht)).1 hkind
  refine ⟨hroot, fun n hn => ?_, hroot.pairwise_walk hordered, fun span name hn => ?_,
    fun span name nameStop value hn => ?_, fun span test yes no hn => ?_⟩
  · obtain ⟨u, hu, hbuilt⟩ := hbelow n hn
    exact ⟨⟨u, hu, hbuilt, hbuilt.covers⟩, hbuilt.nested (hordered.sublist hu.sublist)⟩
  · obtain ⟨u, hu, c, hreads⟩ := hbelow _ hn
    exact hname hu hreads.of_ident
  · obtain ⟨u, hu, hbuilt⟩ := hbelow _ hn
    exact hname hu hbuilt.of_assign
  · obtain ⟨u, hu, hbuilt⟩ := hbelow _ hn
    obtain ⟨w, hw, hrest⟩ := hbuilt.of_cond
    constructor
    · obtain ⟨v, r, rfl, hstop, hkind⟩ := hrest.last _ rfl
      exact ⟨r, hu.subset (hw.subset (List.mem_append_right v List.mem_cons_self)), hkind, hstop⟩
    · rintro nested hnested ⟨t, ht, hkind, hstart⟩
      have hstarts := (starts_tokenize source).sublist
        (List.filter_sublist (p := fun t => t.kind ≠ .error))
      exact hrest.of_elif hstarts (hw.trans hu) hnested ht hkind hstart

end Scriptlet
