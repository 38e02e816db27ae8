import Scriptlet.Number.Numeral
import Scriptlet.Proofs.Code
import Scriptlet.Proofs.Grammar
import Scriptlet.Syntax.Tree

/-!
# Trees and the tokens they are read from

`Expr.Reads c e u` says that the tokens `u`, taken as a word of category `c`, are read as the tree
`e`; `Part.Reads` says so of statements and their parts. The relations give the tree with its
ranges, and the one choice that the grammar leaves open : a statement that ends in an expression is
not followed by a sign that would go on with it (`Apart`).

Main statements : the tokens of a tree make a word of the grammar (`Expr.Reads.derives`,
`Part.Reads.derives`), and tokens that make a word of the grammar are read as some tree
(`Derives.exists_reads`, `Derives.realized`), if the numbers among them fit (`NumbersFit`).
-/

namespace Scriptlet

/-! ## Expressions -/

/-- The tokens of an expression of the given category. -/
inductive Expr.Reads : Category → Expr → List Token → Prop where
  | operand {c ops t e u} : c.chain = some (ops, t) → Expr.Reads t e u → Expr.Reads c e u
  | operator {c ops t a u b v} {o : Token} : c.chain = some (ops, t) → Expr.Reads c a u →
      o.kind ∈ ops → Expr.Reads t b v →
      Expr.Reads c (.binary ⟨a.span.start, b.span.stop⟩ o.kind a b) (u ++ o :: v)
  | unsigned {e u} : Expr.Reads .power e u → Expr.Reads .unary e u
  | signed {e u} {o : Token} : o.kind ∈ Category.signs → Expr.Reads .unary e u →
      Expr.Reads .unary (.unary ⟨o.start, e.span.stop⟩ o.kind e) (o :: u)
  | base {e u} : Expr.Reads .primary e u → Expr.Reads .power e u
  | raised {a u b v} {o : Token} : Expr.Reads .primary a u → o.kind = .caret →
      Expr.Reads .unary b v →
      Expr.Reads .power (.binary ⟨a.span.start, b.span.stop⟩ .caret a b) (u ++ o :: v)
  | number {x} {t : Token} : t.kind = .number → numberOfLiteral? t.literal = some x →
      Expr.Reads .primary (.number t.span x) [t]
  | string {t : Token} : t.kind = .string → Expr.Reads .primary (.string t.span t.literal) [t]
  | bool {b : Bool} {t : Token} : t.kind = (if b then .trueWord else .falseWord) →
      Expr.Reads .primary (.bool t.span b) [t]
  | ident {t : Token} : t.kind = .identifier → Expr.Reads .primary (.ident t.span t.literal) [t]
  | group {e u} {l r : Token} : l.kind = .leftParen → Expr.Reads .or e u →
      r.kind = .rightParen → Expr.Reads .primary (.group ⟨l.start, r.stop⟩ e) (l :: u ++ [r])

/-- Every number among the tokens fits into a double. -/
def NumbersFit (ts : List Token) : Prop :=
  ∀ t ∈ ts, t.kind = .number → (numberOfLiteral? t.literal).isSome

@[simp] theorem numbersFit_nil : NumbersFit [] := by simp [NumbersFit]

@[simp] theorem numbersFit_cons {t : Token} {u : List Token} : NumbersFit (t :: u) ↔
    (t.kind = .number → (numberOfLiteral? t.literal).isSome) ∧ NumbersFit u := by
  simp [NumbersFit]

@[simp] theorem numbersFit_append {u v : List Token} :
    NumbersFit (u ++ v) ↔ NumbersFit u ∧ NumbersFit v := by
  simp [NumbersFit, or_imp, forall_and]

theorem NumbersFit.left {u v : List Token} (h : NumbersFit (u ++ v)) : NumbersFit u :=
  (numbersFit_append.1 h).1

theorem NumbersFit.right {u v : List Token} (h : NumbersFit (u ++ v)) : NumbersFit v :=
  (numbersFit_append.1 h).2

theorem NumbersFit.tail {t : Token} {u : List Token} (h : NumbersFit (t :: u)) : NumbersFit u :=
  (numbersFit_cons.1 h).2

/-- The kinds that an expression can start with. -/
def Category.expressionStarts : List TokenKind := signs ++ .leftParen :: atoms

/-- The kinds of the tokens in an expression. -/
def Category.expressionKinds : List TokenKind :=
  .leftParen :: .rightParen :: (atoms ++ signs ++ operators)

namespace Expr.Reads

variable {c : Category} {e : Expr} {u : List Token}

/-- The first token of an expression starts it. -/
theorem first (h : e.Reads c u) :
    ∃ t v, u = t :: v ∧ t.start = e.span.start ∧ t.kind ∈ Category.expressionStarts := by
  induction h with
  | operand _ _ ih | unsigned _ ih | base _ ih => exact ih
  | operator _ _ _ _ ih _ | raised _ _ _ ih _ =>
    obtain ⟨t, v, rfl, hstart, hkind⟩ := ih
    exact ⟨t, _, rfl, hstart, hkind⟩
  | signed ho => exact ⟨_, _, rfl, rfl, List.mem_append_left _ ho⟩
  | number hk | string hk | ident hk => exact ⟨_, [], rfl, rfl, by rw [hk]; decide⟩
  | @bool b t hk => exact ⟨t, [], rfl, rfl, by rw [hk]; cases b <;> decide⟩
  | group hl => exact ⟨_, _, rfl, rfl, by rw [hl]; decide⟩

/-- The last token of an expression ends it. -/
theorem last (h : e.Reads c u) : ∃ v t, u = v ++ [t] ∧ t.stop = e.span.stop := by
  induction h with
  | operand _ _ ih | unsigned _ ih | base _ ih => exact ih
  | @operator _ _ _ _ u _ _ o _ _ _ _ _ ih | @raised _ u _ _ o _ _ _ _ ih =>
    obtain ⟨v, t, rfl, hstop⟩ := ih
    exact ⟨u ++ o :: v, t, by simp, hstop⟩
  | @signed _ _ o _ _ ih =>
    obtain ⟨v, t, rfl, hstop⟩ := ih
    exact ⟨o :: v, t, rfl, hstop⟩
  | number | string | bool | ident => exact ⟨[], _, rfl, rfl⟩
  | @group _ u l r => exact ⟨l :: u, r, rfl, rfl⟩

/-- The tokens of an expression make a word of its category. -/
theorem derives (h : e.Reads c u) : Derives c (u.map Token.kind) := by
  induction h with
  | operand hc _ ih => exact .operand hc ih
  | operator hc _ ho _ iha ihb =>
    rw [List.map_append]
    exact .operator hc iha ho ihb
  | unsigned _ ih => exact .unsigned ih
  | signed ho _ ih => exact .signed ho ih
  | base _ ih => exact .base ih
  | raised _ ho _ iha ihb =>
    rw [List.map_append, List.map_cons, ho]
    exact .raised iha ihb
  | number hk | string hk | ident hk => exact .atom (by rw [hk]; decide)
  | @bool b t hk => exact .atom (by rw [hk]; cases b <;> decide)
  | group hl _ hr ih =>
    rw [List.map_append, List.map_cons, hl, List.map_singleton, hr]
    exact .paren ih

/-- The numbers in an expression fit. -/
theorem numbersFit (h : e.Reads c u) : NumbersFit u := by
  have hop : ∀ k ∈ Category.operators, k ≠ .number := by decide
  have hsign : ∀ k ∈ Category.signs, k ≠ .number := by decide
  induction h with
  | operand _ _ ih | unsigned _ ih | base _ ih => exact ih
  | operator hc _ ho _ iha ihb =>
    simp [iha, ihb, hop _ (Category.mem_operators_of_chain hc ho)]
  | signed ho _ ih => simp [ih, hsign _ ho]
  | raised _ ho _ iha ihb => simp [iha, ihb, ho]
  | number _ hx => simp [hx]
  | string hk | ident hk => simp [hk]
  | @bool b t hk => cases b <;> simp [hk]
  | group hl _ hr ih => simp [ih, hl, hr]

/-- The tokens of an expression are parts of expressions. -/
theorem kinds (h : e.Reads c u) : ∀ t ∈ u, t.kind ∈ Category.expressionKinds := by
  have hop : ∀ k ∈ Category.operators, k ∈ Category.expressionKinds := by decide
  have hsign : ∀ k ∈ Category.signs, k ∈ Category.expressionKinds := by decide
  induction h with
  | operand _ _ ih | unsigned _ ih | base _ ih => exact ih
  | operator hc _ ho _ iha ihb =>
    have := hop _ (Category.mem_operators_of_chain hc ho)
    simp_all [or_imp]
  | signed ho _ ih =>
    have := hsign _ ho
    simp_all
  | raised _ ho _ iha ihb =>
    have := hop .caret (by decide)
    simp_all [or_imp]
  | number hk | string hk | ident hk => simp [hk, Category.expressionKinds, Category.atoms]
  | @bool b t hk => cases b <;> simp [hk, Category.expressionKinds, Category.atoms]
  | group hl _ hr ih =>
    have hparens : .leftParen ∈ Category.expressionKinds ∧ .rightParen ∈ Category.expressionKinds :=
      by decide
    simp_all [or_imp]

/-- The operators of an expression that can be read are operators of the language. -/
theorem supported (h : e.Reads c u) : e.Supported := by
  have hop : ∀ k ∈ Category.operators, (binaryOpcode? k).isSome := by decide
  induction h with
  | operand _ _ ih | unsigned _ ih | base _ ih => exact ih
  | operator hc _ ho _ iha ihb =>
    exact ⟨hop _ (Category.mem_operators_of_chain hc ho), iha, ihb⟩
  | signed ho _ ih => exact ⟨ho, ih⟩
  | raised _ _ _ iha ihb => exact ⟨rfl, iha, ihb⟩
  | number | string | bool | ident => exact trivial
  | group _ _ _ ih => exact ih

end Expr.Reads

/-- Whether the words of a category are expressions. -/
def Category.isExpression : Category → Bool
  | statements | statement | elifs | otherwise => false
  | _ => true

theorem Category.isExpression_of_chain {c t : Category} {ops : List TokenKind}
    (h : c.chain = some (ops, t)) : c.isExpression ∧ t.isExpression := by
  cases c <;> cases h
  all_goals exact ⟨rfl, rfl⟩

/-- A single token that is an expression. -/
theorem exists_reads_atom {t : Token} (hk : t.kind ∈ Category.atoms) (hn : NumbersFit [t]) :
    ∃ e, Expr.Reads .primary e [t] := by
  simp only [Category.atoms, List.mem_cons, List.not_mem_nil, or_false] at hk
  rcases hk with hk | hk | hk | hk | hk
  · obtain ⟨x, hx⟩ := Option.isSome_iff_exists.1 (hn t List.mem_cons_self hk)
    exact ⟨_, .number hk hx⟩
  · exact ⟨_, .string hk⟩
  · exact ⟨_, .bool (b := true) hk⟩
  · exact ⟨_, .bool (b := false) hk⟩
  · exact ⟨_, .ident hk⟩

/-- Tokens that make an expression are read as some tree. -/
theorem Derives.exists_reads {c : Category} {w : List TokenKind} (h : Derives c w)
    (hc : c.isExpression) {ts : List Token} (hw : ts.map Token.kind = w) (hn : NumbersFit ts) :
    ∃ e, Expr.Reads c e ts := by
  induction h generalizing ts with
  | operand hch _ ih =>
    obtain ⟨e, he⟩ := ih (Category.isExpression_of_chain hch).2 hw hn
    exact ⟨e, .operand hch he⟩
  | operator hch _ ho _ iha ihb =>
    obtain ⟨u, ov, rfl, hu, hov⟩ := List.map_eq_append_iff.1 hw
    obtain ⟨o, v, rfl, rfl, hv⟩ := List.map_eq_cons_iff.1 hov
    obtain ⟨a, ha⟩ := iha hc hu hn.left
    obtain ⟨b, hb⟩ := ihb (Category.isExpression_of_chain hch).2 hv hn.right.tail
    exact ⟨_, .operator hch ha ho hb⟩
  | unsigned _ ih =>
    obtain ⟨e, he⟩ := ih rfl hw hn
    exact ⟨e, .unsigned he⟩
  | signed ho _ ih =>
    obtain ⟨o, u, rfl, rfl, hu⟩ := List.map_eq_cons_iff.1 hw
    obtain ⟨e, he⟩ := ih rfl hu hn.tail
    exact ⟨_, .signed ho he⟩
  | base _ ih =>
    obtain ⟨e, he⟩ := ih rfl hw hn
    exact ⟨e, .base he⟩
  | raised _ _ iha ihb =>
    obtain ⟨u, ov, rfl, hu, hov⟩ := List.map_eq_append_iff.1 hw
    obtain ⟨o, v, rfl, ho, hv⟩ := List.map_eq_cons_iff.1 hov
    obtain ⟨a, ha⟩ := iha rfl hu hn.left
    obtain ⟨b, hb⟩ := ihb rfl hv hn.right.tail
    exact ⟨_, .raised ha ho hb⟩
  | atom hk =>
    obtain ⟨t, rfl, rfl⟩ := List.map_eq_singleton_iff.1 hw
    exact exists_reads_atom hk hn
  | paren _ ih =>
    obtain ⟨l, ur, rfl, hl, hur⟩ := List.map_eq_cons_iff.1 hw
    obtain ⟨u, rs, rfl, hu, hrs⟩ := List.map_eq_append_iff.1 hur
    obtain ⟨r, rfl, hr⟩ := List.map_eq_singleton_iff.1 hrs
    obtain ⟨e, he⟩ := ih rfl hu hn.tail.left
    exact ⟨_, .group hl he hr⟩
  | _ => cases hc

/-- An expression and one after it that starts with a plus or a minus are read as one. -/
theorem Expr.Reads.join {a b : Expr} {u v : List Token} {t : Token} (ha : a.Reads .or u)
    (ht : t.kind ∈ Category.bothWays) (hb : b.Reads .or (t :: v)) :
    ∃ e, Expr.Reads .or e (u ++ t :: v) := by
  have h : Derives .or (u.map Token.kind ++ t.kind :: v.map Token.kind) :=
    ha.derives.join ht hb.derives
  exact h.exists_reads rfl (by simp) (numbersFit_append.2 ⟨ha.numbersFit, hb.numbersFit⟩)

/-! ## Statements -/

/-- A part of a script. -/
inductive Part where
  | statement (s : Stmt)
  | block (ss : List Stmt)
  /-- A conditional from the given word on. -/
  | branch (word : TokenKind) (s : Stmt)
  /-- What follows the first block of a conditional, up to the given place : its other branch. -/
  | rest (no : List Stmt) (stop : Position)

/-- Whether a statement ends in an expression. -/
def Stmt.isOpen : Stmt → Bool
  | print .. | assign .. | expr .. => true
  | cond .. | loop .. => false

/-- The tokens after a statement do not go on with it. -/
def Apart (s : Stmt) (ts : List Token) : Prop :=
  s.isOpen → ∀ t ∈ ts.head?, t.kind ∉ Category.bothWays

/-- The tokens of a part of a script. -/
inductive Part.Reads : Part → List Token → Prop where
  | print {e u} {t : Token} : t.kind ∈ [TokenKind.printWord, .printlnWord] →
      Expr.Reads .or e u →
      Part.Reads (.statement (.print ⟨t.start, e.span.stop⟩ (t.kind = .printlnWord) e)) (t :: u)
  | assign {e u} {t a : Token} : t.kind = .identifier → a.kind = .assign → Expr.Reads .or e u →
      Part.Reads (.statement (.assign ⟨t.start, e.span.stop⟩ t.literal t.stop e)) (t :: a :: u)
  | expr {e u} : Expr.Reads .or e u → Part.Reads (.statement (.expr e.span e)) u
  | cond {s u} : Part.Reads (.branch .ifWord s) u → Part.Reads (.statement s) u
  | loop {e u body v} {t d r : Token} : t.kind = .whileWord → Expr.Reads .or e u →
      d.kind = .doWord → Part.Reads (.block body) v → r.kind = .endWord →
      Part.Reads (.statement (.loop ⟨t.start, r.stop⟩ e body)) (t :: u ++ d :: v ++ [r])
  | done : Part.Reads (.block []) []
  | more {s u ss v} : Part.Reads (.statement s) u → Apart s v → Part.Reads (.block ss) v →
      Part.Reads (.block (s :: ss)) (u ++ v)
  | branch {word e u yes v no stop w} {t d : Token} : word ∈ [TokenKind.ifWord, .elifWord] →
      t.kind = word → Expr.Reads .or e u → d.kind = .thenWord → Part.Reads (.block yes) v →
      Part.Reads (.rest no stop) w →
      Part.Reads (.branch word (.cond ⟨t.start, stop⟩ e yes no)) (t :: u ++ d :: v ++ w)
  | close {r : Token} : r.kind = .endWord → Part.Reads (.rest [] r.stop) [r]
  | otherwise {no u} {t r : Token} : t.kind = .elseWord → Part.Reads (.block no) u →
      r.kind = .endWord → Part.Reads (.rest no r.stop) (t :: u ++ [r])
  | elif {s u} : Part.Reads (.branch .elifWord s) u → Part.Reads (.rest [s] s.span.stop) u

/-- The kinds that a statement can start with. -/
def Category.statementStarts : List TokenKind :=
  [.printWord, .printlnWord, .ifWord, .whileWord] ++ expressionStarts

namespace Part.Reads

variable {s : Stmt} {u : List Token}

theorem first_of_branch {word : TokenKind} (h : Part.Reads (.branch word s) u) :
    ∃ t v, u = t :: v ∧ t.kind = word := by
  cases h with
  | branch _ hk => exact ⟨_, _, rfl, hk⟩

theorem first_of_statement (h : Part.Reads (.statement s) u) :
    ∃ t v, u = t :: v ∧ t.kind ∈ Category.statementStarts := by
  have hsub : ∀ k ∈ [TokenKind.printWord, .printlnWord], k ∈ Category.statementStarts := by decide
  cases h with
  | print hk _ => exact ⟨_, _, rfl, hsub _ hk⟩
  | assign hk _ _ => exact ⟨_, _, rfl, by rw [hk]; decide⟩
  | expr he =>
    obtain ⟨t, v, rfl, -, hk⟩ := he.first
    exact ⟨t, v, rfl, List.mem_append_right _ hk⟩
  | cond hb =>
    obtain ⟨t, v, rfl, hk⟩ := hb.first_of_branch
    exact ⟨t, v, rfl, by rw [hk]; decide⟩
  | loop hk _ _ _ _ => exact ⟨_, _, rfl, by rw [hk]; decide⟩

theorem first_of_block {ss : List Stmt} {t : Token} (h : Part.Reads (.block ss) (t :: u)) :
    t.kind ∈ Category.statementStarts := by
  generalize hw : t :: u = w at h
  cases h with
  | done => cases hw
  | more hs =>
    obtain ⟨t', v, rfl, hk⟩ := hs.first_of_statement
    obtain ⟨rfl, -⟩ := List.cons.inj hw
    exact hk

theorem first_of_rest {no : List Stmt} {stop : Position} (h : Part.Reads (.rest no stop) u) :
    ∃ t v, u = t :: v ∧ t.kind ∈ [TokenKind.elifWord, .elseWord, .endWord] := by
  cases h with
  | close hk | otherwise hk => exact ⟨_, _, rfl, by simp [hk]⟩
  | elif hb =>
    obtain ⟨t, v, rfl, hk⟩ := hb.first_of_branch
    exact ⟨t, v, rfl, by simp [hk]⟩

/-- Where a conditional ends. -/
def stop? : Part → Option Position
  | .branch _ s => some s.span.stop
  | .rest _ stop => some stop
  | _ => none

/-- The last token of a conditional is the word `end`, and ends it. -/
theorem last {p : Part} (h : p.Reads u) :
    ∀ stop ∈ stop? p, ∃ v t, u = v ++ [t] ∧ t.stop = stop ∧ t.kind = .endWord := by
  induction h with
  | @branch word e u yes v no stop w t d _ _ _ _ _ _ _ ih =>
    rintro - ⟨⟩
    obtain ⟨x, r, rfl, hr⟩ := ih stop rfl
    exact ⟨t :: u ++ d :: v ++ x, r, by simp, hr⟩
  | @close r hr => exact fun _ hs => ⟨[], r, rfl, Option.some.inj hs, hr⟩
  | @otherwise no u t r _ _ hr => exact fun _ hs => ⟨t :: u, r, rfl, Option.some.inj hs, hr⟩
  | elif _ ih => exact ih
  | _ => simp [stop?]

/-- What a part of a script is in the grammar. -/
def Grammatical (w : List TokenKind) : Part → Prop
  | .statement _ => Derives .statement w
  | .block _ => Derives .statements w
  | .branch word _ => ∃ u v x y, w = word :: u ++ .thenWord :: v ++ x ++ y ++ [.endWord] ∧
      Derives .or u ∧ Derives .statements v ∧ Derives .elifs x ∧ Derives .otherwise y
  | .rest _ _ => ∃ x y, w = x ++ y ++ [.endWord] ∧ Derives .elifs x ∧ Derives .otherwise y

/-- The tokens of a part of a script make a word of the grammar. -/
theorem derives {p : Part} (h : p.Reads u) : Grammatical (u.map Token.kind) p := by
  induction h with
  | print hk he => exact .print hk he.derives
  | @assign e u t a hk ha he =>
    rw [List.map_cons, List.map_cons, hk, ha]
    exact .assign he.derives
  | expr he => exact .expr he.derives
  | cond _ ih =>
    obtain ⟨u, v, x, y, hw, hu, hv, hx, hy⟩ := ih
    rw [hw]
    exact .cond hu hv hx hy
  | @loop e u body v t d r hk he hd _ hr ih =>
    have hw : (t :: u ++ d :: v ++ [r]).map Token.kind =
        .whileWord :: u.map Token.kind ++ .doWord :: v.map Token.kind ++ [.endWord] := by
      simp [hk, hd, hr]
    rw [hw]
    exact .loop he.derives ih
  | done => exact .nil
  | more _ _ _ ihs ihss =>
    rw [List.map_append]
    exact .cons ihs ihss
  | @branch word e u yes v no stop w t d _ hk he hd _ _ ihv ihw =>
    obtain ⟨x, y, hw, hx, hy⟩ := ihw
    refine ⟨u.map Token.kind, v.map Token.kind, x, y, ?_, he.derives, ihv, hx, hy⟩
    simp [hk, hd, hw]
  | close hr => exact ⟨[], [], by simp [hr], .noElif, .noElse⟩
  | @otherwise no u t r ht _ hr ih =>
    exact ⟨[], .elseWord :: u.map Token.kind, by simp [ht, hr], .noElif, .otherwise ih⟩
  | elif _ ih =>
    obtain ⟨u, v, x, y, hw, hu, hv, hx, hy⟩ := ih
    exact ⟨.elifWord :: u ++ .thenWord :: v ++ x, y, by simpa using hw, .elif hu hv hx, hy⟩

/-- The numbers in a part of a script fit. -/
theorem numbersFit {p : Part} (h : p.Reads u) : NumbersFit u := by
  have hprint : ∀ k ∈ [TokenKind.printWord, .printlnWord], k ≠ .number := by decide
  have hbranch : ∀ k ∈ [TokenKind.ifWord, .elifWord], k ≠ .number := by decide
  induction h with
  | print hk he => simp [hprint _ hk, he.numbersFit]
  | assign hk ha he => simp [hk, ha, he.numbersFit]
  | expr he => exact he.numbersFit
  | cond _ ih | elif _ ih => exact ih
  | loop hk he hd _ hr ih => simp [hk, hd, hr, he.numbersFit, ih]
  | done => exact numbersFit_nil
  | more _ _ _ ihs ihss => simp [ihs, ihss]
  | branch hword hk he hd _ _ ihv ihw =>
    simp [hk, hbranch _ hword, hd, he.numbersFit, ihv, ihw]
  | close hr => simp [hr]
  | otherwise ht _ hr ih => simp [ht, hr, ih]

/-- The operators in a part of a script are operators of the language. -/
def Supported : Part → Prop
  | .statement s | .branch _ s => s.Supported
  | .block ss | .rest ss _ => Stmt.AllSupported ss

theorem supported {p : Part} (h : p.Reads u) : Supported p := by
  induction h with
  | print _ he | assign _ _ he | expr he => exact he.supported
  | cond _ ih => exact ih
  | loop _ he _ _ _ ih => exact ⟨he.supported, ih⟩
  | done | close => exact trivial
  | more _ _ _ ihs ihss => exact ⟨ihs, ihss⟩
  | branch _ _ he _ _ _ ihv ihw => exact ⟨he.supported, ihv, ihw⟩
  | otherwise _ _ _ ih => exact ih
  | elif _ ih => exact ⟨ih, trivial⟩

/-! ### Where a sign goes on with a statement -/

/-- A statement that starts with a plus or a minus is an expression. -/
theorem expression_of_sign {t : Token} (h : Part.Reads (.statement s) (t :: u))
    (ht : t.kind ∈ Category.bothWays) : s.isOpen ∧ ∃ e, Expr.Reads .or e (t :: u) := by
  have hword : ∀ k ∈ [TokenKind.printWord, .printlnWord, .identifier, .ifWord, .whileWord],
      k ∉ Category.bothWays := by decide
  generalize hw : t :: u = w at h
  cases h with
  | expr he => exact ⟨rfl, _, he⟩
  | print hk =>
    obtain ⟨rfl, rfl⟩ := List.cons.inj hw
    exact absurd ht (hword _ (List.mem_append_left _ hk))
  | assign hk | loop hk =>
    obtain ⟨rfl, rfl⟩ := List.cons.inj hw
    exact absurd ht (hword _ (by simp [hk]))
  | cond hb =>
    obtain ⟨t', v, rfl, hk⟩ := hb.first_of_branch
    obtain ⟨rfl, rfl⟩ := List.cons.inj hw
    exact absurd ht (hword _ (by simp [hk]))

/-- An expression that starts with a sign goes on with a statement that ends in one. -/
theorem extend {t : Token} {v : List Token} {b : Expr} (h : Part.Reads (.statement s) u)
    (hs : s.isOpen) (ht : t.kind ∈ Category.bothWays) (hb : Expr.Reads .or b (t :: v)) :
    ∃ s', Part.Reads (.statement s') (u ++ t :: v) ∧ s'.isOpen := by
  cases h with
  | print hk he =>
    obtain ⟨e, he⟩ := he.join ht hb
    exact ⟨_, .print hk he, rfl⟩
  | assign hk ha he =>
    obtain ⟨e, he⟩ := he.join ht hb
    exact ⟨_, .assign hk ha he, rfl⟩
  | expr he =>
    obtain ⟨e, he⟩ := he.join ht hb
    exact ⟨_, .expr he, rfl⟩
  | cond hb => cases hb; cases hs
  | loop => cases hs

/-- The tokens of a statement and of a block after it are read as one block. -/
theorem exists_block {ss : List Stmt} {v : List Token} (hs : Part.Reads (.statement s) u)
    (hss : Part.Reads (.block ss) v) : ∃ ss', Part.Reads (.block ss') (u ++ v) := by
  by_cases hapart : Apart s v
  · exact ⟨_, .more hs hapart hss⟩
  simp only [Apart, Classical.not_imp, Classical.not_forall, Classical.not_not] at hapart
  obtain ⟨hopen, t, ht, hkind⟩ := hapart
  cases hss with
  | done => cases ht
  | @more s₂ u₂ ss₂ v₂ hs₂ hapart₂ hss₂ =>
    obtain ⟨t₂, x, rfl, -⟩ := hs₂.first_of_statement
    obtain rfl : t₂ = t := by simpa using ht
    obtain ⟨hopen₂, e, he⟩ := hs₂.expression_of_sign hkind
    obtain ⟨s', hs', -⟩ := hs.extend hopen hkind he
    rw [← List.append_assoc]
    exact ⟨_, .more hs' (fun _ => hapart₂ hopen₂) hss₂⟩

end Part.Reads

/-- What the tokens of a category are read as. The `elif` branches of a conditional stand before
the rest of it. -/
def Category.Realized (ts : List Token) : Category → Prop
  | statement => ∃ s, Part.Reads (.statement s) ts
  | statements => ∃ ss, Part.Reads (.block ss) ts
  | elifs => ∀ no stop x, Part.Reads (.rest no stop) x →
      ∃ no' stop', Part.Reads (.rest no' stop') (ts ++ x)
  | otherwise => ∀ r : Token, r.kind = .endWord → ∃ no, Part.Reads (.rest no r.stop) (ts ++ [r])
  | _ => True

/-- The tokens of a conditional, the first block given by the tokens that it is read from. -/
theorem Part.Reads.exists_branch {word : TokenKind} (hword : word ∈ [TokenKind.ifWord, .elifWord])
    {ts x : List Token} {u v : List TokenKind}
    (hw : ts.map Token.kind = word :: u ++ .thenWord :: v) (hn : NumbersFit ts) (hu : Derives .or u)
    (hv : ∀ {us : List Token}, us.map Token.kind = v → NumbersFit us →
      ∃ yes, Part.Reads (.block yes) us)
    {no : List Stmt} {stop : Position} (hx : Part.Reads (.rest no stop) x) :
    ∃ s, Part.Reads (.branch word s) (ts ++ x) := by
  obtain ⟨tu, dv, rfl, htu, hdv⟩ := List.map_eq_append_iff.1 hw
  obtain ⟨t, u, rfl, ht, hu'⟩ := List.map_eq_cons_iff.1 htu
  obtain ⟨d, v, rfl, hd, hv'⟩ := List.map_eq_cons_iff.1 hdv
  obtain ⟨e, he⟩ := hu.exists_reads rfl hu' hn.left.tail
  obtain ⟨yes, hyes⟩ := hv hv' hn.right.tail
  exact ⟨_, .branch hword ht he hd hyes hx⟩

/-- Tokens that make a word of the grammar are read as some tree. -/
theorem Derives.realized {c : Category} {w : List TokenKind} (h : Derives c w)
    {ts : List Token} (hw : ts.map Token.kind = w) (hn : NumbersFit ts) : c.Realized ts := by
  induction h generalizing ts with
  | nil =>
    obtain rfl := List.map_eq_nil_iff.1 hw
    exact ⟨[], .done⟩
  | cons _ _ ihu ihv =>
    obtain ⟨u, v, rfl, hu, hv⟩ := List.map_eq_append_iff.1 hw
    obtain ⟨s, hs⟩ := ihu hu hn.left
    obtain ⟨ss, hss⟩ := ihv hv hn.right
    exact hs.exists_block hss
  | print hk he =>
    obtain ⟨t, u, rfl, rfl, hu⟩ := List.map_eq_cons_iff.1 hw
    obtain ⟨e, he⟩ := he.exists_reads rfl hu hn.tail
    exact ⟨_, .print hk he⟩
  | assign he =>
    obtain ⟨t, au, rfl, ht, hau⟩ := List.map_eq_cons_iff.1 hw
    obtain ⟨a, u, rfl, ha, hu⟩ := List.map_eq_cons_iff.1 hau
    obtain ⟨e, he⟩ := he.exists_reads rfl hu hn.tail.tail
    exact ⟨_, .assign ht ha he⟩
  | expr he =>
    obtain ⟨e, he⟩ := he.exists_reads rfl hw hn
    exact ⟨_, .expr he⟩
  | cond hu _ _ _ _ ihv ihw ihx =>
    obtain ⟨uvwx, rs, rfl, huvwx, hrs⟩ := List.map_eq_append_iff.1 hw
    obtain ⟨uvw, x, rfl, huvw, hx⟩ := List.map_eq_append_iff.1 huvwx
    obtain ⟨uv, w, rfl, huv, hw'⟩ := List.map_eq_append_iff.1 huvw
    obtain ⟨r, rfl, hr⟩ := List.map_eq_singleton_iff.1 hrs
    obtain ⟨no, hno⟩ := ihx hx hn.left.right r hr
    obtain ⟨no', stop', hno'⟩ := ihw hw' hn.left.left.right _ _ _ hno
    obtain ⟨s, hs⟩ := Part.Reads.exists_branch (by decide) huv hn.left.left.left hu ihv hno'
    rw [List.append_assoc, List.append_assoc]
    exact ⟨s, .cond hs⟩
  | loop hu _ _ ihv =>
    obtain ⟨uv, rs, rfl, huv, hrs⟩ := List.map_eq_append_iff.1 hw
    obtain ⟨tu, dv, rfl, htu, hdv⟩ := List.map_eq_append_iff.1 huv
    obtain ⟨t, u, rfl, ht, hu'⟩ := List.map_eq_cons_iff.1 htu
    obtain ⟨d, v, rfl, hd, hv⟩ := List.map_eq_cons_iff.1 hdv
    obtain ⟨r, rfl, hr⟩ := List.map_eq_singleton_iff.1 hrs
    obtain ⟨e, he⟩ := hu.exists_reads rfl hu' hn.left.left.tail
    obtain ⟨body, hbody⟩ := ihv hv hn.left.right.tail
    exact ⟨_, .loop ht he hd hbody hr⟩
  | noElif =>
    obtain rfl := List.map_eq_nil_iff.1 hw
    exact fun no stop x hx => ⟨no, stop, hx⟩
  | elif hu _ _ _ ihv ihw =>
    intro no stop x hx
    obtain ⟨uv, w, rfl, huv, hw'⟩ := List.map_eq_append_iff.1 hw
    obtain ⟨no', stop', hno'⟩ := ihw hw' hn.right no stop x hx
    obtain ⟨s, hs⟩ := Part.Reads.exists_branch (by decide) huv hn.left hu ihv hno'
    rw [List.append_assoc]
    exact ⟨_, _, .elif hs⟩
  | noElse =>
    obtain rfl := List.map_eq_nil_iff.1 hw
    exact fun r hr => ⟨[], .close hr⟩
  | otherwise _ ih =>
    intro r hr
    obtain ⟨t, u, rfl, ht, hu⟩ := List.map_eq_cons_iff.1 hw
    obtain ⟨no, hno⟩ := ih hu hn.tail
    exact ⟨no, .otherwise ht hno hr⟩
  | @operand c _ _ _ hc | @operator c _ _ _ _ _ hc =>
    cases c <;> cases hc
    all_goals exact trivial
  | _ => exact trivial

end Scriptlet
