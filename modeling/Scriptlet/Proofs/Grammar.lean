import Scriptlet.Source.Token

/-!
# The grammar of the language

The words of token kinds that make a program. `Derives c w` says that the word `w` belongs to the
category `c`. A level of binary operators is written as a left recursion : an operand, or a shorter
expression of the level with one more operator and operand. So it is the repetition
`operand (operator operand)*`.

Statements have no separators, and a sign can be read as an operator : `a - b` is one expression, or
two statements in a row. The main result here is `Derives.join` : wherever an expression stands
before another that starts with a sign, the two together are one expression. It goes through the
flat form of an expression, in which all binary operators are alike (`Flat`).
-/

namespace Scriptlet

/-- What a word of token kinds can be. -/
inductive Category where
  /-- Any number of statements : a program, or a block in it. -/
  | statements
  | statement
  /-- The `elif` branches of a conditional. -/
  | elifs
  /-- The `else` branch of a conditional, if there is one. -/
  | otherwise
  | or | and | equality | comparison | addition | multiplication
  | unary | power | primary
  deriving DecidableEq, Repr

namespace Category

/-- The operators of a level of binary operators, and the category of its operands. -/
def chain : Category → Option (List TokenKind × Category)
  | or => some ([.orWord], and)
  | and => some ([.andWord], equality)
  | equality => some ([.equal, .unequal], comparison)
  | comparison => some ([.less, .lessEqual, .greater, .greaterEqual], addition)
  | addition => some ([.plus, .minus, .xorWord], multiplication)
  | multiplication => some ([.star, .slash, .percent], unary)
  | _ => none

/-- The binary operators. -/
def operators : List TokenKind :=
  [.orWord, .andWord, .equal, .unequal, .less, .lessEqual, .greater, .greaterEqual, .plus, .minus,
    .xorWord, .star, .slash, .percent, .caret]

/-- The operators before an operand. -/
def signs : List TokenKind := [.minus, .plus, .tilde]

/-- The kinds that are expressions by themselves. -/
def atoms : List TokenKind := [.number, .string, .trueWord, .falseWord, .identifier]

theorem mem_operators_of_chain {c t : Category} {ops : List TokenKind} {o : TokenKind}
    (h : c.chain = some (ops, t)) (ho : o ∈ ops) : o ∈ operators := by
  revert o
  cases c <;> cases h
  all_goals decide

end Category

/-- The words of each category. -/
inductive Derives : Category → List TokenKind → Prop where
  | nil : Derives .statements []
  | cons {u v} : Derives .statement u → Derives .statements v → Derives .statements (u ++ v)
  | print {k u} : k ∈ [TokenKind.printWord, .printlnWord] → Derives .or u →
      Derives .statement (k :: u)
  | cond {u v w x} : Derives .or u → Derives .statements v → Derives .elifs w →
      Derives .otherwise x →
      Derives .statement (.ifWord :: u ++ .thenWord :: v ++ w ++ x ++ [.endWord])
  | loop {u v} : Derives .or u → Derives .statements v →
      Derives .statement (.whileWord :: u ++ .doWord :: v ++ [.endWord])
  | assign {u} : Derives .or u → Derives .statement (.identifier :: .assign :: u)
  | expr {u} : Derives .or u → Derives .statement u
  | noElif : Derives .elifs []
  | elif {u v w} : Derives .or u → Derives .statements v → Derives .elifs w →
      Derives .elifs (.elifWord :: u ++ .thenWord :: v ++ w)
  | noElse : Derives .otherwise []
  | otherwise {u} : Derives .statements u → Derives .otherwise (.elseWord :: u)
  | operand {c ops t u} : c.chain = some (ops, t) → Derives t u → Derives c u
  | operator {c ops t u o v} : c.chain = some (ops, t) → Derives c u → o ∈ ops → Derives t v →
      Derives c (u ++ o :: v)
  | unsigned {u} : Derives .power u → Derives .unary u
  | signed {o u} : o ∈ Category.signs → Derives .unary u → Derives .unary (o :: u)
  | base {u} : Derives .primary u → Derives .power u
  | raised {u v} : Derives .primary u → Derives .unary v → Derives .power (u ++ .caret :: v)
  | atom {k} : k ∈ Category.atoms → Derives .primary [k]
  | paren {u} : Derives .or u → Derives .primary (.leftParen :: u ++ [.rightParen])

/-! ## The flat form of an expression -/

/-- The categories of the operands of binary operators, but for those of powers. -/
def Category.Loose (c : Category) : Prop := c = .unary ∨ c.chain.isSome

theorem Category.loose_of_chain {c t : Category} {ops : List TokenKind}
    (h : c.chain = some (ops, t)) : t.Loose := by
  cases c <;> cases h
  case multiplication => exact .inl rfl
  all_goals exact .inr rfl

/-- The operators of a level and of all tighter ones. -/
inductive Category.Covers (o : TokenKind) : Category → Prop where
  | here {c ops t} : c.chain = some (ops, t) → o ∈ ops → Covers o c
  | deeper {c ops t} : c.chain = some (ops, t) → Covers o t → Covers o c

/-- The loosest level covers all binary operators but powers. -/
theorem Category.Covers.loosest {o : TokenKind} {c : Category} (h : Covers o c) :
    Covers o .or := by
  have hand : Covers o .and → Covers o .or := .deeper rfl
  have heq : Covers o .equality → Covers o .or := fun h => hand (.deeper rfl h)
  have hcmp : Covers o .comparison → Covers o .or := fun h => heq (.deeper rfl h)
  have hadd : Covers o .addition → Covers o .or := fun h => hcmp (.deeper rfl h)
  cases c with
  | or => exact h
  | and => exact hand h
  | equality => exact heq h
  | comparison => exact hcmp h
  | addition => exact hadd h
  | multiplication => exact hadd (.deeper rfl h)
  | _ => cases h <;> contradiction

/-- Operands without a loose operator, joined by binary operators of any level. -/
inductive Flat : List TokenKind → Prop where
  | one {u} : Derives .unary u → Flat u
  | more {u o v} : Flat u → Category.Covers o .or → Derives .unary v → Flat (u ++ o :: v)

theorem Flat.append {u v : List TokenKind} {o : TokenKind} (hu : Flat u)
    (ho : Category.Covers o .or) (hv : Flat v) : Flat (u ++ o :: v) := by
  induction hv with
  | one hv => exact hu.more ho hv
  | more _ ho' hw ih =>
    have h := ih.more ho' hw
    rwa [List.append_assoc] at h

/-- The flat form of an expression. -/
theorem Derives.flat {c : Category} {u : List TokenKind} (h : Derives c u) :
    c.Loose → Flat u := by
  induction h with
  | operand hc _ ih => exact fun _ => ih (Category.loose_of_chain hc)
  | operator hc _ ho _ ihu ihv =>
    intro hl
    have ho' : Category.Covers _ .or := Category.Covers.loosest (.here hc ho)
    exact (ihu hl).append ho' (ihv (Category.loose_of_chain hc))
  | unsigned h => exact fun _ => .one (.unsigned h)
  | signed ho h => exact fun _ => .one (.signed ho h)
  | _ => rintro (h | h) <;> cases h

/-- An operand is an expression of every level. -/
theorem Derives.loosen {c : Category} {u : List TokenKind} (hu : Derives .unary u)
    (hc : c.Loose) : Derives c u := by
  have hmul : Derives .multiplication u := .operand rfl hu
  have hadd : Derives .addition u := .operand rfl hmul
  have hcmp : Derives .comparison u := .operand rfl hadd
  have heq : Derives .equality u := .operand rfl hcmp
  have hand : Derives .and u := .operand rfl heq
  cases c with
  | or => exact .operand rfl hand
  | and => exact hand
  | equality => exact heq
  | comparison => exact hcmp
  | addition => exact hadd
  | multiplication => exact hmul
  | unary => exact hu
  | _ => rcases hc with h | h <;> cases h

/-- One more operator and operand after an expression. An operator that binds tighter than those of
the level goes to the last operand. -/
theorem Derives.extend {c : Category} {o : TokenKind} {v : List TokenKind}
    (ho : Category.Covers o c) (hv : Derives .unary v) :
    ∀ {u : List TokenKind}, Derives c u → Derives c (u ++ o :: v) := by
  induction ho with
  | here hc ho =>
    intro u hu
    exact .operator hc hu ho (hv.loosen (Category.loose_of_chain hc))
  | @deeper c ops t hc ho ih =>
    intro u hu
    cases hu with
    | operand hc' hu =>
      obtain ⟨-, rfl⟩ := Prod.mk.inj (Option.some.inj (hc.symm.trans hc'))
      exact .operand hc (ih hu)
    | operator hc' hu ho' hw =>
      obtain ⟨rfl, rfl⟩ := Prod.mk.inj (Option.some.inj (hc.symm.trans hc'))
      rw [List.append_assoc, List.cons_append]
      exact .operator hc hu ho' (ih hw)
    | _ => cases hc

theorem Flat.derives {u : List TokenKind} (h : Flat u) : Derives .or u := by
  induction h with
  | one hu => exact hu.loosen (.inr rfl)
  | more _ ho hv ih => exact Derives.extend ho hv ih

/-! ## Signs -/

/-- A primary expression starts with an atom or a parenthesis, so with no sign. -/
theorem Derives.head_of_primary {u : List TokenKind} (h : Derives .primary u) :
    ∃ k v, u = k :: v ∧ k ∈ .leftParen :: Category.atoms := by
  cases h with
  | operand hc => cases hc
  | operator hc => cases hc
  | atom hk => exact ⟨_, [], rfl, List.mem_cons_of_mem _ hk⟩
  | paren => exact ⟨_, _, rfl, List.mem_cons_self⟩

theorem Derives.head_of_power {u : List TokenKind} (h : Derives .power u) :
    ∃ k v, u = k :: v ∧ k ∈ .leftParen :: Category.atoms := by
  cases h with
  | operand hc => cases hc
  | operator hc => cases hc
  | base h => exact h.head_of_primary
  | raised h =>
    obtain ⟨k, v, rfl, hk⟩ := h.head_of_primary
    exact ⟨k, _, rfl, hk⟩

theorem Derives.power_or_signed {u : List TokenKind} (h : Derives .unary u) :
    Derives .power u ∨ ∃ o v, u = o :: v ∧ o ∈ Category.signs ∧ Derives .unary v := by
  cases h with
  | operand hc => cases hc
  | operator hc => cases hc
  | unsigned h => exact .inl h
  | signed ho h => exact .inr ⟨_, _, rfl, ho, h⟩

/-- What stands after a sign is an operand too. -/
theorem Derives.of_signed {o : TokenKind} {u : List TokenKind} (ho : o ∈ Category.signs)
    (h : Derives .unary (o :: u)) : Derives .unary u := by
  rcases h.power_or_signed with h | ⟨o', v, huv, -, h⟩
  · obtain ⟨k, v, huk, hk⟩ := h.head_of_power
    obtain ⟨rfl, rfl⟩ := List.cons.inj huk
    have hapart : ∀ k ∈ Category.signs, k ∉ TokenKind.leftParen :: Category.atoms := by decide
    exact absurd hk (hapart o ho)
  · obtain ⟨rfl, rfl⟩ := List.cons.inj huv
    exact h

theorem Flat.ne_nil {u : List TokenKind} (h : Flat u) : u ≠ [] := by
  cases h with
  | one h =>
    rcases h.power_or_signed with h | ⟨o, v, rfl, -⟩
    · obtain ⟨k, v, rfl, -⟩ := h.head_of_power
      exact List.cons_ne_nil k v
    · exact List.cons_ne_nil o v
  | more => simp

/-- The signs that are binary operators too. -/
def Category.bothWays : List TokenKind := [.plus, .minus]

theorem Flat.join {o : TokenKind} {u v : List TokenKind} (hu : Flat u)
    (ho : o ∈ Category.bothWays) (hv : Flat (o :: v)) : Flat (u ++ o :: v) := by
  have hsign : o ∈ Category.signs :=
    (by decide : ∀ k ∈ Category.bothWays, k ∈ Category.signs) o ho
  have hplus : o ∈ [TokenKind.plus, .minus, .xorWord] :=
    (by decide : ∀ k ∈ Category.bothWays, k ∈ [TokenKind.plus, .minus, .xorWord]) o ho
  have hcovers : Category.Covers o .or :=
    Category.Covers.loosest (c := .addition) (.here rfl hplus)
  generalize hw : o :: v = w at hv
  induction hv generalizing v with
  | one h =>
    subst hw
    exact hu.more hcovers (h.of_signed hsign)
  | @more w' o' v' hw' ho' hv' ih =>
    -- the sign starts the first operand, so it is the first part that starts with it
    obtain ⟨k, x, rfl⟩ := List.exists_cons_of_ne_nil hw'.ne_nil
    obtain ⟨rfl, rfl⟩ := List.cons.inj hw
    rw [← List.append_assoc]
    exact (ih rfl).more ho' hv'

/-- An expression and one after it that starts with a plus or a minus are one expression. -/
theorem Derives.join {o : TokenKind} {u v : List TokenKind} (hu : Derives .or u)
    (ho : o ∈ Category.bothWays) (hv : Derives .or (o :: v)) : Derives .or (u ++ o :: v) :=
  ((hu.flat (.inr rfl)).join ho (hv.flat (.inr rfl))).derives

end Scriptlet
