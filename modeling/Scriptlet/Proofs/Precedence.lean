import Scriptlet.Proofs.Language

/-!
# Precedence

How tightly an expression binds is a number from one, for `or`, to nine, for what stands alone
(`Expr.tightness`). In a tree that was read, the operands of each operator bind as tightly as it
asks (`Expr.Grouped`), and the tokens within the range of an expression are those that the
expression lists (`Expr.symbols`).

Main statement : this determines the tree (`tokens_determine_tree`). Whatever expression lists some
tokens and groups its operands that way is what these tokens are read as, but for the ranges in it.
-/

namespace Scriptlet

/-! ## Listing tokens -/

/-- What a token says, apart from its place and its spelling. -/
inductive Symbol where
  | mark (kind : TokenKind)
  | number (value : Float)
  | string (text : Bytes)
  | name (text : Bytes)

/-- What a token says. A number that does not fit says nothing. -/
def Token.symbol (t : Token) : Option Symbol :=
  match t.kind with
  | .number => (numberOfLiteral? t.literal).map .number
  | .string => some (.string t.literal)
  | .identifier => some (.name t.literal)
  | kind => some (.mark kind)

namespace Expr

/-- The tokens of an expression in order, with one pair of parentheses for each group. -/
def symbols : Expr → List Symbol
  | number _ x => [.number x]
  | string _ s => [.string s]
  | bool _ b => [.mark (if b then .trueWord else .falseWord)]
  | ident _ name => [.name name]
  | group _ inner => .mark .leftParen :: inner.symbols ++ [.mark .rightParen]
  | unary _ op operand => .mark op :: operand.symbols
  | binary _ op left right => left.symbols ++ .mark op :: right.symbols

/-- The expression and all expressions in it. -/
def nodes : Expr → List Expr
  | number s x => [number s x]
  | string s x => [string s x]
  | bool s b => [bool s b]
  | ident s n => [ident s n]
  | group s inner => group s inner :: inner.nodes
  | unary s op operand => unary s op operand :: operand.nodes
  | binary s op left right => binary s op left right :: (left.nodes ++ right.nodes)

/-- The expression without its ranges. -/
def bare : Expr → Expr
  | number _ x => number default x
  | string _ s => string default s
  | bool _ b => bool default b
  | ident _ n => ident default n
  | group _ inner => group default inner.bare
  | unary _ op operand => unary default op operand.bare
  | binary _ op left right => binary default op left.bare right.bare

end Expr

mutual

/-- All expressions in a statement. -/
def Stmt.expressions : Stmt → List Expr
  | .print _ _ value | .assign _ _ _ value | .expr _ value => value.nodes
  | .cond _ test yes no => test.nodes ++ (Stmt.expressionsOf yes ++ Stmt.expressionsOf no)
  | .loop _ test body => test.nodes ++ Stmt.expressionsOf body

/-- All expressions in some statements. -/
def Stmt.expressionsOf : List Stmt → List Expr
  | [] => []
  | s :: rest => s.expressions ++ Stmt.expressionsOf rest

end

/-- All expressions in a script. -/
def Script.expressions (script : Script) : List Expr := Stmt.expressionsOf script.statements

/-! ## Grouping operands -/

/-- How tightly a binary operator binds. -/
def TokenKind.tightness : TokenKind → Nat
  | orWord => 1
  | andWord => 2
  | equal | unequal => 3
  | less | lessEqual | greater | greaterEqual => 4
  | plus | minus | xorWord => 5
  | star | slash | percent => 6
  | caret => 8
  | _ => 0

namespace Expr

/-- How tightly an expression binds : as its outermost operator. A sign binds looser than a power,
and what stands alone binds tightest. -/
def tightness : Expr → Nat
  | binary _ op _ _ => op.tightness
  | unary _ _ _ => 7
  | _ => 9

/-- The operands of the outermost operator bind as tightly as they must. A power takes what stands
alone to a signed power; other binary operators group to the left. -/
def Grouped : Expr → Prop
  | binary _ .caret left right => left.tightness = 9 ∧ 7 ≤ right.tightness
  | binary _ op left right =>
    0 < op.tightness ∧ op.tightness ≤ left.tightness ∧ op.tightness < right.tightness
  | unary _ op operand => op ∈ [.minus, .plus, .tilde] ∧ 7 ≤ operand.tightness
  | _ => True

end Expr

/-- How tightly the expressions of a category bind, at least. -/
def Category.tightness : Category → Nat
  | or => 1
  | and => 2
  | equality => 3
  | comparison => 4
  | addition => 5
  | multiplication => 6
  | unary => 7
  | power => 8
  | primary => 9
  | _ => 0

/-- A level binds as its operators do, and its operands bind one step tighter. -/
theorem Category.tightness_of_chain {c t : Category} {ops : List TokenKind}
    (h : c.chain = some (ops, t)) : t.tightness = c.tightness + 1 ∧ 0 < c.tightness ∧
      ∀ o ∈ ops, o.tightness = c.tightness ∧ o ≠ .caret := by
  cases c <;> cases h
  all_goals exact ⟨rfl, by decide, by decide⟩

theorem Expr.tightness_le (e : Expr) : e.tightness ≤ 9 := by
  cases e with
  | binary s op left right =>
    rw [tightness, TokenKind.tightness.eq_def]
    split <;> decide
  | _ => simp [tightness]

theorem Expr.grouped_binary {span : Span} {op : TokenKind} {left right : Expr} (h : op ≠ .caret) :
    (Expr.binary span op left right).Grouped ↔ 0 < op.tightness ∧
      op.tightness ≤ left.tightness ∧ op.tightness < right.tightness := by
  rw [Grouped]
  exact fun hop => h hop

/-- Every expression with its operands grouped binds as `or` does, or tighter. -/
theorem Expr.Grouped.tightness_pos {e : Expr} (h : e.Grouped) : 0 < e.tightness := by
  cases e with
  | binary s op left right =>
    by_cases hop : op = .caret
    · rw [hop, tightness]
      exact Nat.succ_pos 7
    · exact ((grouped_binary hop).1 h).1
  | _ => simp [tightness]

theorem Expr.self_mem_nodes (e : Expr) : e ∈ e.nodes := by
  cases e <;> exact List.mem_cons_self

/-! ## Trees that are read -/

theorem Token.symbol_of_mark {t : Token} (h : t.kind ∉ [.number, .string, .identifier]) :
    t.symbol = some (.mark t.kind) := by
  simp only [List.mem_cons, List.not_mem_nil, or_false, not_or] at h
  rw [symbol]
  split
  next hk => exact absurd hk h.1
  next hk => exact absurd hk h.2.1
  next hk => exact absurd hk h.2.2
  next => rfl

namespace Expr.Reads

variable {c : Category} {e : Expr} {u : List Token}

/-- The operands in a tree that is read bind as tightly as they must. -/
theorem grouped (h : e.Reads c u) : e.Grouped ∧ c.tightness ≤ e.tightness := by
  induction h with
  | operand hc _ ih =>
    have htight := (Category.tightness_of_chain hc).1
    exact ⟨ih.1, by omega⟩
  | operator hc _ ho _ iha ihb =>
    obtain ⟨htight, hpos, hops⟩ := Category.tightness_of_chain hc
    obtain ⟨hop, hcaret⟩ := hops _ ho
    refine ⟨(grouped_binary hcaret).2 ⟨by omega, by omega, by omega⟩, ?_⟩
    rw [tightness]
    omega
  | unsigned _ ih => exact ⟨ih.1, Nat.le_of_succ_le ih.2⟩
  | signed ho _ ih => exact ⟨⟨ho, ih.2⟩, Nat.le_refl 7⟩
  | base _ ih => exact ⟨ih.1, Nat.le_of_succ_le ih.2⟩
  | @raised a _ _ _ _ _ _ _ iha ihb =>
    exact ⟨⟨Nat.le_antisymm a.tightness_le iha.2, ihb.2⟩, Nat.le_refl 8⟩
  | number | string | bool | ident | group => exact ⟨trivial, Nat.le_refl 9⟩

/-- The tokens that are read as a tree are those that it lists. -/
theorem symbols_eq (h : e.Reads c u) : u.map Token.symbol = e.symbols.map some := by
  have hop : ∀ k ∈ Category.operators, k ∉ [.number, .string, .identifier] := by decide
  have hsign : ∀ k ∈ Category.signs, k ∉ [.number, .string, .identifier] := by decide
  induction h with
  | operand _ _ ih | unsigned _ ih | base _ ih => exact ih
  | operator hc _ ho _ iha ihb =>
    have hmark := Token.symbol_of_mark (hop _ (Category.mem_operators_of_chain hc ho))
    simp [symbols, iha, ihb, hmark]
  | signed ho _ ih => simp [symbols, ih, Token.symbol_of_mark (hsign _ ho)]
  | raised _ ho _ iha ihb => simp [symbols, iha, ihb, Token.symbol, ho]
  | number hk hx => simp [symbols, Token.symbol, hk, hx]
  | string hk | ident hk => simp [symbols, Token.symbol, hk]
  | @bool b t hk => cases b <;> simp [symbols, Token.symbol, hk]
  | group hl _ hr ih => simp [symbols, ih, Token.symbol, hl, hr]

end Expr.Reads

/-- Each of the expressions is read from some of the tokens in a row. -/
def AllWithin (xs : List Expr) (ts : List Token) : Prop :=
  ∀ x ∈ xs, ∃ c v, v <:+: ts ∧ x.Reads c v

section

variable {xs ys : List Expr} {u v : List Token}

theorem AllWithin.mono (h : AllWithin xs u) (huv : u <:+: v) : AllWithin xs v := by
  intro x hx
  obtain ⟨c, w, hw, hreads⟩ := h x hx
  exact ⟨c, w, hw.trans huv, hreads⟩

theorem AllWithin.append (hx : AllWithin xs u) (hy : AllWithin ys u) : AllWithin (xs ++ ys) u := by
  intro x hmem
  rcases List.mem_append.1 hmem with h | h
  · exact hx x h
  · exact hy x h

theorem AllWithin.cons {c : Category} {e : Expr} (he : e.Reads c u) (hx : AllWithin xs u) :
    AllWithin (e :: xs) u := by
  rintro x (_ | ⟨_, h⟩)
  · exact ⟨c, u, List.infix_rfl, he⟩
  · exact hx x h

theorem allWithin_nil : AllWithin [] u := by simp [AllWithin]

end

theorem Expr.Reads.allWithin {c : Category} {e : Expr} {u : List Token} (h : e.Reads c u) :
    AllWithin e.nodes u := by
  induction h with
  | operand _ _ ih | unsigned _ ih | base _ ih => exact ih
  | @operator c ops t a u b v o hc ha ho hb iha ihb =>
    exact .cons (.operator hc ha ho hb)
      (.append (iha.mono ⟨[], o :: v, by simp⟩) (ihb.mono ⟨u ++ [o], [], by simp⟩))
  | @signed e u o ho he ih => exact .cons (.signed ho he) (ih.mono ⟨[o], [], by simp⟩)
  | @raised a u b v o ha ho hb iha ihb =>
    exact .cons (.raised ha ho hb)
      (.append (iha.mono ⟨[], o :: v, by simp⟩) (ihb.mono ⟨u ++ [o], [], by simp⟩))
  | number hk hx => exact .cons (.number hk hx) allWithin_nil
  | string hk => exact .cons (.string hk) allWithin_nil
  | bool hk => exact .cons (.bool hk) allWithin_nil
  | ident hk => exact .cons (.ident hk) allWithin_nil
  | @group e u l r hl he hr ih => exact .cons (.group hl he hr) (ih.mono ⟨[l], [r], by simp⟩)

/-- All expressions in a part of a script. -/
def Part.expressions : Part → List Expr
  | .statement s | .branch _ s => s.expressions
  | .block ss | .rest ss _ => Stmt.expressionsOf ss

theorem Part.Reads.allWithin {p : Part} {u : List Token} (h : p.Reads u) :
    AllWithin p.expressions u := by
  induction h with
  | @print e u t _ he => exact he.allWithin.mono ⟨[t], [], by simp⟩
  | @assign e u t a _ _ he => exact he.allWithin.mono ⟨[t, a], [], by simp⟩
  | expr he => exact he.allWithin
  | cond _ ih => exact ih
  | @loop e u body v t d r _ he _ _ _ ih =>
    exact .append (he.allWithin.mono ⟨[t], d :: v ++ [r], by simp⟩)
      (ih.mono ⟨t :: u ++ [d], [r], by simp⟩)
  | done | close => exact allWithin_nil
  | @more s u ss v _ _ _ ihs ihss =>
    exact .append (ihs.mono ⟨[], v, by simp⟩) (ihss.mono ⟨u, [], by simp⟩)
  | @branch word e u yes v no stop w t d _ _ he _ _ _ ihv ihw =>
    exact .append (he.allWithin.mono ⟨[t], d :: v ++ w, by simp⟩)
      (.append (ihv.mono ⟨t :: u ++ [d], w, by simp⟩) (ihw.mono ⟨t :: u ++ d :: v, [], by simp⟩))
  | @otherwise no u t r _ _ _ ih => exact ih.mono ⟨[t], [r], by simp⟩
  | elif _ ih => exact .append ih allWithin_nil

/-! ## Trees that list tokens -/

/-- Below what stands alone, the next tighter category. -/
theorem Category.exists_tighter {c : Category} (hc : c.isExpression) (h : c.tightness < 9) :
    ∃ t : Category, t.isExpression ∧ t.tightness = c.tightness + 1 ∧
      ∀ e u, Expr.Reads t e u → Expr.Reads c e u := by
  cases c with
  | or => exact ⟨.and, rfl, rfl, fun _ _ => .operand rfl⟩
  | and => exact ⟨.equality, rfl, rfl, fun _ _ => .operand rfl⟩
  | equality => exact ⟨.comparison, rfl, rfl, fun _ _ => .operand rfl⟩
  | comparison => exact ⟨.addition, rfl, rfl, fun _ _ => .operand rfl⟩
  | addition => exact ⟨.multiplication, rfl, rfl, fun _ _ => .operand rfl⟩
  | multiplication => exact ⟨.unary, rfl, rfl, fun _ _ => .operand rfl⟩
  | unary => exact ⟨.power, rfl, rfl, fun _ _ => .unsigned⟩
  | power => exact ⟨.primary, rfl, rfl, fun _ _ => .base⟩
  | primary => exact absurd h (by decide)
  | _ => cases hc

theorem Category.eq_of_tightness {c c' : Category} (hc : c.isExpression)
    (h : c.tightness = c'.tightness) : c = c' := by
  cases c <;> cases hc <;> cases c' <;> first | rfl | cases h

theorem Expr.Reads.loosenBy {c : Category} {e : Expr} {u : List Token} (h : e.Reads c u) :
    ∀ (n : Nat) {c' : Category}, c'.isExpression → c'.tightness + n = c.tightness → e.Reads c' u
  | 0, c', hc', hn => Category.eq_of_tightness hc' hn ▸ h
  | n + 1, c', hc', hn => by
    have hle : c.tightness ≤ 9 := by cases c <;> decide
    obtain ⟨t, ht, htight, hstep⟩ := Category.exists_tighter hc' (by omega)
    exact hstep e u (h.loosenBy n ht (by omega))

/-- An expression is one of every looser category. -/
theorem Expr.Reads.loosen {c c' : Category} {e : Expr} {u : List Token} (h : e.Reads c u)
    (hc' : c'.isExpression) (hle : c'.tightness ≤ c.tightness) : e.Reads c' u :=
  h.loosenBy (c.tightness - c'.tightness) hc' (Nat.add_sub_cancel' hle)

namespace Token

variable {t : Token}

theorem kind_of_mark {k : TokenKind} (h : t.symbol = some (.mark k)) : t.kind = k := by
  rw [symbol] at h
  split at h <;> simp_all

theorem number_of_symbol {x : Float} (h : t.symbol = some (.number x)) :
    t.kind = .number ∧ numberOfLiteral? t.literal = some x := by
  rw [symbol] at h
  split at h <;> simp_all

theorem string_of_symbol {s : Bytes} (h : t.symbol = some (.string s)) :
    t.kind = .string ∧ t.literal = s := by
  rw [symbol] at h
  split at h <;> simp_all

theorem name_of_symbol {n : Bytes} (h : t.symbol = some (.name n)) :
    t.kind = .identifier ∧ t.literal = n := by
  rw [symbol] at h
  split at h <;> simp_all

end Token

/-- The level of a binary operator that groups to the left. -/
theorem exists_chain {o : TokenKind} (hpos : 0 < o.tightness) (hcaret : o ≠ .caret) :
    ∃ c ops t, Category.chain c = some (ops, t) ∧ o ∈ ops := by
  have hall : ∀ k ∈ Category.operators, k ≠ .caret →
      ∃ c ∈ [Category.or, .and, .equality, .comparison, .addition, .multiplication],
        ∃ p ∈ c.chain, k ∈ p.1 := by decide
  have hmem : o ∈ Category.operators := by
    cases o <;> first | decide | cases hpos
  obtain ⟨c, -, ⟨ops, t⟩, hc, ho⟩ := hall o hmem hcaret
  exact ⟨c, ops, t, hc, ho⟩

/-- Tokens that a tree lists, with its operands grouped, are read as it but for its ranges. -/
theorem Expr.exists_reads_of_symbols (e : Expr) (he : ∀ x ∈ e.nodes, x.Grouped)
    {ts : List Token} (hts : ts.map Token.symbol = e.symbols.map some) {c : Category}
    (hc : c.isExpression) (htight : c.tightness ≤ e.tightness) :
    ∃ e', Expr.Reads c e' ts ∧ e'.bare = e.bare := by
  induction e generalizing ts c with
  | number s x =>
    obtain ⟨t, rfl, ht⟩ := List.map_eq_singleton_iff.1 hts
    obtain ⟨hk, hx⟩ := Token.number_of_symbol ht
    exact ⟨_, (Expr.Reads.number hk hx).loosen hc htight, rfl⟩
  | string s text =>
    obtain ⟨t, rfl, ht⟩ := List.map_eq_singleton_iff.1 hts
    obtain ⟨hk, rfl⟩ := Token.string_of_symbol ht
    exact ⟨_, (Expr.Reads.string hk).loosen hc htight, rfl⟩
  | bool s b =>
    obtain ⟨t, rfl, ht⟩ := List.map_eq_singleton_iff.1 hts
    exact ⟨_, (Expr.Reads.bool (Token.kind_of_mark ht)).loosen hc htight, rfl⟩
  | ident s name =>
    obtain ⟨t, rfl, ht⟩ := List.map_eq_singleton_iff.1 hts
    obtain ⟨hk, rfl⟩ := Token.name_of_symbol ht
    exact ⟨_, (Expr.Reads.ident hk).loosen hc htight, rfl⟩
  | group s inner ih =>
    rw [symbols, List.map_append, List.map_cons] at hts
    obtain ⟨lu, rs, rfl, hlu, hrs⟩ := List.map_eq_append_iff.1 hts
    obtain ⟨l, u, rfl, hl, hu⟩ := List.map_eq_cons_iff.1 hlu
    obtain ⟨r, rfl, hr⟩ := List.map_eq_singleton_iff.1 hrs
    have hinner : ∀ x ∈ inner.nodes, x.Grouped := fun x hx => he x (List.mem_cons_of_mem _ hx)
    obtain ⟨e', hreads, hbare⟩ :=
      ih hinner hu (c := .or) rfl (hinner _ inner.self_mem_nodes).tightness_pos
    refine ⟨_, (Expr.Reads.group (Token.kind_of_mark hl) hreads (Token.kind_of_mark hr)).loosen hc
      htight, ?_⟩
    rw [bare, bare, hbare]
  | unary s op operand ih =>
    rw [symbols, List.map_cons] at hts
    obtain ⟨o, u, rfl, ho, hu⟩ := List.map_eq_cons_iff.1 hts
    obtain rfl := Token.kind_of_mark ho
    obtain ⟨hsign, hoperand⟩ := he _ List.mem_cons_self
    obtain ⟨e', hreads, hbare⟩ :=
      ih (fun x hx => he x (List.mem_cons_of_mem _ hx)) hu (c := .unary) rfl hoperand
    exact ⟨_, (Expr.Reads.signed hsign hreads).loosen hc htight, by rw [bare, bare, hbare]⟩
  | binary s op left right ihl ihr =>
    rw [symbols, List.map_append, List.map_cons] at hts
    obtain ⟨u, ov, rfl, hu, hov⟩ := List.map_eq_append_iff.1 hts
    obtain ⟨o, v, rfl, ho, hv⟩ := List.map_eq_cons_iff.1 hov
    obtain rfl := Token.kind_of_mark ho
    have hl : ∀ x ∈ left.nodes, x.Grouped := fun x hx =>
      he x (List.mem_cons_of_mem _ (List.mem_append_left _ hx))
    have hr : ∀ x ∈ right.nodes, x.Grouped := fun x hx =>
      he x (List.mem_cons_of_mem _ (List.mem_append_right _ hx))
    have hgrouped := he _ List.mem_cons_self
    by_cases hcaret : o.kind = .caret
    · rw [hcaret] at hgrouped htight
      obtain ⟨hleft, hright⟩ := hgrouped
      obtain ⟨a, ha, hbarea⟩ := ihl hl hu (c := .primary) rfl (Nat.le_of_eq hleft.symm)
      obtain ⟨b, hb, hbareb⟩ := ihr hr hv (c := .unary) rfl hright
      refine ⟨_, (Expr.Reads.raised ha hcaret hb).loosen hc htight, ?_⟩
      rw [bare, bare, hbarea, hbareb, hcaret]
    · obtain ⟨hpos, hleft, hright⟩ := (grouped_binary hcaret).1 hgrouped
      obtain ⟨level, ops, t, hchain, hop⟩ := exists_chain hpos hcaret
      obtain ⟨hnext, hlevelpos, hops⟩ := Category.tightness_of_chain hchain
      have hlevel := (hops _ hop).1
      obtain ⟨a, ha, hbarea⟩ := ihl hl hu (Category.isExpression_of_chain hchain).1 (hlevel ▸ hleft)
      obtain ⟨b, hb, hbareb⟩ :=
        ihr hr hv (Category.isExpression_of_chain hchain).2 (by omega)
      refine ⟨_, (Expr.Reads.operator hchain ha hop hb).loosen hc (hlevel ▸ htight), ?_⟩
      rw [bare, bare, hbarea, hbareb]

/-! ## The tree of some tokens -/

/-- The expressions in a text that was read : the tokens within the range of each are those that it
lists, and its operands are grouped. -/
theorem node_of_parse {source : Bytes} {script : Script} (h : parse source = .ok script)
    {x : Expr} (hx : x ∈ script.expressions) :
    ((tokenize source).filter (Token.inside x.span)).map Token.symbol = x.symbols.map some ∧
      x.Grouped := by
  obtain ⟨body, stop, htokens, -, hbody, hreads⟩ := reads_of_parse h
  obtain ⟨c, v, ⟨pre, post, rfl⟩, hv⟩ := hreads.allWithin x hx
  obtain ⟨first, y, hfirst, hstart, -⟩ := hv.first
  obtain ⟨z, last, hlast, hstop⟩ := hv.last
  have hordered := ordered_tokenize source
  rw [htokens, List.append_assoc] at hordered
  have hne : ∀ t ∈ pre ++ v, t.kind ≠ .eof := fun t ht => (hbody t (List.mem_append_left post ht)).1
  rw [htokens, List.append_assoc, hordered.filter_inside hne hfirst hlast hstart hstop]
  exact ⟨hv.symbols_eq, hv.grouped.1⟩

/-- Tokens that a tree lists, with its operands grouped, make a script of this tree alone. -/
theorem script_of_symbols {e : Expr} (he : ∀ x ∈ e.nodes, x.Grouped) {ts : List Token}
    {stop : Token} (hts : ts.map Token.symbol = e.symbols.map some) (hstop : stop.kind = .eof) :
    ∃ span e', (Parser.script (ts ++ [stop])).1.statements = [.expr span e'] ∧
      e'.bare = e.bare ∧ (Parser.script (ts ++ [stop])).2.errors = [] := by
  obtain ⟨e', hreads, hbare⟩ :=
    e.exists_reads_of_symbols he hts (c := .or) rfl (he e e.self_mem_nodes).tightness_pos
  have hblock : Part.Reads (.block [.expr e'.span e']) (ts ++ []) :=
    .more (.expr hreads) (fun _ => by simp) .done
  rw [List.append_nil] at hblock
  have hkinds : ∀ k ∈ Category.expressionKinds, k ≠ .error := by decide
  obtain ⟨hstatements, herrors⟩ := Parser.script_of_reads hstop
    (fun t ht => hkinds _ (hreads.kinds t ht)) hblock
  exact ⟨e'.span, e', hstatements, hbare, herrors⟩

/-- Precedence determines the tree. In a text that was read, the tokens within the range of each
expression are those that it lists, and its operands are grouped. And if an expression with all its
operands grouped lists some tokens, these are read as this expression, but for its ranges. -/
theorem tokens_determine_tree :
    (∀ source script, parse source = .ok script → ∀ x ∈ script.expressions,
      ((tokenize source).filter (Token.inside x.span)).map Token.symbol = x.symbols.map some ∧
        x.Grouped) ∧
    ∀ e : Expr, (∀ x ∈ e.nodes, x.Grouped) → ∀ (ts : List Token) (stop : Token),
      ts.map Token.symbol = e.symbols.map some → stop.kind = .eof →
        ∃ span e', (Parser.script (ts ++ [stop])).1.statements = [.expr span e'] ∧
          e'.bare = e.bare ∧ (Parser.script (ts ++ [stop])).2.errors = [] :=
  ⟨fun _ _ h _ hx => node_of_parse h hx, fun _ he _ _ hts hstop => script_of_symbols he hts hstop⟩

/-- A token at no place in particular. -/
def Token.bare (kind : TokenKind) (literal : Bytes) : Token := ⟨kind, literal, default, default⟩

/-- The tree of `- a ^ - b - (c or d) * e`, and a text with the same operators. -/
theorem tokens_determine_tree_of_signs :
    (∃ script, parse "x := -a ^ -b - (c or d) * e" = .ok script ∧ ∀ x ∈ script.expressions,
      ((tokenize "x := -a ^ -b - (c or d) * e").filter (Token.inside x.span)).map Token.symbol =
        x.symbols.map some ∧ x.Grouped) ∧
    ∃ span e', (Parser.script [.bare .minus "-", .bare .identifier "a", .bare .caret "^",
        .bare .minus "-", .bare .identifier "b", .bare .minus "-", .bare .leftParen "(",
        .bare .identifier "c", .bare .orWord "or", .bare .identifier "d", .bare .rightParen ")",
        .bare .star "*", .bare .identifier "e", .bare .eof ""]).1.statements = [.expr span e'] ∧
      e'.bare = .binary default .minus
        (.unary default .minus (.binary default .caret (.ident default "a")
          (.unary default .minus (.ident default "b"))))
        (.binary default .star (.group default (.binary default .orWord (.ident default "c")
          (.ident default "d"))) (.ident default "e")) := by
  constructor
  · have h : (parse "x := -a ^ -b - (c or d) * e").isOk = true := by decide +kernel
    cases hp : parse "x := -a ^ -b - (c or d) * e" with
    | ok script => exact ⟨script, rfl, tokens_determine_tree.1 _ script hp⟩
    | error e =>
      rw [hp] at h
      cases h
  · obtain ⟨span, e', hstatements, hbare, -⟩ := tokens_determine_tree.2
      (.binary default .minus
        (.unary default .minus (.binary default .caret (.ident default "a")
          (.unary default .minus (.ident default "b"))))
        (.binary default .star (.group default (.binary default .orWord (.ident default "c")
          (.ident default "d"))) (.ident default "e")))
      (by simp [Expr.nodes, Expr.Grouped, Expr.tightness, TokenKind.tightness])
      [.bare .minus "-", .bare .identifier "a", .bare .caret "^",
        .bare .minus "-", .bare .identifier "b", .bare .minus "-", .bare .leftParen "(",
        .bare .identifier "c", .bare .orWord "or", .bare .identifier "d", .bare .rightParen ")",
        .bare .star "*", .bare .identifier "e"]
      (.bare .eof "") rfl rfl
    exact ⟨span, e', hstatements, hbare⟩

end Scriptlet
