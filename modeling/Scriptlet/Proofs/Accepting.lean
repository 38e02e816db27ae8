import Scriptlet.Proofs.Parsing

/-!
# Reading what the grammar allows

The converse of reading without faults : where the tokens of a tree stand before a token that does
not go on with it, the reader returns that very tree (`accepts_expressions`, `accepts_parts`).

What the reader makes of a tree it makes of it by what it makes of its parts : `Complete` and
`CompletePart` say what that is, and are kept by each rule of the grammar. An expression of a level
is read from the left, operand after operand, while its tree leans to the left. So what is shown of
a level is that reading it comes to the same as going on from the tree read so far
(`Complete.level`).
-/

namespace Scriptlet.Parser

/-- The tokens from the current one on start with `ts`, and there is no fault among these that is
not reported yet, nor between the last of them and the token after it. -/
structure State.Faces (s : State) (ts : List Token) : Prop where
  tokens : ts <+: s.tokens
  quiet : ∀ i ∈ (s.upcoming.take ts.length).drop 1, i.faults = []

/-- The reader returns `a` for the tokens `u`, and reports nothing. -/
def Accepts {α : Type} (p : Parser α) (s : State) (a : α) (u : List Token) : Prop :=
  ∃ s', p s = (some a, s') ∧ Passes s s' u

section

variable {α β : Type} {p : Parser α} {f : α → Parser β} {s s' : State} {a : α} {b : β}
  {t : Token} {u v w : List Token}

theorem State.Faces.of_pending {ts : List Token} (htokens : s.tokens = ts)
    (hpending : s.pending = []) : s.Faces ts := by
  refine ⟨htokens ▸ List.prefix_rfl, fun i hi => ?_⟩
  exact List.flatMap_eq_nil_iff.1 hpending i (((List.take_prefix _ _).sublist.drop 1).subset hi)

theorem State.Faces.current (h : s.Faces (t :: u)) : s.current = t :=
  (List.cons_prefix_cons.1 h.tokens).1.symm

theorem State.Faces.kind (h : s.Faces (t :: u)) : s.kind = t.kind :=
  congrArg Token.kind h.current

/-- The next token, with the items of the tokens after the current one. -/
theorem State.Faces.upcoming {t' : Token} (h : s.Faces (t :: t' :: u)) :
    ∃ i rest, s.upcoming = i :: rest ∧ i.token = t' ∧ State.headFaults rest = [] := by
  obtain ⟨-, more, hmore⟩ := List.cons_prefix_cons.1 h.tokens
  obtain ⟨i, rest, hi, htoken, -⟩ := List.map_eq_cons_iff.1 hmore.symm
  refine ⟨i, rest, hi, htoken, ?_⟩
  cases rest with
  | nil => rfl
  | cons j rest => exact h.quiet j (by simp [hi])

/-- The kind that the reader looks ahead for is that of the second token. -/
theorem State.Faces.nextKind {t' : Token} (h : s.Faces (t :: t' :: u)) : s.nextKind = t'.kind := by
  obtain ⟨i, rest, hi, rfl, -⟩ := h.upcoming
  rw [State.nextKind, hi]

/-- Past some tokens stand those behind them. -/
theorem Passes.faces (h : Passes s s' u) (hs : s.Faces (u ++ v)) : s'.Faces v := by
  refine ⟨(List.prefix_append_right_inj u).1 (h.tokens ▸ hs.tokens), fun i hi => hs.quiet i ?_⟩
  rw [h.upcoming, List.take_drop, List.drop_drop] at hi
  rw [List.length_append]
  exact List.drop_subset_drop_left _ (by omega) hi

theorem bind_some (h : p s = (some a, s')) : (p >>= f) s = f a s' := by
  simp [Bind.bind, h]

theorem bind_none (h : p s = (none, s')) : (p >>= f) s = (none, s') := by
  simp [Bind.bind, h]

theorem look_bind {f : State → Parser β} : (look >>= f) s = f s s := rfl

theorem Accepts.look {f : State → Parser β} (h : Accepts (f s) s b u) :
    Accepts (look >>= f) s b u := h

/-- One reader after another. -/
theorem Accepts.bind (h : Accepts p s a u) (hs : s.Faces (u ++ v))
    (hf : ∀ s', Passes s s' u → s'.Faces v → Accepts (f a) s' b w) :
    Accepts (p >>= f) s b (u ++ w) := by
  obtain ⟨s₁, hrun, h₁⟩ := h
  obtain ⟨s₂, hrun₂, h₂⟩ := hf s₁ h₁ (h₁.faces hs)
  exact ⟨s₂, by rw [bind_some hrun, hrun₂], h₁.trans h₂⟩

/-- A last step that passes no token. -/
theorem Accepts.finish (h : Accepts p s a u) (hf : ∀ s', Passes s s' u → Accepts (f a) s' b []) :
    Accepts (p >>= f) s b u := by
  obtain ⟨s₁, hrun, h₁⟩ := h
  obtain ⟨s₂, hrun₂, h₂⟩ := hf s₁ h₁
  exact ⟨s₂, by rw [bind_some hrun, hrun₂], List.append_nil u ▸ h₁.trans h₂⟩

theorem Accepts.pure : Accepts (pure a : Parser α) s a [] := ⟨s, rfl, .refl s⟩

/-- A result with the range from `start` to the last token passed. -/
theorem Accepts.ranged {start stop : Position} {g : Span → α} (h : s.previousStop = stop) :
    Accepts (do return g (← spanFrom start)) s (g ⟨start, stop⟩) [] := by
  subst h
  exact Accepts.pure

/-- A token that is not the last one is passed without a report. -/
theorem advance_of_faces (hs : s.Faces (t :: u)) (hu : u ≠ []) : Passes s s.advance [t] := by
  obtain ⟨t', u, rfl⟩ := List.exists_cons_of_ne_nil hu
  obtain ⟨i, rest, hi, -, hfaults⟩ := hs.upcoming
  have he : s.advance.errors = s.errors := by simp [State.advance, hi, hfaults]
  exact hs.current ▸ Passes.advance (by rw [hi]; exact List.cons_ne_nil i rest) he

/-- Passing a token, before a reader. -/
theorem Accepts.advance {p : Parser β} (hs : s.Faces (t :: v)) (hv : v ≠ [])
    (h : ∀ s', Passes s s' [t] → s'.Faces v → Accepts p s' b w) :
    Accepts (advance >>= fun _ => p) s b (t :: w) :=
  Accepts.bind (u := [t]) ⟨s.advance, rfl, advance_of_faces hs hv⟩ hs h

/-- Passing a token of a wanted kind, before a reader. -/
theorem Accepts.expect {p : Parser β} {wanted : TokenKind} (ht : t.kind = wanted)
    (hs : s.Faces (t :: v)) (hv : v ≠ [])
    (h : ∀ s', Passes s s' [t] → s'.Faces v → Accepts p s' b w) :
    Accepts (expect wanted >>= fun _ => p) s b (t :: w) := by
  have hexpect : Accepts (Parser.expect wanted) s () [t] := by
    refine ⟨s.advance, ?_, advance_of_faces hs hv⟩
    rw [Parser.expect, look_bind, if_pos (hs.kind.trans ht)]
    rfl
  exact hexpect.bind hs h

end

/-! ## Expressions -/

/-- A token of the kind `k` does not go on with an expression of a level below the given rank. -/
def Stops (rank : Nat) (k : TokenKind) : Prop := k ≠ .caret ∧ Loose rank k

/-- An operator goes on with no operand of its level. -/
theorem stops_of_operator {level : Level} {k : TokenKind} (h : k ∈ level.operators) :
    Stops level.rank k := by
  have hcaret : .caret ∉ level.operators := by cases level <;> decide
  refine ⟨fun hk => hcaret (hk ▸ h), fun l hl => ?_⟩
  have hapart : ∀ k ∈ level.operators, k ∉ l.operators := by
    cases level <;> cases l <;> first | decide | exact absurd hl (by decide)
  exact hapart k h

/-- What is no operator at all goes on with no expression. -/
theorem stops_of_not_mem {rank : Nat} {k : TokenKind} (h : k ∉ Category.operators) :
    Stops rank k := by
  refine ⟨fun hk => h (hk ▸ by decide), fun l _ hk => h ?_⟩
  exact Category.mem_operators_of_chain l.chain_category hk

/-- What the functions that read expressions make of the tokens `u`, if these are read as `e`. -/
structure Complete (c : Category) (e : Expr) (u : List Token) : Prop where
  level : ∀ level : Level, level.category = c → ∀ fuel s next rest,
    s.Faces (u ++ next :: rest) → Stops level.rank next.kind →
    20 * s.left + (5 + 2 * level.rank) ≤ fuel →
    ∃ fuel' s', 20 * s'.left + 1 ≤ fuel' ∧ Passes s s' u ∧
      binary fuel level s = chain fuel' level e s'
  unary : c = .unary → ∀ fuel s next rest, s.Faces (u ++ next :: rest) → next.kind ≠ .caret →
    20 * s.left + 3 ≤ fuel → Accepts (unary fuel) s e u
  power : c = .power → ∀ fuel s next rest, s.Faces (u ++ next :: rest) → next.kind ≠ .caret →
    20 * s.left + 2 ≤ fuel → Accepts (power fuel) s e u
  primary : c = .primary → ∀ fuel s next rest, s.Faces (u ++ next :: rest) →
    20 * s.left + 1 ≤ fuel → Accepts (primary fuel) s e u

/-- Without an operator of the level its expression is done. -/
theorem chain_of_not_mem {fuel : Nat} {level : Level} {e : Expr} {s : State} (hfuel : 0 < fuel)
    (hk : s.kind ∉ level.operators) : chain fuel level e s = (some e, s) := by
  obtain ⟨fuel, rfl⟩ := Nat.exists_eq_succ_of_ne_zero (Nat.ne_of_gt hfuel)
  rw [chain, look_bind, if_neg hk]
  rfl

/-- A whole expression of a level. -/
theorem Complete.binary {level : Level} {e : Expr} {u : List Token}
    (h : Complete level.category e u) (fuel : Nat) {s : State} {next : Token} {rest : List Token}
    (hs : s.Faces (u ++ next :: rest)) (hnext : Stops (level.rank + 1) next.kind)
    (hfuel : 20 * s.left + (5 + 2 * level.rank) ≤ fuel) : Accepts (binary fuel level) s e u := by
  have hnext' : Stops level.rank next.kind :=
    ⟨hnext.1, fun l hl => hnext.2 l (Nat.lt_succ_of_lt hl)⟩
  obtain ⟨fuel', s', hfuel', hpass, hrun⟩ := h.level level rfl fuel s next rest hs hnext' hfuel
  refine ⟨s', ?_, hpass⟩
  rw [hrun, chain_of_not_mem (by omega)]
  rw [(hpass.faces hs).kind]
  exact hnext.2 level (Nat.lt_succ_self _)

theorem Complete.operand {level : Level} {e : Expr} {u : List Token}
    (h : Complete level.operands e u) (fuel : Nat) {s : State} {next : Token} {rest : List Token}
    (hs : s.Faces (u ++ next :: rest)) (hnext : Stops level.rank next.kind)
    (hfuel : 20 * s.left + (4 + 2 * level.rank) ≤ fuel) : Accepts (operand fuel level) s e u := by
  obtain ⟨fuel, rfl⟩ : ∃ f, fuel = f + 1 := ⟨fuel - 1, by omega⟩
  rw [Parser.operand]
  rw [Level.operands] at h
  cases htight : level.tighter? with
  | some tighter =>
    rw [htight] at h
    rw [Level.rank_of_tighter htight] at hnext hfuel
    exact h.binary fuel hs hnext (by omega)
  | none =>
    rw [htight] at h
    exact h.unary rfl fuel s next rest hs hnext.1 (by omega)

/-- One more operator and operand of a level. -/
theorem chain_of_operand {level : Level} {b : Expr} {v : List Token}
    (hb : Complete level.operands b v) {a : Expr} {fuel : Nat} {s : State} {o next : Token}
    {rest : List Token} (hs : s.Faces (o :: v ++ next :: rest)) (ho : o.kind ∈ level.operators)
    (hnext : Stops level.rank next.kind) (hfuel : 20 * s.left + 1 ≤ fuel) :
    ∃ fuel' s', 20 * s'.left + 1 ≤ fuel' ∧ Passes s s' (o :: v) ∧ chain fuel level a s =
      chain fuel' level (.binary ⟨a.span.start, b.span.stop⟩ o.kind a b) s' := by
  obtain ⟨fuel, rfl⟩ : ∃ f, fuel = f + 1 := ⟨fuel - 1, by omega⟩
  have hrank : level.rank ≤ 5 := by cases level <;> decide
  have h₁ : Passes s s.advance [o] := advance_of_faces hs (by simp)
  have hs₁ : s.advance.Faces (v ++ next :: rest) := h₁.faces (u := [o]) hs
  have hleft₁ := h₁.left_token
  obtain ⟨s₂, hrun₂, h₂⟩ := hb.operand fuel hs₁ hnext (by omega)
  have hleft₂ := h₂.left
  refine ⟨fuel, s₂, by omega, h₁.trans h₂, ?_⟩
  rw [chain, look_bind, hs.kind, if_pos ho, bind_some (p := advance) rfl, bind_some hrun₂]

/-- Each rule of the grammar with operators is that of a level. -/
theorem exists_level {c t : Category} {ops : List TokenKind} (h : c.chain = some (ops, t)) :
    ∃ level : Level, level.category = c ∧ level.operators = ops ∧ level.operands = t := by
  cases c <;> cases h
  · exact ⟨.or, rfl, rfl, rfl⟩
  · exact ⟨.and, rfl, rfl, rfl⟩
  · exact ⟨.equality, rfl, rfl, rfl⟩
  · exact ⟨.comparison, rfl, rfl, rfl⟩
  · exact ⟨.addition, rfl, rfl, rfl⟩
  · exact ⟨.multiplication, rfl, rfl, rfl⟩

theorem category_injective {l l' : Level} (h : l.category = l'.category) : l = l' := by
  cases l <;> cases l' <;> first | rfl | cases h

section

variable {e : Expr} {u : List Token}

/-- For a category with operators only the reader of its level matters. -/
theorem Complete.of_level {level : Level} (h : ∀ fuel s next rest, s.Faces (u ++ next :: rest) →
    Stops level.rank next.kind → 20 * s.left + (5 + 2 * level.rank) ≤ fuel + 1 →
    ∃ fuel' s', 20 * s'.left + 1 ≤ fuel' ∧ Passes s s' u ∧
      Parser.binary (fuel + 1) level s = chain fuel' level e s') :
    Complete level.category e u := by
  refine ⟨fun level' hlevel fuel s next rest hs hk hfuel => ?_, ?_, ?_, ?_⟩
  · obtain rfl := category_injective hlevel
    obtain ⟨fuel, rfl⟩ : ∃ f, fuel = f + 1 := ⟨fuel - 1, by omega⟩
    exact h fuel s next rest hs hk hfuel
  all_goals
    intro hc
    cases level <;> cases hc

/-- For an expression that may have signs only `unary` matters. -/
theorem Complete.of_unary (h : ∀ fuel s next rest, s.Faces (u ++ next :: rest) →
    next.kind ≠ .caret → 20 * s.left + 3 ≤ fuel + 1 → Accepts (Parser.unary (fuel + 1)) s e u) :
    Complete .unary e u := by
  refine ⟨fun level hl => (by cases level <;> cases hl), fun _ fuel s next rest hs hk hfuel => ?_,
    by simp, by simp⟩
  obtain ⟨fuel, rfl⟩ : ∃ f, fuel = f + 1 := ⟨fuel - 1, by omega⟩
  exact h fuel s next rest hs hk hfuel

/-- For a power only `power` matters. -/
theorem Complete.of_power (h : ∀ fuel s next rest, s.Faces (u ++ next :: rest) →
    next.kind ≠ .caret → 20 * s.left + 2 ≤ fuel + 1 → Accepts (Parser.power (fuel + 1)) s e u) :
    Complete .power e u := by
  refine ⟨fun level hl => (by cases level <;> cases hl), by simp,
    fun _ fuel s next rest hs hk hfuel => ?_, by simp⟩
  obtain ⟨fuel, rfl⟩ : ∃ f, fuel = f + 1 := ⟨fuel - 1, by omega⟩
  exact h fuel s next rest hs hk hfuel

theorem Complete.of_primary (h : ∀ fuel s next rest, s.Faces (u ++ next :: rest) →
    20 * s.left + 1 ≤ fuel + 1 → Accepts (Parser.primary (fuel + 1)) s e u) :
    Complete .primary e u := by
  refine ⟨fun level hl => (by cases level <;> cases hl), by simp, by simp,
    fun _ fuel s next rest hs hfuel => ?_⟩
  obtain ⟨fuel, rfl⟩ : ∃ f, fuel = f + 1 := ⟨fuel - 1, by omega⟩
  exact h fuel s next rest hs hfuel

/-- A token that is an expression. -/
theorem complete_atom {t : Token} (h : ∀ fuel s, s.current = t →
    primary (fuel + 1) s = (do advance; return e : Parser Expr) s) : Complete .primary e [t] := by
  refine .of_primary fun fuel s next rest hs _ => ?_
  rw [Accepts, h fuel s hs.current]
  exact Accepts.advance hs (List.cons_ne_nil next rest) fun _ _ _ => Accepts.pure

/-- A primary expression in parentheses. -/
theorem complete_group {l r : Token} (hl : l.kind = .leftParen) (he : Complete .or e u)
    (hr : r.kind = .rightParen) :
    Complete .primary (.group ⟨l.start, r.stop⟩ e) (l :: u ++ [r]) := by
  refine .of_primary fun fuel s next rest hs hfuel => ?_
  rw [Parser.primary]
  refine Accepts.look ?_
  have hs' : s.Faces (l :: (u ++ r :: next :: rest)) := by simpa using hs
  simp only [hs'.current, hl]
  refine Accepts.advance hs' (by simp) fun s₁ h₁ hs₁ => ?_
  have hleft₁ := h₁.left_token
  have hstop : Stops (Level.or.rank + 1) r.kind := by
    rw [hr]
    exact stops_of_not_mem (by decide)
  have hor : Complete Level.or.category e u := he
  refine (hor.binary fuel hs₁ hstop (by rw [Level.rank]; omega)).bind hs₁ fun s₂ h₂ hs₂ => ?_
  exact Accepts.expect hr hs₂ (by simp) fun s₃ h₃ hs₃ => Accepts.ranged h₃.stop

theorem complete_base (he : Complete .primary e u) : Complete .power e u := by
  refine .of_power fun fuel s next rest hs hk hfuel => ?_
  rw [Parser.power]
  refine (he.primary rfl fuel s next rest hs (by omega)).finish fun s₁ h₁ => Accepts.look ?_
  rw [(h₁.faces hs).kind, if_neg hk]
  exact Accepts.pure

/-- A power with an exponent, which may have signs. -/
theorem complete_raised {b : Expr} {v : List Token} {o : Token} (he : Complete .primary e u)
    (ho : o.kind = .caret) (hb : Complete .unary b v) :
    Complete .power (.binary ⟨e.span.start, b.span.stop⟩ .caret e b) (u ++ o :: v) := by
  refine .of_power fun fuel s next rest hs hk hfuel => ?_
  rw [Parser.power]
  have hs' : s.Faces (u ++ o :: (v ++ next :: rest)) := by simpa using hs
  refine (he.primary rfl fuel s o _ hs' (by omega)).bind hs' fun s₁ h₁ hs₁ => Accepts.look ?_
  rw [hs₁.kind, if_pos ho]
  refine Accepts.advance hs₁ (by simp) fun s₂ h₂ hs₂ => ?_
  have hleft₁ := h₁.left
  have hleft₂ := h₂.left_token
  exact (hb.unary rfl fuel s₂ next rest hs₂ hk (by omega)).finish fun _ _ => Accepts.pure

/-- Without a sign before it, an expression is read as a power. -/
theorem complete_unsigned (hreads : e.Reads .power u) (he : Complete .power e u) :
    Complete .unary e u := by
  refine .of_unary fun fuel s next rest hs hk hfuel => ?_
  rw [Parser.unary]
  obtain ⟨t, v, rfl, -⟩ := hreads.first
  obtain ⟨k, w, hkw, hstart⟩ := hreads.derives.head_of_power
  obtain ⟨rfl, -⟩ := List.cons.inj hkw
  have hsign : s.kind ∉ unaryOperators := by
    have hapart : ∀ k ∈ TokenKind.leftParen :: Category.atoms, k ∉ unaryOperators := by decide
    rw [hs.kind]
    exact hapart _ hstart
  obtain ⟨s', hrun, h⟩ := he.power rfl fuel s next rest hs hk (by omega)
  exact ⟨s', by rw [look_bind, if_neg hsign, hrun], h⟩

/-- A sign before an expression that may have signs itself. -/
theorem complete_signed {o : Token} (ho : o.kind ∈ Category.signs) (hreads : e.Reads .unary u)
    (he : Complete .unary e u) :
    Complete .unary (.unary ⟨o.start, e.span.stop⟩ o.kind e) (o :: u) := by
  refine .of_unary fun fuel s next rest hs hk hfuel => ?_
  rw [Parser.unary]
  refine Accepts.look ?_
  rw [hs.kind, hs.current, if_pos (c := o.kind ∈ unaryOperators) ho]
  refine Accepts.advance hs (by simp) fun s₁ h₁ hs₁ => ?_
  have hleft₁ := h₁.left_token
  refine (he.unary rfl fuel s₁ next rest hs₁ hk (by omega)).finish fun s₂ h₂ => ?_
  exact Accepts.ranged (h₂.stop_of_reads hreads)

/-- An expression of a level without an operator of this level. -/
theorem complete_operand {level : Level} (he : Complete level.operands e u) :
    Complete level.category e u := by
  refine .of_level fun fuel s next rest hs hnext hfuel => ?_
  obtain ⟨s', hrun, hpass⟩ := he.operand fuel hs hnext (by omega)
  have hleft := hpass.left
  refine ⟨fuel, s', by omega, hpass, ?_⟩
  rw [Parser.binary, bind_some hrun]

/-- An expression of a level, an operator and one more operand : levels lean to the left. -/
theorem complete_operator {level : Level} {b : Expr} {v : List Token} {o : Token}
    (he : Complete level.category e u) (ho : o.kind ∈ level.operators)
    (hb : Complete level.operands b v) :
    Complete level.category (.binary ⟨e.span.start, b.span.stop⟩ o.kind e b) (u ++ o :: v) := by
  refine .of_level fun fuel s next rest hs hnext hfuel => ?_
  have hs' : s.Faces (u ++ o :: (v ++ next :: rest)) := by simpa using hs
  obtain ⟨fuel₁, s₁, hfuel₁, h₁, hrun₁⟩ :=
    he.level _ rfl (fuel + 1) s o _ hs' (stops_of_operator ho) hfuel
  obtain ⟨fuel₂, s₂, hfuel₂, h₂, hrun₂⟩ :=
    chain_of_operand hb (h₁.faces hs') ho hnext hfuel₁
  exact ⟨fuel₂, s₂, hfuel₂, h₁.trans h₂, hrun₁.trans hrun₂⟩

end

/-- The tokens of an expression are read as it. -/
theorem accepts_expressions {c : Category} {e : Expr} {u : List Token} (h : e.Reads c u) :
    Complete c e u := by
  induction h with
  | operand hc _ ih =>
    obtain ⟨level, rfl, rfl, rfl⟩ := exists_level hc
    exact complete_operand ih
  | operator hc _ ho _ iha ihb =>
    obtain ⟨level, rfl, rfl, rfl⟩ := exists_level hc
    exact complete_operator iha ho ihb
  | unsigned he ih => exact complete_unsigned he ih
  | signed ho he ih => exact complete_signed ho he ih
  | base _ ih => exact complete_base ih
  | raised _ ho _ iha ihb => exact complete_raised iha ho ihb
  | number hk hx =>
    refine complete_atom fun fuel s ht => ?_
    rw [primary, look_bind]
    simp only [ht, hk, hx]
  | string hk | ident hk =>
    refine complete_atom fun fuel s ht => ?_
    rw [primary, look_bind]
    simp only [ht, hk]
  | @bool b t hk =>
    refine complete_atom fun fuel s ht => ?_
    rw [primary, look_bind]
    cases b <;> simp only [ht, hk] <;> rfl
  | group hl _ hr ih => exact complete_group hl ih hr

/-! ## Statements -/

/-- The expression that a statement ends in. -/
theorem accepts_last_expression {e : Expr} {u : List Token} (he : e.Reads .or u) (fuel : Nat)
    {s : State} {next : Token} {rest : List Token} (hs : s.Faces (u ++ next :: rest))
    (hnext : next.kind ∉ Category.operators) (hfuel : 20 * s.left + 15 ≤ fuel)
    {start : Position} {g : Span → Expr → Stmt} :
    Accepts (do let e ← expression fuel; return g (← spanFrom start) e) s
      (g ⟨start, e.span.stop⟩ e) u := by
  have hor : Complete Level.or.category e u := accepts_expressions he
  exact (hor.binary fuel hs (stops_of_not_mem hnext) hfuel).finish fun s' h =>
    Accepts.ranged (g := fun span => g span e) (h.stop_of_reads he)

/-- A statement that starts as an expression, and does not assign, is one. -/
theorem statement_of_expression {fuel : Nat} {s : State} (hk : s.kind ∈ Category.expressionStarts)
    (hnext : s.nextKind ≠ .assign) : statement (fuel + 1) s = expressionStatement fuel s := by
  rw [statement, look_bind]
  simp only [Category.expressionStarts, Category.signs, Category.atoms, List.cons_append,
    List.nil_append, List.mem_cons, List.not_mem_nil, or_false] at hk
  rcases hk with hk | hk | hk | hk | hk | hk | hk | hk | hk
  all_goals simp only [hk]
  rw [if_neg hnext]

/-- The next token is not `:=`, within an expression or after it. -/
theorem nextKind_ne_assign {e : Expr} {u : List Token} (he : e.Reads .or u) {s : State}
    {next : Token} {rest : List Token} (hs : s.Faces (u ++ next :: rest))
    (hnext : next.kind ≠ .assign) : s.nextKind ≠ .assign := by
  obtain ⟨t, v, rfl, -⟩ := he.first
  cases v with
  | nil =>
    rw [State.Faces.nextKind hs]
    exact hnext
  | cons t' v =>
    rw [State.Faces.nextKind hs]
    have hkinds : ∀ k ∈ Category.expressionKinds, k ≠ .assign := by decide
    exact hkinds _ (he.kinds t' (by simp))

/-- A token of the kind `k` does not go on with a statement. -/
def Ends (s : Stmt) (k : TokenKind) : Prop :=
  s.isOpen → k ∉ Category.operators ∧ k ≠ .assign

/-- What the functions that read statements make of the tokens `u` of a part. -/
def CompletePart (u : List Token) : Part → Prop
  | .statement stmt => ∀ fuel s next rest, s.Faces (u ++ next :: rest) → Ends stmt next.kind →
      20 * s.left + 16 ≤ fuel → Accepts (statement fuel) s stmt u
  | .block ss => ∀ fuel terminators s next rest, s.Faces (u ++ next :: rest) →
      terminators ⊆ [.elifWord, .elseWord, .endWord] → next.kind ∈ .eof :: terminators →
      20 * s.left + 17 ≤ fuel → Accepts (always (block fuel terminators)) s ss u
  | .branch _ stmt => ∀ fuel s next rest, s.Faces (u ++ next :: rest) → 20 * s.left + 1 ≤ fuel →
      Accepts (conditional fuel) s stmt u
  | .rest no stop => ∀ fuel s next rest, s.Faces (u ++ next :: rest) → 20 * s.left + 1 ≤ fuel →
      ∀ start test yes,
        Accepts (otherBranch fuel start test yes) s (.cond ⟨start, stop⟩ test yes no) u

/-- What a conditional and a loop begin with : a word, a test, another word and a block. -/
theorem accepts_guarded {e : Expr} {u v w : List Token} {ss : List Stmt} (he : e.Reads .or u)
    (hss : CompletePart v (.block ss)) {fuel : Nat} {s : State} {t d next : Token}
    {rest : List Token} (hs : s.Faces (t :: u ++ d :: v ++ next :: rest))
    (hfuel : 20 * s.left ≤ fuel) {word : TokenKind} (hd : d.kind = word)
    (hword : word ∉ Category.operators) {terminators : List TokenKind}
    (hterms : terminators ⊆ [.elifWord, .elseWord, .endWord]) (hnext : next.kind ∈ terminators)
    {f : Expr → List Stmt → Parser Stmt} {stmt : Stmt}
    (hf : ∀ s', s'.left < s.left → s'.Faces (next :: rest) → Accepts (f e ss) s' stmt w) :
    Accepts (do
      advance
      let test ← expression fuel
      expect word
      let body ← always (block fuel terminators)
      f test body) s stmt (t :: u ++ d :: v ++ w) := by
  have hs' : s.Faces (t :: (u ++ d :: (v ++ next :: rest))) := by simpa using hs
  rw [List.append_assoc, List.cons_append, List.cons_append]
  refine Accepts.advance hs' (by simp) fun s₁ h₁ hs₁ => ?_
  have hleft₁ := h₁.left_token
  have hor : Complete Level.or.category e u := accepts_expressions he
  have hstops : Stops (Level.or.rank + 1) d.kind := hd ▸ stops_of_not_mem hword
  refine (hor.binary fuel hs₁ hstops (by rw [Level.rank]; omega)).bind hs₁ fun s₂ h₂ hs₂ => ?_
  have hleft₂ := h₂.left
  refine Accepts.expect hd hs₂ (by simp) fun s₃ h₃ hs₃ => ?_
  have hleft₃ := h₃.left
  refine (hss fuel terminators s₃ next rest hs₃ hterms (List.mem_cons_of_mem _ hnext)
    (by omega)).bind hs₃ fun s₄ h₄ hs₄ => ?_
  have hleft₄ := h₄.left
  exact hf s₄ (by omega) hs₄

/-- The statement after it does not go on with a statement. -/
theorem ends_of_first {stmt : Stmt} {ss : List Stmt} {t : Token} {v : List Token}
    (hapart : Apart stmt (t :: v)) (hss : Part.Reads (.block ss) (t :: v)) : Ends stmt t.kind := by
  have hstart : ∀ k ∈ Category.statementStarts,
      k ≠ .assign ∧ (k ∈ Category.operators → k ∈ Category.bothWays) := by decide
  obtain ⟨hassign, hboth⟩ := hstart _ hss.first_of_block
  exact fun hopen => ⟨fun hop => hapart hopen t rfl (hboth hop), hassign⟩

section

variable {terminators : List TokenKind}
  (hterms : terminators ⊆ [.elifWord, .elseWord, .endWord])

include hterms

/-- What follows a statement in a block, or ends the block, does not go on with it. -/
theorem ends_of_apart {stmt : Stmt} {ss : List Stmt} {v y rest : List Token} {n next : Token}
    (hapart : Apart stmt v) (hss : Part.Reads (.block ss) v)
    (hnext : next.kind ∈ .eof :: terminators) (hny : v ++ next :: rest = n :: y) :
    Ends stmt n.kind := by
  cases v with
  | nil =>
    intro _
    obtain ⟨rfl, -⟩ := List.cons.inj hny
    have hend : ∀ k ∈ [TokenKind.eof, .elifWord, .elseWord, .endWord],
        k ∉ Category.operators ∧ k ≠ .assign := by decide
    refine hend _ ?_
    rcases List.mem_cons.1 hnext with h | h
    · exact h ▸ List.mem_cons_self
    · exact List.mem_cons_of_mem _ (hterms h)
  | cons t v =>
    obtain ⟨rfl, -⟩ := List.cons.inj hny
    exact ends_of_first hapart hss

/-- No block ends where a statement starts. -/
theorem endsBlock_of_starts {s : State} (hk : s.kind ∈ Category.statementStarts) :
    s.endsBlock terminators = false := by
  have hstart : ∀ k ∈ Category.statementStarts,
      k ≠ .eof ∧ k ∉ [TokenKind.elifWord, .elseWord, .endWord] := by decide
  obtain ⟨heof, hend⟩ := hstart _ hk
  simpa [State.endsBlock, heof] using fun h => hend (hterms h)

/-- A block keeps a statement that is read without a fault, and goes on behind it. -/
theorem block_of_accepts {fuel : Nat} {s : State} {stmt : Stmt} {u rest : List Token}
    (hstmt : Part.Reads (.statement stmt) u) (hs : s.Faces (u ++ rest))
    (h : Accepts (statement fuel) s stmt u) : ∃ s', Passes s s' u ∧
      s'.Faces rest ∧ s'.left < s.left ∧ block (fuel + 1) terminators s =
        (stmt :: (block fuel terminators s').1, (block fuel terminators s').2) := by
  obtain ⟨s', hrun, hpass⟩ := h
  obtain ⟨t, x, rfl, hk⟩ := hstmt.first_of_statement
  have hend : s.endsBlock terminators = false :=
    endsBlock_of_starts hterms (by rw [hs.kind]; exact hk)
  have hleft := hpass.left
  rw [List.length_cons] at hleft
  refine ⟨s', hpass, hpass.faces hs, by omega, ?_⟩
  simp [block, hend, hrun, hpass.errors]

end

section

variable {e : Expr} {stmt : Stmt} {ss yes no : List Stmt} {t a d r : Token} {u v w : List Token}

theorem completePart_print (hk : t.kind ∈ [TokenKind.printWord, .printlnWord])
    (he : e.Reads .or u) : CompletePart (t :: u)
      (.statement (.print ⟨t.start, e.span.stop⟩ (t.kind = .printlnWord) e)) := by
  intro fuel s next rest hs hnext hfuel
  obtain ⟨fuel, rfl⟩ : ∃ f, fuel = f + 1 := ⟨fuel - 1, by omega⟩
  have hrun : statement (fuel + 1) s = printing fuel s := by
    rw [statement, look_bind]
    rcases List.mem_cons.1 (hs.kind ▸ hk) with hk' | hk'
    · simp only [hk']
    · simp only [List.mem_singleton.1 hk']
  rw [Accepts, hrun]
  refine Accepts.look (Accepts.advance hs (by simp) fun s₁ h₁ hs₁ => ?_)
  have hleft := h₁.left_token
  rw [hs.current, hs.kind]
  exact accepts_last_expression he fuel hs₁ (hnext rfl).1 (by omega)

theorem completePart_assign (hk : t.kind = .identifier) (ha : a.kind = .assign)
    (he : e.Reads .or u) : CompletePart (t :: a :: u)
      (.statement (.assign ⟨t.start, e.span.stop⟩ t.literal t.stop e)) := by
  intro fuel s next rest hs hnext hfuel
  obtain ⟨fuel, rfl⟩ : ∃ f, fuel = f + 1 := ⟨fuel - 1, by omega⟩
  have hrun : statement (fuel + 1) s = assignment fuel s := by
    rw [statement, look_bind]
    have hkind : s.kind = .identifier := hs.kind.trans hk
    simp only [hkind]
    rw [if_pos (hs.nextKind.trans ha)]
  rw [Accepts, hrun]
  refine Accepts.look (Accepts.advance hs (by simp) fun s₁ h₁ hs₁ => ?_)
  refine Accepts.advance hs₁ (by simp) fun s₂ h₂ hs₂ => ?_
  have hleft₁ := h₁.left
  have hleft₂ := h₂.left
  rw [hs.current]
  exact accepts_last_expression he fuel hs₂ (hnext rfl).1 (by omega)

/-- An expression is a statement, if no assignment sign follows it. -/
theorem completePart_expr (he : e.Reads .or u) :
    CompletePart u (.statement (.expr e.span e)) := by
  intro fuel s next rest hs hnext hfuel
  obtain ⟨fuel, rfl⟩ : ∃ f, fuel = f + 1 := ⟨fuel - 1, by omega⟩
  obtain ⟨t, v, rfl, hstart, hk⟩ := he.first
  have hkind : s.kind ∈ Category.expressionStarts := by rw [hs.kind]; exact hk
  rw [Accepts, statement_of_expression hkind (nextKind_ne_assign he hs (hnext rfl).2)]
  have hspan : e.span = ⟨s.current.start, e.span.stop⟩ := by rw [hs.current, hstart]
  rw [hspan]
  exact Accepts.look (accepts_last_expression he fuel hs (hnext rfl).1 (by omega))

/-- A conditional is read by its first branch. -/
theorem completePart_cond (hreads : Part.Reads (.branch .ifWord stmt) u)
    (hb : CompletePart u (.branch .ifWord stmt)) : CompletePart u (.statement stmt) := by
  intro fuel s next rest hs _ hfuel
  obtain ⟨fuel, rfl⟩ : ∃ f, fuel = f + 1 := ⟨fuel - 1, by omega⟩
  obtain ⟨t, v, rfl, hk⟩ := hreads.first_of_branch
  have hkind : s.kind = .ifWord := hs.kind.trans hk
  obtain ⟨s', hrun, h⟩ := hb fuel s next rest hs (by omega)
  refine ⟨s', ?_, h⟩
  rw [statement, look_bind]
  simp only [hkind, hrun]

theorem completePart_loop (hk : t.kind = .whileWord) (he : e.Reads .or u) (hd : d.kind = .doWord)
    (hss : CompletePart v (.block ss)) (hr : r.kind = .endWord) :
    CompletePart (t :: u ++ d :: v ++ [r]) (.statement (.loop ⟨t.start, r.stop⟩ e ss)) := by
  intro fuel s next rest hs _ hfuel
  obtain ⟨fuel, rfl⟩ : ∃ f, fuel = f + 2 := ⟨fuel - 2, by omega⟩
  have hs' : s.Faces (t :: u ++ d :: v ++ r :: next :: rest) := by simpa using hs
  have hrun : statement (fuel + 2) s = looping (fuel + 1) s := by
    rw [statement, look_bind]
    have hkind : s.kind = .whileWord := hs.kind.trans hk
    simp only [hkind]
  rw [Accepts, hrun, looping]
  refine Accepts.look ?_
  rw [hs.current]
  refine accepts_guarded he hss hs' (by omega) hd (by decide) (by decide) (by simp [hr])
    fun s₁ _ hs₁ => ?_
  exact Accepts.expect hr hs₁ (by simp) fun s₂ h₂ _ => Accepts.ranged h₂.stop

/-- A block may be empty. -/
theorem completePart_done : CompletePart [] (.block []) := by
  intro fuel terminators s next rest hs _ hnext hfuel
  obtain ⟨fuel, rfl⟩ : ∃ f, fuel = f + 1 := ⟨fuel - 1, by omega⟩
  have hend : s.endsBlock terminators = true := by
    rw [State.endsBlock, State.Faces.kind hs]
    simpa using hnext
  exact ⟨s, by simp [always, block, hend], .refl s⟩

/-- A block goes on behind a statement that the rest does not continue. -/
theorem completePart_more (hreads : Part.Reads (.statement stmt) u) (hapart : Apart stmt v)
    (hreadss : Part.Reads (.block ss) v) (hstmt : CompletePart u (.statement stmt))
    (hss : CompletePart v (.block ss)) : CompletePart (u ++ v) (.block (stmt :: ss)) := by
  intro fuel terminators s next rest hs hterms hnext hfuel
  obtain ⟨fuel, rfl⟩ : ∃ f, fuel = f + 1 := ⟨fuel - 1, by omega⟩
  have hs' : s.Faces (u ++ (v ++ next :: rest)) := by simpa using hs
  obtain ⟨n, y, hny⟩ := List.exists_cons_of_ne_nil (l := v ++ next :: rest) (by simp)
  have hends : Ends stmt n.kind := ends_of_apart hterms hapart hreadss hnext hny
  obtain ⟨s₁, h₁, hs₁, hleft₁, hrun₁⟩ := block_of_accepts hterms hreads hs'
    (hstmt fuel s n y (hny ▸ hs') hends (by omega))
  obtain ⟨s₂, hrun₂, h₂⟩ := hss fuel terminators s₁ next rest hs₁ hterms hnext (by omega)
  refine ⟨s₂, ?_, h₁.trans h₂⟩
  obtain ⟨hresult, rfl⟩ := Prod.mk.inj hrun₂
  obtain rfl := Option.some.inj hresult
  rw [always, hrun₁]
  rfl

/-- A word, a test, another word, a block and the rest of the conditional. -/
theorem completePart_branch {word : TokenKind} {stop : Position} (he : e.Reads .or u)
    (hd : d.kind = .thenWord) (hreads : Part.Reads (.rest no stop) w)
    (hyes : CompletePart v (.block yes)) (hno : CompletePart w (.rest no stop)) :
    CompletePart (t :: u ++ d :: v ++ w) (.branch word (.cond ⟨t.start, stop⟩ e yes no)) := by
  intro fuel s next rest hs hfuel
  obtain ⟨fuel, rfl⟩ : ∃ f, fuel = f + 1 := ⟨fuel - 1, by omega⟩
  obtain ⟨r, x, rfl, hr⟩ := hreads.first_of_rest
  have hs' : s.Faces (t :: u ++ d :: v ++ r :: (x ++ next :: rest)) := by simpa using hs
  rw [conditional_succ]
  refine Accepts.look ?_
  rw [hs.current]
  refine accepts_guarded he hyes hs' (by omega) hd (by decide) (fun _ h => h) hr
    fun s₁ hleft hs₁ => ?_
  exact hno fuel s₁ next rest hs₁ (by omega) t.start e yes

theorem completePart_close (hr : r.kind = .endWord) : CompletePart [r] (.rest [] r.stop) := by
  intro fuel s next rest hs _ start test yes
  refine Accepts.look ?_
  have hkind : s.kind = .endWord := (State.Faces.kind hs).trans hr
  simp only [hkind]
  exact Accepts.expect hr hs (by simp) fun s₁ h₁ _ => Accepts.ranged h₁.stop

theorem completePart_otherwise (ht : t.kind = .elseWord) (hno : CompletePart u (.block no))
    (hr : r.kind = .endWord) : CompletePart (t :: u ++ [r]) (.rest no r.stop) := by
  intro fuel s next rest hs hfuel start test yes
  have hs' : s.Faces (t :: (u ++ r :: next :: rest)) := by simpa using hs
  refine Accepts.look ?_
  have hkind : s.kind = .elseWord := hs'.kind.trans ht
  simp only [hkind]
  refine Accepts.advance hs' (by simp) fun s₁ h₁ hs₁ => ?_
  have hleft₁ := h₁.left_token
  refine (hno fuel [.endWord] s₁ r _ hs₁ (by decide) (by simp [hr])
    (by omega)).bind hs₁ fun s₂ h₂ hs₂ => ?_
  exact Accepts.expect hr hs₂ (by simp) fun s₃ h₃ _ => Accepts.ranged h₃.stop

/-- A second branch is a conditional within the first one, with the same end. -/
theorem completePart_elif (hreads : Part.Reads (.branch .elifWord stmt) u)
    (hb : CompletePart u (.branch .elifWord stmt)) :
    CompletePart u (.rest [stmt] stmt.span.stop) := by
  intro fuel s next rest hs hfuel start test yes
  obtain ⟨t, v, rfl, hk⟩ := hreads.first_of_branch
  refine Accepts.look ?_
  have hkind : s.kind = .elifWord := hs.kind.trans hk
  simp only [hkind]
  refine (hb fuel s next rest hs hfuel).finish fun s₁ h₁ => Accepts.ranged ?_
  obtain ⟨x, r, hx, hr, -⟩ := hreads.last _ rfl
  rw [h₁.stop, hx]
  simpa using hr

end

/-- The tokens of a part of a script are read as it. -/
theorem accepts_parts {p : Part} {u : List Token} (h : p.Reads u) : CompletePart u p := by
  induction h with
  | print hk he => exact completePart_print hk he
  | assign hk ha he => exact completePart_assign hk ha he
  | expr he => exact completePart_expr he
  | cond hb ih => exact completePart_cond hb ih
  | loop hk he hd _ hr ih => exact completePart_loop hk he hd ih hr
  | done => exact completePart_done
  | more hstmt hapart hss ihs ihss => exact completePart_more hstmt hapart hss ihs ihss
  | branch _ _ he hd _ hw ihv ihw => exact completePart_branch he hd hw ihv ihw
  | close hr => exact completePart_close hr
  | otherwise ht _ hr ih => exact completePart_otherwise ht ih hr
  | elif hb ih => exact completePart_elif hb ih

end Scriptlet.Parser
