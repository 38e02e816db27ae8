import Scriptlet.Proofs.Reaching

/-!
# Reading without faults

What the reader does when it finds no fault. `Passes s s' u` says that it passes the tokens `u`
between two states, and reports nothing. Faults are only ever added (`Growing`), so a run that ends
with the faults it began with reports none on the way, and its parts can be taken one by one : that
is the rule `Quietly.bind`.

Main statements : a run of the reader that reports nothing has a result, and the tokens it passes
are read as that result (`reads_expressions`, `reads_statements`). The fuel is enough for it.
-/

namespace Scriptlet.Parser

/-! ## Passing tokens -/

/-- The reader passes the tokens `u` from `s` to `s'` and reports nothing. -/
structure Passes (s s' : State) (u : List Token) : Prop where
  tokens : s.tokens = u ++ s'.tokens
  upcoming : s'.upcoming = s.upcoming.drop u.length
  errors : s'.errors = s.errors
  pending : s'.pending = s.pending
  stop : s'.previousStop = (u.getLast?.map Token.stop).getD s.previousStop

namespace Passes

variable {s s' s'' : State} {u v : List Token}

theorem refl (s : State) : Passes s s [] := ⟨rfl, rfl, rfl, rfl, rfl⟩

/-- Tokens passed one stretch after another. -/
theorem trans (h : Passes s s' u) (h' : Passes s' s'' v) : Passes s s'' (u ++ v) where
  tokens := by rw [h.tokens, h'.tokens, List.append_assoc]
  upcoming := by rw [h'.upcoming, h.upcoming, List.drop_drop, List.length_append]
  errors := h'.errors.trans h.errors
  pending := h'.pending.trans h.pending
  stop := by
    rw [h'.stop, h.stop, List.getLast?_append]
    cases v.getLast? <;> simp

/-- The number of tokens left tells how many were passed. -/
theorem left (h : Passes s s' u) : s.left = u.length + s'.left := by
  have hlen := congrArg List.length h.tokens
  rw [List.length_append, State.length_tokens, State.length_tokens] at hlen
  omega

theorem left_token {t : Token} (h : Passes s s' [t]) : s.left = 1 + s'.left := h.left

theorem ended (h : Passes s s' u) (hs : s.Ended) : s'.Ended := hs.of_suffix ⟨u, h.tokens.symm⟩

/-- The first token that is passed is the current one. -/
theorem head (h : Passes s s' u) : ∀ t ∈ u.head?, t = s.current := by
  cases u with
  | nil => simp
  | cons t u =>
    obtain ⟨rfl, -⟩ := List.cons.inj h.tokens
    simp

/-- Past the current token stands the next one. -/
theorem kind_eq_nextKind {t : Token} (h : Passes s s' [t]) : s'.kind = s.nextKind := by
  have hup : s.upcoming.map (·.token) = s'.current :: s'.upcoming.map (·.token) :=
    (List.cons.inj h.tokens).2
  obtain ⟨i, rest, hi, hcur, -⟩ := List.map_eq_cons_iff.1 hup
  rw [State.nextKind, hi, State.kind, ← hcur]

/-- Passing a token that the next one follows without a fault. -/
theorem advance (hs : s.upcoming ≠ []) (he : s.advance.errors = s.errors) :
    Passes s s.advance [s.current] := by
  obtain ⟨i, rest, hup⟩ := List.exists_cons_of_ne_nil hs
  have hfaults : State.headFaults rest = [] := by simpa [State.advance, hup] using he
  refine ⟨?_, ?_, he, ?_, ?_⟩
  · simp [State.tokens, State.advance, hup]
  · simp [State.advance, hup]
  · cases rest with
    | nil => simp [State.pending, State.advance, hup]
    | cons j rest =>
      have hj : j.faults = [] := hfaults
      simp [State.pending, State.advance, hup, hj]
  · simp [State.advance, hup]

/-- Past an expression, the last token passed is its last one. -/
theorem stop_of_reads {c : Category} {e : Expr} (h : Passes s s' u) (he : e.Reads c u) :
    s'.previousStop = e.span.stop := by
  obtain ⟨v, t, rfl, hstop⟩ := he.last
  rw [h.stop]
  simpa using hstop

end Passes

/-! ## Growing faults -/

/-- The reader keeps the faults found so far. -/
class Growing {α : Type} (p : Parser α) : Prop where
  prefix_errors : ∀ s, s.errors <+: (p s).2.errors

section

variable {α β : Type}

instance {p : Parser α} {f : α → Parser β} [hp : Growing p] [hf : ∀ a, Growing (f a)] :
    Growing (p >>= f) where
  prefix_errors s := by
    have hs := hp.prefix_errors s
    rcases h : p s with ⟨_ | a, s'⟩
    · simpa [Bind.bind, h] using hs
    · rw [h] at hs
      simpa [Bind.bind, h] using hs.trans ((hf a).prefix_errors s')

instance {p q : Parser α} {c : Prop} [Decidable c] [hp : Growing p] [hq : Growing q] :
    Growing (if c then p else q) := by
  split
  · exact hp
  · exact hq

instance (span : Span) (cause : SyntaxCause) : Growing (failAt span cause : Parser α) :=
  ⟨fun s => List.prefix_append s.errors _⟩

/-- Reported faults are not taken back. -/
instance (priority := low) {p : Parser α} [hp : Tracks p] : Growing p :=
  ⟨fun s => (hp.reaches s).errors_isPrefix⟩

end

/-! ## Quiet runs -/

/-- If the reader reports nothing, it has a result `a` and passes some tokens `u` to a state `s'`,
and these are as `Q` says. -/
def Quietly {α : Type} (p : Parser α) (s : State) (Q : α → List Token → State → Prop) : Prop :=
  (p s).2.errors = s.errors → ∃ a u s', p s = (some a, s') ∧ Passes s s' u ∧ Q a u s'

section

variable {α β : Type} {p : Parser α} {f : α → Parser β} {s : State}
  {Q Q' : α → List Token → State → Prop} {R : β → List Token → State → Prop}

/-- The property may be weakened, for the tokens that were passed. -/
theorem Quietly.mono (h : Quietly p s Q) (hQ : ∀ a u s', Passes s s' u → Q a u s' → Q' a u s') :
    Quietly p s Q' := by
  intro he
  obtain ⟨a, u, s', hps, hpass, hq⟩ := h he
  exact ⟨a, u, s', hps, hpass, hQ a u s' hpass hq⟩

/-- One reader after another. The second runs quietly from where the first one ends. -/
theorem Quietly.bind [hp : Growing p] [hf : ∀ a, Growing (f a)] (h : Quietly p s Q)
    (hr : ∀ a u s', Passes s s' u → Q a u s' →
      Quietly (f a) s' fun b v s'' => R b (u ++ v) s'') : Quietly (p >>= f) s R := by
  intro he
  have hgrows := hp.prefix_errors s
  rcases hps : p s with ⟨_ | a, s'⟩
  · -- without a result nothing else runs, so the first reader was quiet and has a result
    have heq : (p >>= f) s = (none, s') := by simp [Bind.bind, hps]
    rw [heq] at he
    obtain ⟨a, u, s₁, hps', -⟩ := h (by rw [hps]; exact he)
    rw [hps] at hps'
    cases hps'
  · have heq : (p >>= f) s = f a s' := by simp [Bind.bind, hps]
    rw [heq] at he ⊢
    rw [hps] at hgrows
    have hquiet : s'.errors = s.errors := by
      have hle := ((hf a).prefix_errors s').length_le
      rw [he] at hle
      exact (hgrows.eq_of_length_le hle).symm
    obtain ⟨a', u, s₁, hps', hpass, hq⟩ := h (by rw [hps]; exact hquiet)
    rw [hps] at hps'
    cases hps'
    obtain ⟨b, v, s'', hfs, hpass', hr'⟩ := hr a u s' hpass hq (he.trans hquiet.symm)
    exact ⟨b, u ++ v, s'', hfs, hpass.trans hpass', hr'⟩

/-- A reader with a result at once passes nothing. -/
theorem Quietly.pure {a : α} (h : Q a [] s) : Quietly (pure a : Parser α) s Q :=
  fun _ => ⟨a, [], s, rfl, .refl s, h⟩

/-- Looking at the state reads nothing. -/
theorem Quietly.look {f : State → Parser β} (h : Quietly (f s) s R) :
    Quietly (look >>= f) s R := h

/-- A reader that reports a fault is not quiet, so nothing is asked of it. -/
theorem Quietly.fail {cause : SyntaxCause} : Quietly (fail cause) s Q := by
  intro he
  simp [Parser.fail, State.report] at he

theorem Quietly.failAt {span : Span} {cause : SyntaxCause} :
    Quietly (failAt span cause) s Q := by
  intro he
  simp [Parser.failAt, State.report] at he

/-- Passing a token that does not end the text, before a reader. -/
theorem Quietly.advance {p : Parser β} [Growing p] (hs : s.Ended) (hk : s.kind ≠ .eof)
    (h : ∀ s', Passes s s' [s.current] → Quietly p s' fun b v s'' => R b (s.current :: v) s'') :
    Quietly (advance >>= fun _ => p) s R := by
  have hadvance : Quietly Parser.advance s fun _ u _ => u = [s.current] := fun he =>
    ⟨(), _, s.advance, rfl, Passes.advance (hs.upcoming_ne_nil hk) he, rfl⟩
  refine hadvance.bind fun _ u s' hpass hu => ?_
  subst hu
  exact h s' hpass

/-- Passing a token of a wanted kind, before a reader. -/
theorem Quietly.expect {p : Parser β} [Growing p] {wanted : TokenKind} (hs : s.Ended)
    (hw : wanted ≠ .eof) (h : ∀ t s', t.kind = wanted → Passes s s' [t] →
      Quietly p s' fun b v s'' => R b (t :: v) s'') :
    Quietly (expect wanted >>= fun _ => p) s R := by
  have hexpect : Quietly (Parser.expect wanted) s fun _ u _ => ∃ t, u = [t] ∧ t.kind = wanted := by
    refine Quietly.look ?_
    split
    next hk =>
      exact fun he => ⟨(), _, s.advance, rfl,
        Passes.advance (hs.upcoming_ne_nil (hk ▸ hw)) he, s.current, rfl, hk⟩
    next => exact Quietly.fail
  refine hexpect.bind fun _ u s' hpass hu => ?_
  obtain ⟨t, rfl, ht⟩ := hu
  exact h t s' ht hpass

/-- A result with the range from `start` to the last token passed. -/
theorem Quietly.ranged {start : Position} {g : Span → α}
    (h : Q (g ⟨start, s.previousStop⟩) [] s) :
    Quietly (do return g (← spanFrom start)) s Q :=
  Quietly.pure h

end

/-! ## Expressions -/

/-- The place of a level, counted from the tightest one. -/
def Level.rank : Level → Nat
  | or => 5
  | and => 4
  | equality => 3
  | comparison => 2
  | addition => 1
  | multiplication => 0

/-- What a level is in the grammar. -/
def Level.category : Level → Category
  | or => .or
  | and => .and
  | equality => .equality
  | comparison => .comparison
  | addition => .addition
  | multiplication => .multiplication

/-- What the operands of a level are in the grammar. -/
def Level.operands (level : Level) : Category :=
  match level.tighter? with
  | some tighter => tighter.category
  | none => .unary

/-- The rule of a level in the grammar has its operators and its operands. -/
theorem Level.chain_category (level : Level) :
    level.category.chain = some (level.operators, level.operands) := by
  cases level <;> rfl

theorem Level.rank_of_tighter {level tighter : Level} (h : level.tighter? = some tighter) :
    level.rank = tighter.rank + 1 := by
  cases level <;> cases h <;> rfl

theorem Level.rank_of_tightest {level : Level} (h : level.tighter? = none) : level.rank = 0 := by
  cases level <;> first | rfl | cases h

theorem Level.eq_of_rank {l l' : Level} (h : l.rank = l'.rank) : l = l' := by
  cases l <;> cases l' <;> first | rfl | cases h

/-- No operator of a level below the given rank has the kind `k`. -/
def Loose (rank : Nat) (k : TokenKind) : Prop := ∀ l : Level, l.rank < rank → k ∉ l.operators

/-- What is no operator of the tighter levels, and none of this one, is none up to this one. -/
theorem Loose.succ {level : Level} {k : TokenKind} (h : Loose level.rank k)
    (hk : k ∉ level.operators) : Loose (level.rank + 1) k := by
  intro l hl
  rcases Nat.lt_succ_iff_lt_or_eq.1 hl with hlt | heq
  · exact h l hlt
  · exact Level.eq_of_rank heq ▸ hk

theorem ne_eof_of_operator {level : Level} {k : TokenKind} (h : k ∈ level.operators) :
    k ≠ .eof := by
  revert h
  cases level <;> rintro h rfl <;> revert h <;> decide

/-- What a quiet run of each function reads. The fuel that is needed grows with the tokens left, and
between two tokens with the calls that are nested. -/
structure ReadsExpressions (fuel : Nat) : Prop where
  operand : ∀ level s, s.Ended → 20 * s.left + (4 + 2 * level.rank) ≤ fuel →
    Quietly (operand fuel level) s fun e u s' =>
      e.Reads level.operands u ∧ Loose level.rank s'.kind
  binary : ∀ level s, s.Ended → 20 * s.left + (5 + 2 * level.rank) ≤ fuel →
    Quietly (binary fuel level) s fun e u s' =>
      e.Reads level.category u ∧ Loose (level.rank + 1) s'.kind
  chain : ∀ level left s w, s.Ended → 20 * s.left + 1 ≤ fuel → left.Reads level.category w →
    Loose level.rank s.kind → Quietly (chain fuel level left) s fun e u s' =>
      e.Reads level.category (w ++ u) ∧ Loose (level.rank + 1) s'.kind
  unary : ∀ s, s.Ended → 20 * s.left + 3 ≤ fuel →
    Quietly (unary fuel) s fun e u _ => e.Reads .unary u
  power : ∀ s, s.Ended → 20 * s.left + 2 ≤ fuel →
    Quietly (power fuel) s fun e u _ => e.Reads .power u
  primary : ∀ s, s.Ended → 20 * s.left + 1 ≤ fuel →
    Quietly (primary fuel) s fun e u _ => e.Reads .primary u

theorem ne_eof_of_sign {k : TokenKind} (h : k ∈ unaryOperators) : k ≠ .eof := by
  rintro rfl
  revert h
  decide

/-- What a primary expression is read as, given what is read inside parentheses. -/
theorem reads_primary {fuel : Nat} {s : State} (hbinary : ∀ level s, s.Ended →
      20 * s.left + (5 + 2 * level.rank) ≤ fuel → Quietly (binary fuel level) s fun e u s' =>
        e.Reads level.category u ∧ Loose (level.rank + 1) s'.kind)
    (hs : s.Ended) (hfuel : 20 * s.left + 1 ≤ fuel + 1) :
    Quietly (primary (fuel + 1)) s fun e u _ => e.Reads .primary u := by
  rw [Parser.primary]
  refine Quietly.look ?_
  dsimp only
  have hadvance {e : Expr} (hk : s.kind ≠ .eof) (he : e.Reads .primary [s.current]) :
      Quietly (do advance; return e) s fun e u _ => e.Reads .primary u :=
    Quietly.advance hs hk fun s' _ => Quietly.pure he
  split
  next hk =>
    have hne : s.kind ≠ .eof := by simp [State.kind, hk]
    cases hx : numberOfLiteral? s.current.literal with
    | some x => exact hadvance hne (.number hk hx)
    | none => exact Quietly.advance hs hne fun s' _ => Quietly.failAt
  next hk => exact hadvance (by simp [State.kind, hk]) (.string hk)
  next hk => exact hadvance (by simp [State.kind, hk]) (.bool (b := true) hk)
  next hk => exact hadvance (by simp [State.kind, hk]) (.bool (b := false) hk)
  next hk => exact hadvance (by simp [State.kind, hk]) (.ident hk)
  next hk =>
    refine Quietly.advance hs (by simp [State.kind, hk]) fun s₁ h₁ => ?_
    have hs₁ := h₁.ended hs
    have hleft₁ := h₁.left_token
    have hrank : Level.or.rank = 5 := rfl
    refine (hbinary .or s₁ hs₁ (by omega)).bind fun e u s₂ h₂ he => ?_
    refine Quietly.expect (h₂.ended hs₁) (by decide) fun r s₃ hr h₃ => Quietly.ranged ?_
    have hend : s₃.previousStop = r.stop := h₃.stop
    rw [hend]
    exact .group hk he.1 hr
  next => exact Quietly.fail

section

variable {fuel : Nat} (ih : ReadsExpressions fuel) {s : State} (hs : s.Ended)

include ih hs

/-- The operands of a level are expressions of the tighter one, and those of the tightest have
signs. -/
theorem reads_operand {level : Level} (hfuel : 20 * s.left + (4 + 2 * level.rank) ≤ fuel + 1) :
    Quietly (operand (fuel + 1) level) s fun e u s' =>
      e.Reads level.operands u ∧ Loose level.rank s'.kind := by
  rw [Parser.operand, Level.operands]
  cases h : level.tighter? with
  | some tighter =>
    rw [Level.rank_of_tighter h] at hfuel ⊢
    exact ih.binary tighter s hs (by omega)
  | none =>
    refine (ih.unary s hs (by omega)).mono fun e u s' _ he => ⟨he, fun l hl => ?_⟩
    rw [Level.rank_of_tightest h] at hl
    exact absurd hl (Nat.not_lt_zero _)

/-- An expression of a level is an operand, with more of them behind operators. -/
theorem reads_binary {level : Level} (hfuel : 20 * s.left + (5 + 2 * level.rank) ≤ fuel + 1) :
    Quietly (binary (fuel + 1) level) s fun e u s' =>
      e.Reads level.category u ∧ Loose (level.rank + 1) s'.kind := by
  rw [Parser.binary]
  refine (ih.operand level s hs (by omega)).bind fun left u s₁ h₁ hoperand => ?_
  obtain ⟨hleft, hloose⟩ := hoperand
  have := h₁.left
  exact ih.chain level left s₁ u (h₁.ended hs) (by omega)
    (.operand level.chain_category hleft) hloose

/-- The tree read so far leans to the left : it is the left operand of the next operator. -/
theorem reads_chain {level : Level} {left : Expr} {w : List Token}
    (hfuel : 20 * s.left + 1 ≤ fuel + 1) (hleft : left.Reads level.category w)
    (hloose : Loose level.rank s.kind) :
    Quietly (chain (fuel + 1) level left) s fun e u s' =>
      e.Reads level.category (w ++ u) ∧ Loose (level.rank + 1) s'.kind := by
  rw [Parser.chain]
  refine Quietly.look ?_
  split
  next hop =>
    refine Quietly.advance hs (ne_eof_of_operator hop) fun s₁ h₁ => ?_
    have hleft₁ := h₁.left_token
    have hrank : level.rank ≤ 5 := by cases level <;> decide
    refine (ih.operand level s₁ (h₁.ended hs) (by omega)).bind fun right v s₂ h₂ hoperand => ?_
    obtain ⟨hright, hloose₂⟩ := hoperand
    have hleft₂ := h₂.left
    have hw : Expr.Reads level.category _ (w ++ s.current :: v) :=
      .operator level.chain_category hleft hop hright
    refine (ih.chain level _ s₂ _ (h₂.ended (h₁.ended hs)) (by omega) hw hloose₂).mono
      fun e x s₃ _ he => ⟨?_, he.2⟩
    simpa using he.1
  next hop => exact Quietly.pure ⟨by simpa using hleft, hloose.succ hop⟩

/-- A sign and what it stands before, or a power. -/
theorem reads_unary (hfuel : 20 * s.left + 3 ≤ fuel + 1) :
    Quietly (unary (fuel + 1)) s fun e u _ => e.Reads .unary u := by
  rw [Parser.unary]
  refine Quietly.look ?_
  split
  next hop =>
    refine Quietly.advance hs (ne_eof_of_sign hop) fun s₁ h₁ => ?_
    have hleft₁ := h₁.left_token
    refine (ih.unary s₁ (h₁.ended hs) (by omega)).bind fun e v s₂ h₂ he => ?_
    refine Quietly.ranged ?_
    rw [h₂.stop_of_reads he, List.append_nil]
    exact .signed hop he
  next =>
    exact (ih.power s hs (by omega)).mono fun e u s' _ he => .unsigned he

/-- A primary expression, raised or not. The exponent may have a sign. -/
theorem reads_power (hfuel : 20 * s.left + 2 ≤ fuel + 1) :
    Quietly (power (fuel + 1)) s fun e u _ => e.Reads .power u := by
  rw [Parser.power]
  refine (ih.primary s hs (by omega)).bind fun base u s₁ h₁ hbase => Quietly.look ?_
  have hleft₁ := h₁.left
  split
  next hcaret =>
    refine Quietly.advance (h₁.ended hs) (by simp [hcaret]) fun s₂ h₂ => ?_
    have hleft₂ := h₂.left_token
    refine (ih.unary s₂ (h₂.ended (h₁.ended hs)) (by omega)).bind fun e v s₃ h₃ he => ?_
    refine Quietly.pure ?_
    simpa using Expr.Reads.raised hbase hcaret he
  next => exact Quietly.pure (by simpa using Expr.Reads.base hbase)

end

theorem reads_expressions : ∀ fuel, ReadsExpressions fuel
  | 0 => by
    constructor <;> intros
    all_goals omega
  | fuel + 1 =>
    have ih := reads_expressions fuel
    { operand := fun _ _ hs hfuel => reads_operand ih hs hfuel
      binary := fun _ _ hs hfuel => reads_binary ih hs hfuel
      chain := fun _ _ _ _ hs hfuel hleft hloose => reads_chain ih hs hfuel hleft hloose
      unary := fun _ hs hfuel => reads_unary ih hs hfuel
      power := fun _ hs hfuel => reads_power ih hs hfuel
      primary := fun _ hs hfuel => reads_primary ih.binary hs hfuel }

/-! ## Statements -/

/-- What a quiet run of each function reads. -/
structure ReadsStatements (fuel : Nat) : Prop where
  block : ∀ terminators s, s.Ended → 20 * s.left + 17 ≤ fuel →
    Quietly (always (block fuel terminators)) s fun ss u s' =>
      Part.Reads (.block ss) u ∧ s'.endsBlock terminators
  statement : ∀ s, s.Ended → 20 * s.left + 16 ≤ fuel →
    Quietly (statement fuel) s fun stmt u s' =>
      Part.Reads (.statement stmt) u ∧ (stmt.isOpen → s'.kind ∉ Category.bothWays)
  conditional : ∀ s, s.Ended → 20 * s.left + 1 ≤ fuel → s.kind ∈ [TokenKind.ifWord, .elifWord] →
    Quietly (conditional fuel) s fun stmt u s' =>
      Part.Reads (.branch s.kind stmt) u ∧ s'.previousStop = stmt.span.stop
  looping : ∀ s, s.Ended → 20 * s.left + 1 ≤ fuel → s.kind = .whileWord →
    Quietly (looping fuel) s fun stmt u _ => Part.Reads (.statement stmt) u ∧ !stmt.isOpen

theorem Loose.not_mem_bothWays {k : TokenKind} (h : Loose (Level.or.rank + 1) k) :
    k ∉ Category.bothWays := by
  have hsub : ∀ k ∈ Category.bothWays, k ∈ Level.addition.operators := by decide
  exact fun hk => h .addition (by decide) (hsub k hk)

/-- The expression that a statement ends in. -/
theorem reads_last_expression {fuel : Nat} {s : State} (hs : s.Ended)
    (hfuel : 20 * s.left + 15 ≤ fuel) {start : Position} {g : Span → Expr → Stmt} {w : List Token}
    (hopen : ∀ e u, Expr.Reads .or e u → (∀ t ∈ u.head?, t = s.current) →
      Part.Reads (.statement (g ⟨start, e.span.stop⟩ e)) (w ++ u)) :
    Quietly (do let e ← expression fuel; return g (← spanFrom start) e) s fun stmt u s' =>
      Part.Reads (.statement stmt) (w ++ u) ∧ (stmt.isOpen → s'.kind ∉ Category.bothWays) := by
  refine Quietly.bind ((reads_expressions fuel).binary .or s hs hfuel)
    fun e u s' h hread => Quietly.ranged ?_
  obtain ⟨he, hloose⟩ := hread
  rw [h.stop_of_reads he, List.append_nil]
  exact ⟨hopen e _ he h.head, fun _ => hloose.not_mem_bothWays⟩

theorem reads_printing {fuel : Nat} {s : State} (hs : s.Ended) (hfuel : 20 * s.left + 15 ≤ fuel)
    (hk : s.kind ∈ [TokenKind.printWord, .printlnWord]) :
    Quietly (printing fuel) s fun stmt u s' =>
      Part.Reads (.statement stmt) u ∧ (stmt.isOpen → s'.kind ∉ Category.bothWays) := by
  have hne : ∀ k ∈ [TokenKind.printWord, .printlnWord], k ≠ .eof := by decide
  refine Quietly.look (Quietly.advance hs (hne _ hk) fun s₁ h₁ => ?_)
  have hleft₁ := h₁.left_token
  exact reads_last_expression (w := [s.current]) (h₁.ended hs) (by omega)
    fun e u he _ => .print hk he

theorem reads_assignment {fuel : Nat} {s : State} (hs : s.Ended) (hfuel : 20 * s.left + 15 ≤ fuel)
    (hk : s.kind = .identifier) (hnext : s.nextKind = .assign) :
    Quietly (assignment fuel) s fun stmt u s' =>
      Part.Reads (.statement stmt) u ∧ (stmt.isOpen → s'.kind ∉ Category.bothWays) := by
  refine Quietly.look (Quietly.advance hs (by simp [hk]) fun s₁ h₁ => ?_)
  have hassign : s₁.kind = .assign := h₁.kind_eq_nextKind.trans hnext
  refine Quietly.advance (h₁.ended hs) (by simp [hassign]) fun s₂ h₂ => ?_
  have hleft₁ := h₁.left
  have hleft₂ := h₂.left
  exact reads_last_expression (w := [s.current, s₁.current]) (h₂.ended (h₁.ended hs)) (by omega)
    fun e u he _ => .assign hk hassign he

theorem reads_expressionStatement {fuel : Nat} {s : State} (hs : s.Ended)
    (hfuel : 20 * s.left + 15 ≤ fuel) : Quietly (expressionStatement fuel) s fun stmt u s' =>
      Part.Reads (.statement stmt) u ∧ (stmt.isOpen → s'.kind ∉ Category.bothWays) := by
  refine Quietly.look (reads_last_expression (w := []) hs hfuel fun e u he hhead => ?_)
  obtain ⟨t, v, rfl, hstart, -⟩ := he.first
  obtain rfl : t = s.current := hhead t rfl
  rw [hstart]
  exact .expr he

/-- What a block is read as, given what its statements are read as. -/
theorem reads_block {fuel : Nat} (ih : ReadsStatements fuel) (terminators : List TokenKind)
    {s : State} (hs : s.Ended) (hfuel : 20 * s.left + 17 ≤ fuel + 1) :
    Quietly (always (block (fuel + 1) terminators)) s fun ss u s' =>
      Part.Reads (.block ss) u ∧ s'.endsBlock terminators := by
  intro he
  cases hend : s.endsBlock terminators with
  | true => exact ⟨[], [], s, by simp [always, block, hend], .refl s, .done, hend⟩
  | false =>
    change (block (fuel + 1) terminators s).2.errors = s.errors at he
    -- the first statement adds no fault, since the block keeps those it adds
    have hquiet : (statement fuel s).2.errors = s.errors := by
      have hgoes : Reaches (statement fuel s).2 (block (fuel + 1) terminators s).2 :=
        reaches_block inferInstance hend
      have hle := hgoes.errors_isPrefix.length_le
      rw [he] at hle
      exact ((Growing.prefix_errors s).eq_of_length_le hle).symm
    obtain ⟨stmt, u, s₁, hrun, h₁, hstmt, hnext⟩ := ih.statement s hs (by omega) hquiet
    have hblock : block (fuel + 1) terminators s =
        (stmt :: (block fuel terminators s₁).1, (block fuel terminators s₁).2) := by
      simp [block, hend, hrun, h₁.errors]
    rw [hblock, ← h₁.errors] at he
    obtain ⟨t, x, rfl, -⟩ := hstmt.first_of_statement
    have hleft₁ := h₁.left
    rw [List.length_cons] at hleft₁
    obtain ⟨ss, v, s₂, hrun₂, h₂, hss, hend₂⟩ := ih.block terminators s₁ (h₁.ended hs) (by omega) he
    obtain ⟨hresult, rfl⟩ := Prod.mk.inj hrun₂
    obtain rfl := Option.some.inj hresult
    refine ⟨_, t :: x ++ v, _, by rw [always, hblock]; rfl, h₁.trans h₂, .more hstmt ?_ hss, hend₂⟩
    · intro hopen t' ht'
      rw [h₂.head t' ht']
      exact hnext hopen

/-- What a conditional and a loop begin with : a word, a test, another word and a block. -/
theorem reads_guarded {fuel : Nat} (ih : ReadsStatements fuel) {s : State} (hs : s.Ended)
    (hk : s.kind ≠ .eof) (hfuel : 20 * s.left + 1 ≤ fuel + 1) {word : TokenKind}
    (hword : word ≠ .eof) {terminators : List TokenKind} {f : Expr → List Stmt → Parser Stmt}
    [∀ e ss, Growing (f e ss)] {R : Stmt → List Token → State → Prop}
    (hf : ∀ e u (d : Token) ss v s', e.Reads .or u → d.kind = word → Part.Reads (.block ss) v →
      s'.Ended → s'.left < s.left →
      Quietly (f e ss) s' fun stmt w s'' => R stmt (s.current :: u ++ d :: v ++ w) s'') :
    Quietly (do
      advance
      let test ← expression fuel
      expect word
      let body ← always (block fuel terminators)
      f test body) s R := by
  refine Quietly.advance hs hk fun s₁ h₁ => ?_
  have hs₁ := h₁.ended hs
  have hleft₁ := h₁.left_token
  refine ((reads_expressions fuel).binary .or s₁ hs₁ (by rw [Level.rank]; omega)).bind
    fun e u s₂ h₂ he => ?_
  have hs₂ := h₂.ended hs₁
  have hleft₂ := h₂.left
  refine Quietly.expect hs₂ hword fun d s₃ hd h₃ => ?_
  have hs₃ := h₃.ended hs₂
  have hleft₃ := h₃.left
  refine (ih.block _ s₃ hs₃ (by omega)).bind fun ss v s₄ h₄ hss => ?_
  have hleft₄ := h₄.left
  refine (hf e u d ss v s₄ he.1 hd hss.1 (h₄.ended hs₃) (by omega)).mono fun stmt w s₅ _ hR => ?_
  simpa using hR

/-- What the rest of a conditional is read as. -/
theorem reads_otherBranch {fuel : Nat} (ih : ReadsStatements fuel) {s : State} (hs : s.Ended)
    (hfuel : 20 * s.left + 1 ≤ fuel) {start : Position} {test : Expr} {yes : List Stmt} :
    Quietly (otherBranch fuel start test yes) s fun stmt u s' =>
      ∃ no, stmt = .cond ⟨start, s'.previousStop⟩ test yes no ∧
        Part.Reads (.rest no s'.previousStop) u := by
  refine Quietly.look ?_
  split
  next hk =>
    refine (ih.conditional s hs hfuel (by simp [hk])).bind
      fun nested u s₁ _ hread => Quietly.ranged ⟨_, rfl, ?_⟩
    obtain ⟨hnested, hstop⟩ := hread
    rw [hk] at hnested
    rw [hstop, List.append_nil]
    exact .elif hnested
  next hk =>
    refine Quietly.advance hs (by simp [hk]) fun s₁ h₁ => ?_
    have hleft₁ := h₁.left_token
    refine (ih.block _ s₁ (h₁.ended hs) (by omega)).bind fun no u s₂ h₂ hno => ?_
    refine Quietly.expect (h₂.ended (h₁.ended hs)) (by decide) fun r s₃ hr h₃ =>
      Quietly.ranged ⟨_, rfl, ?_⟩
    have hstop : s₃.previousStop = r.stop := h₃.stop
    rw [hstop]
    exact .otherwise hk hno.1 hr
  next =>
    refine Quietly.expect hs (by decide) fun r s₁ hr h₁ => Quietly.ranged ⟨_, rfl, ?_⟩
    have hstop : s₁.previousStop = r.stop := h₁.stop
    rw [hstop]
    exact .close hr

section

variable {fuel : Nat} (ih : ReadsStatements fuel) {s : State} (hs : s.Ended)

include ih hs

/-- A statement by its first word, and by the next token where an expression may start. -/
theorem reads_statement (hfuel : 20 * s.left + 16 ≤ fuel + 1) :
    Quietly (statement (fuel + 1)) s fun stmt u s' =>
      Part.Reads (.statement stmt) u ∧ (stmt.isOpen → s'.kind ∉ Category.bothWays) := by
  rw [Parser.statement]
  refine Quietly.look ?_
  split
  next hk => exact reads_printing hs (by omega) (by simp [hk])
  next hk => exact reads_printing hs (by omega) (by simp [hk])
  next hk =>
    refine (ih.conditional s hs (by omega) (by simp [hk])).mono fun stmt u s' _ hread => ?_
    obtain ⟨hb, -⟩ := hread
    rw [hk] at hb
    refine ⟨.cond hb, fun hopen => ?_⟩
    cases hb
    cases hopen
  next hk =>
    refine (ih.looping s hs (by omega) hk).mono fun stmt u s' _ hread => ⟨hread.1, fun h => ?_⟩
    have hopen := hread.2
    rw [h] at hopen
    cases hopen
  next hk =>
    split
    next hnext => exact reads_assignment hs (by omega) hk hnext
    next => exact reads_expressionStatement hs (by omega)
  all_goals first | exact Quietly.fail | exact reads_expressionStatement hs (by omega)

theorem reads_conditional (hfuel : 20 * s.left + 1 ≤ fuel + 1)
    (hk : s.kind ∈ [TokenKind.ifWord, .elifWord]) :
    Quietly (conditional (fuel + 1)) s fun stmt u s' =>
      Part.Reads (.branch s.kind stmt) u ∧ s'.previousStop = stmt.span.stop := by
  rw [conditional_succ]
  have hne : ∀ k ∈ [TokenKind.ifWord, .elifWord], k ≠ .eof := by decide
  refine Quietly.look (reads_guarded ih hs (hne _ hk) hfuel (by decide)
    fun e u d yes v s₁ he hd hyes hs₁ hleft => ?_)
  refine (reads_otherBranch ih hs₁ (by omega)).mono fun stmt w s₂ _ hread => ?_
  obtain ⟨no, rfl, hno⟩ := hread
  exact ⟨.branch hk rfl he hd hyes hno, rfl⟩

theorem reads_looping (hfuel : 20 * s.left + 1 ≤ fuel + 1) (hk : s.kind = .whileWord) :
    Quietly (looping (fuel + 1)) s fun stmt u _ =>
      Part.Reads (.statement stmt) u ∧ !stmt.isOpen := by
  rw [Parser.looping]
  refine Quietly.look (reads_guarded ih hs (by simp [hk]) hfuel (by decide)
    fun e u d body v s₁ he hd hbody hs₁ _ => ?_)
  refine Quietly.expect hs₁ (by decide) fun r s₂ hr h₂ => Quietly.ranged ?_
  have hstop : s₂.previousStop = r.stop := h₂.stop
  rw [hstop]
  exact ⟨.loop hk he hd hbody hr, rfl⟩

end

theorem reads_statements : ∀ fuel, ReadsStatements fuel
  | 0 => by
    constructor <;> intros
    all_goals omega
  | fuel + 1 =>
    have ih := reads_statements fuel
    { block := fun terminators _ hs hfuel => reads_block ih terminators hs hfuel
      statement := fun _ hs hfuel => reads_statement ih hs hfuel
      conditional := fun _ hs hfuel hk => reads_conditional ih hs hfuel hk
      looping := fun _ hs hfuel hk => reads_looping ih hs hfuel hk }

end Scriptlet.Parser
