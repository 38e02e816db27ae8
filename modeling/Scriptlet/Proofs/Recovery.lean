import Scriptlet.Proofs.Language

/-!
# Reading on after faults

Reading always comes to the end of the text. Between two tokens a bounded number of calls is nested,
and a block passes at least one token with each of its statements, the faulty ones included
(`block_step`), so more fuel than `fuelFor` makes no difference. Since the reader only does what
`Reaches` says, every error token of the text is reported exactly once, wherever reading goes on.

Main statement : `recovery_loses_nothing`.
-/

namespace Scriptlet

namespace Parser

/-! ## Agreement -/

/-- Two readers do the same at `s`. -/
def Agree {α : Type} (p q : Parser α) (s : State) : Prop := p s = q s

section

variable {α β : Type} {p q : Parser α} {s : State}

theorem Agree.refl (p : Parser α) (s : State) : Agree p p s := rfl

/-- Two readers that start in the same way and go on in the same way. -/
theorem Agree.bind {f g : α → Parser β} [hp : Tracks p] (h : Agree p q s)
    (hrest : ∀ a s', Reaches s s' → Agree (f a) (g a) s') : Agree (p >>= f) (q >>= g) s := by
  have hreach := hp.reaches s
  rcases hrun : p s with ⟨_ | a, s'⟩
  · have hrun' : q s = (none, s') := h.symm.trans hrun
    exact (bind_none hrun).trans (bind_none hrun').symm
  · have hrun' : q s = (some a, s') := h.symm.trans hrun
    rw [hrun] at hreach
    rw [Agree, bind_some hrun, bind_some hrun']
    exact hrest a s' hreach

/-- Readers that look at the state do the same if they do so with what they see. -/
theorem Agree.look {f g : State → Parser β} (h : Agree (f s) (g s) s) :
    Agree (look >>= f) (look >>= g) s := h

theorem Agree.pass {p q : Parser β} (h : Agree p q s.advance) :
    Agree (advance >>= fun _ => p) (advance >>= fun _ => q) s := h

/-- Readers that pass the same wanted token and go on in the same way. -/
theorem Agree.expect {wanted : TokenKind} {p q : Parser β}
    (h : ∀ s', Reaches s s' → Agree p q s') :
    Agree (expect wanted >>= fun _ => p) (expect wanted >>= fun _ => q) s :=
  .bind (.refl _ s) fun _ => h

theorem Agree.ite {p' q' : Parser α} {c : Prop} [Decidable c] (h : c → Agree p q s)
    (h' : ¬c → Agree p' q' s) : Agree (if c then p else p') (if c then q else q') s := by
  by_cases hc : c
  · rw [if_pos hc, if_pos hc]
    exact h hc
  · rw [if_neg hc, if_neg hc]
    exact h' hc

theorem Agree.always {f g : State → α × State} (h : f s = g s) :
    Agree (always f) (always g) s :=
  congrArg (Prod.map some id) h

end

theorem reaches_advance (s : State) : Reaches s s.advance := .advance .refl

/-! ## Expressions -/

/-- Beyond the fuel that is needed, the functions that read expressions do the same with any. The
fuel that is needed grows with the tokens left. -/
structure SettlesExpressions (n m : Nat) : Prop where
  operand : ∀ level s, s.Ended → 20 * s.left + (4 + 2 * level.rank) ≤ n →
    Agree (operand n level) (operand m level) s
  binary : ∀ level s, s.Ended → 20 * s.left + (5 + 2 * level.rank) ≤ n →
    Agree (binary n level) (binary m level) s
  chain : ∀ level left s, s.Ended → 20 * s.left + 1 ≤ n →
    Agree (chain n level left) (chain m level left) s
  unary : ∀ s, s.Ended → 20 * s.left + 3 ≤ n → Agree (unary n) (unary m) s
  power : ∀ s, s.Ended → 20 * s.left + 2 ≤ n → Agree (power n) (power m) s
  primary : ∀ s, s.Ended → 20 * s.left + 1 ≤ n → Agree (primary n) (primary m) s

theorem settles_primary {n m : Nat} (ih : SettlesExpressions n m) {s : State} (hs : s.Ended)
    (hfuel : 20 * s.left + 1 ≤ n + 1) : Agree (primary (n + 1)) (primary (m + 1)) s := by
  rw [Parser.primary, Parser.primary]
  refine Agree.look ?_
  dsimp only
  cases hk : s.current.kind
  case leftParen =>
    have hless := hs.left_advance (by rw [State.kind, hk]; decide)
    have hrank : Level.or.rank = 5 := rfl
    have hinner := ih.binary .or s.advance ((reaches_advance s).ended hs) (by omega)
    exact Agree.pass (hinner.bind fun _ s' _ => Agree.refl _ s')
  all_goals exact Agree.refl _ s

/-- With enough fuel, more of it makes no difference to expressions. Where a token was passed, the
fuel that is left is enough again. -/
theorem settles_expressions : ∀ n m, n ≤ m → SettlesExpressions n m
  | 0, m, _ => by
    constructor <;> intros
    all_goals omega
  | n + 1, 0, h => absurd h (Nat.not_succ_le_zero n)
  | n + 1, m + 1, h => by
    have ih := settles_expressions n m (Nat.le_of_succ_le_succ h)
    constructor
    case primary => exact fun s hs hfuel => settles_primary ih hs hfuel
    case operand =>
      intro level s hs hfuel
      rw [Parser.operand, Parser.operand]
      cases h : level.tighter? with
      | some tighter =>
        rw [Level.rank_of_tighter h] at hfuel
        exact ih.binary tighter s hs (by omega)
      | none => exact ih.unary s hs (by omega)
    case binary =>
      intro level s hs hfuel
      rw [Parser.binary, Parser.binary]
      refine (ih.operand level s hs (by omega)).bind fun left s₁ h₁ => ?_
      have hle := h₁.left_le
      exact ih.chain level left s₁ (h₁.ended hs) (by omega)
    case chain =>
      intro level left s hs hfuel
      rw [Parser.chain, Parser.chain]
      refine Agree.look (Agree.ite (fun hop => Agree.pass ?_) fun _ => Agree.refl _ s)
      have hless := hs.left_advance (ne_eof_of_operator hop)
      have hs₁ := (reaches_advance s).ended hs
      have hrank : level.rank ≤ 5 := by cases level <;> decide
      refine (ih.operand level s.advance hs₁ (by omega)).bind fun right s₂ h₂ => ?_
      have hle := h₂.left_le
      exact ih.chain level _ s₂ (h₂.ended hs₁) (by omega)
    case unary =>
      intro s hs hfuel
      rw [Parser.unary, Parser.unary]
      refine Agree.look (Agree.ite (fun hop => Agree.pass ?_) fun _ => ih.power s hs (by omega))
      have hless := hs.left_advance (ne_eof_of_sign hop)
      exact (ih.unary s.advance ((reaches_advance s).ended hs) (by omega)).bind
        fun _ s₂ _ => Agree.refl _ s₂
    case power =>
      intro s hs hfuel
      rw [Parser.power, Parser.power]
      refine (ih.primary s hs (by omega)).bind fun base s₁ h₁ => Agree.look ?_
      refine Agree.ite (fun hcaret => Agree.pass ?_) fun _ => Agree.refl _ s₁
      have hs₁ := h₁.ended hs
      have hle := h₁.left_le
      have hless := hs₁.left_advance (by simp [hcaret])
      exact (ih.unary s₁.advance ((reaches_advance s₁).ended hs₁) (by omega)).bind
        fun _ s₃ _ => Agree.refl _ s₃

/-! ## Statements -/

/-- Passing the rest of a faulty statement passes a token of it at least. -/
theorem left_synchronize {s s' : State} (h : Reaches s s') (hs : s.Ended) (hk : s.kind ≠ .eof)
    (terminators : List TokenKind) :
    (synchronize s.current.start.offset terminators s').left < s.left := by
  rw [synchronize]
  refine Nat.lt_of_le_of_lt (reaches_skipTokens terminators _ _).left_le ?_
  split
  next hsame => exact Nat.lt_of_lt_of_le ((h.ended hs).left_advance hsame.2) h.left_le
  next hother =>
    refine h.left_lt fun heq => hother ⟨by rw [heq], ?_⟩
    rwa [State.kind, heq]

/-- A statement without a fault is read from the tokens that are passed, at least one. -/
theorem reads_of_kept {fuel : Nat} {s s' : State} {stmt : Stmt} (hs : s.Ended)
    (hfuel : 20 * s.left + 16 ≤ fuel) (hrun : statement fuel s = (some stmt, s'))
    (hquiet : s'.errors.length ≤ s.errors.length) :
    s'.left < s.left ∧ ∃ u, Passes s s' u ∧ Part.Reads (.statement stmt) u := by
  have hgrows := (Tracks.reaches (p := statement fuel) s).errors_isPrefix
  rw [hrun] at hgrows
  obtain ⟨stmt', u, s'', hrun', hpass, hreads, -⟩ := (reads_statements fuel).statement s hs hfuel
    (by rw [hrun]; exact (hgrows.eq_of_length_le hquiet).symm)
  rw [hrun] at hrun'
  cases hrun'
  refine ⟨?_, u, hpass, hreads⟩
  obtain ⟨t, x, rfl, -⟩ := hreads.first_of_statement
  have hleft := hpass.left
  rw [List.length_cons] at hleft
  omega

/-- What a block keeps of the tokens from one state to another : nothing, or the statement that they
are read as. -/
def Keeps (s s' : State) (ss : List Stmt) : Prop :=
  ss = [] ∨ ∃ stmt u, ss = [stmt] ∧ Passes s s' u ∧ Part.Reads (.statement stmt) u

/-- A block goes on behind its first statement, which is kept or left out. The statement is the same
with any fuel that makes no difference to it. -/
theorem block_step {fuel : Nat} {terminators : List TokenKind} {s : State} (hs : s.Ended)
    (hend : s.endsBlock terminators = false) (hfuel : 20 * s.left + 17 ≤ fuel + 1) :
    ∃ ss s', Reaches s s' ∧ s'.left < s.left ∧ Keeps s s' ss ∧
      ∀ more, Agree (statement fuel) (statement more) s → block (more + 1) terminators s =
        (ss ++ (block more terminators s').1, (block more terminators s').2) := by
  have hk : s.kind ≠ .eof := fun hk => by simp [State.endsBlock, hk] at hend
  have hreach := Tracks.reaches (p := statement fuel) s
  have hopen : ¬s.endsBlock terminators = true := by simp [hend]
  -- a statement with a fault is left out
  have hfaulty {s'} (h : Reaches s s') :
      Reaches s (synchronize s.current.start.offset terminators s') ∧
        (synchronize s.current.start.offset terminators s').left < s.left :=
    ⟨h.trans (reaches_synchronize _ _ _), left_synchronize h hs hk terminators⟩
  rcases hrun : statement fuel s with ⟨_ | stmt, s'⟩
  · rw [hrun] at hreach
    obtain ⟨hsync, hless⟩ := hfaulty hreach
    refine ⟨[], _, hsync, hless, .inl rfl, fun more h => ?_⟩
    have hsame : statement more s = (none, s') := h.symm.trans hrun
    rw [block, if_neg hopen, hsame]
    rfl
  rw [hrun] at hreach
  by_cases hquiet : s'.errors.length ≤ s.errors.length
  · obtain ⟨hless, u, hpass, hreads⟩ := reads_of_kept hs (by omega) hrun hquiet
    refine ⟨[stmt], s', hreach, hless, .inr ⟨stmt, u, rfl, hpass, hreads⟩, fun more h => ?_⟩
    have hsame : statement more s = (some stmt, s') := h.symm.trans hrun
    rw [block, if_neg hopen, hsame]
    exact if_pos hquiet
  · obtain ⟨hsync, hless⟩ := hfaulty hreach
    refine ⟨[], _, hsync, hless, .inl rfl, fun more h => ?_⟩
    have hsame : statement more s = (some stmt, s') := h.symm.trans hrun
    rw [block, if_neg hopen, hsame]
    exact if_neg hquiet

/-- Beyond the fuel that is needed, the functions that read statements do the same with any. -/
structure SettlesStatements (n m : Nat) : Prop where
  block : ∀ terminators s, s.Ended → 20 * s.left + 17 ≤ n →
    block n terminators s = block m terminators s
  statement : ∀ s, s.Ended → 20 * s.left + 16 ≤ n → Agree (statement n) (statement m) s
  conditional : ∀ s, s.Ended → 20 * s.left + 1 ≤ n → s.kind ≠ .eof →
    Agree (conditional n) (conditional m) s
  looping : ∀ s, s.Ended → 20 * s.left + 1 ≤ n → s.kind ≠ .eof → Agree (looping n) (looping m) s

theorem settles_expression {n m : Nat} (h : n ≤ m) {s : State} (hs : s.Ended)
    (hfuel : 20 * s.left + 15 ≤ n) : Agree (expression n) (expression m) s :=
  (settles_expressions n m h).binary .or s hs hfuel

/-- What a conditional and a loop begin with. -/
theorem settles_guarded {n m : Nat} (h : n ≤ m) (ih : SettlesStatements n m) {s : State}
    (hs : s.Ended) (hk : s.kind ≠ .eof) (hfuel : 20 * s.left + 1 ≤ n + 1) {word : TokenKind}
    {terminators : List TokenKind} {f g : Expr → List Stmt → Parser Stmt}
    (hrest : ∀ e ss s', s'.Ended → s'.left < s.left → Agree (f e ss) (g e ss) s') :
    Agree (do
      advance
      let test ← expression n
      expect word
      let body ← always (block n terminators)
      f test body) (do
      advance
      let test ← expression m
      expect word
      let body ← always (block m terminators)
      g test body) s := by
  have hs₁ := (reaches_advance s).ended hs
  have hless := hs.left_advance hk
  refine Agree.pass ((settles_expression h hs₁ (by omega)).bind fun e s₂ h₂ => ?_)
  have hs₂ := h₂.ended hs₁
  have hle₂ := h₂.left_le
  refine Agree.expect fun s₃ h₃ => ?_
  have hs₃ := h₃.ended hs₂
  have hle₃ := h₃.left_le
  refine (Agree.always (ih.block terminators s₃ hs₃ (by omega))).bind fun ss s₄ h₄ => ?_
  have hle₄ := h₄.left_le
  exact hrest e ss s₄ (h₄.ended hs₃) (by omega)

/-- The rest of a conditional, from statements with less fuel. -/
theorem settles_otherBranch {n m : Nat} (ih : SettlesStatements n m) {s : State} (hs : s.Ended)
    (hfuel : 20 * s.left + 1 ≤ n) (start : Position) (test : Expr) (yes : List Stmt) :
    Agree (otherBranch n start test yes) (otherBranch m start test yes) s := by
  rw [otherBranch, otherBranch]
  refine Agree.look ?_
  cases hk : s.kind
  case elifWord =>
    exact (ih.conditional s hs hfuel (by rw [hk]; decide)).bind fun _ s₁ _ => Agree.refl _ s₁
  case elseWord =>
    have hless := hs.left_advance (by rw [hk]; decide)
    have hno := ih.block [.endWord] s.advance ((reaches_advance s).ended hs) (by omega)
    exact Agree.pass ((Agree.always hno).bind fun _ s₂ _ => Agree.refl _ s₂)
  all_goals exact Agree.refl _ s

theorem settles_expressionStatement {n m : Nat} (h : n ≤ m) {s : State} (hs : s.Ended)
    (hfuel : 20 * s.left + 15 ≤ n) :
    Agree (expressionStatement n) (expressionStatement m) s :=
  Agree.look ((settles_expression h hs hfuel).bind fun _ s₁ _ => Agree.refl _ s₁)

theorem settles_printing {n m : Nat} (h : n ≤ m) {s : State} (hs : s.Ended)
    (hfuel : 20 * s.left + 15 ≤ n) : Agree (printing n) (printing m) s := by
  have hle := (reaches_advance s).left_le
  exact Agree.look (Agree.pass ((settles_expression h ((reaches_advance s).ended hs)
    (by omega)).bind fun _ s₁ _ => Agree.refl _ s₁))

theorem settles_assignment {n m : Nat} (h : n ≤ m) {s : State} (hs : s.Ended)
    (hfuel : 20 * s.left + 15 ≤ n) : Agree (assignment n) (assignment m) s := by
  have hreach := (reaches_advance s).trans (reaches_advance s.advance)
  have hle := hreach.left_le
  exact Agree.look (Agree.pass (Agree.pass ((settles_expression h (hreach.ended hs)
    (by omega)).bind fun _ s₁ _ => Agree.refl _ s₁)))

/-- With enough fuel, more of it makes no difference to statements. -/
theorem settles_statements : ∀ n m, n ≤ m → SettlesStatements n m
  | 0, m, _ => by
    constructor <;> intros
    all_goals omega
  | n + 1, 0, h => absurd h (Nat.not_succ_le_zero n)
  | n + 1, m + 1, h => by
    have hnm := Nat.le_of_succ_le_succ h
    have ih := settles_statements n m hnm
    constructor
    case block =>
      intro terminators s hs hfuel
      cases hend : s.endsBlock terminators with
      | true => rw [Parser.block, Parser.block, if_pos hend, if_pos hend]
      | false =>
        obtain ⟨ss, s', hreach, hless, -, hstep⟩ := block_step hs hend hfuel
        rw [hstep n (Agree.refl _ s), hstep m (ih.statement s hs (by omega)),
          ih.block terminators s' (hreach.ended hs) (by omega)]
    case statement =>
      intro s hs hfuel
      rw [Parser.statement, Parser.statement]
      refine Agree.look ?_
      cases hk : s.kind
      case printWord | printlnWord => exact settles_printing hnm hs (by omega)
      case ifWord => exact ih.conditional s hs (by omega) (by rw [hk]; decide)
      case whileWord => exact ih.looping s hs (by omega) (by rw [hk]; decide)
      case identifier =>
        exact Agree.ite (fun _ => settles_assignment hnm hs (by omega))
          fun _ => settles_expressionStatement hnm hs (by omega)
      all_goals first
        | exact Agree.refl _ s
        | exact settles_expressionStatement hnm hs (by omega)
    case conditional =>
      intro s hs hfuel hk
      rw [conditional_succ, conditional_succ]
      exact Agree.look (settles_guarded hnm ih hs hk hfuel fun e ss s' hs' hless =>
        settles_otherBranch ih hs' (by omega) _ e ss)
    case looping =>
      intro s hs hfuel hk
      rw [Parser.looping, Parser.looping]
      exact Agree.look (settles_guarded hnm ih hs hk hfuel fun e ss s' _ _ => Agree.refl _ s')

/-- A block is read up to where it ends. -/
theorem ends_block (terminators : List TokenKind) : ∀ (fuel : Nat) (s : State), s.Ended →
    20 * s.left + 17 ≤ fuel → (block fuel terminators s).2.endsBlock terminators
  | 0, _, _, hfuel => absurd hfuel (by omega)
  | fuel + 1, s, hs, hfuel => by
    cases hend : s.endsBlock terminators with
    | true =>
      rw [block, if_pos hend]
      exact hend
    | false =>
      obtain ⟨ss, s', hreach, hless, -, hstep⟩ := block_step hs hend hfuel
      rw [hstep fuel (Agree.refl _ s)]
      exact ends_block terminators fuel s' (hreach.ended hs) (by omega)

/-! ## Scripts -/

section

variable {body : List Token} {stop : Token} (hstop : stop.kind = .eof)
  (hbody : ∀ t ∈ body, t.kind ≠ .eof)

include hstop hbody

theorem ended_ofTokens : (State.ofTokens (body ++ [stop])).Ended :=
  ⟨_, stop, (ofTokens_spec body hstop).1, hstop, fun t ht => hbody t (List.mem_filter.1 ht).1⟩

omit hbody in
/-- The fuel that the reader is given is enough for the tokens of any text. -/
theorem fuel_ofTokens :
    20 * (State.ofTokens (body ++ [stop])).left + 17 ≤ fuelFor (body ++ [stop]).length := by
  have hleft := left_ofTokens body hstop
  rw [fuelFor, List.length_append, List.length_singleton]
  omega

theorem block_of_fuelFor_le {fuel : Nat} (h : fuelFor (body ++ [stop]).length ≤ fuel) :
    block fuel [] (.ofTokens (body ++ [stop])) =
      block (fuelFor (body ++ [stop]).length) [] (.ofTokens (body ++ [stop])) :=
  ((settles_statements _ fuel h).block [] _ (ended_ofTokens hstop hbody)
    (fuel_ofTokens hstop)).symm

omit hstop hbody in
/-- Reading a script is a way of the reader from its first state. -/
theorem reaches_script : Reaches (.ofTokens (body ++ [stop])) (script (body ++ [stop])).2 :=
  Tracks.reaches (p := always (block (fuelFor (body ++ [stop]).length) [])) _

/-- A script is read up to the end of the text. -/
theorem kind_script : (script (body ++ [stop])).2.kind = .eof := by
  have hend := ends_block [] _ _ (ended_ofTokens hstop hbody) (fuel_ofTokens hstop)
  rw [script]
  simpa [State.endsBlock] using hend

/-- The lexical faults that are reported are those of the error tokens. -/
theorem lexical_script : (script (body ++ [stop])).2.errors.filter (·.cause.isLexical) =
    (body.filter fun t => t.kind = .error).map .ofToken := by
  have hreach := @reaches_script body stop
  have hlast := (hreach.ended (ended_ofTokens hstop hbody)).tokens_of_eof (kind_script hstop hbody)
  have hup : (script (body ++ [stop])).2.upcoming = [] := by simpa [State.tokens] using hlast
  have hfaults := hreach.lexical_faults
  have hpending : (script (body ++ [stop])).2.pending = [] := by rw [State.pending, hup]; rfl
  rw [hpending, List.append_nil, (ofTokens_spec body hstop).2] at hfaults
  rw [hfaults, List.filter_eq_self]
  intro e he
  obtain ⟨t, -, rfl⟩ := List.mem_map.1 he
  rfl

omit hbody in
/-- Every other fault is about a token of another kind, and is reported there. -/
theorem isAbout_of_mem_script {e : SyntaxError} (he : e ∈ (script (body ++ [stop])).2.errors)
    (hcause : e.cause.isLexical = false) :
    ∃ t ∈ body ++ [stop], t.kind ≠ .error ∧ e.span = t.span ∧ e.cause.IsAbout t := by
  have hreach := @reaches_script body stop
  obtain ⟨hview, hfaults⟩ := ofTokens_spec body hstop
  rcases hreach.mem_faults e (List.mem_append_left _ he) with hold | ⟨t, ht, hreported⟩
  · rw [hfaults] at hold
    obtain ⟨t, -, rfl⟩ := List.mem_map.1 hold
    cases hcause
  · rw [hview] at ht
    have hne : stop.kind ≠ .error := by rw [hstop]; decide
    refine ⟨t, (List.filter_sublist.append_right [stop]).subset ht, ?_, hreported⟩
    rcases List.mem_append.1 ht with ht | ht
    · simpa using (List.mem_filter.1 ht).2
    · rwa [List.mem_singleton.1 ht]

omit hbody in
theorem span_of_mem_script {e : SyntaxError} (he : e ∈ (script (body ++ [stop])).2.errors)
    (hcause : e.cause.isLexical = false) :
    ∃ t ∈ body ++ [stop], t.kind ≠ .error ∧ e.span = t.span := by
  obtain ⟨t, ht, hkind, hspan, -⟩ := isAbout_of_mem_script hstop he hcause
  exact ⟨t, ht, hkind, hspan⟩

end

end Parser

/-! ## Faults in order -/

/-- Sorting by a number puts what has a smaller one before. -/
theorem pairwise_mergeSort_key {α : Type} (key : α → Nat) (as : List α) :
    (as.mergeSort fun a b => key a ≤ key b).Pairwise fun a b => key a ≤ key b := by
  have hsorted := @List.pairwise_mergeSort α (fun a b => decide (key a ≤ key b))
    (fun a b c hab hbc => by simp only [decide_eq_true_eq] at *; omega)
    (fun a b => by simp only [Bool.or_eq_true, decide_eq_true_eq]; omega) as
  exact hsorted.imp of_decide_eq_true

namespace SyntaxError

/-- Sorting keeps each fault. -/
theorem perm_sorted (errors : List SyntaxError) : (sorted errors).Perm errors :=
  List.mergeSort_perm _ _

theorem pairwise_sorted (errors : List SyntaxError) :
    (sorted errors).Pairwise fun a b => a.span.start.offset ≤ b.span.start.offset :=
  pairwise_mergeSort_key (fun e => e.span.start.offset) errors

end SyntaxError

/-! ## Faults at tokens -/

/-- Each token starts behind the ones before it. -/
theorem Ordered.starts {body : List Token} {stop : Token} (h : Ordered (body ++ [stop]))
    (hbody : ∀ t ∈ body, t.kind ≠ .eof) :
    (body ++ [stop]).Pairwise fun a b => a.start.offset < b.start.offset := by
  obtain ⟨hinner, -, hlast⟩ := List.pairwise_append.1 h.pairwise
  have hless {a b : Token} (ha : a ∈ body) (hab : a.stop.offset ≤ b.start.offset) :
      a.start.offset < b.start.offset :=
    Nat.lt_of_lt_of_le (h.nonempty a (List.mem_append_left _ ha) (hbody a ha)) hab
  refine List.pairwise_append.2 ⟨hinner.imp_of_mem fun ha _ => hless ha,
    List.pairwise_singleton _ _, fun a ha b hb => hless ha (hlast a ha b hb)⟩

theorem starts_tokenize (source : Bytes) :
    (tokenize source).Pairwise fun a b => a.start.offset < b.start.offset := by
  have hordered := ordered_tokenize source
  obtain ⟨body, stop, htokens, -, hbody⟩ := tokenize_eq source
  rw [htokens] at hordered ⊢
  exact hordered.starts hbody

/-- So two tokens at one place are the same. -/
theorem eq_of_start {ts : List Token}
    (h : ts.Pairwise fun a b => a.start.offset < b.start.offset) {a b : Token} (ha : a ∈ ts)
    (hb : b ∈ ts) (hstart : a.start = b.start) : a = b := by
  induction h with
  | nil => cases ha
  | cons hfirst _ ih =>
    rcases List.mem_cons.1 ha with rfl | ha' <;> rcases List.mem_cons.1 hb with rfl | hb'
    · rfl
    · exact absurd (hfirst b hb') (hstart ▸ Nat.lt_irrefl _)
    · exact absurd (hfirst a ha') (hstart ▸ Nat.lt_irrefl _)
    · exact ih ha' hb'

/-- Among the faults of the error tokens each of these tokens has one. -/
theorem countP_ofToken {ts : List Token}
    (h : ts.Pairwise fun a b => a.start.offset < b.start.offset) {t : Token} (ht : t ∈ ts) :
    (ts.map SyntaxError.ofToken).countP (fun e => e.span = t.span ∧ e.message = t.literal) = 1 := by
  have hnodup : ts.Nodup := h.imp fun {a b} hlt (heq : a = b) => Nat.lt_irrefl _ (heq ▸ hlt)
  have hcongr : ∀ a ∈ ts, (decide (a.span = t.span ∧ a.literal = t.literal) = true ↔
      (a == t) = true) := by
    intro a ha
    rw [decide_eq_true_eq, beq_iff_eq]
    refine ⟨fun hspan => eq_of_start h ha ht (congrArg Span.start hspan.1), ?_⟩
    rintro rfl
    exact ⟨rfl, rfl⟩
  have hcount := hnodup.count (a := t)
  rw [if_pos ht, List.count_eq_countP] at hcount
  rw [List.countP_map]
  exact (List.countP_congr hcongr).trans hcount

/-- Reading ends at the end of the text, with the fuel that it is given as with any more, its faults
are in order, and among them each error token of the text is reported once, with its place and its
message. -/
theorem recovery_loses_nothing (source : Bytes) :
    (Parser.script (tokenize source)).2.kind = .eof ∧
      (∀ fuel, Parser.fuelFor (tokenize source).length ≤ fuel →
        Parser.block fuel [] (.ofTokens (tokenize source)) =
          Parser.block (Parser.fuelFor (tokenize source).length) [] (.ofTokens (tokenize source))) ∧
      ((parsePartial source).2.Pairwise fun a b => a.span.start.offset ≤ b.span.start.offset) ∧
      ∀ t ∈ tokenize source, t.kind = .error →
        (parsePartial source).2.countP (fun e => e.span = t.span ∧ e.message = t.literal) = 1 := by
  have hstarts := starts_tokenize source
  rw [parsePartial]
  obtain ⟨body, stop, htokens, hstop, hbody⟩ := tokenize_eq source
  rw [htokens] at hstarts ⊢
  refine ⟨Parser.kind_script hstop hbody, fun fuel => Parser.block_of_fuelFor_le hstop hbody,
    SyntaxError.pairwise_sorted _, fun t ht hk => ?_⟩
  have hmem : t ∈ body.filter fun t => t.kind = .error := by
    refine List.mem_filter.2
      ⟨(List.mem_append.1 ht).resolve_right fun hlast => ?_, by simpa using hk⟩
    rw [List.mem_singleton.1 hlast, hstop] at hk
    cases hk
  have hsub : (body.filter fun t => t.kind = .error).Sublist (body ++ [stop]) :=
    List.filter_sublist.trans (List.sublist_append_left body [stop])
  -- the other faults are at other tokens
  have hother : ((Parser.script (body ++ [stop])).2.errors.filter
      (fun e => !e.cause.isLexical)).countP
        (fun e => e.span = t.span ∧ e.message = t.literal) = 0 := by
    refine List.countP_eq_zero.2 fun e he hreports => ?_
    obtain ⟨he, hcause⟩ := List.mem_filter.1 he
    obtain ⟨t', ht', hk', hspan⟩ :=
      Parser.span_of_mem_script hstop he (by simpa using hcause)
    have hsame := eq_of_start hstarts ht' ht
      (congrArg Span.start (hspan.symm.trans (of_decide_eq_true hreports).1))
    exact hk' (hsame ▸ hk)
  rw [(SyntaxError.perm_sorted _).countP_eq,
    List.countP_eq_countP_filter_add _ _ fun e => e.cause.isLexical,
    Parser.lexical_script hstop hbody, countP_ofToken (hstarts.sublist hsub) hmem, hother]

end Scriptlet
