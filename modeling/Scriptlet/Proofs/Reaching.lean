import Scriptlet.Proofs.Reading
import Scriptlet.Syntax.Parser

/-!
# What the reader can do

Whatever the reader reads, it passes tokens and reports faults of the grammar at the tokens that it
comes by, and does nothing else (`Reaches`). So the tokens that are left are the last ones, faults
are only ever added, and each lexical fault is either reported already or still pending. All
functions of the reader keep to this (`Tracks`) : an instance says so of each.
-/

namespace Scriptlet

/-- Whether a token could not be read. The other faults are faults of the grammar. -/
def SyntaxCause.isLexical : SyntaxCause → Bool
  | lexical _ => true
  | _ => false

/-- The fault is about the token : the token that was found, or its literal. -/
def SyntaxCause.IsAbout (t : Token) : SyntaxCause → Prop
  | lexical _ => False
  | expected _ found | expectedExpression found => found = t
  | unsupportedWord word | unexpectedWord word => word = t.literal ∧ t.kind ∈ TokenKind.reserved
  | numberTooLarge literal => literal = t.literal ∧ t.kind = .number

/-- A fault about a token is one of the grammar. -/
theorem SyntaxCause.IsAbout.isLexical {t : Token} {cause : SyntaxCause} (h : cause.IsAbout t) :
    cause.isLexical = false := by
  cases cause with
  | lexical => exact h.elim
  | expected | expectedExpression | unsupportedWord | unexpectedWord | numberTooLarge => rfl

namespace Parser

namespace State

/-- The tokens from the current one on. -/
def tokens (s : State) : List Token := s.current :: s.upcoming.map (·.token)

/-- The number of tokens after the current one. -/
def left (s : State) : Nat := s.upcoming.length

/-- The faults that are not reported yet. -/
def pending (s : State) : List SyntaxError := (s.upcoming.drop 1).flatMap (·.faults)

/-- The last token, and only it, marks the end of the text. -/
def Ended (s : State) : Prop :=
  ∃ body stop, s.tokens = body ++ [stop] ∧ stop.kind = .eof ∧ ∀ t ∈ body, t.kind ≠ .eof

theorem length_tokens (s : State) : s.tokens.length = s.left + 1 := by
  simp [tokens, left]

/-- Before the end of the text there is a next token. -/
theorem Ended.upcoming_ne_nil {s : State} (hs : s.Ended) (hk : s.kind ≠ .eof) :
    s.upcoming ≠ [] := by
  intro hnil
  obtain ⟨body, stop, htokens, hstop, -⟩ := hs
  rw [tokens, hnil, List.map_nil] at htokens
  obtain ⟨rfl, hcur⟩ := (List.append_eq_singleton_iff.1 htokens.symm).resolve_right (by simp)
  obtain rfl : stop = s.current := by simpa using hcur
  exact hk hstop

/-- At the end of the text there is no next token. -/
theorem Ended.tokens_of_eof {s : State} (hs : s.Ended) (hk : s.kind = .eof) :
    s.tokens = [s.current] := by
  obtain ⟨body, stop, htokens, -, hbody⟩ := hs
  cases body with
  | nil =>
    obtain ⟨hcur, hup⟩ := List.cons.inj htokens
    rw [tokens, hup]
  | cons t body =>
    obtain ⟨rfl, -⟩ := List.cons.inj htokens
    exact absurd hk (hbody _ List.mem_cons_self)

/-- Any last tokens end where the text ends. -/
theorem Ended.of_suffix {s s' : State} (hs : s.Ended) (h : s'.tokens <:+ s.tokens) :
    s'.Ended := by
  obtain ⟨body, stop, htokens, hstop, hbody⟩ := hs
  obtain ⟨u, hu⟩ := h
  have hne : s'.tokens ≠ [] := by simp [State.tokens]
  obtain ⟨body', last, hlast⟩ : ∃ b l, s'.tokens = b ++ [l] :=
    ⟨_, _, (List.dropLast_concat_getLast hne).symm⟩
  rw [← hu, hlast, ← List.append_assoc] at htokens
  obtain ⟨rfl, hl⟩ := List.append_inj' htokens rfl
  obtain rfl := List.singleton_inj.1 hl
  exact ⟨body', last, hlast, hstop, fun t ht => hbody t (List.mem_append_right u ht)⟩

/-- Passing a token leaves the last tokens. -/
theorem tokens_advance (s : State) : s.advance.tokens <:+ s.tokens := by
  rw [advance]
  split
  next => exact List.suffix_rfl
  next i rest hup =>
    have htokens : s.tokens = s.current :: i.token :: rest.map (·.token) := by
      rw [tokens, hup]
      rfl
    rw [htokens]
    exact List.suffix_cons _ _

/-- Passing a token takes back no fault. -/
theorem errors_isPrefix_advance (s : State) : s.errors <+: s.advance.errors := by
  rw [advance]
  split
  · exact List.prefix_rfl
  · exact List.prefix_append _ _

/-- Passing a token reports the next pending faults. -/
theorem faults_advance (s : State) :
    s.advance.errors ++ s.advance.pending = s.errors ++ s.pending := by
  rw [advance]
  split
  next => rfl
  next i rest hup =>
    rw [pending, pending, hup, List.append_assoc]
    cases rest <;> rfl

/-- Before the end of the text, passing a token leaves fewer. -/
theorem Ended.left_advance {s : State} (hs : s.Ended) (hk : s.kind ≠ .eof) :
    s.advance.left < s.left := by
  obtain ⟨i, rest, hup⟩ := List.exists_cons_of_ne_nil (hs.upcoming_ne_nil hk)
  simp [advance, left, hup]

end State

/-! ## Reaching -/

/-- From `s` the reader comes to a state by passing tokens and reporting faults of the grammar, each
at a token of `s` that it is about. -/
inductive Reaches (s : State) : State → Prop where
  | refl : Reaches s s
  | advance {s'} : Reaches s s' → Reaches s s'.advance
  | report {s' t cause} : Reaches s s' → t ∈ s.tokens → cause.IsAbout t →
      Reaches s (s'.report t.span cause)

namespace Reaches

variable {s s' s'' : State}

/-- Whatever way the reader takes, the tokens that are left are the last ones. -/
theorem tokens (h : Reaches s s') : s'.tokens <:+ s.tokens := by
  induction h with
  | refl => exact List.suffix_rfl
  | @advance s' _ ih => exact s'.tokens_advance.trans ih
  | report _ _ _ ih => exact ih

/-- Two ways make one : a token of a later state is also one of an earlier state. -/
theorem trans (h : Reaches s s') (h' : Reaches s' s'') : Reaches s s'' := by
  induction h' with
  | refl => exact h
  | advance _ ih => exact .advance ih
  | report _ ht hcause ih => exact .report ih (h.tokens.subset ht) hcause

theorem ended (h : Reaches s s') (hs : s.Ended) : s'.Ended := hs.of_suffix h.tokens

theorem left_le (h : Reaches s s') : s'.left ≤ s.left := by
  have hlen := h.tokens.length_le
  rw [State.length_tokens, State.length_tokens] at hlen
  exact Nat.le_of_succ_le_succ hlen

/-- If the current token is another one, then a token was passed. -/
theorem left_lt (h : Reaches s s') (hne : s'.current ≠ s.current) : s'.left < s.left := by
  refine Nat.lt_of_le_of_ne h.left_le fun heq => hne ?_
  have htokens := h.tokens.eq_of_length (by rw [State.length_tokens, State.length_tokens, heq])
  exact (List.cons.inj htokens).1

/-- Whatever way the reader takes, faults are only added. -/
theorem errors_isPrefix (h : Reaches s s') : s.errors <+: s'.errors := by
  induction h with
  | refl => exact List.prefix_rfl
  | @advance s' _ ih => exact ih.trans s'.errors_isPrefix_advance
  | report _ _ _ ih => exact ih.trans (List.prefix_append _ _)

/-- No lexical fault gets lost, and none is reported twice. -/
theorem lexical_faults (h : Reaches s s') :
    (s'.errors ++ s'.pending).filter (·.cause.isLexical) =
      (s.errors ++ s.pending).filter (·.cause.isLexical) := by
  induction h with
  | refl => rfl
  | @advance s' _ ih => rw [s'.faults_advance, ih]
  | @report s' t cause _ _ hcause ih =>
    rw [← ih, List.filter_append, List.filter_append]
    simp [State.report, State.pending, hcause.isLexical]

/-- A fault that was not there is reported at one of the tokens, and about it. -/
theorem mem_faults (h : Reaches s s') : ∀ e ∈ s'.errors ++ s'.pending,
    e ∈ s.errors ++ s.pending ∨ ∃ t ∈ s.tokens, e.span = t.span ∧ e.cause.IsAbout t := by
  induction h with
  | refl => exact fun e he => .inl he
  | @advance s' _ ih => rwa [s'.faults_advance]
  | @report s' t cause _ ht hcause ih =>
    intro e he
    change e ∈ (s'.errors ++ [⟨t.span, cause⟩]) ++ s'.pending at he
    simp only [List.mem_append, List.mem_singleton] at he
    rcases he with (he | rfl) | he
    · exact ih e (List.mem_append_left _ he)
    · exact .inr ⟨t, ht, rfl, hcause⟩
    · exact ih e (List.mem_append_right _ he)

end Reaches

/-! ## One rule for each step -/

/-- The reader only passes tokens and reports faults of the grammar at them. -/
class Tracks {α : Type} (p : Parser α) : Prop where
  reaches : ∀ s, Reaches s (p s).2

section

variable {α β : Type}

/-- One reader after another. -/
instance {p : Parser α} {f : α → Parser β} [hp : Tracks p] [hf : ∀ a, Tracks (f a)] :
    Tracks (p >>= f) where
  reaches s := by
    have hs := hp.reaches s
    rcases h : p s with ⟨_ | a, s'⟩
    · simpa [Bind.bind, h] using hs
    · rw [h] at hs
      simpa [Bind.bind, h] using hs.trans ((hf a).reaches s')

/-- Either of two readers. -/
instance {p q : Parser α} {c : Prop} [Decidable c] [hp : Tracks p] [hq : Tracks q] :
    Tracks (if c then p else q) := by
  split
  · exact hp
  · exact hq

instance (a : α) : Tracks (pure a : Parser α) := ⟨fun _ => .refl⟩

instance : Tracks look := ⟨fun _ => .refl⟩

instance : Tracks (exhausted : Parser α) := ⟨fun _ => .refl⟩

instance : Tracks advance := ⟨fun _ => .advance .refl⟩

/-- What `p` reaches from `s'` is reached from `s`. -/
def ReachesBy (p : Parser α) (s s' : State) : Prop := Reaches s (p s').2

theorem ReachesBy.look {s : State} {f : State → Parser β} (h : ReachesBy (f s) s s) :
    ReachesBy (Parser.look >>= f) s s := h

theorem ReachesBy.pass {s s' : State} {p : Parser β} (h : ReachesBy p s s'.advance) :
    ReachesBy (Parser.advance >>= fun _ => p) s s' := h

/-- A fault about the current token. -/
theorem ReachesBy.fail {s : State} {cause : SyntaxCause} (h : cause.IsAbout s.current) :
    ReachesBy (Parser.fail cause : Parser α) s s :=
  .report .refl List.mem_cons_self h

/-- Looking at the state does nothing, whatever is done with what is seen. -/
theorem Tracks.look {f : State → Parser β} (h : ∀ s, Tracks (f s)) : Tracks (look >>= f) :=
  inferInstance

/-- If the current token is not of the wanted kind, the fault is about it. -/
instance (wanted : TokenKind) : Tracks (expect wanted) where
  reaches s := by
    rw [expect]
    refine ReachesBy.look ?_
    split
    · exact Tracks.reaches s
    · exact ReachesBy.fail rfl

instance (start : Position) : Tracks (spanFrom start) := by
  rw [spanFrom]
  infer_instance

end

/-! ## Expressions -/

/-- The functions that read expressions. -/
structure TracksExpressions (fuel : Nat) : Prop where
  operand : ∀ level, Tracks (operand fuel level)
  binary : ∀ level, Tracks (binary fuel level)
  chain : ∀ level left, Tracks (chain fuel level left)
  unary : Tracks (unary fuel)
  power : Tracks (power fuel)
  primary : Tracks (primary fuel)

/-- A primary expression, if what stands in parentheses is read as it should be. -/
theorem tracks_primary {fuel : Nat} [∀ level, Tracks (binary fuel level)] :
    Tracks (primary (fuel + 1)) where
  reaches s := by
    rw [Parser.primary]
    refine ReachesBy.look (s := s) ?_
    dsimp only
    split
    next hkind =>
      -- a number that does not fit is reported when it is passed already
      refine ReachesBy.pass ?_
      split
      · exact .advance .refl
      · exact .report (.advance .refl) List.mem_cons_self ⟨rfl, hkind⟩
    case h_7 => exact ReachesBy.fail rfl
    all_goals exact Tracks.reaches s

/-- With any fuel the functions that read expressions are tracked : each calls others with one unit
less. -/
theorem tracks_expressions : ∀ fuel, TracksExpressions fuel
  | 0 => by
    constructor <;> intros
    all_goals exact inferInstanceAs (Tracks exhausted)
  | fuel + 1 => by
    obtain ⟨_, _, _, _, _, _⟩ := tracks_expressions fuel
    refine ⟨fun level => ?_, fun level => ?_, fun level left => ?_, ?_, ?_, tracks_primary⟩
    · rw [Parser.operand]
      split <;> infer_instance
    · rw [Parser.binary]
      infer_instance
    · rw [Parser.chain]
      infer_instance
    · rw [Parser.unary]
      infer_instance
    · rw [Parser.power]
      infer_instance

instance (fuel : Nat) (level : Level) : Tracks (operand fuel level) :=
  (tracks_expressions fuel).operand level

instance (fuel : Nat) (level : Level) : Tracks (binary fuel level) :=
  (tracks_expressions fuel).binary level

instance (fuel : Nat) (level : Level) (left : Expr) : Tracks (chain fuel level left) :=
  (tracks_expressions fuel).chain level left

instance (fuel : Nat) : Tracks (unary fuel) := (tracks_expressions fuel).unary

instance (fuel : Nat) : Tracks (power fuel) := (tracks_expressions fuel).power

instance (fuel : Nat) : Tracks (primary fuel) := (tracks_expressions fuel).primary

instance (fuel : Nat) : Tracks (expression fuel) := (tracks_expressions fuel).binary .or

/-! ## Statements -/

/-- After a fault tokens are passed one by one. -/
theorem reaches_skipTokens (terminators : List TokenKind) :
    ∀ (n : Nat) (s : State), Reaches s (skipTokens terminators n s)
  | 0, _ => .refl
  | n + 1, s => by
    rw [skipTokens]
    split
    · exact .refl
    · exact (Reaches.advance .refl).trans (reaches_skipTokens terminators n _)

/-- Whether or not a token was passed since the statement started, the reader only passes more. -/
theorem reaches_synchronize (offset : Nat) (terminators : List TokenKind) (s : State) :
    Reaches s (synchronize offset terminators s) := by
  rw [synchronize]
  refine Reaches.trans ?_ (reaches_skipTokens terminators _ _)
  split
  · exact .advance .refl
  · exact .refl

/-- A conditional from the end of its first block on. -/
def otherBranch (fuel : Nat) (start : Position) (test : Expr) (yes : List Stmt) :
    Parser Stmt := do
  match (← look).kind with
  | .elifWord =>
    let nested ← conditional fuel
    return .cond (← spanFrom start) test yes [nested]
  | .elseWord =>
    advance
    let no ← always (block fuel [.endWord])
    expect .endWord
    return .cond (← spanFrom start) test yes no
  | _ =>
    expect .endWord
    return .cond (← spanFrom start) test yes []

/-- A conditional is a test and a block, and then what `otherBranch` reads. -/
theorem conditional_succ (fuel : Nat) : conditional (fuel + 1) = (do
    let start := (← look).current.start
    advance
    let test ← expression fuel
    expect .thenWord
    let yes ← always (block fuel [.elifWord, .elseWord, .endWord])
    otherBranch fuel start test yes) := by
  rw [conditional]
  rfl

instance (fuel : Nat) (start : Position) (test : Expr) (yes : List Stmt)
    [Tracks (conditional fuel)] [∀ terminators, Tracks (always (block fuel terminators))] :
    Tracks (otherBranch fuel start test yes) := by
  rw [otherBranch]
  refine Tracks.look fun s => ?_
  split <;> infer_instance

instance (fuel : Nat) : Tracks (printing fuel) := by
  rw [printing]
  infer_instance

instance (fuel : Nat) : Tracks (assignment fuel) := by
  rw [assignment]
  infer_instance

instance (fuel : Nat) : Tracks (expressionStatement fuel) := by
  rw [expressionStatement]
  infer_instance

/-- The functions that read statements. -/
structure TracksStatements (fuel : Nat) : Prop where
  block : ∀ terminators, Tracks (always (block fuel terminators))
  statement : Tracks (statement fuel)
  conditional : Tracks (conditional fuel)
  looping : Tracks (looping fuel)

/-- A block goes on from its first statement, faulty or not. -/
theorem reaches_block {fuel : Nat} {terminators : List TokenKind} {s : State}
    (hblock : Tracks (always (block fuel terminators))) (hend : s.endsBlock terminators = false) :
    Reaches (statement fuel s).2 (block (fuel + 1) terminators s).2 := by
  have hsync (s' : State) : Reaches s'
      (block fuel terminators (synchronize s.current.start.offset terminators s')).2 :=
    (reaches_synchronize _ _ _).trans (hblock.reaches _)
  simp only [block, hend, Bool.false_eq_true, if_false]
  rcases statement fuel s with ⟨_ | stmt, s'⟩
  · exact hsync s'
  · dsimp only
    split
    · exact hblock.reaches s'
    · exact hsync s'

/-- With any fuel the functions that read statements are tracked. -/
theorem tracks_statements : ∀ fuel, TracksStatements fuel
  | 0 => by
    constructor
    · exact fun _ => ⟨fun _ => .refl⟩
    all_goals exact inferInstanceAs (Tracks exhausted)
  | fuel + 1 => by
    obtain ⟨hblock, hstatement, _, _⟩ := tracks_statements fuel
    refine ⟨fun terminators => ⟨fun s => ?_⟩, ?_, ?_, ?_⟩
    · by_cases hend : s.endsBlock terminators
      · simpa [always, Parser.block, hend] using Reaches.refl
      · exact (hstatement.reaches s).trans
          (reaches_block (hblock terminators) (by simpa using hend))
    · refine ⟨fun s => ?_⟩
      rw [Parser.statement]
      refine ReachesBy.look ?_
      split
      all_goals
        first
        | exact Tracks.reaches s
        | next hkind => exact ReachesBy.fail ⟨rfl, by rw [← State.kind, hkind]; decide⟩
    · rw [conditional_succ]
      infer_instance
    · rw [Parser.looping]
      infer_instance

instance (fuel : Nat) (terminators : List TokenKind) :
    Tracks (always (block fuel terminators)) := (tracks_statements fuel).block terminators

instance (fuel : Nat) : Tracks (statement fuel) := (tracks_statements fuel).statement

instance (fuel : Nat) : Tracks (conditional fuel) := (tracks_statements fuel).conditional

instance (fuel : Nat) : Tracks (looping fuel) := (tracks_statements fuel).looping

end Parser

end Scriptlet
