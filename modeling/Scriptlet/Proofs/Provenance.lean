import Scriptlet.Proofs.Code
import Scriptlet.Proofs.Language

/-!
# Where trees come from

Every leaf of a tree that was read comes from a token, every operator is one of the language, and
every range starts at a token (`Expr.From`, `Stmt.From`, `Script.From`). This holds of the tree of
every text, also of what is left of a text with faults : `parsePartial_from`. There is one rule for
each step of the reader (`Yields`), and the proofs follow the reader.
-/

namespace Scriptlet

/-- The expression is made of tokens of the text. -/
def Expr.From (ts : List Token) : Expr → Prop
  | .number span x =>
    ∃ t ∈ ts, t.kind = .number ∧ t.span = span ∧ numberOfLiteral? t.literal = some x
  | .string span s => ∃ t ∈ ts, t.kind = .string ∧ t.span = span ∧ t.literal = s
  | .bool span _ => ∃ t ∈ ts, t.span = span
  | .ident span name => ∃ t ∈ ts, t.kind = .identifier ∧ t.span = span ∧ t.literal = name
  | .group span inner => (∃ t ∈ ts, t.start = span.start) ∧ inner.From ts
  | .unary span op operand =>
    (∃ t ∈ ts, t.start = span.start) ∧ op ∈ Parser.unaryOperators ∧ operand.From ts
  | .binary span op left right =>
    left.span.start = span.start ∧ (binaryOpcode? op).isSome ∧ left.From ts ∧ right.From ts

mutual

/-- The statement is made of tokens of the text. -/
def Stmt.From (ts : List Token) : Stmt → Prop
  | .print span _ value | .expr span value => (∃ t ∈ ts, t.start = span.start) ∧ value.From ts
  | .assign span name _ value =>
    (∃ t ∈ ts, t.kind = .identifier ∧ t.start = span.start ∧ t.literal = name) ∧ value.From ts
  | .cond span test yes no =>
    (∃ t ∈ ts, t.start = span.start) ∧ test.From ts ∧ Stmt.AllFrom ts yes ∧ Stmt.AllFrom ts no
  | .loop span test body =>
    (∃ t ∈ ts, t.start = span.start) ∧ test.From ts ∧ Stmt.AllFrom ts body

/-- The statements are made of tokens of the text. -/
def Stmt.AllFrom (ts : List Token) : List Stmt → Prop
  | [] => True
  | s :: rest => s.From ts ∧ Stmt.AllFrom ts rest

end

/-- The script is made of tokens of the text, and ends where one of them ends. -/
def Script.From (ts : List Token) (script : Script) : Prop :=
  (∃ t ∈ ts, t.stop = script.span.stop) ∧ Stmt.AllFrom ts script.statements

/-- An expression starts where a token starts. -/
theorem Expr.From.start {ts : List Token} : ∀ {e : Expr}, e.From ts →
    ∃ t ∈ ts, t.start = e.span.start
  | .number _ _, ⟨t, ht, _, hspan, _⟩ | .string _ _, ⟨t, ht, _, hspan, _⟩
  | .bool _ _, ⟨t, ht, hspan⟩ | .ident _ _, ⟨t, ht, _, hspan, _⟩ =>
    ⟨t, ht, congrArg Span.start hspan⟩
  | .group _ _, h | .unary _ _ _, h => h.1
  | .binary _ _ _ _, ⟨hstart, _, hleft, _⟩ => by
    obtain ⟨t, ht, hspan⟩ := hleft.start
    exact ⟨t, ht, hspan.trans hstart⟩

namespace Parser

/-- The tokens that are left are tokens of the text. -/
def State.Within (ts : List Token) (s : State) : Prop := ∀ t ∈ s.tokens, t ∈ ts

/-- Among the tokens of the text the reader gives only results with the property `Q`. -/
def Yields {α : Type} (ts : List Token) (p : Parser α) (s : State) (Q : α → Prop) : Prop :=
  s.Within ts → (p s).2.Within ts ∧ ∀ a, (p s).1 = some a → Q a

theorem State.Within.current {ts : List Token} {s : State} (h : s.Within ts) : s.current ∈ ts :=
  h _ List.mem_cons_self

/-- Passing a token leaves only tokens of the text. -/
theorem State.Within.advance {ts : List Token} {s : State} (h : s.Within ts) :
    s.advance.Within ts := by
  intro t ht
  refine h t ?_
  rw [State.advance] at ht
  split at ht
  next => exact ht
  next i rest hup =>
    rw [State.tokens, hup]
    exact List.mem_cons_of_mem _ ht

/-! ## One rule for each step -/

section

variable {α β : Type} {ts : List Token} {p : Parser α} {s : State} {Q : α → Prop} {R : β → Prop}

/-- One reader after another. The second is given a result with the property of the first. -/
theorem Yields.bind {f : α → Parser β} (h : Yields ts p s Q)
    (h' : ∀ a s', Q a → Yields ts (f a) s' R) : Yields ts (p >>= f) s R := by
  intro hs
  obtain ⟨hs', ha⟩ := h hs
  rcases hp : p s with ⟨_ | a, s'⟩
  · rw [hp] at hs'
    simpa [Bind.bind, hp] using hs'
  · rw [hp] at hs' ha
    simpa [Bind.bind, hp] using h' a s' (ha a rfl) hs'

/-- Whoever looks at the current token sees one of the text. -/
theorem Yields.look {f : State → Parser β} (h : s.current ∈ ts → Yields ts (f s) s R) :
    Yields ts (look >>= f) s R :=
  fun hs => h hs.current hs

theorem yields_pure {a : α} (h : Q a) : Yields ts (pure a) s Q := by
  intro hs
  refine ⟨hs, fun b hb => ?_⟩
  obtain rfl := Option.some.inj hb
  exact h

theorem yields_exhausted : Yields ts (exhausted : Parser α) s Q :=
  fun hs => ⟨hs, nofun⟩

theorem yields_failAt (span : Span) (cause : SyntaxCause) :
    Yields ts (failAt span cause : Parser α) s Q :=
  fun hs => ⟨hs, nofun⟩

/-- A reader that fails has no result, so nothing is asked of it. -/
theorem yields_fail (cause : SyntaxCause) : Yields ts (fail cause : Parser α) s Q :=
  fun hs => ⟨hs, nofun⟩

theorem Yields.advance {q : Parser β} (h : ∀ s', Yields ts q s' R) :
    Yields ts (advance >>= fun _ => q) s R :=
  fun hs => h _ hs.advance

theorem yields_expect (wanted : TokenKind) : Yields ts (expect wanted) s fun _ => True := by
  rw [expect]
  refine Yields.look fun _ => ?_
  split
  · exact fun hs => ⟨hs.advance, fun _ _ => trivial⟩
  · exact yields_fail _

theorem Yields.expect {wanted : TokenKind} {q : Parser β} (h : ∀ s', Yields ts q s' R) :
    Yields ts (expect wanted >>= fun _ => q) s R :=
  (yields_expect wanted).bind fun _ s' _ => h s'

/-- A range that is measured from `start` starts there. -/
theorem Yields.spanFrom {start : Position} {f : Span → Parser β}
    (h : ∀ span s', span.start = start → Yields ts (f span) s' R) :
    Yields ts (spanFrom start >>= f) s R :=
  Yields.look fun _ => h _ _ rfl

/-- A reader that always has a result keeps to the tokens of the text if its function does. -/
theorem yields_always {f : State → α × State}
    (h : s.Within ts → (f s).2.Within ts ∧ Q (f s).1) : Yields ts (always f) s Q := by
  intro hs
  obtain ⟨hs', ha⟩ := h hs
  refine ⟨hs', fun a he => ?_⟩
  obtain rfl : (f s).1 = a := Option.some.inj he
  exact ha

end

/-! ## Expressions -/

/-- The operators of all levels are operators of the machine. -/
theorem binaryOpcode?_of_level {level : Level} {op : TokenKind} (h : op ∈ level.operators) :
    (binaryOpcode? op).isSome := by
  cases level <;> simp only [Level.operators, List.mem_cons, List.not_mem_nil, or_false] at h <;>
    rcases h with rfl | rfl | rfl | rfl <;> rfl

/-- The functions that read expressions give expressions made of tokens of the text. -/
structure YieldsExpressions (ts : List Token) (fuel : Nat) : Prop where
  operand : ∀ level s, Yields ts (operand fuel level) s (Expr.From ts)
  binary : ∀ level s, Yields ts (binary fuel level) s (Expr.From ts)
  chain : ∀ level left s, left.From ts → Yields ts (chain fuel level left) s (Expr.From ts)
  unary : ∀ s, Yields ts (unary fuel) s (Expr.From ts)
  power : ∀ s, Yields ts (power fuel) s (Expr.From ts)
  primary : ∀ s, Yields ts (primary fuel) s (Expr.From ts)

/-- With any fuel, what is read as an expression is made of tokens of the text. There is one case
for each function. -/
theorem yields_expressions (ts : List Token) : ∀ fuel, YieldsExpressions ts fuel
  | 0 => by
    constructor <;> intros <;> exact yields_exhausted
  | fuel + 1 => by
    obtain ⟨hoperand, hbinary, hchain, hunary, hpower, hprimary⟩ := yields_expressions ts fuel
    constructor
    case operand =>
      intro level s
      rw [Parser.operand]
      split
      · exact hbinary _ s
      · exact hunary s
    case binary =>
      intro level s
      rw [Parser.binary]
      exact (hoperand level s).bind fun left s' hleft => hchain level left s' hleft
    case chain =>
      intro level left s hleft
      rw [Parser.chain]
      refine Yields.look fun _ => ?_
      split
      next hop =>
        refine Yields.advance fun s' => (hoperand level s').bind fun right s'' hright => ?_
        exact hchain level _ s'' ⟨rfl, binaryOpcode?_of_level hop, hleft, hright⟩
      next => exact yields_pure hleft
    case unary =>
      intro s
      rw [Parser.unary]
      refine Yields.look fun hcur => ?_
      split
      next hop =>
        refine Yields.advance fun s' => (hunary s').bind fun operand s'' hoperand => ?_
        refine Yields.spanFrom fun span s₃ hspan => yields_pure ?_
        exact ⟨⟨_, hcur, hspan.symm⟩, hop, hoperand⟩
      next => exact hpower s
    case power =>
      intro s
      rw [Parser.power]
      refine (hprimary s).bind fun base s' hbase => Yields.look fun _ => ?_
      split
      · refine Yields.advance fun s'' => (hunary s'').bind fun exponent s₃ hexp => yields_pure ?_
        exact ⟨rfl, rfl, hbase, hexp⟩
      · exact yields_pure hbase
    case primary =>
      intro s
      rw [Parser.primary]
      refine Yields.look fun hcur => ?_
      dsimp only
      split
      next hkind =>
        refine Yields.advance fun s' => ?_
        split
        next x hx => exact yields_pure ⟨_, hcur, hkind, rfl, hx⟩
        next => exact yields_failAt _ _
      next hkind => exact Yields.advance fun s' => yields_pure ⟨_, hcur, hkind, rfl, rfl⟩
      next => exact Yields.advance fun s' => yields_pure ⟨_, hcur, rfl⟩
      next => exact Yields.advance fun s' => yields_pure ⟨_, hcur, rfl⟩
      next hkind => exact Yields.advance fun s' => yields_pure ⟨_, hcur, hkind, rfl, rfl⟩
      next =>
        refine Yields.advance fun s' => (hbinary .or s').bind fun inner s'' hinner => ?_
        refine Yields.expect fun s₃ => Yields.spanFrom fun span s₄ hspan => yields_pure ?_
        exact ⟨⟨_, hcur, hspan.symm⟩, hinner⟩
      next => exact yields_fail _

theorem yields_expression (ts : List Token) (fuel : Nat) (s : State) :
    Yields ts (expression fuel) s (Expr.From ts) :=
  (yields_expressions ts fuel).binary .or s

/-! ## Statements -/

/-- What is passed after a fault leaves tokens of the text. -/
theorem within_skipTokens {ts : List Token} (terminators : List TokenKind) :
    ∀ (n : Nat) {s : State}, s.Within ts → (skipTokens terminators n s).Within ts
  | 0, _, hs => hs
  | n + 1, s, hs => by
    rw [skipTokens]
    split
    · exact hs
    · exact within_skipTokens terminators n hs.advance

theorem within_synchronize {ts : List Token} (offset : Nat) (terminators : List TokenKind)
    {s : State} (hs : s.Within ts) : (synchronize offset terminators s).Within ts := by
  rw [synchronize]
  refine within_skipTokens terminators _ ?_
  split
  · exact hs.advance
  · exact hs

theorem yields_printing (ts : List Token) (fuel : Nat) (s : State) :
    Yields ts (printing fuel) s (Stmt.From ts) := by
  rw [printing]
  refine Yields.look fun hcur => Yields.advance fun s' => ?_
  refine (yields_expression ts fuel s').bind fun value s'' hvalue => ?_
  refine Yields.spanFrom fun span s₃ hspan => yields_pure ?_
  exact ⟨⟨_, hcur, hspan.symm⟩, hvalue⟩

/-- The name that a statement gives a value is its first token. -/
theorem yields_assignment (ts : List Token) (fuel : Nat) {s : State} (hs : s.kind = .identifier) :
    Yields ts (assignment fuel) s (Stmt.From ts) := by
  rw [assignment]
  refine Yields.look fun hcur => Yields.advance fun s' => Yields.advance fun s'' => ?_
  refine (yields_expression ts fuel s'').bind fun value s₃ hvalue => ?_
  refine Yields.spanFrom fun span s₄ hspan => yields_pure ?_
  exact ⟨⟨_, hcur, hs, hspan.symm, rfl⟩, hvalue⟩

theorem yields_expressionStatement (ts : List Token) (fuel : Nat) (s : State) :
    Yields ts (expressionStatement fuel) s (Stmt.From ts) := by
  rw [expressionStatement]
  refine Yields.look fun hcur => ?_
  refine (yields_expression ts fuel s).bind fun value s' hvalue => ?_
  refine Yields.spanFrom fun span s'' hspan => yields_pure ?_
  exact ⟨⟨_, hcur, hspan.symm⟩, hvalue⟩

/-- The functions that read statements give statements made of tokens of the text. -/
structure YieldsStatements (ts : List Token) (fuel : Nat) : Prop where
  block : ∀ terminators s, Yields ts (always (block fuel terminators)) s (Stmt.AllFrom ts)
  statement : ∀ s, Yields ts (statement fuel) s (Stmt.From ts)
  conditional : ∀ s, Yields ts (conditional fuel) s (Stmt.From ts)
  looping : ∀ s, Yields ts (looping fuel) s (Stmt.From ts)

/-- The rest of a conditional, whose test and first block are made of tokens of the text. -/
theorem yields_otherBranch {ts : List Token} {fuel : Nat} (h : YieldsStatements ts fuel)
    {start : Position} (hstart : ∃ t ∈ ts, t.start = start) {test : Expr} (htest : test.From ts)
    {yes : List Stmt} (hyes : Stmt.AllFrom ts yes) (s : State) :
    Yields ts (otherBranch fuel start test yes) s (Stmt.From ts) := by
  rw [otherBranch]
  refine Yields.look fun _ => ?_
  split
  · refine (h.conditional s).bind fun nested s' hnested => ?_
    refine Yields.spanFrom fun span s'' hspan => yields_pure ?_
    exact ⟨by rwa [hspan], htest, hyes, hnested, trivial⟩
  · refine Yields.advance fun s' => (h.block _ s').bind fun no s'' hno => ?_
    refine Yields.expect fun s₃ => Yields.spanFrom fun span s₄ hspan => yields_pure ?_
    exact ⟨by rwa [hspan], htest, hyes, hno⟩
  · refine Yields.expect fun s' => Yields.spanFrom fun span s'' hspan => yields_pure ?_
    exact ⟨by rwa [hspan], htest, hyes, trivial⟩

/-- A statement with a fault is passed and left out. -/
theorem yields_block {ts : List Token} {fuel : Nat} (h : YieldsStatements ts fuel)
    (terminators : List TokenKind) (s : State) :
    Yields ts (always (block (fuel + 1) terminators)) s (Stmt.AllFrom ts) := by
  refine yields_always fun hs => ?_
  have hblock (s' : State) (hs' : s'.Within ts) :
      (block fuel terminators s').2.Within ts ∧
        Stmt.AllFrom ts (block fuel terminators s').1 := by
    obtain ⟨hin, hall⟩ := h.block terminators s' hs'
    exact ⟨hin, hall _ rfl⟩
  obtain ⟨hin, hstmt⟩ := h.statement s hs
  rw [Parser.block]
  split
  · exact ⟨hs, trivial⟩
  · rcases hrun : statement fuel s with ⟨_ | stmt, s'⟩
    · rw [hrun] at hin
      exact hblock _ (within_synchronize _ _ hin)
    · rw [hrun] at hin hstmt
      dsimp only
      split
      · obtain ⟨hin', hall⟩ := hblock s' hin
        exact ⟨hin', hstmt _ rfl, hall⟩
      · exact hblock _ (within_synchronize _ _ hin)

/-- With any fuel, what is read as a statement is made of tokens of the text. -/
theorem yields_statements (ts : List Token) : ∀ fuel, YieldsStatements ts fuel
  | 0 => by
    refine ⟨fun terminators s => yields_always fun hs => ⟨hs, trivial⟩, ?_, ?_, ?_⟩ <;>
      exact fun s => yields_exhausted
  | fuel + 1 => by
    have ih := yields_statements ts fuel
    constructor
    case block => exact fun terminators s => yields_block ih terminators s
    case statement =>
      intro s
      rw [Parser.statement]
      refine Yields.look fun _ => ?_
      split
      case h_3 => exact ih.conditional s
      case h_4 => exact ih.looping s
      case h_5 hkind =>
        split
        · exact yields_assignment ts fuel hkind
        · exact yields_expressionStatement ts fuel s
      all_goals first
        | exact yields_printing ts fuel s
        | exact yields_fail _
        | exact yields_expressionStatement ts fuel s
    case conditional =>
      intro s
      rw [conditional_succ]
      refine Yields.look fun hcur => Yields.advance fun s' => ?_
      refine (yields_expression ts fuel s').bind fun test s'' htest => Yields.expect fun s₃ => ?_
      refine (ih.block _ s₃).bind fun yes s₄ hyes => ?_
      exact yields_otherBranch ih ⟨_, hcur, rfl⟩ htest hyes s₄
    case looping =>
      intro s
      rw [Parser.looping]
      refine Yields.look fun hcur => Yields.advance fun s' => ?_
      refine (yields_expression ts fuel s').bind fun test s'' htest => Yields.expect fun s₃ => ?_
      refine (ih.block _ s₃).bind fun body s₄ hbody => Yields.expect fun s₅ => ?_
      refine Yields.spanFrom fun span s₆ hspan => yields_pure ?_
      exact ⟨⟨_, hcur, hspan.symm⟩, htest, hbody⟩

/-! ## Scripts -/

/-- The reader starts with the tokens of the text, those that are faulty left out. -/
theorem within_ofTokens (source : Bytes) :
    (State.ofTokens (tokenize source)).Within (tokenize source) := by
  obtain ⟨body, stop, htokens, hstop, -⟩ := tokenize_eq source
  rw [htokens]
  intro t ht
  rw [(ofTokens_spec body hstop).1] at ht
  exact (List.filter_sublist.append_right [stop]).subset ht

end Parser

/-- The tree of every text is made of its tokens, also of a text with faults. -/
theorem parsePartial_from (source : Bytes) : (parsePartial source).1.From (tokenize source) := by
  have hs := Parser.within_ofTokens source
  obtain ⟨hs', hall⟩ := (Parser.yields_statements (tokenize source)
    (Parser.fuelFor (tokenize source).length)).block [] (Parser.State.ofTokens (tokenize source)) hs
  exact ⟨⟨_, hs'.current, rfl⟩, hall _ rfl⟩

/-! ## Operators -/

/-- The machine has all operators of an expression that was read. -/
theorem Expr.From.supported {ts : List Token} : ∀ {e : Expr}, e.From ts → e.Supported
  | .number _ _, _ | .string _ _, _ | .bool _ _, _ | .ident _ _, _ => trivial
  | .group _ inner, h => supported (e := inner) h.2
  | .unary _ _ _, h => ⟨h.2.1, supported h.2.2⟩
  | .binary _ _ _ _, h => ⟨h.2.1, supported h.2.2.1, supported h.2.2.2⟩

mutual

theorem Stmt.From.supported {ts : List Token} : ∀ {s : Stmt}, s.From ts → s.Supported
  | .print _ _ value, h | .assign _ _ _ value, h | .expr _ value, h =>
    Expr.From.supported (e := value) h.2
  | .cond _ _ _ _, h =>
    ⟨h.2.1.supported, Stmt.AllFrom.supported h.2.2.1, Stmt.AllFrom.supported h.2.2.2⟩
  | .loop _ _ _, h => ⟨h.2.1.supported, Stmt.AllFrom.supported h.2.2⟩

theorem Stmt.AllFrom.supported {ts : List Token} : ∀ {ss : List Stmt}, Stmt.AllFrom ts ss →
    Stmt.AllSupported ss
  | [], _ => trivial
  | _ :: _, h => ⟨Stmt.From.supported h.1, Stmt.AllFrom.supported h.2⟩

end

/-! ## Names -/

/-- The names of variables in an expression. -/
def Expr.names : Expr → List Bytes
  | .number _ _ | .string _ _ | .bool _ _ => []
  | .ident _ name => [name]
  | .group _ inner => inner.names
  | .unary _ _ operand => operand.names
  | .binary _ _ left right => left.names ++ right.names

mutual

/-- The names of variables in a statement, those that are given a value included. -/
def Stmt.names : Stmt → List Bytes
  | .print _ _ value | .expr _ value => value.names
  | .assign _ name _ value => name :: value.names
  | .cond _ test yes no => test.names ++ (Stmt.namesOf yes ++ Stmt.namesOf no)
  | .loop _ test body => test.names ++ Stmt.namesOf body

/-- The names of variables in some statements. -/
def Stmt.namesOf : List Stmt → List Bytes
  | [] => []
  | s :: rest => s.names ++ Stmt.namesOf rest

end

/-- The names of variables in a script. -/
def Script.names (script : Script) : List Bytes := Stmt.namesOf script.statements

/-- The name is the literal of a token of the text. -/
def IsName (ts : List Token) (name : Bytes) : Prop :=
  ∃ t ∈ ts, t.kind = .identifier ∧ t.literal = name

/-- Each variable of an expression that was read is named by a token. -/
theorem Expr.From.names {ts : List Token} : ∀ {e : Expr}, e.From ts → ∀ name ∈ e.names,
    IsName ts name
  | .number _ _, _, _, hn | .string _ _, _, _, hn | .bool _ _, _, _, hn => by
    simp [Expr.names] at hn
  | .ident _ _, ⟨t, ht, hk, _, hl⟩, name, hn => by
    rw [List.mem_singleton.1 hn]
    exact ⟨t, ht, hk, hl⟩
  | .group _ inner, h, name, hn => names (e := inner) h.2 name hn
  | .unary _ _ operand, h, name, hn => names (e := operand) h.2.2 name hn
  | .binary _ _ _ _, h, name, hn =>
    (List.mem_append.1 hn).elim (names h.2.2.1 name) (names h.2.2.2 name)

mutual

/-- Each variable of a statement that was read is named by a token, be it used or given a value. -/
theorem Stmt.From.names {ts : List Token} : ∀ {s : Stmt}, s.From ts → ∀ name ∈ s.names,
    IsName ts name
  | .print _ _ value, h, name, hn | .expr _ value, h, name, hn =>
    Expr.From.names (e := value) h.2 name hn
  | .assign _ _ _ _, ⟨⟨t, ht, hk, _, hl⟩, hvalue⟩, name, hn => by
    rcases List.mem_cons.1 hn with rfl | hn
    · exact ⟨t, ht, hk, hl⟩
    · exact hvalue.names name hn
  | .cond _ _ _ _, h, name, hn => by
    rcases List.mem_append.1 hn with hn | hn
    · exact h.2.1.names name hn
    rcases List.mem_append.1 hn with hn | hn
    · exact Stmt.AllFrom.names h.2.2.1 name hn
    · exact Stmt.AllFrom.names h.2.2.2 name hn
  | .loop _ _ _, h, name, hn =>
    (List.mem_append.1 hn).elim (h.2.1.names name) (Stmt.AllFrom.names h.2.2 name)

theorem Stmt.AllFrom.names {ts : List Token} : ∀ {ss : List Stmt}, Stmt.AllFrom ts ss →
    ∀ name ∈ Stmt.namesOf ss, IsName ts name
  | [], _, _, hn => by simp [Stmt.namesOf] at hn
  | _ :: _, h, name, hn =>
    (List.mem_append.1 hn).elim (Stmt.From.names h.1 name) (Stmt.AllFrom.names h.2 name)

end

end Scriptlet
