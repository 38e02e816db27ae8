import Scriptlet.Proofs.Evaluation
import Scriptlet.Proofs.Labels
import Scriptlet.Proofs.Runs

/-!
# The machine follows the evaluation

The code of an expression that has a value leaves it on the stack, and the code of one that fails
fails in the same way (`turns_of_evaluate`, `fails_of_evaluate`). `Follows` says what the code of a
statement does for each answer of the evaluation : it comes to its end with the store of the answer,
or it fails, or, if the rounds are used up, it takes at least as many turns. `Stmt.follows` proves
this for every statement, by induction on the tree and, for a loop, on its rounds.
-/

namespace Scriptlet

/-- The table with every value mapped. -/
def Table.map {α β : Type} (f : α → β) (t : Table α) : Table β :=
  ⟨t.entries.map fun e => (e.1, f e.2)⟩

theorem Table.find?_map {α β : Type} (f : α → β) (t : Table α) (key : Bytes) :
    (t.map f).find? key = (t.find? key).map f := by
  obtain ⟨es⟩ := t
  induction es with
  | nil => rfl
  | cons e rest ih =>
    simp only [Table.find?, Table.map, List.map_cons, Table.findIn] at ih ⊢
    split
    · rfl
    · exact ih

/-- A key bound in a table is bound to the mapped value in the mapped one. -/
theorem Table.map_insert {α β : Type} (f : α → β) (t : Table α) (key : Bytes) (v : α) :
    (t.insert key v).map f = (t.map f).insert key (f v) := by
  obtain ⟨es⟩ := t
  simp only [Table.insert, Table.map, Table.mk.injEq]
  induction es with
  | nil => rfl
  | cons e rest ih =>
    simp only [Table.insertIn, List.map_cons]
    split
    · rfl
    · split
      · rfl
      · rw [List.map_cons, ih]

namespace Machine

variable {p : Program}

/-! ## States and stores -/

/-- The state `k` instructions further on, before their effect. -/
def State.past (m : State) (k : Nat) : State := { m with pc := m.pc + k, steps := m.steps + k }

/-- The state has the variables and the output of the store. -/
def State.Shows (m : State) (s : Store) : Prop :=
  m.globals = s.globals.map some ∧ m.printed = s.output

theorem State.Shows.find? {m : State} {s : Store} (h : m.Shows s) (name : Bytes) :
    m.globals.find? name = (s.globals.find? name).map some := by
  rw [h.1, Table.find?_map]

/-- A variable that is set on both sides. -/
theorem State.Shows.assign {m : State} {s : Store} (h : m.Shows s) (name : Bytes) (v : Value) :
    { m with globals := m.globals.insert name (some v) }.Shows (s.assign name v) := by
  refine ⟨?_, h.2⟩
  rw [h.1]
  exact (Table.map_insert some s.globals name v).symm

/-- A text that is printed on both sides. -/
theorem State.Shows.print {m : State} {s : Store} (h : m.Shows s) (text : Bytes) :
    (m.print text).Shows (s.print text) := by
  refine ⟨h.1, ?_⟩
  rw [State.printed_print, h.2]
  rfl

end Machine

/-- The failure of an evaluation that a fault of a run corresponds to. -/
def Fault.failure? : Fault → Option Failure
  | .runtime fault => (Opcode.ofByte? fault.op).map fun op => .operator op fault.kinds fault.cause
  | .internal ⟨_, _, name, .undefinedGlobal⟩ => some (.undefined name)
  | _ => none

namespace Machine

variable {p : Program}

/-- From `m` the run fails the way an evaluation does that leaves the store `s`. -/
def Fails (p : Program) (m : State) (failure : Failure) (s : Store) : Prop :=
  ∃ n m' fault m'', Turns p n m m' ∧ turn p m' = .failed fault m'' ∧
    fault.failure? = some failure ∧ m''.Shows s

theorem Fails.of_turns {n : Nat} {m m' : State} {failure : Failure} {s : Store}
    (h : Turns p n m m') (hf : Fails p m' failure s) : Fails p m failure s := by
  obtain ⟨k, m₁, fault, m₂, ht, hrest⟩ := hf
  exact ⟨n + k, m₁, fault, m₂, h.trans ht, hrest⟩

/-! ## Single instructions -/

theorem turn_push {m : State} {v : Value} (h : p.code[m.pc]? = some (.push v)) :
    turn p m = .running ((m.past 1).push (some v)) := by
  rw [turn_of_code h]
  simp only [execute, Instruction.push, Opcode.ofByte?_byte]
  rfl

theorem turn_loadGlobal {m : State} {name : Bytes} (h : p.code[m.pc]? = some (.loadGlobal name)) :
    turn p m = match m.globals.find? name with
      | some v => .running ((m.past 1).push v)
      | none => .failed (.internal ⟨Opcode.loadGlobal.byte, m.pc, name, .undefinedGlobal⟩)
          (m.past 1) := by
  rw [turn_of_code h]
  simp only [execute, Instruction.loadGlobal, Opcode.ofByte?_byte]
  rfl

theorem turn_neg {m : State} {v : Value} {rest : List (Option Value)}
    (h : p.code[m.pc]? = some (.simple .neg)) (hs : m.stack = some v :: rest) :
    turn p m = finish p (.simple .neg) { m.past 1 with stack := rest } [v.kind]
      (Operator.negate v) := by
  rw [turn_of_code h]
  simp only [execute, Instruction.simple, Opcode.ofByte?_byte, withOne, State.advance, hs]
  rfl

/-- An operator takes its operands from the stack, the second one first. -/
theorem turn_binary {m : State} {k : TokenKind} {op : Opcode} {a b : Value}
    {rest : List (Option Value)} (hk : binaryOpcode? k = some op)
    (h : p.code[m.pc]? = some (.simple op)) (hs : m.stack = some b :: some a :: rest) :
    turn p m = finish p (.simple op) { m.past 1 with stack := rest } [a.kind, b.kind]
      (Operator.binary op a b) := by
  rw [turn_of_code h]
  cases k <;> simp only [binaryOpcode?, Option.some.injEq, reduceCtorEq] at hk <;> subst hk <;>
    simp only [execute, Instruction.simple, Opcode.ofByte?_byte, withTwo, withOne, State.advance,
      hs] <;> rfl

theorem turn_pop {m : State} {v : Option Value} {rest : List (Option Value)}
    (h : p.code[m.pc]? = some (.simple .pop)) (hs : m.stack = v :: rest) :
    turn p m = .running { m.past 1 with stack := rest } := by
  rw [turn_of_code h]
  simp only [execute, Instruction.simple, Opcode.ofByte?_byte, withOne, State.advance, hs]
  rfl

theorem turn_print {m : State} {newline : Bool} {v : Value} {rest : List (Option Value)}
    (h : p.code[m.pc]? = some (.simple (if newline then .println else .print)))
    (hs : m.stack = some v :: rest) :
    turn p m = .running ({ m.past 1 with stack := rest }.print (printedText newline v)) := by
  rw [turn_of_code h]
  cases newline <;>
    simp only [execute, Instruction.simple, Opcode.ofByte?_byte, withOne, State.advance, hs] <;> rfl

theorem turn_storeGlobal {m : State} {name : Bytes} {v : Option Value} {rest : List (Option Value)}
    (h : p.code[m.pc]? = some (.storeGlobal name)) (hs : m.stack = v :: rest) :
    turn p m = .running
      { m.past 1 with stack := rest, globals := m.globals.insert name v } := by
  rw [turn_of_code h]
  simp only [execute, Instruction.storeGlobal, Opcode.ofByte?_byte, withOne, State.advance, hs]
  rfl

theorem turn_label {m : State} {name : Bytes} (h : p.code[m.pc]? = some (.label name)) :
    turn p m = .running (m.past 1) := by
  rw [turn_of_code h]
  simp only [execute, Instruction.label, Opcode.ofByte?_byte]
  rfl

theorem turn_jump {m : State} {name : Bytes} {target : Nat} (h : p.code[m.pc]? = some (.jump name))
    (ht : p.labels.find? name = some target) :
    turn p m = .running { m.past 1 with pc := target } := by
  rw [turn_of_code h]
  simp only [execute, Instruction.jump, Opcode.ofByte?_byte, Machine.jump, ht]
  rfl

/-- A falsy value on the stack sends the run to the label, any other one instruction on. -/
theorem turn_jumpZero {m : State} {name : Bytes} {v : Value} {rest : List (Option Value)}
    {target : Nat} (h : p.code[m.pc]? = some (.jumpZero name)) (hs : m.stack = some v :: rest)
    (ht : p.labels.find? name = some target) :
    turn p m = .running { m.past 1 with
      stack := rest, pc := if v.isFalsy then target else m.pc + 1 } := by
  rw [turn_of_code h]
  simp only [execute, Instruction.jumpZero, Opcode.ofByte?_byte, withOne, State.advance, hs,
    Machine.jump, ht, isFalsy]
  split <;> rfl

theorem turn_halt {m : State} (h : p.code[m.pc]? = some (.simple .halt)) :
    turn p m = .halted (m.past 1) := by
  rw [turn_of_code h]
  simp only [execute, Instruction.simple, Opcode.ofByte?_byte]
  rfl

/-! ## Expressions -/

/-- The fault of an operator tells its opcode, its operands and its cause. -/
theorem failure?_runtimeFault (op : Opcode) (m : State) (kinds : List ValueKind)
    (cause : RuntimeCause) :
    (runtimeFault p (.simple op) m kinds cause).failure? = some (.operator op kinds cause) := by
  simp [runtimeFault, Fault.failure?, Instruction.simple]

/-- An operation with a value leaves it on the stack. -/
theorem turn_of_finish {m : State} {op : Opcode} {rest : List (Option Value)}
    {kinds : List ValueKind} {result : Except RuntimeCause Value} {v : Value}
    (ht : turn p m = finish p (.simple op) { m.past 1 with stack := rest } kinds result)
    (hv : result.mapError (Failure.operator op kinds) = .ok v) :
    turn p m = .running ({ m.past 1 with stack := rest }.push (some v)) := by
  cases result with
  | ok w =>
    obtain rfl := Except.ok.inj hv
    exact ht
  | error cause => cases hv

/-- An operation that fails is a fault of the run. -/
theorem fails_of_finish {m : State} {s : Store} {op : Opcode} {rest : List (Option Value)}
    {kinds : List ValueKind} {result : Except RuntimeCause Value} {failure : Failure}
    (ht : turn p m = finish p (.simple op) { m.past 1 with stack := rest } kinds result)
    (hf : result.mapError (Failure.operator op kinds) = .error failure) (hm : m.Shows s) :
    Fails p m failure s := by
  cases result with
  | ok w => cases hf
  | error cause =>
    obtain rfl := Except.error.inj hf
    exact ⟨0, m, _, _, .refl m, ht, failure?_runtimeFault op _ kinds cause, hm⟩

/-- Truth goes on the stack, and the exclusive disjunction takes it with the value below it. -/
theorem turn_invert {m : State} {v : Value} {rest : List (Option Value)}
    (hc : p.Has m.pc [.push (.bool true), .simple .xor]) (hs : m.stack = some v :: rest) :
    turn p ((m.past 1).push (some (.bool true))) =
      finish p (.simple .xor) { (m.past 1).push (some (.bool true)) |>.past 1 with stack := rest }
        [v.kind, .bool] (Operator.binary .xor v (.bool true)) :=
  turn_binary (k := .xorWord) rfl hc.tail.head (by rw [← hs]; rfl)

/-- The code of a unary operator replaces the operand by the value. -/
theorem turns_of_evaluateUnary {m : State} {op : TokenKind} {v w : Value}
    {rest : List (Option Value)} (hc : p.Has m.pc ((unaryInstructions? op).getD []))
    (hs : m.stack = some v :: rest) (hv : evaluateUnary op v = .ok w) :
    Turns p ((unaryInstructions? op).getD []).length m
      ({ m.past ((unaryInstructions? op).getD []).length with stack := rest }.push (some w)) := by
  unfold evaluateUnary at hv
  split at hv
  · exact .single (turn_of_finish (turn_neg hc.head hs) hv)
  · obtain rfl := Except.ok.inj hv
    have hm : { m with stack := rest }.push (some v) = m := by
      rw [State.push, ← hs]
    show Turns p 0 m ({ m with stack := rest }.push (some v))
    rw [hm]
    exact .refl m
  · exact .head (turn_push hc.head) (.single (turn_of_finish (turn_invert hc hs) hv))
  · cases hv

/-- An operator that fails on its operand fails in its code. -/
theorem fails_of_evaluateUnary {m : State} {s : Store} {op : TokenKind} {v : Value}
    {rest : List (Option Value)} {failure : Failure}
    (hc : p.Has m.pc ((unaryInstructions? op).getD [])) (hop : op ∈ [.minus, .plus, .tilde])
    (hs : m.stack = some v :: rest) (hf : evaluateUnary op v = .error failure) (hm : m.Shows s) :
    Fails p m failure s := by
  unfold evaluateUnary at hf
  split at hf
  · exact fails_of_finish (turn_neg hc.head hs) hf hm
  · cases hf
  · exact .of_turns (.single (turn_push hc.head)) (fails_of_finish (turn_invert hc hs) hf hm)
  · next h₁ h₂ h₃ =>
    simp only [List.mem_cons, List.not_mem_nil, or_false] at hop
    rcases hop with rfl | rfl | rfl
    · exact absurd rfl h₁
    · exact absurd rfl h₂
    · exact absurd rfl h₃

theorem code_binary {op : TokenKind} {opcode : Opcode} (h : binaryOpcode? op = some opcode) :
    ((binaryOpcode? op).map Instruction.simple).toList = [.simple opcode] := by
  rw [h]
  rfl

/-- The code of an expression with a value leaves the value on the stack. -/
theorem turns_of_evaluate {s : Store} : ∀ {e : Expr} {m : State} {v : Value}, p.Has m.pc e.code →
    m.Shows s → e.evaluate s.globals = .ok v →
      Turns p e.code.length m ((m.past e.code.length).push (some v))
  | .number _ _, m, v, hc, _, hv | .string _ _, m, v, hc, _, hv | .bool _ _, m, v, hc, _, hv => by
    obtain rfl := Except.ok.inj hv
    exact .single (turn_push hc.head)
  | .ident _ name, m, v, hc, hm, hv => by
    have ht := turn_loadGlobal hc.head
    rw [hm.find?] at ht
    unfold Expr.evaluate at hv
    cases hg : s.globals.find? name with
    | none => simp [hg] at hv
    | some w =>
      simp only [hg] at hv ht
      obtain rfl := Except.ok.inj hv
      exact .single ht
  | .group _ inner, m, v, hc, hm, hv => turns_of_evaluate (e := inner) hc hm hv
  | .unary _ op operand, m, v, hc, hm, hv => by
    obtain ⟨w, hw, hv⟩ := exists_ok_of_bind hv
    have h₁ := turns_of_evaluate hc.left hm hw
    have h₂ := turns_of_evaluateUnary
      (m := (m.past operand.code.length).push (some w)) hc.right rfl hv
    refine (h₁.trans h₂).congr (List.length_append).symm ?_
    simp [Expr.code, State.past, State.push, Nat.add_assoc]
  | .binary _ op left right, m, v, hc, hm, hv => by
    obtain ⟨a, ha, hv⟩ := exists_ok_of_bind hv
    obtain ⟨b, hb, hv⟩ := exists_ok_of_bind hv
    cases hop : binaryOpcode? op with
    | none => simp [hop] at hv
    | some opcode =>
      simp only [hop] at hv
      rw [Expr.code, code_binary hop] at hc
      have h₁ := turns_of_evaluate hc.left hm ha
      have h₂ := turns_of_evaluate
        (m := (m.past left.code.length).push (some a)) hc.right.left hm hb
      have h₃ := turn_of_finish (turn_binary hop
        (m := ((((m.past left.code.length).push (some a)).past right.code.length).push (some b)))
        hc.right.right.head rfl) hv
      refine ((h₁.trans h₂).snoc h₃).congr ?_ ?_
      · simp [Expr.code, hop, Nat.add_assoc]
      · simp [Expr.code, hop, State.past, State.push, Nat.add_assoc]

/-- The code of an expression that fails fails in the same way. -/
theorem fails_of_evaluate {s : Store} : ∀ {e : Expr} {m : State} {failure : Failure},
    e.Supported → p.Has m.pc e.code → m.Shows s → e.evaluate s.globals = .error failure →
      Fails p m failure s
  | .number _ _, _, _, _, _, _, hf | .string _ _, _, _, _, _, _, hf
  | .bool _ _, _, _, _, _, _, hf => by cases hf
  | .ident _ name, m, failure, _, hc, hm, hf => by
    have ht := turn_loadGlobal hc.head
    rw [hm.find?] at ht
    unfold Expr.evaluate at hf
    cases hg : s.globals.find? name with
    | some w => simp [hg] at hf
    | none =>
      simp only [hg] at hf ht
      obtain rfl := Except.error.inj hf
      exact ⟨0, m, _, _, .refl m, ht, rfl, hm⟩
  | .group _ inner, m, _, hs, hc, hm, hf => fails_of_evaluate (e := inner) hs hc hm hf
  | .unary _ op operand, m, failure, hs, hc, hm, hf => by
    unfold Expr.evaluate at hf
    cases hw : operand.evaluate s.globals with
    | error g =>
      simp only [hw] at hf
      obtain rfl := Except.error.inj hf
      exact fails_of_evaluate hs.2 hc.left hm hw
    | ok w =>
      simp only [hw] at hf
      exact .of_turns (turns_of_evaluate hc.left hm hw)
        (fails_of_evaluateUnary hc.right hs.1 rfl hf hm)
  | .binary _ op left right, m, failure, hs, hc, hm, hf => by
    obtain ⟨opcode, hop⟩ := Option.isSome_iff_exists.1 hs.1
    rw [Expr.code, code_binary hop] at hc
    unfold Expr.evaluate at hf
    cases ha : left.evaluate s.globals with
    | error g =>
      simp only [ha] at hf
      obtain rfl := Except.error.inj hf
      exact fails_of_evaluate hs.2.1 hc.left hm ha
    | ok a =>
      have h₁ := turns_of_evaluate hc.left hm ha
      cases hb : right.evaluate s.globals with
      | error g =>
        simp only [ha, hb] at hf
        obtain rfl := Except.error.inj hf
        exact .of_turns h₁ (fails_of_evaluate hs.2.2 hc.right.left hm hb)
      | ok b =>
        simp only [ha, hb, hop] at hf
        have h₂ := turns_of_evaluate
          (m := (m.past left.code.length).push (some a)) hc.right.left hm hb
        exact .of_turns (h₁.trans h₂)
          (fails_of_finish (turn_binary hop hc.right.right.head rfl) hf hm)

/-! ## Statements -/

/-- What the machine does from `m` on for an answer of the evaluation : it comes to `stop` with the
given stack and the store of the answer, or it fails, or it takes at least `rounds` turns. -/
def Follows (p : Program) (m : State) (stop : Nat) (stack : List (Option Value)) (rounds : Nat) :
    Option Ending → Prop
  | some (.finished s) => ∃ n m', Turns p n m m' ∧ m'.pc = stop ∧ m'.stack = stack ∧ m'.Shows s
  | some (.failed failure s) => Fails p m failure s
  | none => ∃ n m', rounds ≤ n ∧ Turns p n m m'

/-- From `start` the machine comes to `stop` and changes nothing on the way. -/
def Glides (p : Program) (start stop : Nat) : Prop :=
  ∀ m : State, m.pc = start → ∃ n m', Turns p n m m' ∧ m'.pc = stop ∧ m'.stack = m.stack ∧
    ∀ s, m.Shows s → m'.Shows s

variable {m : State} {stop rounds : Nat} {stack : List (Option Value)} {ending : Option Ending}

/-- What follows after some turns follows, and these turns count as rounds. -/
theorem Follows.of_turns {n rounds' : Nat} {m' : State} (ht : Turns p n m m')
    (hr : rounds' ≤ n + rounds) (h : Follows p m' stop stack rounds ending) :
    Follows p m stop stack rounds' ending := by
  match ending, h with
  | some (.finished s), h =>
    obtain ⟨k, m'', hk, hrest⟩ := h
    exact ⟨n + k, m'', ht.trans hk, hrest⟩
  | some (.failed failure s), h => exact Fails.of_turns ht h
  | none, h =>
    obtain ⟨k, m'', hle, hk⟩ := h
    exact ⟨n + k, m'', by omega, ht.trans hk⟩

theorem Follows.of_turn {m' : State} (ht : turn p m = .running m')
    (h : Follows p m' stop stack rounds ending) : Follows p m stop stack rounds ending :=
  h.of_turns (.single ht) (by omega)

theorem Follows.congr {stop' : Nat} (h : Follows p m stop stack rounds ending)
    (hs : stop = stop') : Follows p m stop' stack rounds ending := hs ▸ h

/-- A run that follows for some rounds follows for fewer. -/
theorem Follows.mono {rounds' : Nat} (hr : rounds' ≤ rounds)
    (h : Follows p m stop stack rounds ending) : Follows p m stop stack rounds' ending :=
  h.of_turns (.refl m) (by omega)

/-- One more piece of code after the end that an evaluation comes to. -/
theorem Follows.andThen {mid : Nat} {k : Store → Option Ending}
    (h : Follows p m mid stack rounds ending)
    (hk : ∀ m' s, m'.pc = mid → m'.stack = stack → m'.Shows s →
      Follows p m' stop stack rounds (k s)) :
    Follows p m stop stack rounds (Ending.andThen ending k) := by
  match ending, h with
  | some (.finished s), h =>
    obtain ⟨n, m', ht, hpc, hstk, hs⟩ := h
    exact (hk m' s hpc hstk hs).of_turns ht (by omega)
  | some (.failed failure s), h => exact h
  | none, h => exact h

/-- At the end of an evaluation the machine may glide on. -/
theorem Follows.glide {mid : Nat} (h : Follows p m mid stack rounds ending)
    (hg : Glides p mid stop) : Follows p m stop stack rounds ending := by
  match ending, h with
  | some (.finished s), h =>
    obtain ⟨n, m', ht, hpc, hstk, hs⟩ := h
    obtain ⟨k, m'', ht', hpc', hstk', hs'⟩ := hg m' hpc
    exact ⟨n + k, m'', ht.trans ht', hpc', hstk'.trans hstk, hs' s hs⟩
  | some (.failed failure s), h => exact h
  | none, h => exact h

theorem Glides.trans {start mid : Nat} (h₁ : Glides p start mid) (h₂ : Glides p mid stop) :
    Glides p start stop := by
  intro m hm
  obtain ⟨n, m', ht, hpc, hstk, hs⟩ := h₁ m hm
  obtain ⟨k, m'', ht', hpc', hstk', hs'⟩ := h₂ m' hpc
  exact ⟨n + k, m'', ht.trans ht', hpc', hstk'.trans hstk, fun s h => hs' s (hs s h)⟩

theorem glides_label {pc : Nat} {name : Bytes} (h : p.code[pc]? = some (.label name)) :
    Glides p pc (pc + 1) := by
  rintro m rfl
  exact ⟨1, _, .single (turn_label h), rfl, rfl, fun s hs => hs⟩

theorem glides_jump {pc target : Nat} {name : Bytes} (h : p.code[pc]? = some (.jump name))
    (ht : p.labels.find? name = some target) : Glides p pc target := by
  rintro m rfl
  exact ⟨1, _, .single (turn_jump h ht), rfl, rfl, fun s hs => hs⟩

/-- The code of an expression, with what follows once its value is on the stack. -/
theorem follows_after {s : Store} {e : Expr} {k : Value → Option Ending} (he : e.Supported)
    (hc : p.Has m.pc e.code) (hm : m.Shows s)
    (hk : ∀ v, Follows p ((m.past e.code.length).push (some v)) stop stack rounds (k v)) :
    Follows p m stop stack rounds (s.after (e.evaluate s.globals) k) := by
  cases hv : e.evaluate s.globals with
  | ok v => exact (hk v).of_turns (turns_of_evaluate hc hm hv) (by omega)
  | error failure => exact fails_of_evaluate he hc hm hv

/-- Every label of the program is found at its place. -/
def Resolves (p : Program) : Prop :=
  ∀ {pc : Nat} {name : Bytes}, p.code[pc]? = some (.label name) → p.labels.find? name = some pc

/-- The evaluation that ends in `ending` is followed by `code` wherever it stands. -/
def CodeFollows (p : Program) (code : List Instruction) (rounds : Nat) (s : Store)
    (ending : Option Ending) : Prop :=
  ∀ (pc : Nat) (m : State), p.Has pc code → m.pc = pc → m.Shows s →
    Follows p m (pc + code.length) m.stack rounds ending

/-- One of two branches, chosen by the value of the test. -/
theorem follows_cond {s : Store} {test : Expr} {yes no : List Instruction} {other done : Bytes}
    {first second : Option Ending} (hr : Resolves p) (ht : test.Supported)
    (hyes : CodeFollows p yes rounds s first) (hno : CodeFollows p no rounds s second) :
    CodeFollows p (test.code ++ .jumpZero other :: (yes ++ .jump done :: .label other ::
      (no ++ [.label done]))) rounds s
      (s.after (test.evaluate s.globals) fun v => if v.isFalsy then second else first) := by
  rintro pc m hc rfl hm
  have hj := hc.right
  have hrest := hj.tail.right
  have hother := hrest.tail.head
  have hdone := hrest.tail.tail.right.head
  have hend := glides_label hdone
  refine follows_after ht hc.left hm fun v => ?_
  have hturn := turn_jumpZero (m := (m.past test.code.length).push (some v)) hj.head rfl
    (hr hother)
  by_cases hv : v.isFalsy
  · rw [if_pos hv] at hturn ⊢
    have h :=
      (hno _ { m.past (test.code.length + 2) with pc := _ } hrest.tail.tail.left rfl hm).glide hend
    refine .of_turn hturn (.of_turn (turn_label hother) (h.congr ?_))
    simp only [List.length_append, List.length_cons, List.length_nil]
    omega
  · rw [if_neg hv] at hturn ⊢
    have h := (hyes _ { m.past (test.code.length + 1) with pc := _ } hj.tail.left rfl hm).glide
      ((glides_jump hrest.head (hr hdone)).trans hend)
    refine .of_turn hturn (h.congr ?_)
    simp only [List.length_append, List.length_cons, List.length_nil]
    omega

/-- A loop, by induction on its rounds. A round passes at least the label at the top, so `k` rounds
take `k` turns. -/
theorem follows_loop {test : Expr} {body : List Instruction} {top done : Bytes}
    {run : Store → Option Ending} (hr : Resolves p) (ht : test.Supported)
    (hbody : ∀ s, CodeFollows p body rounds s (run s)) :
    ∀ (k : Nat), k ≤ rounds → ∀ s : Store,
      CodeFollows p (.label top :: (test.code ++ .jumpZero done :: (body ++
        [.jump top, .label done]))) k s
        (repeatWhile (fun globals => test.evaluate globals) run k s)
  | 0, _, s => fun pc m _ _ _ => ⟨0, m, Nat.le_refl 0, .refl m⟩
  | k + 1, hk, s => by
    rintro pc m hc rfl hm
    have hj := hc.tail.right
    have hback := hj.tail.right
    have hdone := hback.tail.head
    suffices h : Follows p (m.past 1) _ m.stack k _ from
      h.of_turns (.single (turn_label hc.head)) (by omega)
    refine follows_after ht hc.tail.left hm fun v => ?_
    have hturn := turn_jumpZero (m := ((m.past 1).past test.code.length).push (some v)) hj.head rfl
      (hr hdone)
    by_cases hv : v.isFalsy
    · rw [if_pos hv] at hturn ⊢
      refine .of_turn hturn ⟨1, _, .single (turn_label hdone), ?_, rfl, hm⟩
      simp only [State.past, List.length_append, List.length_cons, List.length_nil]
      omega
    · rw [if_neg hv] at hturn ⊢
      refine .of_turn hturn (.andThen (.mono (by omega) (hbody s _ _ hj.tail.left rfl hm))
        fun m' s' hpc hstk hs => ?_)
      have hjump := turn_jump (hpc ▸ hback.head) (hr hc.head)
      have hnext := follows_loop hr ht hbody k (by omega) s' m.pc { m'.past 1 with pc := m.pc }
        hc rfl hs
      refine .of_turn hjump ?_
      rw [← show m'.stack = m.stack from hstk]
      exact hnext

mutual

/-- The code of a statement follows its evaluation. -/
theorem follows_stmt (hr : Resolves p) (rounds : Nat) : ∀ (stmt : Stmt) (n : Nat) (s : Store),
    stmt.Supported → CodeFollows p (stmt.code n) rounds s (stmt.evaluate rounds s)
  | .print _ newline value, n, s, h => by
    rintro pc m hc rfl hm
    refine follows_after h hc.left hm fun v => ?_
    refine ⟨1, _, .single (turn_print hc.right.head rfl), ?_, rfl, hm.print _⟩
    simp [Stmt.code, State.print, State.past, State.push, Nat.add_assoc]
  | .assign _ name _ value, n, s, h => by
    rintro pc m hc rfl hm
    refine follows_after h hc.left hm fun v => ?_
    refine ⟨1, _, .single (turn_storeGlobal hc.right.head rfl), ?_, rfl, hm.assign name v⟩
    simp [Stmt.code, State.past, State.push, Nat.add_assoc]
  | .expr _ value, n, s, h => by
    rintro pc m hc rfl hm
    refine follows_after h hc.left hm fun v => ?_
    refine ⟨1, _, .single (turn_pop hc.right.head rfl), ?_, rfl, hm⟩
    simp [Stmt.code, State.past, State.push, Nat.add_assoc]
  | .cond _ test yes no, n, s, h =>
    follows_cond hr h.1 (follows_stmts hr rounds yes _ s h.2.1)
      (follows_stmts hr rounds no _ s h.2.2)
  | .loop _ test body, n, s, h =>
    follows_loop hr h.1 (fun s => follows_stmts hr rounds body _ s h.2) rounds (Nat.le_refl _) s

/-- The code of some statements follows their evaluation. -/
theorem follows_stmts (hr : Resolves p) (rounds : Nat) :
    ∀ (stmts : List Stmt) (n : Nat) (s : Store), Stmt.AllSupported stmts →
      CodeFollows p (Stmt.codeOf n stmts) rounds s (Stmt.evaluateAll rounds stmts s)
  | [], n, s, _ => fun pc m _ hpc hm => ⟨0, m, .refl m, hpc, rfl, hm⟩
  | stmt :: rest, n, s, h => by
    rintro pc m hc rfl hm
    have h₁ := follows_stmt hr rounds stmt n s h.1 m.pc m hc.left rfl hm
    refine h₁.andThen fun m' s' hpc hstk hs => ?_
    have h₂ := follows_stmts hr rounds rest (n + stmt.labelCount) s' h.2 _ m' hc.right hpc hs
    rw [hstk] at h₂
    refine h₂.congr ?_
    rw [Stmt.codeOf, List.length_append]
    omega

end

end Machine

end Scriptlet
