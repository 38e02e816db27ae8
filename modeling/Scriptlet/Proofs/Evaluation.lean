import Scriptlet.Machine.Operator
import Scriptlet.Program.Compile
import Scriptlet.Text.Escape

/-!
# Evaluation of scripts

The meaning of a script, read off its tree without a machine. An expression has a value or fails
(`Expr.evaluate`). A statement changes the variables and the output (`Stmt.evaluate`). A loop may go
on forever, so an evaluation is granted a number of rounds, which each loop may use up anew; it
gives no answer if a loop needs more. More rounds do not change an answer
(`Stmt.evaluate_mono`), so a script ends in one way (`Script.EndsIn.unique`) or, if no number of
rounds is enough, diverges (`Script.Diverges`).
-/

namespace Scriptlet

/-- Why an evaluation cannot go on. -/
inductive Failure where
  /-- An operator met operands that it does not take. -/
  | operator (op : Opcode) (kinds : List ValueKind) (cause : RuntimeCause)
  /-- A variable was read that no statement had assigned. -/
  | undefined (name : Bytes)
  /-- A tree built by hand holds an operator that the language does not have. -/
  | meaningless (op : TokenKind)
  deriving DecidableEq, Repr

/-- The value of a binary operation. -/
def evaluateBinary (op : Opcode) (a b : Value) : Except Failure Value :=
  (Operator.binary op a b).mapError (.operator op [a.kind, b.kind])

/-- The value of a unary operator. A plus sign changes nothing, and the inverse of a value is its
exclusive disjunction with truth. -/
def evaluateUnary : TokenKind → Value → Except Failure Value
  | .minus, v => (Operator.negate v).mapError (.operator .neg [v.kind])
  | .plus, v => .ok v
  | .tilde, v => evaluateBinary .xor v (.bool true)
  | op, _ => .error (.meaningless op)

/-- The value of an expression, its operands from left to right. -/
def Expr.evaluate (globals : Table Value) : Expr → Except Failure Value
  | .number _ x => .ok (.number x)
  | .string _ s => .ok (.string s)
  | .bool _ b => .ok (.bool b)
  | .ident _ name =>
    match globals.find? name with
    | some v => .ok v
    | none => .error (.undefined name)
  | .group _ inner => inner.evaluate globals
  | .unary _ op operand => do
    let v ← operand.evaluate globals
    evaluateUnary op v
  | .binary _ op left right => do
    let a ← left.evaluate globals
    let b ← right.evaluate globals
    match binaryOpcode? op with
    | some opcode => evaluateBinary opcode a b
    | none => .error (.meaningless op)

/-- The text that a value is printed as, its escapes resolved. -/
def printedText (newline : Bool) (v : Value) : Bytes :=
  if newline then Escape.decode v.text ++ "\n" else Escape.decode v.text

/-- What a script changes : its variables and what it has printed. -/
structure Store where
  globals : Table Value := .empty
  output : Bytes := []

/-- The store with more text printed. -/
def Store.print (s : Store) (text : Bytes) : Store := { s with output := s.output ++ text }

/-- The store with a variable assigned. -/
def Store.assign (s : Store) (name : Bytes) (v : Value) : Store :=
  { s with globals := s.globals.insert name v }

/-- How an evaluation ends. -/
inductive Ending where
  | finished (s : Store)
  | failed (failure : Failure) (s : Store)

/-- What follows once an expression has its value. -/
def Store.after (s : Store) (value : Except Failure Value) (k : Value → Option Ending) :
    Option Ending :=
  match value with
  | .ok v => k v
  | .error failure => some (.failed failure s)

/-- What follows once an evaluation has finished, if it does. -/
def Ending.andThen (ending : Option Ending) (k : Store → Option Ending) : Option Ending :=
  match ending with
  | some (.finished s) => k s
  | ending => ending

/-- Repeats `body` while `test` holds, for at most the given number of rounds. -/
def repeatWhile (test : Table Value → Except Failure Value) (body : Store → Option Ending) :
    (rounds : Nat) → Store → Option Ending
  | 0, _ => none
  | rounds + 1, s =>
    s.after (test s.globals) fun v =>
      if v.isFalsy then some (.finished s)
      else Ending.andThen (body s) (repeatWhile test body rounds)

mutual

/-- The effect of a statement, each of its loops granted `rounds` rounds. -/
def Stmt.evaluate (rounds : Nat) : Stmt → Store → Option Ending
  | .print _ newline value, s =>
    s.after (value.evaluate s.globals) fun v =>
      some (.finished (s.print (printedText newline v)))
  | .assign _ name _ value, s =>
    s.after (value.evaluate s.globals) fun v => some (.finished (s.assign name v))
  | .expr _ value, s => s.after (value.evaluate s.globals) fun _ => some (.finished s)
  | .cond _ test yes no, s =>
    s.after (test.evaluate s.globals) fun v =>
      if v.isFalsy then Stmt.evaluateAll rounds no s else Stmt.evaluateAll rounds yes s
  | .loop _ test body, s =>
    repeatWhile (fun globals => test.evaluate globals) (fun s => Stmt.evaluateAll rounds body s)
      rounds s

/-- The effect of some statements, one after the other. -/
def Stmt.evaluateAll (rounds : Nat) : List Stmt → Store → Option Ending
  | [], s => some (.finished s)
  | stmt :: rest, s =>
    Ending.andThen (stmt.evaluate rounds s) fun s' => Stmt.evaluateAll rounds rest s'

end

/-- The effect of a script that starts without variables. -/
def Script.evaluate (rounds : Nat) (script : Script) : Option Ending :=
  Stmt.evaluateAll rounds script.statements {}

/-- The evaluation of the script ends, and this is how. -/
def Script.EndsIn (script : Script) (ending : Ending) : Prop :=
  ∃ rounds, script.evaluate rounds = some ending

/-- The evaluation of the script never ends. -/
def Script.Diverges (script : Script) : Prop := ∀ rounds, script.evaluate rounds = none

/-! ## Rounds

An answer to some number of rounds is the answer to every larger number.
-/

/-- Every answer of `f` is an answer of `g`. -/
def Extends (f g : Store → Option Ending) : Prop :=
  ∀ s ending, f s = some ending → g s = some ending

theorem Store.after_mono {s : Store} {value : Except Failure Value} {k k' : Value → Option Ending}
    (h : ∀ v ending, k v = some ending → k' v = some ending) {ending : Ending}
    (he : s.after value k = some ending) : s.after value k' = some ending := by
  cases value with
  | ok v => exact h v ending he
  | error failure => exact he

theorem Ending.andThen_mono {first first' : Option Ending} {k k' : Store → Option Ending}
    (hf : ∀ ending, first = some ending → first' = some ending) (hk : Extends k k')
    {ending : Ending} (he : Ending.andThen first k = some ending) :
    Ending.andThen first' k' = some ending := by
  cases first with
  | none => cases he
  | some e =>
    rw [hf e rfl]
    cases e with
    | finished s => exact hk s ending he
    | failed failure s => exact he

theorem repeatWhile_mono {test : Table Value → Except Failure Value}
    {body body' : Store → Option Ending} (hb : Extends body body') :
    ∀ {m n : Nat}, m ≤ n → Extends (repeatWhile test body m) (repeatWhile test body' n)
  | 0, _, _, _, _, he => by cases he
  | m + 1, 0, h, _, _, _ => by omega
  | m + 1, n + 1, h, s, ending, he => by
    refine Store.after_mono (fun v ending hv => ?_) he
    split at hv
    · next hf => rw [if_pos hf, hv]
    · next hf =>
      rw [if_neg hf]
      exact Ending.andThen_mono (hb s) (repeatWhile_mono hb (by omega)) hv

mutual

theorem Stmt.evaluate_mono {m n : Nat} (h : m ≤ n) :
    ∀ stmt : Stmt, Extends (stmt.evaluate m) (stmt.evaluate n)
  | .print _ _ _, _, _, he | .assign _ _ _ _, _, _, he | .expr _ _, _, _, he => he
  | .cond _ test yes no, s, _, he => by
    refine Store.after_mono (fun v ending hv => ?_) he
    split at hv
    · next hf =>
      rw [if_pos hf]
      exact Stmt.evaluateAll_mono h no s ending hv
    · next hf =>
      rw [if_neg hf]
      exact Stmt.evaluateAll_mono h yes s ending hv
  | .loop _ test body, s, ending, he =>
    repeatWhile_mono (fun s ending => Stmt.evaluateAll_mono h body s ending) h s ending he

theorem Stmt.evaluateAll_mono {m n : Nat} (h : m ≤ n) :
    ∀ stmts : List Stmt, Extends (Stmt.evaluateAll m stmts) (Stmt.evaluateAll n stmts)
  | [], _, _, he => he
  | stmt :: rest, s, _, he =>
    Ending.andThen_mono (Stmt.evaluate_mono h stmt s) (Stmt.evaluateAll_mono h rest) he

end

/-- A script ends in one way only. -/
theorem Script.EndsIn.unique {script : Script} {ending ending' : Ending}
    (h : script.EndsIn ending) (h' : script.EndsIn ending') : ending = ending' := by
  obtain ⟨m, hm⟩ := h
  obtain ⟨n, hn⟩ := h'
  have h₁ := Stmt.evaluateAll_mono (Nat.le_max_left m n) script.statements {} ending hm
  have h₂ := Stmt.evaluateAll_mono (Nat.le_max_right m n) script.statements {} ending' hn
  exact Option.some.inj (h₁.symm.trans h₂)

end Scriptlet
