import Scriptlet.Program.Compiler
import Scriptlet.Proofs.Literals
import Scriptlet.Proofs.Precedence
import Scriptlet.Proofs.Provenance
import Scriptlet.Proofs.Verification

/-!
# Code generation

A compiler that builds a program step by step goes the steps that `Script.emissions` lists, or fails
with its error (`Follows`). So what comes of a script does not depend on what the compiler did
before (`result_eq`). It fails exactly on an operator that the machine does not have, and its
programs are well-formed exactly if no name is empty : labels and jumps always are in order.

Main statement : `generation_verifies`. The tree of a text, with or without faults, is made of the
tokens of the text, and these have the operators and the names that it needs.
-/

namespace Scriptlet

/-! ## The steps of a compiler -/

namespace Compiler

variable {m m' : Compiling Unit} {f : Bytes → Compiling Unit} {n : Nat}
  {r r' : Except CompileError (List Emission × Nat)}
  {s : Nat → Except CompileError (List Emission × Nat)}

/-- The compiler after some steps of building, with `n` labels handed out. -/
def past (c : Compiler) (es : List Emission) (n : Nat) : Compiler :=
  ⟨es.foldl Program.add c.program, n⟩

/-- From `n` labels on, the compiler goes the steps of `r` up to its number of labels, or fails with
its error. -/
def Follows (m : Compiling Unit) (n : Nat) (r : Except CompileError (List Emission × Nat)) : Prop :=
  ∀ c : Compiler, c.labelCount = n →
    match r with
    | .ok (es, k) => m.run.run c = (.ok (), c.past es k)
    | .error e => (m.run.run c).1 = .error e

/-- The steps of `r`, and then those of `s` from the labels on that `r` leaves. -/
def andThen (r : Except CompileError (List Emission × Nat))
    (s : Nat → Except CompileError (List Emission × Nat)) :
    Except CompileError (List Emission × Nat) :=
  match r with
  | .error e => .error e
  | .ok (es, k) =>
    match s k with
    | .error e => .error e
    | .ok (es', l) => .ok (es ++ es', l)

/-- The second step starts from what the first leaves, unless that fails. -/
theorem run_bind {α β : Type} (m : Compiling α) (f : α → Compiling β) (c : Compiler) :
    (m >>= f).run.run c =
      match m.run.run c with
      | (.ok a, c') => (f a).run.run c'
      | (.error e, c') => (.error e, c') := by
  rw [ExceptT.run_bind, StateT.run_bind]
  generalize m.run.run c = q
  obtain ⟨_ | _, c'⟩ := q <;> rfl

/-- One builder after another goes the steps of both, the second from the labels on that the first
leaves. -/
theorem Follows.andThen (h : Follows m n r) (h' : ∀ k, Follows m' k (s k)) :
    Follows (do m; m') n (andThen r s) := by
  intro c hc
  specialize h c hc
  cases r with
  | error e =>
    have h : (m.run.run c).1 = .error e := h
    show ((do m; m' : Compiling Unit).run.run c).1 = .error e
    rw [run_bind]
    generalize m.run.run c = q at h
    obtain ⟨q, c'⟩ := q
    obtain rfl : q = .error e := h
    rfl
  | ok q =>
    obtain ⟨es, k⟩ := q
    have h : m.run.run c = (.ok (), c.past es k) := h
    have hrun : (do m; m' : Compiling Unit).run.run c = m'.run.run (c.past es k) := by
      rw [run_bind, h]
    have h' := h' k (c.past es k) rfl
    rw [← hrun] at h'
    unfold Compiler.andThen
    cases hs : s k with
    | error e => simpa only [hs] using h'
    | ok q => simpa only [hs, past, List.foldl_append] using h'

theorem Follows.of_eq (h : Follows m n r) (hr : r = r') : Follows m n r' := hr ▸ h

theorem follows_pure (n : Nat) : Follows (pure ()) n (.ok ([], n)) := by
  rintro c rfl
  rfl

theorem follows_emit (i : Instruction) (n : Nat) :
    Follows (emit i) n (.ok ([.instruction i], n)) := by
  rintro c rfl
  rfl

/-- A mark is one step, or none if the position is not known. -/
theorem follows_mark (p : Position) (n : Nat) : Follows (mark p) n (.ok (p.mark, n)) := by
  rintro c rfl
  show (mark p).run.run c = (.ok (), c.past p.mark c.labelCount)
  unfold mark Position.mark
  split <;> rfl

/-- An operator that the machine does not have ends the building. -/
theorem follows_throw (e : CompileError) (n : Nat) : Follows (throw e) n (.error e) := by
  rintro c rfl
  rfl

/-- Handing out a label is no step : it only makes the rest start at the next number. -/
theorem follows_newLabel (h : Follows (f (labelName n)) (n + 1) r) :
    Follows (newLabel >>= f) n r := by
  rintro c rfl
  exact h { c with labelCount := c.labelCount + 1 } rfl

/-- Several instructions are as many steps. -/
theorem follows_forM : ∀ (is : List Instruction) (n : Nat),
    Follows (is.forM emit) n (.ok (is.map .instruction, n))
  | [], n => follows_pure n
  | i :: is, n => (follows_emit i n).andThen (follows_forM is)

/-- The operands and the instructions of an expression. An expression hands out no label. -/
theorem follows_expr : ∀ (e : Expr) (n : Nat), Follows (expr e) n (e.emissions.map (·, n))
  | .number _ _, n | .string _ _, n | .bool _ _, n | .ident _ _, n => by
    rw [expr]
    exact (follows_mark _ n).andThen (follows_emit _)
  | .group span x, n => by
    rw [expr, Expr.emissions]
    refine ((follows_mark _ n).andThen (follows_expr x)).of_eq ?_
    cases x.emissions <;> rfl
  | .unary span op x, n => by
    rw [expr, Expr.emissions]
    cases unaryInstructions? op with
    | none =>
      refine ((follows_mark _ n).andThen fun k =>
        (follows_expr x k).andThen (follows_throw (.unaryOperator op))).of_eq ?_
      cases x.emissions <;> rfl
    | some code =>
      refine ((follows_mark _ n).andThen fun k =>
        (follows_expr x k).andThen (follows_forM code)).of_eq ?_
      simp only [List.append_assoc]
      cases x.emissions <;> rfl
  | .binary span op l r, n => by
    rw [expr, Expr.emissions]
    cases binaryOpcode? op with
    | none => exact (follows_mark _ n).andThen (follows_throw (.binaryOperator op))
    | some opcode =>
      refine ((follows_mark _ n).andThen fun k => (follows_expr l k).andThen fun k =>
        (follows_expr r k).andThen (follows_emit (.simple opcode))).of_eq ?_
      simp only [List.append_assoc]
      cases l.emissions <;> cases r.emissions <;> rfl

mutual

/-- The compiler goes the steps of a statement. -/
theorem follows_stmt : ∀ (s : Stmt) (n : Nat), Follows (stmt s) n (s.emissions n)
  | .print _ _ x, n | .assign _ _ _ x, n | .expr _ x, n => by
    rw [stmt, Stmt.emissions]
    refine ((follows_mark _ n).andThen fun k =>
      (follows_expr x k).andThen (follows_emit _)).of_eq ?_
    simp only [List.append_assoc]
    cases x.emissions <;> rfl
  | .cond span test yes no, n => by
    rw [stmt, Stmt.emissions]
    refine ((follows_mark _ n).andThen fun k => follows_newLabel <| follows_newLabel <|
      (follows_expr test (k + 2)).andThen fun l => (follows_emit _ l).andThen fun l =>
      (follows_stmts yes l).andThen fun l => (follows_emit _ l).andThen fun l =>
      (follows_emit _ l).andThen fun l => (follows_stmts no l).andThen (follows_emit _)).of_eq ?_
    cases test.emissions with
    | error e => rfl
    | ok ts =>
      simp only [andThen, Except.map, bind, Except.bind]
      cases Stmt.emissionsOf yes (n + 2) with
      | error e => rfl
      | ok ys =>
        simp only
        cases Stmt.emissionsOf no ys.2 with
        | error e => rfl
        | ok ns => simp [pure, Except.pure, Stmt.span]
  | .loop span test body, n => by
    rw [stmt, Stmt.emissions]
    refine ((follows_mark _ n).andThen fun k => follows_newLabel <| follows_newLabel <|
      (follows_emit _ (k + 2)).andThen fun l => (follows_expr test l).andThen fun l =>
      (follows_emit _ l).andThen fun l => (follows_stmts body l).andThen fun l =>
      (follows_emit _ l).andThen (follows_emit _)).of_eq ?_
    cases test.emissions with
    | error e => rfl
    | ok ts =>
      simp only [andThen, Except.map, bind, Except.bind]
      cases Stmt.emissionsOf body (n + 2) with
      | error e => rfl
      | ok bs => simp [pure, Except.pure, Stmt.span]

/-- Statements are gone through in their order, each from the labels on that are left to it. -/
theorem follows_stmts : ∀ (ss : List Stmt) (n : Nat), Follows (stmts ss) n (Stmt.emissionsOf ss n)
  | [], n => follows_pure n
  | s :: rest, n => by
    rw [stmts, Stmt.emissionsOf]
    refine ((follows_stmt s n).andThen (follows_stmts rest)).of_eq ?_
    cases s.emissions n with
    | error e => rfl
    | ok r =>
      obtain ⟨es, k⟩ := r
      simp only [andThen, bind, Except.bind]
      cases Stmt.emissionsOf rest k <;> rfl

end

/-- The steps of a script are those of its statements, then a mark for its end and the end of the
run. -/
theorem follows_script (s : Script) :
    Follows (script s) 0 (andThen (Stmt.emissionsOf s.statements 0) fun k =>
      .ok (s.span.stop.mark ++ [.instruction (.simple .halt)], k)) :=
  (follows_stmts s.statements 0).andThen fun k =>
    (follows_mark s.span.stop k).andThen (follows_emit (.simple .halt))

/-- What comes of a script does not depend on what the compiler kept. -/
theorem result_eq (c : Compiler) (s : Script) (name : Bytes) :
    c.result s name = s.compile name := by
  have h := follows_script s { program := { name := name } } rfl
  have hrun : c.result s name =
      match (script s).run.run { program := { name := name } } with
      | (.ok (), c') => .ok c'.program
      | (.error e, _) => .error e := by
    rw [result, compile, run_bind]
    show ((script s >>= fun _ => get >>= fun c => pure c.program).run.run
      { program := { name := name } }).1 = _
    rw [run_bind]
    generalize (script s).run.run { program := { name := name } } = q
    obtain ⟨_ | _, c'⟩ := q <;> rfl
  rw [hrun, Script.compile, Script.emissions]
  cases he : Stmt.emissionsOf s.statements 0 with
  | error e =>
    rw [he] at h
    generalize (script s).run.run { program := { name := name } } = q at h
    obtain ⟨q, c'⟩ := q
    obtain rfl : q = .error e := h
    rfl
  | ok es =>
    rw [he] at h
    rw [show (script s).run.run { program := { name := name } } = _ from h]
    simp only [bind, Except.bind, List.append_assoc]
    rfl

end Compiler

/-! ## Scripts without a program -/

/-- The expression is an operator that the machine does not have. -/
def Expr.Unsupported : Expr → Prop
  | .unary _ op _ => op ∉ [.minus, .plus, .tilde]
  | .binary _ op _ _ => binaryOpcode? op = none
  | _ => False

/-- An expression that the machine has is one without an operator that it does not have. -/
theorem Expr.supported_iff (e : Expr) : e.Supported ↔ ∀ x ∈ e.nodes, ¬x.Unsupported := by
  induction e with
  | number | string | bool | ident => simp [Supported, nodes, Unsupported]
  | group _ _ ih => simp [Supported, nodes, Unsupported, ih]
  | unary _ op _ ih =>
    simp only [Supported, nodes, List.forall_mem_cons, ih]
    exact and_congr_left' Decidable.not_not.symm
  | binary _ op _ _ ihl ihr =>
    simp [Supported, nodes, Unsupported, ihl, ihr, Option.isSome_iff_ne_none, or_imp, forall_and]

mutual

/-- A statement that the machine has is one without such an operator in its expressions. -/
theorem Stmt.supported_iff : ∀ s : Stmt, s.Supported ↔ ∀ x ∈ s.expressions, ¬x.Unsupported
  | .print _ _ value | .assign _ _ _ value | .expr _ value => value.supported_iff
  | .cond _ test yes no => by
    simp only [Stmt.Supported, Stmt.expressions, List.forall_mem_append, test.supported_iff,
      Stmt.allSupported_iff]
  | .loop _ test body => by
    simp only [Stmt.Supported, Stmt.expressions, List.forall_mem_append, test.supported_iff,
      Stmt.allSupported_iff]

theorem Stmt.allSupported_iff : ∀ ss : List Stmt,
    Stmt.AllSupported ss ↔ ∀ x ∈ Stmt.expressionsOf ss, ¬x.Unsupported
  | [] => by simp [Stmt.AllSupported, Stmt.expressionsOf]
  | s :: rest => by
    simp only [Stmt.AllSupported, Stmt.expressionsOf, List.forall_mem_append, s.supported_iff,
      Stmt.allSupported_iff rest]

end

/-- A script fails to compile exactly if an operator in it is one that the machine does not have. -/
theorem Script.compile_error_iff (script : Script) (name : Bytes) :
    (∃ e, script.compile name = .error e) ↔ ∃ x ∈ script.expressions, x.Unsupported := by
  have hiff : script.Supported ↔ ∀ x ∈ script.expressions, ¬x.Unsupported :=
    Stmt.allSupported_iff _
  constructor
  · rintro ⟨e, he⟩
    refine Classical.byContradiction fun hnone => ?_
    have hs : script.Supported := hiff.2 fun x hx hun => hnone ⟨x, hx, hun⟩
    obtain ⟨p, hp⟩ := Script.compile_of_supported hs name
    rw [hp] at he
    cases he
  · rintro ⟨x, hx, hun⟩
    cases hc : script.compile name with
    | error e => exact ⟨e, rfl⟩
    | ok p => exact absurd hun (hiff.1 (Script.code_of_compile hc).1 x hx)

/-! ## Well-formed code -/

/-- Every instruction has the operand that it needs. -/
def Complete (code : List Instruction) : Prop := ∀ i ∈ code, Program.operandProblems i = []

@[simp] theorem complete_nil : Complete [] := by simp [Complete]

@[simp] theorem complete_append (a b : List Instruction) :
    Complete (a ++ b) ↔ Complete a ∧ Complete b := List.forall_mem_append

@[simp] theorem complete_cons (i : Instruction) (code : List Instruction) :
    Complete (i :: code) ↔ Program.operandProblems i = [] ∧ Complete code := List.forall_mem_cons

@[simp] theorem operandProblems_push (v : Value) : Program.operandProblems (.push v) = [] := rfl

/-- An opcode that takes no operand makes a complete instruction by itself. -/
theorem operandProblems_simple {op : Opcode} (h : op.info.operand = .none) :
    Program.operandProblems (.simple op) = [] := by
  simp [Program.operandProblems, Instruction.simple, Opcode.ofByte?_byte, h]

/-- An opcode that takes a name is complete with any name that is not empty. -/
theorem operandProblems_named {op : Opcode} (h : op ∈ Opcode.named) (name : Bytes) :
    Program.operandProblems ⟨op.byte, none, name⟩ = [] ↔ name ≠ [] := by
  rw [Program.operandProblems, Opcode.ofByte?_byte]
  simp only [Opcode.named, List.mem_cons, List.not_mem_nil, or_false] at h
  rcases h with rfl | rfl | rfl | rfl | rfl <;> simp [Opcode.info]

/-- The labels that the compiler hands out have names, so its jumps are always complete. -/
theorem labelName_ne_nil (n : Nat) : labelName n ≠ [] := by
  have hfixed : Bytes.ofString "LBL" ≠ [] := by decide
  simp [labelName, hfixed]

@[simp] theorem operandProblems_label (n : Nat) :
    Program.operandProblems (.label (labelName n)) = [] :=
  (operandProblems_named (by decide) _).2 (labelName_ne_nil n)

@[simp] theorem operandProblems_jump (n : Nat) :
    Program.operandProblems (.jump (labelName n)) = [] :=
  (operandProblems_named (by decide) _).2 (labelName_ne_nil n)

@[simp] theorem operandProblems_jumpZero (n : Nat) :
    Program.operandProblems (.jumpZero (labelName n)) = [] :=
  (operandProblems_named (by decide) _).2 (labelName_ne_nil n)

@[simp] theorem operandProblems_loadGlobal (name : Bytes) :
    Program.operandProblems (.loadGlobal name) = [] ↔ name ≠ [] :=
  operandProblems_named (by decide) name

@[simp] theorem operandProblems_storeGlobal (name : Bytes) :
    Program.operandProblems (.storeGlobal name) = [] ↔ name ≠ [] :=
  operandProblems_named (by decide) name

/-- Operators become instructions without operands. -/
theorem complete_unary (op : TokenKind) : Complete ((unaryInstructions? op).getD []) := by
  cases op <;> simp [unaryInstructions?] <;> exact operandProblems_simple rfl

theorem complete_binary (op : TokenKind) :
    Complete ((binaryOpcode? op).map Instruction.simple).toList := by
  cases op <;> simp [binaryOpcode?] <;> exact operandProblems_simple rfl

/-- Only the variables of an expression can leave its code incomplete. -/
theorem Expr.complete_iff (e : Expr) : Complete e.code ↔ ∀ name ∈ e.names, name ≠ [] := by
  induction e with
  | number | string | bool | ident => simp [code, names]
  | group _ _ ih => exact ih
  | unary _ op _ ih => simpa [code, names, complete_unary] using ih
  | binary _ op _ _ ihl ihr =>
    simp only [code, names, complete_append, complete_binary, and_true, List.forall_mem_append,
      ihl, ihr]

mutual

/-- Only the variables of a statement can leave its code incomplete. -/
theorem Stmt.complete_iff : ∀ (s : Stmt) (n : Nat),
    Complete (s.code n) ↔ ∀ name ∈ s.names, name ≠ []
  | .print _ newline value, n => by
    have hop : Program.operandProblems (.simple (if newline then .println else .print)) = [] :=
      operandProblems_simple (by cases newline <;> rfl)
    simp only [Stmt.code, Stmt.names, complete_append, complete_cons, complete_nil, hop, and_true,
      value.complete_iff]
  | .assign _ name _ value, n => by
    simp only [Stmt.code, Stmt.names, complete_append, complete_cons, complete_nil, and_true,
      operandProblems_storeGlobal, value.complete_iff, List.forall_mem_cons]
    exact and_comm
  | .expr _ value, n => by
    have hop : Program.operandProblems (.simple .pop) = [] := operandProblems_simple rfl
    simp only [Stmt.code, Stmt.names, complete_append, complete_cons, complete_nil, hop, and_true,
      value.complete_iff]
  | .cond _ test yes no, n => by
    simp only [Stmt.code, Stmt.names, complete_append, complete_cons, complete_nil, and_true,
      true_and, operandProblems_jumpZero, operandProblems_jump, operandProblems_label,
      test.complete_iff, Stmt.completeOf_iff, List.forall_mem_append]
  | .loop _ test body, n => by
    simp only [Stmt.code, Stmt.names, complete_append, complete_cons, complete_nil, and_true,
      true_and, operandProblems_jumpZero, operandProblems_jump, operandProblems_label,
      test.complete_iff, Stmt.completeOf_iff, List.forall_mem_append]

theorem Stmt.completeOf_iff : ∀ (ss : List Stmt) (n : Nat),
    Complete (Stmt.codeOf n ss) ↔ ∀ name ∈ Stmt.namesOf ss, name ≠ []
  | [], n => by simp [Stmt.codeOf, Stmt.namesOf]
  | s :: rest, n => by
    simp only [Stmt.codeOf, Stmt.namesOf, complete_append, List.forall_mem_append, s.complete_iff,
      Stmt.completeOf_iff rest]

end

/-- Only the variables of a script can leave its code incomplete. -/
theorem Script.complete_iff (script : Script) :
    Complete script.code ↔ ∀ name ∈ script.names, name ≠ [] := by
  have hop : Program.operandProblems (.simple .halt) = [] := operandProblems_simple rfl
  simp only [Script.code, Script.names, complete_append, complete_cons, complete_nil, hop, and_true,
    Stmt.completeOf_iff]

/-- The last instruction of a script ends the run. -/
theorem Script.ended_of_code {script : Script} {p : Program} (h : p.code.toList = script.code) :
    ∃ i, p.code.back? = some i ∧ i.op = Opcode.halt.byte := by
  refine ⟨.simple .halt, ?_, rfl⟩
  rw [← Array.getLast?_toList, h, Script.code, List.getLast?_append]
  rfl

/-- A program with the code of a script is well-formed if no name in the script is empty. -/
theorem Script.wellFormed_iff {script : Script} {p : Program} (h : p.code.toList = script.code) :
    p.WellFormed ↔ ∀ name ∈ script.names, name ≠ [] := by
  have hlabels := script.labelled
  rw [← script.complete_iff, ← h]
  constructor
  · intro hp i hi
    exact (Program.operandProblems_eq_nil_iff i).2 ⟨hp.known i hi, hp.valued i hi, hp.named i hi⟩
  · intro hc
    have hoperand := fun i hi => (Program.operandProblems_eq_nil_iff i).1 (hc i hi)
    refine ⟨fun i hi => (hoperand i hi).1, fun i hi => (hoperand i hi).2.1,
      fun i hi => (hoperand i hi).2.2, ?_, fun i hi hop => ?_, ?_⟩
    · rw [h]
      exact hlabels.nodup
    · rw [h] at hi ⊢
      exact hlabels.closed i hi ((Program.isJump_iff _).2 hop)
    · exact Script.ended_of_code h

/-- A program is well-formed if its script is made of tokens of a text : names of variables are not
empty then. -/
theorem Script.From.wellFormed {source : Bytes} {script : Script} {p : Program}
    (h : script.From (tokenize source)) (hcode : p.code.toList = script.code) : p.WellFormed := by
  refine (Script.wellFormed_iff hcode).2 fun name hname => ?_
  obtain ⟨t, ht, hk, rfl⟩ := Stmt.AllFrom.names h.2 name hname
  exact (literal_of_identifier ht hk).1

/-- A compiler, in whatever state, fails on a script exactly if the script holds an operator that
the machine does not have. The program it makes otherwise passes its check exactly if no name in the
script is empty : its labels are distinct, its jumps lead to labels, and it ends the run. So every
text has a program that passes its check, made of its statements without faults. -/
theorem generation_verifies :
    (∀ (c : Compiler) (script : Script) (name : Bytes),
      ((∃ e, c.result script name = .error e) ↔ ∃ x ∈ script.expressions, x.Unsupported) ∧
        ∀ p, c.result script name = .ok p →
          (p.verifyMessage? = none ↔ ∀ name ∈ script.names, name ≠ []) ∧
          (labelNames p.code.toList).Nodup ∧
          (∀ i ∈ p.code.toList, Opcode.isJump i.op = true → i.name ∈ labelNames p.code.toList) ∧
          ∃ i, p.code.back? = some i ∧ i.op = Opcode.halt.byte) ∧
    ∀ (c : Compiler) (source name : Bytes),
      ∃ p, c.result (parsePartial source).1 name = .ok p ∧ p.verifyMessage? = none := by
  refine ⟨fun c script name => ?_, fun c source name => ?_⟩
  · simp only [c.result_eq]
    refine ⟨script.compile_error_iff name, fun p hp => ?_⟩
    have hcode := (Script.code_of_compile hp).2
    refine ⟨?_, ?_, ?_, Script.ended_of_code hcode⟩
    · rw [Program.verifyMessage?_eq_none_iff]
      exact Script.wellFormed_iff hcode
    · rw [hcode]
      exact script.labelled.nodup
    · rw [hcode]
      exact script.labelled.closed
  · rw [c.result_eq]
    obtain ⟨p, hp⟩ := Script.compile_of_supported
      (Stmt.AllFrom.supported (parsePartial_from source).2) name
    refine ⟨p, hp, ?_⟩
    rw [Program.verifyMessage?_eq_none_iff]
    exact (parsePartial_from source).wellFormed (Script.code_of_compile hp).2

/-- A text with a fault in its second statement, on a compiler that was used before, and a tree with
an empty name. -/
theorem generation_verifies_of_faulty_text :
    (∃ p, Compiler.result { labelCount := 7 } (parsePartial
        "while x do if y then print z elif a then b := 1 end end print ) c").1 "a" = .ok p ∧
      p.verifyMessage? = none) ∧
    ∃ p, Compiler.result {} ⟨default, [.expr default (.ident default [])]⟩ "a" = .ok p ∧
      p.verifyMessage? ≠ none := by
  refine ⟨generation_verifies.2 _ _ _, ?_⟩
  have h : Compiler.result {} ⟨default, [.expr default (.ident default [])]⟩ "a" =
      .ok { name := "a", code := #[.loadGlobal [], .simple .pop, .simple .halt] } := rfl
  refine ⟨_, h, fun hnone => ?_⟩
  have hnames := ((generation_verifies.1 _ _ _).2 _ h).1.1 hnone
  exact hnames [] (by decide) rfl

end Scriptlet
