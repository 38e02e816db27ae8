import Scriptlet.Proofs.Depth
import Scriptlet.Proofs.Occurrences
import Scriptlet.Proofs.Simulation
import Scriptlet.Proofs.Truncation
import Scriptlet.Syntax.Analysis

/-!
# Code that never comes to its end

A run comes to an instruction that is no label from the one in front of it (`Machine.previous`). So
what stands on the stack at the last instruction of an expression is read off the instructions
before it. For the expressions that the analysis of a script warns about, that instruction cannot go
on : a negation or an inversion meets a literal that it does not take, a division meets a zero, and
a variable has no value since no statement assigns it (`Machine.assigned_of_visits`). Their code is
fruitless (`Warning.IsOn.fruitless`) : no run comes to its end, and a run that enters it ends in it.
-/

namespace Scriptlet

namespace Machine

variable {p : Program} {labels : Table Nat} {i : Instruction} {op : Opcode} {s s' : State}
  {script : Script} {limit : Nat} {c₀ c : Context} {k : Nat}

/-! ## How a run comes to a place -/

/-- An instruction that goes on leads behind it, or it jumps to the label that it names. -/
theorem pc_of_effect (h : Effect labels i s op s') : s'.pc = s.pc ∧ op ≠ .jump ∨
    labels.find? i.name = some s'.pc ∧
      (op = .jump ∨ op = .jumpZero ∧ ∃ v rest, s.stack = v :: rest ∧ isFalsy v = true) := by
  cases h with
  | jump ht => exact Or.inr ⟨ht, Or.inl rfl⟩
  | jumpZero hs hv ht => exact Or.inr ⟨ht, Or.inr ⟨rfl, _, _, hs, hv⟩⟩
  | binary h2 =>
    refine Or.inl ⟨rfl, ?_⟩
    rintro rfl
    exact absurd h2 (by decide)
  | _ => exact Or.inl ⟨rfl, by simp⟩

theorem effect_of_execute (h : execute p labels i s = .running s') :
    ∃ op, Opcode.ofByte? i.op = some op ∧ Effect labels i s op s' := by
  cases hop : Opcode.ofByte? i.op with
  | none => simp [execute, hop] at h
  | some op => exact ⟨op, rfl, effect_of_running hop h⟩

/-- A step of a run of a script leads behind the instruction, or to a label with the name that the
instruction gives. -/
theorem place_of_running (hp : p.code.toList = script.code) (hi : p.code[s.pc]? = some i)
    (h : execute p p.labels i s.advance = .running s') :
    s'.pc = s.pc + 1 ∧ i.op ≠ Opcode.jump.byte ∨
      ∃ j, p.code[s'.pc]? = some j ∧ j.op = Opcode.label.byte ∧ j.name = i.name ∧
        (i.op = Opcode.jump.byte ∨ i.op = Opcode.jumpZero.byte ∧
          ∃ v rest, s.stack = v :: rest ∧ isFalsy v = true) := by
  obtain ⟨op, hop, heffect⟩ := effect_of_execute h
  rcases pc_of_effect heffect with ⟨hpc, hne⟩ | ⟨htarget, hjump⟩
  · refine Or.inl ⟨hpc, fun hbyte => hne ?_⟩
    rw [hbyte, Opcode.ofByte?_byte] at hop
    exact (Option.some.inj hop).symm
  · have hmem : i ∈ p.code.toList := List.mem_of_getElem? (by rw [Array.getElem?_toList, hi])
    have hisJump := isJump_of_ofByte? hop (hjump.imp (fun h => h) And.left)
    obtain ⟨target, j, hfind, hcode, hlabel, hname⟩ := Script.exists_target hp hmem hisJump
    obtain rfl := Option.some.inj (htarget.symm.trans hfind)
    refine Or.inr ⟨j, hcode, hlabel, hname, ?_⟩
    rw [← byte_of_ofByte? hop]
    exact hjump.imp (congrArg _) fun ⟨hz, hs⟩ => ⟨congrArg _ hz, hs⟩

/-- A run comes to an instruction that is no label from the one in front of it. -/
theorem previous (hp : p.code.toList = script.code) (hv : Visits p limit c₀ c s)
    (hpc : s.pc = k + 1) (hk : p.Inline (k + 1)) : ∃ c' s' i, Visits p limit c₀ c' s' ∧ s'.pc = k ∧
      p.code[k]? = some i ∧ execute p p.labels i s'.advance = .running s := by
  cases hv with
  | start => cases hpc
  | @next c' _ s' _ i hv' hf he =>
    rcases place_of_running hp hf.1 he with ⟨hnext, -⟩ | ⟨j, hj, hlabel, -⟩
    · obtain rfl : s'.pc = k := by omega
      exact ⟨c', s', i, hv', rfl, hf.1, he⟩
    · obtain ⟨j', hj', hne⟩ := hk
      rw [hpc, hj'] at hj
      obtain rfl := Option.some.inj hj
      exact absurd hlabel hne

/-- Behind an instruction that pushes a value, the value is on top of what was on the stack. -/
theorem pushed (hp : p.code.toList = script.code) (hv : Visits p limit c₀ c s)
    (hpc : s.pc = k + 1) (hk : p.Inline (k + 1)) {v : Value} (hi : p.code[k]? = some (.push v)) :
    ∃ c' s', Visits p limit c₀ c' s' ∧ s'.pc = k ∧ s.stack = some v :: s'.stack := by
  obtain ⟨c', s', i, hv', rfl, hi', he⟩ := previous hp hv hpc hk
  obtain rfl := Option.some.inj (hi.symm.trans hi')
  have hs := (turn_of_code hi).symm.trans (turn_push hi)
  rw [he] at hs
  obtain rfl := Step.running.inj hs
  exact ⟨c', s', hv', rfl, rfl⟩

/-! ## Where a fault arises -/

end Machine

/-- The place of the instruction that failed. -/
def Fault.place? : Fault → Option Nat
  | .runtime fault => some fault.pc
  | .internal fault => some fault.pc
  | .absentValue => none

namespace Machine

variable {p : Program} {labels : Table Nat} {i : Instruction} {op : Opcode} {s s' : State}
  {script : Script} {limit : Nat} {c₀ c : Context} {k : Nat}

/-- A failed step tells that the instruction at a place failed, unless a value is absent. -/
def Step.FailsAt (k : Nat) : Step → Prop
  | .failed fault _ => fault ≠ .absentValue → fault.place? = some k
  | _ => True

/-- An instruction that fails tells its place. -/
theorem failsAt_execute (p : Program) (labels : Table Nat) (i : Instruction) (s : State) :
    (execute p labels i s).FailsAt (s.pc - 1) := by
  cases h : execute p labels i s with
  | running _ => trivial
  | halted _ => trivial
  | failed fault s' =>
    intro hne
    have htells := (tells_and_leaves_of_failed h).1
    cases fault with
    | runtime f => exact congrArg some htells.2.1
    | internal f => exact congrArg some htells.2
    | absentValue => exact absurd rfl hne

/-- A turn of a script that fails tells where. -/
theorem place_of_failed (ho : Orderly p) (hv : Visits p limit c₀ c s) {fault : Fault}
    (ht : turn p s = .failed fault s') : fault.place? = some s.pc := by
  have hsane := sane_of_visits ho hv
  have hne : fault ≠ .absentValue := by
    rcases fault_of_turn ho hsane ht with ⟨f, rfl⟩ | ⟨f, rfl, -⟩ <;> simp
  obtain ⟨i, hi⟩ : ∃ i, p.code[s.pc]? = some i := ⟨_, Array.getElem?_eq_getElem hsane.inside⟩
  have hfails := failsAt_execute p p.labels i s.advance
  rw [← turn_of_code hi, ht] at hfails
  exact hfails hne

/-! ## Variables without an assignment -/

end Machine

/-- Some code neither assigns a variable nor ends a run. -/
def Calculates (code : List Instruction) : Prop :=
  ∀ i ∈ code, i.op ≠ Opcode.storeGlobal.byte ∧ i.op ≠ Opcode.halt.byte

theorem Calculates.append {a b : List Instruction} (ha : Calculates a) (hb : Calculates b) :
    Calculates (a ++ b) := fun i hi => (List.mem_append.1 hi).elim (ha i) (hb i)

theorem Calculates.single {i : Instruction} (op : Opcode) (hi : i.op = op.byte)
    (hop : op.byte ≠ Opcode.storeGlobal.byte ∧ op.byte ≠ Opcode.halt.byte) : Calculates [i] := by
  intro j hj
  obtain rfl := List.mem_singleton.1 hj
  exact hi ▸ hop

theorem calculates_unary (op : TokenKind) : Calculates ((unaryInstructions? op).getD []) := by
  cases op <;> simp [Calculates, unaryInstructions?] <;> decide

theorem calculates_binary (op : TokenKind) :
    Calculates ((binaryOpcode? op).map Instruction.simple).toList := by
  cases op <;> simp [Calculates, binaryOpcode?] <;> decide

theorem Expr.calculates : ∀ e : Expr, Calculates e.code
  | .number _ _ | .string _ _ | .bool _ _ => .single .push rfl (by decide)
  | .ident _ _ => .single .loadGlobal rfl (by decide)
  | .group _ inner => inner.calculates
  | .unary _ op operand => operand.calculates.append (calculates_unary op)
  | .binary _ op left right =>
    left.calculates.append (right.calculates.append (calculates_binary op))

theorem calculates_jump (name : Bytes) : Calculates [.jump name] := .single .jump rfl (by decide)

theorem calculates_jumpZero (name : Bytes) : Calculates [.jumpZero name] :=
  .single .jumpZero rfl (by decide)

theorem calculates_label (name : Bytes) : Calculates [.label name] := .single .label rfl (by decide)

/-- What some code assigns is among some variables. -/
def Assigns (names : List Occurrence) (code : List Instruction) : Prop :=
  ∀ i ∈ code, i.op = Opcode.storeGlobal.byte → ∃ o ∈ names, o.1 = i.name

section Assigns

variable {xs ys : List Occurrence} {a b : List Instruction}

theorem Calculates.assigns (h : Calculates a) : Assigns xs a :=
  fun i hi hop => absurd hop (h i hi).1

theorem Assigns.append (ha : Assigns xs a) (hb : Assigns xs b) : Assigns xs (a ++ b) :=
  fun i hi => (List.mem_append.1 hi).elim (ha i) (hb i)

theorem Assigns.mono (h : Assigns xs a) (hsub : xs ⊆ ys) : Assigns ys a := fun i hi hop => by
  obtain ⟨o, ho, hn⟩ := h i hi hop
  exact ⟨o, hsub ho, hn⟩

/-- Behind one instruction that assigns nothing. -/
theorem Assigns.cons {i : Instruction} (ha : Assigns xs a) (hi : Calculates [i]) :
    Assigns xs (i :: a) :=
  Assigns.append hi.assigns ha

end Assigns

mutual

/-- What the code of a statement assigns is assigned in the statement. -/
theorem Stmt.assigns : ∀ (s : Stmt) (n : Nat), Assigns s.assignments (s.code n)
  | .print _ newline value, n => by
    refine value.calculates.assigns.append fun i hi hop => ?_
    obtain rfl := List.mem_singleton.1 hi
    exact absurd hop (by cases newline <;> decide)
  | .assign span name stop value, n => by
    refine value.calculates.assigns.append fun i hi hop => ?_
    obtain rfl := List.mem_singleton.1 hi
    exact ⟨_, List.mem_singleton_self _, rfl⟩
  | .expr _ value, n => by
    refine value.calculates.assigns.append fun i hi hop => ?_
    obtain rfl := List.mem_singleton.1 hi
    exact absurd hop (by decide)
  | .cond _ test yes no, n => by
    have hyes := (Stmt.assignsOf yes (n + 2)).mono (List.subset_append_left _ (assignmentsOf no))
    have hno := (Stmt.assignsOf no (n + 2 + labelCountOf yes)).mono
      (List.subset_append_right (assignmentsOf yes) _)
    rw [Stmt.code, Stmt.assignments]
    refine test.calculates.assigns.append (.cons ?_ (calculates_jumpZero _))
    refine hyes.append (.cons (.cons ?_ (calculates_label _)) (calculates_jump _))
    exact hno.append (calculates_label _).assigns
  | .loop _ test body, n => by
    have hbody := Stmt.assignsOf body (n + 2)
    rw [Stmt.code, Stmt.assignments]
    refine .cons (test.calculates.assigns.append (.cons ?_ (calculates_jumpZero _)))
      (calculates_label _)
    exact hbody.append (.cons (calculates_label _).assigns (calculates_jump _))

theorem Stmt.assignsOf : ∀ (ss : List Stmt) (n : Nat), Assigns (assignmentsOf ss) (codeOf n ss)
  | [], _ => fun i hi => by cases hi
  | s :: rest, n => by
    have hs := (Stmt.assigns s n).mono (List.subset_append_left _ (assignmentsOf rest))
    have hrest := (Stmt.assignsOf rest (n + s.labelCount)).mono
      (List.subset_append_right s.assignments _)
    rw [Stmt.codeOf, Stmt.assignmentsOf]
    exact hs.append hrest

end

namespace Machine

/-- A run of a script only has variables that the script assigns. -/
theorem assigned_of_visits {p : Program} {script : Script} (hp : p.code.toList = script.code)
    {limit : Nat} {c₀ c : Context} {s : State} (hv : Visits p limit c₀ c s) {name : Bytes}
    {v : Option Value} (hg : s.globals.find? name = some v) :
    ∃ o ∈ Stmt.assignmentsOf script.statements, o.1 = name := by
  induction hv generalizing v with
  | start => simp at hg
  | @next c' c s s' i _ hf he ih =>
    obtain ⟨op, hop, heffect⟩ := effect_of_execute he
    cases heffect with
    | store hs =>
      simp only [Table.find?_insert] at hg
      split at hg
      · next hname =>
        have hmem : i ∈ script.code := by
          rw [← hp]
          exact List.mem_of_getElem? (by rw [Array.getElem?_toList, hf.1])
        have hstore : i.op = Opcode.storeGlobal.byte := (byte_of_ofByte? hop).symm
        rcases List.mem_append.1 hmem with hmem | hmem
        · obtain ⟨o, ho, hn⟩ := Stmt.assignsOf _ _ i hmem hstore
          exact ⟨o, ho, hn.trans hname.symm⟩
        · obtain rfl := List.mem_singleton.1 hmem
          exact absurd hstore (by decide)
      · exact ih hg
    | _ => exact ih hg

end Machine

/-! ## Code that never comes to its end -/

/-- A run that ends so was stopped by its bound, or failed at a place from `start` up to `stop`. -/
def Outcome.StopsWithin (start stop : Nat) : Outcome → Prop
  | .stepLimit _ | .interrupted _ _ => True
  | .failed fault => ∃ k, fault.place? = some k ∧ start ≤ k ∧ k < stop
  | .halted | .writeFailed _ => False

/-- The code from `start` up to `stop` never comes to its end : no run reaches `stop`, and a run
that enters the code ends in it. -/
structure Program.Fruitless (p : Program) (start stop : Nat) : Prop where
  unreached : ∀ limit c₀ c s, Machine.Visits p limit c₀ c s → s.pc ≠ stop
  ends : ∀ limit c₀ c s, Machine.Visits p limit c₀ c s → start ≤ s.pc → s.pc < stop →
    ∀ sink, ∃ o t, Machine.Ends p limit c₀ sink o t ∧ o.StopsWithin start stop

namespace Machine

variable {p : Program} {script : Script} {limit start : Nat} {c₀ c : Context} {s : State}
  {code : List Instruction}

/-- A run in straight code whose end is not reached ends in that code. -/
theorem drive_within (ho : Orderly p) (hp : p.code.toList = script.code) (hc : p.Has start code)
    (hs : Straight code) (hcalc : Calculates code)
    (hn : ∀ c s, Visits p limit c₀ c s → s.pc ≠ start + code.length) :
    ∀ (d : Nat) {c : Context} {s : State}, Visits p limit c₀ c s → start ≤ s.pc →
      s.pc + d = start + code.length → ∃ fuel r,
        drive p p.labels limit fuel c s = some r ∧
          r.outcome.StopsWithin start (start + code.length) := by
  intro d
  induction d with
  | zero => exact fun hv _ hd => absurd hd (hn _ _ hv)
  | succ d ih =>
    intro c s hv hle hd
    obtain ⟨i, hi⟩ : ∃ i, p.code[s.pc]? = some i :=
      ⟨_, Array.getElem?_eq_getElem (sane_of_visits ho hv).inside⟩
    have hmem : i ∈ code := hc.mem hle (by omega) hi
    by_cases hl : 0 < limit ∧ limit ≤ s.steps
    · exact ⟨1, ⟨.stepLimit limit, s, c⟩, by rw [drive]; simp only [hi, if_pos hl], trivial⟩
    rcases hpoll : pollAt s.steps c with ⟨reason?, c'⟩
    cases reason? with
    | some reason =>
      exact ⟨1, ⟨.interrupted s.steps reason, s, c'⟩,
        by rw [drive]; simp only [hi, if_neg hl, hpoll], trivial⟩
    | none =>
      cases hx : execute p p.labels i s.advance with
      | running s' =>
        have hnext : s'.pc = s.pc + 1 := by
          rcases place_of_running hp hi hx with ⟨h, -⟩ | ⟨j, -, -, -, hjump⟩
          · exact h
          · have hstraight := (hs i hmem).2
            rcases hjump with h | ⟨h, -⟩ <;> simp [h, Opcode.isJump] at hstraight
        obtain ⟨fuel, r, hr, hout⟩ :=
          ih (.next hv ⟨hi, hl, hpoll⟩ hx) (by omega) (by omega)
        exact ⟨fuel + 1, r, by rw [drive]; simp only [hi, if_neg hl, hpoll, hx, hr], hout⟩
      | halted s' =>
        obtain ⟨op, hop⟩ : ∃ op, Opcode.ofByte? i.op = some op := by
          cases hop : Opcode.ofByte? i.op with
          | none => simp [execute, hop] at hx
          | some op => exact ⟨op, rfl⟩
        obtain ⟨rfl, -⟩ := halt_of_halted hop hx
        exact absurd (byte_of_ofByte? hop).symm (hcalc i hmem).2
      | failed fault s' =>
        refine ⟨1, ⟨.failed fault, s', c'⟩, by rw [drive]; simp only [hi, if_neg hl, hpoll, hx],
          s.pc, place_of_failed ho hv ((turn_of_code hi).trans hx), hle, by omega⟩

theorem settle_of_stopsWithin {o : Outcome} {stop : Nat} (h : o.StopsWithin start stop)
    (sink : Sink) (s : State) (c : Context) : (settle sink ⟨o, s, c⟩).outcome = o := by
  cases o with
  | halted => cases h
  | _ => cases sink <;> rfl

end Machine

/-- Straight code whose end is not reached never comes to its end. -/
theorem Program.fruitless_of_unreached {p : Program} {script : Script} {start : Nat}
    {code : List Instruction} (ho : Orderly p) (hp : p.code.toList = script.code)
    (hc : p.Has start code) (hs : Straight code) (hcalc : Calculates code)
    (hn : ∀ limit c₀ c s, Machine.Visits p limit c₀ c s → s.pc ≠ start + code.length) :
    p.Fruitless start (start + code.length) where
  unreached := hn
  ends limit c₀ c s hv hle hlt sink := by
    obtain ⟨d, hd⟩ := Nat.exists_eq_add_of_le (Nat.le_of_lt hlt)
    obtain ⟨fuel, ⟨o, t, rest⟩, hr, hstops⟩ := Machine.drive_within ho hp hc hs hcalc
      (fun c s hv => hn limit c₀ c s hv) d hv hle hd.symm
    obtain ⟨n, hdrive⟩ := Machine.drive_of_visits hv
    have hends := Machine.ends_of_drive ((hdrive fuel).trans hr) sink
    rw [Machine.settle_of_stopsWithin hstops] at hends
    exact ⟨o, t, hends, hstops⟩

/-! ## Expressions that are warned about -/

namespace Expr

/-- The warnings about an expression, but for those about its parts and about variables. -/
def ownWarnings : Expr → List Warning
  | unary span op operand => unaryWarning span op operand
  | binary span op _ right => binaryWarning span op right
  | _ => []

theorem code_unparen : ∀ e : Expr, e.unparen.code = e.code
  | number _ _ | string _ _ | bool _ _ | ident _ _ | unary _ _ _ | binary _ _ _ _ => rfl
  | group _ inner => inner.code_unparen

/-- The operand that a unary operator is warned about is a literal that it does not take. -/
theorem literal_of_unaryWarning {w : Warning} {span : Span} {op : TokenKind} {operand : Expr}
    (h : w ∈ unaryWarning span op operand) : ∃ v, operand.code = [.push v] ∧
      (op = .minus ∧ (∀ u, Operator.negate v ≠ .ok u) ∨
        op = .tilde ∧ ∀ u, Operator.binary .xor v (.bool true) ≠ .ok u) := by
  rw [← operand.code_unparen]
  unfold unaryWarning at h
  split at h
  · next heq => exact ⟨_, by rw [heq]; rfl, Or.inl ⟨rfl, fun u hu => by cases hu⟩⟩
  · next heq => exact ⟨_, by rw [heq]; rfl, Or.inl ⟨rfl, fun u hu => by cases hu⟩⟩
  · next heq => exact ⟨_, by rw [heq]; rfl, Or.inr ⟨rfl, fun u hu => by cases hu⟩⟩
  · cases h

/-- What a division is warned about is a literal zero. -/
theorem zero_of_binaryWarning {w : Warning} {span : Span} {op : TokenKind} {right : Expr}
    (h : w ∈ binaryWarning span op right) : ∃ x, right.code = [.push (.number x)] ∧
      (x == 0) = true ∧ (op = .slash ∨ op = .percent) := by
  rw [← right.code_unparen]
  unfold binaryWarning at h
  split at h
  · next s x heq =>
    split at h
    · next hzero => exact ⟨x, by rw [heq]; rfl, hzero.2, hzero.1⟩
    · cases h
  · cases h

end Expr

/-- Nothing can be divided by zero. -/
theorem Operator.binary_zero {op : Opcode} (hop : op = .div ∨ op = .mod) {x : Float}
    (hx : (x == 0) = true) (a v : Value) : Operator.binary op a (.number x) ≠ .ok v := by
  intro h
  rcases hop with rfl | rfl <;> cases a <;> simp [binary, arithmetic, hx] at h <;> cases h

/-- A warning is about an expression itself. -/
def Warning.IsOn (w : Warning) (e : Expr) : Prop :=
  w ∈ e.ownWarnings ∨ ∃ span name, e = .ident span name ∧ w = ⟨span, .neverAssigned name⟩

namespace Machine

variable {p : Program} {script : Script} {limit start : Nat} {c₀ c : Context} {s : State}

/-- An operator that goes on has a value. -/
theorem ok_of_finish {i : Instruction} {t : State} {kinds : List ValueKind}
    {result : Except RuntimeCause Value} (h : finish p i s kinds result = .running t) :
    ∃ v, result = .ok v := by
  cases result with
  | ok v => exact ⟨v, rfl⟩
  | error cause => cases h

/-- A run does not come past an operator that takes no literal of some kind, behind such a
literal. -/
theorem unreached_of_unaryWarning (hp : p.code.toList = script.code) {w : Warning} {span : Span}
    {op : TokenKind} {operand : Expr} (hw : w ∈ Expr.unaryWarning span op operand)
    (hc : p.Has start (Expr.unary span op operand).code)
    (hn : p.Inline (start + (Expr.unary span op operand).code.length))
    (hv : Visits p limit c₀ c s) : s.pc ≠ start + (Expr.unary span op operand).code.length := by
  intro hpc
  obtain ⟨v, hcode, ⟨rfl, hne⟩ | ⟨rfl, hne⟩⟩ := Expr.literal_of_unaryWarning hw
  · have hc' : p.Has start [.push v, .simple .neg] := by
      simpa [Expr.code, hcode, unaryInstructions?] using hc
    rw [show (Expr.unary span .minus operand).code.length = 1 + 1 by
      simp [Expr.code, hcode, unaryInstructions?], ← Nat.add_assoc] at hpc hn
    obtain ⟨c₁, s₁, i, hv₁, hpc₁, hi, he⟩ := previous hp hv hpc hn
    obtain rfl := Option.some.inj (hi.symm.trans hc'.tail.head)
    obtain ⟨c₂, s₂, -, -, hs⟩ := pushed hp hv₁ hpc₁ (hc'.tail.inline (by decide)) hc'.head
    have ht := (turn_of_code (hpc₁ ▸ hi)).symm.trans (turn_neg (hpc₁ ▸ hi) hs)
    rw [he] at ht
    obtain ⟨u, hu⟩ := ok_of_finish ht.symm
    exact hne u hu
  · have hc' : p.Has start [.push v, .push (.bool true), .simple .xor] := by
      simpa [Expr.code, hcode, unaryInstructions?] using hc
    rw [show (Expr.unary span .tilde operand).code.length = 1 + 1 + 1 by
      simp [Expr.code, hcode, unaryInstructions?], ← Nat.add_assoc, ← Nat.add_assoc] at hpc hn
    obtain ⟨c₁, s₁, i, hv₁, hpc₁, hi, he⟩ := previous hp hv hpc hn
    obtain rfl := Option.some.inj (hi.symm.trans hc'.tail.tail.head)
    obtain ⟨c₂, s₂, hv₂, hpc₂, hs₁⟩ :=
      pushed hp hv₁ hpc₁ (hc'.tail.tail.inline (by decide)) hc'.tail.head
    obtain ⟨c₃, s₃, -, -, hs₂⟩ := pushed hp hv₂ hpc₂
      (hc'.tail.inline (show Opcode.push.byte ≠ Opcode.label.byte by decide)) hc'.head
    rw [hs₂] at hs₁
    have hxor := turn_binary (k := .xorWord) rfl (hpc₁ ▸ hi) hs₁
    have ht := (turn_of_code (hpc₁ ▸ hi)).symm.trans hxor
    rw [he] at ht
    obtain ⟨u, hu⟩ := ok_of_finish ht.symm
    exact hne u hu

/-- A run does not come past a division by a literal zero. -/
theorem unreached_of_binaryWarning (hp : p.code.toList = script.code) {w : Warning} {span : Span}
    {op : TokenKind} {left right : Expr} (hw : w ∈ Expr.binaryWarning span op right)
    (hc : p.Has start (Expr.binary span op left right).code)
    (hn : p.Inline (start + (Expr.binary span op left right).code.length))
    (hv : Visits p limit c₀ c s) :
    s.pc ≠ start + (Expr.binary span op left right).code.length := by
  intro hpc
  obtain ⟨x, hcode, hx, hop⟩ := Expr.zero_of_binaryWarning hw
  obtain ⟨opcode, hopcode, hdiv⟩ :
      ∃ opcode, binaryOpcode? op = some opcode ∧ (opcode = .div ∨ opcode = .mod) := by
    rcases hop with rfl | rfl
    · exact ⟨_, rfl, Or.inl rfl⟩
    · exact ⟨_, rfl, Or.inr rfl⟩
  rw [Expr.code, hcode, code_binary hopcode] at hc hpc hn
  have hlast : ([.push (.number x)] ++ [.simple opcode] : List Instruction).length = 1 + 1 := rfl
  rw [List.length_append, hlast, ← Nat.add_assoc, ← Nat.add_assoc] at hpc hn
  obtain ⟨c₁, s₁, i, hv₁, hpc₁, hi, he⟩ := previous hp hv hpc hn
  obtain rfl := Option.some.inj (hi.symm.trans hc.right.tail.head)
  have hlabel : opcode.byte ≠ Opcode.label.byte := by
    rcases hdiv with rfl | rfl <;> decide
  obtain ⟨c₂, s₂, -, -, hs⟩ := pushed hp hv₁ hpc₁ (hc.right.tail.inline hlabel) hc.right.head
  obtain ⟨op', hop', heffect⟩ := effect_of_execute he
  obtain rfl : opcode = op' := by simpa [Instruction.simple] using hop'
  have htwo : opcode.info.pops = 2 := by rcases hdiv with rfl | rfl <;> rfl
  cases heffect with
  | @binary _ a b v rest _ hstack hv' =>
    have hstack : s₁.stack = some b :: some a :: rest := hstack
    obtain ⟨rfl, -⟩ : b = .number x ∧ _ := by simpa [hs] using hstack.symm
    exact Operator.binary_zero hdiv hx a v hv'
  | _ => rcases hdiv with h | h <;> cases h

/-- A run does not come past a variable that is not assigned. -/
theorem unreached_of_unassigned (hp : p.code.toList = script.code) {name : Bytes}
    (hname : ∀ o ∈ Stmt.assignmentsOf script.statements, o.1 ≠ name)
    (hc : p.Has start [.loadGlobal name]) (hn : p.Inline (start + 1))
    (hv : Visits p limit c₀ c s) : s.pc ≠ start + 1 := by
  intro hpc
  obtain ⟨c₁, s₁, i, hv₁, rfl, hi, he⟩ := previous hp hv hpc hn
  obtain rfl := Option.some.inj (hi.symm.trans hc.head)
  have ht := (turn_of_code hi).symm.trans (turn_loadGlobal hi)
  rw [he] at ht
  cases hg : s₁.globals.find? name with
  | none => simp [hg] at ht
  | some v =>
    obtain ⟨o, ho, hname'⟩ := assigned_of_visits hp hv₁ hg
    exact hname o ho hname'

end Machine

/-- The code of an expression that is warned about never comes to its end. -/
theorem Warning.IsOn.fruitless {p : Program} {script : Script} {w : Warning} {e : Expr} {k : Nat}
    (h : w.IsOn e) (ho : Orderly p) (hp : p.code.toList = script.code) (he : script.Places e k)
    (hname : ∀ span name, w = ⟨span, .neverAssigned name⟩ →
      ∀ o ∈ Stmt.assignmentsOf script.statements, o.1 ≠ name) :
    p.Fruitless k (k + e.code.length) := by
  obtain ⟨hc, hn⟩ := he.has hp
  refine Program.fruitless_of_unreached ho hp hc e.straight e.calculates fun limit c₀ c s hv => ?_
  rcases h with h | ⟨span, name, rfl, hw⟩
  · cases e with
    | unary => exact Machine.unreached_of_unaryWarning hp h hc hn hv
    | binary => exact Machine.unreached_of_binaryWarning hp h hc hn hv
    | _ => cases h
  · exact Machine.unreached_of_unassigned hp (hname span name hw) hc hn hv

end Scriptlet
