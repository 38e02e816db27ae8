import Scriptlet.Proofs.Effects
import Scriptlet.Proofs.Labels
import Scriptlet.Proofs.Runs

/-!
# The depth of the stack

In the code of a script every place has one depth of the stack : the one that the opcode table gives
the instructions before it (`depthAt`), whichever way the run came there. Expressions add one value
at any depth; statements start and end at depth zero, and so do all labels and jumps
(`Balanced`).

`Sane` is the invariant of runs : the stack has the depth of its place, the place is inside the
code, and no value on the stack or in a variable is absent. A turn keeps it, ends the run with an
empty stack, or fails in one of the two ways open to compiled code (`sane_of_turn`,
`fault_of_turn`).
-/

namespace Scriptlet

/-! ## Balanced code -/

/-- The depth of the stack after an instruction. -/
def depthAfter (d : Nat) (i : Instruction) : Nat := d - i.info.pops + i.info.pushes

/-- The depth of the stack at the place `pc` of some code that starts at depth zero. -/
def depthAt (code : List Instruction) (pc : Nat) : Nat := (code.take pc).foldl depthAfter 0

/-- At depth `d` the instruction finds what it needs : its operands and its literal are there, and
control changes only between statements. -/
structure Fits (d : Nat) (i : Instruction) (op : Opcode) : Prop where
  known : Opcode.ofByte? i.op = some op
  pops : op.info.pops ≤ d
  value : op = .push → i.arg.isSome
  control : op = .label ∨ op = .jump ∨ op = .jumpZero ∨ op = .halt → d = op.info.pops

/-- Code that leads from one depth to another, every instruction finding what it needs. -/
inductive Balanced : Nat → List Instruction → Nat → Prop
  | nil (d : Nat) : Balanced d [] d
  | cons {d d' : Nat} {i : Instruction} {op : Opcode} {rest : List Instruction} : Fits d i op →
      Balanced (depthAfter d i) rest d' → Balanced d (i :: rest) d'

theorem Balanced.append {a b : List Instruction} {d e f : Nat} (ha : Balanced d a e)
    (hb : Balanced e b f) : Balanced d (a ++ b) f := by
  induction ha with
  | nil => exact hb
  | cons hi _ ih => exact .cons hi (ih hb)

/-- In balanced code every instruction fits the depth of its place. -/
theorem Balanced.fits {code : List Instruction} {d e : Nat} (h : Balanced d code e) :
    ∀ {pc : Nat} {i : Instruction}, code[pc]? = some i →
      ∃ op, Fits ((code.take pc).foldl depthAfter d) i op := by
  induction h with
  | nil => intro pc i hi; simp at hi
  | cons hfit _ ih =>
    intro pc i hi
    cases pc with
    | zero =>
      obtain rfl : _ = i := by simpa using hi
      exact ⟨_, hfit⟩
    | succ pc => exact ih (by simpa using hi)

/-- The depth past an instruction follows from that before it. -/
theorem depthAt_succ {code : List Instruction} {pc : Nat} {i : Instruction}
    (h : code[pc]? = some i) : depthAt code (pc + 1) = depthAfter (depthAt code pc) i := by
  rw [depthAt, List.take_add_one, h, List.foldl_append]
  rfl

theorem Fits.depthAfter {d : Nat} {i : Instruction} {op : Opcode} (h : Fits d i op) :
    depthAfter d i = d - op.info.pops + op.info.pushes := by
  simp only [Scriptlet.depthAfter, Instruction.info, Opcode.infoOfByte, h.known]

theorem Balanced.single {d d' : Nat} {i : Instruction} {op : Opcode} (h : Fits d i op)
    (hd : d - op.info.pops + op.info.pushes = d') : Balanced d [i] d' := by
  refine .cons h ?_
  rw [h.depthAfter, hd]
  exact .nil d'

/-- An instruction that needs no literal and is no jump. -/
theorem balanced_simple {d d' : Nat} {op : Opcode} (hp : op.info.pops ≤ d)
    (hc : op ∉ [.push, .label, .jump, .jumpZero, .halt])
    (hd : d - op.info.pops + op.info.pushes = d') : Balanced d [.simple op] d' := by
  have h : Fits d (.simple op) op :=
    { known := Opcode.ofByte?_byte op
      pops := hp
      value := by
        intro h
        simp [h] at hc
      control := by
        intro h
        rcases h with rfl | rfl | rfl | rfl <;> simp at hc }
  exact .single h hd

theorem fits_push (d : Nat) (v : Value) : Fits d (.push v) .push :=
  ⟨rfl, Nat.zero_le d, fun _ => rfl, by simp⟩

theorem balanced_push (d : Nat) (v : Value) : Balanced d [.push v] (d + 1) :=
  .single (fits_push d v) rfl

theorem balanced_loadGlobal (d : Nat) (name : Bytes) : Balanced d [.loadGlobal name] (d + 1) := by
  have h : Fits d (.loadGlobal name) .loadGlobal := ⟨rfl, Nat.zero_le d, by simp, by simp⟩
  exact .single h rfl

/-- An operator leaves one value in the place of its operand. -/
theorem balanced_unary {op : TokenKind} (hop : op ∈ [.minus, .plus, .tilde]) (d : Nat) :
    Balanced (d + 1) ((unaryInstructions? op).getD []) (d + 1) := by
  simp only [List.mem_cons, List.not_mem_nil, or_false] at hop
  rcases hop with rfl | rfl | rfl
  · exact balanced_simple (by simp [Opcode.info]) (by simp) rfl
  · exact .nil _
  · exact .append (balanced_push (d + 1) _)
      (balanced_simple (by simp [Opcode.info]) (by simp) rfl)

/-- An operator leaves one value in the place of its two operands. -/
theorem balanced_binary {op : TokenKind} (hop : (binaryOpcode? op).isSome) (d : Nat) :
    Balanced (d + 2) ((binaryOpcode? op).map Instruction.simple).toList (d + 1) := by
  cases op <;> simp only [binaryOpcode?, Option.isSome_none, Bool.false_eq_true] at hop <;>
    exact balanced_simple (by simp [Opcode.info]) (by simp) rfl

/-- An expression puts one value on the stack. -/
theorem Expr.balanced : ∀ {e : Expr}, e.Supported → ∀ d, Balanced d e.code (d + 1)
  | .number _ x, _, d => balanced_push d (.number x)
  | .string _ s, _, d => balanced_push d (.string s)
  | .bool _ b, _, d => balanced_push d (.bool b)
  | .ident _ name, _, d => balanced_loadGlobal d name
  | .group _ inner, h, d => Expr.balanced (e := inner) h d
  | .unary _ _ _, h, d => (Expr.balanced h.2 d).append (balanced_unary h.1 d)
  | .binary _ _ _ _, h, d =>
    (Expr.balanced h.2.1 d).append
      ((Expr.balanced h.2.2 (d + 1)).append (balanced_binary h.1 d))

theorem balanced_label (name : Bytes) : Balanced 0 [.label name] 0 := by
  have h : Fits 0 (.label name) .label := ⟨rfl, Nat.le_refl 0, by simp, fun _ => rfl⟩
  exact .single h rfl

theorem balanced_jump (name : Bytes) : Balanced 0 [.jump name] 0 := by
  have h : Fits 0 (.jump name) .jump := ⟨rfl, Nat.le_refl 0, by simp, fun _ => rfl⟩
  exact .single h rfl

theorem balanced_jumpZero (name : Bytes) : Balanced 1 [.jumpZero name] 0 := by
  have h : Fits 1 (.jumpZero name) .jumpZero := ⟨rfl, Nat.le_refl 1, by simp, fun _ => rfl⟩
  exact .single h rfl

theorem balanced_storeGlobal (name : Bytes) : Balanced 1 [.storeGlobal name] 0 := by
  have h : Fits 1 (.storeGlobal name) .storeGlobal := ⟨rfl, Nat.le_refl 1, by simp, by simp⟩
  exact .single h rfl

theorem balanced_halt : Balanced 0 [.simple .halt] 0 := by
  have h : Fits 0 (.simple .halt) .halt := ⟨rfl, Nat.le_refl 0, by simp, fun _ => rfl⟩
  exact .single h rfl

mutual

/-- A statement leaves the stack empty. -/
theorem Stmt.balanced : ∀ {stmt : Stmt}, stmt.Supported → ∀ n, Balanced 0 (stmt.code n) 0
  | .print _ newline value, h, n => by
    refine (Expr.balanced h 0).append ?_
    cases newline <;> exact balanced_simple (by simp [Opcode.info]) (by simp) rfl
  | .assign _ name _ value, h, n =>
    (Expr.balanced h 0).append (balanced_storeGlobal name)
  | .expr _ value, h, n =>
    (Expr.balanced h 0).append (balanced_simple (by simp [Opcode.info]) (by simp) rfl)
  | .cond _ test yes no, h, n => by
    have hyes := Stmt.balancedOf h.2.1 (n + 2)
    have hno := Stmt.balancedOf h.2.2 (n + 2 + Stmt.labelCountOf yes)
    exact (Expr.balanced h.1 0).append ((balanced_jumpZero _).append (hyes.append
      ((balanced_jump _).append ((balanced_label _).append (hno.append (balanced_label _))))))
  | .loop _ test body, h, n => by
    have hbody := Stmt.balancedOf h.2 (n + 2)
    exact (balanced_label _).append ((Expr.balanced h.1 0).append ((balanced_jumpZero _).append
      (hbody.append ((balanced_jump _).append (balanced_label _)))))

theorem Stmt.balancedOf : ∀ {stmts : List Stmt}, Stmt.AllSupported stmts →
    ∀ n, Balanced 0 (Stmt.codeOf n stmts) 0
  | [], _, _ => .nil 0
  | stmt :: _, h, n =>
    (Stmt.balanced h.1 n).append (Stmt.balancedOf h.2 (n + stmt.labelCount))

end

/-- A script starts and ends with an empty stack. -/
theorem Script.balanced {script : Script} (h : script.Supported) : Balanced 0 script.code 0 :=
  (Stmt.balancedOf h 0).append balanced_halt

/-! ## Runs of balanced programs -/

/-- What the code of every script satisfies. -/
structure Orderly (p : Program) : Prop where
  balanced : Balanced 0 p.code.toList 0
  /-- Every jump has a target, which is a label. -/
  targets : ∀ i ∈ p.code.toList, Opcode.isJump i.op = true →
    ∃ target j, p.labels.find? i.name = some target ∧ p.code[target]? = some j ∧
      j.op = Opcode.label.byte
  halts : ∃ body, p.code.toList = body ++ [.simple .halt]

/-- Before the last instruction stand all but one. -/
theorem Orderly.exists_body {p : Program} (ho : Orderly p) : ∃ body : List Instruction,
    p.code.toList = body ++ [.simple .halt] ∧ p.code.size = body.length + 1 := by
  obtain ⟨body, hb⟩ := ho.halts
  refine ⟨body, hb, ?_⟩
  rw [← Array.length_toList, hb, List.length_append, List.length_singleton]

/-- The code of a script is orderly. -/
theorem orderly_of_compile {script : Script} {name : Bytes} {p : Program}
    (h : script.compile name = .ok p) : Orderly p := by
  obtain ⟨hs, hc⟩ := Script.code_of_compile h
  refine ⟨hc ▸ Script.balanced hs, fun i hi hj => ?_, ⟨_, hc⟩⟩
  obtain ⟨target, j, hfind, hcode, hop, -⟩ := Script.exists_target hc hi hj
  exact ⟨target, j, hfind, hcode, hop⟩

theorem byte_of_ofByte? {b : UInt8} {op : Opcode} (h : Opcode.ofByte? b = some op) :
    op.byte = b := by
  simpa using List.find?_some h

theorem isJump_of_ofByte? {b : UInt8} {op : Opcode} (h : Opcode.ofByte? b = some op)
    (hop : op = .jump ∨ op = .jumpZero) : Opcode.isJump b = true := by
  rw [← byte_of_ofByte? h]
  rcases hop with rfl | rfl <;> rfl

namespace Machine

/-- The invariant of the runs of a script. -/
structure Sane (p : Program) (s : State) : Prop where
  inside : s.pc < p.code.size
  depth : s.stack.length = depthAt p.code.toList s.pc
  stack : ∀ v ∈ s.stack, v.isSome
  globals : ∀ name v, s.globals.find? name = some v → v.isSome

variable {p : Program} {s s' : State}

theorem sane_start (ho : Orderly p) : Sane p {} where
  inside := by
    obtain ⟨body, -, hsize⟩ := ho.exists_body
    exact hsize ▸ Nat.succ_pos _
  depth := rfl
  stack := by simp
  globals := by simp

/-- Where a sane state stands there is an instruction, and it fits the depth of the stack. -/
theorem Sane.fits (ho : Orderly p) (h : Sane p s) :
    ∃ i op, p.code[s.pc]? = some i ∧ Fits s.stack.length i op := by
  obtain ⟨i, hi⟩ : ∃ i, p.code[s.pc]? = some i := ⟨_, Array.getElem?_eq_getElem h.inside⟩
  have hl : p.code.toList[s.pc]? = some i := by rw [Array.getElem?_toList, hi]
  obtain ⟨op, hop⟩ := ho.balanced.fits hl
  refine ⟨i, op, hi, ?_⟩
  rw [h.depth]
  exact hop

/-- Past an instruction that does not end the run there is another one. -/
theorem Orderly.succ_lt (ho : Orderly p) {pc : Nat} {i : Instruction} {op : Opcode}
    (hi : p.code[pc]? = some i) (hop : Opcode.ofByte? i.op = some op) (hne : op ≠ .halt) :
    pc + 1 < p.code.size := by
  obtain ⟨body, hb, hsize⟩ := ho.exists_body
  obtain ⟨hlt, -⟩ := Array.getElem?_eq_some_iff.1 hi
  rcases Nat.lt_or_ge (pc + 1) p.code.size with h | hge
  · exact h
  obtain rfl : pc = body.length := by omega
  rw [← Array.getElem?_toList, hb] at hi
  simp only [List.getElem?_concat_length, Option.some.injEq] at hi
  subst hi
  exact absurd (Option.some.inj hop).symm hne

/-- A state past an instruction that leaves the depth the table gives. -/
theorem Sane.fall (ho : Orderly p) (h : Sane p s) {i : Instruction} {op : Opcode}
    (hi : p.code[s.pc]? = some i) (hf : Fits s.stack.length i op) (hne : op ≠ .halt)
    (hpc : s'.pc = s.pc + 1)
    (hlen : s'.stack.length = s.stack.length - op.info.pops + op.info.pushes)
    (hstack : ∀ v ∈ s'.stack, v.isSome)
    (hglobals : ∀ name v, s'.globals.find? name = some v → v.isSome) : Sane p s' where
  inside := hpc ▸ Orderly.succ_lt ho hi hf.known hne
  depth := by
    rw [hpc, depthAt_succ (by rw [Array.getElem?_toList, hi]), ← h.depth, hf.depthAfter, hlen]
  stack := hstack
  globals := hglobals

/-- A state at a label with an empty stack. -/
theorem Sane.land (ho : Orderly p) (h : Sane p s) {i : Instruction} {target : Nat}
    (hi : p.code[s.pc]? = some i) (hj : Opcode.isJump i.op = true)
    (ht : p.labels.find? i.name = some target) (hpc : s'.pc = target) (hempty : s'.stack = [])
    (hglobals : s'.globals = s.globals) : Sane p s' := by
  have hmem : i ∈ p.code.toList := List.mem_of_getElem? (by rw [Array.getElem?_toList, hi])
  obtain ⟨target', j, ht', hcode, hop⟩ := ho.targets i hmem hj
  obtain rfl : target = target' := Option.some.inj (ht.symm.trans ht')
  have hl : p.code.toList[target]? = some j := by rw [Array.getElem?_toList, hcode]
  obtain ⟨op, hfit⟩ := ho.balanced.fits hl
  have hlabel : op = .label := by
    have := hfit.known
    rw [hop] at this
    exact (Option.some.inj this).symm
  obtain ⟨hlt, -⟩ := Array.getElem?_eq_some_iff.1 hcode
  refine ⟨hpc ▸ hlt, ?_, by simp [hempty], hglobals ▸ h.globals⟩
  have hzero : depthAt p.code.toList target = op.info.pops := hfit.control (Or.inl hlabel)
  rw [hempty, hpc, hzero, hlabel]
  rfl

/-- A turn that goes on keeps the invariant. -/
theorem sane_of_turn (ho : Orderly p) (h : Sane p s) (ht : turn p s = .running s') :
    Sane p s' := by
  obtain ⟨i, op, hi, hf⟩ := h.fits ho
  rw [turn_of_code hi] at ht
  have below : ∀ {top rest}, s.stack = top ++ rest → ∀ v ∈ rest, v.isSome := fun hs v hv =>
    h.stack v (by rw [hs]; exact List.mem_append_right _ hv)
  have pushed : ∀ {v : Option Value} {rest}, v.isSome → (∀ w ∈ rest, w.isSome) →
      ∀ w ∈ v :: rest, w.isSome := fun hv hrest w hw => by
    rcases List.mem_cons.1 hw with rfl | hw
    · exact hv
    · exact hrest w hw
  cases effect_of_running hf.known ht with
  | label => exact h.fall ho hi hf (by simp) rfl rfl h.stack h.globals
  | push => exact h.fall ho hi hf (by simp) rfl rfl (pushed (hf.value rfl) h.stack) h.globals
  | @pop v rest hs =>
    have hs : s.stack = [v] ++ rest := hs
    exact h.fall ho hi hf (by simp) rfl (by simp [hs, Opcode.info]) (below hs) h.globals
  | @negate a w rest hs =>
    have hs : s.stack = [some a] ++ rest := hs
    exact h.fall ho hi hf (by simp) rfl (by simp [hs, Opcode.info, State.push])
      (pushed rfl (below hs)) h.globals
  | @binary _ a b w rest h2 hs =>
    have hs : s.stack = [some b, some a] ++ rest := hs
    have hpush : op.info.pushes = 1 := by
      cases op <;> first | rfl | exact absurd h2 (by decide)
    refine h.fall ho hi hf ?_ rfl ?_ (pushed rfl (below hs)) h.globals
    · rintro rfl
      exact absurd h2 (by decide)
    · simp [hs, h2, hpush, State.push]
  | @print v rest hs | @println v rest hs =>
    have hs : s.stack = [some v] ++ rest := hs
    exact h.fall ho hi hf (by simp) rfl (by simp [hs, Opcode.info, State.print]) (below hs)
      h.globals
  | jump hl =>
    have hzero : s.stack.length = 0 := hf.control (by simp)
    exact h.land ho hi (isJump_of_ofByte? hf.known (by simp)) hl rfl
      (List.length_eq_zero_iff.1 hzero) rfl
  | @jumpZero v rest target hs hv hl =>
    have hs : s.stack = v :: rest := hs
    have hone : s.stack.length = 1 := hf.control (by simp)
    rw [hs] at hone
    exact h.land ho hi (isJump_of_ofByte? hf.known (by simp)) hl rfl
      (List.length_eq_zero_iff.1 (by simpa using hone)) rfl
  | @pass v rest hs =>
    have hs : s.stack = [v] ++ rest := hs
    exact h.fall ho hi hf (by simp) rfl (by simp [hs, Opcode.info]) (below hs) h.globals
  | @store v rest hs =>
    have hs : s.stack = [v] ++ rest := hs
    refine h.fall ho hi hf (by simp) rfl (by simp [hs, Opcode.info]) (below hs) ?_
    intro name w hw
    simp only [Table.find?_insert] at hw
    split at hw
    · obtain rfl := Option.some.inj hw
      exact h.stack v (by simp [hs])
    · exact h.globals name w hw
  | load hg =>
    exact h.fall ho hi hf (by simp) rfl rfl (pushed (h.globals _ _ hg) h.stack) h.globals

/-- A run that halts leaves nothing on the stack. -/
theorem stack_of_halted (ho : Orderly p) (h : Sane p s) (ht : turn p s = .halted s') :
    s'.stack = [] := by
  obtain ⟨i, op, hi, hf⟩ := h.fits ho
  rw [turn_of_code hi] at ht
  obtain ⟨rfl, rfl⟩ := halt_of_halted hf.known ht
  exact List.length_eq_zero_iff.1 (hf.control (by simp))

/-- A run of a script fails by an operator or by a variable without a value. -/
theorem fault_of_turn (ho : Orderly p) (h : Sane p s) {fault : Fault}
    (ht : turn p s = .failed fault s') :
    (∃ f, fault = .runtime f) ∨ ∃ f, fault = .internal f ∧ f.cause = .undefinedGlobal := by
  obtain ⟨i, op, hi, hf⟩ := h.fits ho
  rw [turn_of_code hi] at ht
  cases (breakdown_of_failed hf.known ht).mishap with
  | underflow hlt =>
    have hle := hf.pops
    have hlt : s.stack.length < op.info.pops := hlt
    omega
  | absent hmem => exact absurd (h.stack _ hmem) (by simp)
  | operator => exact Or.inl ⟨_, rfl⟩
  | label hj hl =>
    have hmem : i ∈ p.code.toList := List.mem_of_getElem? (by rw [Array.getElem?_toList, hi])
    obtain ⟨target, j, hfind, -⟩ := ho.targets i hmem (by rw [← byte_of_ofByte? hf.known]; exact hj)
    rw [hl] at hfind
    cases hfind
  | global _ hcause => exact Or.inr ⟨_, rfl, hcause⟩

/-- The invariant holds in every state that a run comes to. -/
theorem sane_of_visits (ho : Orderly p) {limit : Nat} {c₀ c : Context}
    (h : Visits p limit c₀ c s) : Sane p s :=
  h.invariant (fun _ _ => sane_of_turn ho) (sane_start ho)

end Machine

theorem orderly_of_compileSource {name source : Bytes} {p : Program}
    (h : compileSource name source = .ok p) : Orderly p := by
  obtain ⟨script, -, hp⟩ := exists_script_of_compileSource h
  exact orderly_of_compile hp

/-- In a compiled source text every place has one depth of the stack, in every run and whenever the
run comes there. So a run ends by the program, by an operator or by a variable without a value, but
never because a value, a label, an opcode or the end of the program is missing; and if it ends
without an error, the stack is empty. -/
theorem stack_depth_of_compileSource {name source : Bytes} {p : Program}
    (h : compileSource name source = .ok p) :
    ∃ depth : Nat → Nat,
      (∀ (limit : Nat) (c₀ c c' : Context) (s : Machine.State) (i : Instruction),
        Machine.Visits p limit c₀ c s → Machine.Fetches p limit c s i c' →
          s.stack.length = depth s.pc) ∧
      ∀ (fuel limit : Nat) (c : Context) (sink : Sink) (r : Report),
        Machine.run fuel p limit c sink = some r →
          (∀ fault, r.outcome = .failed fault →
            (∃ f, fault = .runtime f) ∨ ∃ f, fault = .internal f ∧ f.cause = .undefinedGlobal) ∧
          (r.outcome = .halted → r.state.stack = []) := by
  have horderly := orderly_of_compileSource h
  refine ⟨depthAt p.code.toList,
    fun limit c₀ c c' s i hv _ => (Machine.sane_of_visits horderly hv).depth,
    fun fuel limit c sink r hr => ⟨fun fault hf => ?_, fun hhalted => ?_⟩⟩
  · obtain ⟨c', s, hv, ht⟩ := Machine.failed_of_run hr hf
    exact Machine.fault_of_turn horderly (Machine.sane_of_visits horderly hv) ht
  · obtain ⟨c', s, hv, ht⟩ := Machine.halted_of_run hr hhalted
    exact Machine.stack_of_halted horderly (Machine.sane_of_visits horderly hv) ht

/-- The depths of a loop with a branch in it. -/
theorem stack_depth_of_branching_loop : ∃ p,
    compileSource [] "while x do if x then print x elif x then x else x := ~x end end" = .ok p ∧
    ∃ depth : Nat → Nat,
      (∀ (limit : Nat) (c₀ c c' : Context) (s : Machine.State) (i : Instruction),
        Machine.Visits p limit c₀ c s → Machine.Fetches p limit c s i c' →
          s.stack.length = depth s.pc) ∧
      ∀ (fuel limit : Nat) (c : Context) (sink : Sink) (r : Report),
        Machine.run fuel p limit c sink = some r →
          (∀ fault, r.outcome = .failed fault →
            (∃ f, fault = .runtime f) ∨ ∃ f, fault = .internal f ∧ f.cause = .undefinedGlobal) ∧
          (r.outcome = .halted → r.state.stack = []) := by
  have h : (compileSource []
      "while x do if x then print x elif x then x else x := ~x end end").isOk = true := by
    decide +kernel
  cases hp : compileSource []
      "while x do if x then print x elif x then x else x := ~x end end" with
  | ok p => exact ⟨p, rfl, stack_depth_of_compileSource hp⟩
  | error e =>
    rw [hp] at h
    cases h

end Scriptlet
