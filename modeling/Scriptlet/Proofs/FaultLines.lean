import Scriptlet.Proofs.Emitters
import Scriptlet.Proofs.Fruitless
import Scriptlet.Proofs.Marks

/-!
# The lines of runtime errors

A runtime error is raised by the instruction of an operator, and has the line that the source map
gives for it (`Machine.runtime_of_turn`). That instruction is emitted for a node of the script, a
unary or a binary operation. The steps of the node stand together among the steps of the script
(`Script.Places.steps`), and begin with its mark, so the line is one on which a node below it
starts, and within its range.

Main statement : `fault_within_operator`.
-/

namespace Scriptlet

/-! ## Steps at places -/

namespace Emission

variable {steps xs ys : List Emission} {k j : Nat}

/-- Among some steps, behind `k` instructions, stand the steps `xs`. -/
def Has (steps : List Emission) (k : Nat) (xs : List Emission) : Prop :=
  ∃ pre post, steps = pre ++ (xs ++ post) ∧ (code pre).length = k

theorem has_self (steps : List Emission) : Has steps 0 steps :=
  ⟨[], [], by simp, rfl⟩

theorem Has.trans (h : Has steps k xs) (h' : Has xs j ys) : Has steps (k + j) ys := by
  obtain ⟨pre, post, rfl, rfl⟩ := h
  obtain ⟨pre', post', rfl, rfl⟩ := h'
  exact ⟨pre ++ pre', post' ++ post, by simp, by simp⟩

theorem Has.before (h : Has steps k xs) (more : List Emission) : Has (steps ++ more) k xs := by
  obtain ⟨pre, post, rfl, hk⟩ := h
  exact ⟨pre, post ++ more, by simp, hk⟩

theorem Has.congr (h : Has steps k xs) (hk : k = j) : Has steps j xs := hk ▸ h

/-- An instruction of the steps `xs` has the line there that it has among these. -/
theorem Has.exists_line (h : Has steps k xs) (hj : j < (code xs).length) (line : Int) :
    ∃ line', ∃ x ∈ lines line' xs, (lines line steps)[k + j]? = some x := by
  obtain ⟨pre, post, rfl, rfl⟩ := h
  rw [← length_lines (lineAfter line pre)] at hj
  refine ⟨lineAfter line pre, _, List.getElem_mem hj, ?_⟩
  rw [lines_append, lines_append, ← length_lines line pre, List.getElem?_append_right
    (Nat.le_add_right _ _), Nat.add_sub_cancel_left, List.getElem?_append_left hj,
    List.getElem?_eq_getElem]

end Emission

/-- The steps of a part of an expression stand at its place. -/
theorem Expr.Places.steps {e x : Expr} {pc k : Nat} (h : e.Places pc x k) :
    ∀ {es : List Emission}, e.emissions = .ok es →
      ∃ xs d, x.emissions = .ok xs ∧ k = pc + d ∧ Emission.Has es d xs := by
  induction h with
  | self e pc => exact fun he => ⟨_, 0, he, rfl, Emission.has_self _⟩
  | @group span _ _ _ _ _ ih =>
    intro es he
    obtain ⟨is, hi, rfl⟩ := Expr.emissions_group he
    obtain ⟨xs, d, hx, rfl, hhas⟩ := ih hi
    have hinner : Emission.Has (span.start.mark ++ is) 0 is :=
      ⟨span.start.mark, [], by simp, by simp⟩
    exact ⟨xs, d, hx, rfl, (hinner.trans hhas).congr (Nat.zero_add d)⟩
  | @unary span _ _ _ _ _ _ ih =>
    intro es he
    obtain ⟨os, is, ho, -, rfl⟩ := Expr.emissions_unary he
    obtain ⟨xs, d, hx, rfl, hhas⟩ := ih ho
    have hoperand : Emission.Has (span.start.mark ++ os ++ is.map .instruction) 0 os :=
      ⟨span.start.mark, is.map .instruction, by simp, by simp⟩
    exact ⟨xs, d, hx, rfl, (hoperand.trans hhas).congr (Nat.zero_add d)⟩
  | @left span _ _ _ _ _ _ _ ih =>
    intro es he
    obtain ⟨ls, rs, opcode, hl, -, -, rfl⟩ := Expr.emissions_binary he
    obtain ⟨xs, d, hx, rfl, hhas⟩ := ih hl
    have hleft : Emission.Has (span.start.mark ++ ls ++ rs ++ [.instruction (.simple opcode)])
        0 ls :=
      ⟨span.start.mark, rs ++ [.instruction (.simple opcode)], by simp, by simp⟩
    exact ⟨xs, d, hx, rfl, (hleft.trans hhas).congr (Nat.zero_add d)⟩
  | @right span _ left _ _ pc _ _ ih =>
    intro es he
    obtain ⟨ls, rs, opcode, hl, hr, -, rfl⟩ := Expr.emissions_binary he
    obtain ⟨xs, d, hx, rfl, hhas⟩ := ih hr
    have hright : Emission.Has (span.start.mark ++ ls ++ rs ++ [.instruction (.simple opcode)])
        left.code.length rs :=
      ⟨span.start.mark ++ ls, [.instruction (.simple opcode)], by simp,
        by simp [(Expr.code_of_emissions hl).2]⟩
    exact ⟨xs, left.code.length + d, hx, Nat.add_assoc _ _ _, hright.trans hhas⟩

/-- The steps of the expression that a statement begins with stand at its place. -/
theorem Stmt.steps_of_value {s : Stmt} {n m k : Nat} {es : List Emission}
    (h : s.emissions n = .ok (es, m)) :
    ∃ vs d, s.value.emissions = .ok vs ∧ s.valuePlace k = k + d ∧ Emission.Has es d vs := by
  cases s with
  | print span | assign span | expr span =>
    obtain ⟨vs, hv, h⟩ := exists_ok_of_bind h
    obtain ⟨rfl, -⟩ := Prod.mk.inj (Except.ok.inj h)
    exact ⟨vs, 0, hv, rfl, span.start.mark, _, List.append_assoc _ _ _, by simp⟩
  | cond span =>
    obtain ⟨ts, ys, ns, l, ht, -, -, rfl⟩ := Stmt.emissions_cond h
    exact ⟨ts, 0, ht, rfl, span.start.mark, _, by simp only [List.append_assoc]; rfl, by simp⟩
  | loop span =>
    obtain ⟨ts, bs, ht, -, rfl⟩ := Stmt.emissions_loop h
    exact ⟨ts, 1, ht, rfl, span.start.mark ++ [.instruction (.label (labelName n))], _,
      by simp only [List.append_assoc]; rfl, by simp⟩

/-- The steps of a statement among or inside some statements stand at its place. -/
theorem Stmt.Places.steps {ss : List Stmt} {t : Stmt} {n pc m k : Nat}
    (h : Stmt.Places ss n pc t m k) : ∀ {es : List Emission} {l : Nat},
      Stmt.emissionsOf ss n = .ok (es, l) →
      ∃ ts l' d, t.emissions m = .ok (ts, l') ∧ k = pc + d ∧ Emission.Has es d ts := by
  induction h with
  | here s rest n pc =>
    intro es l hes
    obtain ⟨fs, rs, l', hf, -, rfl⟩ := Stmt.emissionsOf_cons hes
    exact ⟨fs, l', 0, hf, rfl, [], rs, rfl, rfl⟩
  | @there s _ _ n _ _ _ _ ih =>
    intro es l hes
    obtain ⟨fs, rs, l', hf, hr, rfl⟩ := Stmt.emissionsOf_cons hes
    obtain ⟨-, hcode, rfl⟩ := Stmt.code_of_emissions hf
    obtain ⟨ts, l₀, d, ht, rfl, hhas⟩ := ih hr
    have hrest : Emission.Has (fs ++ rs) (s.code n).length rs := ⟨fs, [], by simp, by rw [hcode]⟩
    exact ⟨ts, l₀, (s.code n).length + d, ht, Nat.add_assoc _ _ _, hrest.trans hhas⟩
  | @yes span test _ _ _ _ n _ _ _ _ ih =>
    intro es l hes
    obtain ⟨fs, rs, l', hf, -, rfl⟩ := Stmt.emissionsOf_cons hes
    obtain ⟨cs, ys, ns, l₁, hc, hy, -, rfl⟩ := Stmt.emissions_cond hf
    obtain ⟨ts, l₀, d, ht, rfl, hhas⟩ := ih hy
    refine ⟨ts, l₀, test.code.length + 1 + d, ht, by omega, Emission.Has.trans ?_ hhas⟩
    exact ⟨span.start.mark ++ cs ++ [.instruction (.jumpZero (labelName n))], _,
      by simp only [List.append_assoc]; rfl, by simp [(Expr.code_of_emissions hc).2]⟩
  | @no span test yes _ _ _ n _ _ _ _ ih =>
    intro es l hes
    obtain ⟨fs, rs, l', hf, -, rfl⟩ := Stmt.emissionsOf_cons hes
    obtain ⟨cs, ys, ns, l₁, hc, hy, hn, rfl⟩ := Stmt.emissions_cond hf
    obtain ⟨-, hcode, rfl⟩ := Stmt.codeOf_of_emissions hy
    obtain ⟨ts, l₀, d, ht, rfl, hhas⟩ := ih hn
    refine ⟨ts, l₀, test.code.length + 1 + (Stmt.codeOf (n + 2) yes).length + 2 + d, ht, by omega,
      Emission.Has.trans ?_ hhas⟩
    exact ⟨span.start.mark ++ cs ++ [.instruction (.jumpZero (labelName n))] ++ ys ++
      [.instruction (.jump (labelName (n + 1))), .instruction (.label (labelName n))], _,
      by simp only [List.append_assoc]; rfl, by simp [(Expr.code_of_emissions hc).2, hcode]; omega⟩
  | @body span test _ _ _ n _ _ _ _ ih =>
    intro es l hes
    obtain ⟨fs, rs, l', hf, -, rfl⟩ := Stmt.emissionsOf_cons hes
    obtain ⟨cs, bs, hc, hb, rfl⟩ := Stmt.emissions_loop hf
    obtain ⟨ts, l₀, d, ht, rfl, hhas⟩ := ih hb
    refine ⟨ts, l₀, 1 + test.code.length + 1 + d, ht, by omega, Emission.Has.trans ?_ hhas⟩
    exact ⟨span.start.mark ++ [.instruction (.label (labelName n))] ++ cs ++
      [.instruction (.jumpZero (labelName (n + 1)))], _, by simp only [List.append_assoc]; rfl,
      by simp [(Expr.code_of_emissions hc).2]; omega⟩

/-- The steps of an expression of a script stand at its place. -/
theorem Script.Places.steps {script : Script} {e : Expr} {k : Nat} (h : script.Places e k)
    {body : List Emission} {m : Nat}
    (hbody : Stmt.emissionsOf script.statements 0 = .ok (body, m)) :
    ∃ es, e.emissions = .ok es ∧ Emission.Has body k es := by
  obtain ⟨s, n, a, hs, he⟩ := h
  obtain ⟨ts, l, d, ht, rfl, hhas⟩ := Stmt.Places.steps hs hbody
  obtain ⟨vs, d', hv, hplace, hvalue⟩ := Stmt.steps_of_value (k := 0 + d) ht
  obtain ⟨es, d'', hes, rfl, hexpr⟩ := he.steps hv
  refine ⟨es, hes, ((hhas.trans hvalue).trans hexpr).congr ?_⟩
  omega

/-! ## Runtime errors -/

/-- The instruction calculates the value of an operator. -/
def Instruction.Operates (i : Instruction) : Prop :=
  ∃ op, Opcode.ofByte? i.op = some op ∧ (op = .neg ∨ op.info.pops = 2)

namespace Machine

variable {p : Program} {labels : Table Nat} {i : Instruction} {s s' : State} {f : RuntimeFault}

/-- A runtime error is raised by the instruction of an operator. It tells the opcode, the place and
the line of that instruction. -/
theorem runtime_of_execute (h : execute p labels i s = .failed (.runtime f) s') :
    i.Operates ∧ f.op = i.op ∧ f.pc = s.pc - 1 ∧ f.line = p.lineOf ((s.pc - 1 : Nat) : Int) := by
  cases hop : Opcode.ofByte? i.op with
  | none => cases (execute_unknown hop).symm.trans h
  | some op =>
    have hbreak := breakdown_of_failed hop h
    exact ⟨⟨op, hop, hbreak.operator f rfl⟩, hbreak.tells⟩

/-- A runtime error that ends a run is raised in a state that the run visits. -/
theorem runtime_of_run {fuel limit : Nat} {c : Context} {sink : Sink} {r : Report}
    (h : run fuel p limit c sink = some r) (hr : r.outcome = .failed (.runtime f)) :
    ∃ i, p.code[f.pc]? = some i ∧ i.Operates ∧ f.op = i.op ∧ f.line = p.lineOf f.pc := by
  obtain ⟨c', s, -, ht⟩ := failed_of_run h hr
  cases hi : p.code[s.pc]? with
  | none =>
    rw [turn, hi] at ht
    cases ht
  | some i =>
    rw [turn_of_code hi] at ht
    obtain ⟨hoperates, hop, hpc, hline⟩ := runtime_of_execute ht
    have hplace : f.pc = s.pc := hpc.trans (Nat.add_sub_cancel s.pc 1)
    exact ⟨i, hplace ▸ hi, hoperates, hop, hpc ▸ hline⟩

end Machine

/-! ## The operator that failed -/

/-- The expression is a unary or a binary operation. -/
def Expr.IsOperation (e : Expr) : Prop :=
  (∃ span op operand, e = .unary span op operand) ∨
    ∃ span op left right, e = .binary span op left right

/-- No frame of statements calculates, and the last instruction does not either. -/
theorem Instruction.Operates.not_frames {i : Instruction} (h : i.Operates) :
    ¬i.Frames ∧ i.op ≠ Opcode.halt.byte := by
  obtain ⟨op, hop, hoperator⟩ := h
  have hbyte : i.op = op.byte := (byte_of_ofByte? hop).symm
  rw [Instruction.Frames, hbyte]
  rcases hoperator with rfl | hpops
  · decide
  · revert hpops
    cases op <;> decide

theorem Expr.isOperation_of_mem {e : Expr} {i : Instruction} (hi : i ∈ e.ownCode)
    (h : i.Operates) : e.IsOperation := by
  have hpush (v : Value) : ¬(Instruction.push v).Operates := by
    rintro ⟨op, hop, hoperator⟩
    obtain rfl := Option.some.inj ((Opcode.ofByte?_byte .push).symm.trans hop)
    exact absurd hoperator (by decide)
  have hload (name : Bytes) : ¬(Instruction.loadGlobal name).Operates := by
    rintro ⟨op, hop, hoperator⟩
    obtain rfl := Option.some.inj ((Opcode.ofByte?_byte .loadGlobal).symm.trans hop)
    exact absurd hoperator (by decide)
  cases e with
  | number | string | bool => exact absurd (List.mem_singleton.1 hi ▸ h) (hpush _)
  | ident => exact absurd (List.mem_singleton.1 hi ▸ h) (hload _)
  | group => cases hi
  | unary => exact .inl ⟨_, _, _, rfl⟩
  | binary => exact .inr ⟨_, _, _, _, rfl⟩

section

variable {source name : Bytes} {script : Script} {p : Program} {e : Expr} {i : Instruction}
  {k pc : Nat}

/-- What an expression emits is one of its own instructions. -/
theorem Script.Places.mem_ownCode (h : script.Places e k) (hp : p.code.toList = script.code)
    (hemits : e.Emits k pc) (hi : p.code[pc]? = some i) : i ∈ e.ownCode := by
  obtain ⟨operands, hcode, hplace⟩ := e.exists_code_eq k
  obtain ⟨hle, hlt⟩ := hemits
  obtain ⟨d, rfl⟩ := Nat.exists_eq_add_of_le hle
  have hhas := (h.has hp).1
  rw [hcode, List.length_append] at hlt
  rw [hcode] at hhas
  rw [hplace, hhas.right.getElem? (by omega)] at hi
  exact List.mem_of_getElem? hi

theorem Program.lineOf_of_lines {x : Int} (h : p.lines[k]? = some x) : p.lineOf k = x := by
  rw [Program.lines, List.getElem?_map] at h
  obtain ⟨j, hj, rfl⟩ := Option.map_eq_some_iff.1 h
  obtain ⟨hlt, rfl⟩ := List.getElem?_eq_some_iff.1 hj
  rw [List.getElem_range]

/-- An instruction in the code of an expression has a line on which a node of the expression
starts. -/
theorem exists_node_of_line (hparse : parse source = .ok script)
    (hp : script.compile name = .ok p) (h : script.Places e k) (hle : k ≤ pc)
    (hlt : pc < k + e.code.length) :
    ∃ n ∈ (Node.expr e).walk, p.lineOf pc = n.span.start.line := by
  obtain ⟨body, m, hbody, rfl⟩ := Script.steps_of_compile hp
  obtain ⟨es, hes, hhas⟩ := h.steps hbody
  have hcode := (Expr.code_of_emissions hes).2
  have hlines := (Program.lines_foldl (Program.ordered_empty name)
    (body ++ script.span.stop.mark ++ [.instruction (.simple .halt)])).2
  obtain ⟨d, rfl⟩ := Nat.exists_eq_add_of_le hle
  have hd : d < (Emission.code es).length := by
    rw [hcode]
    omega
  obtain ⟨line', x, hmem, hline⟩ := ((hhas.before script.span.stop.mark).before
    [.instruction (.simple .halt)]).exists_line hd 0
  have hx : (Program.ofEmissions name _).lineOf ((k + d : Nat) : Int) = x :=
    Program.lineOf_of_lines ((congrArg (·[k + d]?) hlines).trans hline)
  -- the steps of the expression begin with its mark
  obtain ⟨rest, rfl⟩ := Expr.exists_rest_of_emissions hes
  have hpos : 0 < e.span.start.line := (in_of_parse hparse h.mem_walk).1.pos.1
  obtain ⟨m, hm, rfl⟩ := Emission.exists_mark_of_mem_lines_mark hpos hmem
  rw [Expr.marks_of_emissions hes] at hm
  obtain ⟨n, hn, rfl⟩ := List.mem_map.1 (List.mem_filter.1 hm).1
  exact ⟨n, hn, hx⟩

/-- The nodes below a node of a text start on its lines. -/
theorem lines_of_mem_walk (hparse : parse source = .ok script) {n m : Node}
    (hn : n ∈ (Node.script script).walk) (hm : m ∈ n.walk) :
    n.span.start.line ≤ m.span.start.line ∧ m.span.start.line ≤ n.span.stop.line := by
  have hbuilt := builtFrom_parsePartial source
  rw [tree_of_parse hparse] at hbuilt
  obtain ⟨u, hu, hnu⟩ := hbuilt.exists_of_mem_walk n hn
  obtain ⟨v, hv, hmv⟩ := hnu.exists_of_mem_walk m hm
  have hordered := (inOrder_tokenize source).sublist hu.sublist
  obtain ⟨hstart, hstop⟩ := hnu.start_of_mem_walk hordered hm
  have hinn := in_of_parse hparse hn
  have hinm := hmv.covers.in fun t ht => (List.mem_filter.1 (hu.subset (hv.subset ht))).1
  exact ⟨hinn.1.line_le hinm.1 hstart, hinm.1.line_le hinn.2 hstop⟩

end

/-- Runtime errors point into the operation that failed. If a run of a compiled text ends in a
runtime error, the instruction that failed is an own instruction of one unary or binary operation of
the tree, and of no other node; the error tells its opcode. The line of the error is known, and lies
between the first and the last line of that operation. -/
theorem fault_within_operator {source name : Bytes} {p : Program}
    (h : compileSource name source = .ok p) {fuel limit : Nat} {c : Context} {sink : Sink}
    {r : Report} (hrun : Machine.run fuel p limit c sink = some r) {f : RuntimeFault}
    (hfailed : r.outcome = .failed (.runtime f)) :
    ∃ script e k i, parse source = .ok script ∧ script.Places e k ∧ e.IsOperation ∧
      e.Emits k f.pc ∧ (∀ x j, script.Places x j → x.Emits j f.pc → x = e ∧ j = k) ∧
      p.code[f.pc]? = some i ∧ i ∈ e.ownCode ∧ i.op = f.op ∧
      0 < f.line ∧ e.span.start.line ≤ f.line ∧ f.line ≤ e.span.stop.line := by
  obtain ⟨script, hparse, hcompile⟩ := exists_script_of_compileSource h
  have hcode := (Script.code_of_compile hcompile).2
  obtain ⟨i, hi, hoperates, hop, hline⟩ := Machine.runtime_of_run hrun hfailed
  obtain ⟨hframe, hhalt⟩ := hoperates.not_frames
  have hstands : script.code[f.pc]? = some i := by rw [← hcode, Array.getElem?_toList, hi]
  obtain ⟨e, k, hplace, hemits⟩ := Script.exists_emitter hstands hframe hhalt
  have hown := hplace.mem_ownCode hcode hemits hi
  obtain ⟨n, hn, hnode⟩ := exists_node_of_line hparse hcompile hplace
    (Nat.le_trans (e.le_ownPlace k) hemits.1) hemits.2
  obtain ⟨hstart, hstop⟩ : e.span.start.line ≤ n.span.start.line ∧
      n.span.start.line ≤ e.span.stop.line := lines_of_mem_walk hparse hplace.mem_walk hn
  have hpos : 0 < e.span.start.line := (in_of_parse hparse hplace.mem_walk).1.pos.1
  refine ⟨script, e, k, i, hparse, hplace, Expr.isOperation_of_mem hown hoperates, hemits,
    fun x j hx hxe => hx.eq_of_emits hxe hplace hemits, hi, hown, hop.symm, ?_⟩
  rw [hline, hnode]
  omega

/-- The second round of a loop divides by zero. The division stands on two lines, and the error has
the line of its right operand. -/
theorem fault_within_operator_of_loop : ∃ p r f,
    compileSource [] "x := 0\nwhile x <\n2 do\nx := x + (1\n+ 0) println 7\n% (1\n- x) end" =
      .ok p ∧
    Machine.run 100 p 0 {} .working = some r ∧ r.outcome = .failed (.runtime f) ∧ f.line = 7 ∧
    ∃ (script : Script) (e : Expr) (k : Nat), script.Places e k ∧ e.IsOperation ∧ e.Emits k f.pc ∧
      e.span.start.line ≤ 7 ∧ 7 ≤ e.span.stop.line := by
  have hfault : (compileSource []
      "x := 0\nwhile x <\n2 do\nx := x + (1\n+ 0) println 7\n% (1\n- x) end").toOption.bind
      (fun p => (Machine.run 100 p 0 {} .working).map (·.outcome)) =
        some (.failed (.runtime ⟨0x14, 17, 7, [.number, .number], .divisionByZero⟩)) := by
    decide +kernel
  obtain ⟨p, hp, hrun⟩ := Option.bind_eq_some_iff.1 hfault
  obtain ⟨r, hr, hfailed⟩ := Option.map_eq_some_iff.1 hrun
  cases hcompile : compileSource []
      "x := 0\nwhile x <\n2 do\nx := x + (1\n+ 0) println 7\n% (1\n- x) end" with
  | error e =>
    rw [hcompile] at hp
    cases hp
  | ok q =>
    rw [hcompile] at hp
    obtain rfl := Option.some.inj hp
    obtain ⟨script, e, k, i, -, hplace, hoperation, hemits, -, -, -, -, -, hstart, hstop⟩ :=
      fault_within_operator hcompile hr hfailed
    exact ⟨q, r, _, rfl, hr, hfailed, rfl, script, e, k, hplace, hoperation, hemits,
      Int.ofNat_le.1 hstart, Int.ofNat_le.1 hstop⟩

end Scriptlet
