import Scriptlet.Proofs.Fruitless
import Scriptlet.Proofs.Provenance

/-!
# Warnings are right

A warning is about an expression or about a condition of a script. The code of an expression that is
warned about never comes to its end (`Program.Fruitless`), and the jump behind a condition that is
warned about never jumps, so that the code that only this jump leads to is never reached
(`Program.Onward`). Both hold in every run of the script, under any limit and context
(`warnings_sound`).
-/

namespace Scriptlet

/-! ## Places where a run takes one of two ways -/

/-- A condition, the place of the jump behind it, and the code, from `start` up to `stop`, that is
executed only if the jump jumps. -/
structure Fork where
  test : Expr
  jump : Nat
  start : Nat
  stop : Nat

/-- The fork of a conditional or of a loop. The jump of a conditional leads to its other branch,
that of a loop behind the loop; a label stands there. -/
def Stmt.fork? (n pc : Nat) : Stmt → Option Fork
  | .cond _ test yes no =>
    let jump := pc + test.code.length
    let start := jump + 1 + (Stmt.codeOf (n + 2) yes).length + 1
    some ⟨test, jump, start, start + 1 + (Stmt.codeOf (n + 2 + Stmt.labelCountOf yes) no).length⟩
  | .loop _ test body =>
    let jump := pc + 1 + test.code.length
    let start := jump + 1 + (Stmt.codeOf (n + 2) body).length + 1
    some ⟨test, jump, start, start + 1⟩
  | _ => none

/-- The jump of a fork never jumps, so the code that it leads to is never reached. -/
structure Program.Onward (p : Program) (f : Fork) : Prop where
  label : ∃ name, p.code[f.jump]? = some (.jumpZero name) ∧ p.code[f.start]? = some (.label name)
  passes : ∀ limit c₀ c s, Machine.Visits p limit c₀ c s → s.pc = f.jump →
    ∃ s', Machine.turn p s = .running s' ∧ s'.pc = f.jump + 1
  unreached : ∀ limit c₀ c s, Machine.Visits p limit c₀ c s → ¬(f.start ≤ s.pc ∧ s.pc < f.stop)

/-- A label in front of some code, which only one jump leads to : in front of the label stands
another jump, and nothing outside jumps into the code. -/
structure Program.Behind (p : Program) (jump start : Nat) (code : List Instruction) : Prop where
  exit : ∃ k name, k + 1 = start ∧ p.code[k]? = some (.jump name)
  entry : ∃ name, p.code[jump]? = some (.jumpZero name) ∧ p.code[start]? = some (.label name) ∧
    ∀ k i, p.code[k]? = some i → Opcode.isJump i.op = true → i.name = name → k = jump
  owns : ∃ n m, p.Owns (start + 1) n m code ∧ Labelled n m code

namespace Machine

variable {p : Program} {script : Script} {limit jump start k : Nat} {c₀ c : Context} {s : State}
  {code : List Instruction}

/-- If the only jump that leads there never jumps, the code is not reached. -/
theorem unreached_of_behind (hp : p.code.toList = script.code) (h : p.Behind jump start code)
    (htop : ∀ c s, Visits p limit c₀ c s → s.pc = jump →
      ∃ v rest, s.stack = v :: rest ∧ isFalsy v = false)
    (hv : Visits p limit c₀ c s) : ¬(start ≤ s.pc ∧ s.pc < start + 1 + code.length) := by
  obtain ⟨exit, exitName, rfl, hexit⟩ := h.exit
  obtain ⟨name, hjump, hlabel, honly⟩ := h.entry
  obtain ⟨n, m, howns, hlabelled⟩ := h.owns
  induction hv with
  | start => simp
  | @next c c' s s' i hv hf he ih =>
    rintro ⟨hle, hlt⟩
    rcases place_of_running hp hf.1 he with ⟨hnext, hne⟩ | ⟨j, hj, hop, hname, htaken⟩
    · obtain rfl : s.pc = exit := by omega
      obtain rfl := Option.some.inj (hexit.symm.trans hf.1)
      exact hne rfl
    · have hisJump : Opcode.isJump i.op = true := by
        rcases htaken with h | ⟨h, -⟩ <;> rw [h] <;> rfl
      by_cases hstart : s'.pc = exit + 1
      · -- the label itself, which only the jump names
        rw [hstart, hlabel] at hj
        obtain rfl := Option.some.inj hj
        have hpc := honly s.pc i hf.1 hisJump hname.symm
        obtain rfl := Option.some.inj (hjump.symm.trans (hpc ▸ hf.1))
        obtain ⟨v, rest, hs, htrue⟩ := htop c s hv hpc
        rcases htaken with h | ⟨-, w, rest', hs', hfalse⟩
        · exact absurd h (show Opcode.jumpZero.byte ≠ Opcode.jump.byte by decide)
        · obtain ⟨rfl, -⟩ := List.cons.inj (hs.symm.trans hs')
          rw [htrue] at hfalse
          cases hfalse
      · -- a label in the code, which only the code names
        have hmem : j ∈ code := howns.has.mem (by omega) hlt hj
        have hin : j.name ∈ labelNames code :=
          List.mem_map.2 ⟨j, List.mem_filter.2 ⟨hmem, by simpa using hop⟩, rfl⟩
        obtain ⟨l, hnl, hlm, hl⟩ := hlabelled.numbered _ hin
        have hfrom := howns.own s.pc i l hf.1 hisJump (hname.symm.trans hl) hnl hlm
        exact ih ⟨by omega, hfrom.2⟩

end Machine

/-! ## Conditions that are warned about -/

/-- A condition that is warned about is a text. -/
theorem Expr.text_of_conditionWarning {w : Warning} {test : Expr} (h : w ∈ test.conditionWarning) :
    ∃ text, test.code = [.push (.string text)] := by
  rw [← test.code_unparen]
  unfold conditionWarning at h
  split at h
  · next heq => exact ⟨_, by rw [heq]; rfl⟩
  · cases h

/-- A fork behind a text leads onward. -/
theorem Program.onward_of_behind {p : Program} {script : Script} {f : Fork} {k : Nat}
    {text : Bytes} {code : List Instruction} (hp : p.code.toList = script.code)
    (hpush : p.code[k]? = some (.push (.string text))) (hjump : f.jump = k + 1)
    (h : p.Behind f.jump f.start code) (hstop : f.stop = f.start + 1 + code.length) :
    p.Onward f := by
  obtain ⟨name, hcode, hlabel, -⟩ := h.entry
  have hinline : p.Inline (k + 1) :=
    ⟨_, hjump ▸ hcode, show Opcode.jumpZero.byte ≠ Opcode.label.byte by decide⟩
  have htop : ∀ limit c₀ c s, Machine.Visits p limit c₀ c s → s.pc = f.jump →
      ∃ rest, s.stack = some (.string text) :: rest := fun limit c₀ c s hv hpc => by
    obtain ⟨c', s', -, -, hs⟩ := Machine.pushed hp hv (hpc.trans hjump) hinline hpush
    exact ⟨s'.stack, hs⟩
  refine ⟨⟨name, hcode, hlabel⟩, fun limit c₀ c s hv hpc => ?_, fun limit c₀ c s hv => ?_⟩
  · obtain ⟨rest, hs⟩ := htop limit c₀ c s hv hpc
    rw [Machine.turn_of_code (hpc ▸ hcode)]
    simp only [Machine.execute, Instruction.jumpZero, Opcode.ofByte?_byte, Machine.withOne,
      Machine.State.advance, hs]
    exact ⟨_, rfl, congrArg (· + 1) hpc⟩
  · rw [hstop]
    refine Machine.unreached_of_behind hp h (fun c s hv hpc => ?_) hv
    obtain ⟨rest, hs⟩ := htop limit c₀ c s hv hpc
    exact ⟨_, rest, hs, rfl⟩

section Forks

variable {p : Program} {span : Span} {test : Expr} {yes no body : List Stmt} {n pc : Nat}

theorem Program.Owns.only {k m : Nat} {i : Instruction} (h : p.Owns pc m (m + 1) [i])
    {j : Instruction} (hj : p.code[k]? = some j) (hjump : Opcode.isJump j.op = true)
    (hname : j.name = labelName m) : k = pc := by
  obtain ⟨hle, hlt⟩ := h.own k j m hj hjump hname (Nat.le_refl _) (Nat.lt_succ_self _)
  exact Nat.le_antisymm (Nat.le_of_lt_succ hlt) hle

/-- The other branch of a conditional stands behind its jump. -/
theorem behind_cond (h : p.Owns pc n (n + (Stmt.cond span test yes no).labelCount)
    ((Stmt.cond span test yes no).code n)) :
    p.Behind (pc + test.code.length)
      (pc + test.code.length + 1 + (Stmt.codeOf (n + 2) yes).length + 1)
      (Stmt.codeOf (n + 2 + Stmt.labelCountOf yes) no) := by
  have hyes := Stmt.labelledOf yes (n + 2)
  have hno := Stmt.labelledOf no (n + 2 + Stmt.labelCountOf yes)
  have hjump : p.Owns (pc + test.code.length) n (n + 1) [.jumpZero (labelName n)] := by
    rw [Stmt.code] at h
    refine h.part (Nat.le_refl _) (by rw [Stmt.labelCount]; omega) test.straight.spares ?_
    exact (hyes.spares (by omega)).append ((spares_jump (by omega)).cons
      (spares_label.cons ((hno.spares (by omega)).append spares_label)))
  have hbranch := (owns_no h).congr
    (show _ = pc + test.code.length + 1 + (Stmt.codeOf (n + 2) yes).length + 1 + 1 by omega)
  rw [Stmt.code] at h
  have htail := h.has.right.tail.right
  exact ⟨⟨_, _, rfl, htail.head⟩,
    ⟨labelName n, h.has.right.head, htail.tail.head, fun k i => hjump.only⟩, ⟨_, _, hbranch, hno⟩⟩

/-- The end of a loop stands behind its jump. -/
theorem behind_loop (h : p.Owns pc n (n + (Stmt.loop span test body).labelCount)
    ((Stmt.loop span test body).code n)) :
    p.Behind (pc + 1 + test.code.length)
      (pc + 1 + test.code.length + 1 + (Stmt.codeOf (n + 2) body).length + 1) [] := by
  have hbody := Stmt.labelledOf body (n + 2)
  rw [Stmt.code] at h
  have hjump : p.Owns (pc + 1 + test.code.length) (n + 1) (n + 1 + 1)
      [.jumpZero (labelName (n + 1))] := by
    have howns : p.Owns (pc + (.label (labelName n) :: test.code).length) (n + 1) (n + 1 + 1)
        [.jumpZero (labelName (n + 1))] := by
      refine h.part (Nat.le_succ n) (by rw [Stmt.labelCount]; omega)
        (spares_label.cons test.straight.spares) ?_
      exact (hbody.spares (by omega)).append ((spares_jump (by omega)).cons spares_label)
    exact howns.congr (by rw [List.length_cons]; omega)
  have htail := h.has.tail.right.tail.right
  have hnothing : p.Owns (pc + 1 + test.code.length + 1 + (Stmt.codeOf (n + 2) body).length + 1 + 1)
      0 0 [] :=
    ⟨List.nil_prefix, fun k i l _ _ _ _ hl => absurd hl (Nat.not_lt_zero l)⟩
  exact ⟨⟨_, _, rfl, htail.head⟩,
    ⟨labelName (n + 1), h.has.tail.right.head, htail.tail.head, fun k i => hjump.only⟩,
    ⟨0, 0, hnothing, List.nodup_nil, by simp, by simp⟩⟩

end Forks

/-- A fork whose condition is warned about leads onward. -/
theorem Stmt.onward_of_conditionWarning {p : Program} {script : Script} {s : Stmt} {n pc : Nat}
    {f : Fork} {w : Warning} (hp : p.code.toList = script.code) (hs : script.PlacesStmt s n pc)
    (hf : s.fork? n pc = some f) (hw : w ∈ f.test.conditionWarning) : p.Onward f := by
  have howns := hs.owns hp
  obtain ⟨text, htext⟩ := Expr.text_of_conditionWarning hw
  have hone : f.test.code.length = 1 := by rw [htext]; rfl
  cases s with
  | cond span test yes no =>
    obtain rfl := Option.some.inj hf
    have hpush : p.Has pc [.push (.string text)] := htext ▸ howns.has.left
    exact Program.onward_of_behind hp hpush.head (congrArg (pc + ·) hone) (behind_cond howns) rfl
  | loop span test body =>
    obtain rfl := Option.some.inj hf
    have hpush : p.Has (pc + 1) [.push (.string text)] := htext ▸ howns.has.tail.left
    exact Program.onward_of_behind hp hpush.head (congrArg (pc + 1 + ·) hone) (behind_loop howns)
      rfl
  | _ => cases hf

/-! ## Where warnings come from -/

/-- The operands of an expression. -/
def Expr.operands : Expr → List Expr
  | .number _ _ | .string _ _ | .bool _ _ | .ident _ _ => []
  | .group _ inner => [inner]
  | .unary _ _ operand => [operand]
  | .binary _ _ left right => [left, right]

/-- If what is in an expression is always at the expression itself or in one of its operands, it is
at a part of the expression. -/
theorem Expr.exists_place (inside here : Expr → Prop)
    (h : ∀ e, inside e → here e ∨ ∃ x ∈ e.operands, inside x) :
    ∀ (e : Expr) (k : Nat), inside e → ∃ x k', e.Places k x k' ∧ here x := by
  intro e
  induction e with
  | group _ inner ih =>
    intro k he
    rcases h _ he with he | ⟨x, hx, he⟩
    · exact ⟨_, k, .self _ k, he⟩
    · obtain ⟨y, k', hy, hw⟩ := ih k (List.mem_singleton.1 hx ▸ he)
      exact ⟨y, k', .group hy, hw⟩
  | unary _ _ operand ih =>
    intro k he
    rcases h _ he with he | ⟨x, hx, he⟩
    · exact ⟨_, k, .self _ k, he⟩
    · obtain ⟨y, k', hy, hw⟩ := ih k (List.mem_singleton.1 hx ▸ he)
      exact ⟨y, k', .unary hy, hw⟩
  | binary _ _ left right ihl ihr =>
    intro k he
    rcases h _ he with he | ⟨x, hx, hpart⟩
    · exact ⟨_, k, .self _ k, he⟩
    · rcases List.mem_pair.1 hx with rfl | rfl
      · obtain ⟨y, k', hy, hw⟩ := ihl k hpart
        exact ⟨y, k', .left hy, hw⟩
      · obtain ⟨y, k', hy, hw⟩ := ihr (k + left.code.length) hpart
        exact ⟨y, k', .right hy, hw⟩
  | _ =>
    intro k he
    rcases h _ he with he | ⟨x, hx, -⟩
    · exact ⟨_, k, .self _ k, he⟩
    · cases hx

/-- A warning inside an expression is about a part of it. -/
theorem Expr.exists_of_warnings {w : Warning} {e : Expr} (k : Nat) (h : w ∈ e.warnings) :
    ∃ x k', e.Places k x k' ∧ w ∈ x.ownWarnings := by
  refine exists_place (fun e => w ∈ e.warnings) (fun e => w ∈ e.ownWarnings) (fun e he => ?_) e k h
  cases e with
  | group _ inner => exact Or.inr ⟨inner, List.mem_singleton_self _, he⟩
  | unary _ _ operand =>
    exact (List.mem_append.1 he).imp_right fun h => ⟨operand, List.mem_singleton_self _, h⟩
  | binary _ _ left right =>
    refine (List.mem_append.1 he).imp_right fun h => ?_
    rcases List.mem_append.1 h with h | h
    · exact ⟨left, by simp [operands], h⟩
    · exact ⟨right, by simp [operands], h⟩
  | _ => cases he

/-- A variable that an expression reads is a part of it. -/
theorem Expr.exists_of_references {o : Occurrence} {e : Expr} (k : Nat) (h : o ∈ e.references) :
    ∃ k', e.Places k (.ident o.2 o.1) k' := by
  have hsearch : ∀ e : Expr, o ∈ e.references →
      e = .ident o.2 o.1 ∨ ∃ x ∈ e.operands, o ∈ x.references := fun e he => by
    cases e with
    | group _ inner => exact Or.inr ⟨inner, List.mem_singleton_self _, he⟩
    | unary _ _ operand => exact Or.inr ⟨operand, List.mem_singleton_self _, he⟩
    | binary _ _ left right =>
      rcases List.mem_append.1 he with h | h
      · exact Or.inr ⟨left, by simp [operands], h⟩
      · exact Or.inr ⟨right, by simp [operands], h⟩
    | ident =>
      obtain rfl := List.mem_singleton.1 he
      exact Or.inl rfl
    | _ => cases he
  obtain ⟨x, k', hx, rfl⟩ := exists_place (fun e => o ∈ e.references) _ hsearch e k h
  exact ⟨k', hx⟩

/-- The lists of statements inside a statement. -/
def Stmt.branches : Stmt → List (List Stmt)
  | .print _ _ _ | .assign _ _ _ _ | .expr _ _ => []
  | .cond _ _ yes no => [yes, no]
  | .loop _ _ body => [body]

/-- What is in some statements is in the first of them or in the others, and what is in a statement
is at the statement itself or in one of its branches. -/
structure Stmt.Search (one : Stmt → Prop) (all : List Stmt → Prop)
    (here : Stmt → Nat → Nat → Prop) : Prop where
  nil : ¬all []
  cons : ∀ s rest, all (s :: rest) → one s ∨ all rest
  one : ∀ s, one s → (∀ n pc, here s n pc) ∨ ∃ branch ∈ s.branches, all branch

section Search

variable {one : Stmt → Prop} {all : List Stmt → Prop} {here : Stmt → Nat → Nat → Prop}

mutual

theorem Stmt.Search.exists_place (h : Stmt.Search one all here) :
    ∀ (s : Stmt) (rest : List Stmt) (n pc : Nat), one s →
      ∃ t m k, Stmt.Places (s :: rest) n pc t m k ∧ here t m k
  | .print _ _ _, rest, n, pc, hs | .assign _ _ _ _, rest, n, pc, hs
  | .expr _ _, rest, n, pc, hs => by
    rcases h.one _ hs with hs | ⟨branch, hb, -⟩
    · exact ⟨_, n, pc, .here .., hs n pc⟩
    · cases hb
  | .cond _ test yes no, rest, n, pc, hs => by
    rcases h.one _ hs with hs | ⟨branch, hb, hs⟩
    · exact ⟨_, n, pc, .here .., hs n pc⟩
    · simp only [Stmt.branches, List.mem_cons, List.not_mem_nil, or_false] at hb
      rcases hb with hb | hb
      · obtain ⟨t, m, k, ht, hw⟩ := h.exists_placeOf yes _ _ (hb ▸ hs)
        exact ⟨t, m, k, .yes ht, hw⟩
      · obtain ⟨t, m, k, ht, hw⟩ := h.exists_placeOf no _ _ (hb ▸ hs)
        exact ⟨t, m, k, .no ht, hw⟩
  | .loop _ test body, rest, n, pc, hs => by
    rcases h.one _ hs with hs | ⟨branch, hb, hs⟩
    · exact ⟨_, n, pc, .here .., hs n pc⟩
    · obtain ⟨t, m, k, ht, hw⟩ := h.exists_placeOf body _ _ (List.mem_singleton.1 hb ▸ hs)
      exact ⟨t, m, k, .body ht, hw⟩

/-- What is in some statements is at a statement with a place. -/
theorem Stmt.Search.exists_placeOf (h : Stmt.Search one all here) :
    ∀ (ss : List Stmt) (n pc : Nat), all ss → ∃ t m k, Stmt.Places ss n pc t m k ∧ here t m k
  | [], _, _, hs => absurd hs h.nil
  | s :: rest, n, pc, hs => by
    rcases h.cons s rest hs with hs | hs
    · exact h.exists_place s rest n pc hs
    · obtain ⟨t, m, k, ht, hw⟩ := h.exists_placeOf rest _ _ hs
      exact ⟨t, m, k, .there ht, hw⟩

end

end Search

/-- A warning about some statements is about the expression or the condition of one of them. -/
theorem Stmt.exists_of_warnings {w : Warning} {ss : List Stmt} (n pc : Nat)
    (h : w ∈ Stmt.warningsOf ss) : ∃ t m k, Stmt.Places ss n pc t m k ∧
      (w ∈ t.value.warnings ∨ ∃ f, t.fork? m k = some f ∧ w ∈ f.test.conditionWarning) := by
  have hsearch : Stmt.Search (fun s => w ∈ s.warnings) (fun ss => w ∈ Stmt.warningsOf ss)
      fun t m k => w ∈ t.value.warnings ∨
        ∃ f, t.fork? m k = some f ∧ w ∈ f.test.conditionWarning := by
    refine ⟨by simp [Stmt.warningsOf], fun s rest h => List.mem_append.1 h, fun s h => ?_⟩
    cases s with
    | cond span test yes no =>
      simp only [Stmt.warnings, List.mem_append] at h
      rcases h with h | h | h | h
      · exact Or.inl fun n pc => Or.inr ⟨_, rfl, h⟩
      · exact Or.inl fun n pc => Or.inl h
      · exact Or.inr ⟨yes, by simp [Stmt.branches], h⟩
      · exact Or.inr ⟨no, by simp [Stmt.branches], h⟩
    | loop span test body =>
      simp only [Stmt.warnings, List.mem_append] at h
      rcases h with h | h | h
      · exact Or.inl fun n pc => Or.inr ⟨_, rfl, h⟩
      · exact Or.inl fun n pc => Or.inl h
      · exact Or.inr ⟨body, by simp [Stmt.branches], h⟩
    | _ => exact Or.inl fun n pc => Or.inl h
  exact hsearch.exists_placeOf ss n pc h

/-- A variable that some statements read is read by the expression of one of them. -/
theorem Stmt.exists_of_references {o : Occurrence} {ss : List Stmt} (n pc : Nat)
    (h : o ∈ Stmt.referencesOf ss) :
    ∃ t m k, Stmt.Places ss n pc t m k ∧ o ∈ t.value.references := by
  have hsearch : Stmt.Search (fun s => o ∈ s.references) (fun ss => o ∈ Stmt.referencesOf ss)
      fun t _ _ => o ∈ t.value.references := by
    refine ⟨by simp [Stmt.referencesOf], fun s rest h => List.mem_append.1 h, fun s h => ?_⟩
    cases s with
    | cond span test yes no =>
      simp only [Stmt.references, List.mem_append] at h
      rcases h with h | h | h
      · exact Or.inl fun _ _ => h
      · exact Or.inr ⟨yes, by simp [Stmt.branches], h⟩
      · exact Or.inr ⟨no, by simp [Stmt.branches], h⟩
    | loop span test body =>
      simp only [Stmt.references, List.mem_append] at h
      rcases h with h | h
      · exact Or.inl fun _ _ => h
      · exact Or.inr ⟨body, by simp [Stmt.branches], h⟩
    | _ => exact Or.inl fun _ _ => h
  exact hsearch.exists_placeOf ss n pc h

/-! ## The whole script -/

/-- A warning about an expression itself names its place, and it is not about a condition or a
variable. -/
theorem Expr.of_ownWarnings {w : Warning} {e : Expr} (h : w ∈ e.ownWarnings) :
    w.span = e.span ∧ w.cause ≠ .textCondition ∧ ∀ name, w.cause ≠ .neverAssigned name := by
  cases e with
  | unary span op operand =>
    simp only [ownWarnings, unaryWarning] at h
    split at h
    · obtain rfl := List.mem_singleton.1 h
      exact ⟨rfl, by simp, by simp⟩
    · obtain rfl := List.mem_singleton.1 h
      exact ⟨rfl, by simp, by simp⟩
    · obtain rfl := List.mem_singleton.1 h
      exact ⟨rfl, by simp, by simp⟩
    · cases h
  | binary span op left right =>
    simp only [ownWarnings, binaryWarning] at h
    split at h
    · split at h
      · obtain rfl := List.mem_singleton.1 h
        exact ⟨rfl, by simp, by simp⟩
      · cases h
    · cases h
  | _ => cases h

theorem Warning.IsOn.span_eq {w : Warning} {e : Expr} (h : w.IsOn e) : w.span = e.span := by
  rcases h with h | ⟨span, name, rfl, rfl⟩
  · exact (Expr.of_ownWarnings h).1
  · rfl

theorem Warning.IsOn.cause_ne {w : Warning} {e : Expr} (h : w.IsOn e) :
    w.cause ≠ .textCondition := by
  rcases h with h | ⟨span, name, rfl, rfl⟩
  · exact (Expr.of_ownWarnings h).2.1
  · simp

theorem Expr.of_conditionWarning {w : Warning} {test : Expr} (h : w ∈ test.conditionWarning) :
    w = ⟨test.span, .textCondition⟩ := by
  unfold conditionWarning at h
  split at h
  · exact List.mem_singleton.1 h
  · cases h

/-- A variable is warned about only if no statement assigns it. -/
theorem Analysis.not_assigned {script : Script} {span : Span} {name : Bytes}
    (h : ⟨span, .neverAssigned name⟩ ∈ (Analysis.ofScript script).warnings) :
    ∀ o ∈ Stmt.assignmentsOf script.statements, o.1 ≠ name := by
  rcases List.mem_append.1 (List.mem_mergeSort.1 h) with h | h
  · obtain ⟨t, m, k, -, ht | ⟨f, -, hf⟩⟩ := Stmt.exists_of_warnings 0 0 h
    · obtain ⟨x, k', -, hx⟩ := Expr.exists_of_warnings k ht
      exact absurd rfl ((Expr.of_ownWarnings hx).2.2 name)
    · cases Expr.of_conditionWarning hf
  · obtain ⟨r, hr, hw⟩ := List.mem_map.1 h
    obtain ⟨rfl, rfl⟩ : r.2 = span ∧ r.1 = name := by simpa using hw
    simpa using (List.mem_filter.1 hr).2

/-- Every warning about a script is about an expression or about a condition of it. -/
theorem Analysis.exists_of_warnings {script : Script} {w : Warning}
    (h : w ∈ (Analysis.ofScript script).warnings) :
    (∃ e k, script.Places e k ∧ w.IsOn e) ∨
      ∃ s n k f, script.PlacesStmt s n k ∧ s.fork? n k = some f ∧ w ∈ f.test.conditionWarning := by
  rcases List.mem_append.1 (List.mem_mergeSort.1 h) with h | h
  · obtain ⟨t, m, k, ht, hw | ⟨f, hf, hw⟩⟩ := Stmt.exists_of_warnings 0 0 h
    · obtain ⟨x, k', hx, hw⟩ := Expr.exists_of_warnings (t.valuePlace k) hw
      exact Or.inl ⟨x, k', ⟨t, m, k, ht, hx⟩, Or.inl hw⟩
    · exact Or.inr ⟨t, m, k, f, ht, hf, hw⟩
  · obtain ⟨r, hr, rfl⟩ := List.mem_map.1 h
    obtain ⟨t, m, k, ht, ho⟩ := Stmt.exists_of_references 0 0 (List.mem_filter.1 hr).1
    obtain ⟨k', hx⟩ := Expr.exists_of_references (t.valuePlace k) ho
    exact Or.inl ⟨_, k', ⟨t, m, k, ht, hx⟩, Or.inr ⟨_, _, rfl, rfl⟩⟩

/-- A script that is read without errors has a program. -/
theorem exists_compileSource {source : Bytes} {script : Script} (h : parse source = .ok script)
    (name : Bytes) : ∃ p, compileSource name source = .ok p ∧ Orderly p ∧
      p.code.toList = script.code := by
  have hfrom := parsePartial_from source
  have hscript := tree_of_parse h
  have hsupported : script.Supported := Stmt.AllFrom.supported (hscript ▸ hfrom).2
  obtain ⟨p, hp⟩ := Script.compile_of_supported hsupported name
  exact ⟨p, by simp [compileSource, h, hp], orderly_of_compile hp, (Script.code_of_compile hp).2⟩

/-- What the analysis of a script warns about goes wrong in every run. A warning other than that of
a condition is about an expression of the script, and the code of any expression that it is about
never comes to its end. A warning of a condition is about the fork of a conditional or of a loop,
and any fork that it is about leads onward : the jump never jumps, and neither the other branch of
the conditional nor the end of the loop is reached. -/
theorem warnings_sound {source : Bytes} {script : Script} (h : parse source = .ok script)
    (name : Bytes) : ∃ p, compileSource name source = .ok p ∧
      ∀ w ∈ (Analysis.ofScript script).warnings,
        (w.cause ≠ .textCondition → ∃ e k, script.Places e k ∧ w.IsOn e ∧ w.span = e.span) ∧
        (w.cause = .textCondition → ∃ s n k f, script.PlacesStmt s n k ∧ s.fork? n k = some f ∧
          w ∈ f.test.conditionWarning ∧ w.span = f.test.span) ∧
        (∀ e k, script.Places e k → w.IsOn e →
          p.Has k e.code ∧ p.Fruitless k (k + e.code.length)) ∧
        ∀ s n k f, script.PlacesStmt s n k → s.fork? n k = some f →
          w ∈ f.test.conditionWarning → p.Onward f := by
  obtain ⟨p, hcompile, ho, hp⟩ := exists_compileSource h name
  refine ⟨p, hcompile, fun w hw => ⟨fun hcause => ?_, fun hcause => ?_, fun e k he hon => ?_,
    fun s n k f hs hf hwarned => Stmt.onward_of_conditionWarning hp hs hf hwarned⟩⟩
  · rcases Analysis.exists_of_warnings hw with ⟨e, k, he, hon⟩ | ⟨s, n, k, f, -, -, hf⟩
    · exact ⟨e, k, he, hon, hon.span_eq⟩
    · exact absurd (congrArg Warning.cause (Expr.of_conditionWarning hf)) hcause
  · rcases Analysis.exists_of_warnings hw with ⟨e, k, he, hon⟩ | ⟨s, n, k, f, hs, hf, hwarned⟩
    · exact absurd hcause hon.cause_ne
    · exact ⟨s, n, k, f, hs, hf, hwarned, congrArg Warning.span (Expr.of_conditionWarning hwarned)⟩
  · refine ⟨(he.has hp).1, hon.fruitless ho hp he ?_⟩
    rintro span x rfl
    exact Analysis.not_assigned hw

/-- A loop that never exits through its condition, with a division that never gives a value. -/
theorem warnings_sound_of_endless_loop : ∃ script p e k s n l f,
    parse "while ('x') do y := 1 print y % (0) end" = .ok script ∧
      compileSource [] "while ('x') do y := 1 print y % (0) end" = .ok p ∧
      (∃ w ∈ (Analysis.ofScript script).warnings, w.cause = .divisionByZero ∧ w.IsOn e) ∧
      script.Places e k ∧ p.Fruitless k (k + e.code.length) ∧
      (∃ w ∈ (Analysis.ofScript script).warnings, w ∈ f.test.conditionWarning) ∧
      script.PlacesStmt s n l ∧ s.fork? n l = some f ∧ p.Onward f := by
  have hcauses : (parse "while ('x') do y := 1 print y % (0) end").toOption.map
      (fun script => (Stmt.warningsOf script.statements).map (·.cause)) =
        some [.textCondition, .divisionByZero] := by decide +kernel
  cases hparse : parse "while ('x') do y := 1 print y % (0) end" with
  | error e => simp [hparse, Except.toOption] at hcauses
  | ok script =>
    have hcauses : (Stmt.warningsOf script.statements).map (·.cause) =
        [.textCondition, .divisionByZero] := by simpa [hparse, Except.toOption] using hcauses
    have hwarning : ∀ cause ∈ [WarningCause.textCondition, .divisionByZero],
        ∃ w ∈ (Analysis.ofScript script).warnings, w.cause = cause := fun cause hcause => by
      obtain ⟨w, hw, hc⟩ := List.mem_map.1 (hcauses ▸ hcause)
      exact ⟨w, List.mem_mergeSort.2 (List.mem_append_left _ hw), hc⟩
    obtain ⟨w, hw, hcause⟩ := hwarning .divisionByZero (by simp)
    obtain ⟨w', hw', hcause'⟩ := hwarning .textCondition (by simp)
    obtain ⟨p, hp, hsound⟩ := warnings_sound hparse []
    obtain ⟨hexpr, -, hfruitless, -⟩ := hsound w hw
    obtain ⟨-, hfork, -, honward⟩ := hsound w' hw'
    obtain ⟨e, k, he, hon, -⟩ := hexpr (by simp [hcause])
    obtain ⟨s, n, l, f, hs, hf, htest, -⟩ := hfork hcause'
    exact ⟨script, p, e, k, s, n, l, f, rfl, hp, ⟨w, hw, hcause, hon⟩, he,
      (hfruitless e k he hon).2, ⟨w', hw', htest⟩, hs, hf, honward s n l f hs hf htest⟩

end Scriptlet
