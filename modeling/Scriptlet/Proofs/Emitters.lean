import Scriptlet.Proofs.Occurrences
import Scriptlet.Proofs.Spans

/-!
# What instructions are emitted for

The code of an expression is the code of its operands and then its own instructions
(`Expr.ownCode`). So each instruction in it is one of the own instructions of a node
(`Expr.exists_emitter`), and of one node only (`Expr.Places.eq_of_emits`). In the code of a script,
each instruction belongs to the expression that one of its statements begins with, or it is a frame
of statements (`Stmt.ownedOf`). So an instruction that is no such frame is emitted for a node of the
script (`Script.exists_emitter`), and for that one only (`Script.Places.eq_of_emits`).
-/

namespace Scriptlet

variable {base pc k j : Nat} {i : Instruction}

/-! ## Expressions -/

namespace Expr

variable {e x y : Expr}

/-- The instructions of an expression behind those of its operands. -/
def ownCode : Expr → List Instruction
  | .number _ x => [.push (.number x)]
  | .string _ s => [.push (.string s)]
  | .bool _ b => [.push (.bool b)]
  | .ident _ name => [.loadGlobal name]
  | .group _ _ => []
  | .unary _ op _ => (unaryInstructions? op).getD []
  | .binary _ op _ _ => ((binaryOpcode? op).map Instruction.simple).toList

/-- Where these instructions begin, if the code of the expression begins at `k`. -/
def ownPlace (k : Nat) : Expr → Nat
  | .group _ inner => k + inner.code.length
  | .unary _ _ operand => k + operand.code.length
  | .binary _ _ left right => k + left.code.length + right.code.length
  | _ => k

/-- If the code of the expression begins at `k`, the instruction at `pc` is one of its own. -/
def Emits (e : Expr) (k pc : Nat) : Prop := e.ownPlace k ≤ pc ∧ pc < k + e.code.length

theorem le_ownPlace (e : Expr) (k : Nat) : k ≤ e.ownPlace k := by
  cases e <;> simp only [ownPlace] <;> omega

/-- The own instructions are the last ones. -/
theorem exists_code_eq (e : Expr) (k : Nat) :
    ∃ operands, e.code = operands ++ e.ownCode ∧ e.ownPlace k = k + operands.length := by
  cases e with
  | number | string | bool | ident => exact ⟨[], rfl, rfl⟩
  | group _ inner => exact ⟨inner.code, (List.append_nil _).symm, rfl⟩
  | unary _ _ operand => exact ⟨operand.code, rfl, rfl⟩
  | binary _ _ left right =>
    refine ⟨left.code ++ right.code, (List.append_assoc _ _ _).symm, ?_⟩
    rw [ownPlace, List.length_append, Nat.add_assoc]

/-- The code of a part of an expression is a part of its code. -/
theorem Places.inside (h : e.Places base x k) :
    base ≤ k ∧ k + x.code.length ≤ base + e.code.length := by
  induction h with
  | self => exact ⟨Nat.le_refl _, Nat.le_refl _⟩
  | group _ ih => exact ih
  | unary _ ih =>
    rw [code, List.length_append]
    omega
  | left _ ih | right _ ih =>
    rw [code, List.length_append, List.length_append]
    omega

/-- Each instruction of an expression is emitted for a node of it. -/
theorem exists_emitter (e : Expr) (h : base ≤ pc) (h' : pc < base + e.code.length) :
    ∃ x k, e.Places base x k ∧ x.Emits k pc := by
  induction e generalizing base with
  | number | string | bool | ident => exact ⟨_, _, .self _ _, h, h'⟩
  | group _ inner ih =>
    obtain ⟨x, k, hx, hemits⟩ := ih h h'
    exact ⟨x, k, .group hx, hemits⟩
  | unary _ _ operand ih =>
    by_cases hpc : pc < base + operand.code.length
    · obtain ⟨x, k, hx, hemits⟩ := ih h hpc
      exact ⟨x, k, .unary hx, hemits⟩
    · exact ⟨_, _, .self _ _, Nat.le_of_not_lt hpc, h'⟩
  | binary _ _ left right ihl ihr =>
    by_cases hleft : pc < base + left.code.length
    · obtain ⟨x, k, hx, hemits⟩ := ihl h hleft
      exact ⟨x, k, .left hx, hemits⟩
    by_cases hright : pc < base + left.code.length + right.code.length
    · obtain ⟨x, k, hx, hemits⟩ := ihr (Nat.le_of_not_lt hleft) hright
      exact ⟨x, k, .right hx, hemits⟩
    · exact ⟨_, _, .self _ _, Nat.le_of_not_lt hright, h'⟩

/-- An expression whose code ends before the own instructions of another one does not emit them. -/
theorem Emits.not_before (hx : x.Emits k pc) (hy : y.Emits j pc)
    (h : k + x.code.length ≤ y.ownPlace j) : False :=
  Nat.not_le_of_lt hx.2 (Nat.le_trans h hy.1)

/-- The node that an instruction is emitted for is the only one. -/
theorem Places.eq_of_emits (h : e.Places base x k) (hx : x.Emits k pc) (h' : e.Places base y j)
    (hy : y.Emits j pc) : x = y ∧ k = j := by
  induction h with
  | self e base =>
    cases h' with
    | self => exact ⟨rfl, rfl⟩
    | group h' | unary h' | right h' => exact (hy.not_before hx h'.inside.2).elim
    | left h' => exact (hy.not_before hx (Nat.le_add_right_of_le h'.inside.2)).elim
  | group h ih =>
    cases h' with
    | self => exact (hx.not_before hy h.inside.2).elim
    | group h' => exact ih hx h'
  | unary h ih =>
    cases h' with
    | self => exact (hx.not_before hy h.inside.2).elim
    | unary h' => exact ih hx h'
  | left h ih =>
    cases h' with
    | self => exact (hx.not_before hy (Nat.le_add_right_of_le h.inside.2)).elim
    | left h' => exact ih hx h'
    | right h' =>
      have hle := Nat.le_trans h'.inside.1 (y.le_ownPlace j)
      exact (hx.not_before hy (Nat.le_trans h.inside.2 hle)).elim
  | @right _ _ _ _ z _ l h ih =>
    cases h' with
    | self => exact (hx.not_before hy h.inside.2).elim
    | left h' =>
      have hle := Nat.le_trans h.inside.1 (z.le_ownPlace l)
      exact (hy.not_before hx (Nat.le_trans h'.inside.2 hle)).elim
    | right h' => exact ih hx h'

end Expr

/-! ## Statements -/

/-- The instruction is one that no expression has : it ends a statement, or leads from one to
another. -/
def Instruction.Frames (i : Instruction) : Prop :=
  i.op ∈ [Opcode.print, .println, .pop, .storeGlobal, .label, .jump, .jumpZero].map Opcode.byte

theorem frames_of_mem (op : Opcode) (hop : i.op = op.byte)
    (h : op ∈ [Opcode.print, .println, .pop, .storeGlobal, .label, .jump, .jumpZero]) : i.Frames :=
  List.mem_map.2 ⟨op, h, hop.symm⟩

/-- If the code of the statement begins at `k`, the instruction at `pc` is in the code of the
expression that it begins with. -/
def Stmt.Holds (s : Stmt) (k pc : Nat) : Prop :=
  s.valuePlace k ≤ pc ∧ pc < s.valuePlace k + s.value.code.length

section

variable {a b : List Instruction} {first : Instruction} {n : Nat}

/-- An instruction of two pieces of code is in the first or in the second. -/
theorem getElem?_append_cases (h : (a ++ b)[n]? = some i) :
    a[n]? = some i ∨ ∃ m, n = a.length + m ∧ b[m]? = some i := by
  rcases Nat.lt_or_ge n a.length with hlt | hge
  · exact .inl (by rwa [List.getElem?_append_left hlt] at h)
  · exact .inr ⟨n - a.length, by omega, by rwa [List.getElem?_append_right hge] at h⟩

theorem getElem?_cons_cases (h : (first :: b)[n]? = some i) :
    i = first ∨ ∃ m, n = m + 1 ∧ b[m]? = some i := by
  cases n with
  | zero => exact .inl (Option.some.inj h).symm
  | succ m => exact .inr ⟨m, rfl, h⟩

theorem eq_of_getElem?_singleton (h : [first][n]? = some i) : i = first :=
  List.mem_singleton.1 (List.mem_of_getElem? h)

end

/-- An instruction of a script is a frame of some statements, or it is in the expression that a
statement among or inside them begins with. -/
def Owned (ss : List Stmt) (m base pc : Nat) (i : Instruction) : Prop :=
  i.Frames ∨ ∃ t l k, Stmt.Places ss m base t l k ∧ t.Holds k pc

theorem owned_of_value {s : Stmt} {m n : Nat} (hcode : s.value.code[n]? = some i)
    (hpc : s.valuePlace base + n = pc) (rest : List Stmt) : Owned (s :: rest) m base pc i := by
  obtain ⟨hlt, -⟩ := List.getElem?_eq_some_iff.1 hcode
  exact .inr ⟨s, m, base, .here _ _ _ _, by omega, by omega⟩

/-- What is owned by statements inside others is owned by these. -/
theorem Owned.mono {ss ss' : List Stmt} {m m' base' pc' : Nat} (h : Owned ss m base pc i)
    (hplaces : ∀ t l k, Stmt.Places ss m base t l k → Stmt.Places ss' m' base' t l k)
    (hpc : pc = pc') : Owned ss' m' base' pc' i := by
  subst hpc
  exact h.imp_right fun ⟨t, l, k, ht, hholds⟩ => ⟨t, l, k, hplaces t l k ht, hholds⟩

mutual

theorem Stmt.owned : ∀ (s : Stmt) (rest : List Stmt) (m base : Nat) {n : Nat},
    (s.code m)[n]? = some i → Owned (s :: rest) m base (base + n) i
  | .print _ newline value, rest, m, base, n, h => by
    rcases getElem?_append_cases h with hvalue | ⟨d, -, hlast⟩
    · exact owned_of_value hvalue rfl rest
    · obtain rfl := eq_of_getElem?_singleton hlast
      cases newline with
      | false => exact .inl (frames_of_mem .print rfl (by decide))
      | true => exact .inl (frames_of_mem .println rfl (by decide))
  | .assign _ name _ value, rest, m, base, n, h => by
    rcases getElem?_append_cases h with hvalue | ⟨d, -, hlast⟩
    · exact owned_of_value hvalue rfl rest
    · obtain rfl := eq_of_getElem?_singleton hlast
      exact .inl (frames_of_mem .storeGlobal rfl (by decide))
  | .expr _ value, rest, m, base, n, h => by
    rcases getElem?_append_cases h with hvalue | ⟨d, -, hlast⟩
    · exact owned_of_value hvalue rfl rest
    · obtain rfl := eq_of_getElem?_singleton hlast
      exact .inl (frames_of_mem .pop rfl (by decide))
  | .cond span test yes no, rest, m, base, n, h => by
    rcases getElem?_append_cases h with htest | ⟨d₁, rfl, h₁⟩
    · exact owned_of_value htest rfl rest
    rcases getElem?_cons_cases h₁ with rfl | ⟨d₂, rfl, h₂⟩
    · exact .inl (frames_of_mem .jumpZero rfl (by decide))
    rcases getElem?_append_cases h₂ with hyes | ⟨d₃, rfl, h₃⟩
    · exact (Stmt.ownedOf yes (m + 2) (base + test.code.length + 1) hyes).mono
        (fun _ _ _ => .yes) (by omega)
    rcases getElem?_cons_cases h₃ with rfl | ⟨d₄, rfl, h₄⟩
    · exact .inl (frames_of_mem .jump rfl (by decide))
    rcases getElem?_cons_cases h₄ with rfl | ⟨d₅, rfl, h₅⟩
    · exact .inl (frames_of_mem .label rfl (by decide))
    rcases getElem?_append_cases h₅ with hno | ⟨d₆, rfl, hlast⟩
    · exact (Stmt.ownedOf no (m + 2 + Stmt.labelCountOf yes)
        (base + test.code.length + 1 + (Stmt.codeOf (m + 2) yes).length + 2) hno).mono
        (fun _ _ _ => .no) (by omega)
    · obtain rfl := eq_of_getElem?_singleton hlast
      exact .inl (frames_of_mem .label rfl (by decide))
  | .loop span test body, rest, m, base, n, h => by
    rcases getElem?_cons_cases h with rfl | ⟨d₁, rfl, h₁⟩
    · exact .inl (frames_of_mem .label rfl (by decide))
    rcases getElem?_append_cases h₁ with htest | ⟨d₂, rfl, h₂⟩
    · exact owned_of_value htest (show base + 1 + d₁ = base + (d₁ + 1) by omega) rest
    rcases getElem?_cons_cases h₂ with rfl | ⟨d₃, rfl, h₃⟩
    · exact .inl (frames_of_mem .jumpZero rfl (by decide))
    rcases getElem?_append_cases h₃ with hbody | ⟨d₄, rfl, h₄⟩
    · exact (Stmt.ownedOf body (m + 2) (base + 1 + test.code.length + 1) hbody).mono
        (fun _ _ _ => .body) (by omega)
    rcases getElem?_cons_cases h₄ with rfl | ⟨d₅, rfl, hlast⟩
    · exact .inl (frames_of_mem .jump rfl (by decide))
    · obtain rfl := eq_of_getElem?_singleton hlast
      exact .inl (frames_of_mem .label rfl (by decide))

/-- Each instruction of some statements is in an expression, or it is one that no expression
has. -/
theorem Stmt.ownedOf : ∀ (ss : List Stmt) (m base : Nat) {n : Nat},
    (Stmt.codeOf m ss)[n]? = some i → Owned ss m base (base + n) i
  | [], m, base, n, h => nomatch h
  | s :: rest, m, base, n, h => by
    rcases getElem?_append_cases h with hs | ⟨d, rfl, hrest⟩
    · exact Stmt.owned s rest m base hs
    · exact (Stmt.ownedOf rest (m + s.labelCount) (base + (s.code m).length) hrest).mono
        (fun _ _ _ => .there) (by omega)

end

/-- Each instruction of a script but those of its statements and the last one is emitted for a node
of an expression. -/
theorem Script.exists_emitter {script : Script} (h : script.code[pc]? = some i)
    (hframe : ¬i.Frames) (hhalt : i.op ≠ Opcode.halt.byte) :
    ∃ x k, script.Places x k ∧ x.Emits k pc := by
  rcases getElem?_append_cases h with hcode | ⟨d, -, hlast⟩
  · have howned := Stmt.ownedOf script.statements 0 0 hcode
    rw [Nat.zero_add] at howned
    obtain ⟨t, l, k, ht, hle, hlt⟩ := howned.resolve_left hframe
    obtain ⟨x, j, hx, hemits⟩ := t.value.exists_emitter hle hlt
    exact ⟨x, j, ⟨t, l, k, ht, hx⟩, hemits⟩
  · obtain rfl := eq_of_getElem?_singleton hlast
    exact absurd rfl hhalt

/-! ## One node only -/

section

variable {t u : Stmt} {ss : List Stmt} {m n l : Nat}

theorem Stmt.length_cond (span : Span) (test : Expr) (yes no : List Stmt) (m : Nat) :
    ((Stmt.cond span test yes no).code m).length =
      test.code.length + 1 + (Stmt.codeOf (m + 2) yes).length + 2 +
        (Stmt.codeOf (m + 2 + Stmt.labelCountOf yes) no).length + 1 := by
  simp only [Stmt.code, List.length_append, List.length_cons, List.length_nil]
  omega

theorem Stmt.length_loop (span : Span) (test : Expr) (body : List Stmt) (m : Nat) :
    ((Stmt.loop span test body).code m).length =
      1 + test.code.length + 1 + (Stmt.codeOf (m + 2) body).length + 2 := by
  simp only [Stmt.code, List.length_append, List.length_cons, List.length_nil]
  omega

/-- The code of the expression that a statement begins with is a part of its code. -/
theorem Stmt.value_inside (s : Stmt) (m k : Nat) :
    k ≤ s.valuePlace k ∧ s.valuePlace k + s.value.code.length ≤ k + (s.code m).length := by
  cases s with
  | print | assign | expr =>
    simp only [Stmt.valuePlace, Stmt.value, Stmt.code, List.length_append]
    omega
  | cond =>
    rw [Stmt.length_cond]
    simp only [Stmt.valuePlace, Stmt.value]
    omega
  | loop =>
    rw [Stmt.length_loop]
    simp only [Stmt.valuePlace, Stmt.value]
    omega

theorem Stmt.Places.inside (h : Stmt.Places ss m base t l k) :
    base ≤ t.valuePlace k ∧
      t.valuePlace k + t.value.code.length ≤ base + (Stmt.codeOf m ss).length := by
  induction h with
  | here s rest n pc =>
    have hvalue := s.value_inside n pc
    rw [Stmt.codeOf, List.length_append]
    omega
  | there _ ih =>
    rw [Stmt.codeOf, List.length_append]
    omega
  | yes _ ih | no _ ih =>
    rw [Stmt.codeOf, List.length_append, Stmt.length_cond]
    omega
  | body _ ih =>
    rw [Stmt.codeOf, List.length_append, Stmt.length_loop]
    omega

/-- Two statements are the same one, or the code of the expression of one ends before that of the
other begins. -/
theorem Stmt.Places.eq_or_apart (h : Stmt.Places ss m base t l k)
    (h' : Stmt.Places ss m base u n j) :
    (t = u ∧ l = n ∧ k = j) ∨ t.valuePlace k + t.value.code.length ≤ u.valuePlace j ∨
      u.valuePlace j + u.value.code.length ≤ t.valuePlace k := by
  induction h with
  | here s rest m base =>
    have hvalue := s.value_inside m base
    cases h' with
    | here => exact .inl ⟨rfl, rfl, rfl⟩
    | there h' => exact .inr (.inl (Nat.le_trans hvalue.2 h'.inside.1))
    | @yes _ test _ _ _ _ _ _ _ _ h' | @no _ test _ _ _ _ _ _ _ _ h' =>
      have hinside := h'.inside
      exact .inr (.inl (show base + test.code.length ≤ u.valuePlace j by omega))
    | @body _ test _ _ _ _ _ _ _ h' =>
      have hinside := h'.inside
      exact .inr (.inl (show base + 1 + test.code.length ≤ u.valuePlace j by omega))
  | @there s _ _ m base _ _ h ih =>
    have hvalue := s.value_inside m base
    have hbehind := h.inside
    cases h' with
    | here => exact .inr (.inr (Nat.le_trans hvalue.2 hbehind.1))
    | there h' => exact ih h'
    | @yes span test yes no _ _ _ _ _ _ h' | @no span test yes no _ _ _ _ _ _ h' =>
      have hinside := h'.inside
      have hlength := Stmt.length_cond span test yes no m
      exact .inr (.inr (by omega))
    | @body span test body _ _ _ _ _ _ h' =>
      have hinside := h'.inside
      have hlength := Stmt.length_loop span test body m
      exact .inr (.inr (by omega))
  | @yes span test yes no _ t m base _ k h ih =>
    have hinside := h.inside
    have hlength := Stmt.length_cond span test yes no m
    cases h' with
    | here => exact .inr (.inr (show j + test.code.length ≤ t.valuePlace k by omega))
    | yes h' => exact ih h'
    | there h' | no h' =>
      have hbehind := h'.inside
      exact .inr (.inl (by omega))
  | @no span test yes no _ t m base _ k h ih =>
    have hinside := h.inside
    have hlength := Stmt.length_cond span test yes no m
    cases h' with
    | here => exact .inr (.inr (show j + test.code.length ≤ t.valuePlace k by omega))
    | there h' =>
      have hbehind := h'.inside
      exact .inr (.inl (by omega))
    | yes h' =>
      have hbefore := h'.inside
      exact .inr (.inr (by omega))
    | no h' => exact ih h'
  | @body span test body _ t m base _ k h ih =>
    have hinside := h.inside
    have hlength := Stmt.length_loop span test body m
    cases h' with
    | here => exact .inr (.inr (show j + 1 + test.code.length ≤ t.valuePlace k by omega))
    | there h' =>
      have hbehind := h'.inside
      exact .inr (.inl (by omega))
    | body h' => exact ih h'

/-- The statement whose expression holds an instruction is the only one. -/
theorem Stmt.Places.eq_of_holds (h : Stmt.Places ss m base t l k) (ht : t.Holds k pc)
    (h' : Stmt.Places ss m base u n j) (hu : u.Holds j pc) : t = u ∧ l = n ∧ k = j := by
  rcases h.eq_or_apart h' with heq | hbefore | hbehind
  · exact heq
  · exact absurd (Nat.le_trans hbefore hu.1) (Nat.not_le_of_lt ht.2)
  · exact absurd (Nat.le_trans hbehind ht.1) (Nat.not_le_of_lt hu.2)

end

/-- The node of a script that an instruction is emitted for is the only one. -/
theorem Script.Places.eq_of_emits {script : Script} {x y : Expr} (h : script.Places x k)
    (hx : x.Emits k pc) (h' : script.Places y j) (hy : y.Emits j pc) : x = y ∧ k = j := by
  obtain ⟨s, n, a, hs, hxs⟩ := h
  obtain ⟨t, m, b, ht, hyt⟩ := h'
  have hholds {s : Stmt} {x : Expr} {a k : Nat} (hxs : s.value.Places (s.valuePlace a) x k)
      (hx : x.Emits k pc) : s.Holds a pc := by
    have hinside := hxs.inside
    have hplace := x.le_ownPlace k
    exact ⟨Nat.le_trans hinside.1 (Nat.le_trans hplace hx.1), Nat.lt_of_lt_of_le hx.2 hinside.2⟩
  obtain ⟨rfl, rfl, rfl⟩ := hs.eq_of_holds (hholds hxs hx) ht (hholds hyt hy)
  exact hxs.eq_of_emits hx hyt hy

/-! ## Nodes with a place -/

theorem Expr.Places.mem_nodes {e x : Expr} (h : e.Places base x k) : x ∈ e.nodes := by
  induction h with
  | self e => exact e.self_mem_nodes
  | group _ ih | unary _ ih => exact List.mem_cons_of_mem _ ih
  | left _ ih => exact List.mem_cons_of_mem _ (List.mem_append_left _ ih)
  | right _ ih => exact List.mem_cons_of_mem _ (List.mem_append_right _ ih)

theorem Stmt.mem_walk_of_value {s : Stmt} {x : Expr} (hx : x ∈ s.value.nodes) :
    .expr x ∈ s.walk := by
  have hnode : .expr x ∈ s.value.nodes.map Node.expr := List.mem_map_of_mem hx
  cases s with
  | print | assign | expr => exact List.mem_cons_of_mem _ hnode
  | cond | loop => exact List.mem_cons_of_mem _ (List.mem_append_left _ hnode)

theorem Stmt.Places.walk_subset {ss : List Stmt} {t : Stmt} {n m : Nat}
    (h : Stmt.Places ss n base t m k) : t.walk ⊆ Stmt.walkOf ss := by
  induction h with
  | here => exact List.subset_append_left _ _
  | there _ ih => exact List.subset_append_of_subset_right _ ih
  | yes _ ih =>
    exact List.subset_append_of_subset_left _ (List.subset_cons_of_subset _
      (List.subset_append_of_subset_right _ (List.subset_append_of_subset_left _ ih)))
  | no _ ih =>
    exact List.subset_append_of_subset_left _ (List.subset_cons_of_subset _
      (List.subset_append_of_subset_right _ (List.subset_append_of_subset_right _ ih)))
  | body _ ih =>
    exact List.subset_append_of_subset_left _ (List.subset_cons_of_subset _
      (List.subset_append_of_subset_right _ ih))

/-- An expression with a place is a node of the tree. -/
theorem Script.Places.mem_walk {script : Script} {e : Expr} (h : script.Places e k) :
    .expr e ∈ (Node.script script).walk := by
  obtain ⟨s, n, a, hs, he⟩ := h
  exact List.mem_cons_of_mem _ (hs.walk_subset (Stmt.mem_walk_of_value he.mem_nodes))

end Scriptlet
