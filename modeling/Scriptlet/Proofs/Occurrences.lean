import Scriptlet.Proofs.Labels

/-!
# Where the parts of a script stand in its code

`Expr.Places` and `Stmt.Places` go through a tree as its code does, and tell for each part of it
where its code begins and, for a statement, which number its first label has. The code of each part
stands at its place, with a label of its own in front of it or none behind it (`Script.Places.has`),
and nothing but a statement's own jumps leads to its labels (`Stmt.Places.owns`).
-/

namespace Scriptlet

/-! ## Places -/

/-- If the code of an expression begins at a place, the code of a part of it begins at another
one. -/
inductive Expr.Places : Expr → Nat → Expr → Nat → Prop
  | self (e : Expr) (pc : Nat) : Places e pc e pc
  | group {span : Span} {inner e : Expr} {pc k : Nat} :
      Places inner pc e k → Places (.group span inner) pc e k
  | unary {span : Span} {op : TokenKind} {operand e : Expr} {pc k : Nat} :
      Places operand pc e k → Places (.unary span op operand) pc e k
  | left {span : Span} {op : TokenKind} {left right e : Expr} {pc k : Nat} :
      Places left pc e k → Places (.binary span op left right) pc e k
  | right {span : Span} {op : TokenKind} {left right e : Expr} {pc k : Nat} :
      Places right (pc + left.code.length) e k → Places (.binary span op left right) pc e k

/-- If the first label of some statements has number `n` and their code begins at a place, those of
a statement among or inside them have another number and another place. -/
inductive Stmt.Places : List Stmt → Nat → Nat → Stmt → Nat → Nat → Prop
  | here (s : Stmt) (rest : List Stmt) (n pc : Nat) : Places (s :: rest) n pc s n pc
  | there {s t : Stmt} {rest : List Stmt} {n pc m k : Nat} :
      Places rest (n + s.labelCount) (pc + (s.code n).length) t m k → Places (s :: rest) n pc t m k
  | yes {span : Span} {test : Expr} {yes no rest : List Stmt} {t : Stmt} {n pc m k : Nat} :
      Places yes (n + 2) (pc + test.code.length + 1) t m k →
      Places (.cond span test yes no :: rest) n pc t m k
  | no {span : Span} {test : Expr} {yes no rest : List Stmt} {t : Stmt} {n pc m k : Nat} :
      Places no (n + 2 + Stmt.labelCountOf yes)
        (pc + test.code.length + 1 + (Stmt.codeOf (n + 2) yes).length + 2) t m k →
      Places (.cond span test yes no :: rest) n pc t m k
  | body {span : Span} {test : Expr} {body rest : List Stmt} {t : Stmt} {n pc m k : Nat} :
      Places body (n + 2) (pc + 1 + test.code.length + 1) t m k →
      Places (.loop span test body :: rest) n pc t m k

/-- The expression that a statement begins with. -/
def Stmt.value : Stmt → Expr
  | .print _ _ value | .assign _ _ _ value | .expr _ value => value
  | .cond _ test _ _ | .loop _ test _ => test

/-- Where the code of that expression begins. A loop has a label in front of it. -/
def Stmt.valuePlace (pc : Nat) : Stmt → Nat
  | .loop _ _ _ => pc + 1
  | _ => pc

/-- The code of a statement of the script begins at a place, and its first label has number `n`. -/
def Script.PlacesStmt (script : Script) (s : Stmt) (n pc : Nat) : Prop :=
  Stmt.Places script.statements 0 0 s n pc

/-- The code of an expression of the script begins at a place. -/
def Script.Places (script : Script) (e : Expr) (pc : Nat) : Prop :=
  ∃ s n k, script.PlacesStmt s n k ∧ s.value.Places (s.valuePlace k) e pc

/-! ## Code at places -/

variable {p : Program} {pc k : Nat} {i : Instruction} {code code' : List Instruction}

theorem Program.Has.getElem? (h : p.Has pc code) (hk : k < code.length) :
    p.code[pc + k]? = code[k]? := by
  rw [← Array.getElem?_toList, ← List.getElem?_drop]
  obtain ⟨rest, hr⟩ := h
  rw [← hr, List.getElem?_append_left hk]

theorem Program.Has.mem (h : p.Has pc code) (hle : pc ≤ k) (hlt : k < pc + code.length)
    (hi : p.code[k]? = some i) : i ∈ code := by
  obtain ⟨d, rfl⟩ := Nat.exists_eq_add_of_le hle
  rw [h.getElem? (Nat.lt_of_add_lt_add_left hlt)] at hi
  exact List.mem_of_getElem? hi

/-- At a place there is an instruction other than a label, so no jump leads there. -/
def Program.Inline (p : Program) (pc : Nat) : Prop :=
  ∃ i, p.code[pc]? = some i ∧ i.op ≠ Opcode.label.byte

theorem Program.Has.inline (h : p.Has pc (i :: code)) (hi : i.op ≠ Opcode.label.byte) :
    p.Inline pc :=
  ⟨i, h.head, hi⟩

/-- Between two pieces of code without labels no jump leads either. -/
theorem Program.Has.inline_left (h : p.Has pc (code ++ code')) (hs : Straight code')
    (hn : p.Inline (pc + (code ++ code').length)) : p.Inline (pc + code.length) := by
  cases code' with
  | nil => simpa using hn
  | cons i rest => exact h.right.inline (hs i (List.mem_cons_self ..)).1

/-- The code of a part of an expression stands at its place, and no jump leads behind it. -/
theorem Expr.Places.has {e x : Expr} (h : e.Places pc x k) (hc : p.Has pc e.code)
    (hn : p.Inline (pc + e.code.length)) : p.Has k x.code ∧ p.Inline (k + x.code.length) := by
  induction h with
  | self => exact ⟨hc, hn⟩
  | group _ ih => exact ih hc hn
  | @unary _ op _ _ _ _ _ ih => exact ih hc.left (hc.inline_left (straight_unary op) hn)
  | @left _ op _ right _ _ _ _ ih =>
    exact ih hc.left (hc.inline_left (right.straight.append (straight_binary op)) hn)
  | @right _ op left right _ pc _ _ ih =>
    refine ih hc.right.left (hc.right.inline_left (straight_binary op) ?_)
    rwa [Nat.add_assoc, ← List.length_append]

/-! ## Labels and jumps -/

/-- The jumps in some code do not lead to labels numbered from `n` up to `m`. -/
def Spares (n m : Nat) (code : List Instruction) : Prop :=
  ∀ i ∈ code, Opcode.isJump i.op = true → ∀ l, i.name = labelName l → n ≤ l → l < m → False

theorem Spares.append {n m : Nat} (h : Spares n m code) (h' : Spares n m code') :
    Spares n m (code ++ code') := fun i hi =>
  (List.mem_append.1 hi).elim (h i) (h' i)

theorem Spares.cons {n m : Nat} (h : Spares n m [i]) (h' : Spares n m code) :
    Spares n m (i :: code) := h.append h'

theorem spares_nil {n m : Nat} : Spares n m [] := fun _ hi => by cases hi

theorem Straight.spares {n m : Nat} (h : Straight code) : Spares n m code := fun i hi hj => by
  rw [(h i hi).2] at hj
  cases hj

theorem Labelled.spares {n m n' m' : Nat} (h : Labelled n m code) (hd : m ≤ n' ∨ m' ≤ n) :
    Spares n' m' code := fun i hi hj l hl hle hlt => by
  obtain ⟨l', hle', hlt', hl'⟩ := h.numbered i.name (h.closed i hi hj)
  obtain rfl := labelName_injective (hl.symm.trans hl')
  omega

/-- An instruction that names one label spares all others. -/
theorem spares_named {n m l : Nat} (hi : i.name = labelName l) (hl : ¬(n ≤ l ∧ l < m)) :
    Spares n m [i] := fun j hj _ l' hl' hle hlt => by
  obtain rfl := List.mem_singleton.1 hj
  obtain rfl := labelName_injective (hi.symm.trans hl')
  exact hl ⟨hle, hlt⟩

theorem spares_label {n m l : Nat} : Spares n m [.label (labelName l)] := fun j hj hjump => by
  obtain rfl := List.mem_singleton.1 hj
  cases hjump

/-- Some code stands at a place, and no jump outside leads to labels numbered from `n` up to
`m`. -/
structure Program.Owns (p : Program) (pc n m : Nat) (code : List Instruction) : Prop where
  has : p.Has pc code
  own : ∀ k i l, p.code[k]? = some i → Opcode.isJump i.op = true → i.name = labelName l →
    n ≤ l → l < m → pc ≤ k ∧ k < pc + code.length

/-- A piece of code owns the labels that the jumps around it spare. -/
theorem Program.Owns.part {a c : List Instruction} {n m n' m' : Nat}
    (h : p.Owns pc n m (a ++ (code ++ c))) (hn : n ≤ n') (hm : m' ≤ m) (ha : Spares n' m' a)
    (hc : Spares n' m' c) : p.Owns (pc + a.length) n' m' code where
  has := h.has.right.left
  own k i l hi hj hl hle hlt := by
    obtain ⟨hlow, hhigh⟩ := h.own k i l hi hj hl (Nat.le_trans hn hle) (Nat.lt_of_lt_of_le hlt hm)
    rw [List.length_append, List.length_append] at hhigh
    constructor
    · exact Nat.le_of_not_lt fun hk => ha i (h.has.left.mem hlow hk hi) hj l hl hle hlt
    · exact Nat.lt_of_not_le fun hk =>
        hc i (h.has.right.right.mem hk (by omega) hi) hj l hl hle hlt

theorem Program.Owns.congr {n m pc' : Nat} (h : p.Owns pc n m code) (hpc : pc = pc') :
    p.Owns pc' n m code := hpc ▸ h

/-- The first of some statements owns its labels, if they all do. -/
theorem Program.Owns.first {s : Stmt} {rest : List Stmt} {n : Nat}
    (h : p.Owns pc n (n + Stmt.labelCountOf (s :: rest)) (Stmt.codeOf n (s :: rest))) :
    p.Owns pc n (n + s.labelCount) (s.code n) := by
  have hrest := Stmt.labelledOf rest (n + s.labelCount)
  exact h.part (a := []) (Nat.le_refl _) (by rw [Stmt.labelCountOf]; omega) spares_nil
    (hrest.spares (Or.inr (Nat.le_refl _)))

/-- So do the others. -/
theorem Program.Owns.rest {s : Stmt} {rest : List Stmt} {n : Nat}
    (h : p.Owns pc n (n + Stmt.labelCountOf (s :: rest)) (Stmt.codeOf n (s :: rest))) :
    p.Owns (pc + (s.code n).length) (n + s.labelCount)
      (n + s.labelCount + Stmt.labelCountOf rest) (Stmt.codeOf (n + s.labelCount) rest) := by
  have hs := Stmt.labelled s n
  rw [Stmt.codeOf, ← List.append_nil (Stmt.codeOf (n + s.labelCount) rest)] at h
  exact h.part (by omega) (by rw [Stmt.labelCountOf]; omega) (hs.spares (Or.inl (Nat.le_refl _)))
    spares_nil

section Branches

variable {span : Span} {test : Expr} {yes no body : List Stmt} {n : Nat}

/-- The code of a conditional around its first branch. -/
theorem Stmt.code_cond_yes : (Stmt.cond span test yes no).code n =
    (test.code ++ [.jumpZero (labelName n)]) ++ (Stmt.codeOf (n + 2) yes ++
      (.jump (labelName (n + 1)) :: .label (labelName n) ::
        (Stmt.codeOf (n + 2 + Stmt.labelCountOf yes) no ++ [.label (labelName (n + 1))]))) := by
  simp [Stmt.code]

/-- The code of a conditional around its other branch. -/
theorem Stmt.code_cond_no : (Stmt.cond span test yes no).code n =
    (test.code ++ .jumpZero (labelName n) :: (Stmt.codeOf (n + 2) yes ++
      [.jump (labelName (n + 1)), .label (labelName n)])) ++
        (Stmt.codeOf (n + 2 + Stmt.labelCountOf yes) no ++ [.label (labelName (n + 1))]) := by
  simp [Stmt.code]

/-- The code of a loop around its body. -/
theorem Stmt.code_loop_body : (Stmt.loop span test body).code n =
    (.label (labelName n) :: (test.code ++ [.jumpZero (labelName (n + 1))])) ++
      (Stmt.codeOf (n + 2) body ++ [.jump (labelName n), .label (labelName (n + 1))]) := by
  simp [Stmt.code]

theorem spares_jump {n m l : Nat} (hl : ¬(n ≤ l ∧ l < m)) : Spares n m [.jump (labelName l)] :=
  spares_named rfl hl

theorem spares_jumpZero {n m l : Nat} (hl : ¬(n ≤ l ∧ l < m)) :
    Spares n m [.jumpZero (labelName l)] :=
  spares_named rfl hl

theorem owns_yes (h : p.Owns pc n (n + (Stmt.cond span test yes no).labelCount)
    ((Stmt.cond span test yes no).code n)) :
    p.Owns (pc + test.code.length + 1) (n + 2) (n + 2 + Stmt.labelCountOf yes)
      (Stmt.codeOf (n + 2) yes) := by
  have hno := Stmt.labelledOf no (n + 2 + Stmt.labelCountOf yes)
  rw [Stmt.code_cond_yes] at h
  refine (h.part (by omega) (by rw [Stmt.labelCount]; omega)
    (test.straight.spares.append (spares_jumpZero (by omega)))
    ((spares_jump (by omega)).cons (spares_label.cons
      ((hno.spares (Or.inr (Nat.le_refl _))).append spares_label)))).congr ?_
  simp [Nat.add_assoc]

theorem owns_no (h : p.Owns pc n (n + (Stmt.cond span test yes no).labelCount)
    ((Stmt.cond span test yes no).code n)) :
    p.Owns (pc + test.code.length + 1 + (Stmt.codeOf (n + 2) yes).length + 2)
      (n + 2 + Stmt.labelCountOf yes) (n + 2 + Stmt.labelCountOf yes + Stmt.labelCountOf no)
      (Stmt.codeOf (n + 2 + Stmt.labelCountOf yes) no) := by
  have hyes := Stmt.labelledOf yes (n + 2)
  rw [Stmt.code_cond_no] at h
  refine (h.part (by omega) (by rw [Stmt.labelCount]; omega)
    (test.straight.spares.append ((spares_jumpZero (by omega)).cons
      ((hyes.spares (Or.inl (Nat.le_refl _))).append ((spares_jump (by omega)).cons spares_label))))
    spares_label).congr ?_
  simp only [List.length_append, List.length_cons, List.length_nil]
  omega

theorem owns_body (h : p.Owns pc n (n + (Stmt.loop span test body).labelCount)
    ((Stmt.loop span test body).code n)) :
    p.Owns (pc + 1 + test.code.length + 1) (n + 2) (n + 2 + Stmt.labelCountOf body)
      (Stmt.codeOf (n + 2) body) := by
  rw [Stmt.code_loop_body] at h
  refine (h.part (by omega) (by rw [Stmt.labelCount]; omega)
    (spares_label.cons (test.straight.spares.append (spares_jumpZero (by omega))))
    ((spares_jump (by omega)).cons spares_label)).congr ?_
  simp only [List.length_append, List.length_cons, List.length_nil]
  omega

end Branches

/-- Every statement inside some statements that own their labels owns its labels. -/
theorem Stmt.Places.owns {ss : List Stmt} {t : Stmt} {n m : Nat} (h : Stmt.Places ss n pc t m k)
    (ho : p.Owns pc n (n + Stmt.labelCountOf ss) (Stmt.codeOf n ss)) :
    p.Owns k m (m + t.labelCount) (t.code m) := by
  induction h with
  | here => exact ho.first
  | there _ ih => exact ih ho.rest
  | yes _ ih => exact ih (owns_yes ho.first)
  | no _ ih => exact ih (owns_no ho.first)
  | body _ ih => exact ih (owns_body ho.first)

/-- Every statement of a script owns its labels. -/
theorem Script.PlacesStmt.owns {script : Script} {s : Stmt} {n : Nat}
    (h : script.PlacesStmt s n pc) (hp : p.code.toList = script.code) :
    p.Owns pc n (n + s.labelCount) (s.code n) := by
  have hlen : p.code.size = script.code.length := by rw [← hp, Array.length_toList]
  have hall : p.Owns 0 0 (Stmt.labelCountOf script.statements) script.code :=
    ⟨hp ▸ p.has_self, fun k i l hi _ _ _ _ => by
      obtain ⟨hk, -⟩ := Array.getElem?_eq_some_iff.1 hi
      omega⟩
  have hhalt : Straight [.simple .halt] := fun i hi => by
    obtain rfl := List.mem_singleton.1 hi
    exact ⟨by decide, rfl⟩
  refine Stmt.Places.owns h ?_
  rw [Nat.zero_add]
  exact hall.part (a := []) (Nat.le_refl _) (Nat.le_refl _) spares_nil hhalt.spares

/-- The code of every expression of a script stands at its place, and no jump leads behind it. -/
theorem Script.Places.has {script : Script} {e : Expr} (h : script.Places e pc)
    (hp : p.code.toList = script.code) : p.Has pc e.code ∧ p.Inline (pc + e.code.length) := by
  obtain ⟨s, n, k, hs, he⟩ := h
  have hc := (hs.owns hp).has
  have hjump : Opcode.jumpZero.byte ≠ Opcode.label.byte := by decide
  cases s with
  | print _ newline value =>
    exact he.has hc.left (hc.right.inline (by cases newline <;> decide))
  | assign =>
    exact he.has hc.left
      (hc.right.inline (show Opcode.storeGlobal.byte ≠ Opcode.label.byte by decide))
  | expr => exact he.has hc.left (hc.right.inline (by decide))
  | cond => exact he.has hc.left (hc.right.inline hjump)
  | loop => exact he.has hc.tail.left (hc.tail.right.inline hjump)

end Scriptlet
