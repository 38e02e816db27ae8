import Scriptlet.Proofs.Code

/-!
# Labels and places in code

`p.Has pc code` says that `code` stands in the program `p` from `pc` on. Labels are numbered : those
of a statement take the numbers from the one it is given up to the one it leaves, each once, and its
jumps lead to them (`Labelled`). If no label of a program is defined twice, its label table leads
each name to its only label (`find?_labels`).
-/

namespace Scriptlet

/-! ## Segments -/

/-- Some code stands in the program from `pc` on. -/
def Program.Has (p : Program) (pc : Nat) (code : List Instruction) : Prop :=
  List.IsPrefix code (p.code.toList.drop pc)

namespace Program.Has

variable {p : Program} {pc : Nat} {i : Instruction} {code code' : List Instruction}

/-- The first part of some code stands where all of it does. -/
theorem left (h : p.Has pc (code ++ code')) : p.Has pc code :=
  (List.prefix_append code code').trans h

/-- The second part of some code stands behind the first. -/
theorem right (h : p.Has pc (code ++ code')) : p.Has (pc + code.length) code' := by
  obtain ⟨rest, hr⟩ := h
  refine ⟨rest, ?_⟩
  rw [← List.drop_drop, ← hr, List.append_assoc, List.drop_left]

theorem tail (h : p.Has pc (i :: code)) : p.Has (pc + 1) code := by
  have h' : p.Has pc ([i] ++ code) := h
  exact h'.right

/-- The first instruction of some code stands at its place. -/
theorem head (h : p.Has pc (i :: code)) : p.code[pc]? = some i := by
  obtain ⟨rest, hr⟩ := h
  have hd : (p.code.toList.drop pc)[0]? = some i := by rw [← hr]; rfl
  rw [List.getElem?_drop, Nat.add_zero] at hd
  simpa using hd

end Program.Has

theorem Program.has_self (p : Program) : p.Has 0 p.code.toList := List.prefix_refl _

/-! ## The label table -/

/-- The names of the labels in some code, in order. -/
def labelNames (code : List Instruction) : List Bytes :=
  (code.filter fun i => i.op = Opcode.label.byte).map Instruction.name

@[simp] theorem labelNames_nil : labelNames [] = [] := rfl

@[simp] theorem labelNames_append (a b : List Instruction) :
    labelNames (a ++ b) = labelNames a ++ labelNames b := by
  simp [labelNames]

theorem labelNames_cons (i : Instruction) (code : List Instruction) :
    labelNames (i :: code) =
      if i.op = Opcode.label.byte then i.name :: labelNames code else labelNames code := by
  unfold labelNames
  split
  · next h => simp [h]
  · next h => simp [h]

@[simp] theorem labelNames_label (name : Bytes) (code : List Instruction) :
    labelNames (.label name :: code) = name :: labelNames code := rfl

@[simp] theorem labelNames_jump (name : Bytes) (code : List Instruction) :
    labelNames (.jump name :: code) = labelNames code := rfl

@[simp] theorem labelNames_jumpZero (name : Bytes) (code : List Instruction) :
    labelNames (.jumpZero name :: code) = labelNames code := rfl

/-- A name among the labels is that of a label instruction in the code. -/
theorem exists_of_mem_labelNames {name : Bytes} {code : List Instruction}
    (h : name ∈ labelNames code) :
    ∃ (k : Nat) (i : Instruction),
      code[k]? = some i ∧ i.op = Opcode.label.byte ∧ i.name = name := by
  obtain ⟨i, hi, rfl⟩ := List.mem_map.1 h
  obtain ⟨hi, hop⟩ := List.mem_filter.1 hi
  obtain ⟨k, hk⟩ := List.mem_iff_getElem?.1 hi
  exact ⟨k, i, hk, by simpa using hop, rfl⟩

/-- Code without a label of a name leaves what the table says of it. -/
theorem find?_labelsFrom_of_not_mem {name : Bytes} :
    ∀ {code : List Instruction} (t : Table Nat) (pc : Nat), name ∉ labelNames code →
      (Program.labelsFrom t pc code).find? name = t.find? name
  | [], _, _, _ => rfl
  | i :: rest, t, pc, h => by
    rw [labelNames_cons] at h
    unfold Program.labelsFrom
    split
    · next hop =>
      rw [if_pos hop, List.mem_cons, not_or] at h
      rw [find?_labelsFrom_of_not_mem _ _ h.2, Table.find?_insert, if_neg h.1]
    · next hop =>
      rw [if_neg hop] at h
      exact find?_labelsFrom_of_not_mem _ _ h

/-- If no label is defined twice, each label of the code leads to its place, counted from where the
code starts. A later label of the same name would win. -/
theorem find?_labelsFrom :
    ∀ {code : List Instruction} (t : Table Nat) (pc : Nat) {k : Nat} {i : Instruction},
      (labelNames code).Nodup → code[k]? = some i → i.op = Opcode.label.byte →
        (Program.labelsFrom t pc code).find? i.name = some (pc + k)
  | [], _, _, _, _, _, h, _ => by simp at h
  | j :: rest, t, pc, 0, i, hd, hk, hop => by
    obtain rfl : j = i := by simpa using hk
    rw [labelNames_cons, if_pos hop, List.nodup_cons] at hd
    rw [Program.labelsFrom, if_pos hop, find?_labelsFrom_of_not_mem _ _ hd.1]
    simp
  | j :: rest, t, pc, k + 1, i, hd, hk, hop => by
    have hd' : (labelNames rest).Nodup := by
      rw [labelNames_cons] at hd
      split at hd
      · exact (List.nodup_cons.1 hd).2
      · exact hd
    rw [Program.labelsFrom, find?_labelsFrom _ _ hd' (by simpa using hk) hop]
    congr 1
    omega

/-- If no label is defined twice, the table leads each label to its place. -/
theorem Program.find?_labels {p : Program} (hd : (labelNames p.code.toList).Nodup) {pc : Nat}
    {i : Instruction} (hi : p.code[pc]? = some i) (hop : i.op = Opcode.label.byte) :
    p.labels.find? i.name = some pc := by
  have h := find?_labelsFrom .empty 0 hd (k := pc) (by simpa using hi) hop
  simpa [Program.labels] using h

/-! ## The labels of a statement -/

/-- Labels with different numbers have different names, since a numeral is read back. -/
theorem labelName_injective : Function.Injective labelName := by
  intro a b h
  have hd : decimal a = decimal b := List.append_cancel_left h
  rw [← ofDecimal_decimal a, hd, ofDecimal_decimal]

/-- Code whose labels are numbered from `n` up to `m`, each used once, and whose jumps lead to its
labels. -/
structure Labelled (n m : Nat) (code : List Instruction) : Prop where
  nodup : (labelNames code).Nodup
  numbered : ∀ name ∈ labelNames code, ∃ k, n ≤ k ∧ k < m ∧ name = labelName k
  closed : ∀ i ∈ code, Opcode.isJump i.op = true → i.name ∈ labelNames code

/-- No instruction is a label or a jump. -/
def Straight (code : List Instruction) : Prop :=
  ∀ i ∈ code, i.op ≠ Opcode.label.byte ∧ Opcode.isJump i.op = false

theorem Straight.append {a b : List Instruction} (ha : Straight a) (hb : Straight b) :
    Straight (a ++ b) := by
  intro i hi
  rcases List.mem_append.1 hi with h | h
  · exact ha i h
  · exact hb i h

theorem Straight.labelNames_eq {code : List Instruction} (h : Straight code) :
    labelNames code = [] := by
  rw [labelNames, List.map_eq_nil_iff, List.filter_eq_nil_iff]
  intro i hi
  simpa using (h i hi).1

/-- Code without labels and jumps uses no number. -/
theorem Straight.labelled {code : List Instruction} (h : Straight code) (n : Nat) :
    Labelled n n code where
  nodup := by rw [h.labelNames_eq]; exact List.nodup_nil
  numbered name hn := by simp [h.labelNames_eq] at hn
  closed i hi hj := by simp [(h i hi).2] at hj

/-- Operators are neither labels nor jumps. -/
theorem straight_unary (op : TokenKind) : Straight ((unaryInstructions? op).getD []) := by
  cases op <;> simp [Straight, unaryInstructions?] <;> decide

theorem straight_binary (op : TokenKind) :
    Straight ((binaryOpcode? op).map Instruction.simple).toList := by
  cases op <;> simp [Straight, binaryOpcode?] <;> decide

/-- Expressions have neither labels nor jumps. -/
theorem Expr.straight : ∀ e : Expr, Straight e.code
  | .number _ _ | .string _ _ | .bool _ _ => by
    intro i hi
    obtain rfl := List.mem_singleton.1 hi
    exact ⟨show Opcode.push.byte ≠ Opcode.label.byte by decide, rfl⟩
  | .ident _ _ => by
    intro i hi
    obtain rfl := List.mem_singleton.1 hi
    exact ⟨show Opcode.loadGlobal.byte ≠ Opcode.label.byte by decide, rfl⟩
  | .group _ inner => inner.straight
  | .unary _ op operand => operand.straight.append (straight_unary op)
  | .binary _ op left right => left.straight.append (right.straight.append (straight_binary op))

/-- One more instruction behind code without labels and jumps. -/
theorem Straight.snoc {code : List Instruction} (h : Straight code) {i : Instruction}
    (hl : i.op ≠ Opcode.label.byte) (hj : Opcode.isJump i.op = false) : Straight (code ++ [i]) := by
  refine h.append fun j hj' => ?_
  obtain rfl := List.mem_singleton.1 hj'
  exact ⟨hl, hj⟩

/-- Code whose labels go on where those of the code before it stop. Their numbers keep the labels of
the two apart. -/
theorem Labelled.append {n m l : Nat} {a b : List Instruction} (ha : Labelled n m a)
    (hb : Labelled m l b) (hnm : n ≤ m) (hml : m ≤ l) : Labelled n l (a ++ b) where
  nodup := by
    rw [labelNames_append, List.nodup_append]
    refine ⟨ha.nodup, hb.nodup, ?_⟩
    rintro x hx _ hy rfl
    obtain ⟨k, -, hk, rfl⟩ := ha.numbered x hx
    obtain ⟨k', hk', -, he⟩ := hb.numbered _ hy
    obtain rfl := labelName_injective he
    omega
  numbered name h := by
    rw [labelNames_append, List.mem_append] at h
    rcases h with h | h
    · obtain ⟨k, h₁, h₂, h₃⟩ := ha.numbered name h
      exact ⟨k, h₁, by omega, h₃⟩
    · obtain ⟨k, h₁, h₂, h₃⟩ := hb.numbered name h
      exact ⟨k, by omega, h₂, h₃⟩
  closed i hi hj := by
    rw [labelNames_append, List.mem_append]
    rcases List.mem_append.1 hi with h | h
    · exact Or.inl (ha.closed i h hj)
    · exact Or.inr (hb.closed i h hj)

/-- The label of a number below those of some code is not among its labels. -/
theorem Labelled.not_mem {n m k : Nat} {code : List Instruction} (h : Labelled n m code)
    (hk : k < n) : labelName k ∉ labelNames code := by
  intro hmem
  obtain ⟨k', hk', -, he⟩ := h.numbered _ hmem
  obtain rfl := labelName_injective he
  omega

/-- Code around branches that adds two labels and jumps to them. -/
theorem Labelled.wrap {n m : Nat} {code branches : List Instruction}
    (hb : Labelled (n + 2) m branches) (hm : n + 2 ≤ m)
    (hnames : (labelNames code).Perm (labelName n :: labelName (n + 1) :: labelNames branches))
    (hjumps : ∀ i ∈ code, Opcode.isJump i.op = true →
      i.name = labelName n ∨ i.name = labelName (n + 1) ∨ i ∈ branches) : Labelled n m code where
  nodup := by
    rw [hnames.nodup_iff, List.nodup_cons, List.nodup_cons, List.mem_cons, not_or]
    refine ⟨⟨?_, hb.not_mem (by omega)⟩, hb.not_mem (by omega), hb.nodup⟩
    intro h
    have := labelName_injective h
    omega
  numbered name h := by
    rw [hnames.mem_iff, List.mem_cons, List.mem_cons] at h
    rcases h with rfl | rfl | h
    · exact ⟨n, by omega, by omega, rfl⟩
    · exact ⟨n + 1, by omega, by omega, rfl⟩
    · obtain ⟨k, h₁, h₂, h₃⟩ := hb.numbered name h
      exact ⟨k, by omega, h₂, h₃⟩
  closed i hi hj := by
    rw [hnames.mem_iff, List.mem_cons, List.mem_cons]
    rcases hjumps i hi hj with h | h | h
    · exact Or.inl h
    · exact Or.inr (Or.inl h)
    · exact Or.inr (Or.inr (hb.closed i h hj))

mutual

/-- The labels of a statement are numbered from the number it is given. -/
theorem Stmt.labelled : ∀ (s : Stmt) (n : Nat), Labelled n (n + s.labelCount) (s.code n)
  | .print _ newline value, n =>
    (value.straight.snoc (by cases newline <;> decide) (by cases newline <;> rfl)).labelled n
  | .assign _ name _ value, n =>
    (value.straight.snoc (show Opcode.storeGlobal.byte ≠ Opcode.label.byte by decide)
      rfl).labelled n
  | .expr _ value, n => (value.straight.snoc (by decide) rfl).labelled n
  | .cond span test yes no, n => by
    have hy := Stmt.labelledOf yes (n + 2)
    have hn := Stmt.labelledOf no (n + 2 + Stmt.labelCountOf yes)
    have hyn := hy.append hn (by omega) (by omega)
    have hm : n + (Stmt.cond span test yes no).labelCount =
        n + 2 + Stmt.labelCountOf yes + Stmt.labelCountOf no := by
      simp only [Stmt.labelCount]
      omega
    rw [hm]
    refine hyn.wrap (by omega) ?_ ?_
    · simp only [Stmt.code, labelNames_append, labelNames_jumpZero, labelNames_jump,
        labelNames_label, labelNames_nil, test.straight.labelNames_eq, List.nil_append]
      grind
    · intro i hi hj
      simp only [Stmt.code, List.mem_append, List.mem_cons, List.not_mem_nil, or_false] at hi
      rcases hi with h | rfl | h | rfl | rfl | h | rfl
      · simp [(test.straight i h).2] at hj
      · exact Or.inl rfl
      · exact Or.inr (Or.inr (List.mem_append.2 (Or.inl h)))
      · exact Or.inr (Or.inl rfl)
      · exact Or.inl rfl
      · exact Or.inr (Or.inr (List.mem_append.2 (Or.inr h)))
      · exact Or.inr (Or.inl rfl)
  | .loop span test body, n => by
    have hb := Stmt.labelledOf body (n + 2)
    have hm : n + (Stmt.loop span test body).labelCount = n + 2 + Stmt.labelCountOf body := by
      simp only [Stmt.labelCount]
      omega
    rw [hm]
    refine hb.wrap (by omega) ?_ ?_
    · simp only [Stmt.code, labelNames_append, labelNames_jumpZero, labelNames_jump,
        labelNames_label, labelNames_nil, test.straight.labelNames_eq, List.nil_append]
      exact (List.perm_append_singleton _ _).cons _
    · intro i hi hj
      simp only [Stmt.code, List.mem_append, List.mem_cons, List.not_mem_nil, or_false] at hi
      rcases hi with rfl | h | rfl | h | rfl | rfl
      · exact Or.inl rfl
      · simp [(test.straight i h).2] at hj
      · exact Or.inr (Or.inl rfl)
      · exact Or.inr (Or.inr h)
      · exact Or.inl rfl
      · exact Or.inr (Or.inl rfl)

/-- The labels of some statements are numbered from the number they are given. -/
theorem Stmt.labelledOf : ∀ (ss : List Stmt) (n : Nat),
    Labelled n (n + Stmt.labelCountOf ss) (Stmt.codeOf n ss)
  | [], n => ⟨List.nodup_nil, by simp [Stmt.codeOf], by simp [Stmt.codeOf]⟩
  | s :: rest, n => by
    have hs := Stmt.labelled s n
    have hr := Stmt.labelledOf rest (n + s.labelCount)
    rw [Nat.add_assoc] at hr
    rw [Stmt.labelCountOf]
    exact hs.append hr (by omega) (by omega)

end

/-- The labels of a script, each defined once, and its jumps lead to them. -/
theorem Script.labelled (script : Script) :
    Labelled 0 (Stmt.labelCountOf script.statements) script.code := by
  have h := Stmt.labelledOf script.statements 0
  rw [Nat.zero_add] at h
  have hh : Straight [Instruction.simple .halt] := by
    intro i hi
    obtain rfl := List.mem_singleton.1 hi
    exact ⟨by decide, rfl⟩
  exact h.append (hh.labelled _) (by omega) (by omega)

/-- Every jump of a script leads to a label with the name that it gives. -/
theorem Script.exists_target {script : Script} {p : Program} (hp : p.code.toList = script.code)
    {i : Instruction} (hi : i ∈ p.code.toList) (hj : Opcode.isJump i.op = true) :
    ∃ target j, p.labels.find? i.name = some target ∧ p.code[target]? = some j ∧
      j.op = Opcode.label.byte ∧ j.name = i.name := by
  have hl := script.labelled
  obtain ⟨target, j, hcode, hop, hname⟩ := exists_of_mem_labelNames (hl.closed i (hp ▸ hi) hj)
  rw [← hp, Array.getElem?_toList] at hcode
  have hfind := Program.find?_labels (hp ▸ hl.nodup) hcode hop
  exact ⟨target, j, hname ▸ hfind, hcode, hop, hname⟩

end Scriptlet
