import Scriptlet.Program.Compile

/-!
# The code of a script

`Expr.code` and `Stmt.code` are the instructions of a tree without the marks between them. A tree
has a program exactly if its operators are supported (`Script.Supported`), and the code of that
program is the code of the tree (`Script.code_of_compile`, `Script.compile_of_supported`).
-/

namespace Scriptlet

/-- A computation with a result has a result at its first step. -/
theorem exists_ok_of_bind {ε α β : Type} {x : Except ε α} {f : α → Except ε β} {b : β}
    (h : x >>= f = .ok b) : ∃ a, x = .ok a ∧ f a = .ok b := by
  cases hx : x with
  | error e =>
    rw [hx] at h
    exact absurd h (by simp [bind, Except.bind])
  | ok a =>
    rw [hx] at h
    exact ⟨a, rfl, h⟩

/-! ## Emissions -/

/-- The instructions among some steps. -/
def Emission.code (steps : List Emission) : List Instruction :=
  steps.filterMap fun
    | .locate _ _ => none
    | .instruction i => some i

namespace Emission

@[simp] theorem code_nil : code [] = [] := rfl

@[simp] theorem code_append (a b : List Emission) : code (a ++ b) = code a ++ code b := by
  simp [code]

@[simp] theorem code_instruction (i : Instruction) (rest : List Emission) :
    code (.instruction i :: rest) = i :: code rest := rfl

@[simp] theorem code_locate (line column : Nat) (rest : List Emission) :
    code (.locate line column :: rest) = code rest := rfl

@[simp] theorem code_mark (p : Position) : code p.mark = [] := by
  unfold Position.mark
  split <;> rfl

@[simp] theorem code_map (is : List Instruction) : code (is.map .instruction) = is := by
  induction is with
  | nil => rfl
  | cons i is ih => rw [List.map_cons, code_instruction, ih]

end Emission

@[simp] theorem Program.code_locate (p : Program) (line column : Int) :
    (p.locate line column).code = p.code := by
  unfold Program.locate
  split
  · split
    · rfl
    · split <;> rfl
  · rfl

theorem Program.code_foldl_add (steps : List Emission) (p : Program) :
    (steps.foldl Program.add p).code.toList = p.code.toList ++ Emission.code steps := by
  induction steps generalizing p with
  | nil => simp
  | cons step rest ih =>
    rw [List.foldl_cons, ih]
    cases step with
    | locate line column => simp [Program.add]
    | instruction i => simp [Program.add, Program.emit]

/-- The code of a program is the instructions among the steps that build it. -/
theorem Program.code_ofEmissions (name : Bytes) (steps : List Emission) :
    (Program.ofEmissions name steps).code.toList = Emission.code steps := by
  simp [Program.ofEmissions, Program.code_foldl_add]

/-! ## Trees -/

/-- The operators of the expression are operators of the language. -/
def Expr.Supported : Expr → Prop
  | .number _ _ | .string _ _ | .bool _ _ | .ident _ _ => True
  | .group _ inner => inner.Supported
  | .unary _ op operand => op ∈ [.minus, .plus, .tilde] ∧ operand.Supported
  | .binary _ op left right => (binaryOpcode? op).isSome ∧ left.Supported ∧ right.Supported

mutual

/-- The operators in the statement are operators of the language. -/
def Stmt.Supported : Stmt → Prop
  | .print _ _ value | .assign _ _ _ value | .expr _ value => value.Supported
  | .cond _ test yes no => test.Supported ∧ Stmt.AllSupported yes ∧ Stmt.AllSupported no
  | .loop _ test body => test.Supported ∧ Stmt.AllSupported body

/-- The operators in some statements are operators of the language. -/
def Stmt.AllSupported : List Stmt → Prop
  | [] => True
  | s :: rest => s.Supported ∧ Stmt.AllSupported rest

end

/-- The operators in the script are operators of the language. -/
def Script.Supported (script : Script) : Prop := Stmt.AllSupported script.statements

/-- The instructions of an expression. -/
def Expr.code : Expr → List Instruction
  | .number _ x => [.push (.number x)]
  | .string _ s => [.push (.string s)]
  | .bool _ b => [.push (.bool b)]
  | .ident _ name => [.loadGlobal name]
  | .group _ inner => inner.code
  | .unary _ op operand => operand.code ++ (unaryInstructions? op).getD []
  | .binary _ op left right =>
    left.code ++ (right.code ++ ((binaryOpcode? op).map Instruction.simple).toList)

mutual

/-- The number of labels in a statement. -/
def Stmt.labelCount : Stmt → Nat
  | .print _ _ _ | .assign _ _ _ _ | .expr _ _ => 0
  | .cond _ _ yes no => 2 + Stmt.labelCountOf yes + Stmt.labelCountOf no
  | .loop _ _ body => 2 + Stmt.labelCountOf body

/-- The number of labels in some statements. -/
def Stmt.labelCountOf : List Stmt → Nat
  | [] => 0
  | s :: rest => s.labelCount + Stmt.labelCountOf rest

end

mutual

/-- The instructions of a statement whose first label has number `n`. -/
def Stmt.code (n : Nat) : Stmt → List Instruction
  | .print _ newline value => value.code ++ [.simple (if newline then .println else .print)]
  | .assign _ name _ value => value.code ++ [.storeGlobal name]
  | .expr _ value => value.code ++ [.simple .pop]
  | .cond _ test yes no =>
    test.code ++ .jumpZero (labelName n) :: (Stmt.codeOf (n + 2) yes ++
      .jump (labelName (n + 1)) :: .label (labelName n) ::
        (Stmt.codeOf (n + 2 + Stmt.labelCountOf yes) no ++ [.label (labelName (n + 1))]))
  | .loop _ test body =>
    .label (labelName n) :: (test.code ++ .jumpZero (labelName (n + 1)) ::
      (Stmt.codeOf (n + 2) body ++ [.jump (labelName n), .label (labelName (n + 1))]))

/-- The instructions of some statements, whose first label has number `n`. -/
def Stmt.codeOf (n : Nat) : List Stmt → List Instruction
  | [] => []
  | s :: rest => s.code n ++ Stmt.codeOf (n + s.labelCount) rest

end

/-- The instructions of a script. -/
def Script.code (script : Script) : List Instruction :=
  Stmt.codeOf 0 script.statements ++ [.simple .halt]

theorem unaryInstructions?_isSome {op : TokenKind} :
    (unaryInstructions? op).isSome ↔ op ∈ [TokenKind.minus, .plus, .tilde] := by
  cases op <;> simp [unaryInstructions?]

/-- The steps of a unary operation are its mark, those of its operand, and its own instructions. -/
theorem Expr.emissions_unary {span : Span} {op : TokenKind} {operand : Expr} {es : List Emission}
    (h : (Expr.unary span op operand).emissions = .ok es) : ∃ os is, operand.emissions = .ok os ∧
      unaryInstructions? op = some is ∧ es = span.start.mark ++ os ++ is.map .instruction := by
  obtain ⟨os, ho, h⟩ := exists_ok_of_bind h
  cases hop : unaryInstructions? op with
  | none => simp [hop] at h
  | some is =>
    simp only [hop] at h
    exact ⟨os, is, ho, rfl, (Except.ok.inj h).symm⟩

/-- The steps of a binary operation are its mark, those of its operands, and its instruction. -/
theorem Expr.emissions_binary {span : Span} {op : TokenKind} {left right : Expr}
    {es : List Emission} (h : (Expr.binary span op left right).emissions = .ok es) :
    ∃ ls rs opcode, left.emissions = .ok ls ∧ right.emissions = .ok rs ∧
      binaryOpcode? op = some opcode ∧
      es = span.start.mark ++ ls ++ rs ++ [.instruction (.simple opcode)] := by
  rw [Expr.emissions] at h
  cases hop : binaryOpcode? op with
  | none => simp [hop] at h
  | some opcode =>
    simp only [hop] at h
    obtain ⟨ls, hl, h⟩ := exists_ok_of_bind h
    obtain ⟨rs, hr, h⟩ := exists_ok_of_bind h
    exact ⟨ls, rs, opcode, hl, hr, rfl, (Except.ok.inj h).symm⟩

/-- The steps of a group are its mark and those of the expression in it. -/
theorem Expr.emissions_group {span : Span} {inner : Expr} {es : List Emission}
    (h : (Expr.group span inner).emissions = .ok es) :
    ∃ is, inner.emissions = .ok is ∧ es = span.start.mark ++ is := by
  obtain ⟨is, hi, h⟩ := exists_ok_of_bind h
  exact ⟨is, hi, (Except.ok.inj h).symm⟩

/-- The steps of a condition are its mark, those of its test, and those of its branches between the
jumps past them. -/
theorem Stmt.emissions_cond {span : Span} {test : Expr} {yes no : List Stmt} {n m : Nat}
    {es : List Emission} (h : (Stmt.cond span test yes no).emissions n = .ok (es, m)) :
    ∃ ts ys ns k, test.emissions = .ok ts ∧ Stmt.emissionsOf yes (n + 2) = .ok (ys, k) ∧
      Stmt.emissionsOf no k = .ok (ns, m) ∧
      es = span.start.mark ++ ts ++ [.instruction (.jumpZero (labelName n))] ++ ys ++
        [.instruction (.jump (labelName (n + 1))), .instruction (.label (labelName n))] ++ ns ++
        [.instruction (.label (labelName (n + 1)))] := by
  obtain ⟨ts, ht, h⟩ := exists_ok_of_bind h
  obtain ⟨⟨ys, k⟩, hy, h⟩ := exists_ok_of_bind h
  obtain ⟨⟨ns, l⟩, hn, h⟩ := exists_ok_of_bind h
  obtain ⟨rfl, rfl⟩ := Prod.mk.inj (Except.ok.inj h)
  exact ⟨ts, ys, ns, k, ht, hy, hn, rfl⟩

/-- The steps of a loop are its mark, its label, those of its test, and those of its body between
the jump out of it and the jump back. -/
theorem Stmt.emissions_loop {span : Span} {test : Expr} {body : List Stmt} {n m : Nat}
    {es : List Emission} (h : (Stmt.loop span test body).emissions n = .ok (es, m)) :
    ∃ ts bs, test.emissions = .ok ts ∧ Stmt.emissionsOf body (n + 2) = .ok (bs, m) ∧
      es = span.start.mark ++ [.instruction (.label (labelName n))] ++ ts ++
        [.instruction (.jumpZero (labelName (n + 1)))] ++ bs ++
        [.instruction (.jump (labelName n)), .instruction (.label (labelName (n + 1)))] := by
  obtain ⟨ts, ht, h⟩ := exists_ok_of_bind h
  obtain ⟨⟨bs, k⟩, hb, h⟩ := exists_ok_of_bind h
  obtain ⟨rfl, rfl⟩ := Prod.mk.inj (Except.ok.inj h)
  exact ⟨ts, bs, ht, hb, rfl⟩

/-- The steps of some statements are those of the first and those of the rest. -/
theorem Stmt.emissionsOf_cons {s : Stmt} {rest : List Stmt} {n m : Nat} {es : List Emission}
    (h : Stmt.emissionsOf (s :: rest) n = .ok (es, m)) :
    ∃ ss rs k, s.emissions n = .ok (ss, k) ∧ Stmt.emissionsOf rest k = .ok (rs, m) ∧
      es = ss ++ rs := by
  obtain ⟨⟨ss, k⟩, hs, h⟩ := exists_ok_of_bind h
  obtain ⟨⟨rs, l⟩, hr, h⟩ := exists_ok_of_bind h
  obtain ⟨rfl, rfl⟩ := Prod.mk.inj (Except.ok.inj h)
  exact ⟨ss, rs, k, hs, hr, rfl⟩

theorem Expr.code_of_emissions : ∀ {e : Expr} {es : List Emission}, e.emissions = .ok es →
    e.Supported ∧ Emission.code es = e.code
  | .number _ _, es, h | .string _ _, es, h | .bool _ _, es, h | .ident _ _, es, h => by
    obtain rfl := Except.ok.inj h
    exact ⟨trivial, by simp [Expr.code]⟩
  | .group _ inner, es, h => by
    obtain ⟨is, hi, rfl⟩ := emissions_group h
    obtain ⟨hs, hc⟩ := code_of_emissions hi
    exact ⟨hs, by simp [Expr.code, hc]⟩
  | .unary _ op operand, es, h => by
    obtain ⟨os, is, ho, hop, rfl⟩ := emissions_unary h
    obtain ⟨hs, hc⟩ := code_of_emissions ho
    exact ⟨⟨unaryInstructions?_isSome.1 (by simp [hop]), hs⟩, by simp [Expr.code, hc, hop]⟩
  | .binary _ op left right, es, h => by
    obtain ⟨ls, rs, opcode, hl, hr, hop, rfl⟩ := emissions_binary h
    obtain ⟨hsl, hcl⟩ := code_of_emissions hl
    obtain ⟨hsr, hcr⟩ := code_of_emissions hr
    exact ⟨⟨by simp [hop], hsl, hsr⟩, by simp [Expr.code, hcl, hcr, hop]⟩

theorem Expr.emissions_of_supported : ∀ {e : Expr}, e.Supported → ∃ es, e.emissions = .ok es
  | .number _ _, _ | .string _ _, _ | .bool _ _, _ | .ident _ _, _ => ⟨_, rfl⟩
  | .group _ inner, h => by
    obtain ⟨es, he⟩ := emissions_of_supported (e := inner) h
    exact ⟨_, by rw [Expr.emissions, he]; rfl⟩
  | .unary _ op operand, h => by
    obtain ⟨es, he⟩ := emissions_of_supported h.2
    obtain ⟨is, hop⟩ := Option.isSome_iff_exists.1 (unaryInstructions?_isSome.2 h.1)
    exact ⟨_, by rw [Expr.emissions, he, hop]; rfl⟩
  | .binary _ op left right, h => by
    obtain ⟨opcode, hop⟩ := Option.isSome_iff_exists.1 h.1
    obtain ⟨ls, hl⟩ := emissions_of_supported h.2.1
    obtain ⟨rs, hr⟩ := emissions_of_supported h.2.2
    exact ⟨_, by rw [Expr.emissions, hop, hl, hr]; rfl⟩

mutual

theorem Stmt.code_of_emissions : ∀ {s : Stmt} {n m : Nat} {es : List Emission},
    s.emissions n = .ok (es, m) →
      s.Supported ∧ Emission.code es = s.code n ∧ m = n + s.labelCount
  | .print _ _ value, n, m, es, h | .assign _ _ _ value, n, m, es, h
  | .expr _ value, n, m, es, h => by
    obtain ⟨vs, hv, h⟩ := exists_ok_of_bind h
    obtain ⟨rfl, rfl⟩ := Prod.mk.inj (Except.ok.inj h)
    obtain ⟨hs, hc⟩ := Expr.code_of_emissions hv
    exact ⟨hs, by simp [Stmt.code, hc], rfl⟩
  | .cond _ test yes no, n, m, es, h => by
    obtain ⟨ts, ys, ns, k, ht, hy, hn, rfl⟩ := Stmt.emissions_cond h
    obtain ⟨hst, hct⟩ := Expr.code_of_emissions ht
    obtain ⟨hsy, hcy, rfl⟩ := Stmt.codeOf_of_emissions hy
    obtain ⟨hsn, hcn, rfl⟩ := Stmt.codeOf_of_emissions hn
    refine ⟨⟨hst, hsy, hsn⟩, by simp [Stmt.code, hct, hcy, hcn], ?_⟩
    simp only [Stmt.labelCount]
    omega
  | .loop _ test body, n, m, es, h => by
    obtain ⟨ts, bs, ht, hb, rfl⟩ := Stmt.emissions_loop h
    obtain ⟨hst, hct⟩ := Expr.code_of_emissions ht
    obtain ⟨hsb, hcb, rfl⟩ := Stmt.codeOf_of_emissions hb
    refine ⟨⟨hst, hsb⟩, by simp [Stmt.code, hct, hcb], ?_⟩
    simp only [Stmt.labelCount]
    omega

theorem Stmt.codeOf_of_emissions : ∀ {ss : List Stmt} {n m : Nat} {es : List Emission},
    Stmt.emissionsOf ss n = .ok (es, m) →
      Stmt.AllSupported ss ∧ Emission.code es = Stmt.codeOf n ss ∧ m = n + Stmt.labelCountOf ss
  | [], n, m, es, h => by
    obtain ⟨rfl, rfl⟩ := Prod.mk.inj (Except.ok.inj h)
    exact ⟨trivial, rfl, rfl⟩
  | s :: rest, n, m, es, h => by
    obtain ⟨ss, rs, k, hs, hr, rfl⟩ := Stmt.emissionsOf_cons h
    obtain ⟨hss, hcs, rfl⟩ := Stmt.code_of_emissions hs
    obtain ⟨hsr, hcr, rfl⟩ := Stmt.codeOf_of_emissions hr
    refine ⟨⟨hss, hsr⟩, by simp [Stmt.codeOf, hcs, hcr], ?_⟩
    simp only [Stmt.labelCountOf]
    omega

end

mutual

theorem Stmt.emissions_of_supported : ∀ {s : Stmt}, s.Supported → ∀ n, ∃ r, s.emissions n = .ok r
  | .print _ _ value, h, n | .assign _ _ _ value, h, n | .expr _ value, h, n => by
    obtain ⟨es, he⟩ := Expr.emissions_of_supported (e := value) h
    exact ⟨_, by rw [Stmt.emissions, he]; rfl⟩
  | .cond _ test yes no, h, n => by
    obtain ⟨ts, ht⟩ := Expr.emissions_of_supported h.1
    obtain ⟨⟨ys, k⟩, hy⟩ := Stmt.emissionsOf_of_supported h.2.1 (n + 2)
    obtain ⟨⟨ns, l⟩, hn⟩ := Stmt.emissionsOf_of_supported h.2.2 k
    exact ⟨_, by rw [Stmt.emissions, ht]; simp only [bind, Except.bind, hy, hn]; rfl⟩
  | .loop _ test body, h, n => by
    obtain ⟨ts, ht⟩ := Expr.emissions_of_supported h.1
    obtain ⟨⟨bs, k⟩, hb⟩ := Stmt.emissionsOf_of_supported h.2 (n + 2)
    exact ⟨_, by rw [Stmt.emissions, ht]; simp only [bind, Except.bind, hb]; rfl⟩

theorem Stmt.emissionsOf_of_supported : ∀ {ss : List Stmt}, Stmt.AllSupported ss →
    ∀ n, ∃ r, Stmt.emissionsOf ss n = .ok r
  | [], _, n => ⟨_, rfl⟩
  | s :: rest, h, n => by
    obtain ⟨⟨es, k⟩, hs⟩ := Stmt.emissions_of_supported h.1 n
    obtain ⟨⟨rs, l⟩, hr⟩ := Stmt.emissionsOf_of_supported h.2 k
    exact ⟨_, by rw [Stmt.emissionsOf, hs]; simp only [bind, Except.bind, hr]; rfl⟩

end

/-- The program of a script is built by the steps of its statements, a mark for its end, and the
last instruction. -/
theorem Script.steps_of_compile {script : Script} {name : Bytes} {p : Program}
    (h : script.compile name = .ok p) : ∃ body m,
      Stmt.emissionsOf script.statements 0 = .ok (body, m) ∧
      p = Program.ofEmissions name
        (body ++ script.span.stop.mark ++ [.instruction (.simple .halt)]) := by
  unfold Script.compile Script.emissions at h
  cases hb : Stmt.emissionsOf script.statements 0 with
  | error e => simp [hb, bind, Except.bind, Functor.map, Except.map] at h
  | ok r =>
    simp only [hb, bind, Except.bind, Functor.map, Except.map, pure, Except.pure] at h
    exact ⟨r.1, r.2, rfl, (Except.ok.inj h).symm⟩

/-- The code of the program of a script is the code of the script. -/
theorem Script.code_of_compile {script : Script} {name : Bytes} {p : Program}
    (h : script.compile name = .ok p) : script.Supported ∧ p.code.toList = script.code := by
  obtain ⟨body, m, hbody, rfl⟩ := Script.steps_of_compile h
  obtain ⟨hs, hc, -⟩ := Stmt.codeOf_of_emissions hbody
  refine ⟨hs, ?_⟩
  rw [Program.code_ofEmissions]
  simp [Script.code, hc]

/-- A script whose operators are supported has a program. -/
theorem Script.compile_of_supported {script : Script} (h : script.Supported) (name : Bytes) :
    ∃ p, script.compile name = .ok p := by
  obtain ⟨⟨es, m⟩, he⟩ := Stmt.emissionsOf_of_supported h 0
  exact ⟨_, by
    simp only [Script.compile, Script.emissions, he, bind, Except.bind]
    rfl⟩

/-- The program of a text is the program of its tree. -/
theorem exists_script_of_compileSource {name source : Bytes} {p : Program}
    (h : compileSource name source = .ok p) :
    ∃ script, parse source = .ok script ∧ script.compile name = .ok p := by
  unfold compileSource at h
  split at h
  · cases h
  · next script hscript =>
    split at h
    · cases h
    · next p' hp =>
      obtain rfl := Except.ok.inj h
      exact ⟨script, hscript, hp⟩

end Scriptlet
