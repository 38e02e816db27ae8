import Scriptlet.Proofs.PositionOrder
import Scriptlet.Proofs.SourceMaps

/-!
# The marks of a text

The marks among the steps of a tree are the starts of its nodes in the order of a walk
(`Stmt.marks_of_emissionsOf`), and the end of the script. So the lines that are marked for a text do
not go back (`pairwise_marks`), and the first step is a mark.

Main statement : `sourceMap_rises`.
-/

namespace Scriptlet

/-! ## Trees -/

/-- The lines on which some nodes start. -/
def Node.startLines (ns : List Node) : List Nat :=
  (ns.map fun n => n.span.start.line).filter (0 < ·)

theorem Node.startLines_cons (n : Node) (ns : List Node) :
    startLines (n :: ns) = [n.span.start.line].filter (0 < ·) ++ startLines ns :=
  List.filter_append [n.span.start.line] _

theorem Node.startLines_append (ns ms : List Node) :
    startLines (ns ++ ms) = startLines ns ++ startLines ms := by
  simp [startLines]

/-- The marks of an expression are the starts of its nodes. -/
theorem Expr.marks_of_emissions : ∀ {e : Expr} {es : List Emission}, e.emissions = .ok es →
    Emission.marks es = Node.startLines (Node.expr e).walk
  | .number _ _, es, h | .string _ _, es, h | .bool _ _, es, h | .ident _ _, es, h => by
    obtain rfl := Except.ok.inj h
    rw [Emission.marks_append, Emission.marks_mark]
    exact List.append_nil _
  | .group span inner, es, h => by
    obtain ⟨is, hi, rfl⟩ := emissions_group h
    rw [Emission.marks_append, Emission.marks_mark, marks_of_emissions hi]
    exact (Node.startLines_cons (.expr (.group span inner)) _).symm
  | .unary span op operand, es, h => by
    obtain ⟨os, is, ho, -, rfl⟩ := emissions_unary h
    rw [Emission.marks_append, Emission.marks_append, Emission.marks_mark, Emission.marks_map,
      List.append_nil, marks_of_emissions ho]
    exact (Node.startLines_cons (.expr (.unary span op operand)) _).symm
  | .binary span op left right, es, h => by
    obtain ⟨ls, rs, opcode, hl, hr, -, rfl⟩ := emissions_binary h
    simp only [Emission.marks_append, Emission.marks_mark, Emission.marks_instruction,
      Emission.marks_nil, List.append_nil, marks_of_emissions hl, marks_of_emissions hr,
      List.append_assoc]
    rw [← Node.startLines_append, Node.walk, Node.walk, ← List.map_append]
    exact (Node.startLines_cons (.expr (.binary span op left right)) _).symm

mutual

/-- The marks of a statement are the starts of its nodes. -/
theorem Stmt.marks_of_emissions : ∀ {s : Stmt} {n m : Nat} {es : List Emission},
    s.emissions n = .ok (es, m) → Emission.marks es = Node.startLines s.walk
  | .print _ _ value, n, m, es, h | .assign _ _ _ value, n, m, es, h
  | .expr _ value, n, m, es, h => by
    obtain ⟨vs, hv, h⟩ := exists_ok_of_bind h
    obtain ⟨rfl, rfl⟩ := Prod.mk.inj (Except.ok.inj h)
    simp only [Stmt.walk, Node.startLines_cons, Emission.marks_append, Emission.marks_mark,
      Expr.marks_of_emissions hv, Emission.marks_instruction, Emission.marks_nil, List.append_nil]
    rfl
  | .cond _ test yes no, n, m, es, h => by
    obtain ⟨ts, ys, ns, k, ht, hy, hn, rfl⟩ := Stmt.emissions_cond h
    simp only [Stmt.walk, Node.startLines_cons, Node.startLines_append, Emission.marks_append,
      Emission.marks_mark, Expr.marks_of_emissions ht, Stmt.marks_of_emissionsOf hy,
      Stmt.marks_of_emissionsOf hn, Emission.marks_instruction, Emission.marks_nil,
      List.append_nil, List.append_assoc]
    rfl
  | .loop _ test body, n, m, es, h => by
    obtain ⟨ts, bs, ht, hb, rfl⟩ := Stmt.emissions_loop h
    simp only [Stmt.walk, Node.startLines_cons, Node.startLines_append, Emission.marks_append,
      Emission.marks_mark, Expr.marks_of_emissions ht, Stmt.marks_of_emissionsOf hb,
      Emission.marks_instruction, Emission.marks_nil, List.append_nil, List.append_assoc]
    rfl

theorem Stmt.marks_of_emissionsOf : ∀ {ss : List Stmt} {n m : Nat} {es : List Emission},
    Stmt.emissionsOf ss n = .ok (es, m) → Emission.marks es = Node.startLines (Stmt.walkOf ss)
  | [], n, m, es, h => by
    obtain ⟨rfl, rfl⟩ := Prod.mk.inj (Except.ok.inj h)
    rfl
  | s :: rest, n, m, es, h => by
    obtain ⟨ss, rs, k, hs, hr, rfl⟩ := Stmt.emissionsOf_cons h
    rw [Stmt.walkOf, Node.startLines_append, Emission.marks_append, Stmt.marks_of_emissions hs,
      Stmt.marks_of_emissionsOf hr]

end

/-- The steps of an expression start with its mark. -/
theorem Expr.exists_rest_of_emissions {e : Expr} {es : List Emission} (h : e.emissions = .ok es) :
    ∃ rest, es = e.span.start.mark ++ rest := by
  cases e with
  | number | string | bool | ident =>
    obtain rfl := Except.ok.inj h
    exact ⟨_, rfl⟩
  | group =>
    obtain ⟨is, -, rfl⟩ := emissions_group h
    exact ⟨_, rfl⟩
  | unary =>
    obtain ⟨os, is, -, -, rfl⟩ := emissions_unary h
    exact ⟨_, List.append_assoc _ _ _⟩
  | binary =>
    obtain ⟨ls, rs, opcode, -, -, -, rfl⟩ := emissions_binary h
    exact ⟨_, by simp only [List.append_assoc]; rfl⟩

/-- So do the steps of a statement. -/
theorem Stmt.exists_rest_of_emissions {s : Stmt} {n m : Nat} {es : List Emission}
    (h : s.emissions n = .ok (es, m)) : ∃ rest, es = s.span.start.mark ++ rest := by
  cases s with
  | print | assign | expr =>
    obtain ⟨vs, -, h⟩ := exists_ok_of_bind h
    obtain ⟨rfl, rfl⟩ := Prod.mk.inj (Except.ok.inj h)
    exact ⟨_, List.append_assoc _ _ _⟩
  | cond =>
    obtain ⟨ts, ys, ns, k, -, -, -, rfl⟩ := Stmt.emissions_cond h
    exact ⟨_, by simp only [List.append_assoc]; rfl⟩
  | loop =>
    obtain ⟨ts, bs, -, -, rfl⟩ := Stmt.emissions_loop h
    exact ⟨_, by simp only [List.append_assoc]; rfl⟩

/-! ## Programs of texts -/

theorem Node.startLines_eq {ns : List Node} (h : ∀ n ∈ ns, 0 < n.span.start.line) :
    startLines ns = ns.map fun n => n.span.start.line := by
  refine List.filter_eq_self.2 fun line hline => ?_
  obtain ⟨n, hn, rfl⟩ := List.mem_map.1 hline
  exact decide_eq_true (h n hn)

theorem Stmt.self_mem_walk (s : Stmt) : .stmt s ∈ s.walk := by
  cases s <;> exact List.mem_cons_self

section

variable {source name : Bytes} {script : Script} {p : Program} {body : List Emission} {m : Nat}

/-- Nodes of the tree of a text start and end at positions of the text. -/
theorem in_of_parse (hparse : parse source = .ok script) {n : Node}
    (hn : n ∈ (Node.script script).walk) : n.span.start.In source ∧ n.span.stop.In source := by
  rw [← tree_of_parse hparse] at hn
  exact in_of_mem_walk hn

/-- The marked lines of a text do not go back. -/
theorem pairwise_marks (hparse : parse source = .ok script)
    (hbody : Stmt.emissionsOf script.statements 0 = .ok (body, m)) :
    (Emission.marks (body ++ script.span.stop.mark ++ [.instruction (.simple .halt)])).Pairwise
      (· ≤ ·) := by
  have hbuilt := builtFrom_parsePartial source
  rw [tree_of_parse hparse] at hbuilt
  have hordered := inOrder_tokenize source
  have hin := fun n hn => in_of_parse (n := n) hparse hn
  have hroot := hin (.script script) List.mem_cons_self
  have hbelow : ∀ n ∈ Stmt.walkOf script.statements, n ∈ (Node.script script).walk :=
    fun n hn => List.mem_cons_of_mem _ hn
  have hwalk : (Stmt.walkOf script.statements).Pairwise
      fun a b => a.span.start.line ≤ b.span.start.line := by
    refine (List.pairwise_cons.1 (hbuilt.pairwise_walk hordered)).2.imp_of_mem fun ha hb hab => ?_
    exact (hin _ (hbelow _ ha)).1.line_le (hin _ (hbelow _ hb)).1 hab
  rw [Emission.marks_append, Emission.marks_append, Stmt.marks_of_emissionsOf hbody,
    Node.startLines_eq fun n hn => (hin n (hbelow n hn)).1.pos.1, Emission.marks_mark,
    Emission.marks_instruction, Emission.marks_nil, List.append_nil]
  refine List.pairwise_append.2 ⟨List.pairwise_map.2 hwalk,
    (List.pairwise_singleton _ _).filter _, fun line hline last hlast => ?_⟩
  obtain ⟨n, hn, rfl⟩ := List.mem_map.1 hline
  obtain rfl := List.mem_singleton.1 (List.mem_filter.1 hlast).1
  exact (hin n (hbelow n hn)).1.line_le hroot.2
    (hbuilt.start_of_mem_walk hordered (hbelow n hn)).2

/-- The first step for a text is a mark. -/
theorem exists_mark_of_parse (hparse : parse source = .ok script)
    (hbody : Stmt.emissionsOf script.statements 0 = .ok (body, m)) :
    ∃ q : Position, 0 < q.line ∧ ∃ rest,
      body ++ script.span.stop.mark ++ [.instruction (.simple .halt)] = q.mark ++ rest := by
  cases hstatements : script.statements with
  | nil =>
    rw [hstatements] at hbody
    obtain ⟨rfl, -⟩ := Prod.mk.inj (Except.ok.inj hbody)
    exact ⟨_, (in_of_parse hparse List.mem_cons_self).2.pos.1, _, rfl⟩
  | cons s ss =>
    have hs : .stmt s ∈ (Node.script script).walk := by
      rw [Node.walk, hstatements]
      exact List.mem_cons_of_mem _ (List.mem_append_left _ s.self_mem_walk)
    rw [hstatements] at hbody
    obtain ⟨es, rs, k, hes, -, rfl⟩ := Stmt.emissionsOf_cons hbody
    obtain ⟨rest, rfl⟩ := Stmt.exists_rest_of_emissions hes
    exact ⟨_, (in_of_parse hparse hs).1.pos.1, _, by simp only [List.append_assoc]; rfl⟩

/-- The program of a text is built by steps that begin with a mark and end with an instruction, and
whose marked lines do not go back. -/
theorem built_of_compileSource (h : compileSource name source = .ok p) :
    ∃ (steps rest : List Emission) (q : Position), p.Ordered ∧ p.Rising ∧
      (∀ e ∈ p.sourceMap.toList, e.pc < p.code.size) ∧ 0 < p.code.size ∧
      p.lines = Emission.lines 0 steps ∧ Emission.Ascends 0 steps ∧
      0 < q.line ∧ steps = q.mark ++ rest := by
  obtain ⟨script, hparse, hcompile⟩ := exists_script_of_compileSource h
  obtain ⟨body, m, hbody, rfl⟩ := Script.steps_of_compile hcompile
  have hascends := Emission.Ascends.of_pairwise (pairwise_marks hparse hbody)
  obtain ⟨q, hq, rest, hrest⟩ := exists_mark_of_parse hparse hbody
  have hempty := Program.ordered_empty name
  obtain ⟨hordered, hlines⟩ := Program.lines_foldl hempty
    (body ++ script.span.stop.mark ++ [.instruction (.simple .halt)])
  have hrising := Program.rising_foldl hempty .nil hascends
  -- the last instruction stands behind all entries
  have hbefore := (Program.lines_foldl hempty (body ++ script.span.stop.mark)).1.inside
  rw [List.foldl_append] at hordered hlines hrising
  rw [Program.ofEmissions, List.foldl_append]
  have hsize := Program.size_emit ((body ++ script.span.stop.mark).foldl Program.add
    { name := name }) (.simple .halt)
  refine ⟨_, rest, q, hordered, hrising, fun e he => ?_, ?_, hlines, hascends, hq, hrest⟩
  · have hle := (hbefore e he).2
    change e.pc < ((Program.emit _ _).code.size : Int)
    omega
  · change 0 < (Program.emit _ _).code.size
    omega

end

/-- The source map of a compiled text rises. It is not empty, its first entry stands at the first
instruction, and each entry has a greater place and a greater line than those before it. All places
are instructions. So each instruction has a known line, and the lines do not go back along the
code. -/
theorem sourceMap_rises {source name : Bytes} {p : Program}
    (h : compileSource name source = .ok p) :
    (∃ first rest, p.sourceMap.toList = first :: rest ∧ first.pc = 0) ∧
    (p.sourceMap.toList.Pairwise fun a b => a.pc < b.pc ∧ a.line < b.line) ∧
    (∀ e ∈ p.sourceMap.toList, 0 ≤ e.pc ∧ e.pc < p.code.size) ∧
    (∀ k : Nat, k < p.code.size → ∃ e ∈ p.sourceMap.toList, p.locationOf? k = some e ∧
      p.lineOf k = e.line ∧ 0 < e.line) ∧
    ∀ j k : Nat, j ≤ k → k < p.code.size → p.lineOf j ≤ p.lineOf k := by
  obtain ⟨steps, rest, q, hordered, hrising, hinside, hsize, hlines, hascends, hq, rfl⟩ :=
    built_of_compileSource h
  have hpos (k : Nat) (hk : k < p.code.size) : 0 < p.lineOf k := by
    refine Emission.lines_pos hq hascends _ ?_
    rw [← hlines]
    exact Program.lineOf_mem_lines hk
  have hsorted : p.lines.Pairwise (· ≤ ·) := by
    rw [hlines]
    exact (List.pairwise_cons.1 hascends.pairwise_lines).2
  refine ⟨Program.exists_first hordered (hpos 0 hsize).ne',
    List.pairwise_and_iff.2 ⟨hordered.pairwise, hrising⟩,
    fun e he => ⟨(hordered.inside e he).1, hinside e he⟩, fun k hk => ?_,
    fun j k hjk hk => Program.lineOf_le hsorted hjk hk⟩
  obtain ⟨e, he, hlocation, -, hline⟩ := Program.exists_location (hpos k hk).ne'
  exact ⟨e, he, hlocation, hline.symm, hline ▸ hpos k hk⟩

/-- A loop over several lines : the mark of each assignment gives way to the mark of its value,
which stands in the next line. -/
theorem sourceMap_rises_of_loop : ∃ p,
    compileSource [] "x :=\n1\nwhile x\n< 2 do x :=\n(x\n+ 1) end\n\n" = .ok p ∧
    p.sourceMap.toList.map (fun e => (e.pc, e.line)) =
      [(0, 2), (2, 3), (4, 4), (7, 5), (8, 6), (13, 8)] ∧
    (∃ first rest, p.sourceMap.toList = first :: rest ∧ first.pc = 0) ∧
    (p.sourceMap.toList.Pairwise fun a b => a.pc < b.pc ∧ a.line < b.line) ∧
    ∀ j k : Nat, j ≤ k → k < p.code.size → p.lineOf j ≤ p.lineOf k := by
  have hmap : (compileSource [] "x :=\n1\nwhile x\n< 2 do x :=\n(x\n+ 1) end\n\n").toOption.map
      (fun p => p.sourceMap.toList.map fun e => (e.pc, e.line)) =
        some [(0, 2), (2, 3), (4, 4), (7, 5), (8, 6), (13, 8)] := by decide +kernel
  cases hp : compileSource [] "x :=\n1\nwhile x\n< 2 do x :=\n(x\n+ 1) end\n\n" with
  | error e =>
    rw [hp] at hmap
    cases hmap
  | ok p =>
    rw [hp] at hmap
    obtain ⟨hfirst, hpairwise, -, -, hlines⟩ := sourceMap_rises hp
    exact ⟨p, rfl, Option.some.inj hmap, hfirst, hpairwise, hlines⟩

end Scriptlet
