import Scriptlet.Proofs.Generation
import Scriptlet.Proofs.ObjectFiles

/-!
# The programs of texts

What the program of a text holds comes from its tokens (`Emission.From`) : literals and names stand
in the text, and the lines and columns of the source map are places of tokens. Each entry of the map
has an instruction of its own (`Program.Mapped`). So a program with no more instructions than an
array holds fits an object file (`fits_of_compile`), and none of its numbers loses its sign there
(`stored_of_compile`).
-/

namespace Scriptlet

open Cbor

/-! ## The places of tokens -/

/-- The line and the column are at most `bound`. -/
def Position.Within (bound : Nat) (p : Position) : Prop := p.line ≤ bound ∧ p.column ≤ bound

namespace Position

theorem Within.mono {a b : Nat} {p : Position} (h : p.Within a) (hab : a ≤ b) : p.Within b :=
  ⟨h.1.trans hab, h.2.trans hab⟩

/-- A character moves the line or the column by one. -/
theorem Within.past {bound : Nat} {p : Position} (h : p.Within bound) (g : Glyph) :
    (p.past g).Within (bound + 1) := by
  obtain ⟨hline, hcolumn⟩ := h
  rw [Position.past]
  split
  · exact ⟨Nat.succ_le_succ hline, Nat.succ_le_succ (Nat.zero_le bound)⟩
  · exact ⟨Nat.le_succ_of_le hline, Nat.succ_le_succ hcolumn⟩

/-- Each character adds at most one to line and column. -/
theorem Within.pastAll {bound : Nat} {p : Position} (h : p.Within bound) (gs : List Glyph) :
    (p.pastAll gs).Within (bound + gs.length) := by
  induction gs generalizing p bound with
  | nil => exact h
  | cons g gs ih => exact (ih (h.past g)).mono (by simp only [List.length_cons]; omega)

end Position

/-- Tokens stand within as many lines and columns as there are characters. -/
theorem within_of_mem_scan {t : Token} : ∀ {mode : ScanMode} {p : Position} {gs : List Glyph}
    {bound : Nat}, p.Within bound → t ∈ scan mode p gs →
      t.start.Within (bound + gs.length) ∧ t.stop.Within (bound + gs.length)
  | mode, p, [], bound, hp, h => by
    have h : t ∈ [(⟨.eof, [], p, p⟩ : Token)] := by cases mode <;> exact h
    rw [List.mem_singleton.1 h]
    exact ⟨hp, hp⟩
  | mode, p, g :: rest, bound, hp, h => by
    -- whatever the mode, one character moves the bound by one and shortens the rest by one
    have hnext {mode' : ScanMode} (h : t ∈ scan mode' (p.past g) rest) :
        t.start.Within (bound + (g :: rest).length) ∧
          t.stop.Within (bound + (g :: rest).length) := by
      rw [List.length_cons, Nat.add_comm rest.length, ← Nat.add_assoc]
      exact within_of_mem_scan (hp.past g) h
    match mode with
    | .token (left + 1) =>
      rw [scan] at h
      exact hnext h
    | .comment =>
      rw [scan] at h
      exact hnext h
    | .token 0 =>
      rw [scan] at h
      split at h
      · exact hnext h
      split at h
      · exact hnext h
      · rcases List.mem_cons.1 h with rfl | h
        · refine ⟨hp.mono (Nat.le_add_right _ _), (hp.pastAll _).mono ?_⟩
          exact Nat.add_le_add_left (List.length_take_le' _ _) bound
        · exact hnext h

/-- A text has no more characters than bytes. -/
theorem Utf8.length_glyphsAfter_le : ∀ (skip : Nat) (s : Bytes),
    (glyphsAfter skip s).length ≤ s.length
  | _, [] => by simp [glyphsAfter]
  | skip + 1, _ :: rest => by
    rw [glyphsAfter]
    exact Nat.le_succ_of_le (length_glyphsAfter_le skip rest)
  | 0, b :: rest => by
    rw [glyphsAfter]
    exact Nat.succ_le_succ (length_glyphsAfter_le _ rest)

/-- The lines and columns of tokens are bounded by the length of the text. -/
theorem within_of_mem_tokenize {source : Bytes} {t : Token} (h : t ∈ tokenize source) :
    t.start.Within (source.length + 1) ∧ t.stop.Within (source.length + 1) := by
  have hlen : 1 + (Utf8.glyphs source).length ≤ source.length + 1 := by
    rw [Nat.add_comm]
    exact Nat.succ_le_succ (Utf8.length_glyphsAfter_le 0 source)
  obtain ⟨hstart, hstop⟩ := within_of_mem_scan ⟨le_rfl, le_rfl⟩ h
  exact ⟨hstart.mono hlen, hstop.mono hlen⟩

/-! ## Steps made of tokens -/

/-- The value is written as a token of the text, or is a truth value. -/
def Value.From (ts : List Token) : Value → Prop
  | .number x => ∃ t ∈ ts, numberOfLiteral? t.literal = some x
  | .string s => ∃ t ∈ ts, t.kind = .string ∧ t.literal = s
  | .bool _ => True

/-- The literal of the instruction comes from a token of the text, and so does its name, unless it
is a label. -/
structure Instruction.From (ts : List Token) (i : Instruction) : Prop where
  arg : ∀ v, i.arg = some v → v.From ts
  name : i.name = [] ∨ IsName ts i.name ∨ i.op = Opcode.label.byte ∨ Opcode.isJump i.op = true

/-- The step places instructions at a token of the text, or emits an instruction made of tokens. -/
def Emission.From (ts : List Token) : Emission → Prop
  | .locate line column => ∃ p : Position, line = p.line ∧ column = p.column ∧
    ∃ t ∈ ts, t.start = p ∨ t.stop = p
  | .instruction i => i.From ts

section

variable {ts : List Token}

theorem Position.mark_from {p : Position} (h : ∃ t ∈ ts, t.start = p ∨ t.stop = p) :
    ∀ x ∈ p.mark, x.From ts := by
  intro x hx
  rw [Position.mark] at hx
  split at hx
  · rw [List.mem_singleton.1 hx]
    exact ⟨p, rfl, rfl, h⟩
  · exact absurd hx List.not_mem_nil

theorem Span.mark_from {span : Span} (h : ∃ t ∈ ts, t.start = span.start) :
    ∀ x ∈ span.start.mark, x.From ts := by
  obtain ⟨t, ht, hstart⟩ := h
  exact Position.mark_from ⟨t, ht, .inl hstart⟩

theorem from_push {v : Value} (h : v.From ts) : (Instruction.push v).From ts := by
  refine ⟨fun v' hv => ?_, .inl rfl⟩
  obtain rfl := Option.some.inj hv
  exact h

theorem from_simple (op : Opcode) : (Instruction.simple op).From ts := ⟨nofun, .inl rfl⟩

/-- An instruction about a variable. -/
theorem from_variable {op : Opcode} {name : Bytes} (h : IsName ts name) :
    Instruction.From ts ⟨op.byte, none, name⟩ :=
  ⟨nofun, .inr (.inl h)⟩

/-- A label, or a jump to one. -/
theorem from_target {op : Opcode} (h : op = .label ∨ Opcode.isJump op.byte = true) (name : Bytes) :
    Instruction.From ts ⟨op.byte, none, name⟩ :=
  ⟨nofun, .inr (.inr (h.imp_left (congrArg Opcode.byte)))⟩

/-- The instructions of an operator hold no literal but a truth value. -/
theorem from_unary {op : TokenKind} {code : List Instruction}
    (h : unaryInstructions? op = some code) : ∀ i ∈ code, i.From ts := by
  unfold unaryInstructions? at h
  split at h <;> cases h
  · simp [from_simple]
  · simp
  · have htrue : (Instruction.push (.bool true)).From ts := from_push trivial
    simp [htrue, from_simple]

/-- The steps are made of tokens of the text. -/
def MadeOf (ts : List Token) (steps : List Emission) : Prop := ∀ x ∈ steps, x.From ts

@[simp] theorem madeOf_append {a b : List Emission} :
    MadeOf ts (a ++ b) ↔ MadeOf ts a ∧ MadeOf ts b := List.forall_mem_append

@[simp] theorem madeOf_cons {x : Emission} {xs : List Emission} :
    MadeOf ts (x :: xs) ↔ x.From ts ∧ MadeOf ts xs := List.forall_mem_cons

@[simp] theorem madeOf_nil : MadeOf ts [] := by simp [MadeOf]

theorem madeOf_leaf {span : Span} {i : Instruction} (h : ∃ t ∈ ts, t.span = span)
    (hi : i.From ts) : MadeOf ts (span.start.mark ++ [.instruction i]) := by
  obtain ⟨t, ht, rfl⟩ := h
  exact madeOf_append.2 ⟨Span.mark_from ⟨t, ht, rfl⟩, madeOf_cons.2 ⟨hi, madeOf_nil⟩⟩

/-- The steps of an expression are made of the tokens that it is made of. -/
theorem Expr.From.emissions : ∀ {e : Expr} {es : List Emission}, e.From ts → e.emissions = .ok es →
    MadeOf ts es
  | .number _ _, es, ⟨t, ht, _, hspan, hl⟩, h => by
    obtain rfl := Except.ok.inj h
    exact madeOf_leaf ⟨t, ht, hspan⟩ (from_push ⟨t, ht, hl⟩)
  | .string _ _, es, ⟨t, ht, hk, hspan, hl⟩, h => by
    obtain rfl := Except.ok.inj h
    exact madeOf_leaf ⟨t, ht, hspan⟩ (from_push ⟨t, ht, hk, hl⟩)
  | .bool _ _, es, ⟨t, ht, hspan⟩, h => by
    obtain rfl := Except.ok.inj h
    exact madeOf_leaf ⟨t, ht, hspan⟩ (from_push trivial)
  | .ident _ _, es, ⟨t, ht, hk, hspan, hl⟩, h => by
    obtain rfl := Except.ok.inj h
    exact madeOf_leaf ⟨t, ht, hspan⟩ (from_variable ⟨t, ht, hk, hl⟩)
  | .group _ inner, es, hfrom, h => by
    obtain ⟨is, hi, rfl⟩ := emissions_group h
    exact madeOf_append.2 ⟨Span.mark_from hfrom.1, emissions hfrom.2 hi⟩
  | .unary _ op operand, es, hfrom, h => by
    obtain ⟨os, code, ho, hop, rfl⟩ := emissions_unary h
    simp only [madeOf_append]
    refine ⟨⟨Span.mark_from hfrom.1, emissions hfrom.2.2 ho⟩, fun x hx => ?_⟩
    obtain ⟨i, hi, rfl⟩ := List.mem_map.1 hx
    exact from_unary hop i hi
  | .binary span op left right, es, hfrom, h => by
    obtain ⟨ls, rs, opcode, hl, hr, -, rfl⟩ := emissions_binary h
    have hstart : ∃ t ∈ ts, t.start = span.start :=
      @Expr.From.start ts (.binary span op left right) hfrom
    simp only [madeOf_append, madeOf_cons, madeOf_nil, and_true]
    exact ⟨⟨⟨Span.mark_from hstart, emissions hfrom.2.2.1 hl⟩, emissions hfrom.2.2.2 hr⟩,
      from_simple opcode⟩

mutual

/-- The steps of a statement are made of the tokens that it is made of. -/
theorem Stmt.From.emissions : ∀ {s : Stmt} {n m : Nat} {es : List Emission}, s.From ts →
    s.emissions n = .ok (es, m) → MadeOf ts es
  | .print _ _ value, n, m, es, hfrom, h | .expr _ value, n, m, es, hfrom, h => by
    obtain ⟨vs, hv, h⟩ := exists_ok_of_bind h
    obtain ⟨rfl, rfl⟩ := Prod.mk.inj (Except.ok.inj h)
    simp only [madeOf_append, madeOf_cons, madeOf_nil, and_true]
    exact ⟨⟨Span.mark_from hfrom.1, hfrom.2.emissions hv⟩, from_simple _⟩
  | .assign _ _ _ value, n, m, es, ⟨⟨t, ht, hk, hstart, hl⟩, hvalue⟩, h => by
    obtain ⟨vs, hv, h⟩ := exists_ok_of_bind h
    obtain ⟨rfl, rfl⟩ := Prod.mk.inj (Except.ok.inj h)
    simp only [madeOf_append, madeOf_cons, madeOf_nil, and_true]
    exact ⟨⟨Span.mark_from ⟨t, ht, hstart⟩, hvalue.emissions hv⟩,
      from_variable ⟨t, ht, hk, hl⟩⟩
  | .cond _ test yes no, n, m, es, hfrom, h => by
    obtain ⟨ts', ys, ns, k, ht, hy, hn, rfl⟩ := Stmt.emissions_cond h
    have hyes := Stmt.AllFrom.emissions hfrom.2.2.1 hy
    have hno := Stmt.AllFrom.emissions hfrom.2.2.2 hn
    simp only [madeOf_append, madeOf_cons, madeOf_nil, and_true]
    exact ⟨⟨⟨⟨⟨⟨Span.mark_from hfrom.1, hfrom.2.1.emissions ht⟩, from_target (.inr rfl) _⟩, hyes⟩,
      from_target (.inr rfl) _, from_target (.inl rfl) _⟩, hno⟩, from_target (.inl rfl) _⟩
  | .loop _ test body, n, m, es, hfrom, h => by
    obtain ⟨ts', bs, ht, hb, rfl⟩ := Stmt.emissions_loop h
    have hbody := Stmt.AllFrom.emissions hfrom.2.2 hb
    simp only [madeOf_append, madeOf_cons, madeOf_nil, and_true]
    exact ⟨⟨⟨⟨⟨Span.mark_from hfrom.1, from_target (.inl rfl) _⟩, hfrom.2.1.emissions ht⟩,
      from_target (.inr rfl) _⟩, hbody⟩, from_target (.inr rfl) _, from_target (.inl rfl) _⟩

theorem Stmt.AllFrom.emissions : ∀ {ss : List Stmt} {n m : Nat} {es : List Emission},
    Stmt.AllFrom ts ss → Stmt.emissionsOf ss n = .ok (es, m) → MadeOf ts es
  | [], n, m, es, _, h => by
    obtain ⟨rfl, rfl⟩ := Prod.mk.inj (Except.ok.inj h)
    exact madeOf_nil
  | s :: rest, n, m, es, hfrom, h => by
    obtain ⟨ss, rs, k, hs, hr, rfl⟩ := Stmt.emissionsOf_cons h
    exact madeOf_append.2 ⟨Stmt.From.emissions hfrom.1 hs, Stmt.AllFrom.emissions hfrom.2 hr⟩

end

end

/-! ## The source map -/

/-- The entries of the source map stand at instructions of the program and at lines and columns up
to `bound`. There are no more of them than instructions, but for one that waits for its
instruction. -/
structure Program.Mapped (bound : Nat) (p : Program) : Prop where
  places : ∀ l ∈ p.sourceMap.toList, (0 ≤ l.pc ∧ l.pc ≤ p.code.size) ∧
    (0 ≤ l.line ∧ l.line ≤ bound) ∧ 0 ≤ l.column ∧ l.column ≤ bound
  size : p.sourceMap.size ≤ p.code.size ∨
    p.sourceMap.size = p.code.size + 1 ∧ ∃ l, p.sourceMap.back? = some l ∧ l.pc = p.code.size

namespace Program

variable {bound : Nat} {p : Program}

/-- With an instruction, no entry waits for one. -/
theorem mapSize_emit_le (h : p.Mapped bound) (i : Instruction) :
    (p.emit i).sourceMap.size ≤ (p.emit i).code.size := by
  have hsize : (p.emit i).code.size = p.code.size + 1 := Array.size_push i
  rw [hsize]
  rcases h.size with hle | ⟨heq, -⟩
  · exact Nat.le_succ_of_le hle
  · exact heq.le

theorem mapped_emit (h : p.Mapped bound) (i : Instruction) : (p.emit i).Mapped bound := by
  have hsize : (p.emit i).code.size = p.code.size + 1 := Array.size_push i
  refine ⟨fun l hl => ?_, .inl (mapSize_emit_le h i)⟩
  obtain ⟨⟨hpos, hle⟩, hplace⟩ := h.places l hl
  rw [hsize]
  exact ⟨⟨hpos, by omega⟩, hplace⟩

/-- One more entry, for the next instruction. -/
theorem mapped_push (h : p.Mapped bound) {line column : Nat} (hline : line ≤ bound)
    (hcolumn : column ≤ bound) (hsize : p.sourceMap.size ≤ p.code.size) :
    Mapped bound { p with sourceMap := p.sourceMap.push ⟨p.code.size, line, column⟩ } := by
  refine ⟨fun l hl => ?_, ?_⟩
  · simp only [Array.toList_push, List.mem_append, List.mem_singleton] at hl
    rcases hl with hl | rfl
    · exact h.places l hl
    · dsimp only
      omega
  · simp only [Array.size_push, Array.back?_push]
    rcases hsize.lt_or_eq with hlt | heq
    · exact .inl hlt
    · exact .inr ⟨congrArg Nat.succ heq, _, rfl, rfl⟩

/-- A mark within the bound keeps the map within it. -/
theorem mapped_locate (h : p.Mapped bound) {line column : Nat} (hline : line ≤ bound)
    (hcolumn : column ≤ bound) : (p.locate line column).Mapped bound := by
  rw [locate]
  split
  next last hlast =>
    split
    next => exact h
    split
    next hpc =>
      -- the entry that waits for its instruction is replaced
      have hmem : last ∈ p.sourceMap := Array.mem_of_back? hlast
      have hsize : (p.sourceMap.pop.push { last with line := line, column := column }).size =
          p.sourceMap.size := by
        have hpos : 0 < p.sourceMap.size := Array.size_pos_of_mem hmem
        rw [Array.size_push, Array.size_pop]
        omega
      refine ⟨fun l hl => ?_, ?_⟩
      · simp only [Array.toList_push, Array.toList_pop, List.mem_append, List.mem_singleton] at hl
        rcases hl with hl | rfl
        · exact h.places l (List.mem_of_mem_dropLast hl)
        · have hlast := (h.places last (Array.mem_toList_iff.2 hmem)).1
          dsimp only
          omega
      · simp only [hsize, Array.back?_push]
        rcases h.size with hle | ⟨heq, -⟩
        · exact .inl hle
        · exact .inr ⟨heq, _, rfl, hpc⟩
    next hpc =>
      refine mapped_push h hline hcolumn (h.size.resolve_right ?_)
      rintro ⟨-, l, hl, hlpc⟩
      obtain rfl : last = l := Option.some.inj (hlast.symm.trans hl)
      exact hpc hlpc
  next hnone =>
    refine mapped_push h hline hcolumn ?_
    rw [Array.back?_eq_none_iff.1 hnone]
    exact Nat.zero_le _

/-- Steps keep the version and the name. -/
theorem header_foldl (steps : List Emission) : (steps.foldl Program.add p).version = p.version ∧
    (steps.foldl Program.add p).name = p.name := by
  induction steps generalizing p with
  | nil => exact ⟨rfl, rfl⟩
  | cons step steps ih =>
    have hstep : (p.add step).version = p.version ∧ (p.add step).name = p.name := by
      cases step with
      | instruction i => exact ⟨rfl, rfl⟩
      | locate line column =>
        rw [add, locate]
        split
        · split
          · exact ⟨rfl, rfl⟩
          · split <;> exact ⟨rfl, rfl⟩
        · exact ⟨rfl, rfl⟩
    rw [List.foldl_cons, ih.1, ih.2]
    exact hstep

/-- The steps of a text build a program whose source map is within the text. -/
theorem mapped_foldl {ts : List Token} (hts : ∀ t ∈ ts, t.start.Within bound ∧ t.stop.Within bound)
    {steps : List Emission} (hsteps : MadeOf ts steps) (h : p.Mapped bound) :
    (steps.foldl Program.add p).Mapped bound := by
  induction steps generalizing p with
  | nil => exact h
  | cons step steps ih =>
    obtain ⟨hstep, hsteps⟩ := madeOf_cons.1 hsteps
    refine ih hsteps ?_
    cases step with
    | instruction i => exact mapped_emit h i
    | locate line column =>
      obtain ⟨pos, rfl, rfl, t, ht, hpos⟩ := hstep
      have hwithin : pos.Within bound := by
        rcases hpos with rfl | rfl
        · exact (hts t ht).1
        · exact (hts t ht).2
      exact mapped_locate h hwithin.1 hwithin.2

end Program

/-! ## The length of names -/

theorem length_decimal_le (n : Nat) : (decimal n).length ≤ n + 1 := by
  induction n using Nat.strongRecOn with
  | ind n ih =>
    unfold decimal
    split
    · simp
    · have hlen := ih (n / 10) (by omega)
      rw [List.length_append, List.length_singleton]
      omega

theorem digit_lt (n : Nat) : digit n < 0x80 := by
  rw [UInt8.lt_iff_toNat_lt, toNat_digit]
  exact show 0x30 + n % 10 < 0x80 by omega

theorem decimal_ascii (n : Nat) : ∀ b ∈ decimal n, b < 0x80 := by
  intro b hb
  obtain ⟨m, rfl⟩ := exists_digit_of_mem hb
  exact digit_lt m

theorem isValid_labelName (n : Nat) : Utf8.isValid (labelName n) = true := by
  have hfixed : ∀ b ∈ Bytes.ofString "LBL", b < 0x80 := by decide +kernel
  exact Utf8.isValid_of_ascii (List.forall_mem_append.2 ⟨hfixed, decimal_ascii n⟩)

mutual

/-- Each label of a statement has an instruction of its own. -/
theorem Stmt.labelCount_le : ∀ (s : Stmt) (n : Nat), s.labelCount ≤ (s.code n).length
  | .print _ _ _, _ | .assign _ _ _ _, _ | .expr _ _, _ => Nat.zero_le _
  | .cond _ test yes no, n => by
    have hyes := Stmt.labelCountOf_le yes (n + 2)
    have hno := Stmt.labelCountOf_le no (n + 2 + Stmt.labelCountOf yes)
    simp only [Stmt.labelCount, Stmt.code, List.length_append, List.length_cons]
    omega
  | .loop _ test body, n => by
    have hbody := Stmt.labelCountOf_le body (n + 2)
    simp only [Stmt.labelCount, Stmt.code, List.length_append, List.length_cons]
    omega

theorem Stmt.labelCountOf_le : ∀ (ss : List Stmt) (n : Nat),
    Stmt.labelCountOf ss ≤ (Stmt.codeOf n ss).length
  | [], _ => Nat.zero_le _
  | s :: rest, n => by
    have hs := s.labelCount_le n
    have hrest := Stmt.labelCountOf_le rest (n + s.labelCount)
    simp only [Stmt.labelCountOf, Stmt.codeOf, List.length_append]
    omega

end

/-! ## Programs of texts -/

section

variable {source name : Bytes} {script : Script} {p : Program}

theorem from_of_parse (h : parse source = .ok script) : script.From (tokenize source) := by
  have hpartial := parsePartial_from source
  unfold parse at h
  split at h
  next tree hparse =>
    obtain rfl := Except.ok.inj h
    rw [hparse] at hpartial
    exact hpartial
  next => cases h

/-- The program of a text is built by steps that are made of its tokens. -/
theorem madeOf_of_compile (hscript : script.From (tokenize source))
    (hp : script.compile name = .ok p) : ∃ steps, MadeOf (tokenize source) steps ∧
      p = Program.ofEmissions name (steps ++ [.instruction (.simple .halt)]) := by
  obtain ⟨⟨t, ht, hstop⟩, hall⟩ := hscript
  obtain ⟨body, m, hbody, rfl⟩ := Script.steps_of_compile hp
  refine ⟨body ++ script.span.stop.mark, ?_, rfl⟩
  exact madeOf_append.2 ⟨hall.emissions hbody, Position.mark_from ⟨t, ht, .inr hstop⟩⟩

/-- The instructions of the program of a text are made of its tokens. -/
theorem from_of_mem_code (hscript : script.From (tokenize source))
    (hp : script.compile name = .ok p) : ∀ i ∈ p.code.toList, i.From (tokenize source) := by
  obtain ⟨steps, hsteps, rfl⟩ := madeOf_of_compile hscript hp
  intro i hi
  rw [Program.code_ofEmissions, Emission.code_append, List.mem_append] at hi
  rcases hi with hi | hi
  · obtain ⟨step, hstep, hcode⟩ := List.mem_filterMap.1 hi
    cases step with
    | locate => cases hcode
    | instruction j =>
      obtain rfl := Option.some.inj hcode
      exact hsteps _ hstep
  · rw [List.mem_singleton.1 hi]
    exact from_simple .halt

/-- Labels and jumps have names of labels, whose numbers are below the number of labels. -/
theorem labelName_of_mem_code (hp : script.compile name = .ok p) {i : Instruction}
    (hi : i ∈ p.code.toList) (hop : i.op = Opcode.label.byte ∨ Opcode.isJump i.op = true) :
    ∃ k < Stmt.labelCountOf script.statements, i.name = labelName k := by
  rw [(Script.code_of_compile hp).2] at hi
  have hmem : i.name ∈ labelNames script.code := by
    rcases hop with hop | hop
    · exact List.mem_map.2 ⟨i, List.mem_filter.2 ⟨hi, decide_eq_true hop⟩, rfl⟩
    · exact script.labelled.closed i hi hop
  obtain ⟨k, -, hk, hname⟩ := script.labelled.numbered _ hmem
  exact ⟨k, hk, hname⟩

/-- Names of instructions are well-formed, and no longer than the text or the code. -/
theorem name_of_mem_code (hscript : script.From (tokenize source))
    (hp : script.compile name = .ok p) {i : Instruction} (hi : i ∈ p.code.toList) :
    Utf8.isValid i.name = true ∧ i.name.length ≤ max source.length (p.code.size + 3) := by
  rcases (from_of_mem_code hscript hp i hi).name with hnil | ⟨t, ht, hk, hname⟩ | hlabel
  · rw [hnil]
    exact ⟨rfl, Nat.zero_le _⟩
  · have hlen := (literal_in_source ht (by simp [hk])).length_le
    rw [← hname]
    exact ⟨(literal_of_identifier ht hk).2, by omega⟩
  · -- the number of a label has no more digits than there are labels, and each is an instruction
    obtain ⟨k, hk, hname⟩ := labelName_of_mem_code hp hi hlabel
    have hcount := Stmt.labelCountOf_le script.statements 0
    have hsize : p.code.size = (Stmt.codeOf 0 script.statements).length + 1 := by
      rw [← Array.length_toList, (Script.code_of_compile hp).2, Script.code, List.length_append,
        List.length_singleton]
    have hdigits := length_decimal_le k
    have hlen : (labelName k).length = 3 + (decimal k).length := List.length_append
    rw [hname]
    exact ⟨isValid_labelName k, by omega⟩

theorem header_of_compile (hp : script.compile name = .ok p) :
    p.version = Program.currentVersion ∧ p.name = name := by
  rw [Script.compile] at hp
  cases hsteps : script.emissions with
  | error e =>
    rw [hsteps] at hp
    cases hp
  | ok steps =>
    rw [hsteps] at hp
    obtain rfl := Except.ok.inj hp
    exact Program.header_foldl steps

/-- The texts of a program are well-formed if its name and the strings that it pushes are. -/
theorem isTextual_of_compile (hscript : script.From (tokenize source))
    (hp : script.compile name = .ok p) : p.isTextual = true ↔ Utf8.isValid name = true ∧
      ∀ i ∈ p.code.toList, ∀ s, i.arg = some (.string s) → Utf8.isValid s = true := by
  rw [Program.isTextual, (header_of_compile hp).2, Bool.and_eq_true, List.all_eq_true]
  refine and_congr_right fun _ => forall₂_congr fun i hi => ?_
  rw [Instruction.isTextual, (name_of_mem_code hscript hp hi).1, Bool.and_true]
  cases i.arg with
  | none => simp
  | some v => cases v <;> simp [Value.isTextual]

/-- A program with at most as many instructions as an array holds fits an object file. -/
theorem fits_of_compile (hscript : script.From (tokenize source))
    (hp : script.compile name = .ok p) (hsource : source.length + 1 < int64Bound)
    (hname : name.length < int64Bound) (hsize : p.code.size ≤ maxCount) : p.Fits := by
  have hcount : maxCount + 3 < int64Bound := by decide
  obtain ⟨hversion, hpname⟩ := header_of_compile hp
  have hmapped : p.Mapped (source.length + 1) ∧ p.sourceMap.size ≤ p.code.size := by
    obtain ⟨steps, hsteps, rfl⟩ := madeOf_of_compile hscript hp
    have hmapped := Program.mapped_foldl (fun t ht => within_of_mem_tokenize ht) hsteps
      (⟨by simp, .inl le_rfl⟩ : Program.Mapped (source.length + 1) { name := name })
    rw [Program.ofEmissions, List.foldl_append]
    exact ⟨Program.mapped_emit hmapped _, Program.mapSize_emit_le hmapped _⟩
  obtain ⟨hmapped, hmap⟩ := hmapped
  refine ⟨hversion, hpname ▸ hname, fun i hi => ?_, fun i hi s hs => ?_, fun l hl => ?_, hsize,
    hmap.trans hsize⟩
  · have hlen := (name_of_mem_code hscript hp hi).2
    omega
  · obtain ⟨t, ht, hk, hl⟩ := (from_of_mem_code hscript hp i hi).arg _ hs
    have hlen := (literal_in_source ht (by simp [hk])).length_le
    rw [hl] at hlen
    omega
  · obtain ⟨⟨hpc, hpc'⟩, ⟨hline, hline'⟩, hcolumn, hcolumn'⟩ := hmapped.places l hl
    simp only [fitsInt64, Bool.and_eq_true, decide_eq_true_eq]
    omega

/-- No number in the program of a text has a sign that is lost. -/
theorem stored_of_compile (hscript : script.From (tokenize source))
    (hp : script.compile name = .ok p) : p.stored = p := by
  have hinstruction : ∀ i ∈ p.code.toList, i.stored = i := by
    intro i hi
    have harg := (from_of_mem_code hscript hp i hi).arg
    obtain ⟨op, arg, name⟩ := i
    cases arg with
    | none => rfl
    | some v =>
      cases v with
      | number x =>
        obtain ⟨t, -, hx⟩ := harg _ rfl
        rw [Instruction.stored, Option.map_some, Value.stored, storedNumber_of_literal hx]
      | string s => rfl
      | bool b => rfl
  have hcode : p.code.map Instruction.stored = p.code := by
    rw [← Array.toList_inj, Array.toList_map, List.map_congr_left hinstruction, List.map_id']
  rw [Program.stored, hcode]

end

end Scriptlet
