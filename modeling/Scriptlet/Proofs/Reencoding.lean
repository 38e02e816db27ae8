import Scriptlet.Program.Verify
import Scriptlet.Proofs.Bounds
import Scriptlet.Proofs.Code
import Scriptlet.Proofs.ObjectFiles

/-!
# Object files have a canonical form

A program may be stored in many ways : with lengths in any form, with keys in any order and twice,
with nulls and unknown entries, with integers in the place of numbers. Whatever bytes a program is
read from, it can be stored (`storable_of_ofObject`). What is read from its object file differs from
it in the sign of zeros only, and has the same object file.

Main statement : `object_reencoding`.
-/

namespace Scriptlet

open Cbor

/-! ## What is read can be stored -/

namespace Object

variable {n : Nat}

theorem gives_rawValue : rawValue.Gives n (fun v => IsText n v.text) := by
  intro old item v hold hitem hread
  obtain ⟨fields, hfields, hread⟩ := Option.bind_eq_some_iff.1 hread
  split at hread
  next kind number text bool =>
    simp only [Option.bind_eq_bind, Option.bind_eq_some_iff, Option.pure_def,
      Option.some.injEq] at hread
    obtain ⟨-, -, -, -, text', htext, -, -, rfl⟩ := hread
    exact Slot.gives_text.field hold
      (fun i hi => bounded_of_record? hitem hfields (by simp [hi])) htext
  next => cases hread

/-- The texts of the instruction are well-formed and have at most `n` bytes. -/
structure RawInstruction.Sound (n : Nat) (i : RawInstruction) : Prop where
  name : IsText n i.name
  arg : ∀ v, i.arg = some v → IsText n v.text

/-- An instruction that is read has texts no longer than the file. -/
theorem gives_rawInstruction : rawInstruction.Gives n (RawInstruction.Sound n) := by
  intro old item i hold hitem hread
  obtain ⟨fields, hfields, hread⟩ := Option.bind_eq_some_iff.1 hread
  split at hread
  next op arg name =>
    simp only [Option.bind_eq_bind, Option.bind_eq_some_iff, Option.pure_def,
      Option.some.injEq] at hread
    obtain ⟨-, -, arg', harg, name', hname, rfl⟩ := hread
    have hbounded {field : Option Item} (hfield : field ∈ [op, arg, name]) (i : Item)
        (hi : field = some i) : i.Bounded n := bounded_of_record? hitem hfields (hi ▸ hfield)
    have hoptional : (Slot.optional {} rawValue).Gives n
        (fun arg => ∀ v, arg = some v → IsText n v.text) :=
      Slot.gives_optional (isText_nil n) gives_rawValue
    exact ⟨Slot.gives_text.field hold.name (hbounded (by simp)) hname,
      hoptional.field hold.arg (hbounded (by simp)) harg⟩
  next => cases hread

/-- The numbers of an entry of a source map have 64 bits. -/
def Placed (l : SourceLocation) : Prop :=
  fitsInt64 l.pc = true ∧ fitsInt64 l.line = true ∧ fitsInt64 l.column = true

theorem gives_rawLocation : rawLocation.Gives n Placed := by
  refine Slot.gives_ofItem fun item l hitem hread => ?_
  split at hread
  next pc line column =>
    simp only [Option.bind_eq_bind, Option.bind_eq_some_iff, Option.pure_def,
      Option.some.injEq] at hread
    obtain ⟨pc', hpc, line', hline, column', hcolumn, rfl⟩ := hread
    obtain ⟨-, hinner⟩ := hitem
    have hint {i : Item} (hi : i ∈ [pc, line, column]) (k : Int) (hk : Slot.int 0 i = some k) :
        fitsInt64 k = true := Slot.gives_int 0 i k (by decide) (hinner i hi) hk
    exact ⟨hint (by simp) _ hpc, hint (by simp) _ hline, hint (by simp) _ hcolumn⟩
  next => cases hread

/-- The texts of the program are well-formed and have at most `n` bytes, and its lists and places
are of the sizes that can be stored. -/
structure RawProgram.Sound (n : Nat) (p : RawProgram) : Prop where
  name : IsText n p.name
  code : ∀ i ∈ p.code, i.Sound n
  places : ∀ l ∈ p.sourceMap, Placed l
  codeSize : p.code.length ≤ maxCount
  mapSize : p.sourceMap.length ≤ maxCount

theorem sound_of_rawProgram? {item : Item} {p : RawProgram} (hitem : item.Bounded n)
    (h : rawProgram? item = some p) : p.Sound n := by
  obtain ⟨fields, hfields, h⟩ := Option.bind_eq_some_iff.1 h
  split at h
  next magic version name code map =>
    simp only [Option.bind_eq_bind, Option.bind_eq_some_iff, Option.pure_def,
      Option.some.injEq] at h
    obtain ⟨-, -, -, -, name', hname, code', hcode, map', hmap, rfl⟩ := h
    have hbounded {field : Option Item} (hfield : field ∈ [magic, version, name, code, map])
        (i : Item) (hi : field = some i) : i.Bounded n :=
      bounded_of_record? hitem hfields (hi ▸ hfield)
    have hzero : RawInstruction.Sound n {} := ⟨isText_nil n, by simp⟩
    have hcode := (Slot.gives_list hzero gives_rawInstruction).field (by simp)
      (hbounded (by simp)) hcode
    have hplace : Placed ⟨0, 0, 0⟩ := by
      unfold Placed
      decide
    have hmap :=
      (Slot.gives_list hplace gives_rawLocation).field (by simp) (hbounded (by simp)) hmap
    exact ⟨Slot.gives_text.field (isText_nil n) (hbounded (by simp)) hname, hcode.2, hmap.2,
      hcode.1, hmap.1⟩
  next => cases h

/-- The instruction is what an instruction of a file stands for. -/
structure StandsFor (r : RawInstruction) (i : Instruction) : Prop where
  name : i.name = r.name
  arg : ∀ v, i.arg = some v → ∃ raw, r.arg = some raw ∧ raw.value? = some v

/-- Each instruction of the program stands for one of the file. -/
theorem standsFor_of_instructions : ∀ {pc : Nat} {raws : List RawInstruction}
    {code : List Instruction}, instructions pc raws = .ok code →
      code.length = raws.length ∧ ∀ i ∈ code, ∃ r ∈ raws, StandsFor r i
  | _, [], _, h => by
    obtain rfl := Except.ok.inj h
    simp
  | pc, r :: rest, code, h => by
    rw [instructions] at h
    obtain ⟨arg, code', harg, hcode, rfl⟩ : ∃ arg code',
        (∀ v, arg = some v → ∃ raw, r.arg = some raw ∧ raw.value? = some v) ∧
          instructions (pc + 1) rest = .ok code' ∧ ⟨r.op.toUInt8, arg, r.name⟩ :: code' = code := by
      split at h
      next =>
        obtain ⟨_, harg, h⟩ := exists_ok_of_bind h
        obtain rfl := Except.ok.inj harg
        obtain ⟨code', hcode, h⟩ := exists_ok_of_bind h
        exact ⟨none, code', by simp, hcode, Except.ok.inj h⟩
      next raw hraw =>
        split at h
        next value hvalue =>
          obtain ⟨_, harg, h⟩ := exists_ok_of_bind h
          obtain rfl := Except.ok.inj harg
          obtain ⟨code', hcode, h⟩ := exists_ok_of_bind h
          refine ⟨some value, code', fun v hv => ⟨raw, hraw, ?_⟩, hcode, Except.ok.inj h⟩
          rw [hvalue, hv]
        next => cases h
    obtain ⟨hlength, hmem⟩ := standsFor_of_instructions hcode
    refine ⟨by simp [hlength], List.forall_mem_cons.2 ⟨⟨r, List.mem_cons_self, rfl, harg⟩, ?_⟩⟩
    exact fun i hi => (hmem i hi).imp fun r' hr => ⟨List.mem_cons_of_mem r hr.1, hr.2⟩

/-- A literal that is a string has the text that was read for it. -/
theorem text_of_value? {raw : RawValue} {s : Bytes} (h : raw.value? = some (.string s)) :
    raw.text = s := by
  unfold RawValue.value? at h
  split at h <;> cases h
  rfl

end Object

open Object

/-- A program that was read can be stored. -/
theorem storable_of_ofObject {d : Bytes} (hd : d.length < int64Bound) {p : Program}
    (h : Program.ofObject d = .ok p) : p.Storable := by
  rw [Program.ofObject] at h
  split at h
  · cases h
  next raw hraw =>
    obtain ⟨item, hitem, hraw⟩ := Option.bind_eq_some_iff.1 hraw
    split at h
    · cases h
    split at h
    · cases h
    next hversion =>
      obtain ⟨code, hcode, h⟩ := exists_ok_of_bind h
      obtain rfl := Except.ok.inj h
      obtain ⟨hlength, hstands⟩ := standsFor_of_instructions hcode
      have hsound := sound_of_rawProgram? (bounded_of_decode hitem) hraw
      -- names and strings of the program are texts of the file
      have hname (i : Instruction) (hi : i ∈ code) : IsText d.length i.name := by
        obtain ⟨r, hr, hstand⟩ := hstands i hi
        exact hstand.name ▸ (hsound.code r hr).name
      have hstring (i : Instruction) (hi : i ∈ code) (t : Bytes) (ht : i.arg = some (.string t)) :
          IsText d.length t := by
        obtain ⟨r, hr, hstand⟩ := hstands i hi
        obtain ⟨raw, harg, hvalue⟩ := hstand.arg _ ht
        exact text_of_value? hvalue ▸ (hsound.code r hr).arg raw harg
      refine ⟨⟨not_not.1 hversion, hsound.name.length.trans_lt hd,
        fun i hi => (hname i hi).length.trans_lt hd,
        fun i hi t ht => (hstring i hi t ht).length.trans_lt hd, hsound.places,
        hlength.trans_le hsound.codeSize, hsound.mapSize⟩, ?_⟩
      rw [Program.isTextual, Bool.and_eq_true, List.all_eq_true]
      refine ⟨hsound.name.valid, fun i hi => ?_⟩
      rw [Instruction.isTextual, Bool.and_eq_true]
      refine ⟨?_, (hname i hi).valid⟩
      cases harg : i.arg with
      | none => rfl
      | some v =>
        cases v with
        | string t => exact (hstring i hi t harg).valid
        | number x => rfl
        | bool b => rfl

/-! ## What is read of an object file -/

/-- Two values are equal, or both are no number. -/
def Value.Alike (v w : Value) : Prop :=
  v.equal w = true ∨ ∃ x y, v = .number x ∧ w = .number y ∧ x.isNaN = true ∧ y.isNaN = true

/-- Two instructions have the same opcode and name, and alike literals, if any. -/
structure Instruction.Alike (i j : Instruction) : Prop where
  op : i.op = j.op
  name : i.name = j.name
  arg : Option.Rel Value.Alike i.arg j.arg

/-- Two programs are the same but for the sign of zeros and the patterns of what is no number. -/
structure Program.Alike (p q : Program) : Prop where
  version : p.version = q.version
  name : p.name = q.name
  sourceMap : p.sourceMap = q.sourceMap
  code : List.Forall₂ Instruction.Alike p.code.toList q.code.toList

/-- A zero without its sign equals the zero that it was. -/
theorem storedNumber_beq {x : Float} (h : x.isNaN = false) : (storedNumber x == x) = true := by
  have hne : x ≠ Float.nan := by
    rw [Float.isNaN_eq_decide_eq_nan, decide_eq_false_iff_not] at h
    exact h
  rw [storedNumber_eq, bne]
  cases hx : x == 0 with
  | true =>
    obtain rfl | rfl := (beq_zero_iff x).1 hx
    · decide
    · decide
  | false => exact (Float.beq_iff_ne_nan_and_eq ..).2 ⟨hne, hne, Or.inl rfl⟩

theorem storedNumber_of_isNaN {x : Float} (h : x.isNaN = true) : storedNumber x = x := by
  rw [eq_of_isNaN h]
  decide

theorem Value.alike_stored (v : Value) : v.stored.Alike v := by
  cases v with
  | number x =>
    cases h : x.isNaN with
    | true => exact Or.inr ⟨_, x, rfl, rfl, by rw [storedNumber_of_isNaN h, h], h⟩
    | false => exact Or.inl (storedNumber_beq h)
  | string s => exact Or.inl (beq_self_eq_true s)
  | bool b => exact Or.inl (beq_self_eq_true b)

theorem Program.alike_stored (p : Program) : p.stored.Alike p := by
  refine ⟨rfl, rfl, rfl, ?_⟩
  rw [Program.stored, Array.toList_map, List.forall₂_map_left_iff, List.forall₂_same]
  intro i _
  refine ⟨rfl, rfl, ?_⟩
  rw [Instruction.stored]
  cases i.arg with
  | none => exact .none
  | some v => exact .some v.alike_stored

namespace Object

/-- Literals are written without the sign of a zero. -/
theorem valueItem_stored (v : Value) : valueItem v.stored = valueItem v := by
  cases v with
  | number x =>
    have hzero : ((0 : Float) != 0) = false := by decide
    rw [Value.stored, storedNumber_eq, valueItem, valueItem]
    cases h : x != 0 with
    | false => simp [entryIf, hzero, Value.kind]
    | true => simp [h, Value.kind]
  | string s => rfl
  | bool b => rfl

/-- An instruction is written in the same way without the sign of a zero. -/
theorem instructionItem_stored (i : Instruction) :
    instructionItem i.stored = instructionItem i := by
  have harg : (i.arg.map Value.stored).map (fun v => entry 2 (valueItem v)) =
      i.arg.map fun v => entry 2 (valueItem v) := by
    rw [Option.map_map]
    exact congrArg (i.arg.map ·) (funext fun v => congrArg (entry 2) (valueItem_stored v))
  rw [instructionItem, instructionItem, Instruction.stored, harg]

end Object

namespace Program

theorem toObject_stored (p : Program) : p.stored.toObject = p.toObject := by
  have hcode : (p.code.map Instruction.stored).toList.map instructionItem =
      p.code.toList.map instructionItem := by
    rw [Array.toList_map, List.map_map]
    exact congrArg (List.map · _) (funext instructionItem_stored)
  rw [toObject, toObject, programItem, programItem, stored, hcode]

theorem operandProblems_stored (i : Instruction) :
    operandProblems i.stored = operandProblems i := by
  rw [operandProblems, operandProblems, Instruction.stored, Option.isNone_map]

/-- Whether a label is defined twice does not depend on the sign of a zero. -/
theorem definitionProblems_stored (code : List Instruction) : ∀ (defined : Table Nat) (pc : Nat),
    definitionProblems defined pc (code.map Instruction.stored) =
      definitionProblems defined pc code := by
  induction code with
  | nil => exact fun _ _ => rfl
  | cons i rest ih =>
    intro defined pc
    rw [List.map_cons, definitionProblems, definitionProblems, ih, operandProblems_stored]
    rfl

theorem jumpProblems_stored (defined : Table Nat) (code : List Instruction) : ∀ pc : Nat,
    jumpProblems defined pc (code.map Instruction.stored) = jumpProblems defined pc code := by
  induction code with
  | nil => exact fun _ => rfl
  | cons i rest ih =>
    intro pc
    rw [List.map_cons, jumpProblems, jumpProblems, ih]
    rfl

theorem labelsFrom_stored (code : List Instruction) : ∀ (t : Table Nat) (pc : Nat),
    labelsFrom t pc (code.map Instruction.stored) = labelsFrom t pc code := by
  induction code with
  | nil => exact fun _ _ => rfl
  | cons i rest ih =>
    intro t pc
    rw [List.map_cons, labelsFrom, labelsFrom, ih]
    rfl

/-- The problems of a program do not depend on the signs of zeros. -/
theorem problems_stored (p : Program) : p.stored.problems = p.problems := by
  have hlast : p.stored.endsWithHalt = p.endsWithHalt := by
    rw [endsWithHalt, endsWithHalt, stored, Array.back?_map]
    cases p.code.back? <;> rfl
  have hsize : p.stored.code.size = p.code.size := Array.size_map
  have hlabels : p.stored.labels = p.labels := by
    rw [labels, labels, stored, Array.toList_map, labelsFrom_stored]
  rw [problems, problems, hlast, hsize, hlabels, stored, Array.toList_map,
    definitionProblems_stored, jumpProblems_stored]

end Program

/-- Whatever file a program is read from, its object file is accepted in turn. The program that is
read of it is the same but for the sign of zeros and the patterns of what is no number, has the same
problems and is written the same way, byte for byte. The length of a file has 64 bits. -/
theorem object_reencoding {d : Bytes} (hd : d.length < int64Bound) {p : Program}
    (h : Program.ofObject d = .ok p) :
    ∃ q, Program.ofObject p.toObject = .ok q ∧ q.Alike p ∧ q.problems = p.problems ∧
      q.verifyMessage? = p.verifyMessage? ∧ q.toObject = p.toObject := by
  have hstorable := storable_of_ofObject hd h
  have hread := Program.ofObject_toObject hstorable.toFits
  rw [if_pos hstorable.textual] at hread
  have hproblems := p.problems_stored
  exact ⟨p.stored, hread, p.alike_stored, hproblems,
    by rw [Program.verifyMessage?, Program.verifyMessage?, hproblems], p.toObject_stored⟩

/-- A file of three literals, of which the first is an integer in the place of a number with a text
beside it, the second a zero with a sign and the third no number. The maps of the file and of its
first instruction end with a break, its fields are out of order, one is named by a text, one stands
twice and one is unknown. Its magic is in chunks, its name is null, and its version has a head that
is too long. -/
def strangeObject : Bytes :=
  [0xBF,
    0x04, 0x83,
      0xBF, 0x02, 0xA3, 0x03, 0x61, 0x78, 0x02, 0x07, 0x01, 0x00, 0x18, 0x01, 0x18, 0x01, 0xFF,
      0xA2, 0x01, 0x01, 0x02, 0xA2, 0x01, 0x00, 0x02, 0xF9, 0x80, 0x00,
      0xA2, 0x01, 0x01, 0x02, 0xA2, 0x01, 0x00, 0x02, 0xFA, 0x7F, 0xC0, 0x00, 0x01,
    0x61, 0x31, 0x7F, 0x62, 0x50, 0x4B, 0x62, 0x42, 0x43, 0xFF,
    0x02, 0x19, 0x00, 0x01,
    0x02, 0x05,
    0x03, 0xF6,
    0x18, 0x2A, 0xF5,
    0xFF]

/-- The strange file is accepted, and is written in fewer bytes. -/
theorem object_reencoding_of_strange_file :
    ∃ p q, Program.ofObject strangeObject = .ok p ∧ p.code.size = 3 ∧
      p.toObject.length < strangeObject.length ∧ Program.ofObject p.toObject = .ok q ∧ q.Alike p ∧
      q.problems = p.problems ∧ q.toObject = p.toObject := by
  have hread : (match Program.ofObject strangeObject with
      | .ok p => p.code.size == 3 && decide (p.toObject.length < strangeObject.length)
      | .error _ => false) = true := by
    decide +kernel
  split at hread
  next p hp =>
    rw [Bool.and_eq_true, beq_iff_eq, decide_eq_true_eq] at hread
    obtain ⟨q, hq, halike, hproblems, -, hsame⟩ := object_reencoding (by decide) hp
    exact ⟨p, q, hp, hread.1, hread.2, hq, halike, hproblems, hsame⟩
  next => cases hread

end Scriptlet
