import Scriptlet.Program.Object
import Scriptlet.Proofs.Items

/-!
# Object files that are read back

A program is stored as a data item, and the data item as bytes. Payloads that are zero, empty or
false are left out of the item, and rebuilt from the kind of the literal when it is read. So what is
read is the program with its zeros without sign (`Program.stored`). Only well-formed texts are
read : a file with another name or string (`Program.isTextual`) is refused as a whole.

Main statement : `object_round_trip`.
-/

namespace Scriptlet

open Cbor

/-! ## What can be stored -/

/-- The value is no string, or a well-formed one. -/
def Value.isTextual : Value → Bool
  | .string s => Utf8.isValid s
  | _ => true

/-- The texts of the instruction are well-formed. -/
def Instruction.isTextual (i : Instruction) : Bool :=
  i.arg.all Value.isTextual && Utf8.isValid i.name

/-- The names and strings of the program are well-formed. -/
def Program.isTextual (p : Program) : Bool :=
  Utf8.isValid p.name && p.code.toList.all Instruction.isTextual

/-- The program is of the current version, the lengths of its names and strings and the integers of
its source map have 64 bits, and it has at most as many instructions and entries as an array
holds. -/
structure Program.Fits (p : Program) : Prop where
  version : p.version = Program.currentVersion
  name : p.name.length < int64Bound
  names : ∀ i ∈ p.code.toList, i.name.length < int64Bound
  strings : ∀ i ∈ p.code.toList, ∀ s, i.arg = some (.string s) → s.length < int64Bound
  places : ∀ l ∈ p.sourceMap.toList,
    fitsInt64 l.pc = true ∧ fitsInt64 l.line = true ∧ fitsInt64 l.column = true
  codeSize : p.code.size ≤ maxCount
  mapSize : p.sourceMap.size ≤ maxCount

/-- The program fits, and its names and strings are well-formed. -/
structure Program.Storable (p : Program) : Prop extends p.Fits where
  textual : p.isTextual = true

/-- The value as it is read back : a zero loses its sign. -/
def Value.stored : Value → Value
  | .number x => .number (storedNumber x)
  | v => v

/-- The instruction as it is read back. -/
def Instruction.stored (i : Instruction) : Instruction := { i with arg := i.arg.map Value.stored }

/-- The program as it is read back. -/
def Program.stored (p : Program) : Program := { p with code := p.code.map Instruction.stored }

namespace Object

/-! ## Literals and instructions -/

/-- A text in an object file is refused if it is not well-formed. -/
theorem text_ofText (s old : Bytes) :
    Slot.text old (.ofText s) = if Utf8.isValid s then some s else none := by
  have hjoin : Slot.joinChunks? [s] = if Utf8.isValid s then some s else none := by
    simp [Slot.joinChunks?]
  exact hjoin

/-- A text that is left out where it is empty. -/
theorem field_text (s : Bytes) :
    Slot.text.field [] (if s = [] then none else some (.ofText s)) =
      if Utf8.isValid s then some s else none := by
  cases s with
  | nil => rfl
  | cons b rest => exact text_ofText (b :: rest) []

/-- A literal as it stands in a file. -/
def rawOf : Value → RawValue
  | .number x => { kind := 0, number := storedNumber x }
  | .string s => { kind := 1, text := s }
  | .bool b => { kind := 2, bool := b }

/-- A literal is read as the one that was written, unless it is a text that is refused. -/
theorem rawValue_valueItem (v : Value) :
    rawValue {} (valueItem v) = if v.isTextual then some (rawOf v) else none := by
  cases v with
  | number x =>
    rw [rawOf, storedNumber_eq, valueItem]
    cases x != 0 <;> rfl
  | string s =>
    cases s with
    | nil => rfl
    | cons b rest =>
      have hread : rawValue {} (valueItem (.string (b :: rest))) =
          (Slot.text [] (.ofText (b :: rest))).bind fun s => some (rawOf (.string s)) := rfl
      rw [hread, text_ofText, Value.isTextual]
      cases Utf8.isValid (b :: rest) <;> rfl
  | bool b => cases b <;> rfl

theorem value?_rawOf (v : Value) : (rawOf v).value? = some v.stored := by
  cases v <;> rfl

/-- An instruction as it stands in a file. -/
def rawOfInstruction (i : Instruction) : RawInstruction := ⟨i.op.toNat, i.arg.map rawOf, i.name⟩

/-- The entries of an instruction are read in turn. -/
theorem rawInstruction_instructionItem (i : Instruction) :
    rawInstruction {} (instructionItem i) =
      if i.isTextual then some (rawOfInstruction i) else none := by
  obtain ⟨op, arg, name⟩ := i
  have hop : Slot.nat 0x100 0 (.unsigned op.toNat) = some op.toNat := if_pos op.toNat_lt
  have hread : rawInstruction {} (instructionItem ⟨op, arg, name⟩) =
      (Slot.nat 0x100 0 (.unsigned op.toNat)).bind fun op =>
        ((Slot.optional {} rawValue).field none (arg.map valueItem)).bind fun arg =>
          (Slot.text.field [] (if name = [] then none else some (.ofText name))).bind fun name =>
            some ⟨op, arg, name⟩ := by
    cases arg <;> cases name <;> rfl
  have ha : (Slot.optional {} rawValue).field none (arg.map valueItem) =
      if arg.all Value.isTextual then some (arg.map rawOf) else none := by
    cases arg with
    | none => rfl
    | some v =>
      have hv := congrArg (Option.map some) (rawValue_valueItem v)
      rw [apply_ite (Option.map some)] at hv
      exact hv
  rw [hread, hop, field_text, ha, Instruction.isTextual]
  cases arg.all Value.isTextual <;> cases Utf8.isValid name <;> rfl

/-- The instructions of a file are those that were stored. -/
theorem instructions_map (code : List Instruction) : ∀ pc,
    instructions pc (code.map rawOfInstruction) = .ok (code.map Instruction.stored) := by
  induction code with
  | nil => exact fun _ => rfl
  | cons i rest ih =>
    intro pc
    have hop : i.op.toNat.toUInt8 = i.op := by simp
    rw [List.map_cons, instructions, ih (pc + 1), rawOfInstruction, hop]
    cases harg : i.arg with
    | none => simp [Instruction.stored, harg]
    | some v => simp [value?_rawOf, Instruction.stored, harg]

/-! ## The source map -/

theorem int_ofInt {n : Int} (h : fitsInt64 n = true) (old : Int) :
    Slot.int old (.ofInt n) = some n := by
  rw [fitsInt64, Bool.and_eq_true, decide_eq_true_eq, decide_eq_true_eq] at h
  cases n with
  | ofNat n =>
    rw [Int.ofNat_eq_natCast] at h
    exact if_pos (by omega)
  | negSucc n => exact if_pos (by omega)

theorem rawLocation_locationItem {l : SourceLocation} (h : fitsInt64 l.pc = true ∧
    fitsInt64 l.line = true ∧ fitsInt64 l.column = true) :
    rawLocation ⟨0, 0, 0⟩ (locationItem l) = some l := by
  have hread : rawLocation ⟨0, 0, 0⟩ (locationItem l) =
      (Slot.int 0 (.ofInt l.pc)).bind fun pc => (Slot.int 0 (.ofInt l.line)).bind fun line =>
        (Slot.int 0 (.ofInt l.column)).bind fun column => some ⟨pc, line, column⟩ := rfl
  rw [hread, int_ofInt h.1, int_ofInt h.2.1, int_ofInt h.2.2]
  rfl

/-! ## Programs -/

/-- A list is read back if all its elements are. -/
theorem list_map {α β : Type} {zero : β} {element : Slot β} {write : α → Item} {result : α → β}
    {good : α → Bool} {xs : List α}
    (h : ∀ x ∈ xs, element zero (write x) = if good x then some (result x) else none)
    (old : List β) : Slot.list zero element old (.array (xs.map write)) =
      if xs.all good then some (xs.map result) else none := by
  have hmap : (xs.map write).mapM (element zero) =
      if xs.all good then some (xs.map result) else none := by
    induction xs with
    | nil => rfl
    | cons x xs ih =>
      rw [List.map_cons, List.mapM_cons, h x List.mem_cons_self,
        ih fun y hy => h y (List.mem_cons_of_mem x hy), List.all_cons]
      cases good x <;> cases xs.all good <;> rfl
  exact hmap

/-- A list is read back as it was, if all its elements are. -/
theorem list_map_self {α : Type} {zero : α} {element : Slot α} {write : α → Item} {xs : List α}
    (h : ∀ x ∈ xs, element zero (write x) = some x) (old : List α) :
    Slot.list zero element old (.array (xs.map write)) = some xs := by
  have hlist := @list_map _ _ _ _ _ _ (fun _ => true) _ h old
  rwa [List.map_id', if_pos (by simp)] at hlist

theorem rawProgram?_programItem {p : Program} (h : p.Fits) :
    rawProgram? (programItem p) = if p.isTextual then some ⟨objectMagic, p.version, p.name,
      p.code.toList.map rawOfInstruction, p.sourceMap.toList⟩ else none := by
  obtain ⟨version, name, code, map⟩ := p
  have hread : rawProgram? (programItem ⟨version, name, code, map⟩) =
      (Slot.text [] (.ofText objectMagic)).bind fun magic =>
        (Slot.nat 0x10000 0 (.unsigned version)).bind fun version =>
          (Slot.text.field [] (if name = [] then none else some (.ofText name))).bind fun name =>
            (Slot.list {} rawInstruction [] (.array (code.toList.map instructionItem))).bind
              fun code =>
                ((Slot.list ⟨0, 0, 0⟩ rawLocation).field [] (if map.isEmpty then none
                  else some (.array (map.toList.map locationItem)))).bind fun map =>
                    some ⟨magic, version, name, code, map⟩ := by
    rw [programItem]
    cases name <;> cases map.isEmpty <;> rfl
  have hmagic : Slot.text [] (.ofText objectMagic) = some objectMagic := by
    rw [text_ofText, if_pos (by decide)]
  have hversion : Slot.nat 0x10000 0 (.unsigned version) = some version := by
    obtain rfl : version = 1 := h.version
    rfl
  have hcode := list_map (fun i (_ : i ∈ code.toList) => rawInstruction_instructionItem i) []
  have hmap : (Slot.list ⟨0, 0, 0⟩ rawLocation).field [] (if map.isEmpty then none
      else some (.array (map.toList.map locationItem))) = some map.toList := by
    cases hempty : map.isEmpty with
    | true =>
      rw [Array.isEmpty_iff] at hempty
      rw [hempty]
      rfl
    | false => exact list_map_self (fun l hl => rawLocation_locationItem (h.places l hl)) []
  rw [hread, hmagic, hversion, field_text, hmap, hcode, Program.isTextual]
  cases Utf8.isValid name <;> cases code.toList.all Instruction.isTextual <;> rfl

/-! ## The size of items -/

theorem fits_ofText {s : Bytes} (h : s.length < int64Bound) (depth : Nat) :
    (Item.ofText s).Fits depth :=
  ⟨s, rfl, lt_trans h (by decide)⟩

theorem fits_ofInt {n : Int} (h : fitsInt64 n = true) (depth : Nat) :
    (Item.ofInt n).Fits depth := by
  simp only [fitsInt64, int64Bound, Bool.and_eq_true, decide_eq_true_eq] at h
  cases n with
  | ofNat n =>
    rw [Int.ofNat_eq_natCast] at h
    exact show n < 2 ^ 64 by omega
  | negSucc n => exact show n < 2 ^ 64 by omega

theorem allFit_map {α : Type} {write : α → Item} {depth : Nat} {xs : List α}
    (h : ∀ x ∈ xs, (write x).Fits depth) : Item.AllFit depth (xs.map write) := by
  induction xs with
  | nil => trivial
  | cons x xs ih =>
    exact ⟨h x List.mem_cons_self, ih fun y hy => h y (List.mem_cons_of_mem x hy)⟩

theorem entriesFit_append {depth : Nat} : ∀ {a b : List (Item × Item)},
    Item.EntriesFit depth a → Item.EntriesFit depth b → Item.EntriesFit depth (a ++ b)
  | [], _, _, hb => hb
  | (_, _) :: _, _, ha, hb => ⟨ha.1, ha.2.1, entriesFit_append ha.2.2 hb⟩

theorem entriesFit_entry {depth n : Nat} (hn : n < 24) {item : Item} (h : item.Fits depth) :
    Item.EntriesFit depth [entry n item] :=
  ⟨show n < 2 ^ 64 by omega, h, trivial⟩

theorem entriesFit_entryIf {depth n : Nat} (hn : n < 24) {present : Bool} {item : Item}
    (h : item.Fits depth) : Item.EntriesFit depth (entryIf present n item) := by
  cases present
  · trivial
  · exact entriesFit_entry hn h

theorem length_entryIf_le (present : Bool) (n : Nat) (item : Item) :
    (entryIf present n item).length ≤ 1 := by
  cases present
  · exact Nat.zero_le 1
  · exact le_rfl

theorem fits_valueItem {v : Value} (h : ∀ s, v = .string s → s.length < int64Bound) {depth : Nat}
    (hdepth : depth < maxDepth) : (valueItem v).Fits depth := by
  have hkind : v.kind.code < 2 ^ 64 := by cases v.kind <;> decide
  have hcount (present : Bool) (n : Nat) (item : Item) :
      (entryIf present n item).length + 1 ≤ maxCount :=
    le_trans (Nat.succ_le_succ (length_entryIf_le present n item)) (by decide)
  have hkey : 1 < 2 ^ 64 := by decide
  cases v with
  | number x =>
    exact ⟨hdepth, hcount _ _ _, hkey, hkind, entriesFit_entryIf (by decide) trivial⟩
  | string s =>
    exact ⟨hdepth, hcount _ _ _, hkey, hkind,
      entriesFit_entryIf (by decide) (fits_ofText (h s rfl) _)⟩
  | bool b => exact ⟨hdepth, hcount _ _ _, hkey, hkind, entriesFit_entryIf (by decide) trivial⟩

theorem fits_instructionItem {i : Instruction} (hname : i.name.length < int64Bound)
    (harg : ∀ s, i.arg = some (.string s) → s.length < int64Bound) {depth : Nat}
    (hdepth : depth + 1 < maxDepth) : (instructionItem i).Fits depth := by
  have hop : i.op.toNat < 2 ^ 64 := lt_trans i.op.toNat_lt (by decide)
  have hkey : 1 < 2 ^ 64 := by decide
  refine ⟨by omega, ?_, hkey, hop, entriesFit_append ?_ ?_⟩
  · have hlen := length_entryIf_le (i.name != []) 3 (.ofText i.name)
    have harg : (i.arg.map fun v => entry 2 (valueItem v)).toList.length ≤ 1 := by
      cases i.arg
      · exact Nat.zero_le 1
      · exact le_rfl
    rw [List.length_cons, List.length_append, maxCount]
    omega
  · cases ha : i.arg with
    | none => trivial
    | some v =>
      refine entriesFit_entry (by decide) (fits_valueItem ?_ hdepth)
      rintro s rfl
      exact harg s ha
  · exact entriesFit_entryIf (by decide) (fits_ofText hname _)

theorem fits_locationItem {l : SourceLocation} (h : fitsInt64 l.pc = true ∧
    fitsInt64 l.line = true ∧ fitsInt64 l.column = true) {depth : Nat} (hdepth : depth < maxDepth) :
    (locationItem l).Fits depth :=
  ⟨hdepth, show 3 ≤ maxCount by decide, fits_ofInt h.1 _, fits_ofInt h.2.1 _, fits_ofInt h.2.2 _,
    trivial⟩

/-- A program whose counts and lengths have 64 bits is not too deep, and has not too many parts, to
be read. -/
theorem fits_programItem {p : Program} (h : p.Fits) : (programItem p).Fits 0 := by
  have hversion : p.version < 2 ^ 64 := by
    rw [h.version]
    decide
  have hmagic : objectMagic.length < int64Bound := by decide
  have hcode : (Item.array (p.code.toList.map instructionItem)).Fits 1 := by
    refine ⟨by decide, ?_, allFit_map fun i hi => ?_⟩
    · rw [List.length_map]
      exact h.codeSize
    · exact fits_instructionItem (h.names i hi) (h.strings i hi) (by decide)
  have hmap : (Item.array (p.sourceMap.toList.map locationItem)).Fits 1 := by
    refine ⟨by decide, ?_, allFit_map fun l hl => ?_⟩
    · rw [List.length_map]
      exact h.mapSize
    · exact fits_locationItem (h.places l hl) (by decide)
  refine ⟨by decide, ?_, ?_⟩
  · have hname := length_entryIf_le (p.name != []) 3 (.ofText p.name)
    have hplaces := length_entryIf_le (!p.sourceMap.isEmpty) 5
      (.array (p.sourceMap.toList.map locationItem))
    simp only [List.length_append, List.length_cons, List.length_nil, maxCount]
    omega
  · refine entriesFit_append (entriesFit_append (entriesFit_append ?_ ?_) ?_) ?_
    · exact entriesFit_append (entriesFit_entry (by decide) (fits_ofText hmagic _))
        (entriesFit_entry (by decide) hversion)
    · exact entriesFit_entryIf (by decide) (fits_ofText h.name _)
    · exact entriesFit_entry (by decide) hcode
    · exact entriesFit_entryIf (by decide) hmap

end Object

/-- What is read from the object file of a program is the program with its zeros without sign, if
its texts are well-formed. -/
theorem Program.ofObject_toObject {p : Program} (h : p.Fits) :
    Program.ofObject p.toObject = if p.isTextual then .ok p.stored else .error .malformed := by
  have hraw : decode p.toObject >>= Object.rawProgram? =
      Object.rawProgram? (Object.programItem p) := by
    rw [Program.toObject, decode_encode (Object.fits_programItem h)]
    rfl
  rw [Program.ofObject, hraw, Object.rawProgram?_programItem h]
  cases p.isTextual with
  | false => rfl
  | true =>
    simp only [if_true]
    rw [if_neg (by simp), if_neg (by simp [h.version]), Object.instructions_map,
      ← Array.toList_map]
    rfl

/-- The pattern of a number as it is read back. -/
def storedBits (bits : UInt64) : UInt64 :=
  if bits = negativeZero then 0 else if isNaNPattern bits then nanPattern else bits

theorem toBits_storedNumber (bits : UInt64) :
    (storedNumber (Float.ofBits bits)).toBits = storedBits bits := by
  have hnan : nanPattern ≠ negativeZero := by decide
  rw [storedNumber, toBits_ofBits, storedBits]
  by_cases hzero : bits = negativeZero
  · rw [hzero]
    decide
  · rw [if_neg hzero]
    cases hpattern : isNaNPattern bits with
    | true => simp [hnan, toBits_ofBits, hpattern]
    | false => simp [hzero, toBits_ofBits, hpattern]

/-- Object files keep programs. What is read from the file of a program is a program of the same
version, name and source map, and its instructions have the same opcodes and names. An absent
literal stays absent, and others keep their kind and value, up to the sign of a zero and the pattern
of what is not a number. -/
theorem object_round_trip {p : Program} (h : p.Storable) :
    ∃ q, Program.ofObject p.toObject = .ok q ∧ q.version = p.version ∧ q.name = p.name ∧
      q.sourceMap = p.sourceMap ∧ q.code.size = p.code.size ∧
      ∀ (pc : Nat) (i : Instruction), p.code[pc]? = some i →
        ∃ j, q.code[pc]? = some j ∧ j.op = i.op ∧ j.name = i.name ∧
          (i.arg = none → j.arg = none) ∧
          (∀ s, i.arg = some (.string s) → j.arg = some (.string s)) ∧
          (∀ b, i.arg = some (.bool b) → j.arg = some (.bool b)) ∧
          ∀ bits, i.arg = some (.number (Float.ofBits bits)) →
            ∃ x, j.arg = some (.number x) ∧ x.toBits = storedBits bits := by
  have hread := Program.ofObject_toObject h.toFits
  rw [if_pos h.textual] at hread
  refine ⟨p.stored, hread, rfl, rfl, rfl, Array.size_map, fun pc i hi => ?_⟩
  refine ⟨i.stored, by simp [Program.stored, hi], rfl, rfl, ?_, ?_, ?_, ?_⟩
  · intro harg
    rw [Instruction.stored, harg]
    rfl
  · intro s harg
    rw [Instruction.stored, harg]
    rfl
  · intro b harg
    rw [Instruction.stored, harg]
    rfl
  · intro bits harg
    rw [Instruction.stored, harg]
    exact ⟨_, rfl, toBits_storedNumber bits⟩

/-- A program with an unknown opcode, an empty text, a zero with a sign and a place before its
start. -/
theorem object_round_trip_of_negative_zero : ∃ p : Program, p.Storable ∧
    p.code.toList =
      [⟨0xEE, none, []⟩, .push (.string []), .push (.number (Float.ofBits negativeZero))] ∧
    p.sourceMap.toList = [⟨-1, 3, 0⟩] ∧
    ∃ q, Program.ofObject p.toObject = .ok q ∧ q.sourceMap = p.sourceMap ∧
      ∃ j x, q.code[2]? = some j ∧ j.arg = some (.number x) ∧ x.toBits = 0 := by
  let p : Program :=
    { code := #[⟨0xEE, none, []⟩, .push (.string []), .push (.number (Float.ofBits negativeZero))]
      sourceMap := #[⟨-1, 3, 0⟩] }
  have hp : p.Storable := by
    refine ⟨⟨rfl, by decide, ?_, ?_, ?_, by decide, by decide⟩, rfl⟩
    · simp [p, Instruction.push]
    · simp [p, Instruction.push]
    · simp only [p, List.forall_mem_cons]
      decide
  obtain ⟨q, hq, -, -, hmap, -, hcode⟩ := object_round_trip hp
  obtain ⟨j, hj, -, -, -, -, -, hnumber⟩ := hcode 2 _ rfl
  obtain ⟨x, hx, hbits⟩ := hnumber negativeZero rfl
  exact ⟨p, hp, rfl, rfl, q, hq, hmap, j, x, hj, hx, hbits⟩

end Scriptlet
