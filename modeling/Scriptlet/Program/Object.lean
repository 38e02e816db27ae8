import Scriptlet.Cbor.Schema
import Scriptlet.Program.Basic

/-!
# Object files

A program as a file: a canonical CBOR map. `Program.toObject` writes one, and `Program.ofObject`
reads one, also if it is not canonical. What is read is not checked any further.
-/

namespace Scriptlet

open Cbor

/-- What an object file starts with. -/
def objectMagic : Bytes := "PKBC"

/-- Why a file is not read as a program. -/
inductive ObjectError where
  /-- The file is not CBOR, or an item is of the wrong type. -/
  | malformed
  | badMagic (magic : Bytes)
  | unsupportedVersion (version : Nat)
  /-- The literal of an instruction is of no known kind. -/
  | unknownKind (pc : Nat) (kind : Nat)
  deriving DecidableEq, Repr

/-- The error in words. -/
def ObjectError.message : ObjectError → Bytes
  | malformed => "bytecode: unmarshal program"
  | badMagic magic => "invalid program: bad magic " ++ Quoted.text magic
  | unsupportedVersion version =>
    "invalid program: unsupported version " ++ decimal version ++ " (want " ++
      decimal Program.currentVersion ++ ")"
  | unknownKind pc kind =>
    "bytecode: unmarshal pc " ++ decimal pc ++ ": invalid program: unknown value kind " ++
      decimal kind

namespace Object

/-- An entry of a record whose fields are numbered. -/
def entry (n : Nat) (item : Item) : Item × Item := (.unsigned n, item)

/-- An entry, or none where its value is left out. -/
def entryIf (present : Bool) (n : Nat) (item : Item) : List (Item × Item) :=
  if present then [entry n item] else []

/-- A literal. Its payload is left out where it is zero, empty or false. -/
def valueItem (v : Value) : Item :=
  .map (entry 1 (.unsigned v.kind.code) ::
    match v with
    | .number x => entryIf (x != 0) 2 (.float x)
    | .string s => entryIf (s != []) 3 (.ofText s)
    | .bool b => entryIf b 4 (.bool b))

/-- An instruction. -/
def instructionItem (i : Instruction) : Item :=
  .map (entry 1 (.unsigned i.op.toNat) ::
    ((i.arg.map fun v => entry 2 (valueItem v)).toList ++
      entryIf (i.name != []) 3 (.ofText i.name)))

/-- An entry of the source map. -/
def locationItem (l : SourceLocation) : Item :=
  .array [.ofInt l.pc, .ofInt l.line, .ofInt l.column]

/-- A program. -/
def programItem (p : Program) : Item :=
  .map ([entry 1 (.ofText objectMagic), entry 2 (.unsigned p.version)] ++
    entryIf (p.name != []) 3 (.ofText p.name) ++
    [entry 4 (.array (p.code.toList.map instructionItem))] ++
    entryIf (!p.sourceMap.isEmpty) 5 (.array (p.sourceMap.toList.map locationItem)))

/-- The numbered field `n`. -/
def numbered (n : Nat) : FieldKey := .number n (decimal n)

/-- A literal as it stands in a file, before its kind is known. -/
structure RawValue where
  kind : Nat := 0
  number : Float := 0
  text : Bytes := []
  bool : Bool := false
  deriving Repr

/-- An instruction as it stands in a file. -/
structure RawInstruction where
  op : Nat := 0
  arg : Option RawValue := none
  name : Bytes := []
  deriving Repr

/-- Reads a literal. -/
def rawValue : Slot RawValue := fun old item => do
  match ← record? [numbered 1, numbered 2, numbered 3, numbered 4] item with
  | [kind, number, text, bool] =>
    return ⟨← Slot.field (Slot.nat 0x100) old.kind kind, ← Slot.float.field old.number number,
      ← Slot.text.field old.text text, ← Slot.bool.field old.bool bool⟩
  | _ => none

/-- Reads an instruction. -/
def rawInstruction : Slot RawInstruction := fun old item => do
  match ← record? [numbered 1, numbered 2, numbered 3] item with
  | [op, arg, name] =>
    return ⟨← Slot.field (Slot.nat 0x100) old.op op,
      ← (Slot.optional {} rawValue).field old.arg arg, ← Slot.text.field old.name name⟩
  | _ => none

/-- Reads an entry of the source map: an array of three integers. -/
def rawLocation : Slot SourceLocation := Slot.ofItem fun
  | .array [pc, line, column] => do
    return ⟨← Slot.int 0 pc, ← Slot.int 0 line, ← Slot.int 0 column⟩
  | _ => none

/-- The value of a literal of a known kind; the other payloads do not count. -/
def RawValue.value? (v : RawValue) : Option Value :=
  match ValueKind.ofCode? v.kind with
  | some .number => some (.number v.number)
  | some .string => some (.string v.text)
  | some .bool => some (.bool v.bool)
  | none => none

/-- The instructions of a file from `pc` on. -/
def instructions : (pc : Nat) → List RawInstruction → Except ObjectError (List Instruction)
  | _, [] => return []
  | pc, i :: rest => do
    let arg ← match i.arg with
      | none => pure none
      | some v =>
        match v.value? with
        | some value => pure (some value)
        | none => throw (.unknownKind pc v.kind)
    return ⟨i.op.toUInt8, arg, i.name⟩ :: (← instructions (pc + 1) rest)

/-- A program as it stands in a file. -/
structure RawProgram where
  magic : Bytes
  version : Nat
  name : Bytes
  code : List RawInstruction
  sourceMap : List SourceLocation
  deriving Repr

/-- Reads a program as it stands in a file. -/
def rawProgram? (item : Item) : Option RawProgram := do
  match ← record? [numbered 1, numbered 2, numbered 3, numbered 4, numbered 5] item with
  | [magic, version, name, code, map] =>
    return ⟨← Slot.text.field [] magic, ← Slot.field (Slot.nat 0x10000) 0 version,
      ← Slot.text.field [] name, ← (Slot.list {} rawInstruction).field [] code,
      ← (Slot.list ⟨0, 0, 0⟩ rawLocation).field [] map⟩
  | _ => none

end Object

/-- The object file of a program. -/
def Program.toObject (p : Program) : Bytes := encode (Object.programItem p)

/-- The program of an object file. -/
def Program.ofObject (data : Bytes) : Except ObjectError Program :=
  match decode data >>= Object.rawProgram? with
  | none => .error .malformed
  | some raw =>
    if raw.magic ≠ objectMagic then .error (.badMagic raw.magic)
    else if raw.version ≠ Program.currentVersion then .error (.unsupportedVersion raw.version)
    else do
      let code ← Object.instructions 0 raw.code
      return { version := raw.version, name := raw.name, code := code.toArray,
               sourceMap := raw.sourceMap.toArray }

end Scriptlet
