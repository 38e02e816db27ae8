import Scriptlet.Cbor.Schema
import Scriptlet.Json.Schema
import Scriptlet.Service.Message

/-!
# Messages on the wire

Messages are sent as JSON or as CBOR, with the same names of fields. A field that may be left out is
left out when it is zero or empty. JSON objects have their fields in the order of the message, CBOR
maps have the shorter names first. No bytes at all stand for the message of zeros.
-/

namespace Scriptlet

open Cbor (Item FieldKey)

/-- A type of messages, with its form in JSON and in CBOR. -/
class Message (α : Type) where
  /-- The message of zeros. -/
  zero : α
  toJson : α → JsonValue
  readJson : JsonValue.Slot α
  toItem : α → Item
  readItem : Cbor.Slot α

namespace Wire

/-! ## Pieces of both forms -/

/-- A field of a record in CBOR. -/
def entry (name : String) (item : Item) : Item × Item := (.ofText name, item)

/-- A field that is left out unless `present` holds. -/
def entryIf (present : Bool) (name : String) (item : Item) : List (Item × Item) :=
  if present then [entry name item] else []

/-- The order of keys in a map: the shorter first, those of one length byte by byte. -/
def keyLe (a b : Bytes) : Bool := a.length < b.length || (a.length == b.length && decide (a ≤ b))

/-- A table of texts in CBOR. -/
def tableItem (t : Table Bytes) : Item :=
  .map ((t.entries.mergeSort fun a b => keyLe a.1 b.1).map fun e => (.ofText e.1, .ofText e.2))

/-- A table of texts in JSON. -/
def tableJson (t : Table Bytes) : JsonValue := .object (t.entries.map fun e => (e.1, .string e.2))

/-- Reads the entries of a map into a table. Null stands for the key or the value of the entry
before. -/
def readEntries : (key value : Bytes) → Table Bytes → List (Item × Item) → Option (Table Bytes)
  | _, _, t, [] => some t
  | key, value, t, (k, v) :: rest => do
    let key ← Cbor.Slot.text key k
    let value ← Cbor.Slot.text value v
    readEntries key value (t.insert key value) rest

/-- Reads a table of texts from CBOR. -/
def readTable : Cbor.Slot (Table Bytes) := fun old item => do
  match ← item.untagged? with
  | .null => some .empty
  | .map entries => readEntries [] [] old entries
  | _ => none

/-- The fields of a record in CBOR that are named as given, in the order of the names. -/
def named (names : List String) (item : Item) : Option (List (Option Item)) :=
  Cbor.record? (names.map fun n : String => FieldKey.name n) item

/-- A field of a record in JSON: its name, and how the record changes with a value read for it. -/
def field {ρ α : Type} (name : String) (slot : JsonValue.Slot α) (get : ρ → α) (set : ρ → α → ρ) :
    Bytes × JsonValue.Slot ρ :=
  (name, fun r v => (slot (get r) v).map (set r))

end Wire

open Wire
open JsonValue (member memberIf)

/-! ## The messages -/

/-- A request to run. -/
instance : Message RunRequest where
  zero := {}
  toJson r := .object (member "source" (.string r.source) ::
    memberIf (r.maxSteps != 0) "maxSteps" (.ofInt r.maxSteps))
  readJson := .record [
    field "source" .text RunRequest.source (fun r s => { r with source := s }),
    field "maxSteps" .int RunRequest.maxSteps (fun r n => { r with maxSteps := n })]
  toItem r := .map (entry "source" (.ofText r.source) ::
    entryIf (r.maxSteps != 0) "maxSteps" (.ofInt r.maxSteps))
  readItem old item := do
    match ← named ["source", "maxSteps"] item with
    | [source, maxSteps] =>
      return ⟨← Cbor.Slot.text.field old.source source, ← Cbor.Slot.int.field old.maxSteps maxSteps⟩
    | _ => none

/-- A request with a script. -/
instance : Message SourceRequest where
  zero := {}
  toJson r := .object [member "source" (.string r.source)]
  readJson := .record [
    field "source" .text SourceRequest.source (fun _ s => ⟨s⟩)]
  toItem r := .map [entry "source" (.ofText r.source)]
  readItem old item := do
    match ← named ["source"] item with
    | [source] => return ⟨← Cbor.Slot.text.field old.source source⟩
    | _ => none

/-- The result of a run. -/
instance : Message RunResponse where
  zero := {}
  toJson r := .object (member "output" (.string r.output) ::
    (memberIf (!r.globals.entries.isEmpty) "globals" (tableJson r.globals) ++
    member "steps" (.ofInt r.steps) ::
    (memberIf (r.error != []) "error" (.string r.error) ++
    memberIf (r.errorKind != []) "errorKind" (.string r.errorKind) ++
    memberIf (r.line != 0) "line" (.ofInt r.line))))
  readJson := .record [
    field "output" .text RunResponse.output (fun r s => { r with output := s }),
    field "globals" .table RunResponse.globals (fun r t => { r with globals := t }),
    field "steps" .int RunResponse.steps (fun r n => { r with steps := n }),
    field "error" .text RunResponse.error (fun r s => { r with error := s }),
    field "errorKind" .text RunResponse.errorKind (fun r s => { r with errorKind := s }),
    field "line" .int RunResponse.line (fun r n => { r with line := n })]
  toItem r := .map (
    entryIf (r.line != 0) "line" (.ofInt r.line) ++
    entryIf (r.error != []) "error" (.ofText r.error) ++
    [entry "steps" (.ofInt r.steps), entry "output" (.ofText r.output)] ++
    entryIf (!r.globals.entries.isEmpty) "globals" (tableItem r.globals) ++
    entryIf (r.errorKind != []) "errorKind" (.ofText r.errorKind))
  readItem old item := do
    match ← named ["output", "globals", "steps", "error", "errorKind", "line"] item with
    | [output, globals, steps, error, errorKind, line] =>
      return {
        output := ← Cbor.Slot.text.field old.output output
        globals := ← readTable.field old.globals globals
        steps := ← Cbor.Slot.int.field old.steps steps
        error := ← Cbor.Slot.text.field old.error error
        errorKind := ← Cbor.Slot.text.field old.errorKind errorKind
        line := ← Cbor.Slot.int.field old.line line }
    | _ => none

/-- A diagnostic. -/
instance : Message DiagnosticMessage where
  zero := {}
  toJson d := .object [
    member "line" (.ofInt d.line), member "column" (.ofInt d.column),
    member "endLine" (.ofInt d.endLine), member "endColumn" (.ofInt d.endColumn),
    member "severity" (.string d.severity), member "message" (.string d.message)]
  readJson := .record [
    field "line" .int DiagnosticMessage.line (fun d n => { d with line := n }),
    field "column" .int DiagnosticMessage.column (fun d n => { d with column := n }),
    field "endLine" .int DiagnosticMessage.endLine (fun d n => { d with endLine := n }),
    field "endColumn" .int DiagnosticMessage.endColumn (fun d n => { d with endColumn := n }),
    field "severity" .text DiagnosticMessage.severity (fun d s => { d with severity := s }),
    field "message" .text DiagnosticMessage.message (fun d s => { d with message := s })]
  toItem d := .map [
    entry "line" (.ofInt d.line), entry "column" (.ofInt d.column),
    entry "endLine" (.ofInt d.endLine), entry "message" (.ofText d.message),
    entry "severity" (.ofText d.severity), entry "endColumn" (.ofInt d.endColumn)]
  readItem old item := do
    match ← named ["line", "column", "endLine", "endColumn", "severity", "message"] item with
    | [line, column, endLine, endColumn, severity, message] =>
      return {
        line := ← Cbor.Slot.int.field old.line line
        column := ← Cbor.Slot.int.field old.column column
        endLine := ← Cbor.Slot.int.field old.endLine endLine
        endColumn := ← Cbor.Slot.int.field old.endColumn endColumn
        severity := ← Cbor.Slot.text.field old.severity severity
        message := ← Cbor.Slot.text.field old.message message }
    | _ => none

/-- The findings in a script. -/
instance : Message CheckResponse where
  zero := {}
  toJson r := .object (member "valid" (.bool r.valid) ::
    memberIf (!r.diagnostics.isEmpty) "diagnostics" (.array (r.diagnostics.map Message.toJson)))
  readJson old value := do
    let (valid, diagnostics) ← JsonValue.Slot.record [
      field "valid" .bool Prod.fst (fun r b => (b, r.2)),
      field "diagnostics" (.list {} Message.readJson) Prod.snd (fun r ds => (r.1, ds))]
      (old.valid, { items := old.diagnostics }) value
    return ⟨valid, diagnostics.items⟩
  toItem r := .map (entry "valid" (.bool r.valid) ::
    entryIf (!r.diagnostics.isEmpty) "diagnostics" (.array (r.diagnostics.map Message.toItem)))
  readItem old item := do
    match ← named ["valid", "diagnostics"] item with
    | [valid, diagnostics] =>
      return ⟨← Cbor.Slot.bool.field old.valid valid,
        ← (Cbor.Slot.list {} Message.readItem).field old.diagnostics diagnostics⟩
    | _ => none

/-- A listing. -/
instance : Message DisassembleResponse where
  zero := {}
  toJson r := .object [
    member "listing" (.string r.listing), member "instructions" (.ofInt r.instructions)]
  readJson := .record [
    field "listing" .text DisassembleResponse.listing (fun r s => { r with listing := s }),
    field "instructions" .int DisassembleResponse.instructions
      (fun r n => { r with instructions := n })]
  toItem r := .map [
    entry "listing" (.ofText r.listing), entry "instructions" (.ofInt r.instructions)]
  readItem old item := do
    match ← named ["listing", "instructions"] item with
    | [listing, instructions] =>
      return ⟨← Cbor.Slot.text.field old.listing listing,
        ← Cbor.Slot.int.field old.instructions instructions⟩
    | _ => none

/-! ## The codecs -/

/-- A form of messages on the wire. -/
inductive Codec where
  | json | cbor
  deriving DecidableEq, Repr

namespace Codec

/-- The name of a codec, as content types end with it. -/
def name : Codec → Bytes
  | json => "json"
  | cbor => "cbor"

variable {α : Type} [Message α]

/-- The bytes of a message. -/
def encode (c : Codec) (message : α) : Bytes :=
  match c with
  | json => (Message.toJson message).render
  | cbor => Cbor.encode (Message.toItem message)

/-- The message that some bytes stand for. -/
def decode? (c : Codec) (data : Bytes) : Option α :=
  if data = [] then some Message.zero
  else match c with
    | json => JsonValue.parse? data >>= Message.readJson Message.zero
    | cbor => Cbor.decode data >>= Message.readItem Message.zero

end Codec

end Scriptlet
