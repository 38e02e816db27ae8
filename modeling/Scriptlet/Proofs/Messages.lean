import Scriptlet.Proofs.Records

/-!
# Messages keep their content

A message of well-formed texts is decoded to itself from both of its forms (`messages_round_trip`).
For each type of messages, four facts are shown : its form in JSON and its form in CBOR can be read,
and what is read of each is the message (`Message.Faithful`).
-/

namespace Scriptlet

open Cbor (Item)
open Wire
open JsonValue (member memberIf membersFit_append membersFit_memberIf)
open JsonValue.Slot (read_field record_member record_memberIf record_memberIf_last)
open Object (entriesFit_append)

/-- Both forms of the message can be read, and are read as the message. -/
structure Message.Faithful {α : Type} [Message α] (m : α) : Prop where
  fitsJson : (toJson m).Fits 0
  readJson : Message.readJson zero (toJson m) = some m
  fitsItem : (toItem m).Fits 0
  readItem : Message.readItem zero (toItem m) = some m

namespace Codec

variable {α : Type} [Message α] {m : α}

/-- A message is decoded from JSON as its form in JSON is read. -/
theorem decode?_json (h : (Message.toJson m).Fits 0) :
    json.decode? (json.encode m) = Message.readJson (Message.zero : α) (Message.toJson m) := by
  have hne : json.encode m ≠ [] := by
    obtain ⟨b, s, hs, -⟩ := JsonValue.render_head h
    rw [encode, hs]
    exact List.cons_ne_nil b s
  have hparse := JsonValue.parse?_render h
  rw [decode?, if_neg hne, encode]
  exact congrArg (· >>= Message.readJson Message.zero) hparse

/-- A message is decoded from CBOR as its form in CBOR is read. -/
theorem decode?_cbor (h : (Message.toItem m).Fits 0) :
    cbor.decode? (cbor.encode m) = Message.readItem (Message.zero : α) (Message.toItem m) := by
  have hne : cbor.encode m ≠ [] := List.ne_nil_of_length_pos (Cbor.length_encode_pos _)
  have hdecode := Cbor.decode_encode h
  rw [decode?, if_neg hne, encode]
  exact congrArg (· >>= Message.readItem Message.zero) hdecode

/-- A faithful message is decoded to itself. -/
theorem decode?_encode (h : Message.Faithful m) (c : Codec) : c.decode? (c.encode m) = some m := by
  cases c with
  | json => exact (decode?_json h.fitsJson).trans h.readJson
  | cbor => exact (decode?_cbor h.fitsItem).trans h.readItem

end Codec

/-! ## Requests to run -/

/-- The request has a well-formed script, and its limit has 64 bits. -/
structure RunRequest.Sound (r : RunRequest) : Prop where
  source : Utf8.Sound r.source
  maxSteps : fitsInt64 r.maxSteps = true

/-- The fields of a request are found by their names, be one of them left out or not. -/
theorem named_runRequest (source maxSteps : Item) (present : Bool) :
    named ["source", "maxSteps"]
        (.map (entry "source" source :: entryIf present "maxSteps" maxSteps)) =
      some [some source, itemIf present maxSteps] := by
  cases present <;> rfl

theorem RunRequest.Sound.faithful {r : RunRequest} (h : r.Sound) : Message.Faithful r := by
  obtain ⟨source, maxSteps⟩ := r
  obtain ⟨hsource, hsteps⟩ := h
  constructor
  · refine ⟨by decide, by decide, hsource.valid, ?_⟩
    exact membersFit_memberIf (by decide) (JsonValue.fits_ofInt _)
  · refine record_member rfl (read_field rfl) ?_
    refine record_memberIf_last rfl (read_field (JsonValue.Slot.int_ofInt hsteps 0)) fun hzero => ?_
    obtain rfl : maxSteps = 0 := bne_eq_false_iff_eq.1 hzero
    rfl
  · refine ⟨by decide, ?_, ?_⟩
    · have hlen := length_entryIf_le (maxSteps != 0) "maxSteps" (.ofInt maxSteps)
      exact (Nat.succ_le_succ hlen).trans (by decide)
    · exact ⟨Object.fits_ofText (by decide) _, Object.fits_ofText hsource.length _,
        entriesFit_entryIf (by decide) (Object.fits_ofInt hsteps _)⟩
  · refine read_then (named_runRequest _ _ _) ?_
    refine read_then (text_ofText hsource []) ?_
    exact read_then (field_itemIf (Object.int_ofInt hsteps 0) bne_eq_false_iff_eq.1) rfl

/-! ## Results of runs -/

/-- The texts of the response are well-formed, its numbers have 64 bits, and its variables are not
too many and in order. -/
structure RunResponse.Sound (r : RunResponse) : Prop where
  output : Utf8.Sound r.output
  globals : ∀ e ∈ r.globals.entries, Utf8.Sound e.1 ∧ Utf8.Sound e.2
  ordered : r.globals.Ordered
  size : r.globals.size ≤ Cbor.maxCount
  steps : fitsInt64 r.steps = true
  error : Utf8.Sound r.error
  errorKind : Utf8.Sound r.errorKind
  line : fitsInt64 r.line = true

theorem named_runResponse (output globals steps error errorKind line : Item)
    (hasGlobals hasError hasKind hasLine : Bool) :
    named ["output", "globals", "steps", "error", "errorKind", "line"] (.map (
      entryIf hasLine "line" line ++ entryIf hasError "error" error ++
      [entry "steps" steps, entry "output" output] ++
      entryIf hasGlobals "globals" globals ++ entryIf hasKind "errorKind" errorKind)) =
    some [some output, itemIf hasGlobals globals, some steps, itemIf hasError error,
      itemIf hasKind errorKind, itemIf hasLine line] := by
  cases hasGlobals <;> cases hasError <;> cases hasKind <;> cases hasLine <;> rfl

/-- The texts of the response have lengths of 64 bits, and so have its numbers. Its variables are
not too many. -/
structure RunResponse.Sized (r : RunResponse) : Prop where
  output : r.output.length < int64Bound
  globals : ∀ e ∈ r.globals.entries, e.1.length < int64Bound ∧ e.2.length < int64Bound
  size : r.globals.size ≤ Cbor.maxCount
  steps : fitsInt64 r.steps = true
  error : r.error.length < int64Bound
  errorKind : r.errorKind.length < int64Bound
  line : fitsInt64 r.line = true

namespace RunResponse

variable {r : RunResponse}

/-- A response can be read from JSON if its texts are well-formed. -/
theorem fitsJson (houtput : Utf8.isValid r.output = true)
    (hglobals : ∀ e ∈ r.globals.entries, Utf8.isValid e.1 = true ∧ Utf8.isValid e.2 = true)
    (herror : Utf8.isValid r.error = true) (hkind : Utf8.isValid r.errorKind = true) :
    (Message.toJson r).Fits 0 := by
  refine ⟨by decide, by decide, houtput, membersFit_append ?_ ?_⟩
  · exact membersFit_memberIf (by decide) (fits_tableJson hglobals (by decide))
  · refine ⟨by decide, JsonValue.fits_ofInt _, membersFit_append (membersFit_append ?_ ?_) ?_⟩
    · exact membersFit_memberIf (by decide) herror
    · exact membersFit_memberIf (by decide) hkind
    · exact membersFit_memberIf (by decide) (JsonValue.fits_ofInt _)

theorem readJson (hordered : r.globals.Ordered) (hsteps : fitsInt64 r.steps = true)
    (hline : fitsInt64 r.line = true) : Message.readJson {} (Message.toJson r) = some r := by
  obtain ⟨output, globals, steps, error, errorKind, line⟩ := r
  refine record_member rfl (read_field rfl) ?_
  -- a field is left out just if it is what a message of zeros has there
  refine record_memberIf rfl (read_field (JsonValue.Slot.table_tableJson hordered))
    (fun hempty => ?_) ?_
  · obtain rfl : globals = .empty := Table.eq_empty hempty
    rfl
  refine record_member rfl (read_field (JsonValue.Slot.int_ofInt hsteps 0)) ?_
  rw [List.append_assoc]
  refine record_memberIf rfl (read_field rfl) (fun hempty => ?_) ?_
  · obtain rfl : error = [] := bne_eq_false_iff_eq.1 hempty
    rfl
  refine record_memberIf rfl (read_field rfl) (fun hempty => ?_) ?_
  · obtain rfl : errorKind = [] := bne_eq_false_iff_eq.1 hempty
    rfl
  refine record_memberIf_last rfl (read_field (JsonValue.Slot.int_ofInt hline 0)) fun hzero => ?_
  obtain rfl : line = 0 := bne_eq_false_iff_eq.1 hzero
  rfl

/-- A response can be read from CBOR if it is not too long, also one with ill-formed texts. -/
theorem Sized.fitsItem (h : r.Sized) : (Message.toItem r).Fits 0 := by
  refine ⟨by decide, ?_, ?_⟩
  · have hhasLine := length_entryIf_le (r.line != 0) "line" (.ofInt r.line)
    have hhasError := length_entryIf_le (r.error != []) "error" (.ofText r.error)
    have hhasGlobals :=
      length_entryIf_le (!r.globals.entries.isEmpty) "globals" (tableItem r.globals)
    have hhasKind := length_entryIf_le (r.errorKind != []) "errorKind" (.ofText r.errorKind)
    simp only [List.length_append, List.length_cons, List.length_nil, Cbor.maxCount]
    omega
  · refine entriesFit_append (entriesFit_append (entriesFit_append (entriesFit_append ?_ ?_) ?_)
      ?_) ?_
    · exact entriesFit_entryIf (by decide) (Object.fits_ofInt h.line _)
    · exact entriesFit_entryIf (by decide) (Object.fits_ofText h.error _)
    · exact ⟨Object.fits_ofText (by decide) _, Object.fits_ofInt h.steps _,
        Object.fits_ofText (by decide) _, Object.fits_ofText h.output _, trivial⟩
    · exact entriesFit_entryIf (by decide) (fits_tableItem h.size h.globals (by decide))
    · exact entriesFit_entryIf (by decide) (Object.fits_ofText h.errorKind _)

namespace Sound

theorem sized (h : r.Sound) : r.Sized where
  output := h.output.length
  globals e he := ⟨(h.globals e he).1.length, (h.globals e he).2.length⟩
  size := h.size
  steps := h.steps
  error := h.error.length
  errorKind := h.errorKind.length
  line := h.line

theorem readItem (h : r.Sound) : Message.readItem {} (Message.toItem r) = some r := by
  obtain ⟨output, globals, steps, error, errorKind, line⟩ := r
  obtain ⟨houtput, hglobals, hordered, -, hsteps, herror, hkind, hline⟩ := h
  refine read_then (named_runResponse _ _ _ _ _ _ _ _ _ _) ?_
  refine read_then (text_ofText houtput []) ?_
  refine read_then (field_itemIf (readTable_tableItem hordered hglobals) Table.eq_empty) ?_
  refine read_then (Object.int_ofInt hsteps 0) ?_
  refine read_then (field_itemIf (text_ofText herror []) bne_eq_false_iff_eq.1) ?_
  refine read_then (field_itemIf (text_ofText hkind []) bne_eq_false_iff_eq.1) ?_
  exact read_then (field_itemIf (Object.int_ofInt hline 0) bne_eq_false_iff_eq.1) rfl

theorem faithful (h : r.Sound) : Message.Faithful r where
  fitsJson := RunResponse.fitsJson h.output.valid
    (fun e he => ⟨(h.globals e he).1.valid, (h.globals e he).2.valid⟩) h.error.valid
    h.errorKind.valid
  readJson := RunResponse.readJson h.ordered h.steps h.line
  fitsItem := h.sized.fitsItem
  readItem := h.readItem

end Sound

end RunResponse

/-! ## Results of checks -/

/-- The texts of the diagnostic are well-formed, and its numbers have 64 bits. -/
structure DiagnosticMessage.Sound (d : DiagnosticMessage) : Prop where
  line : fitsInt64 d.line = true
  column : fitsInt64 d.column = true
  endLine : fitsInt64 d.endLine = true
  endColumn : fitsInt64 d.endColumn = true
  severity : Utf8.Sound d.severity
  message : Utf8.Sound d.message

namespace DiagnosticMessage.Sound

variable {d : DiagnosticMessage} {depth : Nat}

theorem fitsJson (h : d.Sound) (hdepth : depth < JsonValue.maxDepth) :
    (Message.toJson d).Fits depth :=
  ⟨hdepth, by decide, JsonValue.fits_ofInt _, by decide, JsonValue.fits_ofInt _,
    by decide, JsonValue.fits_ofInt _, by decide, JsonValue.fits_ofInt _,
    by decide, h.severity.valid, by decide, h.message.valid, trivial⟩

theorem readJson (h : d.Sound) : Message.readJson {} (Message.toJson d) = some d := by
  refine record_member rfl (read_field (JsonValue.Slot.int_ofInt h.line 0)) ?_
  refine record_member rfl (read_field (JsonValue.Slot.int_ofInt h.column 0)) ?_
  refine record_member rfl (read_field (JsonValue.Slot.int_ofInt h.endLine 0)) ?_
  refine record_member rfl (read_field (JsonValue.Slot.int_ofInt h.endColumn 0)) ?_
  refine record_member rfl (read_field rfl) ?_
  exact record_member rfl (read_field rfl) rfl

theorem fitsItem (h : d.Sound) (hdepth : depth < Cbor.maxDepth) :
    (Message.toItem d).Fits depth :=
  have hname (name : String) (hlength : (name : Bytes).length < int64Bound) :
      (Item.ofText name).Fits (depth + 1) := Object.fits_ofText hlength _
  ⟨hdepth, show 6 ≤ Cbor.maxCount by decide,
    hname _ (by decide), Object.fits_ofInt h.line _,
    hname _ (by decide), Object.fits_ofInt h.column _,
    hname _ (by decide), Object.fits_ofInt h.endLine _,
    hname _ (by decide), Object.fits_ofText h.message.length _,
    hname _ (by decide), Object.fits_ofText h.severity.length _,
    hname _ (by decide), Object.fits_ofInt h.endColumn _, trivial⟩

theorem readItem (h : d.Sound) : Message.readItem {} (Message.toItem d) = some d := by
  have hnamed : named ["line", "column", "endLine", "endColumn", "severity", "message"]
      (Message.toItem d) = some [some (.ofInt d.line), some (.ofInt d.column),
        some (.ofInt d.endLine), some (.ofInt d.endColumn), some (.ofText d.severity),
        some (.ofText d.message)] := rfl
  refine read_then hnamed ?_
  refine read_then (Object.int_ofInt h.line 0) ?_
  refine read_then (Object.int_ofInt h.column 0) ?_
  refine read_then (Object.int_ofInt h.endLine 0) ?_
  refine read_then (Object.int_ofInt h.endColumn 0) ?_
  refine read_then (text_ofText h.severity []) ?_
  exact read_then (text_ofText h.message []) rfl

end DiagnosticMessage.Sound

/-- The diagnostics of the response are sound and not too many. -/
structure CheckResponse.Sound (r : CheckResponse) : Prop where
  diagnostics : ∀ d ∈ r.diagnostics, d.Sound
  size : r.diagnostics.length ≤ Cbor.maxCount

theorem named_checkResponse (valid diagnostics : Item) (present : Bool) :
    named ["valid", "diagnostics"]
        (.map (entry "valid" valid :: entryIf present "diagnostics" diagnostics)) =
      some [some valid, itemIf present diagnostics] := by
  cases present <;> rfl

/-- The answer to a check is faithful, as each of its diagnostics is. -/
theorem CheckResponse.Sound.faithful {r : CheckResponse} (h : r.Sound) : Message.Faithful r := by
  obtain ⟨valid, diagnostics⟩ := r
  obtain ⟨hdiagnostics, hsize⟩ := h
  constructor
  · refine ⟨by decide, by decide, trivial, membersFit_memberIf (by decide) ?_⟩
    exact ⟨by decide, JsonValue.allFit_map fun d hd => (hdiagnostics d hd).fitsJson (by decide)⟩
  · have hlist := JsonValue.Slot.list_map fun d hd => (hdiagnostics d hd).readJson
    refine @read_then _ _ _ _ (valid, { items := diagnostics }) _ ?_ rfl
    refine record_member rfl (read_field rfl) ?_
    refine record_memberIf_last rfl (read_field hlist) fun hempty => ?_
    obtain rfl : diagnostics = [] := by simpa using hempty
    rfl
  · refine ⟨by decide, ?_, Object.fits_ofText (by decide) _, trivial,
      entriesFit_entryIf (by decide) ⟨by decide, ?_, Object.allFit_map fun d hd => ?_⟩⟩
    · exact Nat.succ_le_succ ((length_entryIf_le _ _ _).trans (by decide))
    · rw [List.length_map]
      exact hsize
    · exact (hdiagnostics d hd).fitsItem (by decide)
  · refine read_then (named_checkResponse _ _ _) ?_
    refine read_then (rfl : Cbor.Slot.bool false (.bool valid) = some valid) ?_
    have hlist := Object.list_map_self (fun d hd => (hdiagnostics d hd).readItem) []
    refine read_then (field_itemIf hlist fun hempty => ?_) rfl
    exact show diagnostics = [] by simpa using hempty

/-! ## Listings -/

/-- The listing is well-formed, and its number of instructions has 64 bits. -/
structure DisassembleResponse.Sound (r : DisassembleResponse) : Prop where
  listing : Utf8.Sound r.listing
  instructions : fitsInt64 r.instructions = true

theorem DisassembleResponse.Sound.faithful {r : DisassembleResponse} (h : r.Sound) :
    Message.Faithful r := by
  constructor
  · exact ⟨by decide, by decide, h.listing.valid, by decide,
      JsonValue.fits_ofInt _, trivial⟩
  · refine record_member rfl (read_field rfl) ?_
    exact record_member rfl (read_field (JsonValue.Slot.int_ofInt h.instructions 0)) rfl
  · exact ⟨by decide, show 2 ≤ Cbor.maxCount by decide, Object.fits_ofText (by decide) _,
      Object.fits_ofText h.listing.length _, Object.fits_ofText (by decide) _,
      Object.fits_ofInt h.instructions _, trivial⟩
  · have hnamed : named ["listing", "instructions"] (Message.toItem r) =
        some [some (.ofText r.listing), some (.ofInt r.instructions)] := rfl
    refine read_then hnamed ?_
    refine read_then (text_ofText h.listing []) ?_
    exact read_then (Object.int_ofInt h.instructions 0) rfl

/-! ## All messages -/

/-- The message is decoded to itself from the bytes of either codec, so the codecs agree on it. -/
structure Message.RoundTrips {α : Type} [Message α] (m : α) : Prop where
  decoded : ∀ c : Codec, c.decode? (c.encode m) = some m
  agree : (Codec.json.decode? (Codec.json.encode m) : Option α) =
    Codec.cbor.decode? (Codec.cbor.encode m)

/-- A message that is read back from each of the two forms has made both round trips. -/
theorem Message.Faithful.roundTrips {α : Type} [Message α] {m : α} (h : Message.Faithful m) :
    Message.RoundTrips m :=
  ⟨Codec.decode?_encode h, (Codec.decode?_encode h .json).trans (Codec.decode?_encode h .cbor).symm⟩

/-- Both codecs keep every message of the service whose texts are well-formed, whose numbers have 64
bits and whose table or list is not too long. -/
theorem messages_round_trip :
    (∀ r : RunRequest, r.Sound → Message.RoundTrips r) ∧
    (∀ r : RunResponse, r.Sound → Message.RoundTrips r) ∧
    (∀ r : CheckResponse, r.Sound → Message.RoundTrips r) ∧
    (∀ r : DisassembleResponse, r.Sound → Message.RoundTrips r) :=
  ⟨fun _ h => h.faithful.roundTrips, fun _ h => h.faithful.roundTrips,
    fun _ h => h.faithful.roundTrips, fun _ h => h.faithful.roundTrips⟩

/-- Messages with markup, quotes, control characters, a separator of lines and a character outside
the basic plane. The table has its names in one order in JSON and in the other in CBOR. -/
theorem messages_round_trip_of_markup :
    Message.RoundTrips ({
      source := [0x3C, 0x26, 0x22, 0x5C, 0x00, 0x0A, 0xE2, 0x80, 0xA8, 0xF0, 0x9F, 0x98, 0x80]
      maxSteps := -0x8000000000000000 } : RunRequest) ∧
    Message.RoundTrips ({
      output := [0x7F, 0xEF, 0xBF, 0xBD, 0x0A]
      globals := ⟨[([0x61, 0x61], [0x31]), ([0x62], [0x22, 0x3E, 0x22])]⟩
      steps := 7
      error := [0xC3, 0xA9] } : RunResponse) ∧
    Message.RoundTrips ({
      diagnostics :=
        [{ line := 1, column := 2, endLine := 1, endColumn := 3, message := [0x09] }] } :
      CheckResponse) ∧
    Message.RoundTrips ({ listing := [0x0D, 0x0A], instructions := 2 } : DisassembleResponse) := by
  have hsound {s : Bytes} (h : (Utf8.isValid s && decide (s.length < int64Bound)) = true) :
      Utf8.Sound s := by
    rw [Bool.and_eq_true, decide_eq_true_eq] at h
    exact ⟨h.1, h.2⟩
  obtain ⟨hrequest, hresponse, hcheck, hlisting⟩ := messages_round_trip
  refine ⟨hrequest _ ⟨hsound (by decide +kernel), by decide⟩, hresponse _ ?_, hcheck _ ?_,
    hlisting _ ⟨hsound (by decide +kernel), by decide⟩⟩
  · refine ⟨hsound (by decide +kernel), ?_, ?_, by decide, by decide, hsound (by decide +kernel),
      hsound rfl, by decide⟩
    · simp only [List.forall_mem_cons]
      exact ⟨⟨hsound (by decide +kernel), hsound (by decide +kernel)⟩,
        ⟨hsound (by decide +kernel), hsound (by decide +kernel)⟩, by simp⟩
    · exact show List.Pairwise (· < ·) ([[0x61, 0x61], [0x62]] : List Bytes) by decide
  · refine ⟨?_, by decide⟩
    simp only [List.forall_mem_singleton]
    exact ⟨by decide, by decide, by decide, by decide, hsound rfl, hsound (by decide +kernel)⟩

end Scriptlet
