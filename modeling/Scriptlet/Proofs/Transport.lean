import Scriptlet.Proofs.Messages
import Scriptlet.Proofs.Responses

/-!
# Responses in transport

JSON and CBOR differ in what they do with text that is not well-formed. In JSON each bad byte is
written as the replacement character, so the text arrives repaired
(`JsonValue.showString_repaired`). In CBOR the bytes are written as they are, and whoever reads them
refuses the whole message (`RunResponse.readItem_of_malformed`). The output of a script is the only
text of a response that may be malformed, and if it is, the response keeps its content in neither
form (`responses_in_transport`).
-/

namespace Scriptlet

/-! ## Repaired texts -/

namespace Utf8

/-- The character, or the replacement character in the place of a malformed one. -/
def repairedGlyph (g : Glyph) : Glyph :=
  if g.isMalformed then ⟨Glyph.replacement, encode Glyph.replacement⟩ else g

theorem isMalformed_repairedGlyph (g : Glyph) : (repairedGlyph g).isMalformed = false := by
  unfold repairedGlyph
  split
  next => decide
  next hproper => exact Bool.not_eq_true _ ▸ hproper

theorem wellFormed_repairedGlyph {s : Bytes} {g : Glyph} (hg : g ∈ glyphs s) :
    (repairedGlyph g).WellFormed := by
  unfold repairedGlyph
  split
  next =>
    have hmem : (⟨Glyph.replacement, encode Glyph.replacement⟩ : Glyph) ∈
        glyphs (encode Glyph.replacement) := by decide
    exact wellFormed_of_mem hmem (by decide)
  next hproper => exact wellFormed_of_mem hg (by simpa using hproper)

theorem glyphs_repaired (s : Bytes) : glyphs (repaired s) = (glyphs s).map repairedGlyph := by
  have hjoin : repaired s = join ((glyphs s).map repairedGlyph) := by
    rw [repaired, join, List.flatMap_map]
    refine List.flatMap_congr fun g _ => ?_
    unfold repairedGlyph
    split <;> rfl
  rw [hjoin, glyphs_join]
  exact List.forall_mem_map.2 fun g hg => wellFormed_repairedGlyph hg

theorem isValid_repaired (s : Bytes) : isValid (repaired s) = true := by
  rw [isValid, glyphs_repaired, List.all_map, List.all_eq_true]
  intro g _
  rw [Function.comp_apply, isMalformed_repairedGlyph]
  rfl

/-- Only a well-formed text is its own repair. -/
theorem repaired_eq_iff {s : Bytes} : repaired s = s ↔ isValid s = true :=
  ⟨fun h => h ▸ isValid_repaired s, repaired_eq⟩

end Utf8

namespace JsonValue

theorem showGlyph_repairedGlyph (g : Glyph) : showGlyph (Utf8.repairedGlyph g) = showGlyph g := by
  unfold Utf8.repairedGlyph
  split
  next hmalformed =>
    have hshown : showGlyph ⟨Glyph.replacement, Utf8.encode Glyph.replacement⟩ =
        Utf8.encode Glyph.replacement := by decide
    rw [hshown, showGlyph, if_pos hmalformed]
  next => rfl

/-- A text is written in JSON as its repair. -/
theorem showString_repaired (s : Bytes) : showString (Utf8.repaired s) = showString s := by
  rw [showString, showString, Utf8.glyphs_repaired, List.flatMap_map]
  simp only [showGlyph_repairedGlyph]

/-- What is written of a member depends only on what is written of its value. -/
theorem render_member {k : Bytes} {v v' : JsonValue} (h : v.render = v'.render)
    (members : List (Bytes × JsonValue)) :
    (object ((k, v) :: members)).render = (object ((k, v') :: members)).render := by
  cases members with
  | nil => simp only [render, renderMembers, h]
  | cons m members => simp only [render, renderMembers, h]

end JsonValue

/-! ## Responses about runs -/

namespace RunResponse

variable {r : RunResponse}

/-- The response with its output repaired. -/
def repaired (r : RunResponse) : RunResponse := { r with output := Utf8.repaired r.output }

theorem encode_repaired (r : RunResponse) : Codec.json.encode r.repaired = Codec.json.encode r := by
  refine JsonValue.render_member ?_ _
  rw [JsonValue.render, JsonValue.render]
  exact JsonValue.showString_repaired r.output

/-- In JSON the output arrives repaired. -/
theorem Legible.decode?_json (h : r.Legible) (hsized : r.Sized) :
    Codec.json.decode? (Codec.json.encode r) = some r.repaired := by
  have hfits : (Message.toJson r.repaired).Fits 0 :=
    RunResponse.fitsJson (Utf8.isValid_repaired r.output)
      (fun e he => ⟨(h.globals e he).1.valid, (h.globals e he).2.valid⟩) h.error.valid
      h.errorKind.valid
  rw [← encode_repaired, Codec.decode?_json hfits]
  exact RunResponse.readJson (r := r.repaired) h.ordered hsized.steps hsized.line

theorem Legible.sound (h : r.Legible) (hsized : r.Sized) (hvalid : Utf8.isValid r.output = true) :
    r.Sound where
  output := ⟨hvalid, hsized.output⟩
  globals e he := ⟨⟨(h.globals e he).1.valid, (hsized.globals e he).1⟩,
    ⟨(h.globals e he).2.valid, (hsized.globals e he).2⟩⟩
  ordered := h.ordered
  size := hsized.size
  steps := hsized.steps
  error := ⟨h.error.valid, hsized.error⟩
  errorKind := ⟨h.errorKind.valid, hsized.errorKind⟩
  line := hsized.line

/-- From CBOR an output that is not well-formed is refused. -/
theorem readItem_of_malformed (hvalid : Utf8.isValid r.output = false) :
    Message.readItem ({} : RunResponse) (Message.toItem r) = none := by
  have htext : Cbor.Slot.text [] (.ofText r.output) = none := by
    rw [Object.text_ofText, if_neg (Bool.eq_false_iff.1 hvalid)]
  refine Wire.read_then (named_runResponse _ _ _ _ _ _ _ _ _ _) ?_
  exact congrArg (Option.bind · _) htext

/-- In CBOR the response arrives as it is, or not at all. -/
theorem Legible.decode?_cbor (h : r.Legible) (hsized : r.Sized) :
    Codec.cbor.decode? (Codec.cbor.encode r) = if Utf8.isValid r.output then some r else none := by
  rw [Codec.decode?_cbor hsized.fitsItem]
  cases hvalid : Utf8.isValid r.output with
  | true => exact (h.sound hsized hvalid).readItem
  | false => exact readItem_of_malformed hvalid

theorem Legible.roundTrips_iff (h : r.Legible) (hsized : r.Sized) :
    Message.RoundTrips r ↔ Utf8.isValid r.output = true := by
  refine ⟨fun hround => ?_, fun hvalid => (h.sound hsized hvalid).faithful.roundTrips⟩
  have hsame : r.repaired = r :=
    Option.some.inj ((h.decode?_json hsized).symm.trans (hround.decoded .json))
  exact Utf8.repaired_eq_iff.1 (congrArg RunResponse.output hsame)

end RunResponse

/-! ## Responses about texts -/

/-- The numbers of the diagnostic have 64 bits, and so has the length of its message. -/
structure DiagnosticMessage.Sized (d : DiagnosticMessage) : Prop where
  line : fitsInt64 d.line = true
  column : fitsInt64 d.column = true
  endLine : fitsInt64 d.endLine = true
  endColumn : fitsInt64 d.endColumn = true
  message : d.message.length < int64Bound

/-- The diagnostics of the response are not too long and not too many. -/
structure CheckResponse.Sized (r : CheckResponse) : Prop where
  diagnostics : ∀ d ∈ r.diagnostics, d.Sized
  size : r.diagnostics.length ≤ Cbor.maxCount

/-- The listing has a length of 64 bits, and its number of instructions has 64 bits. -/
structure DisassembleResponse.Sized (r : DisassembleResponse) : Prop where
  listing : r.listing.length < int64Bound
  instructions : fitsInt64 r.instructions = true

theorem Service.sound_of_check {request : SourceRequest} (h : (check request).Sized) :
    (check request).Sound := by
  refine ⟨fun d hd => ?_, h.size⟩
  obtain ⟨hline, hcolumn, hendLine, hendColumn, hmessage⟩ := h.diagnostics d hd
  obtain ⟨hseverity, htext⟩ := oneLine_of_check d hd
  obtain ⟨found, -, rfl⟩ := List.mem_map.1 hd
  have hname : found.severity.name.length < int64Bound := by
    cases found.severity with
    | error | warning => decide
  exact ⟨hline, hcolumn, hendLine, hendColumn, ⟨hseverity.valid, hname⟩, ⟨htext.valid, hmessage⟩⟩

theorem Service.sound_of_disassemble {request : SourceRequest} {r : DisassembleResponse}
    (h : disassemble request = .ok r) (hsized : r.Sized) : r.Sound :=
  ⟨⟨isValid_of_disassemble h, hsized.listing⟩, hsized.instructions⟩

/-- What happens to the responses of the service on their way. Those to a check and those with a
listing arrive as they are, in both forms. So does a response about a run, but for its output : in
JSON it arrives repaired, and in CBOR nothing arrives if there is something to repair. So such a
response keeps its content just if the script printed well-formed text. -/
theorem responses_in_transport (svc : Service) :
    (∀ fuel c request r, svc.run fuel c request = some (.ok r) → r.Sized →
      Codec.json.decode? (Codec.json.encode r) = some { r with output := Utf8.repaired r.output } ∧
      Codec.cbor.decode? (Codec.cbor.encode r) =
        (if Utf8.isValid r.output then some r else none) ∧
      (Message.RoundTrips r ↔ Utf8.isValid r.output = true)) ∧
    (∀ request, (Service.check request).Sized → Message.RoundTrips (Service.check request)) ∧
    ∀ request r, Service.disassemble request = .ok r → r.Sized → Message.RoundTrips r := by
  refine ⟨fun fuel c request r h hsized => ?_, fun request hsized => ?_,
    fun request r h hsized => ?_⟩
  · have hlegible := Service.legible_of_run h
    exact ⟨hlegible.decode?_json hsized, hlegible.decode?_cbor hsized,
      hlegible.roundTrips_iff hsized⟩
  · exact (Service.sound_of_check hsized).faithful.roundTrips
  · exact (Service.sound_of_disassemble h hsized).faithful.roundTrips

/-- A run that fails after it has printed a letter outside ASCII, a text with a warning, and a
listing. -/
theorem responses_in_transport_of_failure : ∃ run listing,
    ({} : Service).run 9 {} { source := "x := 'é' println x y := -x" } = some (.ok run) ∧
      run.errorKind = "runtime" ∧ Message.RoundTrips run ∧
    (Service.check ⟨"print x"⟩).valid = true ∧ Message.RoundTrips (Service.check ⟨"print x"⟩) ∧
    Service.disassemble ⟨"print 'a'"⟩ = .ok listing ∧ Message.RoundTrips listing := by
  obtain ⟨hrun, hcheck, hlisting⟩ := responses_in_transport {}
  have hresponse : ({} : Service).run 9 {} { source := "x := 'é' println x y := -x" } = some (.ok {
      output := [0xC3, 0xA9, 0x0A]
      globals := ⟨[([0x78], [0x22, 0xC3, 0xA9, 0x22])]⟩
      steps := 6
      error := "runtime error at pc 5 (line 1): NEG on string: type mismatch"
      errorKind := "runtime"
      line := 1 }) := by decide +kernel
  have hfound : Service.check ⟨"print x"⟩ = ⟨true,
      [⟨1, 7, 1, 8, "warning", "variable 'x' is never assigned"⟩]⟩ := by decide +kernel
  have hshown : Service.disassemble ⟨"print 'a'"⟩ = .ok ⟨
      "; === request ===\n; Pinky Bytecode v1\n; 3 instructions, 0 labels\n\n" ++
        "0000  PUSH         \"a\"               ; line 1\n0001  PRINT\n0002  HALT\n", 3⟩ := by
    decide +kernel
  refine ⟨_, _, hresponse, rfl, (hrun _ _ _ _ hresponse ?_).2.2.2 (by decide +kernel),
    hfound ▸ rfl, hcheck _ ?_, hshown, hlisting _ _ hshown ⟨by decide +kernel, by decide⟩⟩
  · refine ⟨by decide, List.forall_mem_singleton.2 ⟨by decide, by decide⟩, by decide, by decide,
      by decide +kernel, by decide, by decide⟩
  · rw [hfound]
    refine ⟨List.forall_mem_singleton.2 ⟨by decide, by decide, by decide, by decide, ?_⟩, by decide⟩
    decide +kernel

/-- What a script printed with an escape for one byte does not arrive. In JSON another text arrives
in its place, and in CBOR the response cannot be read. -/
theorem response_lost_in_transport : ∃ r,
    ({} : Service).run 9 {} { source := "print '\\xff'" } = some (.ok r) ∧
      r.globals.size ≤ 131072 ∧
      Codec.json.decode? (Codec.json.encode r) = some { r with output := [0xEF, 0xBF, 0xBD] } ∧
      Codec.json.decode? (Codec.json.encode r) ≠ some r ∧
      (Codec.cbor.decode? (Codec.cbor.encode r) : Option RunResponse) = none := by
  refine ⟨{ output := [0xFF], steps := 3 }, ?_, ?_, ?_, ?_, ?_⟩
  · decide +kernel
  · decide
  · decide +kernel
  · decide +kernel
  · decide +kernel

end Scriptlet
