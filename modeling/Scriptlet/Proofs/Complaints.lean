import Scriptlet.Proofs.Diagnostics
import Scriptlet.Proofs.Surroundings
import Scriptlet.Proofs.Wording

/-!
# Complaints

What is said about a script, by the reader, the compiler, the analysis or the machine, is one line
of well-formed text, whatever bytes the script is made of. A fault of the grammar is shown with the
token that it is about. Only strings can hold a line feed or a byte outside every well-formed
sequence (`oneLine_literal`), and a complaint does not show what is in a string
(`oneLine_describe`). A character that starts no token is shown between quotes.

Main statements : `SourceError.oneLine_message`, `Diagnostic.oneLine_message`,
`Outcome.oneLine_message`.
-/

namespace Scriptlet

/-! ## Tokens -/

namespace Lexeme

variable {source : Bytes} {g : Glyph} {gs rest : List Glyph}

/-- A character of one line, with bytes of its own. -/
def InLine (g : Glyph) : Prop := g.code ≠ 0x0A ∧ g.isMalformed = false

/-- The literal is one line, unless it is that of a string. -/
def Legible (l : Lexeme) : Prop := l.kind ≠ .string → OneLine l.literal

theorem inLine_of_ascii (hcode : g.code < 0x80) (hfeed : g.code ≠ 0x0A) : InLine g := by
  have hne : g.code ≠ Glyph.replacement := by
    have hlarge : 0x80 ≤ Glyph.replacement := by decide
    omega
  exact ⟨hfeed, by simp [Glyph.isMalformed, hne]⟩

theorem inLine_of_is {c : Char} (hc : c.toNat < 0x80 ∧ c.toNat ≠ 0x0A) (h : g.is c = true) :
    InLine g := by
  have hcode : g.code = c.toNat := beq_iff_eq.1 h
  exact inLine_of_ascii (hcode ▸ hc.1) (hcode ▸ hc.2)

theorem inLine_of_isDigit (h : isDigit g.code = true) : InLine g := by
  refine inLine_of_ascii (ascii_of_isDigit h) fun hcode => ?_
  rw [hcode] at h
  cases h

/-- A character of a name is in line, in whatever script it is written. -/
theorem inLine_of_continuesName (h : continuesName g = true) : InLine g := by
  refine ⟨fun hcode => ?_, isMalformed_of_continuesName h⟩
  rw [continuesName, Glyph.is, hcode] at h
  exact absurd h (by decide)

/-- Characters of a text that are in line make up one line. -/
theorem oneLine_join (hgs : ∀ g ∈ gs, g ∈ Utf8.glyphs source) (h : ∀ g ∈ gs, InLine g) :
    OneLine (Utf8.join gs) := by
  refine ⟨Utf8.isValid_join hgs fun g hg => (h g hg).2, fun hmem => ?_⟩
  obtain ⟨g, hg, hbyte⟩ := List.mem_flatMap.1 hmem
  have hfaithful := Utf8.faithful_of_mem (hgs g hg)
  exact (h g hg).1 ((hfaithful.mem_bytes_iff (by decide)).1 hbyte)

section

variable (hgs : ∀ g' ∈ g :: rest, g' ∈ Utf8.glyphs source)
include hgs

theorem legible_covering {kind : TokenKind} {width : Nat}
    (h : ∀ g' ∈ (g :: rest).take width, InLine g') : (covering kind width (g :: rest)).Legible :=
  fun _ => oneLine_join (fun g' hg' => hgs g' (List.mem_of_mem_take hg')) h

theorem legible_sign {kind : TokenKind} (hg : InLine g) : (covering kind 1 (g :: rest)).Legible :=
  legible_covering hgs (List.forall_mem_singleton.2 hg)

/-- A sign of two characters, the second of them an equals sign. -/
theorem legible_signs {kind : TokenKind} (hg : InLine g) (h : equalNext rest = true) :
    (covering kind 2 (g :: rest)).Legible := by
  cases rest with
  | nil => cases h
  | cons next rest =>
    have hnext : InLine next := inLine_of_is (by decide) (h : next.is '=' = true)
    exact legible_covering hgs (List.forall_mem_cons.2 ⟨hg, List.forall_mem_singleton.2 hnext⟩)

/-- A number is made of digits, and of a point between them. -/
theorem legible_number {kind : TokenKind} :
    (covering kind (numberWidth (g :: rest)) (g :: rest)).Legible := by
  have hdigits (gs : List Glyph) : ∀ g' ∈ gs.take (digitRun gs), InLine g' := by
    intro g' hg'
    rw [digitRun, take_takeWhile] at hg'
    exact inLine_of_isDigit (List.mem_takeWhile_imp (p := fun g : Glyph => isDigit g.code) hg')
  refine legible_covering hgs ?_
  rcases take_numberWidth (g :: rest) with htake | ⟨point, more, hpoint, -, htake⟩
  · rw [htake]
    exact hdigits _
  · rw [htake]
    refine List.forall_mem_append.2 ⟨List.forall_mem_append.2 ⟨hdigits _, ?_⟩, hdigits more⟩
    exact List.forall_mem_singleton.2 (inLine_of_is (by decide) hpoint)

/-- A name is made of characters that go on with a name. -/
theorem legible_readName : (readName (g :: rest)).Legible := by
  intro _
  refine oneLine_join (fun g' hg' => hgs g' ((List.takeWhile_prefix _).subset hg')) fun g' hg' => ?_
  exact inLine_of_continuesName (List.all_eq_true.1 List.all_takeWhile g' hg')

omit hgs in
/-- A string that is not closed is an error with a message of its own. -/
theorem legible_readString : (readString g rest).Legible := by
  unfold readString
  dsimp only
  split
  · exact fun h => absurd rfl h
  · have hunterminated : OneLine unterminated := OneLine.of_bytes rfl
    exact fun _ => hunterminated

omit hgs in
theorem legible_error {message : Bytes} (h : OneLine message) (width : Nat) :
    Legible ⟨.error, message, width⟩ := fun _ => h

/-- Whatever a text starts with, its first token is one line if it is no string. -/
theorem legible_read : (read g rest).Legible := by
  have hone {kind : TokenKind} {c : Char} (hc : c.toNat < 0x80 ∧ c.toNat ≠ 0x0A)
      (h : g.is c = true) : (covering kind 1 (g :: rest)).Legible :=
    legible_sign hgs (inLine_of_is hc h)
  have htwo {kind : TokenKind} {c : Char} (hc : c.toNat < 0x80 ∧ c.toNat ≠ 0x0A)
      (h : g.is c = true) (hnext : equalNext rest = true) :
      (covering kind 2 (g :: rest)).Legible :=
    legible_signs hgs (inLine_of_is hc h) hnext
  have hequal : OneLine loneEqual := ⟨by decide, by decide⟩
  have hunexpected : OneLine (unexpected g.code) :=
    (OneLine.of_bytes rfl).append (Quoted.oneLine_character (hgs g List.mem_cons_self))
  have hstring := @legible_readString g rest
  unfold read
  dsimp only
  generalize readString g rest = string at hstring ⊢
  repeat' refine iteInduction (fun _ => ?_) fun _ => ?_
  iterate 8
    next h => exact hone (by decide) h
  · next h hnext => exact htwo (by decide) h hnext
  · next h _ => exact hone (by decide) h
  · next h hnext => exact htwo (by decide) h hnext
  · exact legible_error hequal 1
  · next h =>
      obtain ⟨hcolon, hnext⟩ := Bool.and_eq_true_iff.1 h
      exact htwo (by decide) hcolon hnext
  · next h hnext => exact htwo (by decide) h hnext
  · next h _ => exact hone (by decide) h
  · next h hnext => exact htwo (by decide) h hnext
  · next h _ => exact hone (by decide) h
  · exact hstring
  · exact legible_number hgs
  · exact legible_readName hgs
  · exact legible_error hunexpected 1

end

end Lexeme

section

variable {source : Bytes} {t : Token}

/-- The literal of a token is one line, unless the token is a string. -/
theorem oneLine_literal (ht : t ∈ tokenize source) (hk : t.kind ≠ .string) : OneLine t.literal := by
  rcases (cuts_tokenize source).covered t ht with ⟨-, hnil⟩ | ⟨hend, -⟩
  · rw [hnil]
    exact oneLine_nil
  · obtain ⟨g, rest, hsuffix, hkind, hliteral⟩ := readIn_of_mem_scan ht hend
    rw [hliteral]
    exact Lexeme.legible_read (fun g' hg' => hsuffix.subset hg') (hkind ▸ hk)

/-- A token is named on one line, also a string : what is in it is left out. -/
theorem oneLine_describe (ht : t ∈ tokenize source) : OneLine t.describe := by
  have hliteral := oneLine_literal ht
  unfold Token.describe
  split
  case h_1 | h_4 => exact OneLine.of_bytes rfl
  case h_2 hk => exact (OneLine.of_bytes rfl).append (hliteral (by rw [hk]; nofun))
  case h_3 hk => exact (OneLine.of_bytes rfl).append (hliteral (by rw [hk]; nofun))
  case h_5 hk =>
    have hquote : OneLine ("'" : String) := OneLine.of_bytes rfl
    exact (hquote.append (hliteral hk)).append hquote

end

theorem oneLine_kindName (k : TokenKind) : OneLine k.name := by
  cases k with
  | other code =>
    have hopen : OneLine ("Token(" : String) := OneLine.of_bytes rfl
    exact (hopen.append (bare_decimalInt code).toOneLine).append (OneLine.of_bytes rfl)
  | _ => exact OneLine.of_bytes rfl

/-! ## Faults of the grammar -/

/-- What is wrong with a token of a text is told on one line. -/
theorem SyntaxCause.IsAbout.oneLine {source : Bytes} {t : Token} {cause : SyntaxCause}
    (h : cause.IsAbout t) (ht : t ∈ tokenize source) : OneLine cause.message := by
  have hfixed {s : String} (hs : (s : Bytes).all isBareByte = true) : OneLine s := .of_bytes hs
  have hword (hkind : t.kind ∈ TokenKind.reserved) : OneLine t.literal := by
    have hreserved : ∀ k ∈ TokenKind.reserved, k ≠ .string := by decide
    exact oneLine_literal ht (hreserved _ hkind)
  cases cause with
  | lexical => exact h.elim
  | expected wanted found =>
    obtain rfl : found = t := h
    exact (((hfixed rfl).append (oneLine_kindName wanted)).append (hfixed rfl)).append
      (oneLine_describe ht)
  | expectedExpression found =>
    obtain rfl : found = t := h
    exact (hfixed rfl).append (oneLine_describe ht)
  | unsupportedWord word =>
    obtain ⟨rfl, hkind⟩ := h
    exact ((hfixed rfl).append (hword hkind)).append (hfixed rfl)
  | unexpectedWord word =>
    obtain ⟨rfl, hkind⟩ := h
    exact ((hfixed rfl).append (hword hkind)).append (hfixed rfl)
  | numberTooLarge literal =>
    obtain ⟨rfl, hkind⟩ := h
    exact (hfixed rfl).append (oneLine_literal ht (by rw [hkind]; nofun))

namespace SyntaxError

/-- A fault in a text is told on one line. -/
theorem oneLine_message {source : Bytes} {e : SyntaxError} (he : e ∈ (parsePartial source).2) :
    OneLine e.message := by
  obtain ⟨t, ht, ⟨hkind, rfl⟩ | ⟨-, habout⟩⟩ := token_of_error he
  · exact oneLine_literal ht (by rw [hkind]; nofun)
  · exact habout.oneLine ht

theorem oneLine_text {e : SyntaxError} (h : OneLine e.message) : OneLine e.text := by
  have hline := (bare_decimal e.span.start.line).toOneLine
  have hcolumn := (bare_decimal e.span.start.column).toOneLine
  exact (((hline.append (.of_bytes rfl)).append hcolumn).append (.of_bytes rfl)).append h

/-- Several faults are told by the first of them and their number. -/
theorem oneLine_summary {errors : List SyntaxError} (h : ∀ e ∈ errors, OneLine e.message) :
    OneLine (summary errors) := by
  match errors, h with
  | [], _ => exact .of_bytes rfl
  | [e], h => exact oneLine_text (h e List.mem_cons_self)
  | e :: e' :: more, h =>
    have hfirst := oneLine_text (h e List.mem_cons_self)
    have hcount := (bare_decimal (e' :: more).length).toOneLine
    exact ((hfirst.append (.of_bytes rfl)).append hcount).append (.of_bytes rfl)

end SyntaxError

/-- A text without a tree has the faults that are found when as much of it as possible is kept. -/
theorem errors_of_parse {source : Bytes} {errors : List SyntaxError}
    (h : parse source = .error errors) : (parsePartial source).2 = errors := by
  unfold parse at h
  split at h
  next => cases h
  next hpartial =>
    rw [hpartial]
    exact Except.error.inj h

theorem CompileError.oneLine_message (error : CompileError) : OneLine error.message := by
  cases error with
  | unaryOperator op => exact (OneLine.of_bytes rfl).append (oneLine_kindName op)
  | binaryOperator op => exact (OneLine.of_bytes rfl).append (oneLine_kindName op)

/-- Why a text has no program is told on one line. -/
theorem SourceError.oneLine_message {name source : Bytes} {error : SourceError}
    (h : compileSource name source = .error error) : OneLine error.message := by
  unfold compileSource at h
  split at h
  next errors hparse =>
    cases h
    exact SyntaxError.oneLine_summary fun e he =>
      SyntaxError.oneLine_message (errors_of_parse hparse ▸ he)
  next =>
    split at h
    next error _ =>
      cases h
      exact error.oneLine_message
    next => cases h

/-! ## Warnings -/

/-- The variables of a script are names. -/
theorem Expr.bare_name {source name : Bytes} {span : Span}
    (h : .expr (.ident span name) ∈ (Node.script (parsePartial source).1).walk) : Bare name := by
  obtain ⟨u, hu, c, hreads⟩ := (builtFrom_parsePartial source).exists_of_mem_walk _ h
  obtain ⟨t, ht, hkind, -, rfl⟩ := hreads.of_ident
  exact bare_of_identifier (List.mem_filter.1 (hu.subset ht)).1 hkind

theorem WarningCause.oneLine_message {cause : WarningCause}
    (h : ∀ name, cause = .neverAssigned name → OneLine name) : OneLine cause.message := by
  cases cause with
  | neverAssigned name =>
    exact ((OneLine.of_bytes rfl).append (h name rfl)).append (.of_bytes rfl)
  | negation kind =>
    refine (OneLine.of_bytes rfl).append ?_
    cases kind with
    | number | string | bool => exact .of_bytes rfl
  | textCondition | inversion | divisionByZero => exact .of_bytes rfl

/-- A warning is told on one line. -/
theorem Warning.oneLine_message {source : Bytes} {w : Warning}
    (h : w ∈ (Analysis.ofScript (parsePartial source).1).warnings) : OneLine w.message := by
  refine WarningCause.oneLine_message fun name hname => ?_
  rcases Analysis.exists_of_warnings h with ⟨e, k, he, hown | ⟨span, name', rfl, rfl⟩⟩ |
      ⟨s, n, k, f, -, -, hcondition⟩
  · exact absurd hname ((Expr.of_ownWarnings hown).2.2 name)
  · obtain rfl := WarningCause.neverAssigned.inj hname
    exact (Expr.bare_name he.mem_walk).toOneLine
  · rw [Expr.of_conditionWarning hcondition] at hname
    cases hname

/-- What is found in a text is told on one line. -/
theorem Diagnostic.oneLine_message {source : Bytes} {d : Diagnostic}
    (h : d ∈ (Inspection.ofSource source).diagnostics) : OneLine d.message := by
  rcases Inspection.diagnostics_ofSource source with ⟨-, hfound⟩ | ⟨-, hfound⟩
  · rw [hfound] at h
    obtain ⟨w, hw, rfl⟩ := List.mem_map.1 h
    exact Warning.oneLine_message hw
  · rw [hfound] at h
    obtain ⟨e, he, rfl⟩ := List.mem_map.1 h
    have hmessage : (ofError e).message = e.message := (DiagnosticMessage.reports_ofError e).message
    rw [hmessage]
    exact SyntaxError.oneLine_message he

/-! ## Failed runs -/

theorem ValueKind.oneLine_name (k : ValueKind) : OneLine k.name := by
  cases k with
  | number | string | bool => exact .of_bytes rfl

/-- A mistake that a run ends with is told on one line. -/
theorem RuntimeFault.oneLine_message (f : RuntimeFault) : OneLine f.message := by
  have hfixed {s : String} (hs : (s : Bytes).all isBareByte = true) : OneLine s := .of_bytes hs
  have hplace := (hfixed rfl : OneLine ("runtime error at pc " : String)).append
    (bare_decimal f.pc).toOneLine
  have hline : OneLine (if 0 < f.line then
      ((" (line " : String) : Bytes) ++ decimalInt f.line ++ (")" : String) else []) := by
    split
    · exact ((hfixed rfl).append (bare_decimalInt f.line).toOneLine).append (hfixed rfl)
    · exact oneLine_nil
  have hoperands : OneLine f.operands := by
    unfold operands
    split
    · exact (hfixed rfl).append (ValueKind.oneLine_name _)
    · exact (((hfixed rfl).append (ValueKind.oneLine_name _)).append (hfixed rfl)).append
        (ValueKind.oneLine_name _)
    · exact oneLine_nil
  have hcause : OneLine f.cause.message := by
    cases f.cause with
    | typeMismatch | divisionByZero => exact hfixed rfl
  unfold message
  exact (((((hplace.append hline).append (hfixed rfl)).append (bare_infoName f.op).toOneLine).append
    hoperands).append (hfixed rfl)).append hcause

theorem InternalFault.oneLine_message (f : InternalFault) : OneLine f.message := by
  have hfixed {s : String} (hs : (s : Bytes).all isBareByte = true) : OneLine s := .of_bytes hs
  have hplace := (hfixed rfl : OneLine ("internal error at pc " : String)).append
    (bare_decimal f.pc).toOneLine
  have hname : OneLine (if f.name = [] then [] else
      ((" " : String) : Bytes) ++ Quoted.text f.name) := by
    split
    · exact oneLine_nil
    · exact (hfixed rfl).append (Quoted.oneLine_text f.name)
  have hcause : OneLine f.cause.message := by
    cases f.cause with
    | undefinedLabel | undefinedGlobal | stackUnderflow | unknownOpcode | missingHalt =>
      exact hfixed rfl
  unfold message
  exact ((((hplace.append (hfixed rfl)).append (bare_infoName f.op).toOneLine).append
    hname).append (hfixed rfl)).append hcause

/-- The end of a run is told on one line, unless its output could not be written. -/
theorem Outcome.oneLine_message {o : Outcome} (h : ∀ message, o ≠ .writeFailed message)
    {message : Bytes} (hmessage : o.message? = some message) : OneLine message := by
  cases o with
  | halted => cases hmessage
  | failed fault =>
    cases fault with
    | runtime f => exact Option.some.inj hmessage ▸ f.oneLine_message
    | internal f => exact Option.some.inj hmessage ▸ f.oneLine_message
    | absentValue => cases hmessage
  | stepLimit limit =>
    rw [← Option.some.inj hmessage]
    exact ((OneLine.of_bytes rfl).append (bare_decimal limit).toOneLine).append (.of_bytes rfl)
  | interrupted steps reason =>
    have hreason : OneLine reason.message := by
      cases reason with
      | canceled | deadline => exact .of_bytes rfl
    rw [← Option.some.inj hmessage]
    exact (((OneLine.of_bytes rfl).append (bare_decimal steps).toOneLine).append
      (.of_bytes rfl)).append hreason
  | writeFailed message => exact absurd rfl (h message)

end Scriptlet
