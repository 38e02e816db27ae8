import Scriptlet.Program.Listing
import Scriptlet.Proofs.Compiled
import Scriptlet.Proofs.Sequences

/-!
# Texts on one line

Whatever the bytes of a script are, the words of the language about it are well-formed and stay on
one line (`OneLine`) : numbers, quoted texts and characters, names of variables, instructions. A
quoted text shows a byte outside every well-formed sequence by its number, and a name has no such
bytes. Of these texts only quoted ones hold a semicolon, with which the notes of a listing begin
(`Bare`).

Main statements : `Quoted.oneLine_text`, `bare_numberText`, `bare_of_identifier`,
`Program.oneLine_codeLines`.
-/

namespace Scriptlet

/-! ## Lines -/

/-- The text is well-formed, and stays on one line. -/
structure OneLine (s : Bytes) : Prop where
  valid : Utf8.isValid s = true
  unbroken : 0x0A ∉ s

/-- The text stays on one line and holds no semicolon. -/
structure Bare (s : Bytes) : Prop extends OneLine s where
  noteless : 0x3B ∉ s

/-- A printable character of ASCII other than the semicolon. -/
def isBareByte (b : UInt8) : Bool := 0x20 ≤ b && b < 0x7F && b != 0x3B

theorem oneLine_nil : OneLine [] := ⟨rfl, List.not_mem_nil⟩

/-- Texts of one line put together are one line. -/
theorem OneLine.append {s t : Bytes} (hs : OneLine s) (ht : OneLine t) : OneLine (s ++ t) := by
  refine ⟨Utf8.isValid_append hs.valid ht.valid, ?_⟩
  rw [List.mem_append, not_or]
  exact ⟨hs.unbroken, ht.unbroken⟩

/-- The texts for all elements of a list, put together, are one line. -/
theorem OneLine.flatMap {α : Type} {f : α → Bytes} {l : List α} (h : ∀ a ∈ l, OneLine (f a)) :
    OneLine (l.flatMap f) := by
  induction l with
  | nil => exact oneLine_nil
  | cons a l ih =>
    obtain ⟨ha, hl⟩ := List.forall_mem_cons.1 h
    rw [List.flatMap_cons]
    exact ha.append (ih hl)

namespace Bare

variable {s t : Bytes}

theorem append (hs : Bare s) (ht : Bare t) : Bare (s ++ t) := by
  refine ⟨hs.toOneLine.append ht.toOneLine, ?_⟩
  rw [List.mem_append, not_or]
  exact ⟨hs.noteless, ht.noteless⟩

/-- What is made of printable ASCII without semicolons can be told by looking at its bytes. So fixed
words of messages are checked by evaluation. -/
theorem of_bytes (h : s.all isBareByte = true) : Bare s := by
  rw [List.all_eq_true] at h
  have hbyte : ∀ b ∈ s, (0x20 ≤ b ∧ b < 0x7F) ∧ b ≠ 0x3B := by
    simpa only [isBareByte, Bool.and_eq_true, decide_eq_true_eq, bne_iff_ne] using h
  refine ⟨⟨Utf8.isValid_of_ascii fun b hb => ?_, fun hb => ?_⟩, fun hb => (hbyte _ hb).2 rfl⟩
  · exact UInt8.lt_trans (hbyte b hb).1.2 (by decide)
  · exact absurd (hbyte _ hb).1.1 (by decide)

theorem nil : Bare [] := of_bytes rfl

end Bare

theorem OneLine.of_bytes {s : Bytes} (h : s.all isBareByte = true) : OneLine s :=
  (Bare.of_bytes h).toOneLine

/-! ## Numbers -/

/-- The bytes of the text are digits. -/
def Digits (s : Bytes) : Prop := ∀ b ∈ s, 0x30 ≤ b ∧ b ≤ 0x39

namespace Digits

variable {s t : Bytes}

theorem append (hs : Digits s) (ht : Digits t) : Digits (s ++ t) :=
  List.forall_mem_append.2 ⟨hs, ht⟩

theorem replicate (n : Nat) : Digits (List.replicate n 0x30) := by
  intro b hb
  rw [List.eq_of_mem_replicate hb]
  decide

/-- Digits that are left out of a numeral leave digits. -/
theorem of_sublist (h : Digits s) (hsub : t.Sublist s) : Digits t :=
  fun b hb => h b (hsub.subset hb)

theorem bare (h : Digits s) : Bare s := by
  refine Bare.of_bytes (List.all_eq_true.2 fun b hb => ?_)
  obtain ⟨hlow, hhigh⟩ := h b hb
  have hsemicolon : b ≠ 0x3B := by
    rintro rfl
    exact absurd hhigh (by decide)
  simp only [isBareByte, Bool.and_eq_true, decide_eq_true_eq, bne_iff_ne]
  exact ⟨⟨UInt8.le_trans (by decide) hlow, UInt8.lt_of_le_of_lt hhigh (by decide)⟩, hsemicolon⟩

end Digits

theorem digits_decimal (n : Nat) : Digits (decimal n) := fun _ hb => range_of_mem_decimal hb

theorem digits_zeroPadded {s : Bytes} (h : Digits s) (width : Nat) :
    Digits (zeroPadded width s) :=
  (Digits.replicate _).append h

theorem bare_decimal (n : Nat) : Bare (decimal n) := (digits_decimal n).bare

/-- An integer is printed without a semicolon, with its sign. -/
theorem bare_decimalInt (n : Int) : Bare (decimalInt n) := by
  cases n with
  | ofNat n => exact bare_decimal n
  | negSucc n => exact (Bare.of_bytes rfl).append (bare_decimal _)

/-- A hexadecimal digit of either case. -/
theorem bare_hexDigit {a : Nat} (ha : a = 0x41 ∨ a = 0x61) (n : Nat) : Bare [hexDigit a n] := by
  have h : n % 16 < 16 := Nat.mod_lt n (by decide)
  refine Bare.of_bytes ?_
  unfold hexDigit
  generalize n % 16 = m at h
  rcases ha with rfl | rfl
  · revert m
    decide
  · revert m
    decide

/-- Numbers in hexadecimal are printed without a semicolon. -/
theorem bare_hex : ∀ width n : Nat, Bare (hex width n)
  | 0, _ => Bare.nil
  | width + 1, n => (bare_hex width (n / 16)).append (bare_hexDigit (.inr rfl) n)

theorem bare_hexUpper : ∀ width n : Nat, Bare (hexUpper width n)
  | 0, _ => Bare.nil
  | width + 1, n => (bare_hexUpper width (n / 16)).append (bare_hexDigit (.inl rfl) n)

namespace Decimal

/-- A number with its point in place is made of digits, a point and zeros. -/
theorem bare_positional (d : Decimal) : Bare d.positional := by
  have hdigits := digits_decimal d.digits
  have hpoint : Bare ("." : String) := Bare.of_bytes rfl
  have hzero : Bare ("0." : String) := Bare.of_bytes rfl
  unfold positional
  dsimp only
  split
  · exact (hdigits.append (Digits.replicate _)).bare
  split
  · exact ((hdigits.of_sublist (List.take_sublist _ _)).bare.append hpoint).append
      (hdigits.of_sublist (List.drop_sublist _ _)).bare
  · exact hzero.append (digits_zeroPadded hdigits _).bare

/-- A number with an exponent is made of digits, a point, a letter and signs. -/
theorem bare_scientific (d : Decimal) : Bare d.scientific := by
  have hdigits := digits_decimal d.digits
  have hfraction : Bare (if (decimal d.digits).length ≤ 1 then [] else
      (("." : String) : Bytes) ++ (decimal d.digits).drop 1) := by
    split
    · exact Bare.nil
    · exact (Bare.of_bytes rfl).append
        (hdigits.of_sublist (List.drop_sublist _ _)).bare
  have hsign : Bare (if d.magnitude < 0 then ("-" : String) else ("+" : String)) := by
    split
    · exact Bare.of_bytes rfl
    · exact Bare.of_bytes rfl
  have hexponent : Bare ("e" : String) := Bare.of_bytes rfl
  unfold scientific
  exact ((((hdigits.of_sublist (List.take_sublist _ _)).bare.append hfraction).append
    hexponent).append hsign).append (digits_zeroPadded (digits_decimal _) _).bare

theorem bare_text (d : Decimal) : Bare d.text := by
  unfold text
  split
  · exact d.bare_positional
  split
  · exact d.bare_scientific
  · exact d.bare_positional

end Decimal

/-- A number is printed on one line, without a semicolon. -/
theorem bare_numberText (x : Float) : Bare (numberText x) := by
  unfold numberText
  split
  · split
    · exact Bare.of_bytes rfl
    · refine Bare.append ?_ (Decimal.bare_text _)
      split
      · exact Bare.of_bytes rfl
      · exact Bare.of_bytes rfl
  · repeat' split
    all_goals exact Bare.of_bytes rfl

/-! ## Quoted texts -/

namespace Quoted

/-- The code of a character of any text is encoded as well-formed text. For a malformed byte this is
the code of the replacement character. -/
theorem isValid_encode {s : Bytes} {g : Glyph} (hg : g ∈ Utf8.glyphs s) :
    Utf8.isValid (Utf8.encode g.code) = true := by
  by_cases hcode : g.code = Glyph.replacement
  · rw [hcode]
    decide
  · have hproper : g.isMalformed = false := by simp [Glyph.isMalformed, hcode]
    have hvalid : Utf8.isValid (Utf8.join [g]) = true :=
      Utf8.isValid_join (s := s) (by simpa using hg) (by simpa using hproper)
    rwa [Utf8.join, List.flatMap_singleton, (Utf8.wellFormed_of_mem hg hproper).bytes_eq] at hvalid

/-- A character other than the line feed is one line. -/
theorem oneLine_encode {s : Bytes} {g : Glyph} (hg : g ∈ Utf8.glyphs s) (hfeed : g.code ≠ 0x0A) :
    OneLine (Utf8.encode g.code) := by
  refine ⟨isValid_encode hg, fun hmem => ?_⟩
  by_cases hascii : g.code < 0x80
  · rw [Utf8.encode, if_pos hascii, List.mem_singleton, ← UInt8.toNat_inj, Nat.toUInt8,
      UInt8.toNat_ofNat'] at hmem
    have hmem : 0x0A = g.code % 256 := hmem
    omega
  · have htail := Utf8.tail_of_mem_encode (Nat.not_lt.1 hascii) hmem
    exact absurd htail (by decide)

/-- A character between quotes, whichever character it is. -/
theorem oneLine_showCode {s : Bytes} {g : Glyph} (hg : g ∈ Utf8.glyphs s) {quote : Nat}
    (hquote : quote ≠ 0x0A) : OneLine (showCode quote g.code) := by
  have hfeed (h : g.code = 0x0A) : (g.code == quote || g.code == 0x5C) = false ∧
      isGraphic g.code = false := by
    rw [h]
    exact ⟨by simpa using Ne.symm hquote, by decide⟩
  have hbackslash : Bare [0x5C] := Bare.of_bytes rfl
  unfold showCode
  split
  next h =>
    refine hbackslash.toOneLine.append (oneLine_encode hg fun hcode => ?_)
    rw [(hfeed hcode).1] at h
    cases h
  split
  next h =>
    refine oneLine_encode hg fun hcode => ?_
    rw [(hfeed hcode).2] at h
    cases h
  split
  next c hc =>
    have hletter : Bare [c] := by
      unfold letter? at hc
      split at hc <;> cases hc <;> exact Bare.of_bytes rfl
    exact (hbackslash.append hletter).toOneLine
  · have hhex := fun width => bare_hex width g.code
    split
    · exact ((Bare.of_bytes rfl).append (hhex 2)).toOneLine
    split
    · exact ((Bare.of_bytes rfl).append (hhex 4)).toOneLine
    · exact ((Bare.of_bytes rfl).append (hhex 8)).toOneLine

/-- A character in a quoted text is one line. A malformed byte is shown by its number. -/
theorem oneLine_showGlyph {s : Bytes} {g : Glyph} (hg : g ∈ Utf8.glyphs s) :
    OneLine (showGlyph g) := by
  unfold showGlyph
  split
  · refine (OneLine.of_bytes rfl).append (OneLine.flatMap fun b _ => ?_)
    exact (bare_hex 2 _).toOneLine
  · exact oneLine_showCode hg (by decide)

/-- A text of any bytes is shown on one line. -/
theorem oneLine_text (s : Bytes) : OneLine (text s) := by
  have hquote : OneLine ("\"" : String) := OneLine.of_bytes rfl
  exact (hquote.append (OneLine.flatMap fun g hg => oneLine_showGlyph hg)).append hquote

/-- So is a character of any text. -/
theorem oneLine_character {s : Bytes} {g : Glyph} (hg : g ∈ Utf8.glyphs s) :
    OneLine (character g.code) := by
  have hquote : OneLine ("'" : String) := OneLine.of_bytes rfl
  exact (hquote.append (oneLine_showCode hg (by decide))).append hquote

end Quoted

/-- A value is shown on one line, also if it is a text of several. -/
theorem oneLine_literalOf (v : Option Value) : OneLine (literalOf v) := by
  match v with
  | some (.number x) => exact (bare_numberText x).toOneLine
  | some (.string s) => exact Quoted.oneLine_text s
  | some (.bool true) | some (.bool false) | none =>
    exact OneLine.of_bytes rfl

/-! ## Names -/

/-- A character of ASCII that cannot be in a name is not in the names of a text. -/
theorem notMem_identifier {source : Bytes} {t : Token} (ht : t ∈ tokenize source)
    (hk : t.kind = .identifier) {b : UInt8} (hascii : b < 0x80)
    (hb : Lexeme.continuesName ⟨b.toNat, [b]⟩ = false) : b ∉ t.literal := by
  obtain ⟨g, rest, hsuffix, hkind, hliteral⟩ := readIn_of_mem_scan ht (by rw [hk]; nofun)
  have hread := ((Lexeme.shaped_read g rest).identifier (hkind.symm.trans hk)).2
  rw [hliteral, hread]
  intro hmem
  obtain ⟨g', hg', hb'⟩ := List.mem_flatMap.1 hmem
  have hfaithful := Utf8.faithful_of_mem
    (hsuffix.subset ((List.takeWhile_prefix _).subset hg'))
  have hname := List.all_eq_true.1 List.all_takeWhile g' hg'
  rw [Lexeme.continuesName, Glyph.is, (hfaithful.mem_bytes_iff hascii).1 hb'] at hname
  rw [Lexeme.continuesName, Glyph.is] at hb
  rw [hname] at hb
  cases hb

/-- Neither a line feed nor a semicolon can be in the name of a variable. -/
theorem bare_of_identifier {source : Bytes} {t : Token} (ht : t ∈ tokenize source)
    (hk : t.kind = .identifier) : Bare t.literal where
  valid := (literal_of_identifier ht hk).2
  unbroken := notMem_identifier ht hk (by decide) (by decide)
  noteless := notMem_identifier ht hk (by decide) (by decide)

/-- The labels that the compiler hands out have bare names. -/
theorem bare_labelName (n : Nat) : Bare (labelName n) :=
  (Bare.of_bytes rfl).append (bare_decimal n)

/-! ## Instructions -/

/-- Opcodes have bare names, also bytes that are no opcode. -/
theorem bare_infoName (op : UInt8) : Bare (Opcode.infoOfByte op).name := by
  unfold Opcode.infoOfByte
  split
  next op _ => cases op <;> exact Bare.of_bytes rfl
  · have hopen : Bare ("UNKNOWN(0x" : String) := Bare.of_bytes rfl
    exact (hopen.append (bare_hexUpper 2 _)).append (Bare.of_bytes rfl)

/-- Names in the program of a text are names of its variables or labels. -/
theorem bare_name_of_mem_code {source name : Bytes} {script : Script} {p : Program}
    (hscript : script.From (tokenize source)) (hp : script.compile name = .ok p) {i : Instruction}
    (hi : i ∈ p.code.toList) : Bare i.name := by
  rcases (from_of_mem_code hscript hp i hi).name with hnil | ⟨t, ht, hk, hname⟩ | hlabel
  · rw [hnil]
    exact Bare.nil
  · exact hname ▸ bare_of_identifier ht hk
  · obtain ⟨k, -, hname⟩ := labelName_of_mem_code hp hi hlabel
    rw [hname]
    exact bare_labelName k

/-! ## Listings -/

theorem bare_blanks (n : Nat) : Bare (List.replicate n 0x20) := by
  refine Bare.of_bytes (List.all_eq_true.2 fun b hb => ?_)
  rw [List.eq_of_mem_replicate hb]
  rfl

/-- An instruction in words holds a semicolon only if it ends with a quoted text. -/
theorem textPadded_cases {i : Instruction} (h : Bare i.name) (width : Nat) :
    OneLine (i.textPadded width) ∧
      (Bare (i.textPadded width) ∨ ∃ front, i.textPadded width = front ++ [0x22]) := by
  have hblank : Bare (" " : String) := Bare.of_bytes rfl
  have hname := (bare_infoName i.op).append (bare_blanks (width - i.info.name.length))
  unfold Instruction.textPadded
  dsimp only
  split
  next =>
    refine ⟨(hname.append hblank).toOneLine.append (oneLine_literalOf _), ?_⟩
    match i.arg with
    | some (.string s) => exact .inr ⟨_, (List.append_assoc _ _ _).symm⟩
    | some (.number x) => exact .inl ((hname.append hblank).append (bare_numberText x))
    | some (.bool true) | some (.bool false) | none =>
      exact .inl ((hname.append hblank).append (Bare.of_bytes rfl))
  case h_4 =>
    have hbare := bare_infoName i.op
    exact ⟨hbare.toOneLine, .inl hbare⟩
  all_goals
    have hbare := (hname.append hblank).append h
    exact ⟨hbare.toOneLine, .inl hbare⟩

namespace Program

/-- The place of an instruction in a listing and its words. -/
def instructionFront (i : Instruction) (pc : Nat) : Bytes :=
  zeroPadded 4 (decimal pc) ++ "  " ++ i.textPadded nameWidth

/-- An instruction has a note if the next entry of the source map stands at it. -/
theorem instructionLine_cases (i : Instruction) (pc : Nat) (map : List SourceLocation) :
    (∃ e ∈ map.head?, e.pc = pc ∧ instructionLine i pc map =
      padded instructionWidth (instructionFront i pc) ++ " ; line " ++ decimalInt e.line) ∨
    (∀ e ∈ map.head?, e.pc ≠ pc) ∧ instructionLine i pc map = instructionFront i pc := by
  unfold instructionLine
  cases map with
  | nil => exact .inr ⟨nofun, rfl⟩
  | cons e map =>
    dsimp only
    split
    next hpc => exact .inl ⟨e, rfl, hpc, rfl⟩
    next hpc => exact .inr ⟨by simpa using hpc, rfl⟩

/-- An instruction with a bare name is listed on one line. -/
theorem oneLine_instructionLine {i : Instruction} (h : Bare i.name) (pc : Nat)
    (map : List SourceLocation) : OneLine (instructionLine i pc map) := by
  have hplace := (digits_zeroPadded (digits_decimal pc) 4).bare.append
    (Bare.of_bytes rfl : Bare ("  " : String))
  have hfront : OneLine (instructionFront i pc) :=
    hplace.toOneLine.append (textPadded_cases h nameWidth).1
  rcases instructionLine_cases i pc map with ⟨e, -, -, hline⟩ | ⟨-, hline⟩
  · have hmark : OneLine (" ; line " : String) := ⟨by decide, by decide⟩
    rw [hline]
    exact ((hfront.append (bare_blanks _).toOneLine).append hmark).append
      (bare_decimalInt e.line).toOneLine
  · rwa [hline]

/-- Each line for some code is one line of the listing. -/
theorem oneLine_codeLines {code : List Instruction} (h : ∀ i ∈ code, Bare i.name) (pc : Nat)
    (map : List SourceLocation) : ∀ line ∈ codeLines pc map code, OneLine line := by
  induction code generalizing pc map with
  | nil => exact nofun
  | cons i code ih =>
    obtain ⟨hi, hcode⟩ := List.forall_mem_cons.1 h
    unfold codeLines
    split
    · have hcolon : Bare (":" : String) := Bare.of_bytes rfl
      exact List.forall_mem_cons.2 ⟨(hi.append hcolon).toOneLine, ih hcode _ _⟩
    · exact List.forall_mem_cons.2 ⟨oneLine_instructionLine hi _ _, ih hcode _ _⟩

/-- The first lines of a listing are one line each if the name of the program is. -/
theorem oneLine_headerLines {p : Program} (h : OneLine p.name) :
    ∀ line ∈ p.headerLines, OneLine line := by
  have hfixed {s : Bytes} (hs : Utf8.isValid s = true ∧ s.elem 0x0A = false) : OneLine s :=
    ⟨hs.1, by simpa using hs.2⟩
  have hcount (n : Nat) : OneLine (decimal n) := (bare_decimal n).toOneLine
  unfold headerLines
  refine List.forall_mem_append.2 ⟨?_, ?_⟩
  · split
    · exact nofun
    · refine List.forall_mem_singleton.2 ((OneLine.append ?_ h).append ?_)
      · exact hfixed (by decide)
      · exact hfixed (by decide)
  · refine List.forall_mem_cons.2 ⟨(hfixed (by decide)).append (hcount _), ?_⟩
    refine List.forall_mem_cons.2 ⟨?_, List.forall_mem_singleton.2 oneLine_nil⟩
    refine (((OneLine.append ?_ (hcount _)).append ?_).append (hcount _)).append ?_
    · exact hfixed (by decide)
    · exact hfixed (by decide)
    · exact hfixed (by decide)

end Program

end Scriptlet
