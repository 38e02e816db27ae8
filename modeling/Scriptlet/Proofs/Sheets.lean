import Scriptlet.Proofs.Scalars
import Scriptlet.Text.Parts

/-!
# Flat configuration files

A sheet is a list of tables, and each table holds texts and integers under plain keys. It is written
table after table, with a line for each name and each key, and an empty line between the tables.
What is read of its text are these lines, with the same values (`lines?_text`).
-/

namespace Scriptlet.Toml

/-! ## Sheets -/

/-- A value that takes a part of one line. -/
inductive Scalar where
  | text (s : Bytes)
  | number (n : Int)

namespace Scalar

/-- The value as it is written. -/
def written : Scalar → Bytes
  | text s => quoted s
  | number n => decimalInt n

/-- What is read of the value. -/
def literal : Scalar → Literal
  | text s => .string s
  | number n => .integer n

/-- The value in a document. -/
def value : Scalar → Value
  | text s => .string s
  | number n => .integer n

/-- The value can be written : a text is well-formed, and an integer has 64 bits. -/
def Fits : Scalar → Prop
  | text s => Utf8.isValid s = true
  | number n => fitsInt64 n = true

end Scalar

/-- A plain key. -/
def IsBare (key : Bytes) : Prop := key ≠ [] ∧ key.all isBareByte = true

/-- Tables of values, each under its name. -/
abbrev Sheet := List (Bytes × List (Bytes × Scalar))

namespace Sheet

/-- A value under its key as it is written. -/
def entryText (e : Bytes × Scalar) : Bytes := "  " ++ e.1 ++ " = " ++ e.2.written ++ "\n"

/-- A table as it is written. -/
def tableText (table : Bytes × List (Bytes × Scalar)) : Bytes :=
  "[" ++ table.1 ++ "]\n" ++ table.2.flatMap entryText

/-- The sheet as it is written. -/
def text (sheet : Sheet) : Bytes := Bytes.joined 0x0A (sheet.map tableText)

/-- The sheet can be written : names and keys are plain and distinct. -/
structure Fits (sheet : Sheet) : Prop where
  names : ∀ t ∈ sheet, IsBare t.1
  values : ∀ t ∈ sheet, ∀ e ∈ t.2, IsBare e.1 ∧ e.2.Fits
  distinctNames : (sheet.map Prod.fst).Nodup
  distinctKeys : ∀ t ∈ sheet, (t.2.map Prod.fst).Nodup

end Sheet

/-! ## Plain keys -/

/-- A byte of a plain key has no meaning of its own. -/
structure IsWord (b : UInt8) : Prop where
  space : isSpace b = false
  lineEnd : isLineEnd b = false
  mark : b ∉ [0x22, 0x23, 0x27, 0x5B]

theorem isWord_of_isBareByte {b : UInt8} (h : isBareByte b = true) : IsWord b := by
  have hne (c : UInt8) (hc : isBareByte c = false) : b ≠ c := by
    rintro rfl
    rw [h] at hc
    cases hc
  have hspace : b ≠ 0x20 ∧ b ≠ 0x09 := ⟨hne _ rfl, hne _ rfl⟩
  have hend : b ≠ 0x0A ∧ b ≠ 0x0D := ⟨hne _ rfl, hne _ rfl⟩
  have hmark : b ≠ 0x22 ∧ b ≠ 0x23 ∧ b ≠ 0x27 ∧ b ≠ 0x5B :=
    ⟨hne _ rfl, hne _ rfl, hne _ rfl, hne _ rfl⟩
  constructor
  · simpa [isSpace] using hspace
  · simpa [isLineEnd] using hend
  · simpa using hmark

theorem IsBare.head {key : Bytes} (h : IsBare key) : ∃ b s, key = b :: s ∧ IsWord b := by
  obtain ⟨b, s, rfl⟩ := List.exists_cons_of_ne_nil h.1
  exact ⟨b, s, rfl, isWord_of_isBareByte (List.all_eq_true.1 h.2 b List.mem_cons_self)⟩

theorem skipSpace_of_not {b : UInt8} (h : isSpace b = false) (rest : Bytes) :
    skipSpace (b :: rest) = b :: rest :=
  List.dropWhile_cons_of_neg (by simp [h])

section

variable {key rest rest' : Bytes} {b stop : UInt8}

/-- A plain key is read up to a byte that is none of a plain key. -/
theorem readKey_bare (h : IsBare key) (hstop : isBareByte stop = false) (rest : Bytes) :
    readKey (key ++ stop :: rest) = some (key, stop :: rest) := by
  have hall := List.all_eq_true.1 h.2
  have htake : (key ++ stop :: rest).takeWhile isBareByte = key := by
    rw [List.takeWhile_append_of_pos hall, List.takeWhile_cons_of_neg (by simp [hstop]),
      List.append_nil]
  have hdrop : (key ++ stop :: rest).dropWhile isBareByte = stop :: rest := by
    rw [List.dropWhile_append_of_pos hall, List.dropWhile_cons_of_neg (by simp [hstop])]
  obtain ⟨b, s, hkey, hb⟩ := h.head
  have hmark := hb.mark
  rw [readKey, htake, hdrop, hkey]
  · rintro _ heq
    rw [hkey, List.cons_append, List.cons.injEq] at heq
    exact absurd (heq.1 ▸ hmark) (by decide)
  · rintro _ heq
    rw [hkey, List.cons_append, List.cons.injEq] at heq
    exact absurd (heq.1 ▸ hmark) (by decide)

/-- A plain key is a path up to blanks and a byte that is no dot. -/
theorem readPath_bare (h : IsBare key) (hstop : isBareByte stop = false)
    (hskip : skipSpace (stop :: rest) = b :: rest') (hdot : b ≠ 0x2E) (fuel : Nat) :
    readPath (fuel + 1) (key ++ stop :: rest) = some ([key], b :: rest') := by
  have hkey : skipSpace (key ++ stop :: rest) = key ++ stop :: rest := by
    obtain ⟨c, s, hkey, hc⟩ := h.head
    rw [hkey, List.cons_append, skipSpace_of_not hc.space]
  rw [readPath, hkey, readKey_bare h hstop]
  simp only [Option.bind_eq_bind, Option.bind_some, hskip]
  split
  next heq => exact absurd (List.cons.inj heq).1 hdot
  next => rfl

end

/-! ## Lines -/

/-- A value is read back up to the end of its line. -/
theorem readValue_written {v : Scalar} (h : v.Fits) (fuel : Nat) (rest : Bytes) :
    readValue (fuel + 1) (0x20 :: (v.written ++ 0x0A :: rest)) =
      some (v.literal, 0x0A :: rest) := by
  have hskip (s : Bytes) : skipSpace (0x20 :: s) = skipSpace s := rfl
  rw [readValue, hskip]
  cases v with
  | text s =>
    have hshape : (Scalar.text s).written ++ 0x0A :: rest =
        0x22 :: (s.flatMap quotedByte ++ 0x22 :: 0x0A :: rest) := by
      rw [Scalar.written, quoted_eq, List.cons_append, List.append_assoc, List.singleton_append]
    have hend : (0x0A :: rest).head? ≠ some 0x22 := by
      rw [List.head?_cons]
      decide
    rw [hshape, skipSpace_of_not rfl]
    change (readString 0x22 _ >>= _) = _
    rw [readString_quoted s hend]
    rfl
  | number n =>
    obtain ⟨b, t, hb⟩ := List.exists_cons_of_ne_nil (decimalInt_ne_nil n)
    have hread := readNumber_decimalInt h rest
    rw [Scalar.written]
    rw [hb, List.cons_append] at hread ⊢
    have hmem : b ∈ decimalInt n := hb ▸ List.mem_cons_self
    have hstart : ∀ c ∈ [0x20, 0x09, 0x22, 0x27, 0x5B, 0x7B, 0x74, 0x66], b ≠ c := by
      have hnone : ∀ c ∈ [0x20, 0x09, 0x22, 0x27, 0x5B, 0x7B, 0x74, 0x66],
          c ≠ 0x2D ∧ isDigitByte c = false := by
        simp [isDigitByte]
      rintro c hc rfl
      rcases mem_decimalInt hmem with h | h
      · exact (hnone b hc).1 h
      · rw [(hnone b hc).2] at h
        cases h
    simp only [List.forall_mem_cons] at hstart
    have hspace : isSpace b = false := by simp [isSpace, hstart]
    rw [skipSpace_of_not hspace]
    simpa [hstart, Scalar.literal] using hread

theorem readLines_lineFeed (fuel : Nat) (rest : Bytes) :
    readLines fuel (0x0A :: rest) = readLines fuel rest := by
  cases fuel with
  | zero => rfl
  | succ fuel =>
    rw [readLines, readLines]
    rfl

theorem readHeader_bare {name : Bytes} (h : IsBare name) (fuel : Nat) (rest : Bytes) :
    readHeader (fuel + 1) (name ++ 0x5D :: rest) = some (.table [name], rest) := by
  have hskip : skipSpace (0x5D :: rest) = 0x5D :: rest := skipSpace_of_not rfl rest
  rw [readHeader, readPath_bare h rfl hskip (by decide)]
  · rfl
  · rintro _ heq
    obtain ⟨b, s, hname, hb⟩ := h.head
    rw [hname, List.cons_append, List.cons.injEq] at heq
    exact absurd (heq.1 ▸ hb.mark) (by decide)

theorem readEntry_bare {e : Bytes × Scalar} (hkey : IsBare e.1) (hvalue : e.2.Fits) (fuel : Nat)
    (rest : Bytes) :
    readEntry (fuel + 1) (e.1 ++ 0x20 :: 0x3D :: 0x20 :: (e.2.written ++ 0x0A :: rest)) =
      some (.entry [e.1] e.2.literal, 0x0A :: rest) := by
  have hskip (s : Bytes) : skipSpace (0x20 :: 0x3D :: s) = 0x3D :: s := rfl
  rw [readEntry, readPath_bare hkey rfl (hskip _) (by decide)]
  change (readValue (fuel + 1) _ >>= _) = _
  rw [readValue_written hvalue]
  rfl

/-- The header of a table is read. -/
theorem readLines_header {name : Bytes} (h : IsBare name) (fuel : Nat) (rest : Bytes) :
    readLines (fuel + 2) (0x5B :: (name ++ 0x5D :: 0x0A :: rest)) =
      (readLines (fuel + 1) rest).map (.table [name] :: ·) := by
  have hskip (s : Bytes) : skipFiller false (0x5B :: s) = 0x5B :: s := rfl
  rw [readLines, hskip]
  change (readHeader (fuel + 1) _ >>= _) = _
  rw [readHeader_bare h]
  change (readLines (fuel + 1) rest >>= _) = _
  cases readLines (fuel + 1) rest <;> rfl

theorem Sheet.entryText_append (e : Bytes × Scalar) (rest : Bytes) : entryText e ++ rest =
    0x20 :: 0x20 :: (e.1 ++ 0x20 :: 0x3D :: 0x20 :: (e.2.written ++ 0x0A :: rest)) := by
  have hindent : Bytes.ofString "  " = [0x20, 0x20] := by decide
  have hequals : Bytes.ofString " = " = [0x20, 0x3D, 0x20] := by decide
  have hend : Bytes.ofString "\n" = [0x0A] := by decide
  rw [entryText, hindent, hequals, hend]
  simp

/-- A value under its key is read. -/
theorem readLines_entry {e : Bytes × Scalar} (hkey : IsBare e.1) (hvalue : e.2.Fits) (fuel : Nat)
    (rest : Bytes) : readLines (fuel + 2) (Sheet.entryText e ++ rest) =
      (readLines (fuel + 1) rest).map (.entry [e.1] e.2.literal :: ·) := by
  have hindent (s : Bytes) : skipFiller false (0x20 :: 0x20 :: s) = skipFiller false s := rfl
  obtain ⟨b, s, hb, hword⟩ := hkey.head
  have hentry := readEntry_bare hkey hvalue fuel rest
  have hmark : (b == 0x23) = false ∧ ¬(b == 0x5B) = true := by
    have hmark := hword.mark
    simp only [List.mem_cons, not_or] at hmark
    simp [hmark]
  have hskip (t : Bytes) : skipFiller false (b :: t) = b :: t := by
    rw [skipFiller, hword.space, hword.lineEnd, hmark.1]
    rfl
  rw [hb, List.cons_append] at hentry
  rw [Sheet.entryText_append, readLines, hindent, hb, List.cons_append, hskip]
  simp only [if_neg hmark.2, hentry]
  change (readLines (fuel + 1) rest >>= _) = _
  cases readLines (fuel + 1) rest <;> rfl

/-! ## The lines of a sheet -/

namespace Sheet

/-- The line of a value. -/
def entryLine (e : Bytes × Scalar) : Line := .entry [e.1] e.2.literal

/-- The lines of a table. -/
def tableLines (table : Bytes × List (Bytes × Scalar)) : List Line :=
  .table [table.1] :: table.2.map entryLine

/-- The lines of the sheet. -/
def lines (sheet : Sheet) : List Line := sheet.flatMap tableLines

theorem readLines_entries {es : List (Bytes × Scalar)}
    (h : ∀ e ∈ es, IsBare e.1 ∧ e.2.Fits) (fuel : Nat) (rest : Bytes) :
    readLines (fuel + 1 + es.length) (es.flatMap entryText ++ rest) =
      (readLines (fuel + 1) rest).map (es.map entryLine ++ ·) := by
  induction es with
  | nil => exact Option.map_id'.symm
  | cons e es ih =>
    obtain ⟨he, hes⟩ := List.forall_mem_cons.1 h
    have hfuel : fuel + 1 + (e :: es).length = fuel + es.length + 2 := by
      rw [List.length_cons]
      omega
    have hnext : fuel + es.length + 1 = fuel + 1 + es.length := by omega
    rw [hfuel, List.flatMap_cons, List.append_assoc, readLines_entry he.1 he.2, hnext, ih hes,
      Option.map_map]
    rfl

theorem tableText_append (table : Bytes × List (Bytes × Scalar)) (rest : Bytes) :
    tableText table ++ rest =
      0x5B :: (table.1 ++ 0x5D :: 0x0A :: (table.2.flatMap entryText ++ rest)) := by
  have hopen : Bytes.ofString "[" = [0x5B] := by decide
  have hclose : Bytes.ofString "]\n" = [0x5D, 0x0A] := by decide
  rw [tableText, hopen, hclose]
  simp

theorem readLines_table {table : Bytes × List (Bytes × Scalar)} (hname : IsBare table.1)
    (h : ∀ e ∈ table.2, IsBare e.1 ∧ e.2.Fits) (fuel : Nat) (rest : Bytes) :
    readLines (fuel + 1 + (tableLines table).length) (tableText table ++ rest) =
      (readLines (fuel + 1) rest).map (tableLines table ++ ·) := by
  have hfuel : fuel + 1 + (tableLines table).length = fuel + table.2.length + 2 := by
    rw [tableLines, List.length_cons, List.length_map]
    omega
  have hnext : fuel + table.2.length + 1 = fuel + 1 + table.2.length := by omega
  rw [hfuel, tableText_append, readLines_header hname, hnext, readLines_entries h, Option.map_map]
  rfl

theorem text_cons (table next : Bytes × List (Bytes × Scalar)) (rest : Sheet) :
    text (table :: next :: rest) = tableText table ++ 0x0A :: text (next :: rest) := rfl

/-- The lines of a sheet are read. -/
theorem readLines_text : ∀ {sheet : Sheet}, (∀ t ∈ sheet, IsBare t.1) →
    (∀ t ∈ sheet, ∀ e ∈ t.2, IsBare e.1 ∧ e.2.Fits) → ∀ fuel : Nat,
    readLines (fuel + 1 + sheet.lines.length) sheet.text = some sheet.lines
  | [], _, _, _ => rfl
  | [table], hnames, hvalues, fuel => by
    have hread := readLines_table (hnames table List.mem_cons_self)
      (hvalues table List.mem_cons_self) fuel []
    rw [List.append_nil] at hread
    rw [lines, List.flatMap_singleton]
    exact hread.trans (congrArg some (List.append_nil _))
  | table :: next :: rest, hnames, hvalues, fuel => by
    obtain ⟨hname, hnames⟩ := List.forall_mem_cons.1 hnames
    obtain ⟨hvalue, hvalues⟩ := List.forall_mem_cons.1 hvalues
    have hlines : lines (table :: next :: rest) = tableLines table ++ lines (next :: rest) :=
      List.flatMap_cons
    have hfuel : fuel + 1 + (tableLines table ++ lines (next :: rest)).length =
        fuel + (lines (next :: rest)).length + 1 + (tableLines table).length := by
      rw [List.length_append]
      omega
    have hnext : fuel + (lines (next :: rest)).length + 1 =
        fuel + 1 + (lines (next :: rest)).length := by omega
    rw [hlines, hfuel, text_cons, readLines_table hname hvalue, readLines_lineFeed, hnext,
      readLines_text hnames hvalues]
    rfl

theorem length_le_flatMap_entryText (es : List (Bytes × Scalar)) :
    es.length ≤ (es.flatMap entryText).length := by
  induction es with
  | nil => exact Nat.le_refl 0
  | cons e es ih =>
    rw [List.flatMap_cons, entryText_append]
    simp only [List.length_cons, List.length_append]
    omega

theorem length_tableLines_le (table : Bytes × List (Bytes × Scalar)) :
    (tableLines table).length ≤ (tableText table).length := by
  have hle := length_le_flatMap_entryText table.2
  rw [← List.append_nil (tableText table), tableText_append, List.append_nil, tableLines]
  simp only [List.length_cons, List.length_append, List.length_map]
  omega

/-- Each line takes a byte at least. -/
theorem length_lines_le : ∀ sheet : Sheet, sheet.lines.length ≤ sheet.text.length
  | [] => Nat.le_refl 0
  | [table] => by
    rw [lines, List.flatMap_singleton]
    exact length_tableLines_le table
  | table :: next :: rest => by
    have hfirst := length_tableLines_le table
    have hrest := length_lines_le (next :: rest)
    rw [text_cons, lines, List.flatMap_cons, List.length_append, List.length_append,
      List.length_cons]
    exact Nat.add_le_add hfirst (Nat.le_succ_of_le hrest)

end Sheet

/-! ## Plain text -/

/-- Well-formed text that holds no control characters but line feeds. -/
structure Plain (s : Bytes) : Prop where
  valid : Utf8.isValid s = true
  printable : ∀ b ∈ s, b = 0x0A ∨ 0x20 ≤ b ∧ b ≠ 0x7F

namespace Plain

variable {s t : Bytes}

theorem append (hs : Plain s) (ht : Plain t) : Plain (s ++ t) :=
  ⟨Utf8.isValid_append hs.valid ht.valid, List.forall_mem_append.2 ⟨hs.printable, ht.printable⟩⟩

theorem flatMap {α : Type} {f : α → Bytes} {l : List α} (h : ∀ a ∈ l, Plain (f a)) :
    Plain (l.flatMap f) := by
  induction l with
  | nil => exact ⟨rfl, fun _ hb => absurd hb List.not_mem_nil⟩
  | cons a l ih =>
    obtain ⟨ha, hl⟩ := List.forall_mem_cons.1 h
    exact ha.append (ih hl)

/-- Text of ASCII characters that can be printed is plain. -/
theorem of_ascii (h : ∀ b ∈ s, b = 0x0A ∨ 0x20 ≤ b ∧ b < 0x7F) : Plain s := by
  refine ⟨Utf8.isValid_of_ascii fun b hb => ?_, fun b hb => ?_⟩
  · rcases h b hb with rfl | ⟨-, hb⟩
    · decide
    · exact UInt8.lt_trans hb (by decide)
  · exact (h b hb).imp_right fun hb => ⟨hb.1, UInt8.ne_of_lt hb.2⟩

theorem of_bare (h : IsBare s) : Plain s := by
  refine of_ascii fun b hb => .inr ?_
  have hbare := List.all_eq_true.1 h.2 b hb
  simp only [isBareByte, Bool.or_eq_true, Bool.and_eq_true, decide_eq_true_eq, beq_iff_eq] at hbare
  grind

theorem isPlainText (h : Plain s) : Toml.isPlainText s = true := by
  have hplain : ∀ {s : Bytes}, (∀ b ∈ s, b = 0x0A ∨ 0x20 ≤ b ∧ b ≠ 0x7F) →
      isPlainText.plain s = true := by
    intro s h
    induction s with
    | nil => rfl
    | cons b s ih =>
      obtain ⟨hb, hs⟩ := List.forall_mem_cons.1 h
      have hreturn : ¬(b == 0x0D) = true := by
        rw [beq_iff_eq]
        rintro rfl
        exact absurd hb (by decide)
      rw [isPlainText.plain, ih hs, Bool.and_true, if_neg hreturn]
      rcases hb with rfl | hb
      · rfl
      · simp [hb]
  rw [Toml.isPlainText, h.valid, hplain h.printable]
  rfl

end Plain

theorem Scalar.plain_written {v : Scalar} (h : v.Fits) : Plain v.written := by
  cases v with
  | text s => exact ⟨isValid_quoted h, fun _ hb => .inr (printable_quoted hb)⟩
  | number n => exact .of_ascii fun _ hb => .inr (printable_decimalInt hb)

namespace Sheet

theorem plain_tableText {table : Bytes × List (Bytes × Scalar)} (hname : IsBare table.1)
    (h : ∀ e ∈ table.2, IsBare e.1 ∧ e.2.Fits) : Plain (tableText table) := by
  have hfixed : ∀ s ∈ [Bytes.ofString "[", Bytes.ofString "]\n", Bytes.ofString "  ",
      Bytes.ofString " = ", Bytes.ofString "\n"], Plain s := by
    have hascii : ∀ s ∈ [Bytes.ofString "[", Bytes.ofString "]\n", Bytes.ofString "  ",
        Bytes.ofString " = ", Bytes.ofString "\n"], ∀ b ∈ s, b = 0x0A ∨ 0x20 ≤ b ∧ b < 0x7F := by
      decide +kernel
    exact fun s hs => .of_ascii (hascii s hs)
  simp only [List.forall_mem_cons] at hfixed
  obtain ⟨hopen, hclose, hindent, hequals, hend, -⟩ := hfixed
  refine ((hopen.append (.of_bare hname)).append hclose).append (.flatMap fun e he => ?_)
  obtain ⟨hkey, hvalue⟩ := h e he
  exact (((hindent.append (.of_bare hkey)).append hequals).append (e.2.plain_written hvalue)).append
    hend

theorem plain_text : ∀ {sheet : Sheet}, (∀ t ∈ sheet, IsBare t.1) →
    (∀ t ∈ sheet, ∀ e ∈ t.2, IsBare e.1 ∧ e.2.Fits) → Plain sheet.text
  | [], _, _ => ⟨rfl, fun _ hb => absurd hb List.not_mem_nil⟩
  | [table], hnames, hvalues =>
    plain_tableText (hnames table List.mem_cons_self) (hvalues table List.mem_cons_self)
  | table :: next :: rest, hnames, hvalues => by
    obtain ⟨hname, hnames⟩ := List.forall_mem_cons.1 hnames
    obtain ⟨hvalue, hvalues⟩ := List.forall_mem_cons.1 hvalues
    have hfeed : Plain [0x0A] := .of_ascii fun b hb => .inl (List.mem_singleton.1 hb)
    exact (plain_tableText hname hvalue).append (hfeed.append (plain_text hnames hvalues))

/-- A text that starts with a bracket or not at all has no mark of the byte order. -/
theorem skipMark_text : ∀ sheet : Sheet, skipMark sheet.text = sheet.text
  | [] => rfl
  | [table] => by
    rw [text, List.map_singleton, Bytes.joined, ← List.append_nil (tableText table),
      tableText_append]
    rfl
  | table :: next :: rest => by
    rw [text_cons, tableText_append]
    rfl

theorem lines?_text {sheet : Sheet} (hnames : ∀ t ∈ sheet, IsBare t.1)
    (hvalues : ∀ t ∈ sheet, ∀ e ∈ t.2, IsBare e.1 ∧ e.2.Fits) :
    lines? sheet.text = some sheet.lines := by
  have hle := length_lines_le sheet
  have hfuel : 2 * sheet.text.length + 2 =
      2 * sheet.text.length + 1 - sheet.lines.length + 1 + sheet.lines.length := by omega
  rw [lines?, skipMark_text]
  simp only [(plain_text hnames hvalues).isPlainText, if_pos]
  rw [hfuel, readLines_text hnames hvalues]

end Sheet

end Scriptlet.Toml
