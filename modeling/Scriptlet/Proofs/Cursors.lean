import Scriptlet.Proofs.FileTrees
import Scriptlet.Proofs.PositionOrder
import Scriptlet.Proofs.Surroundings
import Scriptlet.Proofs.Symbols

/-!
# Places within a range

The ranges that an editor gets count the characters of a line, and the places that it asks about are
counted in bytes. So a range holds the name that it was reported for if there are as many bytes as
characters before it on its line. What is found at a place is all the name bytes around it, and
these are the name unless a number ends where the name starts : the number is then a part of what is
found.

Main statement : `name_within_range`.
-/

namespace Scriptlet

/-! ## Lines -/

namespace Bytes

variable {b : UInt8}

theorem partsAt_eq_cons (b : UInt8) (s : Bytes) :
    ∃ more, partsAt b s = s.takeWhile (· ≠ b) :: more := by
  induction s with
  | nil => exact ⟨[], rfl⟩
  | cons a rest ih =>
    obtain ⟨more, hmore⟩ := ih
    by_cases hab : a = b
    · exact ⟨partsAt b rest, by simp [partsAt, hab]⟩
    · exact ⟨more, by simp [partsAt, hab, hmore]⟩

theorem length_partsAt (b : UInt8) (s : Bytes) : (partsAt b s).length = s.count b + 1 := by
  induction s with
  | nil => rfl
  | cons a rest ih =>
    obtain ⟨more, hmore⟩ := partsAt_eq_cons b rest
    by_cases hab : a = b
    · simp [partsAt, hab, ih]
    · rw [hmore] at ih
      simp [partsAt, hab, hmore, ← ih]

/-- The line in which a part of a text ends and the rest goes on. -/
theorem line_append (before rest : Bytes) :
    (partsAt 0x0A (before ++ rest))[before.count 0x0A]? =
      some (lastLine before ++ rest.takeWhile (· ≠ 0x0A)) := by
  have hline {part : Bytes} (h : 0x0A ∉ part) :
      (part ++ rest).takeWhile (· ≠ 0x0A) = part ++ rest.takeWhile (· ≠ 0x0A) := by
    refine List.takeWhile_append_of_pos fun b hb => decide_eq_true ?_
    rintro rfl
    exact h hb
  rcases eq_lastLine_or before with h | ⟨first, last, rfl, hlast⟩
  · obtain ⟨more, hmore⟩ := partsAt_eq_cons 0x0A (before ++ rest)
    rw [List.count_eq_zero.2 h, lastLine_of_notMem h, hmore, hline h]
    rfl
  · obtain ⟨more, hmore⟩ := partsAt_eq_cons 0x0A (last ++ rest)
    have hcount : (first ++ 0x0A :: last).count 0x0A = (partsAt 0x0A first).length := by
      rw [length_partsAt, List.count_append, List.count_cons_self, List.count_eq_zero.2 hlast]
    rw [hcount, lastLine_append _ hlast, List.append_assoc, List.cons_append, partsAt_append,
      List.getElem?_append_right (Nat.le_refl _), Nat.sub_self, hmore, hline hlast]
    rfl

end Bytes

namespace Editor

/-! ## Words -/

/-- The words at the places next to some name bytes are the same. -/
theorem word_around {left name right : Bytes} (hname : ∀ b ∈ name, isNameByte b = true) {n : Nat}
    (hn : n ≤ name.length) :
    ((left ++ (name ++ right)).take (left.length + n)).rtakeWhile isNameByte ++
        ((left ++ (name ++ right)).drop (left.length + n)).takeWhile isNameByte =
      left.rtakeWhile isNameByte ++ (name ++ right.takeWhile isNameByte) := by
  have hleft : (left ++ name.take n).rtakeWhile isNameByte =
      left.rtakeWhile isNameByte ++ name.take n := by
    have htake : ∀ b ∈ (name.take n).reverse, isNameByte b = true := fun b hb =>
      hname b (List.mem_of_mem_take (List.mem_reverse.1 hb))
    rw [List.rtakeWhile, List.reverse_append, List.takeWhile_append_of_pos htake,
      List.reverse_append, List.reverse_reverse, List.rtakeWhile]
  have hright : (name.drop n ++ right).takeWhile isNameByte =
      name.drop n ++ right.takeWhile isNameByte :=
    List.takeWhile_append_of_pos fun b hb => hname b (List.mem_of_mem_drop hb)
  rw [List.take_length_add_append, List.drop_length_add_append, List.take_append_of_le_length hn,
    List.drop_append_of_le_length hn, hleft, hright, List.append_assoc,
    ← List.append_assoc (name.take n), List.take_append_drop]

namespace Document

variable {text line : Bytes} {place : Place}

theorem wordAt_eq (h : lineAt? text place = some line) :
    wordAt text place = (line.take place.character).rtakeWhile isNameByte ++
      (line.drop place.character).takeWhile isNameByte := by
  rw [wordAt, fragmentAt, h]
  rfl

/-- Words are made of name bytes. -/
theorem isNameByte_of_mem_wordAt {b : UInt8} (hb : b ∈ wordAt text place) :
    isNameByte b = true := by
  cases hline : lineAt? text place with
  | none =>
    rw [wordAt, hline] at hb
    cases hb
  | some line =>
    rw [wordAt_eq hline] at hb
    rcases List.mem_append.1 hb with hb | hb
    · exact List.mem_rtakeWhile_imp hb
    · exact List.mem_takeWhile_imp hb

/-- The name bytes at the end of a text are those at the end of its last line. -/
theorem rtakeWhile_lastLine (s : Bytes) :
    (Bytes.lastLine s).rtakeWhile isNameByte = s.rtakeWhile isNameByte := by
  have hname : isNameByte 0x0A = false := by decide
  have hboth : (fun b => decide (isNameByte b = true ∧ decide (b ≠ 0x0A) = true)) = isNameByte := by
    funext b
    by_cases hb : b = 0x0A
    · simp [hb, hname]
    · simp [hb]
  rw [Bytes.lastLine, List.rtakeWhile, List.rtakeWhile, List.rtakeWhile, List.reverse_reverse,
    List.takeWhile_takeWhile, hboth]

theorem rtakeWhile_eq_nil {s : Bytes} :
    s.rtakeWhile isNameByte = [] ↔ ∀ b ∈ s.getLast?, isNameByte b = false := by
  rcases List.eq_nil_or_concat' s with rfl | ⟨kept, last, rfl⟩
  · exact iff_of_true (List.rtakeWhile_nil _) nofun
  · rw [List.rtakeWhile_concat, List.getLast?_concat]
    simp

theorem takeWhile_eq_nil {s : Bytes} (h : ∀ b ∈ s.head?, isNameByte b = false) :
    s.takeWhile isNameByte = [] := by
  cases s with
  | nil => rfl
  | cons b rest => rw [List.takeWhile_cons, h b rfl, if_neg Bool.false_ne_true]

end Document

/-! ## The bytes around a name -/

/-- A character of ASCII is a name byte if it can be in a name. -/
theorem exists_nameByte {g : Glyph} (hg : g.Faithful) (hascii : g.code < 0x80) :
    ∃ b, g.bytes = [b] ∧ isNameByte b = Lexeme.continuesName g := by
  have hcode : g.code.toUInt8.toNat = g.code := by
    rw [Nat.toUInt8, UInt8.toNat_ofNat']
    omega
  refine ⟨g.code.toUInt8, hg.ascii hascii, ?_⟩
  have hunderscore : (g.code.toUInt8 == 0x5F) = g.is '_' := by
    rw [Bool.eq_iff_iff, beq_iff_eq, Glyph.is, beq_iff_eq, ← UInt8.toNat_inj, hcode]
    rfl
  rw [isNameByte, hcode, hunderscore, Lexeme.continuesName, Bool.or_assoc, Bool.or_comm]

theorem exists_plainByte {g : Glyph} (hg : g.Faithful) (h : g.Plain) :
    ∃ b, g.bytes = [b] ∧ isNameByte b = false := by
  obtain ⟨b, hbytes, hb⟩ := exists_nameByte hg h.1
  exact ⟨b, hbytes, hb.trans h.2⟩

theorem getLast?_join {gs : List Glyph} {g : Glyph} {b : UInt8} (hg : g ∈ gs.getLast?)
    (hb : g.bytes = [b]) : (Utf8.join gs).getLast? = some b := by
  rcases List.eq_nil_or_concat' gs with rfl | ⟨kept, last, rfl⟩
  · cases hg
  · rw [List.getLast?_concat, Option.mem_some_iff] at hg
    rw [Utf8.join_append, hg, Utf8.join_cons, hb]
    exact List.getLast?_concat

variable {source : Bytes} {t : Token}

/-- The text up to the end of a number ends with a name byte. -/
theorem exists_nameByte_of_number (ht : t ∈ tokenize source) (hk : t.kind = .number) :
    ∃ b ∈ (source.take t.stop.offset).getLast?, isNameByte b = true := by
  obtain ⟨g, rest, hsuffix, hkind, hliteral⟩ := readIn_of_mem_scan ht (by rw [hk]; nofun)
  obtain ⟨hdigit, hread⟩ := (Lexeme.shaped_read g rest).number (hkind.symm.trans hk)
  obtain ⟨last, hlast, hdigit⟩ := Lexeme.exists_last_of_number rest hdigit
  have hmem : last ∈ Utf8.glyphs source :=
    hsuffix.subset (List.mem_of_mem_take (List.mem_of_mem_getLast? hlast))
  obtain ⟨b, hbytes, hb⟩ := exists_nameByte (Utf8.faithful_of_mem hmem)
    (ascii_of_isDigit hdigit)
  rcases (cuts_tokenize source).covered t ht with
    ⟨heof, -⟩ | ⟨-, before, covered, after, hsource, hstart, hstop, hspells⟩
  · exact nomatch hk.symm.trans heof
  · have htake : source.take t.stop.offset = before ++ t.literal := by
      rw [hspells.eq (by simp [hk]), hstop, hstart, Nat.zero_add, hsource, ← List.append_assoc,
        ← List.length_append, List.take_left]
    have hend : t.literal.getLast? = some b := by
      rw [hliteral, hread]
      exact getLast?_join hlast hbytes
    rw [htake]
    refine ⟨b, List.mem_getLast?_append_of_mem_getLast? hend, ?_⟩
    rw [hb, Lexeme.continuesName, hdigit, Bool.or_true, Bool.true_or]

/-- A name, byte by byte : it stands on one line, and there is no name byte next to it but that of a
number right before it. -/
structure Isolated (source : Bytes) (t : Token) (after : Bytes) : Prop where
  split : source = source.take t.start.offset ++ (t.literal ++ after)
  next : ∀ b ∈ after.head?, isNameByte b = false
  previous : ∀ b ∈ (source.take t.start.offset).getLast?, isNameByte b = true →
    ∃ n ∈ tokenize source, n.kind = .number ∧ n.stop = t.start
  noLineFeed : 0x0A ∉ t.literal
  line : t.stop.line = t.start.line
  column : t.stop.column ≤ t.start.column + t.literal.length

theorem length_le_join {gs : List Glyph} (hgs : ∀ g ∈ gs, g.Faithful) :
    gs.length ≤ (Utf8.join gs).length := by
  induction gs with
  | nil => exact Nat.le_refl _
  | cons g gs ih =>
    obtain ⟨hg, hgs⟩ := List.forall_mem_cons.1 hgs
    have hpos := List.length_pos_iff.2 hg.ne_nil
    have hrest := ih hgs
    rw [Utf8.join_cons, List.length_append, List.length_cons]
    omega

section

variable {ts : List Token} {before word behind : List Glyph}

theorem source_of_amid (h : t.Amid .start ts before word behind)
    (hglyphs : Utf8.glyphs source = before ++ (word ++ behind)) :
    source = Utf8.join before ++ (t.literal ++ Utf8.join behind) := by
  rw [h.literal, ← Utf8.join_append, ← Utf8.join_append, ← hglyphs, Utf8.join_glyphs]

theorem take_of_amid (h : t.Amid .start ts before word behind)
    (hglyphs : Utf8.glyphs source = before ++ (word ++ behind)) :
    source.take t.start.offset = Utf8.join before := by
  have hoffset : t.start.offset = (Utf8.join before).length := by
    rw [h.start, Position.offset_pastAll_join]
    exact Nat.zero_add _
  rw [source_of_amid h hglyphs, hoffset, List.take_left]

theorem code_ne_of_amid (h : t.Amid .start ts before word behind) :
    ∀ g ∈ word, g.code ≠ Position.lineFeed := by
  intro g hg hcode
  have hplain : g.Plain := Glyph.plain_of_is (c := '\n') (by decide) (beq_iff_eq.2 hcode)
  have hname := h.name g hg
  rw [hplain.2] at hname
  cases hname

end

theorem exists_isolated (hnone : ∀ t ∈ tokenize source, t.kind ≠ .error)
    (ht : t ∈ tokenize source) (hk : t.kind = .identifier) : ∃ after, Isolated source t after := by
  obtain ⟨before, word, behind, hglyphs, hamid⟩ := exists_around_name hnone ht hk
  have hfaithful : ∀ g ∈ before ++ (word ++ behind), g.Faithful := fun g hg =>
    Utf8.faithful_of_mem (hglyphs ▸ hg)
  obtain ⟨hbefore, hrest⟩ := List.forall_mem_append.1 hfaithful
  obtain ⟨hword, hbehind⟩ := List.forall_mem_append.1 hrest
  have htake := take_of_amid hamid hglyphs
  have hcodes := code_ne_of_amid hamid
  have hfeed : 0x0A ∉ t.literal := by
    rw [hamid.literal, Utf8.mem_join_iff hword (by decide)]
    rintro ⟨g, hg, hcode⟩
    exact hcodes g hg hcode
  refine ⟨Utf8.join behind, htake ▸ source_of_amid hamid hglyphs, fun b hb => ?_,
    fun b hb hname => ?_, hfeed, ?_, ?_⟩
  · cases behind with
    | nil => cases hb
    | cons g behind =>
      obtain ⟨b', hbytes, hplain⟩ :=
        exists_plainByte (hbehind g List.mem_cons_self) (hamid.next g rfl)
      rw [Utf8.join_cons, hbytes] at hb
      exact Option.some.inj hb ▸ hplain
  · rcases List.eq_nil_or_concat' before with rfl | ⟨kept, last, rfl⟩
    · rw [htake] at hb
      cases hb
    · rcases hamid.previous last List.getLast?_concat with hlast | ⟨-, hnumber⟩
      · obtain ⟨b', hbytes, hplain⟩ :=
          exists_plainByte (hbefore last (List.mem_append_right _ List.mem_cons_self)) hlast
        rw [htake, getLast?_join List.getLast?_concat hbytes] at hb
        rw [← Option.some.inj hb, hplain] at hname
        cases hname
      · exact hnumber
  · rw [hamid.stop, Position.line_pastAll _ hword, ← hamid.literal, List.count_eq_zero.2 hfeed,
      Nat.add_zero]
  · rw [hamid.stop, Position.column_pastAll _ hcodes, hamid.literal]
    exact Nat.add_le_add_left (length_le_join hword) _

namespace Isolated

variable {after : Bytes} {place : Place}

theorem lineAt (h : Isolated source t after) (ht : t ∈ tokenize source)
    (hline : place.line + 1 = t.start.line) : Document.lineAt? source place =
      some (Bytes.lastLine (source.take t.start.offset) ++
        (t.literal ++ after.takeWhile (· ≠ 0x0A))) := by
  have hcount : place.line = (source.take t.start.offset).count 0x0A := by
    have hcounted := (in_of_mem_tokenize ht).1.counted.line
    omega
  have hfirst : (t.literal ++ after).takeWhile (· ≠ 0x0A) =
      t.literal ++ after.takeWhile (· ≠ 0x0A) :=
    List.takeWhile_append_of_pos fun b hb => decide_eq_true (ne_of_mem_of_not_mem hb h.noLineFeed)
  rw [Document.lineAt?, hcount, ← hfirst, ← Bytes.line_append, ← h.split]

/-- What is found next to a name of name bytes is the name, and the name bytes before it. -/
theorem wordAt_eq (h : Isolated source t after) (ht : t ∈ tokenize source)
    (hname : ∀ b ∈ t.literal, isNameByte b = true) (hline : place.line + 1 = t.start.line) {n : Nat}
    (hn : n ≤ t.literal.length)
    (hcharacter : place.character = (Bytes.lastLine (source.take t.start.offset)).length + n) :
    Document.wordAt source place =
      (source.take t.start.offset).rtakeWhile isNameByte ++ t.literal := by
  have hright : (after.takeWhile (· ≠ 0x0A)).takeWhile isNameByte = [] := by
    refine Document.takeWhile_eq_nil fun b hb => h.next b ?_
    cases after with
    | nil => exact hb
    | cons b' rest =>
      rw [List.takeWhile_cons] at hb
      split at hb
      · exact hb
      · cases hb
  rw [Document.wordAt_eq (h.lineAt ht hline), hcharacter, word_around hname hn, hright,
    List.append_nil, Document.rtakeWhile_lastLine]

end Isolated

/-! ## Answers -/

/-- A question about the document is answered with the range. -/
def Document.Reports (d : Document) (range : PlaceRange) : Prop :=
  ∃ uri place, d.definition? uri place = some ⟨uri, range⟩ ∨
    ∃ declarations locations, d.references? uri place declarations = some locations ∧
      ⟨uri, range⟩ ∈ locations

/-- Questions at the place are about the name, which is that of a variable. -/
structure Document.Resolves (d : Document) (place : Place) (name : Bytes) : Prop where
  word : wordAt d.text place = name
  hover : d.hover? place = if Analysis.spansOf name d.analysis.assignments = [] then none
    else some (globalText d.analysis name (Analysis.spansOf name d.analysis.assignments))
  definition : ∀ uri, d.definition? uri place = definitionOf? d.analysis uri name
  references : ∀ uri declarations, d.references? uri place declarations =
    some (referencesOf d.analysis uri name declarations)

theorem Document.resolves_of_word {d : Document} {place : Place} {name : Bytes}
    (hword : wordAt d.text place = name) (hne : name ≠ [])
    (hplain : TokenKind.ofWord? name = none) : d.Resolves place name := by
  refine ⟨hword, ?_, fun uri => by rw [definition?, hword], fun uri declarations => ?_⟩
  · rw [hover?, hword, hplain]
    dsimp only
    cases Analysis.spansOf name d.analysis.assignments <;> rfl
  · rw [references?, hword]
    cases name with
    | nil => exact absurd rfl hne
    | cons => rfl

/-- The places of the range, its end among them. -/
def PlaceRange.Touches (range : PlaceRange) (place : Place) : Prop :=
  toLex (range.start.line, range.start.character) ≤ toLex (place.line, place.character) ∧
    toLex (place.line, place.character) ≤ toLex (range.stop.line, range.stop.character)

instance (range : PlaceRange) (place : Place) : Decidable (range.Touches place) :=
  inferInstanceAs (Decidable (_ ∧ _))

/-- No name is a reserved word. -/
theorem ofWord?_of_identifier (ht : t ∈ tokenize source) (hk : t.kind = .identifier) :
    TokenKind.ofWord? t.literal = none := by
  rcases (cuts_tokenize source).covered t ht with ⟨heof, -⟩ | ⟨-, _, covered, _, -, -, -, hspells⟩
  · exact nomatch hk.symm.trans heof
  · rw [hk] at hspells
    exact List.find?_eq_none.2 fun word hword => by simpa using hspells.2 word hword

/-- The ranges that are listed for a name are those of its tokens. -/
theorem exists_token_of_spansOf {script : Script} (h : parse source = .ok script) {name : Bytes}
    {span : Span} (hspan : span ∈ Analysis.spansOf name (Analysis.ofScript script).assignments ∨
      span ∈ Analysis.spansOf name (Analysis.ofScript script).references) :
    ∃ u ∈ tokenize source, u.literal = name ∧ u.span = span := by
  obtain ⟨hassignments, hreferences⟩ := occurrences_of_parse h
  rw [hassignments, hreferences, spansOf_occurrences, spansOf_occurrences] at hspan
  have hsite {assigned : Bool} (hmem : span ∈ sites assigned name (tokenize source)) :
      ∃ u ∈ tokenize source, u.literal = name ∧ u.span = span := by
    obtain ⟨u, hu, rfl⟩ := List.mem_map.1 hmem
    exact ⟨u, (sites_sublist assigned name _).subset hu, by simpa using (List.mem_filter.1 hu).2,
      rfl⟩
  exact hspan.elim hsite hsite

/-- Two tokens with the same range are the same. -/
theorem eq_of_ofSpan {u : Token} (ht : t ∈ tokenize source) (hu : u ∈ tokenize source)
    (h : PlaceRange.ofSpan u.span = PlaceRange.ofSpan t.span) : u = t := by
  have hin := (in_of_mem_tokenize ht).1
  have hin' := (in_of_mem_tokenize hu).1
  have hpos := hin.pos
  have hpos' := hin'.pos
  have hplace : Place.ofColumn u.start.line u.start.column =
      Place.ofColumn t.start.line t.start.column := congrArg PlaceRange.start h
  obtain ⟨hline, hcolumn⟩ := Place.mk.inj hplace
  have hline : u.start.line = t.start.line := by omega
  have hcolumn : u.start.column = t.start.column := by omega
  refine eq_of_start (starts_tokenize source) hu ht (hin'.eq_of_place hin ?_)
  rw [Position.place, Position.place, hline, hcolumn]

/-- The range of a name is reported only if the name is found at some place. -/
theorem exists_wordAt_of_reports {script : Script} (h : parse source = .ok script)
    (ht : t ∈ tokenize source) (hreported : (Document.ofText source).Reports (.ofSpan t.span)) :
    ∃ place, Document.wordAt source place = t.literal := by
  obtain ⟨uri, place, hanswer⟩ := hreported
  refine ⟨place, ?_⟩
  have hanalysis := Document.analysis_ofText h
  generalize hword : Document.wordAt source place = word
  have hspan : ∃ span, (span ∈ Analysis.spansOf word (Analysis.ofScript script).assignments ∨
      span ∈ Analysis.spansOf word (Analysis.ofScript script).references) ∧
      PlaceRange.ofSpan span = .ofSpan t.span := by
    have htext : Document.wordAt (Document.ofText source).text place = word := hword
    rcases hanswer with hdefinition | ⟨declarations, locations, hreferences, hmem⟩
    · rw [Document.definition?, htext, hanalysis, definitionOf?, Option.map_eq_some_iff]
        at hdefinition
      obtain ⟨span, hspan, hrange⟩ := hdefinition
      exact ⟨span, .inl (List.mem_of_mem_head? hspan), (Location.mk.inj hrange).2⟩
    · rw [Document.references?, htext, hanalysis] at hreferences
      split at hreferences
      · cases hreferences
      · obtain rfl := Option.some.inj hreferences
        obtain ⟨span, hspan, hrange⟩ := List.mem_map.1 hmem
        refine ⟨span, ?_, (Location.mk.inj hrange).2⟩
        rcases List.mem_append.1 (List.mem_mergeSort.1 hspan) with hspan | hspan
        · split at hspan
          · exact .inl hspan
          · cases hspan
        · exact .inr hspan
  obtain ⟨span, hlisted, hrange⟩ := hspan
  obtain ⟨u, hu, rfl, rfl⟩ := exists_token_of_spansOf h hlisted
  rw [eq_of_ofSpan ht hu hrange]

/-- A place of the range of a name is next to a byte of the name, if there are as many bytes as
characters before the name on its line. -/
theorem PlaceRange.Touches.exists_character {after : Bytes} {place : Place}
    (h : (PlaceRange.ofSpan t.span).Touches place) (hname : Isolated source t after)
    (ht : t ∈ tokenize source)
    (hcolumn : t.start.column = 1 + (Bytes.lastLine (source.take t.start.offset)).length) :
    place.line + 1 = t.start.line ∧ ∃ n ≤ t.literal.length,
      place.character = (Bytes.lastLine (source.take t.start.offset)).length + n := by
  have hpos := (in_of_mem_tokenize ht).1.pos
  have hline := hname.line
  have hwidth := hname.column
  have hstart : t.start.line - 1 < place.line ∨
      t.start.line - 1 = place.line ∧ t.start.column - 1 ≤ place.character :=
    Prod.Lex.toLex_le_toLex.1 h.1
  have hstop : place.line < t.stop.line - 1 ∨
      place.line = t.stop.line - 1 ∧ place.character ≤ t.stop.column - 1 :=
    Prod.Lex.toLex_le_toLex.1 h.2
  refine ⟨by omega, place.character - (Bytes.lastLine (source.take t.start.offset)).length, ?_, ?_⟩
  · omega
  · omega

/-- The range of a name is reported. If the name has as many bytes as characters before it on its
line, then questions at any place of this range are about the name, unless a number ends where the
name starts. -/
theorem name_within_range {source : Bytes} {script : Script} (h : parse source = .ok script)
    {t : Token} (ht : t ∈ tokenize source) (hk : t.kind = .identifier)
    (hreported : (Document.ofText source).Reports (.ofSpan t.span))
    (hcolumn : t.start.column = 1 + (Bytes.lastLine (source.take t.start.offset)).length) :
    ∀ place, (PlaceRange.ofSpan t.span).Touches place →
      ((Document.ofText source).Resolves place t.literal ↔
        ∀ n ∈ tokenize source, n.kind = .number → n.stop ≠ t.start) := by
  intro place htouches
  obtain ⟨asked, hasked⟩ := exists_wordAt_of_reports h ht hreported
  have hbytes : ∀ b ∈ t.literal, isNameByte b = true := fun b hb =>
    Document.isNameByte_of_mem_wordAt (hasked ▸ hb)
  obtain ⟨after, hname⟩ := exists_isolated (noErrors_of_parse h) ht hk
  obtain ⟨hline, n, hn, hcharacter⟩ := htouches.exists_character hname ht hcolumn
  have hword := hname.wordAt_eq ht hbytes hline hn hcharacter
  constructor
  · rintro hresolves number hnumber hkind hstop
    have hfound : Document.wordAt source place = t.literal := hresolves.word
    have hnil : (source.take t.start.offset).rtakeWhile isNameByte = [] :=
      List.append_left_eq_self.1 (hword.symm.trans hfound)
    obtain ⟨b, hb, hdigit⟩ := exists_nameByte_of_number hnumber hkind
    rw [hstop] at hb
    rw [Document.rtakeWhile_eq_nil.1 hnil b hb] at hdigit
    cases hdigit
  · intro hapart
    have hnil : (source.take t.start.offset).rtakeWhile isNameByte = [] := by
      refine Document.rtakeWhile_eq_nil.2 fun b hb => Bool.eq_false_iff.2 fun hdigit => ?_
      obtain ⟨number, hnumber, hkind, hstop⟩ := hname.previous b hb hdigit
      exact hapart number hnumber hkind hstop
    rw [hnil, List.nil_append] at hword
    exact Document.resolves_of_word hword (literal_of_identifier ht hk).1
      (ofWord?_of_identifier ht hk)

/-- A name with a character of two bytes, in the line below another such character. -/
theorem name_within_range_of_wide_name : ∃ script t,
    parse "print 'é'\nprint 1 ê1 := 2" = .ok script ∧
      t ∈ tokenize "print 'é'\nprint 1 ê1 := 2" ∧ t.kind = .identifier ∧ t.literal = "ê1" ∧
      (Document.ofText "print 'é'\nprint 1 ê1 := 2").Reports (.ofSpan t.span) ∧
      ∀ place, (PlaceRange.ofSpan t.span).Touches place →
        (Document.ofText "print 'é'\nprint 1 ê1 := 2").Resolves place t.literal := by
  have ht : ⟨.identifier, "ê1", ⟨19, 2, 9⟩, ⟨22, 2, 11⟩⟩ ∈
      tokenize "print 'é'\nprint 1 ê1 := 2" := by decide +kernel
  have hreported : (Document.ofText "print 'é'\nprint 1 ê1 := 2").Reports
      (.ofSpan ⟨⟨19, 2, 9⟩, ⟨22, 2, 11⟩⟩) := ⟨[], ⟨1, 8⟩, .inl (by decide +kernel)⟩
  have hok : (parse "print 'é'\nprint 1 ê1 := 2").isOk = true := by decide +kernel
  obtain ⟨script, hparse⟩ := exists_tree_of_isOk hok
  have hiff := name_within_range hparse ht rfl hreported (by decide +kernel)
  exact ⟨script, _, hparse, ht, rfl, rfl, hreported, fun place htouches =>
    (hiff place htouches).2 (by decide +kernel)⟩

/-- The script has a name that is not found at some place of the range reported for it. -/
def Misses (source : Bytes) : Prop :=
  ∃ script t place, parse source = .ok script ∧ t ∈ tokenize source ∧ t.kind = .identifier ∧
    (Document.ofText source).Reports (.ofSpan t.span) ∧
    (PlaceRange.ofSpan t.span).Touches place ∧ Document.wordAt source place ≠ t.literal

/-- A range that is reported may start in what stands before the name, if a character of more than
one byte does so on its line, and what is found there may start with a number. -/
theorem name_missed_within_range :
    Misses "print 'é' x := 1\nprint x" ∧ Misses "print 1x := 1\nprint x" := by
  have hfirst : (parse "print 'é' x := 1\nprint x").isOk = true := by decide +kernel
  have hsecond : (parse "print 1x := 1\nprint x").isOk = true := by decide +kernel
  constructor
  · obtain ⟨script, hparse⟩ := exists_tree_of_isOk hfirst
    exact ⟨script, ⟨.identifier, "x", ⟨11, 1, 11⟩, ⟨12, 1, 12⟩⟩, ⟨0, 10⟩, hparse, by decide +kernel,
      rfl, ⟨[], ⟨1, 6⟩, .inl (by decide +kernel)⟩, by decide +kernel, by decide +kernel⟩
  · obtain ⟨script, hparse⟩ := exists_tree_of_isOk hsecond
    exact ⟨script, ⟨.identifier, "x", ⟨7, 1, 8⟩, ⟨8, 1, 9⟩⟩, ⟨0, 7⟩, hparse, by decide +kernel,
      rfl, ⟨[], ⟨1, 6⟩, .inl (by decide +kernel)⟩, by decide +kernel, by decide +kernel⟩

end Editor

end Scriptlet
