import Mathlib.Data.List.DropRight
import Scriptlet.Program.Listing
import Scriptlet.Proofs.Marks
import Scriptlet.Proofs.Wording

/-!
# Lines in listings

Who reads a listing from top to bottom takes the number of the last note as the line of each
instruction (`Listing.read`). A label has no note, and the entry of the source map that stands at it
is passed over. So what is read is not the map but its entries at instructions
(`Program.shownLine`). An entry stands at a label only if a loop starts on its line
(`Program.exists_loop_of_label`).

Main statement : `listing_shows_lines`.
-/

namespace Scriptlet

/-! ## Reading a listing -/

namespace Listing

/-- A decimal digit. -/
def isFigure (b : UInt8) : Bool := isDigit b.toNat

/-- The place of an instruction : the numeral that its line begins with. -/
def place? (line : Bytes) : Option Nat :=
  let figures := line.takeWhile isFigure
  if figures = [] then none else some (ofDecimal figures)

/-- What a note of a line begins with. -/
def noteMark : Bytes := " ; line "

/-- The number in the note that a line ends with. -/
def note? (line : Bytes) : Option Nat :=
  let figures := line.rtakeWhile isFigure
  if figures ≠ [] ∧ noteMark <:+ line.rdropWhile isFigure then some (ofDecimal figures) else none

/-- The text of some lines. -/
def ofLines (lines : List Bytes) : Bytes := lines.flatMap (· ++ "\n")

/-- The instructions of some lines, each with the number of the last note up to it. -/
def read (current : Int) : List Bytes → List (Nat × Int)
  | [] => []
  | line :: rest =>
    match place? line with
    | none => read current rest
    | some pc =>
      let line : Int := ((note? line).map Nat.cast).getD current
      (pc, line) :: read line rest

theorem isFigure_of_digits {s : Bytes} (h : Digits s) : ∀ b ∈ s, isFigure b = true := by
  intro b hb
  have hrange := h b hb
  rw [UInt8.le_iff_toNat_le, UInt8.le_iff_toNat_le] at hrange
  simp only [isFigure, isDigit, Bool.and_eq_true, decide_eq_true_eq]
  exact hrange

/-- Zeros in front change nothing. -/
theorem ofDecimal_zeroPadded (width : Nat) (s : Bytes) :
    ofDecimal (zeroPadded width s) = ofDecimal s := by
  unfold zeroPadded
  generalize width - s.length = n
  induction n with
  | zero => rfl
  | succ n ih =>
    rw [← ih, List.replicate_succ, List.cons_append]
    rfl

theorem place?_append {s : Bytes} (h : Digits s) (hne : s ≠ []) {b : UInt8}
    (hb : isFigure b = false) (rest : Bytes) : place? (s ++ b :: rest) = some (ofDecimal s) := by
  unfold place?
  rw [List.takeWhile_append_of_pos (isFigure_of_digits h), List.takeWhile_cons, hb,
    if_neg Bool.false_ne_true, List.append_nil]
  exact if_neg hne

theorem place?_eq_none {s : Bytes} (h : ∀ b ∈ s.head?, isFigure b = false) : place? s = none := by
  unfold place?
  cases s with
  | nil => rfl
  | cons b s =>
    rw [List.takeWhile_cons, h b rfl, if_neg Bool.false_ne_true]
    exact if_pos rfl

/-- Figures at the end of a text, behind another byte. -/
theorem rtakeWhile_append {s : Bytes} (h : ∀ b ∈ s, isFigure b = true) {b : UInt8}
    (hb : isFigure b = false) (front : Bytes) :
    (front ++ b :: s).rtakeWhile isFigure = s ∧
      (front ++ b :: s).rdropWhile isFigure = front ++ [b] := by
  have hall : ∀ b ∈ s.reverse, isFigure b = true := fun b hb => h b (List.mem_reverse.1 hb)
  have hreverse : (front ++ b :: s).reverse = s.reverse ++ b :: front.reverse := by simp
  rw [List.rtakeWhile, List.rdropWhile, hreverse, List.takeWhile_append_of_pos hall,
    List.dropWhile_append_of_pos hall, List.takeWhile_cons, List.dropWhile_cons, hb]
  simp

theorem note?_append {s : Bytes} (h : Digits s) (hne : s ≠ []) (front : Bytes) :
    note? (front ++ noteMark ++ s) = some (ofDecimal s) := by
  have hmark : noteMark = noteMark.dropLast ++ [0x20] := rfl
  have hline : front ++ noteMark ++ s = (front ++ noteMark.dropLast) ++ 0x20 :: s := by
    rw [hmark]
    simp
  obtain ⟨hfigures, hrest⟩ := rtakeWhile_append (isFigure_of_digits h) (b := 0x20) rfl
    (front ++ noteMark.dropLast)
  unfold note?
  rw [hline, hfigures, hrest, List.append_assoc, ← hmark]
  exact if_pos ⟨hne, List.suffix_append _ _⟩

theorem note?_of_noteless {line : Bytes} (h : 0x3B ∉ line) : note? line = none := by
  refine if_neg fun hnote => h ?_
  exact (List.rdropWhile_prefix _ _).subset (hnote.2.subset (by decide))

theorem note?_of_quote (front : Bytes) : note? (front ++ [0x22]) = none := by
  refine if_neg fun hnote => hnote.1 ?_
  rw [List.rtakeWhile_concat]
  rfl

end Listing

/-! ## The lines of a map -/

/-- The line of the last of some entries up to an instruction, zero if there is none. -/
def lineIn (map : List SourceLocation) (k : Int) : Int :=
  ((map.reverse.find? fun e => e.pc ≤ k).map (·.line)).getD 0

section

variable {map : List SourceLocation} {e : SourceLocation} {k : Int}

/-- The line changes at an instruction with an entry. -/
theorem lineIn_of_mem (h : map.Pairwise fun a b => a.pc < b.pc) (he : e ∈ map) :
    lineIn map e.pc = e.line := by
  obtain ⟨before, after, rfl⟩ := List.append_of_mem he
  have hafter : ∀ a ∈ after, e.pc < a.pc :=
    (List.pairwise_cons.1 (List.pairwise_append.1 h).2.1).1
  have hnone : after.reverse.find? (fun a => decide (a.pc ≤ e.pc)) = none := by
    refine List.find?_eq_none.2 fun a ha => ?_
    have hlt := hafter a (List.mem_reverse.1 ha)
    simpa using hlt
  rw [lineIn, List.reverse_append, List.reverse_cons, List.append_assoc, List.find?_append, hnone]
  simp

/-- And nowhere else. -/
theorem lineIn_of_forall_ne (h : ∀ e ∈ map, e.pc ≠ k) : lineIn map k = lineIn map (k - 1) := by
  have hsame : map.reverse.find? (fun e => decide (e.pc ≤ k)) =
      map.reverse.find? fun e => decide (e.pc ≤ k - 1) := by
    refine List.find?_congr fun e he => ?_
    have hne := h e (List.mem_reverse.1 he)
    rw [decide_eq_decide]
    omega
  rw [lineIn, lineIn, hsame]

/-- The first entry that is not before an instruction stands at it, or no entry does. -/
theorem head?_dropWhile_cases (h : map.Pairwise fun a b => a.pc < b.pc) (k : Int) :
    (∃ e ∈ map, e.pc = k ∧ (map.dropWhile fun e => decide (e.pc < k)).head? = some e) ∨
    (∀ e ∈ map, e.pc ≠ k) ∧
      ∀ e ∈ (map.dropWhile fun e => decide (e.pc < k)).head?, e.pc ≠ k := by
  induction map with
  | nil => exact .inr ⟨nofun, nofun⟩
  | cons a map ih =>
    obtain ⟨ha, hmap⟩ := List.pairwise_cons.1 h
    rcases lt_trichotomy a.pc k with hlt | heq | hgt
    · rw [List.dropWhile_cons_of_pos (by simpa using hlt)]
      rcases ih hmap with ⟨e, he, hpc, hhead⟩ | ⟨hall, hhead⟩
      · exact .inl ⟨e, List.mem_cons_of_mem a he, hpc, hhead⟩
      · exact .inr ⟨List.forall_mem_cons.2 ⟨hlt.ne, hall⟩, hhead⟩
    · rw [List.dropWhile_cons_of_neg (by simpa using heq.ge)]
      exact .inl ⟨a, List.mem_cons_self, heq, rfl⟩
    · rw [List.dropWhile_cons_of_neg (by simpa using hgt.le)]
      refine .inr ⟨List.forall_mem_cons.2 ⟨hgt.ne', fun e he => ?_⟩, fun e he => ?_⟩
      · exact (hgt.trans (ha e he)).ne'
      · exact Option.some.inj he ▸ hgt.ne'

/-- What is dropped first is dropped anyway. -/
theorem dropWhile_dropWhile {j : Int} (hjk : j ≤ k) :
    (map.dropWhile fun e => decide (e.pc < j)).dropWhile (fun e => decide (e.pc < k)) =
      map.dropWhile fun e => decide (e.pc < k) := by
  induction map with
  | nil => rfl
  | cons a map ih =>
    by_cases ha : a.pc < j
    · have hk : a.pc < k := by omega
      rw [List.dropWhile_cons_of_pos (by simpa using ha), ih,
        List.dropWhile_cons_of_pos (by simpa using hk)]
    · rw [List.dropWhile_cons_of_neg (by simpa using ha)]

variable {keep : SourceLocation → Bool}

theorem lineIn_filter : lineIn (map.filter keep) k =
    ((map.reverse.find? fun e => keep e && decide (e.pc ≤ k)).map (·.line)).getD 0 := by
  rw [lineIn, ← List.filter_reverse, List.find?_filter]
  simp only [Bool.decide_and, Bool.decide_eq_true]

/-- An instruction whose entry is kept has the line it had. -/
theorem lineIn_filter_of_kept (he : map.reverse.find? (fun e => decide (e.pc ≤ k)) = some e)
    (hkeep : keep e = true) : lineIn (map.filter keep) k = e.line := by
  obtain ⟨hpc, after, before, hmap, hafter⟩ := List.find?_eq_some_iff_append.1 he
  have hfind : map.reverse.find? (fun e => keep e && decide (e.pc ≤ k)) = some e := by
    refine List.find?_eq_some_iff_append.2 ⟨by rw [hkeep]; exact hpc, after, before, hmap, ?_⟩
    intro e' he'
    rw [Bool.not_and, Bool.or_eq_true]
    exact .inr (hafter e' he')
  rw [lineIn_filter, hfind]
  rfl

/-- Where lines rise, an instruction whose entry is left out has an earlier line. -/
theorem lineIn_filter_lt (hrising : map.Pairwise fun a b => a.line < b.line) (hpos : 0 < e.line)
    (he : map.reverse.find? (fun e => decide (e.pc ≤ k)) = some e) (hkeep : keep e = false) :
    lineIn (map.filter keep) k < e.line := by
  obtain ⟨-, after, before, hmap, hafter⟩ := List.find?_eq_some_iff_append.1 he
  have hbelow : ∀ e' ∈ before, e'.line < e.line := by
    have hdescending := List.pairwise_reverse.2 hrising
    rw [hmap] at hdescending
    exact (List.pairwise_cons.1 (List.pairwise_append.1 hdescending).2.1).1
  rw [lineIn_filter]
  cases hfind : map.reverse.find? (fun e => keep e && decide (e.pc ≤ k)) with
  | none => exact hpos
  | some e' =>
    have hfound := List.find?_some hfind
    obtain ⟨hkept, hpc⟩ := Bool.and_eq_true_iff.1 hfound
    have hmem := List.mem_of_find?_eq_some hfind
    rw [hmap, List.mem_append, List.mem_cons] at hmem
    -- the search for `e` has passed the entries behind it
    rcases hmem with hmem | rfl | hmem
    · have hbehind := hafter e' hmem
      rw [hpc] at hbehind
      cases hbehind
    · rw [hkeep] at hkept
      cases hkept
    · exact hbelow e' hmem

end

namespace Program

variable {p : Program}

/-- The instruction at a place is a label. -/
def isLabelAt (p : Program) (k : Int) : Bool :=
  (p.code[k.toNat]?).any fun i => i.op == Opcode.label.byte

/-- The places of the instructions that a listing shows with their numbers : all but labels. -/
def listed (p : Program) : List Nat :=
  (List.range p.code.size).filter fun k : Nat => !p.isLabelAt k

/-- The entries of the source map that do not stand at labels. -/
def shownMap (p : Program) : List SourceLocation :=
  p.sourceMap.toList.filter fun e => !p.isLabelAt e.pc

/-- The line that the entries at other instructions than labels give. -/
def shownLine (p : Program) (k : Int) : Int := lineIn p.shownMap k

/-- The line shown at a label is the one before it. -/
theorem shownLine_of_label {k : Int} (h : p.isLabelAt k = true) :
    p.shownLine k = p.shownLine (k - 1) := by
  refine lineIn_of_forall_ne fun e he => ?_
  rintro rfl
  have hlabel := (List.mem_filter.1 he).2
  rw [h] at hlabel
  cases hlabel

/-- The line shown at another instruction is the one in its note, if it has one. -/
theorem shownLine_of_not_label (h : p.Ordered) {k : Int} (hk : p.isLabelAt k = false) :
    (∃ e ∈ p.sourceMap.toList, e.pc = k ∧ p.shownLine k = e.line ∧
      (p.sourceMap.toList.dropWhile fun e => decide (e.pc < k)).head? = some e) ∨
    p.shownLine k = p.shownLine (k - 1) ∧
      ∀ e ∈ (p.sourceMap.toList.dropWhile fun e => decide (e.pc < k)).head?, e.pc ≠ k := by
  rcases head?_dropWhile_cases h.pairwise k with ⟨e, he, rfl, hhead⟩ | ⟨hall, hhead⟩
  · refine .inl ⟨e, he, rfl, ?_, hhead⟩
    exact lineIn_of_mem (h.pairwise.filter _) (List.mem_filter.2 ⟨he, by rw [hk]; rfl⟩)
  · refine .inr ⟨lineIn_of_forall_ne fun e he => hall e (List.mem_filter.1 he).1, hhead⟩

/-! ## The lines of a listing -/

theorem place?_instructionLine (i : Instruction) (pc : Nat) (map : List SourceLocation) :
    Listing.place? (instructionLine i pc map) = some pc := by
  have hdigits := digits_zeroPadded (digits_decimal pc) 4
  have hne : zeroPadded 4 (decimal pc) ≠ [] :=
    List.append_ne_nil_of_right_ne_nil _ (decimal_ne_nil pc)
  have hvalue : ofDecimal (zeroPadded 4 (decimal pc)) = pc := by
    rw [Listing.ofDecimal_zeroPadded, ofDecimal_decimal]
  have hblanks : Bytes.ofString "  " = [0x20, 0x20] := rfl
  have hline : ∃ rest, instructionLine i pc map = zeroPadded 4 (decimal pc) ++ 0x20 :: rest := by
    rcases instructionLine_cases i pc map with ⟨e, -, -, hline⟩ | ⟨-, hline⟩
    · rw [hline, padded, instructionFront, hblanks]
      exact ⟨_, by simp only [List.append_assoc]; rfl⟩
    · rw [hline, instructionFront, hblanks]
      exact ⟨_, List.append_assoc _ _ _⟩
  obtain ⟨rest, hrest⟩ := hline
  rw [hrest, Listing.place?_append hdigits hne rfl, hvalue]

/-- An instruction without a note has none that could be read. -/
theorem note?_instructionFront {i : Instruction} (h : Bare i.name) (pc : Nat) :
    Listing.note? (instructionFront i pc) = none := by
  have hplace := (digits_zeroPadded (digits_decimal pc) 4).bare.append
    (Bare.of_bytes rfl : Bare ("  " : String))
  unfold instructionFront
  rcases (textPadded_cases h nameWidth).2 with hbare | ⟨front, hfront⟩
  · exact Listing.note?_of_noteless (hplace.append hbare).noteless
  · rw [hfront, ← List.append_assoc]
    exact Listing.note?_of_quote _

theorem note?_padded (front : Bytes) {line : Int} (h : 0 ≤ line) :
    (Listing.note? (padded instructionWidth front ++ " ; line " ++ decimalInt line)).map Nat.cast =
      some line := by
  obtain ⟨n, rfl⟩ := Int.eq_ofNat_of_zero_le h
  have hnote := Listing.note?_append (digits_decimal n) (decimal_ne_nil n)
    (padded instructionWidth front)
  rw [ofDecimal_decimal] at hnote
  exact congrArg (Option.map Nat.cast) hnote

theorem place?_label (n : Nat) : Listing.place? (labelName n ++ ":") = none := by
  refine Listing.place?_eq_none fun b hb => ?_
  obtain rfl := Option.some.inj hb
  rfl

/-- What names the instructions of a text have : those of labels are numbered, and none holds a
semicolon. -/
structure Named (p : Program) : Prop where
  bare : ∀ i ∈ p.code.toList, Bare i.name
  labels : ∀ i ∈ p.code.toList, i.op = Opcode.label.byte → ∃ n, i.name = labelName n

/-- With its note, or without one, an instruction has the line that is shown at its place. -/
theorem line_of_note (hordered : p.Ordered) (hlines : ∀ e ∈ p.sourceMap.toList, 0 ≤ e.line)
    {i : Instruction} (hi : Bare i.name) {pc : Nat} (h : p.isLabelAt pc = false) :
    ((Listing.note? (instructionLine i pc
      (p.sourceMap.toList.dropWhile fun e => decide (e.pc < (pc : Int))))).map Nat.cast).getD
        (p.shownLine (pc - 1)) = p.shownLine pc := by
  rcases instructionLine_cases i pc
    (p.sourceMap.toList.dropWhile fun e => decide (e.pc < (pc : Int))) with
    ⟨e, hhead, hpc, hline⟩ | ⟨hne, hline⟩
  · rcases shownLine_of_not_label hordered h with ⟨e', he', -, hshown, hhead'⟩ | ⟨-, hne⟩
    · obtain rfl := Option.some.inj (hhead.symm.trans hhead')
      rw [hline, note?_padded _ (hlines e he'), hshown]
      rfl
    · exact absurd hpc (hne e hhead)
  · rcases shownLine_of_not_label hordered h with ⟨e, -, hpc, -, hhead⟩ | ⟨hshown, -⟩
    · exact absurd hpc (hne e hhead)
    · rw [hline, note?_instructionFront hi, hshown]
      rfl

/-- From any place on, what is read of a listing are the lines of the entries that it shows. -/
theorem read_codeLines (hordered : p.Ordered) (hlines : ∀ e ∈ p.sourceMap.toList, 0 ≤ e.line)
    (hnamed : p.Named) : ∀ (code : List Instruction) (pc : Nat) (map : List SourceLocation),
      p.code.toList.drop pc = code →
      (∀ k : Int, pc ≤ k → map.dropWhile (fun e => decide (e.pc < k)) =
        p.sourceMap.toList.dropWhile fun e => decide (e.pc < k)) →
      Listing.read (p.shownLine (pc - 1)) (codeLines pc map code) =
        ((List.range' pc code.length).filter fun k : Nat => !p.isLabelAt k).map
          fun k : Nat => (k, p.shownLine k)
  | [], _, _, _, _ => rfl
  | i :: code, pc, map, hcode, hmap => by
    have hi : p.code[pc]? = some i := by
      have hfirst := congrArg List.head? hcode
      rwa [List.head?_drop, Array.getElem?_toList] at hfirst
    have hmem : i ∈ p.code.toList := List.drop_subset pc _ (hcode ▸ List.mem_cons_self)
    have hrest : p.code.toList.drop (pc + 1) = code := by
      rw [← List.drop_drop, hcode]
      rfl
    have hat : p.isLabelAt pc = (i.op == Opcode.label.byte) := by
      rw [isLabelAt, Int.toNat_natCast, hi]
      rfl
    have hbefore : ((pc + 1 : Nat) : Int) - 1 = pc := by omega
    rw [List.length_cons, List.range'_succ, codeLines]
    split
    next hlabel =>
      have hkind : p.isLabelAt pc = true := by rw [hat, hlabel]; exact beq_self_eq_true _
      obtain ⟨n, hname⟩ := hnamed.labels i hmem hlabel
      have ih := read_codeLines hordered hlines hnamed code (pc + 1) map hrest
        fun k hk => hmap k (by omega)
      rw [hbefore, shownLine_of_label hkind] at ih
      rw [Listing.read, hname, place?_label, List.filter_cons_of_neg (by simp [hkind])]
      exact ih
    next hlabel =>
      have hkind : p.isLabelAt pc = false := by rw [hat, beq_eq_false_iff_ne]; exact hlabel
      have ih := read_codeLines hordered hlines hnamed code (pc + 1)
        (map.dropWhile fun e => decide (e.pc < (pc : Int))) hrest fun k hk => by
          rw [dropWhile_dropWhile (by omega), hmap k (by omega)]
      have hline := line_of_note hordered hlines (hnamed.bare i hmem) hkind
      rw [← hmap pc le_rfl] at hline
      rw [Listing.read, place?_instructionLine, List.filter_cons_of_pos (by simp [hkind]),
        List.map_cons]
      dsimp only
      rw [hline, ← ih, hbefore]

/-- Before the first instruction no line is shown. -/
theorem shownLine_start (h : p.Ordered) : p.shownLine (((0 : Nat) : Int) - 1) = 0 := by
  have hnone :
      p.shownMap.reverse.find? (fun e => decide (e.pc ≤ ((0 : Nat) : Int) - 1)) = none := by
    refine List.find?_eq_none.2 fun e he => ?_
    have hpos := (h.inside e (List.mem_filter.1 (List.mem_reverse.1 he)).1).1
    rw [decide_eq_true_eq]
    omega
  rw [shownLine, lineIn, hnone]
  rfl

/-- The text of a listing after its header. -/
def listingBody (p : Program) : Bytes :=
  Listing.ofLines (codeLines 0 p.sourceMap.toList p.code.toList)

theorem listing_eq (p : Program) :
    p.listing = Listing.ofLines p.headerLines ++ p.listingBody :=
  List.flatMap_append

theorem place?_of_mem_headerLines {line : Bytes} (h : line ∈ p.headerLines) :
    Listing.place? line = none := by
  refine Listing.place?_eq_none fun b hb => ?_
  have hfirst : line = [] ∨ ∃ rest, line = 0x3B :: rest := by
    unfold headerLines at h
    rcases List.mem_append.1 h with h | h
    · split at h
      · cases h
      · exact .inr ⟨_, List.mem_singleton.1 h⟩
    · simp only [List.mem_cons, List.not_mem_nil, or_false] at h
      rcases h with h | h | h
      · exact .inr ⟨_, h⟩
      · exact .inr ⟨_, h⟩
      · exact .inl h
  rcases hfirst with rfl | ⟨rest, rfl⟩
  · cases hb
  · obtain rfl := Option.some.inj hb
    rfl

end Program

/-! ### Cutting a listing into lines -/

theorem splitLines_line {line : Bytes} (h : 0x0A ∉ line) (rest : Bytes) :
    splitLines (line ++ 0x0A :: rest) = line :: splitLines rest := by
  induction line with
  | nil =>
    rw [List.nil_append, splitLines]
    exact if_pos rfl
  | cons b line ih =>
    rw [List.mem_cons, not_or] at h
    rw [List.cons_append, splitLines, if_neg (Ne.symm h.1), ih h.2]

theorem splitLines_ofLines {lines : List Bytes} (h : ∀ line ∈ lines, OneLine line) (rest : Bytes) :
    splitLines (Listing.ofLines lines ++ rest) = lines ++ splitLines rest := by
  induction lines with
  | nil => rfl
  | cons line lines ih =>
    obtain ⟨hline, hlines⟩ := List.forall_mem_cons.1 h
    have hcons : Listing.ofLines (line :: lines) ++ rest =
        line ++ 0x0A :: (Listing.ofLines lines ++ rest) := by
      have hfeed : Bytes.ofString "\n" = [0x0A] := rfl
      rw [Listing.ofLines, List.flatMap_cons, hfeed, List.append_assoc, List.append_assoc]
      rfl
    rw [hcons, splitLines_line hline.unbroken, ih hlines, List.cons_append]

namespace Listing

theorem read_append_header {lines : List Bytes} (h : ∀ line ∈ lines, place? line = none)
    (current : Int) (rest : List Bytes) : read current (lines ++ rest) = read current rest := by
  induction lines with
  | nil => rfl
  | cons line lines ih =>
    obtain ⟨hline, hlines⟩ := List.forall_mem_cons.1 h
    rw [List.cons_append, read, hline]
    exact ih hlines

theorem read_append_blank (current : Int) (lines : List Bytes) :
    read current (lines ++ [[]]) = read current lines := by
  induction lines generalizing current with
  | nil => rfl
  | cons line lines ih =>
    rw [List.cons_append, read, read]
    split
    · exact ih current
    · exact congrArg (List.cons _) (ih _)

end Listing

namespace Program

variable {p : Program}

/-- What is read of a listing are the lines of the entries that it shows. -/
theorem read_listingBody (hordered : p.Ordered) (hlines : ∀ e ∈ p.sourceMap.toList, 0 ≤ e.line)
    (hnamed : p.Named) : Listing.read 0 (splitLines p.listingBody) =
      p.listed.map fun k : Nat => (k, p.shownLine k) := by
  have hsplit : splitLines p.listingBody =
      codeLines 0 p.sourceMap.toList p.code.toList ++ [[]] := by
    have hlines := splitLines_ofLines (oneLine_codeLines hnamed.bare 0 p.sourceMap.toList) []
    rwa [List.append_nil] at hlines
  have hread := read_codeLines hordered hlines hnamed p.code.toList 0 p.sourceMap.toList rfl
    fun _ _ => rfl
  rw [shownLine_start hordered] at hread
  rw [hsplit, Listing.read_append_blank, hread, Array.length_toList, ← List.range_eq_range']
  rfl

/-- The header changes nothing, unless the name of the program breaks it into more lines. -/
theorem read_listing (h : OneLine p.name) :
    Listing.read 0 (splitLines p.listing) = Listing.read 0 (splitLines p.listingBody) := by
  rw [listing_eq, splitLines_ofLines (oneLine_headerLines h), Listing.read_append_header]
  exact fun line hline => place?_of_mem_headerLines hline

end Program

/-! ## Marks before labels -/

namespace Emission

/-- The lines of the marks that stand right before labels, if the line `mark` has just been
marked. -/
def labelMarks : (mark : Option Nat) → List Emission → List Nat
  | _, [] => []
  | _, .locate line _ :: rest => labelMarks (some line) rest
  | mark, .instruction i :: rest =>
    (if i.op = Opcode.label.byte then mark.toList else []) ++ labelMarks none rest

/-- The line that has just been marked once some steps are done. -/
def markAfter : (mark : Option Nat) → List Emission → Option Nat
  | mark, [] => mark
  | _, .locate line _ :: rest => markAfter (some line) rest
  | _, .instruction _ :: rest => markAfter none rest

theorem labelMarks_append (mark : Option Nat) (a b : List Emission) :
    labelMarks mark (a ++ b) = labelMarks mark a ++ labelMarks (markAfter mark a) b := by
  induction a generalizing mark with
  | nil => rfl
  | cons step a ih =>
    cases step with
    | locate line column => exact ih (some line)
    | instruction i =>
      rw [List.cons_append, labelMarks, labelMarks, markAfter, ih, List.append_assoc]

theorem markAfter_append (mark : Option Nat) (a b : List Emission) :
    markAfter mark (a ++ b) = markAfter (markAfter mark a) b := by
  induction a generalizing mark with
  | nil => rfl
  | cons step a ih =>
    cases step with
    | locate line column => exact ih (some line)
    | instruction i => exact ih none

theorem labelMarks_eq_nil {steps : List Emission} (h : ∀ i ∈ code steps, i.op ≠ Opcode.label.byte)
    (mark : Option Nat) : labelMarks mark steps = [] := by
  induction steps generalizing mark with
  | nil => rfl
  | cons step steps ih =>
    cases step with
    | locate line column => exact ih h (some line)
    | instruction i =>
      rw [code_instruction] at h
      obtain ⟨hi, hsteps⟩ := List.forall_mem_cons.1 h
      rw [labelMarks, if_neg hi, ih hsteps]
      rfl

/-- Some steps before which nothing is marked mark only labels that are the tops of loops among the
nodes. No mark is left at their end. -/
structure MarksLoops (ns : List Node) (steps : List Emission) : Prop where
  after : markAfter none steps = none
  loops : ∀ line ∈ labelMarks none steps, ∃ span test body,
    Node.stmt (.loop span test body) ∈ ns ∧ span.start.line = line

namespace MarksLoops

variable {ns ms : List Node} {a b steps : List Emission}

theorem nil : MarksLoops ns [] := ⟨rfl, nofun⟩

theorem append (ha : MarksLoops ns a) (hb : MarksLoops ns b) : MarksLoops ns (a ++ b) := by
  refine ⟨?_, ?_⟩
  · rw [markAfter_append, ha.after, hb.after]
  · rw [labelMarks_append, ha.after]
    exact List.forall_mem_append.2 ⟨ha.loops, hb.loops⟩

theorem mono (h : MarksLoops ns steps) (hsub : ns ⊆ ms) : MarksLoops ms steps := by
  refine ⟨h.after, fun line hline => ?_⟩
  obtain ⟨span, test, body, hmem, hstart⟩ := h.loops line hline
  exact ⟨span, test, body, hsub hmem, hstart⟩

/-- Steps before an instruction that emit no labels. -/
theorem straight (h : ∀ i ∈ code steps, i.op ≠ Opcode.label.byte) {i : Instruction}
    (hi : i.op ≠ Opcode.label.byte) : MarksLoops ns (steps ++ [.instruction i]) := by
  have hcode : ∀ j ∈ code (steps ++ [.instruction i]), j.op ≠ Opcode.label.byte := by
    rw [code_append]
    exact List.forall_mem_append.2 ⟨h, List.forall_mem_singleton.2 hi⟩
  refine ⟨by rw [markAfter_append]; rfl, ?_⟩
  rw [labelMarks_eq_nil hcode]
  exact nofun

/-- An instruction that nothing marks. -/
theorem instruction (i : Instruction) : MarksLoops ns [.instruction i] := by
  refine ⟨rfl, ?_⟩
  rw [labelMarks, labelMarks]
  split <;> exact nofun

end MarksLoops

end Emission

open Emission

theorem Opcode.byte_ne_label (op : Opcode) (h : op ≠ .label) : op.byte ≠ Opcode.label.byte := by
  intro heq
  have hsome := ofByte?_byte op
  rw [heq, ofByte?_byte] at hsome
  exact h (Option.some.inj hsome).symm

/-- The steps of an expression with the instruction after them. -/
theorem Expr.marksLoops_emissions {ns : List Node} {e : Expr} {es : List Emission}
    (h : e.emissions = .ok es) (q : Position) {i : Instruction} (hi : i.op ≠ Opcode.label.byte) :
    MarksLoops ns (q.mark ++ es ++ [.instruction i]) := by
  refine .straight ?_ hi
  rw [code_append, code_mark, List.nil_append, (Expr.code_of_emissions h).2]
  exact fun j hj => (e.straight j hj).1

mutual

/-- A statement marks a label if it is a loop, and inside if a statement in it does. -/
theorem Stmt.marksLoops_emissions : ∀ {s : Stmt} {n m : Nat} {es : List Emission},
    s.emissions n = .ok (es, m) → MarksLoops s.walk es
  | .print _ newline value, n, m, es, h => by
    obtain ⟨vs, hv, h⟩ := exists_ok_of_bind h
    obtain ⟨rfl, rfl⟩ := Prod.mk.inj (Except.ok.inj h)
    exact Expr.marksLoops_emissions hv _ (Opcode.byte_ne_label _ (by cases newline <;> nofun))
  | .assign _ _ _ value, n, m, es, h => by
    obtain ⟨vs, hv, h⟩ := exists_ok_of_bind h
    obtain ⟨rfl, rfl⟩ := Prod.mk.inj (Except.ok.inj h)
    exact Expr.marksLoops_emissions hv _ (Opcode.byte_ne_label .storeGlobal nofun)
  | .expr _ value, n, m, es, h => by
    obtain ⟨vs, hv, h⟩ := exists_ok_of_bind h
    obtain ⟨rfl, rfl⟩ := Prod.mk.inj (Except.ok.inj h)
    exact Expr.marksLoops_emissions hv _ (Opcode.byte_ne_label .pop nofun)
  | .cond span test yes no, n, m, es, h => by
    obtain ⟨ts, ys, ns, k, ht, hy, hn, rfl⟩ := Stmt.emissions_cond h
    have htest : MarksLoops (Stmt.cond span test yes no).walk
        (span.start.mark ++ ts ++ [.instruction (.jumpZero (labelName n))]) :=
      Expr.marksLoops_emissions ht span.start (Opcode.byte_ne_label .jumpZero nofun)
    have hyes : MarksLoops (Stmt.cond span test yes no).walk ys :=
      (Stmt.marksLoops_emissionsOf hy).mono fun node hnode => by simp [Stmt.walk, hnode]
    have hno : MarksLoops (Stmt.cond span test yes no).walk ns :=
      (Stmt.marksLoops_emissionsOf hn).mono fun node hnode => by simp [Stmt.walk, hnode]
    exact (((htest.append hyes).append ((MarksLoops.instruction _).append (.instruction _))).append
      hno).append (.instruction _)
  | .loop span test body, n, m, es, h => by
    obtain ⟨ts, bs, ht, hb, rfl⟩ := Stmt.emissions_loop h
    have htop : MarksLoops (Stmt.loop span test body).walk
        (span.start.mark ++ [.instruction (.label (labelName n))]) := by
      refine ⟨by rw [markAfter_append]; rfl, fun line hline => ?_⟩
      refine ⟨span, test, body, List.mem_cons_self, ?_⟩
      unfold Position.mark at hline
      split at hline
      · exact (List.mem_singleton.1 hline).symm
      · cases hline
    have htest : MarksLoops (Stmt.loop span test body).walk
        (ts ++ [.instruction (.jumpZero (labelName (n + 1)))]) := by
      refine .straight (fun i hi => ?_) (Opcode.byte_ne_label .jumpZero nofun)
      rw [(Expr.code_of_emissions ht).2] at hi
      exact (test.straight i hi).1
    have hbody : MarksLoops (Stmt.loop span test body).walk bs :=
      (Stmt.marksLoops_emissionsOf hb).mono fun node hnode => by simp [Stmt.walk, hnode]
    have hall := ((htop.append htest).append hbody).append
      ((MarksLoops.instruction (.jump (labelName n))).append
        (.instruction (.label (labelName (n + 1)))))
    simpa only [List.append_assoc, List.singleton_append, List.cons_append, List.nil_append]
      using hall

theorem Stmt.marksLoops_emissionsOf : ∀ {ss : List Stmt} {n m : Nat} {es : List Emission},
    Stmt.emissionsOf ss n = .ok (es, m) → MarksLoops (Stmt.walkOf ss) es
  | [], n, m, es, h => by
    obtain ⟨rfl, rfl⟩ := Prod.mk.inj (Except.ok.inj h)
    exact .nil
  | s :: rest, n, m, es, h => by
    obtain ⟨ss, rs, k, hs, hr, rfl⟩ := Stmt.emissionsOf_cons h
    exact ((Stmt.marksLoops_emissions hs).mono (List.subset_append_left _ _)).append
      ((Stmt.marksLoops_emissionsOf hr).mono (List.subset_append_right _ _))

end

namespace Program

variable {p : Program} {e : SourceLocation}

/-- An entry that waits for its instruction has the line marked last. -/
theorem line_of_pending (h : p.Ordered) (he : e ∈ p.sourceMap.toList) (hpc : e.pc = p.code.size) :
    e.line = p.currentLine := by
  have hline : p.lineOf e.pc = e.line := lineIn_of_mem h.pairwise he
  rw [← hline, hpc, lineOf_size h]

/-- Steps change no entry at an instruction that was there before them. -/
theorem mem_of_mem_foldl (h : p.Ordered) (steps : List Emission)
    (he : e ∈ (steps.foldl add p).sourceMap.toList) (hpc : e.pc < p.code.size) :
    e ∈ p.sourceMap.toList := by
  induction steps generalizing p with
  | nil => exact he
  | cons step steps ih =>
    cases step with
    | locate line column =>
      have hmem := ih (ordered_locate h line column) he (by rwa [code_locate])
      rcases locate_cases h line column with ⟨heq, -⟩ | ⟨-, hmap⟩
      · rwa [heq] at hmem
      · rw [hmap, List.mem_append, List.mem_singleton] at hmem
        rcases hmem with hmem | rfl
        · exact (List.mem_filter.1 hmem).1
        · exact absurd hpc (lt_irrefl _)
    | instruction i =>
      have hsize := size_emit p i
      exact ih (p := p.emit i) (ordered_emit h i) he (by omega)

/-- The first instruction of some steps takes the next place. -/
theorem getElem?_foldl_instruction (i : Instruction) (steps : List Emission) :
    (List.foldl add p (.instruction i :: steps)).code[p.code.size]? = some i := by
  rw [← Array.getElem?_toList, code_foldl_add, code_instruction,
    List.getElem?_append_right (by simp), Array.length_toList, Nat.sub_self]
  rfl

/-- An entry at a label comes from a mark right before it. -/
theorem mem_labelMarks (h : p.Ordered) {mark : Option Nat}
    (hmark : ∀ e ∈ p.sourceMap.toList, e.pc = p.code.size →
      ∃ line, mark = some line ∧ e.line = line)
    (steps : List Emission) (he : e ∈ (steps.foldl add p).sourceMap.toList)
    (hpc : p.code.size ≤ e.pc) (hlabel : (steps.foldl add p).isLabelAt e.pc = true) :
    ∃ line ∈ labelMarks mark steps, e.line = line := by
  induction steps generalizing p mark with
  | nil =>
    have hsize : p.code[e.pc.toNat]? = none := Array.getElem?_eq_none (by omega)
    rw [List.foldl_nil, isLabelAt, hsize] at hlabel
    cases hlabel
  | cons step steps ih =>
    cases step with
    | locate line column =>
      have hordered := ordered_locate h line column
      refine ih hordered (fun e he hpc => ⟨line, rfl, ?_⟩) he (by rwa [code_locate]) hlabel
      rw [line_of_pending hordered he hpc]
      exact currentLine_locate h line column
    | instruction i =>
      have hordered := ordered_emit h i
      have hsize := size_emit p i
      rcases hpc.eq_or_lt with heq | hlt
      · have hmem : e ∈ p.sourceMap.toList :=
          mem_of_mem_foldl (p := p.emit i) hordered steps he (by omega)
        obtain ⟨line, rfl, hline⟩ := hmark e hmem heq.symm
        refine ⟨line, ?_, hline⟩
        rw [← heq, isLabelAt, Int.toNat_natCast, getElem?_foldl_instruction] at hlabel
        rw [labelMarks, if_pos (eq_of_beq hlabel)]
        exact List.mem_append_left _ List.mem_cons_self
      · have hnone : ∀ e ∈ (p.emit i).sourceMap.toList, e.pc = (p.emit i).code.size →
            ∃ line, (none : Option Nat) = some line ∧ e.line = line := by
          intro e he hpc
          have hinside := (h.inside e he).2
          omega
        obtain ⟨line, hmem, hline⟩ := ih hordered hnone he (by omega) hlabel
        exact ⟨line, List.mem_append_right _ hmem, hline⟩

end Program

/-! ## Programs of texts -/

section

variable {source name : Bytes} {script : Script} {p : Program}

theorem named_of_compile (hparse : parse source = .ok script) (hp : script.compile name = .ok p) :
    p.Named := by
  have hscript := from_of_parse hparse
  refine ⟨fun i hi => bare_name_of_mem_code hscript hp hi, fun i hi hop => ?_⟩
  obtain ⟨n, -, hname⟩ := labelName_of_mem_code hp hi (.inl hop)
  exact ⟨n, hname⟩

/-- An entry of the source map stands at a label only if a loop starts on its line. -/
theorem exists_loop_of_label (hp : script.compile name = .ok p) {e : SourceLocation}
    (he : e ∈ p.sourceMap.toList) (hlabel : p.isLabelAt e.pc = true) : ∃ span test body,
      Node.stmt (.loop span test body) ∈ (Node.script script).walk ∧
        (span.start.line : Int) = e.line := by
  obtain ⟨steps, m, hbody, rfl⟩ := Script.steps_of_compile hp
  have hmarks : MarksLoops (Node.script script).walk
      (steps ++ script.span.stop.mark ++ [.instruction (.simple .halt)]) := by
    rw [List.append_assoc]
    refine ((Stmt.marksLoops_emissionsOf hbody).mono (List.subset_cons_self _ _)).append ?_
    exact .straight (by simp) (Opcode.byte_ne_label .halt nofun)
  have hempty := Program.ordered_empty name
  have hpos := ((Program.lines_foldl hempty _).1.inside e he).1
  have hnone : ∀ e ∈ ({ name := name } : Program).sourceMap.toList, e.pc = (0 : Nat) →
      ∃ line, (none : Option Nat) = some line ∧ e.line = line := nofun
  obtain ⟨line, hline, heq⟩ := Program.mem_labelMarks hempty hnone _ he hpos hlabel
  obtain ⟨span, test, body, hmem, rfl⟩ := hmarks.loops line hline
  exact ⟨span, test, body, hmem, heq.symm⟩

/-- The lines of all entries are known. -/
theorem line_pos_of_compileSource (h : compileSource name source = .ok p) :
    ∀ e ∈ p.sourceMap.toList, 0 < e.line := by
  obtain ⟨steps, rest, q, hordered, -, hinside, -, hlines, hascends, hq, rfl⟩ :=
    built_of_compileSource h
  intro e he
  have hpc := (hordered.inside e he).1
  have hlt := hinside e he
  have hline : p.lineOf e.pc = e.line := lineIn_of_mem hordered.pairwise he
  have hmem := Program.lineOf_mem_lines (p := p) (k := e.pc.toNat) (by omega)
  rw [Int.toNat_of_nonneg hpc, hline, hlines] at hmem
  exact Emission.lines_pos hq hascends _ hmem

/-- If the line of an instruction comes from an entry at a label, an earlier one is shown. Otherwise
its line is shown. -/
theorem shownLine_cases (hrising : p.Rising) (hpos : ∀ e ∈ p.sourceMap.toList, 0 < e.line)
    {k : Int} {e : SourceLocation} (he : p.locationOf? k = some e) :
    p.isLabelAt e.pc = true ∧ p.shownLine k < p.lineOf k ∨
      p.isLabelAt e.pc = false ∧ p.shownLine k = p.lineOf k := by
  have hline : p.lineOf k = e.line := by
    rw [Program.lineOf, he]
    rfl
  have hmem : e ∈ p.sourceMap.toList := List.mem_reverse.1 (List.mem_of_find?_eq_some he)
  rw [hline]
  cases hlabel : p.isLabelAt e.pc with
  | false => exact .inr ⟨rfl, lineIn_filter_of_kept he (by rw [hlabel]; rfl)⟩
  | true => exact .inl ⟨rfl, lineIn_filter_lt hrising (hpos e hmem) he (by rw [hlabel]; rfl)⟩

end

/-- What is read of the listing of a compiled text, the last note carried forward, are the lines of
the source map, except where the line comes from an entry that stands at a label. Such an entry is
passed over, and an earlier line is read instead. It is the entry of a loop that starts on its line,
so without loops all lines are read. -/
theorem listing_shows_lines {source name : Bytes} {p : Program}
    (h : compileSource name source = .ok p) :
    p.listing = Listing.ofLines p.headerLines ++ p.listingBody ∧
    Listing.read 0 (splitLines p.listingBody) = p.listed.map (fun k : Nat => (k, p.shownLine k)) ∧
    (OneLine name →
      Listing.read 0 (splitLines p.listing) = p.listed.map fun k : Nat => (k, p.shownLine k)) ∧
    (∀ k ∈ p.listed, ∃ e ∈ p.sourceMap.toList, p.locationOf? (k : Nat) = some e ∧
      (p.isLabelAt e.pc = true ∧ p.shownLine (k : Nat) < p.lineOf (k : Nat) ∨
        p.isLabelAt e.pc = false ∧ p.shownLine (k : Nat) = p.lineOf (k : Nat))) ∧
    ∃ script, parse source = .ok script ∧
      ∀ e ∈ p.sourceMap.toList, p.isLabelAt e.pc = true → ∃ span test body,
        Node.stmt (.loop span test body) ∈ (Node.script script).walk ∧
          (span.start.line : Int) = e.line := by
  obtain ⟨script, hparse, hcompile⟩ := exists_script_of_compileSource h
  obtain ⟨steps, rest, q, hordered, hrising, -, -, hlines, hascends, hq, rfl⟩ :=
    built_of_compileSource h
  have hpos := line_pos_of_compileSource h
  have hbody := Program.read_listingBody hordered (fun e he => (hpos e he).le)
    (named_of_compile hparse hcompile)
  refine ⟨p.listing_eq, hbody, fun hname => ?_, fun k hk => ?_, script, hparse,
    fun e he hlabel => exists_loop_of_label hcompile he hlabel⟩
  · rw [Program.read_listing ((header_of_compile hcompile).2 ▸ hname), hbody]
  · have hsize : k < p.code.size := List.mem_range.1 (List.mem_filter.1 hk).1
    have hmem := Program.lineOf_mem_lines hsize
    have hknown : 0 < p.lineOf k := Emission.lines_pos hq hascends _ (hlines ▸ hmem)
    obtain ⟨e, he, hlocation, -⟩ := Program.exists_location hknown.ne'
    exact ⟨e, he, hlocation, shownLine_cases hrising hpos hlocation⟩

/-- Of the two loops here, the outer one starts on a line of its own, and its test is read as if it
stood on the line before. The line of the inner one is that of the assignment before it. -/
theorem listing_shows_lines_of_loops : ∃ p,
    compileSource [] "y := true\nwhile y do\nx := 1 while x do\nx := 0 y := false end end" = .ok p ∧
    Listing.read 0 (splitLines p.listing) = p.listed.map (fun k : Nat => (k, p.shownLine k)) ∧
    (p.listed.map fun k : Nat => (k, p.shownLine k, p.lineOf k)) = [(0, 1, 1), (1, 1, 1), (3, 1, 2),
      (4, 1, 2), (5, 3, 3), (6, 3, 3), (8, 3, 3), (9, 3, 3), (10, 4, 4), (11, 4, 4), (12, 4, 4),
      (13, 4, 4), (14, 4, 4), (16, 4, 4), (18, 4, 4)] := by
  have hlines : (compileSource []
      "y := true\nwhile y do\nx := 1 while x do\nx := 0 y := false end end").toOption.map
      (fun p => p.listed.map fun k : Nat => (k, p.shownLine k, p.lineOf k)) =
        some [(0, 1, 1), (1, 1, 1), (3, 1, 2), (4, 1, 2), (5, 3, 3), (6, 3, 3), (8, 3, 3),
          (9, 3, 3), (10, 4, 4), (11, 4, 4), (12, 4, 4), (13, 4, 4), (14, 4, 4), (16, 4, 4),
          (18, 4, 4)] := by
    decide +kernel
  cases hp : compileSource []
      "y := true\nwhile y do\nx := 1 while x do\nx := 0 y := false end end" with
  | error e =>
    rw [hp] at hlines
    cases hlines
  | ok p =>
    rw [hp] at hlines
    obtain ⟨-, -, hread, -⟩ := listing_shows_lines hp
    exact ⟨p, rfl, hread oneLine_nil, Option.some.inj hlines⟩

/-- A loop on the second line, whose test is read as if it stood on the first. -/
theorem line_of_loop_not_shown : ∃ p, compileSource [] "x := 0\nwhile x do\nend" = .ok p ∧
    3 ∈ p.listed ∧ p.lineOf 3 = 2 ∧ (3, 1) ∈ Listing.read 0 (splitLines p.listing) := by
  have hread : (compileSource [] "x := 0\nwhile x do\nend").toOption.map (fun p =>
      (p.listed.elem 3, p.lineOf 3, (Listing.read 0 (splitLines p.listing)).elem (3, 1))) =
        some (true, 2, true) := by decide +kernel
  cases hp : compileSource [] "x := 0\nwhile x do\nend" with
  | error e =>
    rw [hp] at hread
    cases hread
  | ok p =>
    rw [hp] at hread
    obtain ⟨hlisted, hread⟩ := Prod.mk.inj (Option.some.inj hread)
    obtain ⟨hline, hread⟩ := Prod.mk.inj hread
    exact ⟨p, rfl, List.mem_of_elem_eq_true hlisted, hline, List.mem_of_elem_eq_true hread⟩

end Scriptlet
