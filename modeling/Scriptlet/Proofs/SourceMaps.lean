import Mathlib.Algebra.Order.Ring.Int
import Mathlib.Data.List.Basic
import Scriptlet.Proofs.Code

/-!
# Source maps

An instruction comes from the line that was marked last before it. `Program.Ordered` is what every
source map keeps : its entries stand at places of the code, one behind the other. So a step changes
no line of the instructions there are, and a new instruction gets the current line
(`Program.lines_foldl`). If the marked lines do not go back (`Emission.Ascends`), the lines of the
map rise (`Program.rising_foldl`).
-/

namespace Scriptlet

/-! ## The entries of a source map -/

namespace Program

variable {p : Program} {i : Instruction} {line column : Int} {e : SourceLocation}

/-- The line of the last entry, if there is one. -/
def currentLine? (p : Program) : Option Int := p.sourceMap.toList.getLast?.map (·.line)

/-- The line of the last entry, zero if there is none. -/
def currentLine (p : Program) : Int := (p.sourceMap.toList.getLast?.map (·.line)).getD 0

/-- The entries that have an instruction. -/
def seated (p : Program) : List SourceLocation :=
  p.sourceMap.toList.filter fun e => e.pc < (p.code.size : Int)

/-- The lines of the instructions. -/
def lines (p : Program) : List Int :=
  (List.range p.code.size).map fun k : Nat => p.lineOf (k : Int)

/-- The entries stand one behind the other, at instructions or at the end of the code. -/
structure Ordered (p : Program) : Prop where
  pairwise : p.sourceMap.toList.Pairwise fun a b => a.pc < b.pc
  inside : ∀ e ∈ p.sourceMap.toList, 0 ≤ e.pc ∧ e.pc ≤ p.code.size

/-- Each entry has a greater line than those before it. -/
def Rising (p : Program) : Prop := p.sourceMap.toList.Pairwise fun a b => a.line < b.line

theorem ordered_empty (name : Bytes) : Ordered { name := name } := ⟨.nil, nofun⟩

/-- In a rising map the last line is the greatest. -/
theorem le_currentLine (h : p.Rising) (he : e ∈ p.sourceMap.toList) : e.line ≤ p.currentLine := by
  rcases List.eq_nil_or_concat' p.sourceMap.toList with hnil | ⟨kept, last, hkept⟩
  · rw [hnil] at he
    cases he
  · have hlast : p.currentLine = last.line := by
      rw [currentLine, hkept, List.getLast?_concat]
      rfl
    rw [Rising, hkept, List.pairwise_append] at h
    rw [hkept] at he
    rw [hlast]
    rcases List.mem_append.1 he with he | he
    · exact (h.2.2 e he last List.mem_cons_self).le
    · rw [List.mem_singleton.1 he]

/-! ### Marks -/

/-- A mark for the line of the last entry is left out. Any other is a new entry, in the place of one
that waits for its instruction. -/
theorem locate_cases (h : p.Ordered) (line column : Int) :
    (p.locate line column = p ∧ p.currentLine? = some line) ∨ p.currentLine? ≠ some line ∧
      (p.locate line column).sourceMap.toList = p.seated ++ [⟨p.code.size, line, column⟩] := by
  rw [locate, seated, currentLine?, Array.getLast?_toList]
  cases hback : p.sourceMap.back? with
  | none =>
    have hempty : p.sourceMap = #[] := Array.back?_eq_none_iff.1 hback
    exact .inr ⟨nofun, by simp [hempty]⟩
  | some last =>
    have hlast : p.sourceMap.toList.getLast? = some last := by rw [Array.getLast?_toList, hback]
    obtain ⟨kept, hkept⟩ := List.getLast?_eq_some_iff.1 hlast
    have hinside := (h.inside last (hkept ▸ List.mem_append_right _ List.mem_cons_self)).2
    have hall : kept.filter (fun e => e.pc < (p.code.size : Int)) = kept := by
      refine List.filter_eq_self.2 fun e he => decide_eq_true ?_
      have hbefore := (List.pairwise_append.1 (hkept ▸ h.pairwise)).2.2 e he last List.mem_cons_self
      exact hbefore.trans_le hinside
    dsimp only
    split
    next hline => exact .inl ⟨rfl, congrArg some hline⟩
    next hline =>
      have hne : some last.line ≠ some line := fun heq => hline (Option.some.inj heq)
      rw [hkept, List.filter_append, hall]
      split
      next hpc => exact .inr ⟨hne, by simp [hkept, hpc]⟩
      next hpc =>
        have hlt : last.pc < p.code.size := by omega
        exact .inr ⟨hne, by simp [hkept, hlt]⟩

/-- A mark keeps the order of the entries. -/
theorem ordered_locate (h : p.Ordered) (line column : Int) : (p.locate line column).Ordered := by
  rcases locate_cases h line column with ⟨heq, -⟩ | ⟨-, hmap⟩
  · rwa [heq]
  · constructor
    · rw [hmap]
      refine List.pairwise_append.2 ⟨h.pairwise.filter _, List.pairwise_singleton _ _, ?_⟩
      intro e he b hb
      rw [List.mem_singleton.1 hb]
      exact of_decide_eq_true (List.mem_filter.1 he).2
    · rw [hmap, code_locate]
      refine List.forall_mem_append.2 ⟨fun e he => h.inside e (List.mem_filter.1 he).1, ?_⟩
      exact List.forall_mem_singleton.2 ⟨Int.natCast_nonneg _, le_rfl⟩

/-- The line that was marked last is current, whether or not its mark was left out. -/
theorem currentLine?_locate (h : p.Ordered) (line column : Int) :
    (p.locate line column).currentLine? = some line := by
  rcases locate_cases h line column with ⟨heq, hline⟩ | ⟨-, hmap⟩
  · rwa [heq]
  · rw [currentLine?, hmap, List.getLast?_concat]
    rfl

theorem currentLine_locate (h : p.Ordered) (line column : Int) :
    (p.locate line column).currentLine = line :=
  congrArg (Option.getD · 0) (currentLine?_locate h line column)

/-- A mark is not seated before its instruction comes. -/
theorem seated_locate (h : p.Ordered) (line column : Int) :
    (p.locate line column).seated = p.seated := by
  rcases locate_cases h line column with ⟨heq, -⟩ | ⟨-, hmap⟩
  · rw [heq]
  · rw [seated, hmap, code_locate, List.filter_append, seated, List.filter_filter]
    simp

/-- A mark changes nothing for the instructions before it. -/
theorem lineOf_locate (h : p.Ordered) (line column : Int) {k : Nat} (hk : k < p.code.size) :
    (p.locate line column).lineOf k = p.lineOf k := by
  rcases locate_cases h line column with ⟨heq, -⟩ | ⟨-, hmap⟩
  · rw [heq]
  · have hnew : ¬((p.code.size : Int) ≤ k) := by omega
    have hsame (e : SourceLocation) : e.pc < (p.code.size : Int) ∧ e.pc ≤ k ↔ e.pc ≤ k := by
      omega
    rw [lineOf, lineOf, locationOf?, locationOf?, hmap, List.reverse_concat,
      List.find?_cons_of_neg (by simpa using hnew), seated, ← List.filter_reverse,
      List.find?_filter]
    simp only [decide_eq_true_eq, hsame]

theorem lines_locate (h : p.Ordered) (line column : Int) :
    (p.locate line column).lines = p.lines := by
  rw [lines, lines, code_locate]
  exact List.map_congr_left fun k hk => lineOf_locate h line column (List.mem_range.1 hk)

/-- The lines go on rising if the mark does not go back. -/
theorem rising_locate (h : p.Ordered) (hrising : p.Rising) (hline : p.currentLine ≤ line)
    (column : Int) : (p.locate line column).Rising := by
  rcases locate_cases h line column with ⟨heq, -⟩ | ⟨hne, hmap⟩
  · rwa [heq]
  · rw [Rising, hmap]
    refine List.pairwise_append.2 ⟨hrising.filter _, List.pairwise_singleton _ _, ?_⟩
    intro e he b hb
    rw [List.mem_singleton.1 hb]
    have hmem := (List.mem_filter.1 he).1
    have hle := le_currentLine hrising hmem
    obtain ⟨last, hlast⟩ := Option.isSome_iff_exists.1
      (List.getLast?_isSome.2 (List.ne_nil_of_mem hmem))
    have hcurrent : p.currentLine = last.line := by
      rw [currentLine, hlast]
      rfl
    have hlastne : last.line ≠ line := by
      rintro rfl
      exact hne (congrArg (Option.map _) hlast)
    dsimp only
    omega

/-! ### Instructions -/

theorem size_emit (p : Program) (i : Instruction) : (p.emit i).code.size = p.code.size + 1 :=
  Array.size_push i

theorem ordered_emit (h : p.Ordered) (i : Instruction) : (p.emit i).Ordered := by
  refine ⟨h.pairwise, fun e he => ?_⟩
  obtain ⟨hpos, hle⟩ := h.inside e he
  rw [size_emit]
  exact ⟨hpos, by omega⟩

/-- An instruction seats the entry that waits for it. -/
theorem seated_emit (h : p.Ordered) (i : Instruction) :
    (p.emit i).seated = p.sourceMap.toList := by
  refine List.filter_eq_self.2 fun e he => decide_eq_true ?_
  have hle := (h.inside e he).2
  rw [size_emit]
  omega

/-- The next instruction comes from the current line. -/
theorem lineOf_size (h : p.Ordered) : p.lineOf p.code.size = p.currentLine := by
  rw [lineOf, locationOf?, currentLine, ← List.head?_reverse]
  congr 2
  cases hmap : p.sourceMap.toList.reverse with
  | nil => rfl
  | cons e rest =>
    have he : e ∈ p.sourceMap.toList := List.mem_reverse.1 (hmap ▸ List.mem_cons_self)
    exact List.find?_cons_of_pos (decide_eq_true (h.inside e he).2)

/-- An instruction has the current line. -/
theorem lines_emit (h : p.Ordered) (i : Instruction) :
    (p.emit i).lines = p.lines ++ [p.currentLine] := by
  rw [lines, size_emit, List.range_succ, List.map_append, List.map_singleton, ← lineOf_size h]
  rfl

/-! ### Lines -/

theorem lineOf_mem_lines {k : Nat} (hk : k < p.code.size) : p.lineOf k ∈ p.lines :=
  List.mem_map_of_mem (List.mem_range.2 hk)

theorem lineOf_le (h : p.lines.Pairwise (· ≤ ·)) {j k : Nat} (hjk : j ≤ k) (hk : k < p.code.size) :
    p.lineOf j ≤ p.lineOf k := by
  rcases hjk.eq_or_lt with rfl | hlt
  · exact le_rfl
  · rw [lines, List.pairwise_map, List.pairwise_iff_getElem] at h
    have hle := h j k (by rw [List.length_range]; exact hlt.trans hk)
      (by rwa [List.length_range]) hlt
    rwa [List.getElem_range, List.getElem_range] at hle

/-- A known line comes from an entry. -/
theorem exists_location {k : Int} (h : p.lineOf k ≠ 0) :
    ∃ e ∈ p.sourceMap.toList, p.locationOf? k = some e ∧ e.pc ≤ k ∧ e.line = p.lineOf k := by
  rw [lineOf] at h ⊢
  cases hlocation : p.locationOf? k with
  | none =>
    rw [hlocation] at h
    exact absurd rfl h
  | some e =>
    have hpc := List.find?_some (p := fun e : SourceLocation => decide (e.pc ≤ k)) hlocation
    exact ⟨e, List.mem_reverse.1 (List.mem_of_find?_eq_some hlocation), rfl,
      of_decide_eq_true hpc, rfl⟩

/-- If the first instruction has a known line, the first entry stands there. -/
theorem exists_first (h : p.Ordered) (hfirst : p.lineOf 0 ≠ 0) :
    ∃ first rest, p.sourceMap.toList = first :: rest ∧ first.pc = 0 := by
  obtain ⟨e, he, -, hpc, -⟩ := exists_location hfirst
  obtain ⟨first, rest, hmap⟩ := List.exists_cons_of_ne_nil (List.ne_nil_of_mem he)
  have hinside := (h.inside first (hmap ▸ List.mem_cons_self)).1
  refine ⟨first, rest, hmap, ?_⟩
  rw [hmap] at he
  rcases List.mem_cons.1 he with rfl | he
  · exact le_antisymm hpc hinside
  · have hbefore := List.rel_of_pairwise_cons (hmap ▸ h.pairwise) he
    omega

end Program

/-! ## Steps -/

namespace Emission

/-- The lines that some steps mark. -/
def marks (steps : List Emission) : List Nat :=
  steps.filterMap fun
    | .locate line _ => some line
    | .instruction _ => none

/-- The lines of the instructions among some steps, if the line marked last before is `line`. -/
def lines (line : Int) : List Emission → List Int
  | [] => []
  | .locate line' _ :: rest => lines line' rest
  | .instruction _ :: rest => line :: lines line rest

/-- The line marked last once some steps are done. -/
def lineAfter (line : Int) : List Emission → Int
  | [] => line
  | .locate line' _ :: rest => lineAfter line' rest
  | .instruction _ :: rest => lineAfter line rest

@[simp] theorem marks_nil : marks [] = [] := rfl

@[simp] theorem marks_append (a b : List Emission) : marks (a ++ b) = marks a ++ marks b :=
  List.filterMap_append

@[simp] theorem marks_instruction (i : Instruction) (rest : List Emission) :
    marks (.instruction i :: rest) = marks rest := rfl

@[simp] theorem marks_locate (line column : Nat) (rest : List Emission) :
    marks (.locate line column :: rest) = line :: marks rest := rfl

@[simp] theorem marks_map (is : List Instruction) : marks (is.map .instruction) = [] := by
  induction is with
  | nil => rfl
  | cons i is ih => exact ih

theorem marks_mark (p : Position) : marks p.mark = [p.line].filter (0 < ·) := by
  by_cases h : 0 < p.line <;> simp [Position.mark, h]

/-- Further steps start with the line that was marked last. -/
theorem lines_append (line : Int) (a b : List Emission) :
    lines line (a ++ b) = lines line a ++ lines (lineAfter line a) b := by
  induction a generalizing line with
  | nil => rfl
  | cons step a ih =>
    cases step with
    | locate line' column => exact ih line'
    | instruction i => exact congrArg (line :: ·) (ih line)

theorem length_lines (line : Int) (steps : List Emission) :
    (lines line steps).length = (code steps).length := by
  induction steps generalizing line with
  | nil => rfl
  | cons step steps ih =>
    cases step with
    | locate line' column => exact ih line'
    | instruction i => exact congrArg Nat.succ (ih line)

/-- Behind a mark, each instruction has one of the marked lines. -/
theorem exists_mark_of_mem_lines {steps : List Emission} {line x : Int} (h : x ∈ lines line steps) :
    x = line ∨ ∃ m ∈ marks steps, x = m := by
  induction steps generalizing line with
  | nil => cases h
  | cons step steps ih =>
    cases step with
    | locate line' column =>
      refine .inr ?_
      rcases ih h with rfl | ⟨m, hm, rfl⟩
      · exact ⟨line', List.mem_cons_self, rfl⟩
      · exact ⟨m, List.mem_cons_of_mem _ hm, rfl⟩
    | instruction i =>
      rcases List.mem_cons.1 h with rfl | h
      · exact .inl rfl
      · exact ih h

theorem exists_mark_of_mem_lines_mark {p : Position} (hp : 0 < p.line) {rest : List Emission}
    {line x : Int} (h : x ∈ lines line (p.mark ++ rest)) : ∃ m ∈ marks (p.mark ++ rest), x = m := by
  rw [Position.mark, if_pos hp] at h ⊢
  rcases @exists_mark_of_mem_lines rest _ _ h with rfl | ⟨m, hm, rfl⟩
  · exact ⟨p.line, List.mem_cons_self, rfl⟩
  · exact ⟨m, List.mem_cons_of_mem _ hm, rfl⟩

/-- From the line `line` on, the marked lines do not go back. -/
def Ascends (line : Int) (steps : List Emission) : Prop :=
  (line :: (marks steps).map Nat.cast).Pairwise (· ≤ ·)

theorem Ascends.of_pairwise {steps : List Emission} (h : (marks steps).Pairwise (· ≤ ·)) :
    Ascends 0 steps := by
  refine List.pairwise_cons.2 ⟨fun line hline => ?_, List.pairwise_map.2 (h.imp Int.ofNat_le.2)⟩
  obtain ⟨m, -, rfl⟩ := List.mem_map.1 hline
  exact Int.natCast_nonneg m

theorem Ascends.locate {line : Int} {line' column : Nat} {rest : List Emission}
    (h : Ascends line (.locate line' column :: rest)) : line ≤ line' ∧ Ascends line' rest := by
  obtain ⟨hle, h⟩ := List.pairwise_cons.1 h
  exact ⟨hle _ List.mem_cons_self, h⟩

/-- If the first step is a mark and the marked lines do not go back, all lines are known. -/
theorem lines_pos {p : Position} (hp : 0 < p.line) {line : Int} {rest : List Emission}
    (h : Ascends line (p.mark ++ rest)) : ∀ x ∈ lines line (p.mark ++ rest), 0 < x := by
  intro x hx
  obtain ⟨m, hm, rfl⟩ := exists_mark_of_mem_lines_mark hp hx
  rw [Position.mark, if_pos hp] at h hm
  have hp : (0 : Int) < p.line := Int.natCast_pos.2 hp
  rcases List.mem_cons.1 hm with rfl | hm
  · exact hp
  · exact hp.trans_le (List.rel_of_pairwise_cons h.locate.2 (List.mem_map_of_mem hm))

/-- The lines do not go back if the marked ones do not. -/
theorem Ascends.pairwise_lines {steps : List Emission} {line : Int} (h : Ascends line steps) :
    (line :: lines line steps).Pairwise (· ≤ ·) := by
  induction steps generalizing line with
  | nil => exact List.pairwise_singleton _ _
  | cons step steps ih =>
    cases step with
    | locate line' column =>
      obtain ⟨hle, h⟩ := h.locate
      obtain ⟨hall, hrest⟩ := List.pairwise_cons.1 (ih h)
      exact List.pairwise_cons.2 ⟨fun x hx => hle.trans (hall x hx), hrest⟩
    | instruction i =>
      have hrest := ih h
      refine List.pairwise_cons.2 ⟨List.forall_mem_cons.2 ⟨le_rfl, ?_⟩, hrest⟩
      exact (List.pairwise_cons.1 hrest).1

end Emission

namespace Program

variable {p : Program}

/-- Some steps keep the order of the entries, and each instruction among them gets the line that is
marked last before it. -/
theorem lines_foldl (h : p.Ordered) (steps : List Emission) : (steps.foldl add p).Ordered ∧
    (steps.foldl add p).lines = p.lines ++ Emission.lines p.currentLine steps := by
  induction steps generalizing p with
  | nil => exact ⟨h, (List.append_nil _).symm⟩
  | cons step steps ih =>
    cases step with
    | locate line column =>
      have hlines := ih (ordered_locate h line column)
      rwa [lines_locate h, currentLine_locate h] at hlines
    | instruction i =>
      have hlines := ih (ordered_emit h i)
      rw [lines_emit h, List.append_assoc] at hlines
      exact hlines

/-- The lines of the map rise if the marked ones do not go back. -/
theorem rising_foldl (h : p.Ordered) (hrising : p.Rising) {steps : List Emission}
    (hsteps : Emission.Ascends p.currentLine steps) : (steps.foldl add p).Rising := by
  induction steps generalizing p with
  | nil => exact hrising
  | cons step steps ih =>
    cases step with
    | locate line column =>
      obtain ⟨hle, hsteps⟩ := hsteps.locate
      refine ih (ordered_locate h line column) (rising_locate h hrising hle column) ?_
      rwa [add, currentLine_locate h]
    | instruction i => exact ih (ordered_emit h i) hrising hsteps

end Program

end Scriptlet
