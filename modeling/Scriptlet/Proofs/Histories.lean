import Mathlib.Data.List.Chain
import Mathlib.Data.List.Induction
import Scriptlet.Proofs.SourceMaps

/-!
# Programs by their history

A program is built by calls : each adds an instruction or marks a line, in any order, and the marks
may repeat a line, come several at a time or go back. The source map keeps its order through all of
them (`ordered_ofCalls`), its last entry has the line marked last (`currentLine?_ofCalls`), and the
line of an instruction that is there does not change any more (`lineOf_foldl_call`).

Marks without an instruction between them make at most one entry together, for the last of their
lines (`foldl_marks_cases`). They make it as soon as one of them leaves the current line, and keep
it if the last one comes back to that line (`Call.TurnsBack`).

Main statements : an instruction comes from the line that was marked last before it was added
(`source_map_faithful`). No entry has the line of the one before it, unless marks turn back
(`collapsed_iff_no_detour`).
-/

namespace Scriptlet.Program

/-- A call that builds a program. -/
inductive Call where
  | emit (i : Instruction)
  | locate (line column : Int)
  deriving Repr

namespace Call

/-- The instruction that a call adds. -/
def instruction? : Call → Option Instruction
  | emit i => some i
  | locate _ _ => none

/-- The line that a call marks. -/
def line? : Call → Option Int
  | emit _ => none
  | locate line _ => some line

/-- The line marked last by some calls, if one is. -/
def lastLine? (calls : List Call) : Option Int := (calls.filterMap line?).getLast?

/-- The line marked last by some calls, zero if none marks one. -/
def lastLine (calls : List Call) : Int := ((calls.filterMap line?).getLast?).getD 0

theorem lastLine?_emit (calls : List Call) (i : Instruction) :
    lastLine? (calls ++ [.emit i]) = lastLine? calls := by
  rw [lastLine?, List.filterMap_append]
  exact congrArg List.getLast? (List.append_nil _)

theorem lastLine?_locate (calls : List Call) (line column : Int) :
    lastLine? (calls ++ [.locate line column]) = some line := by
  rw [lastLine?, List.filterMap_append]
  exact List.getLast?_concat

end Call

/-- The program after a call. -/
def call (p : Program) : Call → Program
  | .emit i => p.emit i
  | .locate line column => p.locate line column

/-- The program that some calls build. -/
def ofCalls (name : Bytes) (calls : List Call) : Program := calls.foldl call { name := name }

variable {p : Program} {name : Bytes}

theorem ofCalls_append (name : Bytes) (a b : List Call) :
    ofCalls name (a ++ b) = b.foldl call (ofCalls name a) := List.foldl_append

theorem ofCalls_concat (name : Bytes) (calls : List Call) (c : Call) :
    ofCalls name (calls ++ [c]) = (ofCalls name calls).call c := ofCalls_append name calls [c]

theorem code_ofCalls (name : Bytes) (calls : List Call) :
    (ofCalls name calls).code.toList = calls.filterMap Call.instruction? := by
  induction calls using List.reverseRecOn with
  | nil => rfl
  | append_singleton calls c ih =>
    rw [ofCalls_concat, List.filterMap_append, ← ih]
    cases c with
    | emit i => exact Array.toList_push
    | locate line column =>
      rw [call, code_locate]
      exact (List.append_nil _).symm

/-! ## What a call keeps -/

theorem ordered_call (h : p.Ordered) : ∀ c : Call, (p.call c).Ordered
  | .emit i => ordered_emit h i
  | .locate line column => ordered_locate h line column

/-- The source map keeps its order whatever is called. -/
theorem ordered_foldl_call (h : p.Ordered) (calls : List Call) : (calls.foldl call p).Ordered := by
  induction calls generalizing p with
  | nil => exact h
  | cons c calls ih => exact ih (ordered_call h c)

theorem ordered_ofCalls (name : Bytes) (calls : List Call) : (ofCalls name calls).Ordered :=
  ordered_foldl_call (ordered_empty name) calls

/-- The last entry has the line that was marked last, though it may be older than the last mark. -/
theorem currentLine?_ofCalls (name : Bytes) (calls : List Call) :
    (ofCalls name calls).currentLine? = Call.lastLine? calls := by
  induction calls using List.reverseRecOn with
  | nil => rfl
  | append_singleton calls c ih =>
    rw [ofCalls_concat]
    cases c with
    | emit i => exact ih.trans (Call.lastLine?_emit calls i).symm
    | locate line column =>
      rw [Call.lastLine?_locate]
      exact currentLine?_locate (ordered_ofCalls name calls) line column

theorem currentLine_ofCalls (name : Bytes) (calls : List Call) :
    (ofCalls name calls).currentLine = Call.lastLine calls :=
  congrArg (Option.getD · 0) (currentLine?_ofCalls name calls)

theorem size_le_call (p : Program) : ∀ c : Call, p.code.size ≤ (p.call c).code.size
  | .emit i => by rw [call, size_emit]; exact Nat.le_succ _
  | .locate line column => by rw [call, code_locate]

theorem lineOf_call (h : p.Ordered) {k : Nat} (hk : k < p.code.size) :
    ∀ c : Call, (p.call c).lineOf k = p.lineOf k
  | .emit _ => rfl
  | .locate line column => lineOf_locate h line column hk

/-- The line of an instruction stays what it is. -/
theorem lineOf_foldl_call {k : Nat} (calls : List Call) (h : p.Ordered) (hk : k < p.code.size) :
    (calls.foldl call p).lineOf k = p.lineOf k := by
  induction calls generalizing p with
  | nil => rfl
  | cons c calls ih =>
    rw [List.foldl_cons, ih (ordered_call h c) (hk.trans_le (size_le_call p c)), lineOf_call h hk]

/-! ## Lines -/

/-- Source maps are faithful to the calls that build a program. Whatever they are, the entries stand
at rising places, the instructions are those that were added, and each comes from the line that was
marked last before it was added, or from line zero if none was. -/
theorem source_map_faithful (name : Bytes) :
    (∀ calls, (ofCalls name calls).sourceMap.toList.Pairwise (fun a b => a.pc < b.pc) ∧
      (ofCalls name calls).code.toList = calls.filterMap Call.instruction?) ∧
    ∀ before i after,
      let p := ofCalls name (before ++ .emit i :: after)
      let k : Nat := (before.filterMap Call.instruction?).length
      p.code[k]? = some i ∧ p.lineOf k = Call.lastLine before := by
  refine ⟨fun calls => ⟨(ordered_ofCalls name calls).pairwise, code_ofCalls name calls⟩, ?_⟩
  intro before i after p k
  have hordered := ordered_ofCalls name before
  have hsize : (ofCalls name before).code.size = k := by
    rw [← Array.length_toList, code_ofCalls]
  constructor
  · rw [← Array.getElem?_toList, code_ofCalls, List.filterMap_append,
      List.getElem?_append_right le_rfl, Nat.sub_self]
    rfl
  · have hp : p = after.foldl call ((ofCalls name before).emit i) := ofCalls_append name before _
    rw [hp, ← hsize]
    have hk : (ofCalls name before).code.size < ((ofCalls name before).emit i).code.size := by
      rw [size_emit]
      exact Nat.lt_succ_self _
    calc
      _ = ((ofCalls name before).emit i).lineOf (ofCalls name before).code.size :=
        lineOf_foldl_call after (ordered_emit hordered i) hk
      _ = (ofCalls name before).currentLine := lineOf_size hordered
      _ = Call.lastLine before := currentLine_ofCalls name before

example : (ofCalls [] [.emit (.simple .print), .locate 3 1, .locate 5 1, .locate 3 2,
    .emit (.simple .add), .locate 3 7, .emit (.simple .pop), .locate 1 1,
    .emit (.simple .halt)]).lines = [0, 3, 3, 1] := by decide

/-! ## Entries next to each other -/

namespace Call

/-- All of the calls are marks. -/
def AllMarks (calls : List Call) : Prop := ∀ c ∈ calls, c.instruction? = none

/-- Some marks leave the line that was marked last before them, and come back to it. -/
def TurnsBack (before marks : List Call) : Prop := ∃ line, lastLine? before = some line ∧
  (∃ other ∈ marks.filterMap line?, other ≠ line) ∧ lastLine? marks = some line

/-- Behind some instruction, the marks up to the next one or to the end turn back. -/
def Detours (calls : List Call) : Prop := ∃ before i marks after,
  calls = before ++ .emit i :: (marks ++ after) ∧ AllMarks marks ∧
    (∀ c ∈ after.head?, c.line? = none) ∧ TurnsBack before marks

/-- Calls are marks, or they are other calls, an instruction and the marks behind it. -/
theorem induction_marks {motive : List Call → Prop}
    (first : ∀ marks, AllMarks marks → motive marks)
    (next : ∀ before i marks, AllMarks marks → motive before → motive (before ++ .emit i :: marks))
    (calls : List Call) : motive calls := by
  -- With any marks behind the calls, since a mark at their end goes with those.
  have hall : ∀ marks, AllMarks marks → motive (calls ++ marks) := by
    induction calls using List.reverseRecOn with
    | nil => exact first
    | append_singleton calls c ih =>
      intro marks hmarks
      rw [List.append_assoc]
      cases c with
      | emit i =>
        have hcalls := ih [] nofun
        rw [List.append_nil] at hcalls
        exact next calls i marks hmarks hcalls
      | locate line column => exact ih _ (List.forall_mem_cons.2 ⟨rfl, hmarks⟩)
  have hcalls := hall [] nofun
  rwa [List.append_nil] at hcalls

variable {before left marks right : List Call} {i j : Instruction}

theorem AllMarks.not_mem_emit (hmarks : AllMarks marks) : .emit i ∉ marks :=
  fun hi => nomatch hmarks _ hi

/-- An instruction of some calls is the last one, or the last one stands behind it. -/
theorem AllMarks.split (hmarks : AllMarks marks)
    (h : before ++ .emit i :: marks = left ++ .emit j :: right) : (before = left ∧ marks = right) ∨
      ∃ rest, before = left ++ .emit j :: rest ∧ right = rest ++ .emit i :: marks := by
  rcases List.append_eq_append_iff.1 h with ⟨rest, hleft, hrest⟩ | ⟨rest, hbefore, hrest⟩
  · cases rest with
    | nil => exact .inl ⟨(hleft.trans (List.append_nil _)).symm, (List.cons.inj hrest).2⟩
    | cons c rest =>
      refine absurd ?_ (hmarks.not_mem_emit (i := j))
      rw [(List.cons.inj hrest).2]
      exact List.mem_append_right _ List.mem_cons_self
  · cases rest with
    | nil => exact .inl ⟨hbefore.trans (List.append_nil _), (List.cons.inj hrest).2.symm⟩
    | cons c rest =>
      obtain ⟨rfl, hright⟩ := List.cons.inj hrest
      exact .inr ⟨rest, hbefore, hright⟩

/-- Some marks in front of an instruction end in front of it. -/
theorem AllMarks.of_append (hmarks : AllMarks marks)
    (h : marks ++ right = before ++ .emit i :: left) :
    ∃ rest, before = marks ++ rest ∧ right = rest ++ .emit i :: left := by
  rcases List.append_eq_append_iff.1 h with ⟨rest, hbefore, hrest⟩ | ⟨rest, hleft, hrest⟩
  · exact ⟨rest, hbefore, hrest⟩
  · cases rest with
    | nil => exact ⟨[], by rw [hleft, List.append_nil, List.append_nil], hrest.symm⟩
    | cons c rest =>
      obtain ⟨rfl, -⟩ := List.cons.inj hrest
      exact absurd (hleft ▸ List.mem_append_right _ List.mem_cons_self) hmarks.not_mem_emit

theorem AllMarks.not_detours (hmarks : AllMarks marks) : ¬Detours marks := by
  rintro ⟨before, i, _, after, rfl, -⟩
  exact hmarks.not_mem_emit (List.mem_append_right _ List.mem_cons_self)

/-- A detour is one of the calls before the last instruction, or that of the marks behind it. -/
theorem AllMarks.detours_iff (hmarks : AllMarks marks) :
    Detours (before ++ .emit i :: marks) ↔ Detours before ∨ TurnsBack before marks := by
  constructor
  · rintro ⟨left, j, turn, after, heq, hturn, hafter, hback⟩
    rcases hmarks.split heq with ⟨rfl, rfl⟩ | ⟨rest, rfl, hrest⟩
    · have hnil : after = [] := by
        cases after with
        | nil => rfl
        | cons c after =>
          have hline := hafter c rfl
          have hinstruction := hmarks c (List.mem_append_right _ List.mem_cons_self)
          cases c <;> contradiction
      rw [hnil, List.append_nil]
      exact .inr hback
    · obtain ⟨after, rfl, rfl⟩ := hturn.of_append hrest
      refine .inl ⟨left, j, turn, after, rfl, hturn, fun c hc => hafter c ?_, hback⟩
      rw [List.head?_append, hc]
      rfl
  · rintro (⟨left, j, turn, after, rfl, hturn, hafter, hback⟩ | hback)
    · refine ⟨left, j, turn, after ++ .emit i :: marks, by simp, hturn, ?_, hback⟩
      cases after with
      | nil => exact fun c hc => Option.some.inj hc ▸ rfl
      | cons c after => exact hafter
    · exact ⟨before, i, marks, [], by rw [List.append_nil], hmarks, nofun, hback⟩

end Call

/-- No entry has the line of the one before it. -/
def Collapsed (p : Program) : Prop := p.sourceMap.toList.IsChain fun a b => a.line ≠ b.line

instance : DecidablePred Collapsed := fun p =>
  inferInstanceAs (Decidable (p.sourceMap.toList.IsChain fun a b => a.line ≠ b.line))

variable {before marks : List Call}

/-- Marks change neither the code nor the entries that have an instruction. -/
theorem kept_foldl_marks (h : p.Ordered) (hmarks : Call.AllMarks marks) :
    (marks.foldl call p).code = p.code ∧ (marks.foldl call p).seated = p.seated := by
  induction marks generalizing p with
  | nil => exact ⟨rfl, rfl⟩
  | cons c marks ih =>
    obtain ⟨hc, hrest⟩ := List.forall_mem_cons.1 hmarks
    cases c with
    | emit i => cases hc
    | locate line column =>
      obtain ⟨hcode, hseated⟩ := ih (ordered_locate h line column) hrest
      exact ⟨hcode.trans (code_locate p line column),
        hseated.trans (seated_locate h line column)⟩

/-- Marks for the current line change nothing. Others make one entry together, which has the last of
their lines. -/
theorem foldl_marks_cases (h : p.Ordered) (hmarks : Call.AllMarks marks) :
    (marks.foldl call p = p ∧ ∀ line ∈ marks.filterMap Call.line?, p.currentLine? = some line) ∨
    ∃ line column, Call.lastLine? marks = some line ∧
      (∃ other ∈ marks.filterMap Call.line?, p.currentLine? ≠ some other) ∧
      (marks.foldl call p).sourceMap.toList = p.seated ++ [⟨p.code.size, line, column⟩] := by
  induction marks using List.reverseRecOn with
  | nil => exact .inl ⟨rfl, nofun⟩
  | append_singleton marks c ih =>
    obtain ⟨hbefore, hc⟩ := List.forall_mem_append.1 hmarks
    cases c with
    | emit i => cases hc _ List.mem_cons_self
    | locate line column =>
      have hlast := Call.lastLine?_locate marks line column
      have hcall : (marks ++ [Call.locate line column]).foldl call p =
          (marks.foldl call p).locate line column := List.foldl_append
      rw [hcall, List.filterMap_append]
      rcases locate_cases (ordered_foldl_call h marks) line column with ⟨heq, hline⟩ | ⟨hne, hmap⟩
      · -- Nothing changes, be there an entry of these marks or not.
        rw [heq]
        rcases ih hbefore with ⟨hsame, hlines⟩ | ⟨line', column', -, ⟨other, hother, hleft⟩, hmap⟩
        · refine .inl ⟨hsame, List.forall_mem_append.2 ⟨hlines, ?_⟩⟩
          rw [hsame] at hline
          exact List.forall_mem_singleton.2 hline
        · rw [currentLine?, hmap, List.getLast?_concat] at hline
          obtain rfl : line' = line := Option.some.inj hline
          exact .inr ⟨line', column', hlast, ⟨other, List.mem_append_left _ hother, hleft⟩, hmap⟩
      · obtain ⟨hcode, hseated⟩ := kept_foldl_marks h hbefore
        rw [hseated, hcode] at hmap
        refine .inr ⟨line, column, hlast, ?_, hmap⟩
        rcases ih hbefore with ⟨hsame, -⟩ | ⟨-, -, -, ⟨other, hother, hleft⟩, -⟩
        · exact ⟨line, List.mem_append_right _ List.mem_cons_self, hsame ▸ hne⟩
        · exact ⟨other, List.mem_append_left _ hother, hleft⟩

/-- Without an instruction there is at most one entry. -/
theorem collapsed_marks (name : Bytes) (hmarks : Call.AllMarks marks) :
    (ofCalls name marks).Collapsed := by
  have h := ordered_ofCalls name marks
  have hcode : (ofCalls name marks).code = #[] :=
    (kept_foldl_marks (ordered_empty name) hmarks).1
  have hstart : ∀ e ∈ (ofCalls name marks).sourceMap.toList, e.pc = 0 := by
    intro e he
    obtain ⟨hpos, hle⟩ := h.inside e he
    rw [hcode] at hle
    exact le_antisymm hle hpos
  refine (h.pairwise.imp_of_mem fun {a b} ha hb hlt => ?_).isChain
  rw [hstart a ha, hstart b hb] at hlt
  exact absurd hlt (lt_irrefl _)

/-- The marks behind an instruction keep the source map collapsed unless they turn back. -/
theorem collapsed_emit_iff (name : Bytes) (before : List Call) (i : Instruction)
    (hmarks : Call.AllMarks marks) : (ofCalls name (before ++ .emit i :: marks)).Collapsed ↔
      (ofCalls name before).Collapsed ∧ ¬Call.TurnsBack before marks := by
  have h := ordered_ofCalls name before
  have hcalls : ofCalls name (before ++ .emit i :: marks) =
      marks.foldl call ((ofCalls name before).emit i) := ofCalls_append name before _
  have hcurrent : ((ofCalls name before).emit i).currentLine? = Call.lastLine? before :=
    currentLine?_ofCalls name before
  rw [hcalls]
  rcases foldl_marks_cases (ordered_emit h i) hmarks with
    ⟨hsame, hlines⟩ | ⟨line, column, hlast, ⟨other, hother, hleft⟩, hmap⟩
  · have hstays : ¬Call.TurnsBack before marks := by
      rintro ⟨line, hline, ⟨other, hother, hne⟩, -⟩
      have heq : some other = some line := by rw [← hlines other hother, hcurrent, hline]
      exact hne (Option.some.inj heq)
    rw [hsame]
    exact (and_iff_left hstays).symm
  · -- The marks make an entry, so they turn back if it has the line of the entry before it.
    have hback : Call.TurnsBack before marks ↔ (ofCalls name before).currentLine? = some line := by
      rw [currentLine?_ofCalls]
      constructor
      · rintro ⟨line', hbefore, -, hlast'⟩
        rwa [hlast.symm.trans hlast']
      · intro hbefore
        refine ⟨line, hbefore, ⟨other, hother, ?_⟩, hlast⟩
        rintro rfl
        exact hleft (hcurrent.trans hbefore)
    rw [Collapsed, hmap, seated_emit h, List.isChain_append, hback, currentLine?]
    simp [Collapsed]

/-- Whatever calls build a program, its source map is collapsed exactly if they make no detour : if
behind no instruction another line is marked and then, last of all before the next instruction or
the end, the line of that instruction again. -/
theorem collapsed_iff_no_detour (name : Bytes) (calls : List Call) :
    (ofCalls name calls).Collapsed ↔ ¬Call.Detours calls := by
  induction calls using Call.induction_marks with
  | first marks hmarks => exact iff_of_true (collapsed_marks name hmarks) hmarks.not_detours
  | next before i marks hmarks ih =>
    rw [collapsed_emit_iff name before i hmarks, ih, hmarks.detours_iff, not_or]

/-- The entry for the second line becomes one for the first line, and is kept. -/
theorem detour_not_collapsed :
    (ofCalls [] [.locate 1 1, .emit (.simple .pop), .locate 2 1, .locate 1 7]).sourceMap =
      #[⟨0, 1, 1⟩, ⟨1, 1, 7⟩] ∧
    ¬(ofCalls [] [.locate 1 1, .emit (.simple .pop), .locate 2 1, .locate 1 7]).Collapsed := by
  decide

end Scriptlet.Program
