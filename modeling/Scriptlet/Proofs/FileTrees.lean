import Mathlib.Data.List.Infix
import Mathlib.Data.List.TakeWhile
import Scriptlet.Manifest.Store

/-!
# Files beside a file that is written

A file is written where no directory is, so paths lead to the same places as before (`locate_put`),
and what stands at other places stays (`lookup_put`). The manifest of a project has a name of its
own. So writing a file with another one does not change the settings that are found
(`after_find_put`).
-/

namespace Scriptlet

/-! ## Parts of a path -/

namespace Bytes

variable {b : UInt8}

/-- Two texts with the byte between them have the parts of both. -/
theorem partsAt_append (s t : Bytes) : partsAt b (s ++ b :: t) = partsAt b s ++ partsAt b t := by
  induction s with
  | nil => simp [partsAt]
  | cons a rest ih =>
    rw [List.cons_append, partsAt, partsAt, ih]
    split
    · rfl
    · cases hrest : partsAt b rest with
      | nil => exact absurd hrest (partsAt_ne_nil b rest)
      | cons part parts => rfl

theorem partsAt_of_not_mem {s : Bytes} (h : b ∉ s) : partsAt b s = [s] := by
  induction s with
  | nil => rfl
  | cons a rest ih =>
    rw [List.mem_cons, not_or] at h
    rw [partsAt, if_neg (Ne.symm h.1), ih h.2]

theorem joined_cons_concat (part name : Bytes) (parts : List Bytes) :
    joined b (part :: (parts ++ [name])) = part ++ b :: joined b (parts ++ [name]) := by
  cases parts <;> rfl

/-- The last part of a path is the last one that was put there. -/
theorem partsAt_joined_concat {name : Bytes} (h : b ∉ name) (parts : List Bytes) :
    ∃ before, partsAt b (joined b (parts ++ [name])) = before ++ [name] := by
  induction parts with
  | nil => exact ⟨[], partsAt_of_not_mem h⟩
  | cons part parts ih =>
    obtain ⟨before, hbefore⟩ := ih
    refine ⟨partsAt b part ++ before, ?_⟩
    rw [List.cons_append, joined_cons_concat, partsAt_append, hbefore, List.append_assoc]

theorem suffix_joined_concat (parts : List Bytes) (name : Bytes) :
    name <:+ joined b (parts ++ [name]) := by
  induction parts with
  | nil => exact List.suffix_rfl
  | cons part parts ih =>
    rw [List.cons_append, joined_cons_concat]
    exact (ih.trans (List.suffix_cons b _)).trans (List.suffix_append part _)

end Bytes

namespace Path

/-- A name that a path leads to, and no step of its own. -/
structure IsName (name : Bytes) : Prop where
  noSlash : slash ∉ name
  ne_nil : name ≠ []
  ne_here : name ≠ here
  ne_outer : name ≠ outer

/-- A name at the end of a path is kept. -/
theorem cleanParts_of_concat {name path : Bytes} {before : List Bytes} (h : IsName name)
    (hpath : Bytes.partsAt slash path = before ++ [name]) :
    cleanParts path = (before.foldl (pass (isAbsolute path)) []).reverse ++ [name] := by
  have hpass (passed : List Bytes) : pass (isAbsolute path) passed name = name :: passed := by
    unfold pass
    rw [if_neg (by simp [h.ne_nil, h.ne_here]), if_neg h.ne_outer]
  rw [cleanParts, hpath, List.foldl_append, List.foldl_cons, List.foldl_nil, hpass,
    List.reverse_cons]

/-- The path of a name in a directory ends with that name. -/
theorem partsAt_join {name : Bytes} (h : IsName name) (dir : Bytes) :
    ∃ before, Bytes.partsAt slash (join dir name) = before ++ [name] := by
  have hclean {path : Bytes} {before : List Bytes}
      (hpath : Bytes.partsAt slash path = before ++ [name]) :
      ∃ before, Bytes.partsAt slash (clean path) = before ++ [name] := by
    rw [clean, cleanParts_of_concat h hpath]
    obtain ⟨before', hbefore⟩ := Bytes.partsAt_joined_concat h.noSlash
      (before.foldl (pass (isAbsolute path)) []).reverse
    split
    · refine ⟨[] :: before', ?_⟩
      rw [Bytes.partsAt, if_pos rfl, hbefore, List.cons_append]
    · rw [if_neg (List.append_ne_nil_of_right_ne_nil _ (List.cons_ne_nil _ _))]
      exact ⟨before', hbefore⟩
  rw [join]
  split
  · exact @hclean name [] (Bytes.partsAt_of_not_mem h.noSlash)
  · refine @hclean _ (Bytes.partsAt slash dir) ?_
    rw [Bytes.partsAt_append, Bytes.partsAt_of_not_mem h.noSlash]

theorem takeWhile_concat_isPrefix {b : UInt8} {s : Bytes} (h : b ∈ s) :
    s.takeWhile (· ≠ b) ++ [b] <+: s := by
  induction s with
  | nil => exact absurd h List.not_mem_nil
  | cons a rest ih =>
    by_cases hab : a = b
    · simp [hab]
    · have hrest : b ∈ rest := (List.mem_cons.1 h).resolve_left (Ne.symm hab)
      rw [List.takeWhile_cons_of_pos (by simpa using hab), List.cons_append]
      exact (List.prefix_cons_inj a).2 (ih hrest)

/-- The extension is the end of the path. -/
theorem extension_suffix (path : Bytes) : extension path <:+ path := by
  rw [extension]
  split
  next hdot =>
    have hlast : (path.reverse.takeWhile (· ≠ slash)).reverse <:+ path := by
      rw [← List.reverse_prefix, List.reverse_reverse]
      exact List.takeWhile_prefix _
    have hext := List.reverse_suffix.2 (takeWhile_concat_isPrefix hdot)
    rw [List.reverse_concat] at hext
    exact hext.trans hlast
  next => exact List.nil_suffix

/-- A path does not get longer without its extension. -/
theorem length_stem_le {path : Bytes} (h : path ≠ []) : (stem path).length ≤ path.length := by
  have hbase : (base path).length ≤ path.length := by
    rw [base, if_neg h]
    split
    next => exact List.length_pos_iff.2 h
    next rest _ =>
      rw [List.length_reverse, ← @List.length_reverse _ path]
      exact (List.takeWhile_prefix _).length_le.trans (List.dropWhile_suffix _).length_le
  rw [stem]
  split
  · exact (List.length_take_le' _ _).trans hbase
  · exact hbase

theorem parent_of_no_slash {path : Bytes} (h : slash ∉ path) : parent path = here := by
  have hdrop : path.reverse.dropWhile (· ≠ slash) = [] := by
    refine List.dropWhile_eq_nil_iff.2 fun b hb => ?_
    refine decide_eq_true fun heq => h ?_
    rw [← heq]
    exact List.mem_reverse.1 hb
  rw [parent, hdrop]
  rfl

end Path

/-! ## Places in a tree -/

namespace FileSystem

variable {fs : FileSystem} {place r : List Bytes} {content : Bytes}

/-- The root is a directory. -/
theorem ne_nil_of_node? (h : fs.node? place ≠ some .directory) : place ≠ [] := by
  rintro rfl
  exact h rfl

/-- A file in the place of no directory changes no directory. -/
theorem node?_put_directory (h : fs.node? place ≠ some .directory) (parts : List Bytes) :
    (fs.put place (.file content)).node? parts = some .directory ↔
      fs.node? parts = some .directory := by
  rw [node?, if_neg (ne_nil_of_node? h)] at h
  simp only [node?, put, Table.find?_insert]
  split
  · rfl
  · split
    next heq => simp [heq, h]
    next => rfl

/-- A node that is put at a place changes no other place. -/
theorem node?_put_of_ne {parts : List Bytes} (h : pathOf parts ≠ pathOf place) (node : FileNode) :
    (fs.put place node).node? parts = fs.node? parts := by
  simp [node?, put, h]

theorem node?_put_self (h : place ≠ []) (node : FileNode) :
    (fs.put place node).node? place = some node := by
  simp [node?, put, h]

/-- A walk goes on from directories only. -/
theorem walk_ne_ok {start rest : List Bytes} {part : Bytes}
    (h : fs.node? start ≠ some .directory) : fs.walk start (part :: rest) ≠ .ok r := by
  rw [walk]
  split
  · exact nofun
  · exact nofun
  · contradiction

/-- A file in the place of no directory changes no walk, since walks go along directories. -/
theorem walk_put (h : fs.node? place ≠ some .directory) : ∀ (start parts : List Bytes),
    (fs.put place (.file content)).walk start parts = .ok r ↔ fs.walk start parts = .ok r
  | _, [] => Iff.rfl
  | start, part :: rest => by
    have hdirectory := @node?_put_directory fs place content h start
    -- a walk stops at the new file as it stopped there before, for whatever reason
    by_cases hstart : fs.node? start = some .directory
    · simp only [walk, hstart, hdirectory.2 hstart]
      split
      · exact walk_put h start rest
      split
      · exact walk_put h start.dropLast rest
      split
      · rfl
      · exact walk_put h (start ++ [part]) rest
    · exact iff_of_false (walk_ne_ok (mt hdirectory.1 hstart)) (walk_ne_ok hstart)

/-- Paths lead to the same places. -/
theorem locate_put (h : fs.node? place ≠ some .directory) (path : Bytes) :
    (fs.put place (.file content)).locate path = .ok r ↔ fs.locate path = .ok r := by
  simp only [locate]
  split
  · rfl
  split
  · rfl
  split
  · rfl
  · exact walk_put h _ _

/-- What is found at a path is what stands at the place it leads to. -/
theorem lookup_eq_ok {path : Bytes} {node : FileNode} :
    fs.lookup path = .ok node ↔ ∃ r, fs.locate path = .ok r ∧ fs.node? r = some node := by
  rw [lookup]
  cases fs.locate path with
  | error e => simp [bind, Except.bind]
  | ok r =>
    simp only [bind, Except.bind]
    cases hnode : fs.node? r <;> simp [hnode]

/-- What stands at other places stays. -/
theorem lookup_put (h : fs.node? place ≠ some .directory) {path : Bytes}
    (hpath : ∀ r, fs.locate path = .ok r → pathOf r ≠ pathOf place) (node : FileNode) :
    (fs.put place (.file content)).lookup path = .ok node ↔ fs.lookup path = .ok node := by
  simp only [lookup_eq_ok, locate_put h]
  refine exists_congr fun r => and_congr_right fun hr => ?_
  rw [node?_put_of_ne (hpath r hr)]

theorem read_eq_ok {path : Bytes} : fs.read path = .ok content ↔
    fs.lookup path = .ok (.file content) := by
  rw [read]
  split <;> simp_all

/-- The file that was written is read. -/
theorem read_put (h : fs.node? place ≠ some .directory) {path : Bytes}
    (hpath : fs.locate path = .ok place) :
    (fs.put place (.file content)).read path = .ok content := by
  rw [read_eq_ok, lookup_eq_ok]
  exact ⟨place, (locate_put h path).2 hpath, node?_put_self (ne_nil_of_node? h) _⟩

/-- A file is written if its path leads to a place that is no directory. -/
theorem write_of_locate (h : fs.node? place ≠ some .directory) {path : Bytes}
    (hpath : fs.locate path = .ok place) :
    fs.write false path content = .ok (fs.put place (.file content)) := by
  simp only [write, hpath]
  split
  next => rfl
  next node hnode =>
    cases node with
    | file old => rfl
    | directory => exact absurd hnode h

/-- A walk that ends with a name leads to a place of that name. -/
theorem walk_concat {name : Bytes} (h : Path.IsName name) : ∀ {start before : List Bytes},
    fs.walk start (before ++ [name]) = .ok r → ∃ parts, r = parts ++ [name]
  | start, [], hwalk => by
    rw [List.nil_append, walk] at hwalk
    split at hwalk
    · cases hwalk
    · cases hwalk
    · rw [if_neg (by simp [h.ne_nil, h.ne_here]), if_neg h.ne_outer] at hwalk
      split at hwalk
      · cases hwalk
      · exact ⟨start, (Except.ok.inj hwalk).symm⟩
  | start, part :: before, hwalk => by
    rw [List.cons_append, walk] at hwalk
    split at hwalk
    · cases hwalk
    · cases hwalk
    · split at hwalk
      · exact walk_concat h hwalk
      split at hwalk
      · exact walk_concat h hwalk
      split at hwalk
      · cases hwalk
      · exact walk_concat h hwalk

/-- A path that ends with a name leads to a place whose path does. -/
theorem suffix_of_locate {name path : Bytes} (h : Path.IsName name)
    (hpath : ∃ before, Bytes.partsAt Path.slash path = before ++ [name])
    (hlocate : fs.locate path = .ok r) : name <:+ pathOf r := by
  obtain ⟨before, hbefore⟩ := hpath
  rw [locate, hbefore] at hlocate
  split at hlocate
  · cases hlocate
  split at hlocate
  · cases hlocate
  split at hlocate
  · cases hlocate
  obtain ⟨parts, rfl⟩ := walk_concat h hlocate
  exact (Bytes.suffix_joined_concat parts name).trans (List.suffix_cons _ _)

end FileSystem

/-! ## Work on a tree -/

namespace FileSystem

/-- The result of some work on a tree, and the tree it leaves. -/
def after (fs : FileSystem) {α : Type} (m : StateM FileSystem α) : α × FileSystem := m.run fs

section

variable {α β : Type} (fs : FileSystem) (path content : Bytes)

@[simp] theorem after_pure (a : α) : fs.after (pure a) = (a, fs) := rfl

@[simp] theorem after_bind (m : StateM FileSystem α) (f : α → StateM FileSystem β) :
    fs.after (m >>= f) = (fs.after m).2.after (f (fs.after m).1) := rfl

@[simp] theorem after_status :
    fs.after (Files.status path) = ((fs.lookup path).map fun _ => (), fs) := rfl

@[simp] theorem after_read : fs.after (Files.read path) = (fs.read path, fs) := rfl

@[simp] theorem after_write :
    fs.after (Files.write path content) = fs.settle (fs.write false path content) := rfl

end

end FileSystem

/-! ## The manifest -/

namespace Manifest

open FileSystem

theorem isName_fileName : Path.IsName fileName := by
  constructor <;> decide

/-- Loading a manifest leaves the tree as it was. -/
theorem after_load (dir : Bytes) (fs : FileSystem) : fs.after (load dir) =
    (match fs.read (Path.join dir fileName) with
      | .error fault => .error (.unreadable (Path.join dir fileName) fault)
      | .ok content => ofFile (Path.join dir fileName)
          (Path.absolute (pathOf fs.current) dir) content, fs) := by
  rw [load, after_bind, after_read]
  cases fs.read (Path.join dir fileName) <;> rfl

theorem after_loadFirst (dir : Bytes) (rest : List Bytes) (fs : FileSystem) :
    fs.after (loadFirst (dir :: rest)) =
      match fs.lookup (Path.join dir fileName) with
      | .ok _ => ((fs.after (load dir)).1.map some, fs)
      | .error _ => fs.after (loadFirst rest) := by
  have htree : (fs.after (load dir)).2 = fs := by rw [after_load]
  rw [loadFirst, after_bind, after_status]
  cases fs.lookup (Path.join dir fileName) with
  | error e => rfl
  | ok node =>
    simp only [Except.map, after_bind, after_pure, htree]

theorem after_find (dir : Bytes) (fs : FileSystem) : fs.after (find dir) =
    fs.after (loadFirst (Path.ancestors (Path.absolute (pathOf fs.current) dir))) := rfl

section

variable {fs : FileSystem} {place : List Bytes} {content : Bytes}

/-- A file that has not the name of a manifest is none. -/
theorem lookup_fileName_put (h : fs.node? place ≠ some .directory)
    (hplace : ¬fileName <:+ pathOf place) (dir : Bytes) (node : FileNode) :
    (fs.put place (.file content)).lookup (Path.join dir fileName) = .ok node ↔
      fs.lookup (Path.join dir fileName) = .ok node := by
  refine lookup_put h (fun r hr heq => hplace ?_) node
  rw [← heq]
  exact suffix_of_locate isName_fileName (Path.partsAt_join isName_fileName dir) hr

theorem after_loadFirst_put (h : fs.node? place ≠ some .directory)
    (hplace : ¬fileName <:+ pathOf place) (dirs : List Bytes) :
    (fs.put place (.file content)).after (loadFirst dirs) =
      ((fs.after (loadFirst dirs)).1, fs.put place (.file content)) := by
  induction dirs with
  | nil => rfl
  | cons dir rest ih =>
    have hsame := @lookup_fileName_put fs place content h hplace dir
    rw [after_loadFirst, after_loadFirst]
    cases hlook : fs.lookup (Path.join dir fileName) with
    | ok node =>
      have hread : (fs.put place (.file content)).read (Path.join dir fileName) =
          fs.read (Path.join dir fileName) := by
        rw [FileSystem.read, FileSystem.read, hlook, (hsame node).2 hlook]
      rw [(hsame node).2 hlook, after_load, after_load, hread]
      rfl
    | error e =>
      -- the reason may be another one, but there is no manifest in either tree
      cases hput : (fs.put place (.file content)).lookup (Path.join dir fileName) with
      | ok node =>
        rw [(hsame node).1 hput] at hlook
        cases hlook
      | error e' => exact ih

/-- The settings that are found are the same after a file that is no manifest was written. -/
theorem after_find_put (h : fs.node? place ≠ some .directory)
    (hplace : ¬fileName <:+ pathOf place) (dir : Bytes) :
    (fs.put place (.file content)).after (find dir) =
      ((fs.after (find dir)).1, fs.put place (.file content)) := by
  rw [after_find, after_find]
  exact after_loadFirst_put h hplace _

/-- Looking for the settings leaves the tree as it was. -/
theorem after_find_tree (dir : Bytes) (fs : FileSystem) : (fs.after (find dir)).2 = fs := by
  have hdirs : ∀ dirs, (fs.after (loadFirst dirs)).2 = fs := by
    intro dirs
    induction dirs with
    | nil => rfl
    | cons dir rest ih =>
      rw [after_loadFirst]
      split
      · rfl
      · exact ih
  rw [after_find]
  exact hdirs _

end

end Manifest

end Scriptlet
