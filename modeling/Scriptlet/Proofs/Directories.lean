import Scriptlet.Proofs.FileTrees

/-!
# Paths in their shortest form

Where a path leads from, its shortest form leads too, since a step to the outer place takes back the
step before it (`walk_cleanParts`). So a name in a directory is found there, however the path of the
directory is written (`locate_join`).
-/

namespace Scriptlet

/-! ## Parts of a path -/

namespace Bytes

variable {b : UInt8}

/-- No part holds the byte at which a text is cut apart. -/
theorem not_mem_of_mem_partsAt : ∀ {s part : Bytes}, part ∈ partsAt b s → b ∉ part
  | [], part, h => by
    rw [List.mem_singleton.1 h]
    exact List.not_mem_nil
  | a :: rest, part, h => by
    rw [partsAt] at h
    split at h
    next =>
      rcases List.mem_cons.1 h with rfl | h
      · exact List.not_mem_nil
      · exact not_mem_of_mem_partsAt h
    next hab =>
      obtain ⟨first, parts, hrest⟩ := List.exists_cons_of_ne_nil (partsAt_ne_nil b rest)
      have ih : ∀ part ∈ partsAt b rest, b ∉ part := fun _ => not_mem_of_mem_partsAt
      rw [hrest] at h ih
      rcases List.mem_cons.1 h with rfl | h
      · exact List.not_mem_cons_of_ne_of_not_mem (Ne.symm hab) (ih first List.mem_cons_self)
      · exact ih part (List.mem_cons_of_mem _ h)

/-- The bytes of parts that are put together are those of the parts, and the one between them. -/
theorem mem_joined {a : UInt8} : ∀ {parts : List Bytes}, a ∈ joined b parts →
    a = b ∨ ∃ part ∈ parts, a ∈ part
  | [], h => absurd h List.not_mem_nil
  | [part], h => .inr ⟨part, List.mem_singleton_self part, h⟩
  | part :: next :: parts, h => by
    rw [joined, List.mem_append, List.mem_cons] at h
    rcases h with h | h | h
    · exact .inr ⟨part, List.mem_cons_self, h⟩
    · exact .inl h
    · refine (mem_joined h).imp_right fun hpart => ?_
      obtain ⟨p, hp, ha⟩ := hpart
      exact ⟨p, List.mem_cons_of_mem _ hp, ha⟩

theorem mem_joined_of_mem {a : UInt8} {part : Bytes} (ha : a ∈ part) :
    ∀ {parts : List Bytes}, part ∈ parts → a ∈ joined b parts
  | [_], h => by rwa [joined, ← List.mem_singleton.1 h]
  | p :: next :: parts, h => by
    rw [joined, List.mem_append, List.mem_cons]
    rcases List.mem_cons.1 h with rfl | h
    · exact .inl ha
    · exact .inr (.inr (mem_joined_of_mem ha h))

/-- Parts that were put together are cut apart again. -/
theorem partsAt_joined : ∀ {parts : List Bytes}, parts ≠ [] → (∀ part ∈ parts, b ∉ part) →
    partsAt b (joined b parts) = parts
  | [], hne, _ => absurd rfl hne
  | [part], _, h => partsAt_of_not_mem (h part (List.mem_singleton_self part))
  | part :: next :: parts, _, h => by
    obtain ⟨hpart, hrest⟩ := List.forall_mem_cons.1 h
    rw [joined, partsAt_append, partsAt_of_not_mem hpart,
      partsAt_joined (List.cons_ne_nil _ _) hrest]
    rfl

end Bytes

namespace Path

/-- The parts that are kept are parts that were passed, and not the empty ones. -/
theorem mem_of_mem_pass {absolute : Bool} {passed : List Bytes} {part p : Bytes}
    (h : p ∈ pass absolute passed part) : (p = part ∧ p ≠ []) ∨ p ∈ passed := by
  have houter {q : Bytes} (hq : q = outer) (hpart : part = outer) : q = part ∧ q ≠ [] :=
    ⟨hq.trans hpart.symm, hq ▸ List.cons_ne_nil _ _⟩
  unfold pass at h
  split at h
  next => exact .inr h
  next hstay =>
  split at h
  next hpart =>
    split at h
    · split at h
      · cases h
      · exact .inl (houter (List.mem_singleton.1 h) hpart)
    · split at h
      · exact (List.mem_cons.1 h).imp_left fun hp => houter hp hpart
      · exact .inr (List.mem_cons_of_mem _ h)
  next =>
    refine (List.mem_cons.1 h).imp_left fun hp => ⟨hp, ?_⟩
    rintro rfl
    exact hstay (.inl hp.symm)

theorem mem_of_mem_foldl_pass {absolute : Bool} {p : Bytes} : ∀ {parts passed : List Bytes},
    p ∈ parts.foldl (pass absolute) passed → (p ∈ parts ∧ p ≠ []) ∨ p ∈ passed
  | [], _, h => .inr h
  | part :: parts, _, h => by
    rcases @mem_of_mem_foldl_pass absolute p parts _ h with ⟨h, hne⟩ | h
    · exact .inl ⟨List.mem_cons_of_mem _ h, hne⟩
    · rcases mem_of_mem_pass h with ⟨rfl, hne⟩ | h
      · exact .inl ⟨List.mem_cons_self, hne⟩
      · exact .inr h

theorem of_mem_cleanParts {path p : Bytes} (h : p ∈ cleanParts path) :
    p ∈ Bytes.partsAt slash path ∧ p ≠ [] :=
  (mem_of_mem_foldl_pass (List.mem_reverse.1 h)).resolve_right List.not_mem_nil

/-- The parts of a path in its shortest form are cut apart again. -/
theorem partsAt_joined_cleanParts {path : Bytes} (hne : cleanParts path ≠ []) :
    Bytes.partsAt slash (Bytes.joined slash (cleanParts path)) = cleanParts path :=
  Bytes.partsAt_joined hne fun _ hpart => Bytes.not_mem_of_mem_partsAt (of_mem_cleanParts hpart).1

/-- A path starts at the root exactly if its shortest form does. -/
@[simp] theorem isAbsolute_clean (path : Bytes) : isAbsolute (clean path) = isAbsolute path := by
  rw [clean]
  split
  next h => exact h.symm
  next h =>
  rw [eq_false_of_ne_true h]
  split
  · rfl
  next hne =>
    obtain ⟨first, parts, hparts⟩ := List.exists_cons_of_ne_nil hne
    have hfirst : first ∈ cleanParts path := hparts ▸ List.mem_cons_self
    obtain ⟨b, rest, rfl⟩ := List.exists_cons_of_ne_nil (of_mem_cleanParts hfirst).2
    have hb : b ≠ slash := fun hb => Bytes.not_mem_of_mem_partsAt (of_mem_cleanParts hfirst).1
      (hb ▸ List.mem_cons_self)
    rw [hparts]
    cases parts <;> simpa [isAbsolute, Bytes.joined] using hb

/-- No shortest form is empty : where nothing is left, it is the current directory. -/
theorem clean_ne_nil (path : Bytes) : clean path ≠ [] := by
  rw [clean]
  split
  · exact List.cons_ne_nil _ _
  split
  · exact List.cons_ne_nil _ _
  next hne =>
    intro h
    have hparts := partsAt_joined_cleanParts hne
    rw [h] at hparts
    have hempty : [] ∈ cleanParts path := hparts ▸ List.mem_singleton_self []
    exact (of_mem_cleanParts hempty).2 rfl

theorem mem_of_mem_clean {path : Bytes} {a : UInt8} (h : a ∈ clean path) :
    a = slash ∨ a = 0x2E ∨ a ∈ path := by
  have hjoined (h : a ∈ Bytes.joined slash (cleanParts path)) : a = slash ∨ a ∈ path := by
    refine (Bytes.mem_joined h).imp_right fun hpart => ?_
    obtain ⟨part, hpart, ha⟩ := hpart
    rw [← Bytes.joined_partsAt slash path]
    exact Bytes.mem_joined_of_mem ha ((of_mem_cleanParts hpart).1)
  rw [clean] at h
  split at h
  · rcases List.mem_cons.1 h with h | h
    · exact .inl h
    · exact (hjoined h).imp_right .inr
  split at h
  · exact .inr (.inl (List.mem_singleton.1 h))
  · exact (hjoined h).imp_right .inr

/-- A name in a directory is the shortest form of both with a slash between them. -/
theorem join_eq_clean {dir name : Bytes} (hname : IsName name) :
    join dir name = clean ((if dir = [] then here else dir) ++ slash :: name) := by
  rw [join]
  split
  next =>
    have hhead : isAbsolute name = false := by
      obtain ⟨b, rest, rfl⟩ := List.exists_cons_of_ne_nil hname.ne_nil
      have hb : b ≠ slash := fun hb => hname.noSlash (hb ▸ List.mem_cons_self)
      simpa [isAbsolute] using hb
    have hname' := Bytes.partsAt_of_not_mem hname.noSlash
    have hhere : Bytes.partsAt slash (here ++ slash :: name) = [here] ++ [name] := by
      rw [Bytes.partsAt_append, hname']
      rfl
    have hparts : cleanParts (here ++ slash :: name) = cleanParts name := by
      rw [cleanParts_of_concat hname hhere, @cleanParts_of_concat name name [] hname hname']
      rfl
    rw [clean, clean, hparts, hhead]
    rfl
  next => rfl

end Path

/-! ## Walks -/

namespace FileSystem

variable {fs : FileSystem} {start place place' : List Bytes}

/-- A walk goes on from where its first part leads. -/
theorem walk_append : ∀ {start first rest : List Bytes}, fs.walk start (first ++ rest) =
    (fs.walk start first).bind fun place => fs.walk place rest
  | _, [], _ => rfl
  | start, part :: first, rest => by
    rw [List.cons_append, walk, walk]
    split
    · rfl
    · rfl
    split
    · exact walk_append
    split
    · exact walk_append
    split
    · rfl
    · exact walk_append

theorem walk_concat_eq_ok {first : List Bytes} {part : Bytes} :
    fs.walk start (first ++ [part]) = .ok place' ↔
      ∃ place, fs.walk start first = .ok place ∧ fs.walk place [part] = .ok place' := by
  rw [walk_append]
  cases fs.walk start first with
  | error e => simp [Except.bind]
  | ok place => simp [Except.bind]

/-- One step goes on from a directory, to an outer place or to a name. -/
theorem walk_singleton {part : Bytes} : fs.walk place [part] = .ok place' ↔
    fs.node? place = some .directory ∧
      if part = [] ∨ part = Path.here then place' = place
      else if part = Path.outer then place' = place.dropLast
      else part.length ≤ maxNameLength ∧ place' = place ++ [part] := by
  by_cases hdir : fs.node? place = some .directory
  · simp only [walk, hdir, true_and]
    split
    · exact ⟨fun h => (Except.ok.inj h).symm, fun h => h ▸ rfl⟩
    split
    · exact ⟨fun h => (Except.ok.inj h).symm, fun h => h ▸ rfl⟩
    split
    next hlong =>
      exact iff_of_false (fun h => by cases h) fun h => absurd h.1 (Nat.not_le.2 hlong)
    next hshort =>
      exact ⟨fun h => ⟨Nat.not_lt.1 hshort, (Except.ok.inj h).symm⟩, fun h => h.2 ▸ rfl⟩
  · exact iff_of_false (walk_ne_ok hdir) fun h => hdir h.1

/-- The parts that are kept, the last one first, lead from `start` to `place`. -/
structure Kept (fs : FileSystem) (start : List Bytes) (absolute : Bool)
    (place passed : List Bytes) : Prop where
  walk : fs.walk start passed.reverse = .ok place
  steps : ∀ part ∈ passed, part ≠ [] ∧ part ≠ Path.here
  root : absolute = true → start = []

namespace Kept

variable {absolute : Bool} {passed : List Bytes}

theorem pass {part : Bytes} (h : Kept fs start absolute place passed)
    (hstep : fs.walk place [part] = .ok place') :
    Kept fs start absolute place' (Path.pass absolute passed part) := by
  have hmore : part ≠ [] ∧ part ≠ Path.here → Kept fs start absolute place' (part :: passed) :=
    fun hpart => ⟨by rw [List.reverse_cons, walk_concat_eq_ok]; exact ⟨place, h.walk, hstep⟩,
      List.forall_mem_cons.2 ⟨hpart, h.steps⟩, h.root⟩
  obtain ⟨-, hplace⟩ := walk_singleton.1 hstep
  unfold Path.pass
  split
  next hstay =>
    rw [if_pos hstay] at hplace
    exact hplace ▸ h
  next hstay =>
  rw [if_neg hstay] at hplace
  rw [not_or] at hstay
  split
  next houter =>
    rw [if_pos houter] at hplace
    subst houter
    split
    · have hstart : start = place := Except.ok.inj h.walk
      split
      next habs =>
        -- the root is its own outer place
        have hroot := h.root habs
        refine ⟨?_, h.steps, h.root⟩
        rw [hplace, ← hstart, hroot]
        rfl
      next => exact hmore hstay
    next last rest =>
      split
      next => exact hmore hstay
      next hlast =>
        -- the step back takes the last step to a name away
        have hwalk := h.walk
        rw [List.reverse_cons, walk_concat_eq_ok] at hwalk
        obtain ⟨before, hbefore, hname⟩ := hwalk
        obtain ⟨hsteps, hrest⟩ := List.forall_mem_cons.1 h.steps
        obtain ⟨-, hadded⟩ := walk_singleton.1 hname
        rw [if_neg (not_or.2 hsteps), if_neg hlast] at hadded
        refine ⟨?_, hrest, h.root⟩
        rw [hplace, hadded.2, List.dropLast_concat]
        exact hbefore
  next => exact hmore hstay

theorem passAll : ∀ (parts : List Bytes) {place passed : List Bytes},
    Kept fs start absolute place passed → fs.walk place parts = .ok place' →
    Kept fs start absolute place' (parts.foldl (Path.pass absolute) passed)
  | [], _, _, h, hwalk => Except.ok.inj hwalk ▸ h
  | part :: parts, place, _, h, hwalk => by
    rw [← List.singleton_append, walk_append] at hwalk
    cases hstep : fs.walk place [part] with
    | error e =>
      rw [hstep] at hwalk
      cases hwalk
    | ok mid =>
      rw [hstep] at hwalk
      exact passAll parts (h.pass hstep) hwalk

end Kept

/-- The parts of a path in its shortest form lead where all its parts lead. -/
theorem walk_cleanParts {path : Bytes} (hstart : Path.isAbsolute path = true → start = [])
    (h : fs.walk start (Bytes.partsAt Path.slash path) = .ok place) :
    fs.walk start (Path.cleanParts path) = .ok place :=
  ((Kept.mk rfl (fun _ hpart => absurd hpart List.not_mem_nil) hstart).passAll _ h).walk

/-! ## Names in a directory -/

/-- The path leads to a directory; the empty path stands for the current one. -/
def IsDirectory (fs : FileSystem) (path : Bytes) : Prop :=
  fs.lookup (if path = [] then Path.here else path) = .ok .directory

/-- A path leads to a place if it may be a path at all and a walk along its parts comes there. -/
theorem locate_eq_ok {path : Bytes} : fs.locate path = .ok place ↔ path ≠ [] ∧ 0 ∉ path ∧
    path.length < pathBound ∧ fs.walk (if Path.isAbsolute path then [] else fs.current)
      (Bytes.partsAt Path.slash path) = .ok place := by
  have hfails {e : FileError} : (Except.error e : Except FileError (List Bytes)) ≠ .ok place :=
    fun h => by cases h
  rw [locate]
  split
  next h => exact iff_of_false hfails fun h' => h'.1 h
  split
  next h => exact iff_of_false hfails fun h' => h'.2.1 h
  split
  next h => exact iff_of_false hfails fun h' => absurd h'.2.2.1 (Nat.not_lt.2 h)
  next hne hzero hlength =>
    exact ⟨fun h => ⟨hne, hzero, Nat.not_le.1 hlength, h⟩, fun h => h.2.2.2⟩

theorem walk_root (parts : List Bytes) : fs.walk [] ([] :: parts) = fs.walk [] parts := by
  rw [walk]
  rfl

/-- A walk along a path starts in a directory, since every path has a part. -/
theorem directory_of_walk {path : Bytes}
    (h : fs.walk start (Bytes.partsAt Path.slash path) = .ok place) :
    fs.node? start = some .directory := by
  obtain ⟨part, rest, hparts⟩ := List.exists_cons_of_ne_nil (Bytes.partsAt_ne_nil Path.slash path)
  rw [hparts] at h
  exact of_not_not fun hstart => walk_ne_ok hstart h

/-- The shortest form of a path leads where the path leads. -/
theorem walk_clean {path : Bytes} (hstart : Path.isAbsolute path = true → start = [])
    (h : fs.walk start (Bytes.partsAt Path.slash path) = .ok place) :
    fs.walk start (Bytes.partsAt Path.slash (Path.clean path)) = .ok place := by
  have hparts := walk_cleanParts hstart h
  rw [Path.clean]
  split
  next habs =>
    rw [hstart habs] at hparts ⊢
    rw [Bytes.partsAt, if_pos rfl, walk_root]
    by_cases hne : Path.cleanParts path = []
    · rw [hne] at hparts ⊢
      exact (walk_root []).trans hparts
    · rw [Path.partsAt_joined_cleanParts hne, hparts]
  split
  next hnone =>
    rw [hnone] at hparts
    refine walk_singleton.2 ⟨directory_of_walk h, ?_⟩
    exact (Except.ok.inj hparts).symm
  next hne => rw [Path.partsAt_joined_cleanParts hne, hparts]

/-- A name in a directory is found in the place that the path of the directory leads to. -/
theorem locate_join_of_locate {dir name : Bytes} (hname : Path.IsName name) (hzero : 0 ∉ name)
    (hshort : name.length ≤ maxNameLength)
    (hlocate : fs.locate (if dir = [] then Path.here else dir) = .ok place)
    (hnode : fs.node? place = some .directory) (hlength : (Path.join dir name).length < pathBound) :
    fs.locate (Path.join dir name) = .ok (place ++ [name]) := by
  rw [Path.join_eq_clean hname] at hlength ⊢
  generalize (if dir = [] then Path.here else dir) = d at hlocate hlength ⊢
  obtain ⟨hne, hdzero, -, hwalk⟩ := locate_eq_ok.1 hlocate
  have hparts : Bytes.partsAt Path.slash (d ++ Path.slash :: name) =
      Bytes.partsAt Path.slash d ++ [name] := by
    rw [Bytes.partsAt_append, Bytes.partsAt_of_not_mem hname.noSlash]
  have habs : Path.isAbsolute (d ++ Path.slash :: name) = Path.isAbsolute d := by
    obtain ⟨b, rest, rfl⟩ := List.exists_cons_of_ne_nil hne
    rfl
  have hwhole : fs.walk (if Path.isAbsolute (d ++ Path.slash :: name) then [] else fs.current)
      (Bytes.partsAt Path.slash (d ++ Path.slash :: name)) = .ok (place ++ [name]) := by
    rw [habs, hparts, walk_concat_eq_ok]
    refine ⟨place, hwalk, walk_singleton.2 ⟨hnode, ?_⟩⟩
    rw [if_neg (not_or.2 ⟨hname.ne_nil, hname.ne_here⟩), if_neg hname.ne_outer]
    exact ⟨hshort, rfl⟩
  refine locate_eq_ok.2 ⟨Path.clean_ne_nil _, fun h => ?_, hlength, ?_⟩
  · rcases Path.mem_of_mem_clean h with h | h | h
    · exact absurd h (by decide)
    · exact absurd h (by decide)
    rcases List.mem_append.1 h with h | h
    · exact hdzero h
    · exact (List.mem_cons.1 h).elim (fun h => absurd h (by decide)) hzero
  · rw [Path.isAbsolute_clean]
    exact walk_clean (fun h => if_pos h) hwhole

/-- A name in a directory is found there. -/
theorem locate_join {dir name : Bytes} (hname : Path.IsName name) (hzero : 0 ∉ name)
    (hshort : name.length ≤ maxNameLength) (hdir : fs.IsDirectory dir)
    (hlength : (Path.join dir name).length < pathBound) :
    ∃ place, fs.locate (Path.join dir name) = .ok (place ++ [name]) := by
  obtain ⟨place, hlocate, hnode⟩ := lookup_eq_ok.1 hdir
  exact ⟨place, locate_join_of_locate hname hzero hshort hlocate hnode hlength⟩

/-- A name leads to a place in the current directory. -/
theorem locate_name {name : Bytes} (hdir : fs.node? fs.current = some .directory)
    (hname : Path.IsName name) (hzero : 0 ∉ name) (hshort : name.length ≤ maxNameLength) :
    fs.locate name = .ok (fs.current ++ [name]) := by
  have habs : Path.isAbsolute name = false := by
    obtain ⟨b, rest, rfl⟩ := List.exists_cons_of_ne_nil hname.ne_nil
    have hb : b ≠ Path.slash := fun hb => hname.noSlash (hb ▸ List.mem_cons_self)
    simpa [Path.isAbsolute] using hb
  refine locate_eq_ok.2 ⟨hname.ne_nil, hzero, hshort.trans_lt (by decide), ?_⟩
  rw [habs, Bytes.partsAt_of_not_mem hname.noSlash]
  refine walk_singleton.2 ⟨hdir, ?_⟩
  rw [if_neg (not_or.2 ⟨hname.ne_nil, hname.ne_here⟩), if_neg hname.ne_outer]
  exact ⟨hshort, rfl⟩

/-! ## Whole paths -/

variable {parts : List Bytes} {name : Bytes}

theorem pathOf_concat (parts : List Bytes) (name : Bytes) :
    pathOf (parts ++ [name]) = (if parts = [] then [] else pathOf parts) ++ Path.slash :: name := by
  have hjoined : ∀ (part : Bytes) (parts : List Bytes),
      Bytes.joined Path.slash (part :: (parts ++ [name])) =
        Bytes.joined Path.slash (part :: parts) ++ Path.slash :: name := by
    intro part parts
    induction parts generalizing part with
    | nil => rfl
    | cons next parts ih =>
      rw [List.cons_append, Bytes.joined, ih, Bytes.joined, List.append_assoc]
      rfl
  cases parts with
  | nil => rfl
  | cons part parts => exact congrArg (Path.slash :: ·) (hjoined part parts)

/-- The extension of a path is that of the last name in it. -/
theorem extension_pathOf_concat (h : Path.slash ∉ name) (parts : List Bytes) :
    Path.extension (pathOf (parts ++ [name])) = Path.extension name := by
  have hname : ∀ b ∈ name.reverse, (b ≠ Path.slash : Bool) = true := by
    intro b hb
    exact decide_eq_true fun heq => h (heq ▸ List.mem_reverse.1 hb)
  have hlast (before : Bytes) : (before ++ Path.slash :: name).reverse.takeWhile (· ≠ Path.slash) =
      name.reverse.takeWhile (· ≠ Path.slash) := by
    rw [List.reverse_append, List.reverse_cons, List.append_assoc,
      List.takeWhile_append_of_pos hname, List.takeWhile_eq_self_iff.2 hname]
    exact List.append_nil _
  rw [pathOf_concat, Path.extension, Path.extension, hlast]

theorem clean_pathOf (h : Path.cleanParts (pathOf parts) = parts) :
    Path.clean (pathOf parts) = pathOf parts := by
  have hroot : Path.isAbsolute (pathOf parts) = true := rfl
  rw [Path.clean, h, if_pos hroot]
  rfl

/-- Seen from a directory, it is its own place. -/
theorem absolute_here (h : Path.cleanParts (pathOf parts) = parts) :
    Path.absolute (pathOf parts) Path.here = pathOf parts := by
  have hparts : Path.cleanParts (pathOf parts ++ Path.slash :: Path.here) = parts := by
    have hhere : Bytes.partsAt Path.slash Path.here = [Path.here] := rfl
    rw [Path.cleanParts, Bytes.partsAt_append, hhere, List.foldl_append]
    exact h
  have hjoin : Path.absolute (pathOf parts) Path.here =
      Path.clean (pathOf parts ++ Path.slash :: Path.here) := rfl
  have hroot : Path.isAbsolute (pathOf parts ++ Path.slash :: Path.here) = true := rfl
  rw [hjoin, Path.clean, hparts, if_pos hroot]
  rfl

/-- The first directory around a place is the place itself. -/
theorem ancestors_pathOf (h : Path.cleanParts (pathOf parts) = parts) :
    ∃ rest, Path.ancestors (pathOf parts) = pathOf parts :: rest := by
  have hgo : ∀ passed : List Bytes, ∃ rest, Path.ancestors.go passed = pathOf passed.reverse :: rest
    | [] => ⟨[], rfl⟩
    | _ :: passed => ⟨Path.ancestors.go passed, rfl⟩
  obtain ⟨rest, hrest⟩ := hgo (Path.cleanParts (pathOf parts)).reverse
  refine ⟨rest, hrest.trans ?_⟩
  rw [List.reverse_reverse, h]

/-- The path of a name in a directory. -/
theorem join_pathOf (h : Path.cleanParts (pathOf parts) = parts) (hname : Path.IsName name) :
    Path.join (pathOf parts) name = pathOf (parts ++ [name]) := by
  have hparts : Bytes.partsAt Path.slash (pathOf parts ++ Path.slash :: name) =
      Bytes.partsAt Path.slash (pathOf parts) ++ [name] := by
    rw [Bytes.partsAt_append, Bytes.partsAt_of_not_mem hname.noSlash]
  have hclean : Path.cleanParts (pathOf parts ++ Path.slash :: name) = parts ++ [name] :=
    (Path.cleanParts_of_concat hname hparts).trans (congrArg (· ++ [name]) h)
  have hjoin : Path.join (pathOf parts) name = Path.clean (pathOf parts ++ Path.slash :: name) :=
    rfl
  have hroot : Path.isAbsolute (pathOf parts ++ Path.slash :: name) = true := rfl
  rw [hjoin, Path.clean, hclean, if_pos hroot]
  rfl

end FileSystem

end Scriptlet
