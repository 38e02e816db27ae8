import Scriptlet.Proofs.Directories
import Scriptlet.Proofs.Documents

/-!
# Settings are found as they were kept

The file of a manifest is a sheet with a value for each setting, those that are empty or zero
included. So reading it gives every setting back (`ofText_text`), and the defaults take the place of
the empty ones when the file is loaded, as they do without a file.

Main statement : settings that are kept in a directory without a manifest are found there with their
defaults, unless a rule forbids them, and are kept from then on (`settings_round_trip`).
-/

namespace Scriptlet

/-! ## The file as a sheet -/

namespace Manifest

/-- The settings can be kept : the texts are well-formed, and the limits have 64 bits. -/
structure Storable (m : Manifest) : Prop where
  name : Utf8.isValid m.name = true
  entry : Utf8.isValid m.entry = true
  runSteps : fitsInt64 m.runSteps = true
  logLevel : Utf8.isValid m.logLevel = true
  output : Utf8.isValid m.output = true
  addr : Utf8.isValid m.addr = true
  serverSteps : fitsInt64 m.serverSteps = true

/-- The value of a setting. -/
def scalar (m : Manifest) : Setting → Toml.Scalar
  | .text get _ => .text (get m)
  | .number get _ => .number (get m)

/-- A setting under its key. -/
def item (m : Manifest) (setting : Bytes × Setting) : Bytes × Toml.Scalar :=
  (setting.1, m.scalar setting.2)

/-- The settings of a table under its name. -/
def itemsOf (m : Manifest) (table : Bytes × List (Bytes × Setting)) :
    Bytes × List (Bytes × Toml.Scalar) := (table.1, table.2.map m.item)

/-- The settings as they stand in the file. -/
def sheet (m : Manifest) : Toml.Sheet := tables.map m.itemsOf

theorem settingLine_eq (m : Manifest) (setting : Bytes × Setting) :
    m.settingLine setting = Toml.Sheet.entryText (m.item setting) := by
  obtain ⟨key, setting⟩ := setting
  cases setting <;> rfl

/-- The file of the settings is the text of their sheet. -/
theorem text_eq (m : Manifest) : m.text = m.sheet.text := by
  have htable (table : Bytes × List (Bytes × Setting)) :
      m.tableText table = Toml.Sheet.tableText (m.itemsOf table) := by
    rw [tableText, Toml.Sheet.tableText, itemsOf, List.flatMap_map,
      List.flatMap_congr fun _ _ => m.settingLine_eq _]
  rw [text, Toml.Sheet.text, sheet, List.map_map, List.map_congr_left fun _ _ => htable _]
  rfl

theorem nodup_names : (tables.map Prod.fst).Nodup := by decide

theorem nodup_keys : ∀ t ∈ tables, (t.2.map Prod.fst).Nodup := by decide

theorem sheet_fits {m : Manifest} (h : m.Storable) : m.sheet.Fits := by
  have hbare : ∀ t ∈ tables, (t.1 ≠ [] ∧ t.1.all Toml.isBareByte = true) ∧
      ∀ s ∈ t.2, s.1 ≠ [] ∧ s.1.all Toml.isBareByte = true := by
    decide
  have hvalues : ∀ t ∈ tables, ∀ s ∈ t.2, (m.scalar s.2).Fits := by
    have hnone {α : Type} {p : α → Prop} : ∀ a ∈ ([] : List α), p a :=
      fun _ ha => absurd ha List.not_mem_nil
    simp only [tables, List.forall_mem_cons]
    exact ⟨⟨h.name, h.entry, hnone⟩, ⟨h.runSteps, h.logLevel, hnone⟩, ⟨h.output, hnone⟩,
      ⟨h.addr, h.serverSteps, hnone⟩, hnone⟩
  refine ⟨?_, ?_, ?_, ?_⟩
  · exact List.forall_mem_map.2 fun t ht => (hbare t ht).1
  · refine List.forall_mem_map.2 fun t ht => List.forall_mem_map.2 fun s hs => ?_
    exact ⟨(hbare t ht).2 s hs, hvalues t ht s hs⟩
  · rw [sheet, List.map_map]
    exact nodup_names
  · refine List.forall_mem_map.2 fun t ht => ?_
    rw [itemsOf, List.map_map]
    exact nodup_keys t ht

/-! ## Reading the sheet -/

/-- Something is found under its own name. -/
theorem named?_of_mem {α : Type} {choices : List (Bytes × α)} (h : (choices.map Prod.fst).Nodup)
    {c : Bytes × α} (hc : c ∈ choices) : named? c.1 choices = some c.2 := by
  have hfind : choices.find? (fun c' => c'.1 = c.1) = some c := by
    induction choices with
    | nil => cases hc
    | cons first rest ih =>
      rw [List.map_cons, List.nodup_cons] at h
      rcases List.mem_cons.1 hc with rfl | hc
      · exact List.find?_cons_of_pos (by simp)
      · have hne : first.1 ≠ c.1 := fun heq => h.1 (heq ▸ List.mem_map_of_mem hc)
        rw [List.find?_cons_of_neg (by simpa using hne), ih h.2 hc]
  rw [named?, hfind]

/-- The settings `r` with one of them taken over from `m`. -/
def taken (m r : Manifest) (setting : Bytes × Setting) : Manifest :=
  match setting.2 with
  | .text get set => set r (get m)
  | .number get set => set r (get m)

theorem readMember?_item (m : Manifest) (table : Bytes) {settings : List (Bytes × Setting)}
    (hkeys : (settings.map Prod.fst).Nodup) {setting : Bytes × Setting} (h : setting ∈ settings)
    (r : Reading) :
    readMember? table settings r (setting.1, (m.scalar setting.2).value) =
      some (m.taken r.1 setting, [table, setting.1] :: r.2) := by
  rw [readMember?, named?_of_mem hkeys h]
  obtain ⟨key, setting⟩ := setting
  cases setting <;> rfl

/-- The settings of a table are taken over one after another. -/
theorem foldlM_readMember? (m : Manifest) (table : Bytes) {settings : List (Bytes × Setting)}
    (hkeys : (settings.map Prod.fst).Nodup) : ∀ {part : List (Bytes × Setting)},
    part ⊆ settings → ∀ r : Reading,
    (part.map fun s => (s.1, (m.scalar s.2).value)).foldlM (readMember? table settings) r =
      some (part.foldl m.taken r.1, (part.map fun s => [table, s.1]).reverse ++ r.2)
  | [], _, _ => rfl
  | setting :: part, hpart, r => by
    obtain ⟨hsetting, hpart⟩ := List.cons_subset.1 hpart
    rw [List.map_cons, List.foldlM_cons, readMember?_item m table hkeys hsetting]
    change List.foldlM _ _ _ = _
    rw [foldlM_readMember? m table hkeys hpart]
    simp

theorem readTable?_items (m : Manifest) {table : Bytes × List (Bytes × Setting)}
    (h : table ∈ tables) (r : Reading) :
    readTable? r (table.1, .table (Toml.Sheet.tableEntries (m.itemsOf table))) =
      some (table.2.foldl m.taken r.1,
        (Toml.Sheet.tablePaths (m.itemsOf table)).reverse ++ r.2) := by
  have hentries : Toml.Sheet.tableEntries (m.itemsOf table) =
      table.2.map fun s => (s.1, (m.scalar s.2).value) := List.map_map
  have hpaths : Toml.Sheet.tablePaths (m.itemsOf table) =
      [table.1] :: table.2.map fun s => [table.1, s.1] := congrArg _ List.map_map
  rw [readTable?, named?_of_mem nodup_names h, hentries, hpaths]
  change List.foldlM _ _ _ = _
  rw [foldlM_readMember? m table.1 (nodup_keys table h) (List.Subset.refl _)]
  simp

/-- The tables are read one after another. -/
theorem foldlM_readTable? (m : Manifest) : ∀ {part : List (Bytes × List (Bytes × Setting))},
    part ⊆ tables → ∀ r : Reading,
    (Toml.Sheet.entries (part.map m.itemsOf)).foldlM readTable? r =
      some (part.foldl (fun r table => table.2.foldl m.taken r) r.1,
        (Toml.Sheet.paths (part.map m.itemsOf)).reverse ++ r.2)
  | [], _, _ => rfl
  | table :: part, hpart, r => by
    obtain ⟨htable, hpart⟩ := List.cons_subset.1 hpart
    have hentries : Toml.Sheet.entries ((table :: part).map m.itemsOf) =
        (table.1, .table (Toml.Sheet.tableEntries (m.itemsOf table))) ::
          Toml.Sheet.entries (part.map m.itemsOf) := rfl
    have hpaths : Toml.Sheet.paths ((table :: part).map m.itemsOf) =
        Toml.Sheet.tablePaths (m.itemsOf table) ++ Toml.Sheet.paths (part.map m.itemsOf) := rfl
    rw [hentries, List.foldlM_cons, readTable?_items m htable]
    change List.foldlM _ _ _ = _
    rw [foldlM_readTable? m hpart, hpaths, List.reverse_append, List.append_assoc]
    rfl

/-- The settings of all tables are all but the directory. -/
theorem foldl_taken_tables (m : Manifest) :
    tables.foldl (fun r table => table.2.foldl m.taken r) {} = { m with dir := [] } := by
  cases m
  rfl

/-- The settings are read back from their file; the directory is not kept in it. -/
theorem ofText_text {m : Manifest} (h : m.Storable) : ofText m.text = .ok { m with dir := [] } := by
  have hread := foldlM_readTable? m (List.Subset.refl tables) ({}, [])
  have hknown : (Toml.Document.paths ⟨m.sheet.entries, [], [], m.sheet.paths.reverse⟩).filter
      (fun path => !(m.sheet.paths.reverse ++ []).contains path) = [] := by
    rw [List.filter_eq_nil_iff]
    intro path hpath
    simpa [Toml.Document.paths] using hpath
  rw [ofText, text_eq, Toml.Sheet.parse?_text (sheet_fits h)]
  simp only [sheet] at hknown ⊢
  rw [hread]
  simp only [hknown, foldl_taken_tables]

/-- A file of settings gives them with their defaults, if they break no rule. -/
theorem ofFile_text {m : Manifest} (h : m.Storable) (path dir : Bytes) :
    ofFile path dir m.text = match m.withDefaults.complaint? with
      | none => .ok { m.withDefaults with dir }
      | some complaint => .error (.invalid path complaint) := by
  rw [ofFile, ofText_text h]
  rfl

end Manifest

/-! ## Files that are new -/

namespace FileSystem

variable {fs : FileSystem} {path content : Bytes} {place : List Bytes}

@[simp] theorem after_create (fs : FileSystem) (path content : Bytes) :
    fs.after (Files.create path content) = fs.settle (fs.write true path content) := rfl

theorem write_fresh (hpath : fs.locate path = .ok place) (hnone : fs.node? place = none) :
    fs.write true path content = .ok (fs.put place (.file content)) := by
  simp only [write, hpath, hnone]

theorem write_taken {node : FileNode} (h : fs.lookup path = .ok node) :
    fs.write true path content = .error ⟨"open", path, .alreadyExists⟩ := by
  obtain ⟨place, hpath, hnode⟩ := lookup_eq_ok.1 h
  simp only [write, hpath, hnode]
  rfl

/-- A path that is found to lead to nothing is not too long. -/
theorem length_lt_of_missing (hne : path ≠ []) (h : fs.lookup path = .error .missing) :
    path.length < pathBound := by
  refine Nat.lt_of_not_le fun hlong => ?_
  rw [lookup, locate, if_neg hne] at h
  split at h
  · cases h
  · cases h

end FileSystem

/-! ## Keeping and finding -/

namespace Manifest

open FileSystem

variable {fs : FileSystem} {dir : Bytes}

theorem after_create (m : Manifest) (dir : Bytes) (fs : FileSystem) :
    fs.after (m.create dir) =
      match fs.write true (Path.join dir fileName) m.text with
      | .ok kept => (.ok (), kept)
      | .error fault => (.error (.notCreated (Path.join dir fileName) fault), fs) := by
  rw [create, after_bind, FileSystem.after_create]
  cases fs.write true (Path.join dir fileName) m.text <;> rfl

/-- The place for the manifest of a directory that has none. -/
theorem exists_place (hdir : fs.IsDirectory dir)
    (hnone : fs.lookup (Path.join dir fileName) = .error .missing) :
    ∃ place, fs.locate (Path.join dir fileName) = .ok place ∧ fs.node? place = none := by
  have hne : Path.join dir fileName ≠ [] := by
    rw [Path.join_eq_clean isName_fileName]
    exact Path.clean_ne_nil _
  obtain ⟨place, hplace⟩ := locate_join isName_fileName (by decide) (by decide) hdir
    (length_lt_of_missing hne hnone)
  refine ⟨place ++ [fileName], hplace, ?_⟩
  rw [Option.eq_none_iff_forall_ne_some]
  intro node hnode
  rw [lookup_eq_ok.2 ⟨_, hplace, hnode⟩] at hnone
  cases hnone

/-- Settings that are kept in a directory without a manifest are found there as they were kept, with
their defaults, if they break no rule. What is kept is not replaced, whatever else has changed in
the tree by then. That there is no manifest means that asking for it is answered by `missing` : a
path that no file can have is refused for another reason. -/
theorem settings_round_trip {m : Manifest} (h : m.Storable) (hdir : fs.IsDirectory dir)
    (hnone : fs.lookup (Path.join dir fileName) = .error .missing) :
    ∃ kept, fs.after (m.create dir) = (.ok (), kept) ∧
      kept.read (Path.join dir fileName) = .ok m.text ∧
      (kept.after (load dir)).2 = kept ∧
      (∀ found, (kept.after (load dir)).1 = .ok found ↔ m.withDefaults.complaint? = none ∧
        found = { m.withDefaults with dir := Path.absolute (pathOf fs.current) dir }) ∧
      ∀ (later : FileSystem) (content : Bytes),
        later.read (Path.join dir fileName) = .ok content → ∀ m' : Manifest,
        later.after (m'.create dir) = (.error (.notCreated (Path.join dir fileName)
          ⟨"open", Path.join dir fileName, .alreadyExists⟩), later) := by
  obtain ⟨place, hplace, hfree⟩ := exists_place hdir hnone
  have hdirectory : fs.node? place ≠ some .directory := by
    rw [hfree]
    exact nofun
  have hread := @read_put fs place m.text hdirectory (Path.join dir fileName) hplace
  refine ⟨fs.put place (.file m.text), ?_, hread, ?_, fun found => ?_,
    fun later content hlater m' => ?_⟩
  · rw [after_create, write_fresh hplace hfree]
  · rw [after_load]
  · have hload : ((fs.put place (.file m.text)).after (load dir)).1 =
        ofFile (Path.join dir fileName) (Path.absolute (pathOf fs.current) dir) m.text := by
      have hcurrent : (fs.put place (.file m.text)).current = fs.current := rfl
      simp only [after_load, hread, hcurrent]
    rw [hload, ofFile_text h]
    cases m.withDefaults.complaint? with
    | none =>
      rw [Except.ok.injEq]
      exact ⟨fun heq => ⟨rfl, heq.symm⟩, fun heq => heq.2.symm⟩
    | some complaint => exact iff_of_false nofun nofun
  · rw [after_create, write_taken (read_eq_ok.1 hlater)]

/-- Settings with quotes, a backslash, a line end, a control character and letters outside ASCII. -/
def awkward : Manifest :=
  { name := "say \"hé\"", entry := [0x61, 0x5C, 0x0A, 0x07, 0x7F], logLevel := "DEBUG",
    output := "[a]\nname = \"b\"" }

/-- A tree with one directory, which is the current one. -/
def workTree : FileSystem := { nodes := Table.empty.insert "/work" .directory, current := ["work"] }

theorem settings_round_trip_of_awkward :
    awkward.Storable ∧ workTree.IsDirectory "." ∧
      workTree.lookup (Path.join "." fileName) = .error .missing ∧
      ∃ kept, workTree.after (awkward.create ".") = (.ok (), kept) ∧
        (kept.after (load ".")).1 = .ok { awkward with
          addr := ":4567", serverSteps := 1000000, dir := "/work" } ∧
        kept.after (default.create ".") =
          (.error (.notCreated "pinky.toml" ⟨"open", "pinky.toml", .alreadyExists⟩), kept) := by
  have hstorable : awkward.Storable := by
    constructor <;> decide +kernel
  have hdir : workTree.IsDirectory "." := by
    rw [IsDirectory]
    decide +kernel
  have hnone : workTree.lookup (Path.join "." fileName) = .error .missing := by
    decide +kernel
  obtain ⟨kept, hcreate, hread, -, hload, hlater⟩ := settings_round_trip hstorable hdir hnone
  refine ⟨hstorable, hdir, hnone, kept, hcreate, (hload _).2 ⟨?_, ?_⟩, ?_⟩
  · decide +kernel
  · decide +kernel
  · have hpath : Path.join "." fileName = "pinky.toml" := by decide +kernel
    rw [← hpath]
    exact hlater kept _ hread default

end Manifest

end Scriptlet
