import Scriptlet.Proofs.Correctness
import Scriptlet.Proofs.Escapes
import Scriptlet.Proofs.ObjectRuns
import Scriptlet.Proofs.Respacing
import Scriptlet.Proofs.Settings

/-!
# New projects

A project that is made in an empty directory has a manifest and a script (`after_initProject`). In
the manifest the name of the project is quoted, so it is found again whatever it is
(`after_find_project`). In the script it stands between two apostrophes as it is, so the script
prints it only if there is no apostrophe in it (`runText_firstScript`), and what is printed are its
escapes resolved.

Main statement : `new_project_runs`. An apostrophe in the name can break the project, and an escape
changes what it says (`new_project_broken`).
-/

namespace Scriptlet

/-! ## Greetings -/

section

variable {s : Bytes}

/-- What the tokens say that print a string on a line of its own. -/
def printing (s : Bytes) : List (TokenKind × Bytes) :=
  [(.printlnWord, "println"), (.string, s), (.eof, [])]

/-- A text between apostrophes is printed as it is, if it has none itself. -/
theorem contents_quoted (h : 0x27 ∉ s) : contents (Utf8.glyphs
    (("println" : Bytes) ++ 0x20 :: ((0x27 :: s ++ [0x27]) ++ [0x0A]))) = printing s := by
  have hword : ∃ g rest, Utf8.glyphs "println" = g :: rest ∧
      Lexeme.read g rest = ⟨.printlnWord, "println", rest.length + 1⟩ :=
    ⟨_, _, rfl, by decide⟩
  have hquoted := read_of_quoted (q := 0x27) (by decide) h
  have hblank : Glyph.isLayout ⟨0x20, [0x20]⟩ = true := by decide
  have hend : Glyph.isLayout ⟨0x0A, [0x0A]⟩ = true := by decide
  rw [Utf8.glyphs_append_ascii (by decide),
    contents_of_read hword nofun (by rintro - ⟨⟩; exact hblank),
    Utf8.glyphs_append_ascii (by decide)]
  refine congrArg (_ :: ·) ((contents_blank hblank _).trans ?_)
  rw [contents_of_read hquoted nofun (by rintro - ⟨⟩; exact hend)]
  exact congrArg (_ :: ·) (contents_blank hend [])

/-- A token of a string is read as the string. -/
theorem Expr.reads_string {t : Token} (h : t.kind = .string) :
    Expr.Reads .or (.string t.span t.literal) [t] :=
  .operand rfl (.operand rfl (.operand rfl (.operand rfl (.operand rfl (.operand rfl
    (.unsigned (.base (.string h))))))))

/-- A text whose tokens print a string has a program that prints it. -/
theorem exists_code_of_contents {source : Bytes} (h : contents (Utf8.glyphs source) = printing s)
    (name : Bytes) : ∃ script p, parse source = .ok script ∧ script.compile name = .ok p ∧
      p.code.toList = [.push (.string s), .simple .println, .simple .halt] := by
  obtain ⟨t, rest, htokens, ht, hrest⟩ := List.map_eq_cons_iff.1 h
  obtain ⟨u, rest, rfl, hu, hrest⟩ := List.map_eq_cons_iff.1 hrest
  obtain ⟨stop, rfl, hstop⟩ := List.map_eq_singleton_iff.1 hrest
  obtain ⟨htkind, -⟩ := Prod.mk.inj ht
  obtain ⟨hukind, huliteral⟩ := Prod.mk.inj hu
  have hblock := Part.Reads.more (Part.Reads.print (t := t) (by rw [htkind]; decide)
    (Expr.reads_string hukind)) (fun _ => by simp) .done
  have hnone : ∀ a ∈ [t] ++ [u], a.kind ≠ .error := by simp [htkind, hukind]
  obtain ⟨hstatements, herrors⟩ := Parser.script_of_reads (congrArg Prod.fst hstop) hnone hblock
  have htokenize : tokenize source = [t] ++ [u] ++ [stop] := htokens
  rw [← htokenize] at hstatements herrors
  have hparse := parse_eq_ok.2 ⟨rfl, herrors⟩
  obtain ⟨p, hp⟩ := Script.compile_of_supported (supported_of_parse hparse) name
  refine ⟨_, p, hparse, hp, (Script.code_of_compile hp).2.trans ?_⟩
  rw [Script.code, hstatements]
  simp [Stmt.codeOf, Stmt.code, Expr.code, htkind, huliteral]

/-- A program that prints a string, and then ends. -/
theorem execute_printing {p : Program}
    (h : p.code.toList = [.push (.string s), .simple .println, .simple .halt]) (fuel : Nat)
    (file : Bytes) :
    Command.execute (fuel + 3) p file 0 = some { output := Escape.decode s ++ "\n" } := by
  have hcode (pc : Nat) : p.code[pc]? = p.code.toList[pc]? := Array.getElem?_toList.symm
  have hpush := @Machine.turn_push p {} (.string s) (by rw [hcode, h]; rfl)
  have hprint := @Machine.turn_print p ((Machine.State.past {} 1).push (some (.string s))) true
    (.string s) [] (by rw [hcode, h]; rfl) rfl
  have hturns := (Machine.Turns.single hpush).trans (.single hprint)
  have hfree := Machine.free_of_halted hturns (Machine.turn_halt (by rw [hcode, h]; rfl))
  have hrun := (Machine.run_eq_free _).trans (Machine.free_mono hfree fuel)
  rw [Nat.add_comm, Command.execute]
  simp only [hrun, Int.toNat_zero]
  exact congrArg (fun output : Bytes => some ({ output } : Command.Result))
    (List.append_nil (printedText true (.string s)))

end

/-! ## Texts of paths -/

theorem Utf8.isValid_joined {b : UInt8} (hb : b < 0x80) : ∀ parts : List Bytes,
    isValid (Bytes.joined b parts) = parts.all isValid
  | [] => rfl
  | [part] => by rw [Bytes.joined, List.all_cons, List.all_nil, Bool.and_true]
  | part :: next :: parts => by
    rw [Bytes.joined, isValid_append_ascii hb, isValid_joined hb (next :: parts)]
    rfl

namespace Path

/-- The shortest form of a path is a text if the path is one. -/
theorem isValid_clean {path : Bytes} (h : Utf8.isValid path = true) :
    Utf8.isValid (clean path) = true := by
  have hslash : slash < 0x80 := by decide
  rw [← Bytes.joined_partsAt slash path, Utf8.isValid_joined hslash, List.all_eq_true] at h
  have hparts : Utf8.isValid (Bytes.joined slash (cleanParts path)) = true := by
    rw [Utf8.isValid_joined hslash, List.all_eq_true]
    exact fun part hpart => h part (of_mem_cleanParts hpart).1
  rw [clean]
  split
  · exact (Utf8.isValid_append_ascii hslash [] _).trans hparts
  split
  · decide
  · exact hparts

end Path

/-! ## The current directory -/

namespace FileSystem

variable {parts : List Bytes} {name : Bytes}

/-- The current directory is there, and nothing stands in it. Its path is in its shortest form,
leads to it, and leaves room for the name of a manifest. -/
structure IsEmptyHere (fs : FileSystem) : Prop where
  shortest : Path.cleanParts (pathOf fs.current) = fs.current
  located : fs.locate (pathOf fs.current) = .ok fs.current
  directory : fs.node? fs.current = some .directory
  empty : ∀ parts, parts ≠ [] → fs.node? (fs.current ++ parts) = none
  short : (pathOf (fs.current ++ [Manifest.fileName])).length < pathBound

variable {fs : FileSystem}

/-- The whole path of a name in the current directory leads there, if it is as long as the path of a
manifest. -/
theorem IsEmptyHere.locate_pathOf (h : fs.IsEmptyHere) (hname : Path.IsName name) (hzero : 0 ∉ name)
    (hlength : name.length = Manifest.fileName.length) :
    fs.locate (pathOf (fs.current ++ [name])) = .ok (fs.current ++ [name]) := by
  have hshort := h.short
  rw [pathOf_concat, List.length_append, List.length_cons, ← hlength, ← List.length_cons,
    ← List.length_append, ← pathOf_concat, ← join_pathOf h.shortest hname] at hshort
  rw [← join_pathOf h.shortest hname]
  exact locate_join_of_locate hname hzero (hlength.trans_le (by decide)) h.located h.directory
    hshort

end FileSystem

/-! ## Projects -/

namespace Command

open FileSystem

/-- The name of the script of a new project. -/
def scriptName : Bytes := "main.pinky"

theorem isName_scriptName : Path.IsName scriptName := by
  constructor <;> decide

/-- The tree with the manifest of a new project in the current directory. -/
def withManifest (fs : FileSystem) (name : Bytes) : FileSystem :=
  fs.put (fs.current ++ [Manifest.fileName]) (.file (newProject name).text)

/-- The tree with the manifest and the script of a new project in the current directory. -/
def withProject (fs : FileSystem) (name : Bytes) : FileSystem :=
  (withManifest fs name).put (fs.current ++ [scriptName]) (.file (firstScript name))

/-- What is said of a new project. -/
def projectMade : Result := { output := "Created pinky.toml\nCreated main.pinky\n" }

variable {fs : FileSystem} {name : Bytes}

theorem storable_newProject (h : Utf8.isValid name = true) : (newProject name).Storable := by
  have hzero : fitsInt64 0 = true := by decide
  have hentry : Utf8.isValid scriptName = true := by decide
  have hbuild : Utf8.isValid "build" = true := by decide
  have hextension : Utf8.isValid Manifest.objectExtension = true := by decide
  have hpath :
      Utf8.isValid ("build" ++ Path.slash :: (name ++ Manifest.objectExtension)) = true := by
    rw [Utf8.isValid_append_ascii (by decide), hbuild, Utf8.isValid_append h hextension]
    rfl
  exact ⟨h, hentry, hzero, rfl, Path.isValid_clean hpath, rfl, hzero⟩

theorem complaint?_newProject (name : Bytes) :
    (newProject name).withDefaults.complaint? = none := by
  have hproblems : (newProject name).withDefaults.problems = Manifest.default.problems := rfl
  have hnone : Manifest.default.problems = [] := by decide
  rw [Manifest.complaint?, hproblems, hnone]

theorem pathOf_scriptName_ne (parts : List Bytes) :
    pathOf (parts ++ [Manifest.fileName]) ≠ pathOf (parts ++ [scriptName]) := by
  rw [pathOf_concat, pathOf_concat, Ne, List.append_cancel_left_eq]
  decide

theorem free_withManifest (h : fs.IsEmptyHere) (name : Bytes) :
    (withManifest fs name).node? (fs.current ++ [scriptName]) = none := by
  rw [withManifest, node?_put_of_ne (pathOf_scriptName_ne fs.current).symm]
  exact h.empty _ (List.cons_ne_nil _ _)

theorem not_directory_of_free {place : List Bytes} (h : fs.node? place = none) :
    fs.node? place ≠ some .directory := by
  rw [h]
  exact nofun

theorem locate_scriptName (h : fs.IsEmptyHere) (name : Bytes) :
    (withManifest fs name).locate scriptName = .ok (fs.current ++ [scriptName]) :=
  (locate_put (not_directory_of_free (h.empty _ (List.cons_ne_nil _ _))) scriptName).2
    (locate_name h.directory isName_scriptName (by decide) (by decide))

/-- Both files of a project are written to an empty directory. -/
theorem after_initProject (h : fs.IsEmptyHere) (name : Bytes) :
    fs.after (initProject name) = (projectMade, withProject fs name) := by
  have hpath : Path.join Path.here Manifest.fileName = Manifest.fileName := by decide
  have hmanifest := locate_name h.directory Manifest.isName_fileName (by decide) (by decide)
  have hcreate :
      fs.after ((newProject name).create Path.here) = (.ok (), withManifest fs name) := by
    rw [Manifest.after_create, hpath, write_fresh hmanifest (h.empty _ (List.cons_ne_nil _ _))]
    rfl
  have hscript := locate_scriptName h name
  have hfree := free_withManifest h name
  have hmissing : (withManifest fs name).lookup scriptName = .error .missing := by
    simp only [lookup, hscript, bind, Except.bind, hfree]
  have hwrite : (withManifest fs name).write false scriptName (firstScript name) =
      .ok (withProject fs name) := write_of_locate (not_directory_of_free hfree) hscript
  have hentry : (newProject name).entry = scriptName := rfl
  rw [initProject, after_bind, hcreate, hentry]
  simp only [after_bind, after_status, hmissing, Except.map, after_write, hwrite, settle,
    after_pure]
  rfl

theorem read_scriptName (h : fs.IsEmptyHere) (name : Bytes) :
    (withProject fs name).read (pathOf (fs.current ++ [scriptName])) = .ok (firstScript name) := by
  have hfresh := h.empty [Manifest.fileName] (List.cons_ne_nil _ _)
  refine read_put (not_directory_of_free (free_withManifest h name)) ?_
  exact (locate_put (not_directory_of_free hfresh) _).2
    (h.locate_pathOf isName_scriptName (by decide) (by decide))

theorem read_fileName (h : fs.IsEmptyHere) (name : Bytes) :
    (withProject fs name).read (pathOf (fs.current ++ [Manifest.fileName])) =
      .ok (newProject name).text := by
  have hfresh := not_directory_of_free (h.empty [Manifest.fileName] (List.cons_ne_nil _ _))
  have hplace := h.locate_pathOf Manifest.isName_fileName (by decide) rfl
  have hmanifest := @read_put fs _ (newProject name).text hfresh _ hplace
  refine read_eq_ok.2 ((lookup_put (not_directory_of_free (free_withManifest h name)) ?_ _).2
    (read_eq_ok.1 hmanifest))
  intro r hr
  obtain rfl := Except.ok.inj (((locate_put hfresh _).1 hr).symm.trans hplace)
  exact pathOf_scriptName_ne fs.current

/-- The command line that makes a project. -/
theorem after_run_init (h : fs.IsEmptyHere) (hne : name ≠ []) (fuel : Nat) :
    fs.after (run fuel ["-init", name]) = (some projectMade, withProject fs name) := by
  have hwords : Options.ofWords ["-init", name] = .ok { initName := name } := by
    rw [Options.ofWords, readFlags_valued rfl rfl rfl]
    rfl
  rw [run, hwords]
  simp only [ne_eq, hne, not_false_eq_true, if_true, after_bind, after_initProject h, after_pure]

/-- The settings of a new project are found in its directory. -/
theorem after_find_project (h : fs.IsEmptyHere) (hname : Utf8.isValid name = true) :
    (withProject fs name).after (Manifest.find Path.here) =
      (.ok (some { (newProject name).withDefaults with dir := pathOf fs.current }),
        withProject fs name) := by
  have hread := read_fileName h name
  have hlookup := read_eq_ok.1 hread
  have hcurrent : (withProject fs name).current = fs.current := rfl
  obtain ⟨rest, hrest⟩ := ancestors_pathOf h.shortest
  rw [Manifest.after_find, hcurrent, absolute_here h.shortest, hrest, Manifest.after_loadFirst,
    Manifest.after_load, join_pathOf h.shortest Manifest.isName_fileName, hread, hlookup, hcurrent]
  have habsolute : Path.absolute (pathOf fs.current) (pathOf fs.current) = pathOf fs.current :=
    clean_pathOf h.shortest
  simp only [habsolute, Manifest.ofFile_text (storable_newProject hname), complaint?_newProject,
    Except.map]

/-- What a program made of a text does. -/
def runText (fuel : Nat) (file source : Bytes) : Option Result :=
  match programOfSource file source with
  | .error result => some result
  | .ok p => execute fuel p file 0

/-- In a new project, its script is run when no file is named. -/
theorem after_run_project (h : fs.IsEmptyHere) (hname : Utf8.isValid name = true) (fuel : Nat) :
    (withProject fs name).after (run fuel []) =
      (runText fuel (pathOf (fs.current ++ [scriptName])) (firstScript name),
        withProject fs name) := by
  have hwords : Options.ofWords [] = .ok {} := rfl
  have hread := read_scriptName h name
  have hextension :
      Path.extension (pathOf (fs.current ++ [scriptName])) ≠ Manifest.objectExtension := by
    rw [extension_pathOf_concat isName_scriptName.noSlash]
    decide
  have hentry :
      Manifest.entryPath { (newProject name).withDefaults with dir := pathOf fs.current } =
        pathOf (fs.current ++ [scriptName]) := join_pathOf h.shortest isName_scriptName
  have hfile : pathOf (fs.current ++ [scriptName]) ≠ [] := List.cons_ne_nil _ _
  rw [run, hwords]
  simp only [ne_eq, not_true_eq_false, if_false, after_bind, after_find_project h hname,
    Option.getD_some, handle, Bool.false_eq_true, hentry, hfile]
  have hprogram (source : Bytes) : programOf (pathOf (fs.current ++ [scriptName])) source =
      programOfSource (pathOf (fs.current ++ [scriptName])) source := if_neg hextension
  cases hp : programOfSource (pathOf (fs.current ++ [scriptName])) (firstScript name) with
  | error result =>
    rw [after_handleFile_error hread ((hprogram _).trans hp)]
    simp only [runText, hp]
  | ok p =>
    rw [after_handleFile_execute hread ((hprogram _).trans hp) rfl rfl]
    simp only [runText, hp]
    rfl

/-- What a project of this name says. -/
def greeting (name : Bytes) : Result := { output := "Hello from " ++ name ++ "\n" }

theorem runText_firstScript (h : 0x27 ∉ name) (fuel : Nat) (file : Bytes) :
    runText (fuel + 3) file (firstScript name) = some (greeting (Escape.decode name)) := by
  have hplain : ∀ b ∈ ("Hello from " : Bytes), b ≠ 0x27 ∧ b ≠ Escape.backslash := by
    decide +kernel
  have hquote : 0x27 ∉ ("Hello from " : Bytes) ++ name := by
    rw [List.mem_append, not_or]
    exact ⟨fun hmem => (hplain _ hmem).1 rfl, h⟩
  have hsource : firstScript name = ("println" : Bytes) ++
      0x20 :: ((0x27 :: (("Hello from " : Bytes) ++ name) ++ [0x27]) ++ [0x0A]) := by
    have hbefore : ("println 'Hello from " : Bytes) =
        ("println" : Bytes) ++ 0x20 :: 0x27 :: ("Hello from " : Bytes) := by decide
    have hbehind : ("'\n" : Bytes) = [0x27] ++ [0x0A] := by decide
    rw [firstScript, hbefore, hbehind]
    simp
  obtain ⟨script, p, hparse, hp, hcode⟩ := exists_code_of_contents
    (hsource ▸ contents_quoted hquote) (Path.stem file)
  simp only [runText, programOfSource, hparse, hp]
  rw [execute_printing hcode, Escape.decode_append_of_notMem fun hmem => (hplain _ hmem).2 rfl]
  rfl

/-- A new project runs. In an empty directory a project of any name that is a text is made without
complaint, and running it runs its script. If there is no apostrophe in the name, the script greets
with the name, its escapes resolved, and so with the name as it is if there is no backslash in it
either. -/
theorem new_project_runs (h : fs.IsEmptyHere) (hne : name ≠ []) (hname : Utf8.isValid name = true) :
    (∀ fuel, fs.after (run fuel ["-init", name]) = (some projectMade, withProject fs name)) ∧
    (∀ fuel, (withProject fs name).after (run fuel []) =
      (runText fuel (pathOf (fs.current ++ [scriptName])) (firstScript name),
        withProject fs name)) ∧
    (0x27 ∉ name → ∀ fuel, (withProject fs name).after (run (fuel + 3) []) =
      (some (greeting (Escape.decode name)), withProject fs name)) ∧
    (0x27 ∉ name → Escape.backslash ∉ name → ∀ fuel,
      (withProject fs name).after (run (fuel + 3) []) =
        (some (greeting name), withProject fs name)) := by
  have hgreets (hquote : 0x27 ∉ name) (fuel : Nat) :
      (withProject fs name).after (run (fuel + 3) []) =
        (some (greeting (Escape.decode name)), withProject fs name) := by
    rw [after_run_project h hname, runText_firstScript hquote]
  refine ⟨after_run_init h hne, after_run_project h hname, hgreets, fun hquote hplain fuel => ?_⟩
  rw [hgreets hquote, Escape.decode_of_notMem hplain]

theorem isEmptyHere_workTree : Manifest.workTree.IsEmptyHere where
  shortest := by decide
  located := by decide
  directory := by decide
  empty parts hparts := by
    obtain ⟨part, rest, rfl⟩ := List.exists_cons_of_ne_nil hparts
    have hne : pathOf (("work" : Bytes) :: part :: rest) ≠ "/work" := by
      intro heq
      have hwork : ("work" : Bytes).length = 4 ∧ ("/work" : Bytes).length = 5 := by decide
      have hlength := congrArg List.length heq
      rw [pathOf, List.length_cons, Bytes.joined, List.length_append, List.length_cons] at hlength
      omega
    exact (Table.find?_insert _ _ _ _).trans (if_neg hne)
  short := by decide

/-- A project with letters outside ASCII, quotes, a slash and a hyphen in front. -/
theorem new_project_runs_of_quotes :
    let name : Bytes := "-\"hé\" /../x"
    Manifest.workTree.IsEmptyHere ∧ name ≠ [] ∧ Utf8.isValid name = true ∧ 0x27 ∉ name ∧
      Escape.backslash ∉ name ∧ ∃ made,
        Manifest.workTree.after (run 0 ["-init", name]) = (some projectMade, made) ∧
        made.after (run 3 []) = (some { output := "Hello from -\"hé\" /../x\n" }, made) := by
  intro name
  have hne : name ≠ [] := by decide
  have hname : Utf8.isValid name = true := by decide +kernel
  have hquote : 0x27 ∉ name := by decide +kernel
  have hplain : Escape.backslash ∉ name := by decide +kernel
  obtain ⟨hmade, -, -, hgreets⟩ := new_project_runs isEmptyHere_workTree hne hname
  refine ⟨isEmptyHere_workTree, hne, hname, hquote, hplain, _, hmade 0, ?_⟩
  have hgreeting : greeting name = { output := "Hello from -\"hé\" /../x\n" } := by decide +kernel
  rw [hgreets hquote hplain 0, hgreeting]

/-- A project does not say its name if there is an apostrophe in it, which ends the string of the
script early, or an escape, which is resolved. -/
theorem new_project_broken :
    (∃ made, Manifest.workTree.after (run 0 ["-init", "it's"]) = (some projectMade, made) ∧
      ∀ fuel, (made.after (run fuel [])).1 =
        some (.failure .userError "/work/main.pinky:1:25: unterminated string\n")) ∧
    ∃ made, Manifest.workTree.after (run 0 ["-init", "C:\\temp"]) = (some projectMade, made) ∧
      ∀ fuel, (made.after (run (fuel + 3) [])).1 = some { output := "Hello from C:\temp\n" } := by
  have hempty := isEmptyHere_workTree
  constructor
  · have hrefused : (match programOfSource (pathOf (Manifest.workTree.current ++ [scriptName]))
        (firstScript "it's") with
        | .error result => some result
        | .ok _ => none) =
        some (.failure .userError "/work/main.pinky:1:25: unterminated string\n") := by
      decide +kernel
    refine ⟨_, after_run_init hempty (by decide) 0, fun fuel => ?_⟩
    rw [after_run_project hempty (by decide +kernel), ← hrefused]
    cases hp : programOfSource (pathOf (Manifest.workTree.current ++ [scriptName]))
        (firstScript "it's") with
    | error result => simp only [runText, hp]
    | ok p => simp [hp] at hrefused
  · refine ⟨_, after_run_init hempty (by decide) 0, fun fuel => ?_⟩
    rw [after_run_project hempty (by decide +kernel), runText_firstScript (by decide +kernel)]
    decide +kernel

end Command

end Scriptlet
