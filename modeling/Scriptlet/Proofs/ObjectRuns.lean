import Scriptlet.Command.Run
import Scriptlet.Proofs.Compiled
import Scriptlet.Proofs.FileTrees

/-!
# Running object files

The command line that writes the object file of a script, and the two that run the script and the
file, read the same settings. What was written is read back as the program of the script, and the
check of the file finds nothing wrong with it. So both runs print the same and end with the same
status, unless a string of the script is no well-formed text : the file is written, and refused when
it is run.

Main statement : `object_runs_like_source`.
-/

namespace Scriptlet.Command

open FileSystem

/-! ## Command lines -/

/-- The words that limit a run, if there are any. -/
def limitWords : Option Bytes → List Bytes
  | none => []
  | some steps => ["-max-steps", steps]

/-- The command line that runs a file. -/
def runLine (limit : Option Bytes) (file : Bytes) : List Bytes := limitWords limit ++ [file]

/-- The command line that writes the object file of a script to `out`. -/
def writeLine (limit : Option Bytes) (out file : Bytes) : List Bytes :=
  limitWords limit ++ [("-o" : Bytes), out, file]

/-- A flag that needs a value takes the next word. -/
theorem readFlags_valued {ω : Type} {flags : List (Bytes × Flag ω)} {options options' : ω}
    {word name value : Bytes} {set : ω → Bytes → Except Bytes ω}
    (hword : Word.ofBytes word = .flag name none)
    (hflag : flags.find? (fun f => f.1 = name) = some (name, .valued set))
    (hset : set options value = .ok options') (words : List Bytes) :
    readFlags flags options (word :: value :: words) = readFlags flags options' words := by
  simp [readFlags, hword, hflag, hset]

/-- A limit that is a number is taken, and the rest of the words read after it. -/
theorem readFlags_limitWords {limit : Option Bytes} (h : ∀ s ∈ limit, ∃ n, integer s = .ok n) :
    ∃ n, ∀ words, readFlags Options.flags {} (limitWords limit ++ words) =
      readFlags Options.flags { maxSteps := n } words := by
  cases limit with
  | none => exact ⟨-1, fun _ => rfl⟩
  | some s =>
    obtain ⟨n, hn⟩ := h s rfl
    refine ⟨n, readFlags_valued rfl rfl ?_⟩
    simp only [hn]

theorem readFlags_output (options : Options) (out : Bytes) (words : List Bytes) :
    readFlags Options.flags options ("-o" :: out :: words) =
      readFlags Options.flags { options with output := out } words :=
  readFlags_valued rfl rfl rfl words

theorem readFlags_operand {ω : Type} {flags : List (Bytes × Flag ω)} {options : ω} {file : Bytes}
    (h : Word.ofBytes file = .operand) :
    readFlags flags options [file] = .ok (options, [file]) := by
  simp [readFlags, h]

/-- Both command lines ask for a file under one limit. -/
theorem ofWords_lines {limit : Option Bytes} (h : ∀ s ∈ limit, ∃ n, integer s = .ok n) :
    ∃ n, ∀ file, Word.ofBytes file = .operand →
      Options.ofWords (runLine limit file) = .ok { maxSteps := n, file } ∧
      ∀ out, Options.ofWords (writeLine limit out file) =
        .ok { maxSteps := n, output := out, file } := by
  obtain ⟨n, hn⟩ := readFlags_limitWords h
  refine ⟨n, fun file hfile => ⟨?_, fun out => ?_⟩⟩
  · rw [Options.ofWords, runLine, hn, readFlags_operand hfile]
  · rw [Options.ofWords, writeLine, hn, readFlags_output, readFlags_operand hfile]

/-! ## Files -/

section

variable {fs : FileSystem} {fuel : Nat} {words : List Bytes} {options : Options}
  {settings : Manifest} {file content : Bytes} {p : Program}

/-- A command line that names a file. -/
theorem after_run {found : Option Manifest} {n : Int} {output : Bytes}
    (hwords : Options.ofWords words = .ok { maxSteps := n, output, file }) (hfile : file ≠ [])
    (hfind : (fs.after (Manifest.find Path.here)).1 = .ok found) : fs.after (run fuel words) =
      fs.after (handleFile fuel { maxSteps := n, output, file } (found.getD Manifest.default)
        file) := by
  have hfound : fs.after (Manifest.find Path.here) = (.ok found, fs) :=
    Prod.ext hfind (Manifest.after_find_tree Path.here fs)
  rw [run, hwords]
  simp only [ne_eq, not_true_eq_false, if_false, after_bind, hfound, handle, hfile,
    not_false_eq_true, if_true, Bool.false_eq_true]

/-- A file that has no program. -/
theorem after_handleFile_error {result : Result} (hread : fs.read file = .ok content)
    (hprogram : programOf file content = .error result) :
    fs.after (handleFile fuel options settings file) = (some result, fs) := by
  rw [handleFile, after_bind, after_read, hread]
  simp only [hprogram, after_pure]

/-- A file that is run. -/
theorem after_handleFile_execute (hread : fs.read file = .ok content)
    (hprogram : programOf file content = .ok p) (hdump : options.dump = false)
    (hpath : objectPath options settings file = []) :
    fs.after (handleFile fuel options settings file) =
      (execute fuel p file (if 0 ≤ options.maxSteps then options.maxSteps else settings.runSteps),
        fs) := by
  rw [handleFile, after_bind, after_read, hread]
  simp only [hprogram, hdump, hpath, Bool.false_eq_true, if_false, ne_eq, not_true_eq_false,
    after_pure]

theorem after_handleFile_run {n : Int} (hread : fs.read file = .ok content)
    (hprogram : programOf file content = .ok p) :
    fs.after (handleFile fuel { maxSteps := n, file } settings file) =
      (execute fuel p file (if 0 ≤ n then n else settings.runSteps), fs) :=
  after_handleFile_execute hread hprogram rfl rfl

/-- A file whose object file is written to the current directory. -/
theorem after_handleFile_write {n : Int} {out : Bytes} {place : List Bytes}
    (hread : fs.read file = .ok content) (hprogram : programOf file content = .ok p)
    (hout : out ≠ []) (hslash : Path.slash ∉ out) (hplace : fs.locate out = .ok place)
    (hfree : fs.node? place ≠ some .directory) :
    fs.after (handleFile fuel { maxSteps := n, output := out, file } settings file) =
      (some {}, fs.put place (.file p.toObject)) := by
  have hwrite : fs.after (writeObject p out) = ({}, fs.put place (.file p.toObject)) := by
    rw [writeObject, Path.parent_of_no_slash hslash]
    simp only [if_true, after_bind, after_pure, after_write, write_of_locate hfree hplace, settle]
  rw [handleFile, after_bind, after_read, hread]
  simp only [hprogram, objectPath, ne_eq, hout, not_false_eq_true, if_true, Bool.false_eq_true,
    if_false, after_bind, hwrite, after_pure]

end

/-! ## Programs of files -/

/-- The program of a source file comes from a tree of its tokens. -/
theorem exists_of_programOfSource {file source : Bytes} {p : Program}
    (h : programOfSource file source = .ok p) : ∃ script : Script,
      script.From (tokenize source) ∧ script.compile (Path.stem file) = .ok p := by
  rw [programOfSource] at h
  cases hparse : parse source with
  | error errors =>
    rw [hparse] at h
    cases h
  | ok script =>
    simp only [hparse] at h
    refine ⟨script, from_of_parse hparse, ?_⟩
    cases hp : script.compile (Path.stem file) with
    | error e =>
      rw [hp] at h
      cases h
    | ok q =>
      simp only [hp] at h
      rw [Except.ok.inj h]

/-- The refusal of an object file. -/
def refusal (out : Bytes) : Result :=
  .failure .userError (out ++ ": " ++ ObjectError.malformed.message ++ "\n")

/-- The object file of the program of a text is read back, checked and taken, or refused for its
texts. -/
theorem programOfObject_toObject {source name : Bytes} {script : Script} {p : Program}
    (hscript : script.From (tokenize source)) (hp : script.compile name = .ok p) (hfits : p.Fits)
    (out : Bytes) : programOfObject out p.toObject =
      if p.isTextual then .ok p else .error (refusal out) := by
  have hcheck : p.verifyMessage? = none :=
    (Program.verifyMessage?_eq_none_iff p).2 (hscript.wellFormed (Script.code_of_compile hp).2)
  rw [programOfObject, Program.ofObject_toObject hfits, stored_of_compile hscript hp]
  cases p.isTextual with
  | true => simp only [if_true, hcheck]
  | false => rfl

/-! ## The two ways to run a script -/

/-- The command line that runs `file` compiles its text `source` to the program `p`. -/
structure Compiles (fs : FileSystem) (limit : Option Bytes) (file source : Bytes) (p : Program) :
    Prop where
  operand : Word.ofBytes file = .operand
  extension : Path.extension file ≠ Manifest.objectExtension
  limit : ∀ s ∈ limit, ∃ n, integer s = .ok n
  settings : ∃ found, (fs.after (Manifest.find Path.here)).1 = .ok found
  read : fs.read file = .ok source
  program : programOfSource file source = .ok p

/-- An object file can be written to `out`, a name in the current directory, and stands at `place`
then. -/
structure CanWrite (fs : FileSystem) (out : Bytes) (place : List Bytes) : Prop where
  operand : Word.ofBytes out = .operand
  extension : Path.extension out = Manifest.objectExtension
  noSlash : Path.slash ∉ out
  located : fs.locate out = .ok place
  free : fs.node? place ≠ some .directory

/-- What a run shows : its status and what it printed. -/
def Result.shown (r : Result) : ExitStatus × Bytes := (r.status, r.output)

/-- The name of a script and the strings that its program pushes are well-formed. -/
def HasTexts (file : Bytes) (p : Program) : Prop := Utf8.isValid (Path.stem file) = true ∧
  ∀ i ∈ p.code.toList, ∀ s, i.arg = some (.string s) → Utf8.isValid s = true

theorem hasTexts_iff {file source : Bytes} {p : Program}
    (h : programOfSource file source = .ok p) : HasTexts file p ↔ p.isTextual = true := by
  obtain ⟨script, hscript, hp⟩ := exists_of_programOfSource h
  exact (isTextual_of_compile hscript hp).symm

/-- The name of the file changes what a run complains about, and nothing else. -/
theorem shown_execute (fuel : Nat) (p : Program) (file out : Bytes) (limit : Int) :
    (execute fuel p out limit).map Result.shown = (execute fuel p file limit).map Result.shown := by
  rw [execute, execute]
  cases Machine.run fuel p limit.toNat {} .working <;> rfl

section

variable {fs : FileSystem} {limit : Option Bytes} {file source out : Bytes} {p : Program}
  {place : List Bytes}

theorem bounds_of_read {content : Bytes} (h : fs.read file = .ok content) :
    file ≠ [] ∧ file.length < pathBound := by
  obtain ⟨r, hr, -⟩ := lookup_eq_ok.1 (read_eq_ok.1 h)
  rw [locate] at hr
  split at hr
  · cases hr
  next hne =>
    split at hr
    · cases hr
    split at hr
    · cases hr
    next hlen => exact ⟨hne, Nat.lt_of_not_le hlen⟩

theorem CanWrite.isName (h : CanWrite fs out place) : Path.IsName out := by
  refine ⟨h.noSlash, ?_, ?_, ?_⟩
  all_goals
    rintro rfl
    exact absurd h.extension (by decide)

/-- An object file is no manifest. -/
theorem CanWrite.not_fileName (h : CanWrite fs out place) :
    ¬Manifest.fileName <:+ pathOf place := by
  have hout : out <:+ pathOf place :=
    suffix_of_locate h.isName ⟨[], Bytes.partsAt_of_not_mem h.noSlash⟩ h.located
  have hext : Manifest.objectExtension <:+ pathOf place := by
    rw [← h.extension]
    exact (Path.extension_suffix out).trans hout
  intro hmanifest
  rcases List.suffix_or_suffix_of_suffix hext hmanifest with h | h
  all_goals exact absurd h (by decide)

/-- The program of a script is also the program of its object file, or the file is refused. -/
theorem Compiles.programOf_object (h : Compiles fs limit file source p)
    (hsource : source.length + 1 < int64Bound) (hsize : p.code.size ≤ Cbor.maxCount)
    (hout : CanWrite fs out place) :
    programOf out p.toObject = if p.isTextual then .ok p else .error (refusal out) := by
  obtain ⟨script, hscript, hp⟩ := exists_of_programOfSource h.program
  obtain ⟨hne, hlen⟩ := bounds_of_read h.read
  have hname := Path.length_stem_le hne
  have hbound : pathBound < int64Bound := by decide
  rw [programOf, if_pos hout.extension]
  exact programOfObject_toObject hscript hp
    (fits_of_compile hscript hp hsource (by omega) hsize) out

/-- Compiling a script to an object file does not change what it does, but for strings that are no
texts. If a command line compiles a script to at most as many instructions as an array holds, then
its object file is written without complaint. It is run with the same output and status as the
script, whatever the limit, or refused because the name of the script or one of its strings is not
well-formed. -/
theorem object_runs_like_source (hfile : Compiles fs limit file source p)
    (hsource : source.length + 1 < int64Bound) (hsize : p.code.size ≤ Cbor.maxCount)
    (hout : CanWrite fs out place) :
    (∀ fuel, fs.after (run fuel (writeLine limit out file)) =
      (some {}, fs.put place (.file p.toObject))) ∧
    (HasTexts file p → ∀ fuel,
      ((fs.put place (.file p.toObject)).after
        (run fuel (runLine limit out))).1.map Result.shown =
      (fs.after (run fuel (runLine limit file))).1.map Result.shown) ∧
    (¬HasTexts file p → ∀ fuel,
      ((fs.put place (.file p.toObject)).after (run fuel (runLine limit out))).1 =
        some (refusal out)) := by
  obtain ⟨found, hfound⟩ := hfile.settings
  obtain ⟨n, hlines⟩ := ofWords_lines hfile.limit
  obtain ⟨hrun, hwrite⟩ := hlines file hfile.operand
  obtain ⟨hrun', -⟩ := hlines out hout.operand
  have hne := (bounds_of_read hfile.read).1
  have hne' := hout.isName.ne_nil
  have hprogram : programOf file source = .ok p := by
    rw [programOf, if_neg hfile.extension, hfile.program]
  have hobject := hfile.programOf_object hsource hsize hout
  have hread := @read_put fs place p.toObject hout.free out hout.located
  have hfound' : ((fs.put place (.file p.toObject)).after (Manifest.find Path.here)).1 =
      .ok found := by
    rw [Manifest.after_find_put hout.free hout.not_fileName, hfound]
  refine ⟨fun fuel => ?_, fun htexts fuel => ?_, fun htexts fuel => ?_⟩
  · rw [after_run (hwrite out) hne hfound]
    exact after_handleFile_write hfile.read hprogram hne' hout.noSlash hout.located hout.free
  · rw [if_pos ((hasTexts_iff hfile.program).1 htexts)] at hobject
    rw [after_run hrun' hne' hfound', after_handleFile_run hread hobject,
      after_run hrun hne hfound, after_handleFile_run hfile.read hprogram]
    exact shown_execute fuel p file out _
  · rw [if_neg (mt (hasTexts_iff hfile.program).2 htexts)] at hobject
    rw [after_run hrun' hne' hfound', after_handleFile_error hread hobject]

end

/-- A tree with one script. -/
def scriptTree (source : Bytes) : FileSystem :=
  { nodes := .ofList [("/a.pinky", .file source)] }

/-- A script that prints a string of one byte, which is no text. -/
def byteScript : Bytes := ("println \"" : Bytes) ++ 0xFF :: ("\"\n" : Bytes)

theorem canWrite_scriptTree (source : Bytes) :
    CanWrite (scriptTree source) "out.pkbc" [("out.pkbc" : Bytes)] := by
  have hnode : (scriptTree source).node? [("out.pkbc" : Bytes)] = none := rfl
  refine ⟨by decide, by decide, by decide, rfl, ?_⟩
  rw [hnode]
  exact nofun

theorem compiles_scriptTree {source : Bytes} {p : Program}
    (h : programOfSource "a.pinky" source = .ok p) :
    Compiles (scriptTree source) none "a.pinky" source p :=
  ⟨by decide, by decide, nofun, ⟨none, rfl⟩, rfl, h⟩

/-- What is computed of the program of a script holds of it. -/
theorem exists_program {source : Bytes} {textual : Bool} {size : Nat}
    (h : (programOfSource "a.pinky" source).toOption.map (fun p => (p.isTextual, p.code.size)) =
      some (textual, size)) :
    ∃ p, programOfSource "a.pinky" source = .ok p ∧ p.isTextual = textual ∧ p.code.size = size := by
  cases hp : programOfSource "a.pinky" source with
  | error e =>
    rw [hp] at h
    cases h
  | ok p =>
    rw [hp] at h
    exact ⟨p, rfl, Prod.mk.inj (Option.some.inj h)⟩

/-- A script with a text, whose object file prints it, and one with a string that is no text. -/
theorem object_runs_like_source_of_strings :
    (∃ fs, (scriptTree "println 'a'").after (run 4 (writeLine none "out.pkbc" "a.pinky")) =
        (some {}, fs) ∧
      (fs.after (run 4 (runLine none "out.pkbc"))).1.map Result.shown =
        some (.success, ("a\n" : Bytes))) ∧
    ∃ fs, (scriptTree byteScript).after (run 4 (writeLine none "out.pkbc" "a.pinky")) =
        (some {}, fs) ∧
      ∀ fuel, (fs.after (run fuel (runLine none "out.pkbc"))).1 = some (refusal "out.pkbc") := by
  constructor
  · obtain ⟨p, hp, htextual, hsize⟩ := @exists_program "println 'a'" true 3 (by decide +kernel)
    obtain ⟨hwrite, hsame, -⟩ := object_runs_like_source (compiles_scriptTree hp) (by decide)
      (hsize ▸ by decide) (canWrite_scriptTree _)
    refine ⟨_, hwrite 4, (hsame ((hasTexts_iff hp).2 htextual) 4).trans ?_⟩
    decide +kernel
  · obtain ⟨p, hp, htextual, hsize⟩ := @exists_program byteScript false 3 (by decide +kernel)
    obtain ⟨hwrite, -, hrefused⟩ := object_runs_like_source (compiles_scriptTree hp) (by decide)
      (hsize ▸ by decide) (canWrite_scriptTree _)
    refine ⟨_, hwrite 4, hrefused fun htexts => ?_⟩
    rw [(hasTexts_iff hp).1 htexts] at htextual
    cases htextual

/-- The script prints its string, and its object file is written, but refused. -/
theorem object_differs_from_source :
    (((scriptTree byteScript).after (run 4 (runLine none "a.pinky"))).1.map Result.shown =
      some (.success, [0xFF, 0x0A])) ∧
    ((scriptTree byteScript).after (run 4 (writeLine none "out.pkbc" "a.pinky"))).1 = some {} ∧
    (((scriptTree byteScript).after (run 4 (writeLine none "out.pkbc" "a.pinky"))).2.after
      (run 4 (runLine none "out.pkbc"))).1.map Result.shown = some (.userError, []) := by
  decide +kernel

end Scriptlet.Command
