import Scriptlet.Files.Path
import Scriptlet.Text.Case
import Scriptlet.Text.Quoted
import Scriptlet.Toml.Document

/-!
# Manifests

The settings of a project, and the file that they are kept in: tables of a TOML document, with one
key for each setting. Settings that are left out, empty or zero have defaults. A file with keys that
name no setting is refused.
-/

namespace Scriptlet

/-- The settings of a project. -/
structure Manifest where
  /-- The name of the project. -/
  name : Bytes := []
  /-- The script that is run when no other is named. -/
  entry : Bytes := []
  /-- The largest number of instructions of a run; zero is no limit. -/
  runSteps : Int := 0
  /-- How much is logged. -/
  logLevel : Bytes := []
  /-- The object file that is built. -/
  output : Bytes := []
  /-- The address of the service. -/
  addr : Bytes := []
  /-- The largest number of instructions of a run of the service. -/
  serverSteps : Int := 0
  /-- The directory of the file, seen from the root. It is not kept in the file. -/
  dir : Bytes := []
  deriving DecidableEq, Repr, Inhabited

namespace Manifest

/-! ## Log levels -/

/-- The levels of logging and their numbers. -/
def logLevels : List (Bytes × Int) :=
  [("none", -4), ("critical", -3), ("error", -2), ("warning", -1), ("notice", 0), ("info", 1),
    ("debug", 2)]

/-- The number of a level of logging. The case of letters does not matter. -/
def verbosity? (level : Bytes) : Option Int :=
  (logLevels.find? fun l => Bytes.isNameLowered level l.1).map Prod.snd

/-- The complaint about a name that is no level of logging. -/
def unknownLevel (level : Bytes) : Bytes := "unknown log level " ++ Quoted.text level

/-! ## Defaults and rules -/

/-- The end of names of object files. -/
def objectExtension : Bytes := ".pkbc"

/-- The settings with defaults for those that are left out. -/
def withDefaults (m : Manifest) : Manifest :=
  { m with
    logLevel := if m.logLevel = [] then "warning" else m.logLevel
    output := if m.output = [] ∧ m.name ≠ [] then m.name ++ objectExtension else m.output
    addr := if m.addr = [] then ":4567" else m.addr
    serverSteps := if m.serverSteps = 0 then 1000000 else m.serverSteps }

/-- The settings without a file. -/
def default : Manifest := withDefaults {}

/-- The complaint about a limit below zero. -/
def limitProblem (setting : Bytes) (n : Int) : List Bytes :=
  if n < 0 then [setting ++ " must not be negative, got " ++ decimalInt n] else []

/-- What is wrong with the settings. -/
def problems (m : Manifest) : List Bytes :=
  limitProblem "run.max-steps" m.runSteps ++ limitProblem "server.max-steps" m.serverSteps ++
    if (verbosity? m.logLevel).isSome then [] else ["run.log-level: " ++ unknownLevel m.logLevel]

/-- What is wrong with the settings, a line for each complaint; none if nothing is. -/
def complaint? (m : Manifest) : Option Bytes :=
  match m.problems with
  | [] => none
  | problems => some (Bytes.joined 0x0A problems)

/-! ## Paths -/

/-- A path seen from the directory of the manifest. -/
def resolve (m : Manifest) (path : Bytes) : Bytes :=
  if Path.isAbsolute path ∨ m.dir = [] then path else Path.join m.dir path

/-- The path of the script that is run when no other is named, empty if there is none. -/
def entryPath (m : Manifest) : Bytes := if m.entry = [] then [] else m.resolve m.entry

/-- The path of the object file that is built, empty if there is none. -/
def outputPath (m : Manifest) : Bytes := if m.output = [] then [] else m.resolve m.output

/-! ## The file -/

/-- How a setting is kept: as a text or as a number. -/
inductive Setting where
  | text (get : Manifest → Bytes) (set : Manifest → Bytes → Manifest)
  | number (get : Manifest → Int) (set : Manifest → Int → Manifest)

/-- The tables of the file and the settings in them, in the order in which they are written. -/
def tables : List (Bytes × List (Bytes × Setting)) := [
  ("project", [
    ("name", .text name fun m s => { m with name := s }),
    ("entry", .text entry fun m s => { m with entry := s })]),
  ("run", [
    ("max-steps", .number runSteps fun m n => { m with runSteps := n }),
    ("log-level", .text logLevel fun m s => { m with logLevel := s })]),
  ("build", [
    ("output", .text output fun m s => { m with output := s })]),
  ("server", [
    ("addr", .text addr fun m s => { m with addr := s }),
    ("max-steps", .number serverSteps fun m n => { m with serverSteps := n })])]

/-- The value of a setting as it is written. -/
def settingText (m : Manifest) : Setting → Bytes
  | .text get _ => Toml.quoted (get m)
  | .number get _ => decimalInt (get m)

/-- A setting under its key as it is written. -/
def settingLine (m : Manifest) (setting : Bytes × Setting) : Bytes :=
  "  " ++ setting.1 ++ " = " ++ m.settingText setting.2 ++ "\n"

/-- A table of the file as it is written. -/
def tableText (m : Manifest) (table : Bytes × List (Bytes × Setting)) : Bytes :=
  "[" ++ table.1 ++ "]\n" ++ table.2.flatMap m.settingLine

/-- The file of the settings. -/
def text (m : Manifest) : Bytes := Bytes.joined 0x0A (tables.map m.tableText)

/-- What a key names: something of that very name, or else of that name but for the case of
letters. -/
def named? {α : Type} (key : Bytes) (choices : List (Bytes × α)) : Option α :=
  match choices.find? fun c => c.1 = key with
  | some c => some c.2
  | none => (choices.find? fun c => Bytes.isNameFolded key c.1).map Prod.snd

/-- The settings with one of them read; none if its value is of the wrong type. -/
def readSetting? (m : Manifest) : Setting → Toml.Value → Option Manifest
  | .text _ set, .string s => some (set m s)
  | .number _ set, .integer n => some (set m n)
  | _, _ => none

/-- Settings, and the paths that were found to name some. -/
abbrev Reading := Manifest × List Toml.KeyPath

/-- Reads an entry of a table of the file. -/
def readMember? (table : Bytes) (settings : List (Bytes × Setting)) (r : Reading)
    (e : Bytes × Toml.Value) : Option Reading :=
  match named? e.1 settings with
  | none => some r
  | some setting => do
    return (← r.1.readSetting? setting e.2, [table, e.1] :: r.2)

/-- Reads a table of the file. -/
def readTable? (r : Reading) (e : Bytes × Toml.Value) : Option Reading :=
  match named? e.1 tables with
  | none => some r
  | some settings =>
    match e.2 with
    | .table entries => entries.foldlM (readMember? e.1 settings) (r.1, [e.1] :: r.2)
    | _ => none

/-- Why a file is not read as a manifest. -/
inductive FileProblem where
  /-- It is no TOML document, or a value is of the wrong type. -/
  | malformed
  /-- Keys that name no setting. -/
  | unknownKeys (keys : List Toml.KeyPath)
  deriving DecidableEq, Repr

/-- The settings in a file, without defaults. -/
def ofText (s : Bytes) : Except FileProblem Manifest :=
  match Toml.Document.parse? s with
  | none => .error .malformed
  | some d =>
    match d.root.foldlM readTable? ({}, []) with
    | none => .error .malformed
    | some (m, known) =>
      match d.paths.filter fun path => !known.contains path with
      | [] => .ok m
      | unknown => .error (.unknownKeys unknown)

end Manifest

end Scriptlet
