import Scriptlet.Files.Tree
import Scriptlet.Manifest.Basic

/-!
# Where manifests are kept

Each project has its manifest in a file of its directory. A script is part of the project whose
directory is the nearest around it.
-/

namespace Scriptlet

/-- Why there are no settings to be had, or why they could not be kept. -/
inductive ManifestError where
  | unreadable (path : Bytes) (fault : FileFault)
  /-- The file at a path is no manifest. -/
  | malformed (path : Bytes)
  | unknownKeys (path : Bytes) (keys : List Toml.KeyPath)
  | invalid (path complaint : Bytes)
  | notCreated (path : Bytes) (fault : FileFault)
  deriving DecidableEq, Repr

/-- Texts with commas between them. -/
def commaList : List Bytes → Bytes
  | [] => []
  | [s] => s
  | s :: t :: rest => s ++ ", " ++ commaList (t :: rest)

/-- The error in words. -/
def ManifestError.message : ManifestError → Bytes
  | unreadable path fault => "cannot read " ++ path ++ ": " ++ fault.message
  | malformed path => "parse error in " ++ path
  | unknownKeys path keys => path ++ ": unknown keys: " ++ commaList (keys.map Toml.KeyPath.text)
  | invalid path complaint => path ++ ": " ++ complaint
  | notCreated path fault => "cannot create " ++ path ++ ": " ++ fault.message

namespace Manifest

/-- The name of the file. -/
def fileName : Bytes := "pinky.toml"

/-- The settings that the file at `path` in the directory `dir` holds. -/
def ofFile (path dir content : Bytes) : Except ManifestError Manifest :=
  match ofText content with
  | .error .malformed => .error (.malformed path)
  | .error (.unknownKeys keys) => .error (.unknownKeys path keys)
  | .ok m =>
    let m := withDefaults { m with dir }
    match m.complaint? with
    | none => .ok m
    | some complaint => .error (.invalid path complaint)

variable {m : Type → Type} [Monad m] [Files m]

/-- Loads the manifest of a directory. -/
def load (dir : Bytes) : m (Except ManifestError Manifest) := do
  let path := Path.join dir fileName
  match ← Files.read path with
  | .error fault => return .error (.unreadable path fault)
  | .ok content => return ofFile path (Path.absolute (← Files.workingDirectory) dir) content

/-- Loads the manifest of the first of some directories that has one. -/
def loadFirst : List Bytes → m (Except ManifestError (Option Manifest))
  | [] => return .ok none
  | dir :: rest => do
    let found : Except FileError Unit ← Files.status (Path.join dir fileName)
    match found with
    | .ok _ => return (← load dir).map some
    | .error _ => loadFirst rest

/-- Loads the manifest of the nearest directory around `dir` that has one. -/
def find (dir : Bytes) : m (Except ManifestError (Option Manifest)) := do
  loadFirst (Path.ancestors (Path.absolute (← Files.workingDirectory) dir))

/-- Keeps the settings in a directory that has no manifest yet. -/
def create (settings : Manifest) (dir : Bytes) : m (Except ManifestError Unit) := do
  let path := Path.join dir fileName
  match ← Files.create path settings.text with
  | .ok _ => return .ok ()
  | .error fault => return .error (.notCreated path fault)

end Manifest

end Scriptlet
