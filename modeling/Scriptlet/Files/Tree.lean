import Scriptlet.Files.Path
import Scriptlet.Text.Table

/-!
# Files

What the program asks of the files around it (`Files`), and a tree of files in memory that answers
(`FileSystem`). A failure names the operation, the path as it was given, and the reason.
-/

namespace Scriptlet

/-- Why an operation on files fails. -/
inductive FileError where
  | missing
  | notDirectory
  | isDirectory
  | alreadyExists
  | nameTooLong
  | invalidName
  /-- A reason in other words. -/
  | other (message : Bytes)
  deriving DecidableEq, Repr

/-- The reason in words. -/
def FileError.message : FileError → Bytes
  | missing => "no such file or directory"
  | notDirectory => "not a directory"
  | isDirectory => "is a directory"
  | alreadyExists => "file exists"
  | nameTooLong => "file name too long"
  | invalidName => "invalid argument"
  | other message => message

/-- An operation on a path that failed. -/
structure FileFault where
  operation : Bytes
  path : Bytes
  error : FileError
  deriving DecidableEq, Repr

/-- The failure in words. -/
def FileFault.message (f : FileFault) : Bytes :=
  f.operation ++ " " ++ f.path ++ ": " ++ f.error.message

/-- A place where the program finds its files. -/
class Files (m : Type → Type) where
  /-- The current directory, seen from the root. -/
  workingDirectory : m Bytes
  /-- Whether there is a file or directory at a path. -/
  status : Bytes → m (Except FileError Unit)
  /-- The content of a file. -/
  read : Bytes → m (Except FileFault Bytes)
  /-- Writes a file that must not exist yet. -/
  create : Bytes → Bytes → m (Except FileFault Unit)
  /-- Writes a file, in the place of one that exists. -/
  write : Bytes → Bytes → m (Except FileFault Unit)
  /-- Makes a directory and all directories around it. -/
  makeDirectories : Bytes → m (Except FileFault Unit)

/-- A file or a directory. -/
inductive FileNode where
  | file (content : Bytes)
  | directory
  deriving DecidableEq, Repr

/-- A tree of files in memory: what stands at each absolute path in its shortest form. The root is
always there. -/
structure FileSystem where
  nodes : Table FileNode := .empty
  /-- The parts of the current directory. -/
  current : List Bytes := []
  deriving Repr, Inhabited

namespace FileSystem

/-- The absolute path with the given parts. -/
def pathOf (parts : List Bytes) : Bytes := Path.slash :: Bytes.joined Path.slash parts

/-- What stands at the absolute path with the given parts. -/
def node? (fs : FileSystem) (parts : List Bytes) : Option FileNode :=
  if parts = [] then some .directory else fs.nodes.find? (pathOf parts)

/-- The tree with a node at the absolute path with the given parts. -/
def put (fs : FileSystem) (parts : List Bytes) (node : FileNode) : FileSystem :=
  { fs with nodes := fs.nodes.insert (pathOf parts) node }

/-- The longest name of a file. -/
def maxNameLength : Nat := 255

/-- Paths are shorter than this. -/
def pathBound : Nat := 4096

/-- The place that some parts lead to from a place. Every place on the way must be a directory; the
last one need not exist. -/
def walk (fs : FileSystem) : (place : List Bytes) → List Bytes → Except FileError (List Bytes)
  | place, [] => .ok place
  | place, part :: rest =>
    match fs.node? place with
    | none => .error .missing
    | some (.file _) => .error .notDirectory
    | some .directory =>
      if part = [] ∨ part = Path.here then walk fs place rest
      else if part = Path.outer then walk fs place.dropLast rest
      else if maxNameLength < part.length then .error .nameTooLong
      else walk fs (place ++ [part]) rest

/-- The place that a path leads to. -/
def locate (fs : FileSystem) (path : Bytes) : Except FileError (List Bytes) :=
  if path = [] then .error .missing
  else if 0 ∈ path then .error .invalidName
  else if pathBound ≤ path.length then .error .nameTooLong
  else walk fs (if Path.isAbsolute path then [] else fs.current) (Bytes.partsAt Path.slash path)

/-- What stands at a path. -/
def lookup (fs : FileSystem) (path : Bytes) : Except FileError FileNode := do
  match fs.node? (← fs.locate path) with
  | some node => .ok node
  | none => .error .missing

/-- The parts of the paths of all files below a place, seen from there, with the contents. The files
of a directory stand in the order of their names. -/
def filesBelow (fs : FileSystem) (place : List Bytes) : List (List Bytes × Bytes) :=
  let below := fs.nodes.entries.filterMap fun (path, node) =>
    let parts := Path.cleanParts path
    match node with
    | .file content =>
      if place.isPrefixOf parts then some (parts.drop place.length, content) else none
    | .directory => none
  below.mergeSort fun a b => decide (a.1 ≤ b.1)

/-- Reads a file. -/
def read (fs : FileSystem) (path : Bytes) : Except FileFault Bytes :=
  match fs.lookup path with
  | .ok (.file content) => .ok content
  | .ok .directory => .error ⟨"read", path, .isDirectory⟩
  | .error e => .error ⟨"open", path, e⟩

/-- Writes a file; with `fresh`, only one that does not exist. -/
def write (fs : FileSystem) (fresh : Bool) (path content : Bytes) : Except FileFault FileSystem :=
  match fs.locate path with
  | .error e => .error ⟨"open", path, e⟩
  | .ok place =>
    match fs.node? place with
    | none => .ok (fs.put place (.file content))
    | some node =>
      if fresh then .error ⟨"open", path, .alreadyExists⟩
      else match node with
        | .file _ => .ok (fs.put place (.file content))
        | .directory => .error ⟨"open", path, .isDirectory⟩

/-- Makes a directory unless there is one. A file in its place is an error; `shown` is the path as
the error tells it, and `clash` the reason. -/
def makeDirectory (fs : FileSystem) (path shown : Bytes) (clash : FileError) :
    Except FileFault FileSystem :=
  match fs.locate path with
  | .error e => .error ⟨"mkdir", shown, e⟩
  | .ok place =>
    match fs.node? place with
    | none => .ok (fs.put place .directory)
    | some .directory => .ok fs
    | some (.file _) => .error ⟨"mkdir", shown, clash⟩

/-- Makes the directories that some parts lead through after the path `before`. -/
def makeFrom (fs : FileSystem) (before : Bytes) : List Bytes → Except FileFault FileSystem
  | [] => .ok fs
  | [part] => fs.makeDirectory (before ++ part) (before ++ part) .notDirectory
  | part :: next :: rest =>
    if part = [] then makeFrom fs (before ++ [Path.slash]) (next :: rest)
    else do
      let shown := before ++ part ++ [Path.slash]
      makeFrom (← fs.makeDirectory (before ++ part) shown .alreadyExists) shown (next :: rest)

/-- Makes a directory and all directories around it. -/
def makeDirectories (fs : FileSystem) (path : Bytes) : Except FileFault FileSystem :=
  fs.makeFrom [] (Bytes.partsAt Path.slash path)

/-- The state after a change that may fail, and how it went. -/
def settle (fs : FileSystem) : Except FileFault FileSystem → Except FileFault Unit × FileSystem
  | .ok changed => (.ok (), changed)
  | .error e => (.error e, fs)

instance : Files (StateM FileSystem) where
  workingDirectory := do return pathOf (← get).current
  status path := do return ((← get).lookup path).map fun _ => ()
  read path := do return (← get).read path
  create path content := modifyGet fun fs => fs.settle (fs.write true path content)
  write path content := modifyGet fun fs => fs.settle (fs.write false path content)
  makeDirectories path := modifyGet fun fs => fs.settle (fs.makeDirectories path)

end FileSystem

end Scriptlet
