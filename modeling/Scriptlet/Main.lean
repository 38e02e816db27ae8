import Scriptlet.Command.Run

/-!
# The program

The command over the files of the machine that it runs on. Here words become bytes, and what the
command leaves behind is written out; all decisions are made in `Scriptlet.Command`.
-/

namespace Scriptlet

/-- The reason of a failed operation. -/
def fileErrorOf : IO.Error → FileError
  | .noFileOrDirectory .. => .missing
  | .alreadyExists .. => .alreadyExists
  | .inappropriateType .. => .notDirectory
  | e => .other (Bytes.ofString (toString e))

/-- Does something with the file of a name; a failure is told of the given operation. -/
def attempt {α : Type} (operation path : Bytes) (action : String → IO α) :
    IO (Except FileFault α) := do
  match String.fromUTF8? ⟨path.toArray⟩ with
  | none => return .error ⟨operation, path, .invalidName⟩
  | some name =>
    try return .ok (← action name)
    catch e => return .error ⟨operation, path, fileErrorOf e⟩

/-- Reads a file; a directory can be opened and not read. -/
def readFile (path : Bytes) : IO (Except FileFault Bytes) := do
  match ← attempt "open" path fun name => IO.FS.Handle.mk name .read with
  | .error fault => return .error fault
  | .ok handle =>
    match ← attempt "read" path fun _ => handle.readBinToEnd with
    | .error fault => return .error { fault with error := .isDirectory }
    | .ok data => return .ok data.toList

/-- Writes a file. -/
def writeFile (mode : IO.FS.Mode) (path content : Bytes) : IO (Except FileFault Unit) :=
  attempt "open" path fun name => do
    let handle ← IO.FS.Handle.mk name mode
    handle.write ⟨content.toArray⟩

instance : Files IO where
  workingDirectory := do return Bytes.ofString (← IO.currentDir).toString
  status path := do
    match ← attempt "stat" path fun name => IO.FS.Handle.mk name .read with
    | .ok _ => return .ok ()
    | .error fault => return .error fault.error
  read := readFile
  create := writeFile .writeNew
  write := writeFile .write
  makeDirectories path := attempt "mkdir" path fun name => IO.FS.createDirAll name

/-- The rounds granted to a run; no run comes to their end. -/
def rounds : Nat := 0x4000000000000000

end Scriptlet

open Scriptlet in
/-- Runs the command. -/
def main (words : List String) : IO UInt32 := do
  match ← Command.run rounds (words.map Bytes.ofString) with
  | none => return Command.ExitStatus.internalError.code.toUInt32
  | some result =>
    let out ← IO.getStdout
    out.write ⟨result.output.toArray⟩
    out.flush
    let err ← IO.getStderr
    err.write ⟨result.errors.toArray⟩
    err.flush
    return result.status.code.toUInt32
