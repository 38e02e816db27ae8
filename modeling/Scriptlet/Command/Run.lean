import Scriptlet.Command.Address
import Scriptlet.Command.Options
import Scriptlet.Machine.Run
import Scriptlet.Manifest.Store
import Scriptlet.Program.Compile
import Scriptlet.Program.Listing
import Scriptlet.Program.Object
import Scriptlet.Program.Verify

/-!
# The command

What the program does with its command line: it makes a project, compiles a script or reads an
object file, and then prints the listing, writes an object file, or runs the program. Sockets and
streams are not its work: starting the service only checks the address, and a session with an editor
is over as soon as it starts.
-/

namespace Scriptlet.Command

/-- How the program ends. -/
inductive ExitStatus where
  | success
  /-- The user made a mistake. -/
  | userError
  /-- A program broke a rule of programs. -/
  | internalError
  deriving DecidableEq, Repr

/-- The number of a status. -/
def ExitStatus.code : ExitStatus → Nat
  | success => 0
  | userError => 1
  | internalError => 70

/-- What the program leaves behind. -/
structure Result where
  status : ExitStatus := .success
  /-- What it printed. -/
  output : Bytes := []
  /-- What it complained about. -/
  errors : Bytes := []
  deriving DecidableEq, Repr

namespace Result

/-- The result of a failure. -/
def failure (status : ExitStatus) (errors : Bytes) : Result := { status, errors }

/-- The result of a mistake of the user. -/
def mistake (errors : Bytes) : Result := failure .userError ("Error: " ++ errors ++ "\n")

end Result

/-- What is said of a command line that asks for nothing. -/
def complaint : Options.Error → Result
  | .flag .help => { errors := Options.usage }
  | .flag e =>
    .failure .userError (e.message ++ "\n" ++ Options.usage ++ "Error: " ++ e.message ++ "\n")
  | .tooManyFiles =>
    .failure .userError (Options.usage ++ "Error: at most one file may be given\n")

/-- The program of an object file. -/
def programOfObject (file data : Bytes) : Except Result Program :=
  match Program.ofObject data with
  | .error e => .error (.failure .userError (file ++ ": " ++ e.message ++ "\n"))
  | .ok program =>
    match program.verifyMessage? with
    | some message => .error (.failure .userError (file ++ ": " ++ message ++ "\n"))
    | none => .ok program

/-- What is said of a syntax error in a file. -/
def syntaxComplaint (file : Bytes) (e : SyntaxError) : Bytes := file ++ ":" ++ e.text ++ "\n"

/-- The program of a source file, named like the file. -/
def programOfSource (file source : Bytes) : Except Result Program :=
  match parse source with
  | .error errors => .error (.failure .userError (errors.flatMap (syntaxComplaint file)))
  | .ok script =>
    match script.compile (Path.stem file) with
    | .error e => .error (.failure .internalError (file ++ ": " ++ e.message ++ "\n"))
    | .ok program => .ok program

/-- The program of a file with the given content. -/
def programOf (file content : Bytes) : Except Result Program :=
  if Path.extension file = Manifest.objectExtension then programOfObject file content
  else programOfSource file content

/-- The status after a run. -/
def statusAfter : Outcome → ExitStatus
  | .halted => .success
  | .failed (.runtime _) | .stepLimit _ | .interrupted _ _ | .writeFailed _ => .userError
  | .failed _ => .internalError

/-- Runs a program. None if the rounds granted do not suffice. -/
def execute (fuel : Nat) (program : Program) (file : Bytes) (limit : Int) : Option Result := do
  let report ← Machine.run fuel program limit.toNat {} .working
  let errors : Bytes := match report.outcome.message? with
    | none => []
    | some message => file ++ ": " ++ message ++ "\n"
  return { status := statusAfter report.outcome, output := report.state.printed, errors }

/-- The file to write the program of `file` to, empty if it is to be run. -/
def objectPath (options : Options) (settings : Manifest) (file : Bytes) : Bytes :=
  if options.output ≠ [] then options.output
  else if !options.build then []
  else if settings.outputPath ≠ [] then settings.outputPath
  else Path.withoutExtension file ++ Manifest.objectExtension

/-- Checks the address of the service. -/
def serve (options : Options) (settings : Manifest) : Result :=
  match addressProblem? (if options.addr ≠ [] then options.addr else settings.addr) with
  | some e => .failure .userError ("Server error: listen tcp: " ++ e.message ++ "\n")
  | none => {}

/-- The settings of a new project. -/
def newProject (name : Bytes) : Manifest :=
  { name, entry := "main.pinky", output := Path.join "build" (name ++ Manifest.objectExtension) }

/-- The first script of a new project. -/
def firstScript (name : Bytes) : Bytes := "println 'Hello from " ++ name ++ "'\n"

section

variable {m : Type → Type} [Monad m] [Files m]

/-- Makes a project in the current directory: a manifest, and a script unless there is one. -/
def initProject (name : Bytes) : m Result := do
  let settings := newProject name
  match ← settings.create Path.here with
  | .error e => return .mistake e.message
  | .ok _ =>
    let output : Bytes := "Created " ++ Manifest.fileName ++ "\n"
    let found : Except FileError Unit ← Files.status settings.entry
    match found with
    | .error .missing =>
      match ← Files.write settings.entry (firstScript name) with
      | .error fault => return { Result.mistake fault.message with output }
      | .ok _ => return { output := output ++ "Created " ++ settings.entry ++ "\n" }
    | _ => return { output }

/-- Writes the object file of a program, and makes the directory that it stands in. -/
def writeObject (program : Program) (path : Bytes) : m Result := do
  let dir := Path.parent path
  let made ← if dir = Path.here then pure (.ok ()) else Files.makeDirectories dir
  match made with
  | .error fault => return .mistake fault.message
  | .ok _ =>
    match ← Files.write path program.toObject with
    | .error fault => return .mistake fault.message
    | .ok _ => return {}

/-- Does what the options ask for with a file. -/
def handleFile (fuel : Nat) (options : Options) (settings : Manifest) (file : Bytes) :
    m (Option Result) := do
  match ← Files.read file with
  | .error fault => return some (.mistake fault.message)
  | .ok content =>
    match programOf file content with
    | .error result => return some result
    | .ok program =>
      let path := objectPath options settings file
      if options.dump then return some { output := program.listing }
      else if path ≠ [] then return some (← writeObject program path)
      else
        let limit := if 0 ≤ options.maxSteps then options.maxSteps else settings.runSteps
        return execute fuel program file limit

/-- Does what the options ask for in a project with the given settings. -/
def handle (fuel : Nat) (options : Options) (settings : Manifest) : m (Option Result) := do
  if options.lsp then return some {}
  else if options.serve then return some (serve options settings)
  else
    let file := if options.file ≠ [] then options.file else settings.entryPath
    if file = [] then
      return some (.mistake "no file given and no project.entry in pinky.toml")
    else handleFile fuel options settings file

/-- Does what the words of the command line ask for. None if the rounds granted to a run do not
suffice. -/
def run (fuel : Nat) (words : List Bytes) : m (Option Result) := do
  match Options.ofWords words with
  | .error e => return some (complaint e)
  | .ok options =>
    if options.initName ≠ [] then return some (← initProject options.initName)
    else match ← Manifest.find Path.here with
      | .error e =>
        return some (.failure .userError ("Error loading manifest: " ++ e.message ++ "\n"))
      | .ok settings => handle fuel options (settings.getD Manifest.default)

end

end Scriptlet.Command
