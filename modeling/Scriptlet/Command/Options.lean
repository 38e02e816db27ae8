import Scriptlet.Command.Flag

/-!
# Options

What the command line of the program can ask for.
-/

namespace Scriptlet.Command

/-- What was asked for. -/
structure Options where
  /-- The object file to write, empty if none is. -/
  output : Bytes := []
  /-- Whether to write the object file of the project. -/
  build : Bool := false
  /-- Whether to print the listing. -/
  dump : Bool := false
  /-- The largest number of instructions; negative if the manifest tells. -/
  maxSteps : Int := -1
  /-- How much more is logged. -/
  verbose : Int := 0
  /-- Whether to talk to an editor. -/
  lsp : Bool := false
  /-- Whether to start the service. -/
  serve : Bool := false
  /-- The address of the service, empty if the manifest tells. -/
  addr : Bytes := []
  /-- The name of a new project, empty if none is made. -/
  initName : Bytes := []
  /-- The file to run, empty if the manifest tells. -/
  file : Bytes := []
  deriving DecidableEq, Repr, Inhabited

namespace Options

/-- A flag whose value is a text. -/
def textFlag (set : Options → Bytes → Options) : Flag Options := .valued fun o s => .ok (set o s)

/-- A flag whose value is a truth value. -/
def truthFlag (set : Options → Bool → Options) : Flag Options := .switch fun o s =>
  match truth? s with
  | some b => .ok (set o b)
  | none => .error NumberError.malformed.message

/-- The flag for the limit of a run. -/
def stepsFlag : Flag Options := .valued fun o s =>
  match integer s with
  | .ok n => .ok { o with maxSteps := n }
  | .error e => .error e.message

/-- The flag for logging: every time it is given it counts one more, unless it has a number. -/
def verboseFlag : Flag Options := .switch fun o s =>
  if s = ("true" : Bytes) then .ok { o with verbose := o.verbose + 1 }
  else match decimalInteger? s with
    | some n => .ok { o with verbose := n }
    | none => .error ("invalid verbosity " ++ Quoted.text s)

/-- The flags of the program. -/
def flags : List (Bytes × Flag Options) := [
  ("o", textFlag fun o s => { o with output := s }),
  ("build", truthFlag fun o b => { o with build := b }),
  ("dump", truthFlag fun o b => { o with dump := b }),
  ("max-steps", stepsFlag),
  ("v", verboseFlag),
  ("lsp", truthFlag fun o b => { o with lsp := b }),
  ("serve", truthFlag fun o b => { o with serve := b }),
  ("addr", textFlag fun o s => { o with addr := s }),
  ("init", textFlag fun o s => { o with initName := s })]

/-- How the program is used. -/
def usage : Bytes :=
  "Usage: pinky [options] [file]\n\n" ++
  "Compiles and runs a .pinky source file or a .pkbc object file.\n" ++
  "Without a file, runs project.entry from the nearest pinky.toml.\n\n" ++
  "Options:\n" ++
  "  -addr string\n    \tEval service address (used with -serve)\n" ++
  "  -build\n    \tCompile to build.output from pinky.toml instead of running\n" ++
  "  -dump\n    \tPrint the bytecode listing instead of running\n" ++
  "  -init string\n    \tCreate a pinky.toml for a new project with this name\n" ++
  "  -lsp\n    \tStart the language server on stdio\n" ++
  "  -max-steps int\n    \tAbort after this many instructions (0 = unlimited) (default -1)\n" ++
  "  -o string\n    \tCompile to an object file instead of running\n" ++
  "  -serve\n    \tStart the eval service (Connect HTTP)\n" ++
  "  -v\tVerbose logging (repeat for more)\n" ++
  "\nExamples:\n" ++
  "  pinky hello.pinky                # Compile and run\n" ++
  "  pinky -o hello.pkbc hello.pinky  # Compile to an object file\n" ++
  "  pinky hello.pkbc                 # Run an object file\n" ++
  "  pinky -build                     # Compile project.entry to build.output\n" ++
  "  pinky -dump hello.pinky          # Show the bytecode\n" ++
  "  pinky -serve -addr :8080         # Start the eval service\n"

/-- Why the command line asks for nothing. -/
inductive Error where
  | flag (error : FlagError)
  | tooManyFiles
  deriving DecidableEq, Repr

/-- What the words of the command line ask for. -/
def ofWords (words : List Bytes) : Except Error Options :=
  match readFlags flags {} words with
  | .error e => .error (.flag e)
  | .ok (options, []) => .ok options
  | .ok (options, [file]) => .ok { options with file }
  | .ok (_, _ :: _ :: _) => .error .tooManyFiles

end Options

end Scriptlet.Command
