import Scriptlet.Cbor.Item
import Scriptlet.Cbor.Reader
import Scriptlet.Cbor.Schema
import Scriptlet.Command.Address
import Scriptlet.Command.Flag
import Scriptlet.Command.Options
import Scriptlet.Command.Run
import Scriptlet.Editor.Document
import Scriptlet.Editor.Feature
import Scriptlet.Editor.Protocol
import Scriptlet.Editor.Session
import Scriptlet.Files.Path
import Scriptlet.Files.Tree
import Scriptlet.Json.Reader
import Scriptlet.Json.Schema
import Scriptlet.Json.Value
import Scriptlet.Machine.Engine
import Scriptlet.Machine.Fault
import Scriptlet.Machine.Operator
import Scriptlet.Machine.Run
import Scriptlet.Machine.Step
import Scriptlet.Machine.Writer
import Scriptlet.Main
import Scriptlet.Manifest.Basic
import Scriptlet.Manifest.Store
import Scriptlet.Number.Arithmetic
import Scriptlet.Number.Binary
import Scriptlet.Number.Numeral
import Scriptlet.Number.Shortest
import Scriptlet.Program.Basic
import Scriptlet.Program.Compile
import Scriptlet.Program.Listing
import Scriptlet.Program.Object
import Scriptlet.Program.Opcode
import Scriptlet.Program.Verify
import Scriptlet.Service.Codec
import Scriptlet.Service.Evaluation
import Scriptlet.Service.Http
import Scriptlet.Service.MediaType
import Scriptlet.Service.Message
import Scriptlet.Service.Pool
import Scriptlet.Service.Requests
import Scriptlet.Service.Runner
import Scriptlet.Service.Target
import Scriptlet.Source.Lexer
import Scriptlet.Source.Position
import Scriptlet.Source.Token
import Scriptlet.Syntax.Analysis
import Scriptlet.Syntax.Diagnostic
import Scriptlet.Syntax.Error
import Scriptlet.Syntax.Parser
import Scriptlet.Syntax.Tree
import Scriptlet.Text.Blank
import Scriptlet.Text.Case
import Scriptlet.Text.Digits
import Scriptlet.Text.Escape
import Scriptlet.Text.Graphic
import Scriptlet.Text.Letter
import Scriptlet.Text.Parts
import Scriptlet.Text.Percent
import Scriptlet.Text.Quoted
import Scriptlet.Text.Table
import Scriptlet.Text.Utf8
import Scriptlet.Toml.Document
import Scriptlet.Toml.Reader
import Scriptlet.Toml.Scalar
import Scriptlet.Toml.Value
import Scriptlet.Value
import Scriptlet.Proofs.Code
import Scriptlet.Proofs.Labels
import Scriptlet.Proofs.Runs
import Scriptlet.Proofs.Evaluation
import Scriptlet.Proofs.Simulation
import Scriptlet.Proofs.Depth
import Scriptlet.Proofs.Accepting
import Scriptlet.Proofs.Correctness
import Scriptlet.Proofs.Precedence
import Scriptlet.Program.Compiler
import Scriptlet.Proofs.Generation
import Scriptlet.Proofs.Verification
import Scriptlet.Proofs.Items
import Scriptlet.Proofs.ObjectFiles
import Scriptlet.Proofs.Compiled
import Scriptlet.Proofs.FileTrees
import Scriptlet.Proofs.ObjectRuns
import Scriptlet.Proofs.Truncation
import Scriptlet.Proofs.Protocol
import Scriptlet.Proofs.Progress
import Scriptlet.Proofs.Isolation
import Scriptlet.Proofs.Occurrences
import Scriptlet.Proofs.Fruitless
import Scriptlet.Proofs.Warnings
import Scriptlet.Proofs.Sessions
import Scriptlet.Proofs.Agreement
import Scriptlet.Proofs.Bounds
import Scriptlet.Proofs.Reencoding
import Scriptlet.Proofs.JsonStrings
import Scriptlet.Proofs.JsonValues
import Scriptlet.Proofs.Tables
import Scriptlet.Proofs.Records
import Scriptlet.Proofs.Messages
import Scriptlet.Proofs.Sequences
import Scriptlet.Proofs.Reaching
import Scriptlet.Proofs.Partition
import Scriptlet.Proofs.Recovery
import Scriptlet.Proofs.Lines
import Scriptlet.Proofs.Prefixes
import Scriptlet.Proofs.Directories
import Scriptlet.Proofs.Scalars
import Scriptlet.Proofs.Sheets
import Scriptlet.Proofs.Documents
import Scriptlet.Proofs.Settings
import Scriptlet.Proofs.Positions
import Scriptlet.Proofs.Respacing
import Scriptlet.Proofs.Spans
import Scriptlet.Proofs.Symbols
import Scriptlet.Proofs.PositionOrder
import Scriptlet.Proofs.SourceMaps
import Scriptlet.Proofs.Marks
import Scriptlet.Proofs.Emitters
import Scriptlet.Proofs.FaultLines
import Scriptlet.Proofs.Diagnostics
import Scriptlet.Proofs.Surroundings
import Scriptlet.Proofs.Cursors
import Scriptlet.Proofs.Escapes
import Scriptlet.Proofs.Wording
import Scriptlet.Proofs.Annotations
import Scriptlet.Proofs.Complaints
import Scriptlet.Proofs.Responses
import Scriptlet.Proofs.Transport
import Scriptlet.Proofs.Frames
import Scriptlet.Proofs.Delivery
import Scriptlet.Proofs.Histories
import Scriptlet.Proofs.Projects
