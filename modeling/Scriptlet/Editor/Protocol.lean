import Scriptlet.Editor.Session
import Scriptlet.Json.Value

/-!
# The language server protocol

Replies and notifications as JSON, the way the language server protocol lays them out.
-/

namespace Scriptlet.Editor

open JsonValue (member)

/-- The name under which diagnostics are published. -/
def serverName : Bytes := "pinky-lsp"

/-- The version of the server. -/
def serverVersion : Bytes := "0.1.0"

/-- A place. -/
def Place.toJson (p : Place) : JsonValue :=
  .object [member "line" (.ofNat p.line), member "character" (.ofNat p.character)]

/-- A range. -/
def PlaceRange.toJson (r : PlaceRange) : JsonValue :=
  .object [member "start" r.start.toJson, member "end" r.stop.toJson]

/-- A location. -/
def Location.toJson (l : Location) : JsonValue :=
  .object [member "uri" (.string l.uri), member "range" l.range.toJson]

/-- A proposed word. Variables have a detail. -/
def Completion.toJson (c : Completion) : JsonValue :=
  match c.kind with
  | .keyword => .object [member "label" (.string c.label), member "kind" (.ofNat 14)]
  | .variableName =>
    .object [member "label" (.string c.label), member "kind" (.ofNat 6),
      member "detail" (.string "global")]

/-- The number of a severity. -/
def severityCode : Severity → Nat
  | .error => 1
  | .warning => 2

/-- A diagnostic. -/
def diagnosticJson (d : Diagnostic) : JsonValue :=
  let range : PlaceRange := ⟨.ofColumn d.line d.column, .ofColumn d.endLine d.endColumn⟩
  .object [member "range" range.toJson, member "severity" (.ofNat (severityCode d.severity)),
    member "source" (.string serverName), member "message" (.string d.message)]

/-- What the server can do. Documents are sent as a whole. -/
def capabilitiesJson : JsonValue :=
  .object [
    member "capabilities" (.object [
      member "textDocumentSync"
        (.object [member "openClose" (.bool true), member "change" (.ofNat 1)]),
      member "completionProvider" (.object []),
      member "hoverProvider" (.bool true),
      member "definitionProvider" (.bool true),
      member "referencesProvider" (.bool true)]),
    member "serverInfo" (.object [
      member "name" (.string serverName), member "version" (.string serverVersion)])]

/-- A reply. -/
def Reply.toJson : Reply → JsonValue
  | nothing => .null
  | capabilities => capabilitiesJson
  | completions items => .array (items.map Completion.toJson)
  | hover text =>
    .object [member "contents" (.object [
      member "kind" (.string "markdown"), member "value" (.string text)])]
  | location l => l.toJson
  | locations ls => .array (ls.map Location.toJson)

/-- The method of notifications. -/
def Notification.method : Bytes := "textDocument/publishDiagnostics"

/-- The parameters of a notification. -/
def Notification.params (n : Notification) : JsonValue :=
  .object (member "uri" (.string n.uri) ::
    ((n.version.map fun v => member "version" (.ofNat v)).toList ++
      [member "diagnostics" (.array (n.diagnostics.map diagnosticJson))]))

end Scriptlet.Editor
