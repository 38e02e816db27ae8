import Scriptlet.Editor.Feature

/-!
# Sessions with an editor

A session keeps the documents that are open, under their addresses. An event may change one document
and tell the editor what was found in it; questions change nothing.
-/

namespace Scriptlet.Editor

/-- A change of a document: its whole text, or the text of a part of it. -/
inductive Change where
  | whole (text : Bytes)
  | part (text : Bytes)
  deriving DecidableEq, Repr

/-- What an editor sends. -/
inductive Event where
  | startup
  | started
  | shutdown
  | setTrace
  | opened (uri : Bytes) (version : Int) (text : Bytes)
  | changed (uri : Bytes) (version : Int) (changes : List Change)
  | closed (uri : Bytes)
  | completion (uri : Bytes) (place : Place)
  | hover (uri : Bytes) (place : Place)
  | definition (uri : Bytes) (place : Place)
  | references (uri : Bytes) (place : Place) (declarations : Bool)
  deriving DecidableEq, Repr

/-- What an editor is answered. -/
inductive Reply where
  | nothing
  /-- What the session can do. -/
  | capabilities
  | completions (items : List Completion)
  | hover (text : Bytes)
  | location (location : Location)
  | locations (locations : List Location)
  deriving DecidableEq, Repr

/-- What an editor is told of a document. -/
structure Notification where
  uri : Bytes
  /-- The version of the document that was looked at. -/
  version : Option Nat
  diagnostics : List Diagnostic
  deriving DecidableEq, Repr

/-- The documents that are open. -/
structure Session where
  documents : Table Document := .empty
  deriving Repr, Inhabited

namespace Session

/-- The version to tell the editor; negative ones are none. -/
def version? : Int → Option Nat
  | .ofNat n => some n
  | .negSucc _ => none

/-- Takes the text of a document and tells what was found in it. -/
def update (s : Session) (uri : Bytes) (version : Int) (text : Bytes) : Session × Notification :=
  (⟨s.documents.insert uri (.ofText text)⟩,
    ⟨uri, version? version, (Inspection.ofSource text).diagnostics⟩)

/-- The answer to a question about an open document. -/
def ask {α : Type} (s : Session) (uri : Bytes) (question : Document → Option α)
    (reply : α → Reply) : Reply :=
  match s.documents.find? uri >>= question with
  | some a => reply a
  | none => .nothing

/-- The reply with some completions; without any there is none. -/
def completionsOf (items : List Completion) : Option (List Completion) :=
  if items.isEmpty then none else some items

/-- Answers an event. Of several changes only the last counts, and it must be the whole text. -/
def handle (s : Session) : Event → Session × Reply × List Notification
  | .startup => (s, .capabilities, [])
  | .started | .shutdown | .setTrace => (s, .nothing, [])
  | .opened uri version text =>
    let (s, n) := s.update uri version text
    (s, .nothing, [n])
  | .changed uri version changes =>
    match changes.getLast? with
    | some (.whole text) =>
      let (s, n) := s.update uri version text
      (s, .nothing, [n])
    | _ => (s, .nothing, [])
  | .closed uri => (⟨s.documents.erase uri⟩, .nothing, [⟨uri, none, []⟩])
  | .completion uri place =>
    (s, s.ask uri (fun d => completionsOf (d.completions place)) .completions, [])
  | .hover uri place => (s, s.ask uri (fun d => d.hover? place) .hover, [])
  | .definition uri place => (s, s.ask uri (fun d => d.definition? uri place) .location, [])
  | .references uri place declarations =>
    (s, s.ask uri (fun d => d.references? uri place declarations) .locations, [])

end Session

end Scriptlet.Editor
