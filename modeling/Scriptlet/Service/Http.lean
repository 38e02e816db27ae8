import Scriptlet.Service.Codec
import Scriptlet.Service.Evaluation
import Scriptlet.Service.MediaType
import Scriptlet.Service.Target

/-!
# The service over HTTP

Each procedure of the service has a path, to which clients post a message in one of the codecs; the
content type names the codec, and the answer comes in the same.
-/

namespace Scriptlet

/-- A request. -/
structure HttpRequest where
  method : Bytes := "POST"
  target : Bytes
  contentType : Bytes
  body : Bytes
  deriving DecidableEq, Repr

/-- A procedure of the service. -/
inductive Procedure where
  | run | check | disassemble
  deriving DecidableEq, Repr

/-- The path of a procedure. -/
def Procedure.path : Procedure → Bytes
  | run => "/pinky.v1.EvalService/Run"
  | check => "/pinky.v1.EvalService/Check"
  | disassemble => "/pinky.v1.EvalService/Disassemble"

/-- The procedure at the path with the given parts. -/
def Procedure.ofParts? (parts : List Bytes) : Option Procedure :=
  [run, check, disassemble].find? fun p => Bytes.partsAt 0x2F p.path = parts

/-- An answer. -/
inductive HttpResponse where
  /-- The result of a procedure. -/
  | result (contentType body : Bytes)
  /-- The procedure had no result. -/
  | failed (error : ServiceError)
  /-- The body is no message. -/
  | undecodable
  /-- The target is no path. -/
  | badRequest
  /-- The path is not in its plain form. -/
  | moved
  | notFound
  | methodNotAllowed
  | unsupportedMediaType
  deriving DecidableEq, Repr

/-- The status of errors of a class. -/
def ErrorCode.status : ErrorCode → Nat
  | invalidArgument => 400
  | canceled => 499
  | deadlineExceeded => 504
  | internal => 500

/-- The status of an answer. -/
def HttpResponse.status : HttpResponse → Nat
  | result _ _ => 200
  | failed error => error.code.status
  | undecodable => ErrorCode.invalidArgument.status
  | badRequest => 400
  | moved => 307
  | notFound => 404
  | methodNotAllowed => 405
  | unsupportedMediaType => 415

/-! ## Content types -/

/-- What a content type says of the body. -/
inductive BodyForm where
  | message (codec : Codec)
  /-- A form that none of the messages has. -/
  | foreign
  deriving DecidableEq, Repr

/-- The form of bodies that a media type stands for, if any. -/
def BodyForm.ofMediaType? (m : MediaType) : Option BodyForm :=
  if m.parameters.entries.isEmpty then
    if m.isNamed "application/json" then some (.message .json)
    else if m.isNamed "application/cbor" then some (.message .cbor)
    else if m.isNamed "application/proto" then some .foreign
    else none
  else if m.isNamed "application/json" && m.isUtf8 then some .foreign
  else none

/-- The content type of messages in a codec. -/
def Codec.contentType (c : Codec) : Bytes := "application/" ++ c.name

/-! ## Answers -/

/-- The answer with a message as its body. -/
def HttpResponse.ofMessage {α : Type} [Message α] (c : Codec) (message : α) : HttpResponse :=
  .result c.contentType (c.encode message)

namespace Service

/-- Calls a procedure with a body in the given codec. None if the rounds granted to a run do not
suffice. -/
def call (fuel : Nat) (s : Service) (p : Procedure) (c : Codec) (body : Bytes) :
    Option HttpResponse :=
  match p with
  | .run =>
    match c.decode? body with
    | none => some .undecodable
    | some request =>
      (s.run fuel {} request).map fun
        | .ok response => .ofMessage c response
        | .error error => .failed error
  | .check =>
    match c.decode? body with
    | none => some .undecodable
    | some request => some (.ofMessage c (check request))
  | .disassemble =>
    match c.decode? body with
    | none => some .undecodable
    | some request =>
      match disassemble request with
      | .ok response => some (.ofMessage c response)
      | .error error => some (.failed error)

/-- Answers a request at a path. Only the path of a request for a connection need not be plain. -/
def handlePath (fuel : Nat) (s : Service) (r : HttpRequest) (path : Bytes) : Option HttpResponse :=
  if r.method ≠ ("CONNECT" : Bytes) ∧ !Target.isPlain path then some .moved
  else match Procedure.ofParts? (Target.parts path) with
    | none => some .notFound
    | some p =>
      if r.method ≠ ("POST" : Bytes) then some .methodNotAllowed
      else match MediaType.ofText? r.contentType >>= BodyForm.ofMediaType? with
        | none => some .unsupportedMediaType
        | some .foreign => some .undecodable
        | some (.message c) => s.call fuel p c r.body

/-- Answers a request. -/
def handle (fuel : Nat) (s : Service) (r : HttpRequest) : Option HttpResponse :=
  match Target.ofText r.target with
  | .whole => some .badRequest
  | .path path => s.handlePath fuel r path

end Service

end Scriptlet
