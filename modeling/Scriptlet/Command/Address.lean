import Scriptlet.Text.Digits

/-!
# Network addresses

An address is a host and a port with a colon between them. A host with colons of its own stands in
brackets. `addressProblem?` says why a text is no address.
-/

namespace Scriptlet.Command

/-- Why a text is no address. -/
inductive AddressError where
  | missingPort (address : Bytes)
  | tooManyColons (address : Bytes)
  | missingBracket (address : Bytes)
  | unexpectedOpening (address : Bytes)
  | unexpectedClosing (address : Bytes)
  /-- The port is no number of sixteen bits. -/
  | invalidPort (port : Bytes)
  /-- The port is a name that stands for no number. -/
  | unknownPort (port : Bytes)
  deriving DecidableEq, Repr

/-- A complaint about an address. -/
def complaintAbout (address : Bytes) (problem : Bytes) : Bytes :=
  "address " ++ address ++ ": " ++ problem

/-- The error in words. -/
def AddressError.message : AddressError → Bytes
  | missingPort address => complaintAbout address "missing port in address"
  | tooManyColons address => complaintAbout address "too many colons in address"
  | missingBracket address => complaintAbout address "missing ']' in address"
  | unexpectedOpening address => complaintAbout address "unexpected '[' in address"
  | unexpectedClosing address => complaintAbout address "unexpected ']' in address"
  | invalidPort port => complaintAbout port "invalid port"
  | unknownPort port => "lookup tcp/" ++ port ++ ": unknown port"

/-- The port of an address, after its last colon. -/
def portOf (s : Bytes) : Except AddressError Bytes :=
  let port := (s.reverse.takeWhile (· ≠ 0x3A)).reverse
  let host := s.take (s.length - port.length - 1)
  if 0x3A ∉ s then .error (.missingPort s)
  else match s with
    | 0x5B :: inner =>
      if 0x5D ∉ inner then .error (.missingBracket s)
      else
        let name := inner.takeWhile (· ≠ 0x5D)
        match inner.drop (name.length + 1) with
        | 0x3A :: rest =>
          if rest ≠ port then .error (.tooManyColons s)
          else if 0x5B ∈ inner then .error (.unexpectedOpening s)
          else if 0x5D ∈ port then .error (.unexpectedClosing s)
          else .ok port
        | _ => .error (.missingPort s)
    | _ =>
      if 0x3A ∈ host then .error (.tooManyColons s)
      else if 0x5B ∈ s then .error (.unexpectedOpening s)
      else if 0x5D ∈ s then .error (.unexpectedClosing s)
      else .ok port

/-- From this number on no more digits of a port are read. -/
def portCutoff : UInt32 := 0x40000000

/-- The number of thirty-two bits that the digits of a port stand for after `n`; none if one of them
is no digit. What is too large to go on with is read as the largest number. -/
def portNumber? : (n : UInt32) → Bytes → Option UInt32
  | n, [] => some n
  | n, b :: rest =>
    if b < 0x30 || 0x39 < b then none
    else
      let next := n * 10 + (b - 0x30).toUInt32
      if portCutoff ≤ n || next < n * 10 then some 0xFFFFFFFF else portNumber? next rest

/-- Why a port cannot be used. Nothing stands for any port, and names of ports are not known. -/
def portProblem? (port : Bytes) : Option AddressError :=
  let (negative, digits) := match port with
    | 0x2B :: rest => (false, rest)
    | 0x2D :: rest => (true, rest)
    | s => (false, s)
  match portNumber? 0 digits with
  | none => some (.unknownPort port)
  | some n => if 65535 < n ∨ (negative ∧ 0 < n) then some (.invalidPort port) else none

/-- Why a text is no address. -/
def addressProblem? (s : Bytes) : Option AddressError :=
  match portOf s with
  | .error e => some e
  | .ok port => portProblem? port

end Scriptlet.Command
