import Scriptlet.Program.Basic

/-!
# How runs fail

A run fails by a mistake of the program's author (`RuntimeFault`), by a malformed program
(`InternalFault`), or because a program read from a file or built by hand used a value that is
absent.
-/

namespace Scriptlet

/-- A mistake in the source of a program. -/
inductive RuntimeCause where
  | typeMismatch | divisionByZero
  deriving DecidableEq, Repr

/-- The mistake in words. -/
def RuntimeCause.message : RuntimeCause → Bytes
  | typeMismatch => "type mismatch"
  | divisionByZero => "division by zero"

/-- A rule of programs that was violated. -/
inductive InternalCause where
  | undefinedLabel | undefinedGlobal | stackUnderflow | unknownOpcode | missingHalt
  deriving DecidableEq, Repr

/-- The violated rule in words. -/
def InternalCause.message : InternalCause → Bytes
  | undefinedLabel => "undefined label"
  | undefinedGlobal => "undefined global"
  | stackUnderflow => "stack underflow"
  | unknownOpcode => "unknown opcode"
  | missingHalt => "program ended without HALT"

/-- An operator met operands that it does not take. -/
structure RuntimeFault where
  op : UInt8
  pc : Nat
  /-- The source line, zero if it is not known. -/
  line : Int
  /-- The kinds of the operands from left to right. -/
  kinds : List ValueKind
  cause : RuntimeCause
  deriving DecidableEq, Repr

/-- The operands of a fault in words. -/
def RuntimeFault.operands (f : RuntimeFault) : Bytes :=
  match f.kinds with
  | [a] => " on " ++ a.name
  | [a, b] => " between " ++ a.name ++ " and " ++ b.name
  | _ => []

/-- The fault in words. -/
def RuntimeFault.message (f : RuntimeFault) : Bytes :=
  let line : Bytes := if 0 < f.line then " (line " ++ decimalInt f.line ++ ")" else []
  "runtime error at pc " ++ decimal f.pc ++ line ++ ": " ++ (Opcode.infoOfByte f.op).name ++
    f.operands ++ ": " ++ f.cause.message

/-- A program broke a rule of programs. -/
structure InternalFault where
  op : UInt8
  pc : Nat
  /-- The label or the variable, if there is one. -/
  name : Bytes
  cause : InternalCause
  deriving DecidableEq, Repr

/-- The fault in words. -/
def InternalFault.message (f : InternalFault) : Bytes :=
  let name : Bytes := if f.name = [] then [] else " " ++ Quoted.text f.name
  "internal error at pc " ++ decimal f.pc ++ ": " ++ (Opcode.infoOfByte f.op).name ++ name ++
    ": " ++ f.cause.message

/-- Why an instruction failed. -/
inductive Fault where
  | runtime (fault : RuntimeFault)
  | internal (fault : InternalFault)
  /-- An instruction used a value that is absent. -/
  | absentValue
  deriving DecidableEq, Repr

/-- Why a run was interrupted from outside. -/
inductive Interruption where
  | canceled | deadline
  deriving DecidableEq, Repr

/-- The interruption in words. -/
def Interruption.message : Interruption → Bytes
  | canceled => "context canceled"
  | deadline => "context deadline exceeded"

end Scriptlet
