import Scriptlet.Text.Quoted

/-!
# Flags

How the words of a command line are read. A flag starts with one or two dashes; its value stands
after an equals sign or is the next word. Switches need no value. The first word that is no flag, or
the word after two dashes alone, starts the operands.
-/

namespace Scriptlet.Command

/-- Why a value is not a number. -/
inductive NumberError where
  | malformed | outOfRange
  deriving DecidableEq, Repr

/-- The error in words. -/
def NumberError.message : NumberError → Bytes
  | malformed => "parse error"
  | outOfRange => "value out of range"

/-! ## Values -/

/-- The number that the digits of a base stand for after `n`, with underscores passed over. -/
def scanDigits (base : Nat) : (n : Nat) → Bytes → Except NumberError Nat
  | n, [] => .ok n
  | n, b :: rest =>
    if b == 0x5F then scanDigits base n rest
    else match hexValue? b with
      | none => .error .malformed
      | some d =>
        if base ≤ d then .error .malformed
        else if 2 * int64Bound ≤ n * base + d then .error .outOfRange
        else scanDigits base (n * base + d) rest

/-- Whether every underscore stands between two digits; `digit` says whether one stands in front. -/
def separatesDigits : (digit : Bool) → Bytes → Bool
  | _, [] => true
  | digit, b :: rest =>
    if b == 0x5F then digit && rest.head?.any (· != 0x5F) && separatesDigits false rest
    else separatesDigits true rest

/-- The base of a number that is not negative, its digits, and whether a mark of the base stands in
front of them. A leading zero is the mark of base eight. -/
def splitBase : Bytes → Nat × Bool × Bytes
  | 0x30 :: mark :: digit :: rest =>
    if mark == 0x62 || mark == 0x42 then (2, true, digit :: rest)
    else if mark == 0x6F || mark == 0x4F then (8, true, digit :: rest)
    else if mark == 0x78 || mark == 0x58 then (16, true, digit :: rest)
    else (8, true, mark :: digit :: rest)
  | 0x30 :: rest => (8, true, rest)
  | s => (10, false, s)

/-- The number that a text without a sign stands for. -/
def magnitude (s : Bytes) : Except NumberError Nat :=
  if s = [] then .error .malformed
  else do
    let (base, marked, digits) := splitBase s
    let n ← scanDigits base 0 digits
    if separatesDigits marked digits then .ok n else .error .malformed

/-- The integer of 64 bits that a text stands for. -/
def integer (s : Bytes) : Except NumberError Int :=
  let (negative, digits) := match s with
    | 0x2B :: rest => (false, rest)
    | 0x2D :: rest => (true, rest)
    | s => (false, s)
  match magnitude digits with
  | .error e => .error e
  | .ok n =>
    let n : Int := if negative then -(n : Int) else n
    if fitsInt64 n then .ok n else .error .outOfRange

/-- The integer of 64 bits that some decimal digits with or without a sign stand for. -/
def decimalInteger? (s : Bytes) : Option Int :=
  let isDigit (b : UInt8) := 0x30 ≤ b && b ≤ 0x39
  let (negative, digits) := match s with
    | 0x2B :: rest => (false, rest)
    | 0x2D :: rest => (true, rest)
    | s => (false, s)
  if digits = [] ∨ !digits.all isDigit then none
  else
    let n : Int := if negative then -(ofDecimal digits : Int) else ofDecimal digits
    if fitsInt64 n then some n else none

/-- The truth value that a text stands for. -/
def truth? (s : Bytes) : Option Bool :=
  let yes : List Bytes := ["1", "t", "T", "true", "TRUE", "True"]
  let no : List Bytes := ["0", "f", "F", "false", "FALSE", "False"]
  if s ∈ yes then some true else if s ∈ no then some false else none

/-! ## Flags -/

/-- A flag: how the options change by its value, or why they do not. -/
inductive Flag (ω : Type) where
  /-- A flag that needs no value; without one its value is `true`. -/
  | switch (set : ω → Bytes → Except Bytes ω)
  /-- A flag that needs a value. -/
  | valued (set : ω → Bytes → Except Bytes ω)

/-- Why a command line is not understood. -/
inductive FlagError where
  /-- Help was asked for. -/
  | help
  | badForm (word : Bytes)
  | undefined (name : Bytes)
  | needsValue (name : Bytes)
  | badSwitch (name value reason : Bytes)
  | badValue (name value reason : Bytes)
  deriving DecidableEq, Repr

/-- The error in words. -/
def FlagError.message : FlagError → Bytes
  | help => "flag: help requested"
  | badForm word => "bad flag syntax: " ++ word
  | undefined name => "flag provided but not defined: -" ++ name
  | needsValue name => "flag needs an argument: -" ++ name
  | badSwitch name value reason =>
    "invalid boolean value " ++ Quoted.text value ++ " for -" ++ name ++ ": " ++ reason
  | badValue name value reason =>
    "invalid value " ++ Quoted.text value ++ " for flag -" ++ name ++ ": " ++ reason

/-- A word of the command line. -/
inductive Word where
  /-- The first operand. -/
  | operand
  /-- Two dashes alone, after which the operands start. -/
  | dashes
  | malformed
  /-- A flag with its name, and with its value if that is in the same word. -/
  | flag (name : Bytes) (value : Option Bytes)
  deriving DecidableEq, Repr

/-- The name of a flag and the value after an equals sign, which is not its first byte. -/
def splitName (s : Bytes) : Bytes × Option Bytes :=
  let name := s.take 1 ++ (s.drop 1).takeWhile (· ≠ 0x3D)
  match s.drop name.length with
  | [] => (name, none)
  | _ :: value => (name, some value)

/-- What a word of the command line is. -/
def Word.ofBytes (s : Bytes) : Word :=
  match s with
  | 0x2D :: b :: rest =>
    let name := if b == 0x2D then rest else b :: rest
    match name with
    | [] => .dashes
    | c :: _ =>
      if c == 0x2D || c == 0x3D then .malformed
      else
        let (name, value) := splitName name
        .flag name value
  | _ => .operand

/-- Reads the words of a command line: the options and the operands. -/
def readFlags {ω : Type} (flags : List (Bytes × Flag ω)) :
    (options : ω) → List Bytes → Except FlagError (ω × List Bytes)
  | options, [] => .ok (options, [])
  | options, word :: rest =>
    match Word.ofBytes word with
    | .operand => .ok (options, word :: rest)
    | .dashes => .ok (options, rest)
    | .malformed => .error (.badForm word)
    | .flag name value =>
      match flags.find? fun f => f.1 = name with
      | none =>
        if name = ("help" : Bytes) ∨ name = ("h" : Bytes) then .error .help
        else .error (.undefined name)
      | some (_, .switch set) =>
        match set options (value.getD "true") with
        | .ok options => readFlags flags options rest
        | .error reason => .error (.badSwitch name (value.getD "true") reason)
      | some (_, .valued set) =>
        match value with
        | some value =>
          match set options value with
          | .ok options => readFlags flags options rest
          | .error reason => .error (.badValue name value reason)
        | none =>
          match rest with
          | [] => .error (.needsValue name)
          | value :: rest =>
            match set options value with
            | .ok options => readFlags flags options rest
            | .error reason => .error (.badValue name value reason)

end Scriptlet.Command
