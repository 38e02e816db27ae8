import Scriptlet.Toml.Value

/-!
# Numbers, dates and times in configuration files

The values that are written without quotes. Numbers may have underscores between their digits and no
leading zeros; integers have 64 bits and may be hexadecimal, octal or binary; dates and times follow
RFC 3339, where the seconds may be left out.
-/

namespace Scriptlet.Toml

/-- An ASCII digit. -/
def isDigitByte (b : UInt8) : Bool := 0x30 ≤ b && b ≤ 0x39

/-- The text without its underscores, if each of them stands between two bytes that satisfy
`isFigure` and all other bytes do; none without any figure. -/
def figures? (isFigure : UInt8 → Bool) : Bytes → Option Bytes
  | [] => none
  | [a] => if isFigure a then some [a] else none
  | a :: b :: rest =>
    if !isFigure a then none
    else if b == 0x5F then (figures? isFigure rest).map (a :: ·)
    else (figures? isFigure (b :: rest)).map (a :: ·)

/-! ## Integers -/

/-- The sign that a text may start with, and the rest. -/
def splitSign : Bytes → Bool × Bytes
  | 0x2D :: rest => (true, rest)
  | 0x2B :: rest => (false, rest)
  | s => (false, s)

/-- The figures of a decimal integer, which has no leading zero. -/
def wholeFigures? (s : Bytes) : Option Bytes := do
  let digits ← figures? isDigitByte s
  if 1 < digits.length ∧ digits.head? = some 0x30 then none else some digits

/-- The number that some digits stand for in a base. -/
def ofBase (base : Nat) (digits : Bytes) : Nat :=
  digits.foldl (fun n b => base * n + (hexValue? b).getD 0) 0

/-- A digit of a base. -/
def isDigitOf (base : Nat) (b : UInt8) : Bool := (hexValue? b).any (· < base)

/-- An integer that is not negative, with the mark of its base. -/
def markedNumber? (base : Nat) (s : Bytes) : Option Int := do
  return ofBase base (← figures? (isDigitOf base) s)

/-- The number that an integer literal stands for. -/
def integerOf? (s : Bytes) : Option Int :=
  match s with
  | 0x30 :: 0x78 :: rest => markedNumber? 16 rest
  | 0x30 :: 0x6F :: rest => markedNumber? 8 rest
  | 0x30 :: 0x62 :: rest => markedNumber? 2 rest
  | s => do
    let (negative, s) := splitSign s
    let n := ofDecimal (← wholeFigures? s)
    return if negative then -(n : Int) else n

/-! ## Numbers with a fraction or an exponent -/

/-- The parts of a floating-point literal without its sign: the figures before the point, those
after it, and the exponent. -/
structure FloatParts where
  whole : Bytes
  fraction : Bytes
  exponent : Int
  deriving DecidableEq, Repr

/-- The exponent that some text stands for. -/
def exponentOf? (s : Bytes) : Option Int := do
  let (negative, s) := splitSign s
  let n := ofDecimal (← figures? isDigitByte s)
  return if negative then -(n : Int) else n

/-- The parts of a floating-point literal without its sign. It has a fraction, an exponent, or
both. -/
def floatParts? (s : Bytes) : Option FloatParts := do
  let isMark (b : UInt8) := b == 0x65 || b == 0x45
  let mantissa := s.takeWhile fun b => !isMark b
  let tail := s.dropWhile fun b => !isMark b
  let exponent ← match tail with
    | [] => some 0
    | _ :: rest => exponentOf? rest
  let whole ← wholeFigures? (mantissa.takeWhile (· ≠ 0x2E))
  match mantissa.dropWhile (· ≠ 0x2E) with
  | [] => if tail = [] then none else some ⟨whole, [], exponent⟩
  | _ :: rest => some ⟨whole, ← figures? isDigitByte rest, exponent⟩

/-- The least number that is too large for a double. -/
def overflowBound : Nat := (1 <<< 1024) - (1 <<< 970)

/-- Whether the number is too large for a double. -/
def FloatParts.overflows (p : FloatParts) : Bool :=
  let n := ofDecimal (p.whole ++ p.fraction)
  let scale := p.exponent - p.fraction.length
  let digits := (decimal n).length
  if n = 0 ∨ (digits : Int) + scale < 309 then false
  else if 309 < (digits : Int) + scale then true
  else if 0 ≤ scale then overflowBound ≤ n * Nat.pow 10 scale.toNat
  else overflowBound * Nat.pow 10 (-scale).toNat ≤ n

/-- Whether a text is a floating-point literal. -/
def isFloat (s : Bytes) : Bool :=
  let s := (splitSign s).2
  s == ("inf" : Bytes) || s == ("nan" : Bytes) || (floatParts? s).any fun p => !p.overflows

/-! ## Dates and times -/

/-- The number that a text of exactly `width` digits stands for. -/
def fixedNumber? (width : Nat) (s : Bytes) : Option Nat :=
  if s.length = width ∧ s.all isDigitByte then some (ofDecimal s) else none

/-- The number of days of a month. -/
def daysIn (year month : Nat) : Nat :=
  if month = 2 then if year % 4 = 0 ∧ (year % 100 ≠ 0 ∨ year % 400 = 0) then 29 else 28
  else if month ∈ [4, 6, 9, 11] then 30
  else 31

/-- Whether a text is a date. -/
def isDate (s : Bytes) : Bool :=
  match s with
  | [a, b, c, d, 0x2D, e, f, 0x2D, g, h] =>
    match fixedNumber? 4 [a, b, c, d], fixedNumber? 2 [e, f], fixedNumber? 2 [g, h] with
    | some year, some month, some day =>
      1 ≤ month && month ≤ 12 && 1 ≤ day && day ≤ daysIn year month
    | _, _, _ => false
  | _ => false

/-- Whether a text is the number of an hour, a minute or a second, at most `bound`. -/
def isClockNumber (bound : Nat) (s : Bytes) : Bool := (fixedNumber? 2 s).any (· ≤ bound)

/-- Whether a text is a time of day. The seconds and their fraction may be left out. -/
def isTime (s : Bytes) : Bool :=
  match s with
  | a :: b :: 0x3A :: c :: d :: rest =>
    isClockNumber 23 [a, b] && isClockNumber 59 [c, d] &&
      match rest with
      | [] => true
      | 0x3A :: e :: f :: rest =>
        isClockNumber 59 [e, f] &&
          match rest with
          | [] => true
          | 0x2E :: digits => digits ≠ [] && digits.all isDigitByte
          | _ => false
      | _ => false
  | _ => false

/-- Whether a text is the distance of a zone from universal time. -/
def isOffset (s : Bytes) : Bool :=
  match s with
  | [sign, a, b, 0x3A, c, d] =>
    (sign == 0x2B || sign == 0x2D) && isClockNumber 24 [a, b] && isClockNumber 60 [c, d]
  | _ => false

/-- Whether a text is a time of day, with or without a zone. -/
def isZonedTime (s : Bytes) : Bool :=
  isTime s || (s.getLast? == some 0x5A && isTime s.dropLast) ||
    (6 ≤ s.length && isTime (s.take (s.length - 6)) && isOffset (s.drop (s.length - 6)))

/-- The letters that may stand in a date, as capitals; a blank stands for the letter between date
and time. -/
def dateLetter (b : UInt8) : UInt8 :=
  if b == 0x7A then 0x5A else if b == 0x74 || b == 0x20 then 0x54 else b

/-- Whether a text is a date, a time, or both. -/
def isDateTime (s : Bytes) : Bool :=
  let s := s.map dateLetter
  isDate s || isTime s || (isDate (s.take 10) && s[10]? == some 0x54 && isZonedTime (s.drop 11))

end Scriptlet.Toml
