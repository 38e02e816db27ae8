import Scriptlet.Text.Digits

/-!
# Escape sequences

A string literal keeps its text as written; its backslash escapes are resolved when the value is
printed. `Escape.decode` resolves them: one-letter escapes, `\xHH`, one to three octal digits, and
a backslash before a line end, which is removed with it. Any other backslash stands for itself.
-/

namespace Scriptlet.Escape

/-- The backslash. -/
def backslash : UInt8 := 0x5C

/-- The byte that a one-character escape stands for. -/
def single? (e : UInt8) : Option UInt8 :=
  if e == 0x6E then some 0x0A
  else if e == 0x74 then some 0x09
  else if e == 0x72 then some 0x0D
  else if e == 0x5C || e == 0x27 || e == 0x22 then some e
  else if e == 0x61 then some 0x07
  else if e == 0x62 then some 0x08
  else if e == 0x66 then some 0x0C
  else if e == 0x76 then some 0x0B
  else none

/-- The value of an octal digit. -/
def octalValue? (b : UInt8) : Option Nat :=
  if 0x30 ≤ b && b ≤ 0x37 then some (b.toNat - 0x30) else none

/-- The one to three octal digits that the text starts with: their value and their number. -/
def octal? : Bytes → Option (Nat × Nat)
  | [] => none
  | a :: s => do
    let a ← octalValue? a
    match s with
    | [] => some (a, 1)
    | b :: s =>
      match octalValue? b with
      | none => some (a, 1)
      | some b =>
        match s with
        | [] => some (a * 8 + b, 2)
        | c :: _ =>
          match octalValue? c with
          | none => some (a * 8 + b, 2)
          | some c => some ((a * 8 + b) * 8 + c, 3)

/-- The two hexadecimal digits that the text starts with: their value. -/
def hexPair? : Bytes → Option Nat
  | h :: l :: _ => do
    let h ← hexValue? h
    let l ← hexValue? l
    some (h * 16 + l)
  | _ => none

/-- What a backslash and the text after it stand for, and how many bytes of that text the escape
takes. -/
def sequence : Bytes → Bytes × Nat
  | [] => ([backslash], 0)
  | e :: s =>
    match single? e with
    | some b => ([b], 1)
    | none =>
      if e == 0x0A then ([], 1)
      else if e == 0x78 then
        match hexPair? s with
        | some n => ([n.toUInt8], 3)
        | none => ([backslash, e], 1)
      else match octal? (e :: s) with
        | some (n, width) => ([n.toUInt8], width)
        | none => ([backslash, e], 1)

/-- The text that `s` stands for after its first `skip` bytes. -/
def decodeAfter : (skip : Nat) → Bytes → Bytes
  | _, [] => []
  | skip + 1, _ :: rest => decodeAfter skip rest
  | 0, b :: rest =>
    if b == backslash then
      let (out, width) := sequence rest
      out ++ decodeAfter width rest
    else b :: decodeAfter 0 rest

/-- The text that `s` stands for once its escapes are resolved. -/
def decode (s : Bytes) : Bytes := decodeAfter 0 s

end Scriptlet.Escape
