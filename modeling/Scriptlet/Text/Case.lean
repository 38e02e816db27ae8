import Scriptlet.Text.Utf8

/-!
# Letter case

Names that are compared without regard to the case of their letters. The names of fields and of
levels are ASCII, so only the code points matter that differ from an ASCII letter by case alone: the
letters themselves, the long s and the Kelvin sign.
-/

namespace Scriptlet

/-- An ASCII letter in lower case; any other byte as it is. -/
def lowerByte (b : UInt8) : UInt8 := if 0x41 ≤ b && b ≤ 0x5A then b + 0x20 else b

/-- The first of the code points that differ from this one by case alone, if an ASCII letter is
among them. -/
def foldCase (code : Nat) : Nat :=
  if 0x61 ≤ code && code ≤ 0x7A then code - 0x20
  else if code = 0x17F then 0x53
  else if code = 0x212A then 0x4B
  else code

/-- Whether a text is the ASCII name `name` but for the case of letters. -/
def Bytes.isNameFolded (s name : Bytes) : Bool :=
  (Utf8.glyphs s).map (fun g => foldCase g.code) ==
    (Utf8.glyphs name).map (fun g => foldCase g.code)

/-- The lower case of a code point, if that is an ASCII letter. -/
def lowerCase (code : Nat) : Nat :=
  if 0x41 ≤ code && code ≤ 0x5A then code + 0x20
  else if code = 0x130 then 0x69
  else if code = 0x212A then 0x6B
  else code

/-- Whether the lower case of a text is the ASCII name `name`. -/
def Bytes.isNameLowered (s name : Bytes) : Bool :=
  (Utf8.glyphs s).map (fun g => lowerCase g.code) == name.map UInt8.toNat

end Scriptlet
