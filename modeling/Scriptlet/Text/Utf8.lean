/-!
# Text as bytes

Source code, string values and program output are byte strings: nothing promises that they are
well-formed UTF-8. `glyphs` reads a byte string as characters: each well-formed sequence is one
character, and each byte that belongs to none is a character of its own, with the replacement code
point. No byte is lost (`join_glyphs`), so a text can be cut at characters and put together again.
-/

namespace Scriptlet

/-- A byte string. -/
abbrev Bytes := List UInt8

/-- The UTF-8 bytes of a piece of fixed text. -/
def Bytes.ofString (s : String) : Bytes := s.toUTF8.data.toList

instance : Coe String Bytes := ⟨Bytes.ofString⟩

/-- One character of a text: its code point, and the bytes it was read from. -/
structure Glyph where
  code : Nat
  bytes : Bytes
  deriving DecidableEq, Repr, Inhabited

/-- The code point that stands for a byte outside every well-formed sequence. -/
def Glyph.replacement : Nat := 0xFFFD

/-- A character read from a byte outside every well-formed sequence: the replacement character
itself takes three bytes. -/
def Glyph.isMalformed (g : Glyph) : Bool :=
  g.code == Glyph.replacement && g.bytes.length == 1

namespace Utf8

/-- A byte that continues a sequence. -/
def isTail (b : UInt8) : Bool := 0x80 ≤ b && b ≤ 0xBF

/-- The six low bits of a continuing byte. -/
def tailBits (b : UInt8) : Nat := b.toNat % 64

/-- Whether `b` may follow `a` in a sequence of three bytes: no overlong form and no surrogate. -/
def opensThree (a b : UInt8) : Bool :=
  (a == 0xE0 && 0xA0 ≤ b && b ≤ 0xBF) ||
  (0xE1 ≤ a && a ≤ 0xEC && isTail b) ||
  (a == 0xED && 0x80 ≤ b && b ≤ 0x9F) ||
  (0xEE ≤ a && a ≤ 0xEF && isTail b)

/-- Whether `b` may follow `a` in a sequence of four bytes: no overlong form, and at most
U+10FFFF. -/
def opensFour (a b : UInt8) : Bool :=
  (a == 0xF0 && 0x90 ≤ b && b ≤ 0xBF) ||
  (0xF1 ≤ a && a ≤ 0xF3 && isTail b) ||
  (a == 0xF4 && 0x80 ≤ b && b ≤ 0x8F)

/-- The code point and the number of bytes of the well-formed sequence that the text starts
with. -/
def sequence? : Bytes → Option (Nat × Nat)
  | [] => none
  | a :: s =>
    if a < 0x80 then some (a.toNat, 1)
    else match s with
      | [] => none
      | b :: s =>
        if 0xC2 ≤ a && a ≤ 0xDF && isTail b then
          some ((a.toNat % 32) * 64 + tailBits b, 2)
        else match s with
          | [] => none
          | c :: s =>
            if opensThree a b && isTail c then
              some ((a.toNat % 16) * 4096 + tailBits b * 64 + tailBits c, 3)
            else match s with
              | [] => none
              | d :: _ =>
                if opensFour a b && isTail c && isTail d then
                  some
                    ((a.toNat % 8) * 262144 + tailBits b * 4096 + tailBits c * 64 + tailBits d, 4)
                else none

/-- The code point and the number of bytes of the first character of a text that is not empty. -/
def head (s : Bytes) : Nat × Nat :=
  (sequence? s).getD (Glyph.replacement, 1)

/-- The characters of `s` after its first `skip` bytes. -/
def glyphsAfter : (skip : Nat) → Bytes → List Glyph
  | _, [] => []
  | skip + 1, _ :: rest => glyphsAfter skip rest
  | 0, b :: rest =>
    let (code, width) := head (b :: rest)
    ⟨code, (b :: rest).take width⟩ :: glyphsAfter (width - 1) rest

/-- The characters of a text. -/
def glyphs (s : Bytes) : List Glyph := glyphsAfter 0 s

/-- The text that a list of characters was read from. -/
def join (gs : List Glyph) : Bytes := gs.flatMap Glyph.bytes

/-- Every byte of the text belongs to a well-formed sequence. -/
def isValid (s : Bytes) : Bool := (glyphs s).all fun g => !g.isMalformed

/-- The well-formed sequence of a code point. Surrogates and numbers above U+10FFFF have none and
are written as the replacement character. -/
def encode (code : Nat) : Bytes :=
  let tail (n : Nat) : UInt8 := (0x80 + n % 64).toUInt8
  if code < 0x80 then [code.toUInt8]
  else if code < 0x800 then [(0xC0 + code / 64).toUInt8, tail code]
  else if 0xD800 ≤ code && code ≤ 0xDFFF || 0x10FFFF < code then [0xEF, 0xBF, 0xBD]
  else if code < 0x10000 then [(0xE0 + code / 4096).toUInt8, tail (code / 64), tail code]
  else [(0xF0 + code / 262144).toUInt8, tail (code / 4096), tail (code / 64), tail code]

/-- The text with the replacement character in the place of every byte outside every well-formed
sequence. -/
def repaired (s : Bytes) : Bytes :=
  (glyphs s).flatMap fun g => if g.isMalformed then encode Glyph.replacement else g.bytes

/-! ## No byte is lost -/

/-- A well-formed sequence takes at least one byte and lies within the text. -/
theorem sequence?_width {s : Bytes} {r : Nat × Nat} (h : sequence? s = some r) :
    0 < r.2 ∧ r.2 ≤ s.length := by
  unfold sequence? at h
  repeat' split at h
  all_goals
    simp only [reduceCtorEq, Option.some.injEq] at h
  all_goals
    subst h
    simp only [List.length_cons]
    omega

theorem head_width (b : UInt8) (rest : Bytes) :
    0 < (head (b :: rest)).2 ∧ (head (b :: rest)).2 ≤ rest.length + 1 := by
  unfold head
  cases h : sequence? (b :: rest) with
  | none => simp
  | some r => simpa using sequence?_width h

theorem join_glyphsAfter (skip : Nat) (s : Bytes) : join (glyphsAfter skip s) = s.drop skip := by
  induction s generalizing skip with
  | nil => cases skip <;> rfl
  | cons b rest ih =>
    cases skip with
    | succ k => simpa [glyphsAfter] using ih k
    | zero =>
      obtain ⟨hpos, hle⟩ := head_width b rest
      simp only [glyphsAfter, join, List.flatMap_cons, List.drop_zero]
      rw [show (glyphsAfter ((head (b :: rest)).2 - 1) rest).flatMap Glyph.bytes =
        rest.drop ((head (b :: rest)).2 - 1) from ih _]
      obtain ⟨w, hw⟩ := Nat.exists_eq_succ_of_ne_zero (Nat.pos_iff_ne_zero.1 hpos)
      simp [hw]

/-- Reading a text as characters loses none of its bytes. -/
theorem join_glyphs (s : Bytes) : join (glyphs s) = s := by
  simpa [glyphs] using join_glyphsAfter 0 s

end Utf8

end Scriptlet
