import Scriptlet.Json.Reader
import Scriptlet.Proofs.Sequences

/-!
# Strings in JSON

A well-formed text is read back from its written form, whatever follows the closing quote
(`readText_showContent`). Each character is written in one of four ways : as it is, after a
backslash, as a letter after a backslash, or by its number. What is read of each of them is the
character.
-/

namespace Scriptlet

/-- A text that is well-formed has nothing to repair. -/
theorem Utf8.repaired_eq {s : Bytes} (h : isValid s = true) : repaired s = s := by
  rw [isValid, List.all_eq_true] at h
  have hkept : ∀ g ∈ glyphs s, (if g.isMalformed then encode Glyph.replacement else g.bytes) =
      g.bytes := fun g hg => if_neg (by simpa using h g hg)
  rw [repaired, List.flatMap_def, List.map_congr_left hkept]
  exact join_glyphs s

/-! ## Numbers of characters -/

namespace JsonValue

theorem hexQuad?_hex {n : Nat} (h : n < 0x10000) (rest : Bytes) :
    hexQuad? (hex 4 n ++ rest) = some n := by
  have hdigits : hex 4 n ++ rest = hexDigit 0x61 (n / 16 / 16 / 16) ::
      hexDigit 0x61 (n / 16 / 16) :: hexDigit 0x61 (n / 16) :: hexDigit 0x61 n :: rest := rfl
  rw [hdigits, hexQuad?]
  simp only [hexValue?_hexDigit (Or.inr rfl), Option.bind_eq_bind, Option.bind_some,
    Option.pure_def, Option.some.injEq]
  omega

/-! ## Characters in strings -/

/-- What is read after some text is read in front of it. -/
def prepend (s : Bytes) (r : Bytes × Bytes) : Bytes × Bytes := (s ++ r.1, r.2)

/-- The bytes of an escape are passed once it is read. -/
theorem readTextAfter_append : ∀ s rest : Bytes, readTextAfter s.length (s ++ rest) =
    readTextAfter 0 rest
  | [], _ => rfl
  | b :: s, rest => by
    rw [List.length_cons, List.cons_append, readTextAfter, readTextAfter_append s rest]

/-- A byte that strings hold as it is. -/
def isPlain (b : UInt8) : Bool := b != 0x22 && b != 0x5C && !decide (b < 0x20)

theorem isPlain_iff {b : UInt8} :
    isPlain b = true ↔ b.toNat ≠ 0x22 ∧ b.toNat ≠ 0x5C ∧ 0x20 ≤ b.toNat := by
  simp [isPlain, ← UInt8.toNat_inj, UInt8.lt_iff_toNat_lt, and_assoc]

theorem readTextAfter_plain {s : Bytes} (h : ∀ b ∈ s, isPlain b = true) (rest : Bytes) :
    readTextAfter 0 (s ++ rest) = (readTextAfter 0 rest).map (prepend s) := by
  induction s with
  | nil => exact Option.map_id'.symm
  | cons b s ih =>
    obtain ⟨hb, hs⟩ := List.forall_mem_cons.1 h
    simp only [isPlain, Bool.and_eq_true, bne_iff_ne, Bool.not_eq_true', decide_eq_false_iff_not]
      at hb
    rw [List.cons_append, readTextAfter, ih hs]
    cases readTextAfter 0 rest <;> simp [hb, prepend]

theorem readTextAfter_escape {e out rest : Bytes} (h : escape? (e ++ rest) = some (out, e.length)) :
    readTextAfter 0 (0x5C :: e ++ rest) = (readTextAfter 0 rest).map (prepend out) := by
  rw [List.cons_append, readTextAfter, if_neg (by decide), if_pos (by decide), h]
  change (readTextAfter e.length (e ++ rest) >>= fun r => pure (out ++ r.1, r.2)) = _
  rw [readTextAfter_append]
  cases readTextAfter 0 rest <;> rfl

/-- The number of a character is read back, unless it is half of a pair. -/
theorem escape?_hex {code : Nat} (h : code < 0xD800 ∨ 0xDFFF < code) (hfour : code < 0x10000)
    (rest : Bytes) : escape? (0x75 :: hex 4 code ++ rest) = some (Utf8.encode code, 5) := by
  have hhalf : ¬(0xD800 ≤ code ∧ code ≤ 0xDBFF) := by omega
  rw [List.cons_append, escape?]
  simp only [hexQuad?_hex hfour, if_neg hhalf]
  rfl

/-- What need not be escaped is written byte by byte, and none of its bytes ends the string. -/
theorem plain_of_wellFormed {g : Glyph} (hg : g.WellFormed)
    (hquote : ¬(g.code = 0x22 ∨ g.code = 0x5C)) (hcontrol : 0x20 ≤ g.code) {b : UInt8}
    (hb : b ∈ g.bytes) : isPlain b = true := by
  rw [hg.bytes_eq] at hb
  rw [isPlain_iff]
  by_cases hascii : g.code < 0x80
  · rw [Utf8.encode, if_pos hascii, List.mem_singleton] at hb
    have hcode : b.toNat = g.code := by
      rw [hb, Nat.toUInt8, UInt8.toNat_ofNat']
      omega
    omega
  · have htail := Utf8.tail_of_mem_encode (Nat.not_lt.1 hascii) hb
    omega

/-- A character is read back, whatever follows it. -/
theorem readTextAfter_showGlyph {g : Glyph} (hg : g.WellFormed) (hproper : g.isMalformed = false)
    (rest : Bytes) : readTextAfter 0 (showGlyph g ++ rest) =
      (readTextAfter 0 rest).map (prepend g.bytes) := by
  have hbytes := hg.bytes_eq
  rw [showGlyph, hproper, if_neg Bool.false_ne_true]
  split
  -- the quote and the backslash stand for themselves after a backslash
  · next hquote =>
    refine readTextAfter_escape ?_
    rcases hquote with hcode | hcode <;> rw [hbytes, hcode] <;> rfl
  next hquote =>
  split
  -- a control character with a letter of its own
  · next letter hletter =>
    refine readTextAfter_escape ?_
    unfold shortEscape? at hletter
    split at hletter
    case h_6 => cases hletter
    all_goals
      next hcode =>
        obtain rfl := Option.some.inj hletter
        rw [hbytes, hcode]
        rfl
  next hletter =>
  split
  -- no character that is written by its number is half of a pair
  · next hnumber =>
    have hopen : Bytes.ofString "\\u" = [0x5C, 0x75] := by decide
    have hcode : g.code < 0x20 ∨ g.code = 0x3C ∨ g.code = 0x3E ∨ g.code = 0x26 ∨ g.code = 0x2028 ∨
        g.code = 0x2029 := by
      simpa [isWrittenByNumber, or_assoc] using hnumber
    rw [hopen, hbytes]
    exact readTextAfter_escape (escape?_hex (by omega) (by omega) rest)
  · next hnumber =>
    have hcontrol : 0x20 ≤ g.code :=
      Nat.not_lt.1 fun hlow => hnumber (by simp [isWrittenByNumber, hlow])
    exact readTextAfter_plain (fun b hb => plain_of_wellFormed hg hquote hcontrol hb) rest

/-- Characters are read back up to the closing quote. -/
theorem readTextAfter_showGlyphs {gs : List Glyph}
    (h : ∀ g ∈ gs, g.WellFormed ∧ g.isMalformed = false) (rest : Bytes) :
    readTextAfter 0 (gs.flatMap showGlyph ++ 0x22 :: rest) = some (Utf8.join gs, rest) := by
  induction gs with
  | nil => rfl
  | cons g gs ih =>
    obtain ⟨hg, hgs⟩ := List.forall_mem_cons.1 h
    rw [List.flatMap_cons, List.append_assoc, readTextAfter_showGlyph hg.1 hg.2, ih hgs]
    rfl

/-- The content of a string, with its closing quote. -/
def showContent (s : Bytes) : Bytes := (Utf8.glyphs s).flatMap showGlyph ++ [0x22]

theorem showString_eq (s : Bytes) : showString s = 0x22 :: showContent s := by
  have hquote : Bytes.ofString "\"" = [0x22] := by decide
  rw [showString, hquote]
  rfl

/-- A well-formed text is read back from its written form, whatever follows the closing quote. -/
theorem readText_showContent {s : Bytes} (h : Utf8.isValid s = true) (rest : Bytes) :
    readText (showContent s ++ rest) = some (s, rest) := by
  have hgs : ∀ g ∈ Utf8.glyphs s, g.WellFormed ∧ g.isMalformed = false := by
    rw [Utf8.isValid, List.all_eq_true] at h
    intro g hg
    have hproper : g.isMalformed = false := by simpa using h g hg
    exact ⟨Utf8.wellFormed_of_mem hg hproper, hproper⟩
  rw [showContent, List.append_assoc, List.singleton_append, readText,
    readTextAfter_showGlyphs hgs, Utf8.join_glyphs]
  exact congrArg (fun t => some (t, rest)) (Utf8.repaired_eq h)

end JsonValue

end Scriptlet
