import Scriptlet.Json.Schema
import Scriptlet.Proofs.JsonStrings

/-!
# JSON values are read back

The written form of a value is read as the value (`parse?_render`) if its strings are well-formed,
its numbers are integers and it is not nested too deep. Values are followed by a comma, a closing
bracket or nothing, so a number ends where it should.
-/

namespace Scriptlet

namespace JsonValue

/-! ## Numbers -/

theorem decimal_digits (n : Nat) : ∀ b ∈ decimal n, isDigitByte b = true := by
  intro b hb
  obtain ⟨hlow, hhigh⟩ := range_of_mem_decimal hb
  rw [isDigitByte, decide_eq_true hlow, decide_eq_true hhigh]
  rfl

/-- A numeral starts with a digit. -/
theorem decimal_cons (n : Nat) : ∃ b s, decimal n = b :: s ∧ isDigitByte b = true := by
  obtain ⟨b, s, hs⟩ := List.exists_cons_of_ne_nil (decimal_ne_nil n)
  exact ⟨b, s, hs, decimal_digits n b (by simp [hs])⟩

theorem ne_of_isDigitByte {b c : UInt8} (hb : isDigitByte b = true) (hc : isDigitByte c = false) :
    b ≠ c := by
  rintro rfl
  rw [hb] at hc
  cases hc

/-- The text does not go on with a number. -/
def NumberEnds (s : Bytes) : Prop :=
  ∀ b ∈ s.head?, isDigitByte b = false ∧ b ≠ 0x2E ∧ b ≠ 0x65 ∧ b ≠ 0x45

theorem numberEnds_nil : NumberEnds [] := by simp [NumberEnds]

/-- A comma or a closing bracket does not go on with a number. These are all that follows a value
within others. -/
theorem numberEnds_cons {b : UInt8} (h : b ∈ [0x2C, 0x5D, 0x7D]) (s : Bytes) :
    NumberEnds (b :: s) := by
  have hends : ∀ b ∈ [0x2C, 0x5D, 0x7D],
      isDigitByte b = false ∧ b ≠ 0x2E ∧ b ≠ 0x65 ∧ b ≠ 0x45 := by
    simp [isDigitByte]
  intro b' hb'
  exact Option.some.inj hb' ▸ hends b h

/-- Digits are read up to where the number ends. -/
theorem readDigits_append {digits rest : Bytes} (hne : digits ≠ [])
    (hdigits : ∀ b ∈ digits, isDigitByte b = true) (hrest : NumberEnds rest) :
    readDigits (digits ++ rest) = some (digits, rest) := by
  have hstop : rest.takeWhile isDigitByte = [] ∧ rest.dropWhile isDigitByte = rest := by
    cases rest with
    | nil => exact ⟨rfl, rfl⟩
    | cons b rest =>
      have hb : ¬isDigitByte b = true := by simp [(hrest b rfl).1]
      exact ⟨List.takeWhile_cons_of_neg hb, List.dropWhile_cons_of_neg hb⟩
  rw [readDigits, List.takeWhile_append_of_pos hdigits, List.dropWhile_append_of_pos hdigits,
    hstop.1, hstop.2, List.append_nil]
  split
  · contradiction
  · rfl

/-- A numeral without a sign is read as the whole part of a number. It has no zero in front, so the
reader does not stop early. -/
theorem readWhole_decimal (n : Nat) {rest : Bytes} (hrest : NumberEnds rest) :
    readWhole (decimal n ++ rest) = some (decimal n, rest) := by
  by_cases hn : n = 0
  · have hzero : decimal 0 = [0x30] := by
      rw [decimal]
      rfl
    rw [hn, hzero]
    rfl
  · obtain ⟨b, s, hs, hb⟩ := decimal_head hn
    have hread := readDigits_append (decimal_ne_nil n) (decimal_digits n) hrest
    rw [hs, List.cons_append] at hread ⊢
    rw [readWhole]
    · exact hread
    · exact fun _ h => hb (List.cons.inj h).1

/-- Where the number ends, there is no fraction. -/
theorem readFraction_ends {s : Bytes} (h : NumberEnds s) : readFraction s = some ([], s) := by
  rw [readFraction]
  rintro rest rfl
  exact (h _ rfl).2.1 rfl

/-- Where the number ends, there is no exponent. -/
theorem readExponent_ends {s : Bytes} (h : NumberEnds s) : readExponent s = some ([], s) := by
  cases s with
  | nil => rfl
  | cons b rest =>
    have hb := h b rfl
    simp [readExponent, hb]

/-- An integer is read back, if no more of a number follows it. -/
theorem readNumber_decimalInt (n : Int) {rest : Bytes} (hrest : NumberEnds rest) :
    readNumber (decimalInt n ++ rest) = some (decimalInt n, rest) := by
  cases n with
  | ofNat n =>
    obtain ⟨b, s, hs, hb⟩ := decimal_cons n
    have hminus : b ≠ 0x2D := ne_of_isDigitByte hb (by decide)
    have hwhole := readWhole_decimal n hrest
    rw [decimalInt]
    rw [hs, List.cons_append] at hwhole ⊢
    rw [readNumber]
    · simp [hwhole, readFraction_ends hrest, readExponent_ends hrest]
    · exact fun _ h => hminus (List.cons.inj h).1
  | negSucc n =>
    rw [decimalInt_negSucc, List.cons_append, readNumber]
    simp [readWhole_decimal _ hrest, readFraction_ends hrest, readExponent_ends hrest]

namespace Slot

/-- An integer is what its literal stands for. -/
theorem intOfLiteral?_decimalInt (n : Int) : intOfLiteral? (decimalInt n) = some n := by
  cases n with
  | ofNat n =>
    obtain ⟨b, s, hs, hb⟩ := decimal_cons n
    have hminus : b ≠ 0x2D := ne_of_isDigitByte hb (by decide)
    have hdigits : (decimal n).all isDigitByte = true := List.all_eq_true.2 (decimal_digits n)
    have hvalue := ofDecimal_decimal n
    rw [decimalInt]
    rw [hs] at hdigits hvalue ⊢
    rw [intOfLiteral?]
    · rw [if_pos hdigits, hvalue]
      rfl
    · exact fun _ h => hminus (List.cons.inj h).1
  | negSucc n =>
    have hdigits : (decimal (n + 1)).all isDigitByte = true :=
      List.all_eq_true.2 (decimal_digits _)
    rw [decimalInt_negSucc, intOfLiteral?, if_pos hdigits, ofDecimal_decimal]
    rfl

/-- An integer of 64 bits is read as itself, whatever it is read in the place of. -/
theorem int_ofInt {n : Int} (h : fitsInt64 n = true) (old : Int) :
    Slot.int old (.ofInt n) = some n := by
  change (intOfLiteral? (decimalInt n)).bind (fun n => if fitsInt64 n then some n else none) = _
  rw [intOfLiteral?_decimalInt, Option.bind_some, if_pos h]

end Slot

/-! ## Values -/

mutual

/-- The value can be read inside `depth` others : its strings are well-formed, its numbers are
integers, and its arrays and objects are not too deep. -/
def Fits : (depth : Nat) → JsonValue → Prop
  | _, .null | _, .bool _ => True
  | _, .number literal => ∃ n, literal = decimalInt n
  | _, .string s => Utf8.isValid s = true
  | depth, .array items => depth < maxDepth ∧ AllFit (depth + 1) items
  | depth, .object members => depth < maxDepth ∧ MembersFit (depth + 1) members

/-- The items can be read inside `depth` others. -/
def AllFit : (depth : Nat) → List JsonValue → Prop
  | _, [] => True
  | depth, v :: rest => v.Fits depth ∧ AllFit depth rest

/-- The members can be read inside `depth` others. -/
def MembersFit : (depth : Nat) → List (Bytes × JsonValue) → Prop
  | _, [] => True
  | depth, (k, v) :: rest => Utf8.isValid k = true ∧ v.Fits depth ∧ MembersFit depth rest

end

theorem render_bool (b : Bool) :
    (bool b).render = if b then [0x74, 0x72, 0x75, 0x65] else [0x66, 0x61, 0x6C, 0x73, 0x65] := by
  cases b <;> rfl

theorem render_null : null.render = [0x6E, 0x75, 0x6C, 0x6C] := rfl

theorem render_string (s : Bytes) : (string s).render = 0x22 :: showContent s := showString_eq s

theorem render_array (items : List JsonValue) :
    (array items).render = 0x5B :: (renderItems items ++ [0x5D]) := rfl

theorem render_object (members : List (Bytes × JsonValue)) :
    (object members).render = 0x7B :: (renderMembers members ++ [0x7D]) := rfl

theorem renderItems_cons (v w : JsonValue) (rest : List JsonValue) :
    renderItems (v :: w :: rest) = v.render ++ 0x2C :: renderItems (w :: rest) :=
  List.append_assoc v.render [0x2C] (renderItems (w :: rest))

theorem renderMembers_singleton (k : Bytes) (v : JsonValue) :
    renderMembers [(k, v)] = 0x22 :: (showContent k ++ 0x3A :: v.render) := by
  change showString k ++ [0x3A] ++ v.render = _
  rw [showString_eq, List.append_assoc]
  rfl

/-- Each member is a string, a colon and a value, and commas stand between the members. -/
theorem renderMembers_cons (k : Bytes) (v : JsonValue) (m : Bytes × JsonValue)
    (rest : List (Bytes × JsonValue)) : renderMembers ((k, v) :: m :: rest) =
      0x22 :: (showContent k ++ 0x3A :: (v.render ++ 0x2C :: renderMembers (m :: rest))) := by
  change showString k ++ [0x3A] ++ v.render ++ [0x2C] ++ renderMembers (m :: rest) = _
  rw [showString_eq]
  simp

/-- Nothing is skipped before a byte that is no blank. -/
theorem skipSpace_cons {b : UInt8} (h : isSpace b = false) (s : Bytes) :
    skipSpace (b :: s) = b :: s :=
  List.dropWhile_cons_of_neg (by simp [h])

/-- An integer starts with no blank, and with nothing that other values start with. -/
theorem decimalInt_head (n : Int) : ∃ b s, decimalInt n = b :: s ∧ isSpace b = false ∧
    b ∉ [0x7B, 0x5B, 0x22, 0x74, 0x66, 0x6E, 0x5D] := by
  cases n with
  | ofNat n =>
    obtain ⟨b, s, hs, hb⟩ := decimal_cons n
    have hne {c : UInt8} (hc : isDigitByte c = false) : b ≠ c := ne_of_isDigitByte hb hc
    refine ⟨b, s, hs, ?_, ?_⟩
    · simp [isSpace, hne (show isDigitByte 0x20 = false by decide),
        hne (show isDigitByte 0x09 = false by decide),
        hne (show isDigitByte 0x0A = false by decide),
        hne (show isDigitByte 0x0D = false by decide)]
    · intro hmem
      have hdigits : ∀ c ∈ [0x7B, 0x5B, 0x22, 0x74, 0x66, 0x6E, 0x5D], isDigitByte c = false := by
        simp [isDigitByte]
      exact hne (hdigits b hmem) rfl
  | negSucc n => exact ⟨_, _, decimalInt_negSucc n, by decide⟩

/-- The written form of a value starts with no blank and closes nothing. -/
theorem render_head {v : JsonValue} {depth : Nat} (h : v.Fits depth) :
    ∃ b s, v.render = b :: s ∧ isSpace b = false ∧ b ≠ 0x5D := by
  cases v with
  | null => exact ⟨_, _, render_null, by decide⟩
  | bool b => cases b <;> exact ⟨_, _, render_bool _, by decide⟩
  | number literal =>
    obtain ⟨n, rfl⟩ := h
    obtain ⟨b, s, hs, hspace, hb⟩ := decimalInt_head n
    exact ⟨b, s, by rw [render, hs], hspace, fun h => hb (by simp [h])⟩
  | string s => exact ⟨_, _, render_string s, by decide⟩
  | array items => exact ⟨_, _, render_array items, by decide⟩
  | object members => exact ⟨_, _, render_object members, by decide⟩

/-- Items start like the first of them. So a bracket that opens an array is not followed by the one
that closes it. -/
theorem renderItems_head {v : JsonValue} {items : List JsonValue} {depth : Nat}
    (h : v.Fits depth) :
    ∃ b s, renderItems (v :: items) = b :: s ∧ isSpace b = false ∧ b ≠ 0x5D := by
  obtain ⟨b, s, hs, hb⟩ := render_head h
  cases items with
  | nil => exact ⟨b, s, by rw [renderItems, hs], hb⟩
  | cons w items => exact ⟨b, _, by rw [renderItems_cons, hs, List.cons_append], hb⟩

/-- Members start with the quote of the first name. -/
theorem renderMembers_head (m : Bytes × JsonValue) (members : List (Bytes × JsonValue)) :
    ∃ s, renderMembers (m :: members) = 0x22 :: s := by
  cases members with
  | nil => exact ⟨_, renderMembers_singleton _ _⟩
  | cons m' members => exact ⟨_, renderMembers_cons _ _ _ _⟩

variable {fuel depth : Nat}

/-- An integer is read as the number with its literal. -/
theorem readValue_number (n : Int) {rest : Bytes} (hrest : NumberEnds rest) :
    readValue (fuel + 1) depth (decimalInt n ++ rest) = some (.number (decimalInt n), rest) := by
  obtain ⟨b, s, hs, hspace, hb⟩ := decimalInt_head n
  have hread := readNumber_decimalInt n hrest
  simp only [List.mem_cons, List.not_mem_nil, or_false, not_or] at hb
  rw [hs, List.cons_append] at hread ⊢
  rw [readValue, skipSpace_cons hspace]
  simp [hb, hread]

/-- A bracket that is not closed at once starts an array, which is read as its items, one level
deeper. -/
theorem readValue_array {b : UInt8} (hspace : isSpace b = false) (hb : b ≠ 0x5D)
    (hdepth : depth < maxDepth) (s : Bytes) : readValue (fuel + 1) depth (0x5B :: b :: s) =
      (readItems fuel (depth + 1) (b :: s)).map fun r => (.array r.1, r.2) := by
  rw [readValue, skipSpace_cons (by decide)]
  dsimp only
  rw [if_neg (by decide), if_pos (by decide), if_neg (Nat.not_le.2 hdepth), skipSpace_cons hspace]
  split
  · next hclose => exact absurd (List.cons.inj hclose).1 hb
  · cases readItems fuel (depth + 1) (b :: s) <;> rfl

/-- A brace before a string starts an object, which is read as its members, one level deeper. -/
theorem readValue_object (hdepth : depth < maxDepth) (s : Bytes) :
    readValue (fuel + 1) depth (0x7B :: 0x22 :: s) =
      (readMembers fuel (depth + 1) (0x22 :: s)).map fun r => (.object r.1, r.2) := by
  rw [readValue, skipSpace_cons (by decide)]
  dsimp only
  rw [if_pos (by decide), if_neg (Nat.not_le.2 hdepth), skipSpace_cons (by decide)]
  split
  · next hclose => exact absurd (List.cons.inj hclose).1 (by decide)
  · cases readMembers fuel (depth + 1) (0x22 :: s) <;> rfl

mutual

/-- A value is read back, whatever follows it, unless that goes on with a number. Each call takes
one unit of fuel, and at most two calls are nested for each byte. -/
theorem readValue_render : ∀ (v : JsonValue) {fuel depth : Nat} {rest : Bytes}, v.Fits depth →
    NumberEnds rest → 2 * v.render.length ≤ fuel + 1 →
      readValue fuel depth (v.render ++ rest) = some (v, rest)
  | v, 0, depth, rest, hfit, _, hfuel => by
    -- every value has at least one byte
    obtain ⟨b, s, hs, -⟩ := render_head hfit
    rw [hs, List.length_cons] at hfuel
    omega
  | .null, fuel + 1, depth, rest, _, _, _ => by
    rw [render_null]
    rfl
  | .bool b, fuel + 1, depth, rest, _, _, _ => by
    rw [render_bool]
    cases b <;> rfl
  | .number literal, fuel + 1, depth, rest, hfit, hrest, _ => by
    obtain ⟨n, rfl⟩ := hfit
    exact readValue_number n hrest
  | .string s, fuel + 1, depth, rest, hfit, _, _ => by
    rw [render_string, List.cons_append, readValue, skipSpace_cons (by decide)]
    simp [readText_showContent hfit]
  | .array [], fuel + 1, depth, rest, hfit, _, _ => by
    rw [render_array, renderItems]
    change readValue (fuel + 1) depth (0x5B :: 0x5D :: rest) = _
    rw [readValue, skipSpace_cons (by decide)]
    dsimp only
    rw [if_neg (by decide), if_pos (by decide), if_neg (Nat.not_le.2 hfit.1)]
    rfl
  | .array (v :: items), fuel + 1, depth, rest, hfit, _, hfuel => by
    obtain ⟨hdepth, hitems⟩ := hfit
    rw [render_array, List.length_cons, List.length_append] at hfuel
    have hread := readItems_render v items rest hitems
      (show 2 * (renderItems (v :: items)).length ≤ fuel by omega)
    obtain ⟨b, s, hs, hspace, hb⟩ := @renderItems_head v items _ hitems.1
    rw [render_array, List.cons_append, List.append_assoc, List.singleton_append]
    rw [hs, List.cons_append] at hread ⊢
    rw [readValue_array hspace hb hdepth, hread]
    rfl
  | .object [], fuel + 1, depth, rest, hfit, _, _ => by
    rw [render_object, renderMembers]
    change readValue (fuel + 1) depth (0x7B :: 0x7D :: rest) = _
    rw [readValue, skipSpace_cons (by decide)]
    dsimp only
    rw [if_pos (by decide), if_neg (Nat.not_le.2 hfit.1)]
    rfl
  | .object (m :: members), fuel + 1, depth, rest, hfit, _, hfuel => by
    obtain ⟨hdepth, hmembers⟩ := hfit
    rw [render_object, List.length_cons, List.length_append] at hfuel
    have hread := readMembers_render m members rest hmembers
      (show 2 * (renderMembers (m :: members)).length ≤ fuel by omega)
    obtain ⟨s, hs⟩ := renderMembers_head m members
    rw [render_object, List.cons_append, List.append_assoc, List.singleton_append]
    rw [hs, List.cons_append] at hread ⊢
    rw [readValue_object hdepth, hread]
    rfl

/-- The items of an array are read back. -/
theorem readItems_render : ∀ (v : JsonValue) (items : List JsonValue) {fuel depth : Nat}
    (rest : Bytes), AllFit depth (v :: items) → 2 * (renderItems (v :: items)).length ≤ fuel →
      readItems fuel depth (renderItems (v :: items) ++ 0x5D :: rest) = some (v :: items, rest)
  | v, items, 0, depth, rest, hfit, hfuel => by
    obtain ⟨b, s, hs, -⟩ := @renderItems_head v items _ hfit.1
    rw [hs, List.length_cons] at hfuel
    omega
  | v, [], fuel + 1, depth, rest, hfit, hfuel => by
    rw [renderItems] at hfuel ⊢
    have hv := readValue_render v hfit.1
      (numberEnds_cons (show 0x5D ∈ [0x2C, 0x5D, 0x7D] by decide) rest)
      (show 2 * v.render.length ≤ fuel + 1 by omega)
    rw [readItems, hv]
    rfl
  | v, w :: items, fuel + 1, depth, rest, hfit, hfuel => by
    rw [renderItems_cons, List.length_append, List.length_cons] at hfuel
    have hv := readValue_render v hfit.1
      (numberEnds_cons (show 0x2C ∈ [0x2C, 0x5D, 0x7D] by decide)
        (renderItems (w :: items) ++ 0x5D :: rest))
      (show 2 * v.render.length ≤ fuel + 1 by omega)
    have hitems := readItems_render w items rest hfit.2
      (show 2 * (renderItems (w :: items)).length ≤ fuel by omega)
    rw [renderItems_cons, List.append_assoc, List.cons_append, readItems, hv]
    simp (disch := decide) [skipSpace_cons, hitems]

/-- The members of an object are read back. -/
theorem readMembers_render : ∀ (m : Bytes × JsonValue) (members : List (Bytes × JsonValue))
    {fuel depth : Nat} (rest : Bytes), MembersFit depth (m :: members) →
      2 * (renderMembers (m :: members)).length ≤ fuel →
        readMembers fuel depth (renderMembers (m :: members) ++ 0x7D :: rest) =
          some (m :: members, rest)
  | m, members, 0, depth, rest, hfit, hfuel => by
    obtain ⟨s, hs⟩ := renderMembers_head m members
    rw [hs, List.length_cons] at hfuel
    omega
  | (k, v), [], fuel + 1, depth, rest, hfit, hfuel => by
    rw [renderMembers_singleton, List.length_cons, List.length_append, List.length_cons] at hfuel
    have hkey := readText_showContent hfit.1 (0x3A :: (v.render ++ 0x7D :: rest))
    have hv := readValue_render v hfit.2.1
      (numberEnds_cons (show 0x7D ∈ [0x2C, 0x5D, 0x7D] by decide) rest)
      (show 2 * v.render.length ≤ fuel + 1 by omega)
    rw [renderMembers_singleton, List.cons_append, List.append_assoc, List.cons_append, readMembers,
      skipSpace_cons (by decide)]
    simp (disch := decide) [skipSpace_cons, hkey, hv]
  | (k, v), m :: members, fuel + 1, depth, rest, hfit, hfuel => by
    rw [renderMembers_cons, List.length_cons, List.length_append, List.length_cons,
      List.length_append, List.length_cons] at hfuel
    have hkey := readText_showContent hfit.1
      (0x3A :: (v.render ++ 0x2C :: (renderMembers (m :: members) ++ 0x7D :: rest)))
    have hv := readValue_render v hfit.2.1
      (numberEnds_cons (show 0x2C ∈ [0x2C, 0x5D, 0x7D] by decide)
        (renderMembers (m :: members) ++ 0x7D :: rest))
      (show 2 * v.render.length ≤ fuel + 1 by omega)
    have hmembers := readMembers_render m members rest hfit.2.2
      (show 2 * (renderMembers (m :: members)).length ≤ fuel by omega)
    rw [renderMembers_cons, List.cons_append, List.append_assoc, List.cons_append,
      List.append_assoc, List.cons_append, readMembers,
      skipSpace_cons (by decide)]
    simp (disch := decide) [skipSpace_cons, hkey, hv, hmembers]

end

/-- The written form of a value is read as the value. -/
theorem parse?_render {v : JsonValue} (h : v.Fits 0) : parse? v.render = some v := by
  have hread := readValue_render v h numberEnds_nil
    (show 2 * v.render.length ≤ 2 * v.render.length + 2 + 1 by omega)
  rw [List.append_nil] at hread
  rw [parse?, hread]
  rfl

end JsonValue

end Scriptlet
