import Scriptlet.Cbor.Reader
import Scriptlet.Proofs.Numbers

/-!
# Data items that are read back

The encoding of a data item is read as that item, whatever bytes follow it (`readItem_encode`), if
its numbers and lengths have at most 64 bits and its arrays and maps are neither too long nor too
deep (`Item.Fits`). So a byte string that holds one item is decoded to it (`decode_encode`).
-/

namespace Scriptlet.Cbor

/-! ## Heads -/

theorem length_bigEndian : ∀ width n : Nat, (bigEndian width n).length = width
  | 0, _ => rfl
  | width + 1, n => by simp [bigEndian, length_bigEndian width]

theorem ofBigEndian_concat (s : Bytes) (b : UInt8) :
    ofBigEndian (s ++ [b]) = 256 * ofBigEndian s + b.toNat := by
  simp [ofBigEndian]

theorem ofBigEndian_bigEndian : ∀ width n : Nat, ofBigEndian (bigEndian width n) = n % 256 ^ width
  | 0, n => by simp [bigEndian, ofBigEndian, Nat.mod_one]
  | width + 1, n => by
    have hbyte : (n % 256).toUInt8.toNat = n % 256 := by
      simp
    rw [bigEndian, ofBigEndian_concat, ofBigEndian_bigEndian width, hbyte, Nat.pow_succ',
      Nat.mod_mul]
    omega

theorem readNumber_bigEndian (width n : Nat) (rest : Bytes) :
    readNumber width (bigEndian width n ++ rest) = some (n % 256 ^ width, rest) := by
  have hlen := length_bigEndian width n
  have htake : (bigEndian width n ++ rest).take width = bigEndian width n := by
    rw [List.take_append_of_le_length hlen.ge, List.take_of_length_le hlen.le]
  have hdrop : (bigEndian width n ++ rest).drop width = rest := by
    rw [List.drop_append_of_le_length hlen.ge, List.drop_of_length_le hlen.le, List.nil_append]
  rw [readNumber, if_neg (by simp [hlen]), htake, hdrop, ofBigEndian_bigEndian]

section

variable {major info n : Nat}

theorem toNat_initialByte (hmajor : major < 8) (hinfo : info < 32) :
    (initialByte major info).toNat = major * 32 + info := by
  have hlt : major * 32 + info < 256 := by omega
  simp [initialByte, Nat.mod_eq_of_lt hlt]

/-- The number after a first byte is read, in each of the four widths. -/
theorem readHead_wide (hmajor : major < 8) {width : Nat}
    (hinfo : (info, width) ∈ [(25, 2), (26, 4), (27, 8)]) (rest : Bytes) :
    readHead (initialByte major info :: (bigEndian width n ++ rest)) =
      some (⟨major, info, n % 256 ^ width⟩, rest) := by
  have hb : info < 32 := by
    simp only [List.mem_cons, Prod.mk.injEq, List.not_mem_nil, or_false] at hinfo
    omega
  have hbyte := toNat_initialByte hmajor hb
  have hdiv : (initialByte major info).toNat / 32 = major := by omega
  have hmod : (initialByte major info).toNat % 32 = info := by omega
  simp only [readHead, hdiv, hmod]
  simp only [List.mem_cons, Prod.mk.injEq, List.not_mem_nil, or_false] at hinfo
  rcases hinfo with ⟨rfl, rfl⟩ | ⟨rfl, rfl⟩ | ⟨rfl, rfl⟩ <;> simp [readNumber_bigEndian]

/-- The head of an item is read back. -/
theorem readHead_head (hmajor : major < 7) (hn : n < 2 ^ 64) (rest : Bytes) :
    ∃ info, info ≠ 31 ∧ readHead (head major n ++ rest) = some (⟨major, info, n⟩, rest) := by
  unfold head
  split
  next h =>
    have hbyte := @toNat_initialByte major n (by omega) (by omega)
    have hdiv : (initialByte major n).toNat / 32 = major := by omega
    have hmod : (initialByte major n).toNat % 32 = n := by omega
    exact ⟨n, by omega, by simp [readHead, hdiv, hmod, h]⟩
  split
  next h =>
    have hbyte := @toNat_initialByte major 24 (by omega) (by omega)
    have hdiv : (initialByte major 24).toNat / 32 = major := by omega
    have hmod : (initialByte major 24).toNat % 32 = 24 := by omega
    have hne : major ≠ 7 := by omega
    refine ⟨24, by omega, ?_⟩
    simp [readHead, hdiv, hmod, readNumber_bigEndian, hne, Nat.mod_eq_of_lt h]
  split
  next h =>
    refine ⟨25, by omega, ?_⟩
    have hlt : n < 256 ^ 2 := h
    rw [List.cons_append, readHead_wide (by omega) (by decide), Nat.mod_eq_of_lt hlt]
  split
  next h =>
    refine ⟨26, by omega, ?_⟩
    have hlt : n < 256 ^ 4 := h
    rw [List.cons_append, readHead_wide (by omega) (by decide), Nat.mod_eq_of_lt hlt]
  next =>
    refine ⟨27, by omega, ?_⟩
    have hlt : n < 256 ^ 8 := hn
    rw [List.cons_append, readHead_wide (by omega) (by decide), Nat.mod_eq_of_lt hlt]

theorem length_head_pos (major n : Nat) : 0 < (head major n).length := by
  unfold head
  repeat' split
  all_goals exact Nat.succ_pos _

end

/-! ## Floating-point numbers -/

/-- A floating-point number is read back, in whichever of the three formats it was written. -/
theorem readHead_encodeFloat (x : Float) (rest : Bytes) : ∃ info number,
    readHead (encodeFloat x ++ rest) = some (⟨7, info, number⟩, rest) ∧
      special ⟨7, info, number⟩ = .float x := by
  unfold encodeFloat
  split
  next h => exact ⟨25, 0x7E00, rfl, congrArg Item.float (eq_of_isNaN h).symm⟩
  split
  next h =>
    have hx := eq_of_isInf h
    split
    next hneg =>
      rw [if_pos hneg] at hx
      exact ⟨25, 0xFC00, rfl, congrArg Item.float hx.symm⟩
    next hpos =>
      rw [if_neg hpos] at hx
      exact ⟨25, 0x7C00, rfl, congrArg Item.float hx.symm⟩
  split
  next bits h =>
    have hx : Format.half.decode (bits % 256 ^ 2) = x :=
      (Format.half.decode_mod bits).trans (Format.half.decode_of_encode? h)
    exact ⟨25, bits % 256 ^ 2, @readHead_wide 7 25 bits (by decide) 2 (by decide) rest,
      congrArg Item.float hx⟩
  split
  next bits h =>
    have hx : Format.single.decode (bits % 256 ^ 4) = x :=
      (Format.single.decode_mod bits).trans (Format.single.decode_of_encode? h)
    exact ⟨26, bits % 256 ^ 4, @readHead_wide 7 26 bits (by decide) 4 (by decide) rest,
      congrArg Item.float hx⟩
  next =>
    have hlt : x.toBits.toNat < 256 ^ 8 := x.toBits.toNat_lt
    have hx : Float.ofBits (x.toBits.toNat % 256 ^ 8).toUInt64 = x := by
      rw [Nat.mod_eq_of_lt hlt]
      simp
    exact ⟨27, _, @readHead_wide 7 27 x.toBits.toNat (by decide) 8 (by decide) rest,
      congrArg Item.float hx⟩

/-! ## Items -/

mutual

/-- The item can be read inside `depth` others : its numbers and lengths have at most 64 bits, and
its arrays and maps are neither too long nor too deep. Tags and simple values are left out. -/
def Item.Fits : (depth : Nat) → Item → Prop
  | _, .unsigned n | _, .negative n => n < 2 ^ 64
  | _, .bytes s => s.length < 2 ^ 64
  | _, .text chunks => ∃ s, chunks = [s] ∧ s.length < 2 ^ 64
  | depth, .array items =>
    depth < maxDepth ∧ items.length ≤ maxCount ∧ Item.AllFit (depth + 1) items
  | depth, .map entries =>
    depth < maxDepth ∧ entries.length ≤ maxCount ∧ Item.EntriesFit (depth + 1) entries
  | _, .bool _ | _, .null | _, .float _ => True
  | _, .tag _ _ | _, .simple _ => False

/-- The items can be read inside `depth` others. -/
def Item.AllFit : (depth : Nat) → List Item → Prop
  | _, [] => True
  | depth, i :: rest => i.Fits depth ∧ Item.AllFit depth rest

/-- The keys and values can be read inside `depth` others. -/
def Item.EntriesFit : (depth : Nat) → List (Item × Item) → Prop
  | _, [] => True
  | depth, (k, v) :: rest => k.Fits depth ∧ v.Fits depth ∧ Item.EntriesFit depth rest

end

/-- The keys and values of some entries, one after the other. -/
def unpaired : List (Item × Item) → List Item
  | [] => []
  | (k, v) :: rest => k :: v :: unpaired rest

theorem pairUp_unpaired : ∀ entries : List (Item × Item), pairUp (unpaired entries) = some entries
  | [] => rfl
  | (k, v) :: rest => by rw [unpaired, pairUp, pairUp_unpaired rest, Option.map_some]

theorem readBytes_append (s rest : Bytes) : readBytes s.length (s ++ rest) = some (s, rest) := by
  simp [readBytes]

theorem length_encodeFloat_pos (x : Float) : 0 < (encodeFloat x).length := by
  unfold encodeFloat
  repeat' split
  all_goals exact Nat.succ_pos _

theorem length_encode_pos (item : Item) : 0 < (encode item).length := by
  cases item with
  | unsigned n | negative n | simple n => exact length_head_pos _ _
  | bytes | text | array | map | tag =>
    rw [encode, List.length_append]
    exact Nat.add_pos_left (length_head_pos _ _) _
  | bool b => cases b <;> exact Nat.one_pos
  | null => exact Nat.one_pos
  | float x => exact length_encodeFloat_pos x

/-- The text of one chunk is read back. -/
theorem readString_of_length {info : Nat} (hinfo : info ≠ 31) (major : Nat) (s rest : Bytes) :
    readString ⟨major, info, s.length⟩ (s ++ rest) = some ([s], rest) := by
  have hopen : (⟨major, info, s.length⟩ : Head).isOpen = false := by simpa [Head.isOpen] using hinfo
  simp [readString, hopen, readBytes_append]

mutual

/-- An item is read back, whatever follows it. Each call takes one unit of fuel, and at most two
calls are nested for each byte. -/
theorem readItem_encode : ∀ (item : Item) {fuel depth : Nat} (rest : Bytes), item.Fits depth →
    2 * (encode item).length ≤ fuel + 1 →
      readItem fuel depth (encode item ++ rest) = some (item, rest)
  | item, 0, depth, rest, _, hfuel => by
    have hpos := length_encode_pos item
    omega
  | .unsigned n, fuel + 1, depth, rest, hfit, _ => by
    obtain ⟨info, -, hread⟩ := readHead_head (show 0 < 7 by decide) hfit rest
    simp [readItem, encode, hread]
  | .negative n, fuel + 1, depth, rest, hfit, _ => by
    obtain ⟨info, -, hread⟩ := readHead_head (show 1 < 7 by decide) hfit rest
    simp [readItem, encode, hread]
  | .bytes s, fuel + 1, depth, rest, hfit, _ => by
    obtain ⟨info, hinfo, hread⟩ := readHead_head (show 2 < 7 by decide) hfit (s ++ rest)
    simp [readItem, encode, hread, readString_of_length hinfo]
  | .text chunks, fuel + 1, depth, rest, hfit, _ => by
    obtain ⟨s, rfl, hs⟩ := hfit
    obtain ⟨info, hinfo, hread⟩ := readHead_head (show 3 < 7 by decide) hs (s ++ rest)
    simp [readItem, encode, hread, readString_of_length hinfo]
  | .array items, fuel + 1, depth, rest, hfit, hfuel => by
    obtain ⟨hdepth, hcount, hitems⟩ := hfit
    have hlen : items.length < 2 ^ 64 := lt_of_le_of_lt hcount (by decide)
    obtain ⟨info, hinfo, hread⟩ :=
      readHead_head (show 4 < 7 by decide) hlen (encodeItems items ++ rest)
    have hpos := length_head_pos 4 items.length
    rw [encode, List.length_append] at hfuel
    have hrest := readItems_encode items rest hitems (show 2 * (encodeItems items).length ≤ fuel by
      omega)
    have hopen : (⟨4, info, items.length⟩ : Head).isOpen = false := by
      simpa [Head.isOpen] using hinfo
    simp [readItem, encode, hread, hopen, hrest, Nat.not_le.2 hdepth, Nat.not_lt.2 hcount]
  | .map entries, fuel + 1, depth, rest, hfit, hfuel => by
    obtain ⟨hdepth, hcount, hentries⟩ := hfit
    have hlen : entries.length < 2 ^ 64 := lt_of_le_of_lt hcount (by decide)
    obtain ⟨info, hinfo, hread⟩ :=
      readHead_head (show 5 < 7 by decide) hlen (encodeEntries entries ++ rest)
    have hpos := length_head_pos 5 entries.length
    rw [encode, List.length_append] at hfuel
    have hrest := readItems_entries entries rest hentries
      (show 2 * (encodeEntries entries).length ≤ fuel by omega)
    have hopen : (⟨5, info, entries.length⟩ : Head).isOpen = false := by
      simpa [Head.isOpen] using hinfo
    simp [readItem, encode, hread, hopen, hrest, pairUp_unpaired, Nat.not_le.2 hdepth,
      Nat.not_lt.2 hcount]
  | .bool false, fuel + 1, depth, rest, _, _ | .bool true, fuel + 1, depth, rest, _, _
  | .null, fuel + 1, depth, rest, _, _ => by
    rw [readItem]
    rfl
  | .float x, fuel + 1, depth, rest, _, _ => by
    obtain ⟨info, number, hread, hspecial⟩ := readHead_encodeFloat x rest
    simp [readItem, encode, hread, hspecial]

/-- The items of an array are read back. -/
theorem readItems_encode : ∀ (items : List Item) {fuel depth : Nat} (rest : Bytes),
    Item.AllFit depth items → 2 * (encodeItems items).length ≤ fuel →
      readItems fuel depth items.length (encodeItems items ++ rest) = some (items, rest)
  | [], fuel, depth, rest, _, _ => by
    simp [readItems, encodeItems]
  | item :: items, fuel, depth, rest, hfit, hfuel => by
    have hpos := length_encode_pos item
    rw [encodeItems, List.length_append] at hfuel
    obtain ⟨fuel, rfl⟩ := Nat.exists_eq_add_of_le' (show 1 ≤ fuel by omega)
    have hitem := readItem_encode item (encodeItems items ++ rest) hfit.1
      (show 2 * (encode item).length ≤ fuel + 1 by omega)
    have hitems := readItems_encode items rest hfit.2
      (show 2 * (encodeItems items).length ≤ fuel by omega)
    simp [readItems, encodeItems, hitem, hitems]

/-- The keys and values of a map are read back. -/
theorem readItems_entries : ∀ (entries : List (Item × Item)) {fuel depth : Nat} (rest : Bytes),
    Item.EntriesFit depth entries → 2 * (encodeEntries entries).length ≤ fuel →
      readItems fuel depth (2 * entries.length) (encodeEntries entries ++ rest) =
        some (unpaired entries, rest)
  | [], fuel, depth, rest, _, _ => by
    simp [readItems, encodeEntries, unpaired]
  | (k, v) :: entries, fuel, depth, rest, hfit, hfuel => by
    have hkpos := length_encode_pos k
    have hvpos := length_encode_pos v
    rw [encodeEntries, List.length_append, List.length_append] at hfuel
    obtain ⟨fuel, rfl⟩ := Nat.exists_eq_add_of_le' (show 2 ≤ fuel by omega)
    have hk := readItem_encode k (encode v ++ (encodeEntries entries ++ rest)) hfit.1
      (show 2 * (encode k).length ≤ fuel + 1 + 1 by omega)
    have hv := readItem_encode v (encodeEntries entries ++ rest) hfit.2.1
      (show 2 * (encode v).length ≤ fuel + 1 by omega)
    have hentries := readItems_entries entries rest hfit.2.2
      (show 2 * (encodeEntries entries).length ≤ fuel by omega)
    have htwo : 2 * ((k, v) :: entries).length = 2 * entries.length + 1 + 1 := by
      rw [List.length_cons]
      omega
    rw [htwo]
    simp [readItems, encodeEntries, unpaired, hk, hv, hentries]

end

/-- The encoding of an item is decoded to the item. -/
theorem decode_encode {item : Item} (h : item.Fits 0) : decode (encode item) = some item := by
  have hread := readItem_encode item [] h
    (show 2 * (encode item).length ≤ 2 * (encode item).length + 2 + 1 by omega)
  rw [List.append_nil] at hread
  rw [decode, hread]

end Scriptlet.Cbor
