import Scriptlet.Proofs.JsonValues
import Scriptlet.Proofs.ObjectFiles
import Scriptlet.Proofs.Tables
import Scriptlet.Service.Codec

/-!
# Records and tables on the wire

What is written for a field, a table or a list is read back, in JSON and in CBOR. A field that may
be left out is read back too, if the place where it is read holds what it is left out for. The
entries of a table may stand in any order, and the table that is read is the same
(`readTable_tableItem`).
-/

namespace Scriptlet

open Cbor (Item)

/-- A text that a message may hold : it is well-formed, and its length has 64 bits. -/
structure Utf8.Sound (s : Bytes) : Prop where
  valid : isValid s = true
  length : s.length < int64Bound

namespace JsonValue

/-! ## JSON -/

section

variable {depth : Nat}

theorem membersFit_append : ∀ {a b : List (Bytes × JsonValue)},
    MembersFit depth a → MembersFit depth b → MembersFit depth (a ++ b)
  | [], _, _, hb => hb
  | (_, _) :: _, _, ha, hb => ⟨ha.1, ha.2.1, membersFit_append ha.2.2 hb⟩

/-- A member that may be left out needs a value that fits, and a well-formed name. -/
theorem membersFit_memberIf {present : Bool} {name : String} (hname : Utf8.isValid name = true)
    {v : JsonValue} (h : v.Fits depth) : MembersFit depth (memberIf present name v) := by
  cases present
  · trivial
  · exact ⟨hname, h, trivial⟩

theorem allFit_map {α : Type} {write : α → JsonValue} {xs : List α}
    (h : ∀ x ∈ xs, (write x).Fits depth) : AllFit depth (xs.map write) := by
  induction xs with
  | nil => trivial
  | cons x xs ih =>
    exact ⟨h x List.mem_cons_self, ih fun y hy => h y (List.mem_cons_of_mem x hy)⟩

theorem fits_ofInt (n : Int) : (ofInt n).Fits depth := ⟨n, rfl⟩

end

namespace Slot

section

variable {ρ α : Type} {fields : Fields ρ} {name : String} {read : Slot ρ}
  {r r' q : ρ} {v : JsonValue}

/-- A field is changed to what is read for it. -/
theorem read_field {slot : Slot α} {get : ρ → α} {set : ρ → α → ρ} {a : α}
    (h : slot (get r) v = some a) : (Wire.field name slot get set).2 r v = some (set r a) :=
  congrArg (Option.map (set r)) h

/-- A member is read into the field of its name, and then the others are read. -/
theorem record_member {rest : List (Bytes × JsonValue)} (hfield : fields.slotOf? name = some read)
    (hread : read r v = some r') (hrest : record fields r' (.object rest) = some q) :
    record fields r (.object (member name v :: rest)) = some q := by
  rw [record, List.foldlM_cons, member]
  simp only [hfield, hread]
  exact hrest

/-- A member that may be left out is read into the field of its name, if the record is the same
without it. -/
theorem record_memberIf {present : Bool} {rest : List (Bytes × JsonValue)}
    (hfield : fields.slotOf? name = some read) (hread : read r v = some r')
    (habsent : present = false → r' = r) (hrest : record fields r' (.object rest) = some q) :
    record fields r (.object (memberIf present name v ++ rest)) = some q := by
  cases present with
  | false => exact habsent rfl ▸ hrest
  | true => exact record_member hfield hread hrest

theorem record_memberIf_last {present : Bool} (hfield : fields.slotOf? name = some read)
    (hread : read r v = some r') (habsent : present = false → r' = r) :
    record fields r (.object (memberIf present name v)) = some r' := by
  have hnil : record fields r' (.object []) = some r' := rfl
  have h := record_memberIf hfield hread habsent hnil
  rwa [List.append_nil] at h

end

/-- The items of a list are read back. -/
theorem items_map {α : Type} {zero : α} {element : Slot α} {write : α → JsonValue} {xs : List α}
    (h : ∀ x ∈ xs, element zero (write x) = some x) :
    items zero element [] (xs.map write) = some xs := by
  induction xs with
  | nil => rfl
  | cons x xs ih =>
    have hx : element (([] : List α).head?.getD zero) (write x) = some x := h x List.mem_cons_self
    rw [List.map_cons, items, hx, List.drop_nil, ih fun y hy => h y (List.mem_cons_of_mem x hy)]
    rfl

/-- A list is read back in the place of an empty one. -/
theorem list_map {α : Type} {zero : α} {element : Slot α} {write : α → JsonValue} {xs : List α}
    (h : ∀ x ∈ xs, element zero (write x) = some x) :
    list zero element {} (.array (xs.map write)) = some { items := xs } := by
  cases xs with
  | nil => rfl
  | cons x xs =>
    have hitems := items_map h
    change (items zero element [] ((x :: xs).map write) >>= _) = _
    rw [hitems]
    rfl

/-- Reading the members of a table binds them one after the other. -/
theorem foldlM_insert (es : List (Bytes × Bytes)) (t : Table Bytes) :
    (es.map fun e => (e.1, JsonValue.string e.2)).foldlM
      (fun t m => do return t.insert m.1 (← text [] m.2)) t =
        some (es.foldl (fun t e => t.insert e.1 e.2) t) := by
  induction es generalizing t with
  | nil => rfl
  | cons e es ih => exact ih _

/-- A table is read back. -/
theorem table_tableJson {t : Table Bytes} (h : t.Ordered) :
    table .empty (Wire.tableJson t) = some t := by
  have hlist : Table.ofList t.entries = t := Table.ofList_of_perm h (.refl _)
  rw [Wire.tableJson, table, foldlM_insert]
  exact congrArg some hlist

end Slot

end JsonValue

namespace Wire

theorem fits_tableJson {t : Table Bytes}
    (h : ∀ e ∈ t.entries, Utf8.isValid e.1 = true ∧ Utf8.isValid e.2 = true)
    {depth : Nat} (hdepth : depth < JsonValue.maxDepth) : (tableJson t).Fits depth := by
  refine ⟨hdepth, ?_⟩
  generalize t.entries = es at h
  induction es with
  | nil => trivial
  | cons e es ih =>
    obtain ⟨he, hes⟩ := List.forall_mem_cons.1 h
    exact ⟨he.1, he.2, ih hes⟩

/-! ## CBOR -/

/-- What is read first, and then the rest. -/
theorem read_then {α β : Type} {o : Option α} {f : α → Option β} {a : α} {b : Option β}
    (ho : o = some a) (hf : f a = b) : o.bind f = b := by
  rw [ho]
  exact hf

/-- The item of a field, if it is not left out. -/
def itemIf (present : Bool) (item : Item) : Option Item := if present then some item else none

/-- A field that is left out keeps the value that was there before, so that must be the one that was
written. -/
theorem field_itemIf {α : Type} {slot : Cbor.Slot α} {old a : α} {present : Bool} {item : Item}
    (hread : slot old item = some a) (habsent : present = false → a = old) :
    slot.field old (itemIf present item) = some a := by
  cases present with
  | false => rw [habsent rfl]; rfl
  | true => exact hread

theorem text_ofText {s : Bytes} (h : Utf8.Sound s) (old : Bytes) :
    Cbor.Slot.text old (.ofText s) = some s := by
  rw [Object.text_ofText, if_pos h.valid]

/-- Reading the entries of a table binds them one after the other. -/
theorem readEntries_texts {es : List (Bytes × Bytes)}
    (h : ∀ e ∈ es, Utf8.Sound e.1 ∧ Utf8.Sound e.2) (key value : Bytes) (t : Table Bytes) :
    readEntries key value t (es.map fun e => (.ofText e.1, .ofText e.2)) =
      some (es.foldl (fun t e => t.insert e.1 e.2) t) := by
  induction es generalizing key value t with
  | nil => rfl
  | cons e es ih =>
    obtain ⟨he, hes⟩ := List.forall_mem_cons.1 h
    rw [List.map_cons, readEntries, text_ofText he.1, Option.bind_eq_bind, Option.bind_some,
      text_ofText he.2, Option.bind_some]
    exact ih hes _ _ _

/-- A table is read back, though its entries are written in another order. -/
theorem readTable_tableItem {t : Table Bytes} (hordered : t.Ordered)
    (h : ∀ e ∈ t.entries, Utf8.Sound e.1 ∧ Utf8.Sound e.2) :
    readTable .empty (tableItem t) = some t := by
  have hperm := List.mergeSort_perm t.entries fun a b => keyLe a.1 b.1
  have hread := readEntries_texts (fun e he => h e (hperm.mem_iff.1 he)) [] [] .empty
  exact hread.trans (congrArg some (Table.ofList_of_perm hordered hperm))

theorem fits_tableItem {t : Table Bytes} (hsize : t.size ≤ Cbor.maxCount)
    (h : ∀ e ∈ t.entries, e.1.length < int64Bound ∧ e.2.length < int64Bound) {depth : Nat}
    (hdepth : depth < Cbor.maxDepth) : (tableItem t).Fits depth := by
  have hperm := List.mergeSort_perm t.entries fun a b => keyLe a.1 b.1
  refine ⟨hdepth, ?_, ?_⟩
  · rw [List.length_map, hperm.length_eq]
    exact hsize
  · have hshort := fun e he => h e (hperm.mem_iff.1 he)
    generalize t.entries.mergeSort (fun a b => keyLe a.1 b.1) = es at hshort
    induction es with
    | nil => trivial
    | cons e es ih =>
      obtain ⟨he, hes⟩ := List.forall_mem_cons.1 hshort
      exact ⟨Object.fits_ofText he.1 _, Object.fits_ofText he.2 _, ih hes⟩

theorem entriesFit_entryIf {depth : Nat} {present : Bool} {name : String}
    (hname : (name : Bytes).length < int64Bound) {item : Item} (h : item.Fits depth) :
    Item.EntriesFit depth (entryIf present name item) := by
  cases present
  · trivial
  · exact ⟨Object.fits_ofText hname _, h, trivial⟩

theorem length_entryIf_le (present : Bool) (name : String) (item : Item) :
    (entryIf present name item).length ≤ 1 := by
  cases present
  · exact Nat.zero_le 1
  · exact Nat.le_refl 1

end Wire

end Scriptlet
