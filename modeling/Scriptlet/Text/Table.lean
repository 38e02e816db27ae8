import Scriptlet.Text.Utf8

/-!
# Tables

Finite maps from byte strings, kept in bytewise order of their keys. A table is seen through
`find?`; `find?_insert` and `find?_erase` say what each operation does to that view.
-/

namespace Scriptlet

/-- A finite map from byte strings, as its entries in order. -/
structure Table (α : Type) where
  entries : List (Bytes × α)
  deriving Repr, DecidableEq

namespace Table

variable {α : Type}

/-- The table without entries. -/
def empty : Table α := ⟨[]⟩

instance : Inhabited (Table α) := ⟨empty⟩

/-- The entry of a key among a list of entries. -/
def findIn (key : Bytes) : List (Bytes × α) → Option α
  | [] => none
  | (k, v) :: rest => if k = key then some v else findIn key rest

/-- The value of a key. -/
def find? (t : Table α) (key : Bytes) : Option α := findIn key t.entries

/-- Whether a key has a value. -/
def contains (t : Table α) (key : Bytes) : Bool := (t.find? key).isSome

/-- The entries with `key` bound to `value`, in order if they were. -/
def insertIn (key : Bytes) (value : α) : List (Bytes × α) → List (Bytes × α)
  | [] => [(key, value)]
  | (k, v) :: rest =>
    if k = key then (key, value) :: rest
    else if key < k then (key, value) :: (k, v) :: rest
    else (k, v) :: insertIn key value rest

/-- The table with `key` bound to `value`. -/
def insert (t : Table α) (key : Bytes) (value : α) : Table α := ⟨insertIn key value t.entries⟩

/-- The table without `key`. -/
def erase (t : Table α) (key : Bytes) : Table α := ⟨t.entries.filter fun e => e.1 ≠ key⟩

/-- The keys in order. -/
def keys (t : Table α) : List Bytes := t.entries.map Prod.fst

/-- The number of entries. -/
def size (t : Table α) : Nat := t.entries.length

/-- The table of some entries, of which the last one for a key counts. -/
def ofList (entries : List (Bytes × α)) : Table α :=
  entries.foldl (fun t e => t.insert e.1 e.2) empty

@[simp] theorem find?_empty (key : Bytes) : (empty : Table α).find? key = none := rfl

theorem findIn_insertIn (key : Bytes) (value : α) (es : List (Bytes × α)) (k : Bytes) :
    findIn k (insertIn key value es) = if k = key then some value else findIn k es := by
  induction es with
  | nil => simp [insertIn, findIn, eq_comm]
  | cons e rest ih =>
    obtain ⟨k', v'⟩ := e
    simp only [insertIn]
    by_cases hk : k' = key
    · subst hk
      by_cases h : k = k' <;> simp [findIn, h, eq_comm]
    · by_cases hlt : key < k'
      · by_cases h : key = k
        · subst h
          simp [findIn, hk, hlt]
        · have h' : ¬k = key := fun e => h e.symm
          simp [findIn, hk, hlt, h, h']
      · by_cases h : k = key
        · subst h
          simp [findIn, hk, hlt, ih]
        · simp [findIn, hk, hlt, ih, h]

/-- Binding a key changes the value of that key only. -/
@[simp] theorem find?_insert (t : Table α) (key : Bytes) (value : α) (k : Bytes) :
    (t.insert key value).find? k = if k = key then some value else t.find? k :=
  findIn_insertIn key value t.entries k

/-- Erasing a key leaves every other value as it was. -/
@[simp] theorem find?_erase (t : Table α) (key k : Bytes) :
    (t.erase key).find? k = if k = key then none else t.find? k := by
  obtain ⟨es⟩ := t
  simp only [erase, find?]
  induction es with
  | nil => simp [findIn]
  | cons e rest ih =>
    obtain ⟨k', v'⟩ := e
    by_cases hk : k' = key
    · subst hk
      by_cases h : k = k'
      · subst h
        simpa [findIn] using ih
      · have h' : ¬k' = k := fun e => h e.symm
        simpa [findIn, h, h'] using ih
    · by_cases h : k' = k
      · subst h
        simp [findIn, hk]
      · simpa [findIn, hk, h] using ih

end Table

end Scriptlet
