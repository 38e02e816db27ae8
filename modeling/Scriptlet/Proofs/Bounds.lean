import Scriptlet.Cbor.Schema
import Scriptlet.Proofs.Items
import Scriptlet.Proofs.Literals

/-!
# Sizes of what is read

Whatever bytes an item is read from, its texts are no longer than these bytes, and its arrays hold
no more items than arrays may hold (`bounded_of_decode`). So what a type of data is read as has
well-formed texts of that length, integers of 64 bits and lists of that size : `Slot.Gives` says
that a way to read values keeps to a property, and there is one rule for each way.
-/

namespace Scriptlet.Cbor

/-! ## Items -/

/-- The items right inside an item. -/
def Item.inner : Item → List Item
  | .array items => items
  | .map entries => unpaired entries
  | .tag _ content => [content]
  | _ => []

/-- The item's own text has at most `n` bytes, and it holds no more items than an array may hold. -/
def Item.Small (n : Nat) : Item → Prop
  | .text chunks => chunks.flatten.length ≤ n
  | .array items => items.length ≤ maxCount
  | _ => True

/-- The item and all items inside it are small. -/
inductive Item.Bounded (n : Nat) : Item → Prop
  | intro {item : Item} : item.Small n → (∀ i ∈ item.inner, i.Bounded n) → item.Bounded n

theorem Item.bounded_leaf {n : Nat} {item : Item} (h : item.Small n) (hinner : item.inner = []) :
    item.Bounded n :=
  .intro h fun i hi => by rw [hinner] at hi; cases hi

/-- The items of a map are its keys and values in turn. -/
theorem unpaired_of_pairUp : ∀ {items : List Item} {entries : List (Item × Item)},
    pairUp items = some entries → unpaired entries = items
  | [], _, h => by
    obtain rfl := Option.some.inj h
    rfl
  | [_], _, h => by cases h
  | k :: v :: rest, _, h => by
    obtain ⟨entries, hrest, rfl⟩ := Option.map_eq_some_iff.1 h
    rw [unpaired, unpaired_of_pairUp hrest]

theorem mem_unpaired {entries : List (Item × Item)} {e : Item × Item} (h : e ∈ entries) :
    e.1 ∈ unpaired entries ∧ e.2 ∈ unpaired entries := by
  induction entries with
  | nil => cases h
  | cons e' rest ih =>
    rw [unpaired]
    rcases List.mem_cons.1 h with rfl | h
    · exact ⟨List.mem_cons_self, List.mem_cons_of_mem _ List.mem_cons_self⟩
    · exact ⟨List.mem_cons_of_mem _ (List.mem_cons_of_mem _ (ih h).1),
        List.mem_cons_of_mem _ (List.mem_cons_of_mem _ (ih h).2)⟩

/-! ## Reading items -/

section

variable {s rest : Bytes} {h : Head}

theorem length_of_readNumber {width number : Nat} (hr : readNumber width s = some (number, rest)) :
    rest.length ≤ s.length := by
  rw [readNumber] at hr
  split at hr
  · cases hr
  · obtain ⟨-, rfl⟩ := Prod.mk.inj (Option.some.inj hr)
    exact (List.drop_sublist _ _).length_le

/-- What follows the head of an item is no longer than the bytes it is read from. -/
theorem length_of_readHead (hr : readHead s = some (h, rest)) : rest.length ≤ s.length := by
  cases s with
  | nil => cases hr
  | cons b tail =>
    refine le_trans ?_ (Nat.le_succ tail.length)
    simp only [readHead] at hr
    repeat' split at hr
    all_goals
      simp only [Option.bind_eq_bind, Option.bind_eq_some_iff, Option.some.injEq, Prod.mk.injEq,
        Prod.exists, reduceCtorEq] at hr
    · exact hr.2 ▸ le_rfl
    · obtain ⟨number, rest', hn, hr⟩ := hr
      split at hr
      · cases hr
      · obtain ⟨-, rfl⟩ := Prod.mk.inj (Option.some.inj hr)
        exact length_of_readNumber hn
    all_goals
      first
        | obtain ⟨number, rest', hn, -, rfl⟩ := hr
          exact length_of_readNumber hn
        | exact hr.2 ▸ le_rfl

/-- A chunk of bytes is cut off the front. -/
theorem length_of_readBytes {n : Nat} {chunk : Bytes} (hr : readBytes n s = some (chunk, rest)) :
    chunk.length + rest.length = s.length := by
  rw [readBytes] at hr
  split at hr
  · cases hr
  · obtain ⟨rfl, rfl⟩ := Prod.mk.inj (Option.some.inj hr)
    rw [← List.length_append, List.take_append_drop]

/-- Chunks are together no longer than the bytes they are read from. -/
theorem length_of_readChunks {major : Nat} : ∀ {fuel : Nat} {s rest : Bytes}
    {chunks : List Bytes}, readChunks major fuel s = some (chunks, rest) →
      chunks.flatten.length + rest.length ≤ s.length
  | 0, _, _, _, hr => by cases hr
  | fuel + 1, s, rest, chunks, hr => by
    rw [readChunks] at hr
    split at hr
    · obtain ⟨rfl, rfl⟩ := Prod.mk.inj (Option.some.inj hr)
      simp
    · simp only [Option.bind_eq_bind, Option.bind_eq_some_iff, Prod.exists] at hr
      obtain ⟨h, s', hh, hr⟩ := hr
      split at hr
      · cases hr
      · simp only [Option.bind_eq_some_iff, Prod.exists, Option.pure_def, Option.some.injEq,
          Prod.mk.injEq] at hr
        obtain ⟨chunk, s'', hc, chunks', rest', hcs, rfl, rfl⟩ := hr
        have hhead := length_of_readHead hh
        have hchunk := length_of_readBytes hc
        have hchunks := length_of_readChunks hcs
        rw [List.flatten_cons, List.length_append]
        omega

theorem length_of_readString {chunks : List Bytes} (hr : readString h s = some (chunks, rest)) :
    chunks.flatten.length + rest.length ≤ s.length := by
  rw [readString] at hr
  split at hr
  · exact length_of_readChunks hr
  · simp only [Option.bind_eq_bind, Option.bind_eq_some_iff, Prod.exists, Option.pure_def,
      Option.some.injEq, Prod.mk.injEq] at hr
    obtain ⟨chunk, rest', hc, rfl, rfl⟩ := hr
    rw [List.flatten_singleton]
    exact (length_of_readBytes hc).le

end

section

variable {n : Nat}

mutual

/-- An item that is read from at most `n` bytes is bounded by them. -/
theorem bounded_of_readItem : ∀ {fuel depth : Nat} {s rest : Bytes} {item : Item}, s.length ≤ n →
    readItem fuel depth s = some (item, rest) → rest.length ≤ s.length ∧ item.Bounded n
  | 0, _, _, _, _, _, hr => by
    rw [readItem] at hr
    cases hr
  | fuel + 1, depth, s, rest, item, hs, hr => by
    rw [readItem] at hr
    simp only [Option.bind_eq_bind, Option.bind_eq_some_iff, Prod.exists] at hr
    obtain ⟨h, s', hh, hr⟩ := hr
    have hhead := length_of_readHead hh
    -- what an array and a map hold is read in one of two ways
    have hinner {count : Nat} {f : List Item × Bytes → Option (Item × Bytes)}
        (hr : (if h.isOpen = true then (readOpen fuel (depth + 1) s').bind f
          else (readItems fuel (depth + 1) count s').bind f) = some (item, rest)) :
        ∃ items rest', rest'.length ≤ s'.length ∧ (∀ i ∈ items, i.Bounded n) ∧
          f (items, rest') = some (item, rest) := by
      split at hr <;> obtain ⟨⟨items, rest'⟩, hi, hr⟩ := Option.bind_eq_some_iff.1 hr
      · obtain ⟨hle, hitems⟩ := bounded_of_readOpen (hhead.trans hs) hi
        exact ⟨items, rest', hle, hitems, hr⟩
      · obtain ⟨hle, hitems⟩ := bounded_of_readItems (hhead.trans hs) hi
        exact ⟨items, rest', hle, hitems, hr⟩
    -- one case for each kind of item, in the order of their heads
    split at hr
    · obtain ⟨rfl, rfl⟩ := Prod.mk.inj (Option.some.inj hr)
      exact ⟨hhead, Item.bounded_leaf trivial rfl⟩
    · obtain ⟨rfl, rfl⟩ := Prod.mk.inj (Option.some.inj hr)
      exact ⟨hhead, Item.bounded_leaf trivial rfl⟩
    · simp only [Option.bind_eq_some_iff, Prod.exists, Option.pure_def, Option.some.injEq,
        Prod.mk.injEq] at hr
      obtain ⟨chunks, rest', hc, rfl, rfl⟩ := hr
      have hstring := length_of_readString hc
      exact ⟨by omega, Item.bounded_leaf trivial rfl⟩
    · simp only [Option.bind_eq_some_iff, Prod.exists, Option.pure_def, Option.some.injEq,
        Prod.mk.injEq] at hr
      obtain ⟨chunks, rest', hc, rfl, rfl⟩ := hr
      have hstring := length_of_readString hc
      have hsmall : chunks.flatten.length ≤ n := by omega
      exact ⟨by omega, Item.bounded_leaf hsmall rfl⟩
    · split at hr
      · cases hr
      obtain ⟨items, rest', hle, hitems, hr⟩ := hinner hr
      split at hr
      · cases hr
      next hcount =>
        obtain ⟨rfl, rfl⟩ := Prod.mk.inj (Option.some.inj hr)
        exact ⟨hle.trans hhead, .intro (not_lt.1 hcount) hitems⟩
    · split at hr
      · cases hr
      obtain ⟨items, rest', hle, hitems, hr⟩ := hinner hr
      obtain ⟨entries, hpair, hr⟩ := Option.bind_eq_some_iff.1 hr
      split at hr
      · cases hr
      · obtain ⟨rfl, rfl⟩ := Prod.mk.inj (Option.some.inj hr)
        -- the items that were read are the keys and values in turn
        refine ⟨hle.trans hhead, .intro trivial ?_⟩
        rw [Item.inner, unpaired_of_pairUp hpair]
        exact hitems
    · split at hr
      · cases hr
      · simp only [Option.bind_eq_some_iff, Prod.exists, Option.pure_def, Option.some.injEq,
          Prod.mk.injEq] at hr
        obtain ⟨content, rest', hc, rfl, rfl⟩ := hr
        obtain ⟨hrest, hcontent⟩ := bounded_of_readItem (hhead.trans hs) hc
        refine ⟨hrest.trans hhead, .intro trivial fun i hi => ?_⟩
        rw [List.mem_singleton.1 hi]
        exact hcontent
    · obtain ⟨rfl, rfl⟩ := Prod.mk.inj (Option.some.inj hr)
      refine ⟨hhead, ?_⟩
      unfold special
      split <;> exact Item.bounded_leaf trivial rfl

/-- Items that are read one after the other are bounded. -/
theorem bounded_of_readItems : ∀ {fuel depth count : Nat} {s rest : Bytes} {items : List Item},
    s.length ≤ n → readItems fuel depth count s = some (items, rest) →
      rest.length ≤ s.length ∧ ∀ i ∈ items, i.Bounded n
  | fuel, _, 0, _, _, _, _, hr => by
    rw [readItems] at hr
    obtain ⟨rfl, rfl⟩ := Prod.mk.inj (Option.some.inj hr)
    exact ⟨le_rfl, by simp⟩
  | 0, _, _ + 1, _, _, _, _, hr => by
    rw [readItems] at hr
    cases hr
  | fuel + 1, depth, count + 1, s, rest, items, hs, hr => by
    rw [readItems] at hr
    simp only [Option.bind_eq_bind, Option.bind_eq_some_iff, Prod.exists, Option.pure_def,
      Option.some.injEq, Prod.mk.injEq] at hr
    obtain ⟨item, s', hi, items', rest', his, rfl, rfl⟩ := hr
    obtain ⟨hle, hitem⟩ := bounded_of_readItem hs hi
    obtain ⟨hle', hitems⟩ := bounded_of_readItems (hle.trans hs) his
    exact ⟨hle'.trans hle, List.forall_mem_cons.2 ⟨hitem, hitems⟩⟩

/-- Items that are read up to a break are bounded. -/
theorem bounded_of_readOpen : ∀ {fuel depth : Nat} {s rest : Bytes} {items : List Item},
    s.length ≤ n → readOpen fuel depth s = some (items, rest) →
      rest.length ≤ s.length ∧ ∀ i ∈ items, i.Bounded n
  | 0, _, _, _, _, _, hr => by
    rw [readOpen] at hr
    cases hr
  | fuel + 1, depth, s, rest, items, hs, hr => by
    rw [readOpen] at hr
    split at hr
    · obtain ⟨rfl, rfl⟩ := Prod.mk.inj (Option.some.inj hr)
      exact ⟨(List.drop_sublist _ _).length_le, by simp⟩
    · simp only [Option.bind_eq_bind, Option.bind_eq_some_iff, Prod.exists, Option.pure_def,
        Option.some.injEq, Prod.mk.injEq] at hr
      obtain ⟨item, s', hi, items', rest', his, rfl, rfl⟩ := hr
      obtain ⟨hle, hitem⟩ := bounded_of_readItem hs hi
      obtain ⟨hle', hitems⟩ := bounded_of_readOpen (hle.trans hs) his
      exact ⟨hle'.trans hle, List.forall_mem_cons.2 ⟨hitem, hitems⟩⟩

end

end

/-- The item that some bytes hold is bounded by their number. -/
theorem bounded_of_decode {s : Bytes} {item : Item} (h : decode s = some item) :
    item.Bounded s.length := by
  rw [decode] at h
  split at h
  next item' hr =>
    obtain rfl := Option.some.inj h
    exact (bounded_of_readItem le_rfl hr).2
  next => cases h

/-! ## Typed data -/

variable {α : Type} {n : Nat} {good : α → Prop}

/-- The item inside all tags is bounded as they are. Large integers become integers. -/
theorem Item.Bounded.untagged {item content : Item} (hitem : item.Bounded n)
    (h : item.untagged? = some content) : content.Bounded n := by
  fun_induction Item.untagged? item with
  | case1 _ ih | case7 _ _ _ _ _ _ ih =>
    obtain ⟨-, hinner⟩ := hitem
    exact ih (hinner _ List.mem_cons_self) h
  | case2 | case4 | case6 => cases h
  | case3 | case5 => exact Option.some.inj h ▸ Item.bounded_leaf trivial rfl
  | case8 => exact Option.some.inj h ▸ hitem

/-- Whatever bounded item is read in the place of a good value, the value that comes of it is
good. -/
def Slot.Gives (n : Nat) (good : α → Prop) (slot : Slot α) : Prop :=
  ∀ (old : α) (item : Item) (a : α), good old → item.Bounded n → slot old item = some a → good a

/-- A well-formed text of at most `n` bytes. -/
structure IsText (n : Nat) (s : Bytes) : Prop where
  valid : Utf8.isValid s = true
  length : s.length ≤ n

theorem isText_nil (n : Nat) : IsText n [] := ⟨rfl, Nat.zero_le n⟩

namespace Slot

theorem gives_ofItem {read : Item → Option α}
    (h : ∀ item a, item.Bounded n → read item = some a → good a) : (ofItem read).Gives n good := by
  intro old item a hold hitem hread
  obtain ⟨content, hcontent, hread⟩ := Option.bind_eq_some_iff.1 hread
  split at hread
  · exact Option.some.inj hread ▸ hold
  · exact h content a (hitem.untagged hcontent) hread

theorem gives_text : text.Gives n (IsText n) := by
  refine gives_ofItem fun item a hitem hread => ?_
  split at hread
  next chunks =>
    obtain ⟨hsmall, -⟩ := hitem
    rw [joinChunks?] at hread
    split at hread
    next hvalid => exact Option.some.inj hread ▸ ⟨Utf8.isValid_flatten hvalid, hsmall⟩
    next => cases hread
  next => cases hread

theorem gives_int : int.Gives n (fun k => fitsInt64 k = true) := by
  refine gives_ofItem fun item a _ hread => ?_
  have hfits (k : Int) (hlow : -(int64Bound : Int) ≤ k) (hhigh : k < int64Bound) :
      fitsInt64 k = true := by
    rw [fitsInt64, Bool.and_eq_true, decide_eq_true_eq, decide_eq_true_eq]
    exact ⟨hlow, hhigh⟩
  split at hread
  case h_4 => cases hread
  all_goals
    split at hread
    · obtain rfl := Option.some.inj hread
      exact hfits _ (by omega) (by omega)
    · cases hread

/-- Items are read one by one. -/
theorem of_mapM {read : Item → Option α} : ∀ {items : List Item} {xs : List α},
    items.mapM read = some xs → xs.length = items.length ∧ ∀ x ∈ xs, ∃ i ∈ items, read i = some x
  | [], xs, h => by
    obtain rfl := Option.some.inj h
    simp
  | i :: rest, xs, h => by
    rw [List.mapM_cons] at h
    obtain ⟨x, hx, h⟩ := Option.bind_eq_some_iff.1 h
    obtain ⟨xs', hxs, h⟩ := Option.bind_eq_some_iff.1 h
    obtain rfl := Option.some.inj h
    obtain ⟨hlength, hmem⟩ := of_mapM hxs
    refine ⟨by simp [hlength], List.forall_mem_cons.2 ⟨⟨i, List.mem_cons_self, hx⟩, ?_⟩⟩
    exact fun y hy => (hmem y hy).imp fun j hj => ⟨List.mem_cons_of_mem i hj.1, hj.2⟩

/-- A list has at most as many elements as an array may hold, each of them good. -/
theorem gives_list {zero : α} {element : Slot α} (hzero : good zero)
    (h : element.Gives n good) :
    (list zero element).Gives n (fun xs => xs.length ≤ maxCount ∧ ∀ x ∈ xs, good x) := by
  intro old item xs _ hitem hread
  obtain ⟨content, hcontent, hread⟩ := Option.bind_eq_some_iff.1 hread
  split at hread
  · exact Option.some.inj hread ▸ ⟨Nat.zero_le _, by simp⟩
  next items =>
    obtain ⟨hcount, hinner⟩ := hitem.untagged hcontent
    obtain ⟨hlength, hmem⟩ := of_mapM hread
    refine ⟨hlength ▸ hcount, fun x hx => ?_⟩
    obtain ⟨i, hi, hx⟩ := hmem x hx
    exact h zero i x hzero (hinner i hi) hx
  · cases hread

theorem gives_optional {zero : α} {inner : Slot α} (hzero : good zero) (h : inner.Gives n good) :
    (optional zero inner).Gives n (fun o => ∀ a, o = some a → good a) := by
  intro old item o _ hitem hread a ha
  subst ha
  unfold optional at hread
  split at hread
  · cases hread
  · obtain ⟨b, hb, hba⟩ := Option.map_eq_some_iff.1 hread
    obtain rfl := Option.some.inj hba
    exact h zero item _ hzero hitem hb

theorem Gives.field {slot : Slot α} {old a : α} {item : Option Item} (h : slot.Gives n good)
    (hold : good old) (hitem : ∀ i, item = some i → i.Bounded n)
    (hread : slot.field old item = some a) : good a := by
  cases item with
  | none => exact Option.some.inj hread ▸ hold
  | some i => exact h _ i _ hold (hitem i rfl) hread

end Slot

/-! ## Records -/

/-- The items of all fields are bounded. -/
def FieldsBounded (n : Nat) (fields : List Field) : Prop :=
  ∀ f ∈ fields, ∀ i, f.item = some i → i.Bounded n

theorem fieldsBounded_fill {p : FieldKey → Bool} {item : Item} (hitem : item.Bounded n) :
    ∀ {fields fields' : List Field}, FieldsBounded n fields → fill p item fields = some fields' →
      FieldsBounded n fields'
  | [], _, _, h => by cases h
  | f :: rest, fields', hfields, h => by
    obtain ⟨hf, hrest⟩ := List.forall_mem_cons.1 hfields
    rw [fill] at h
    split at h
    · obtain rfl := Option.some.inj h
      exact List.forall_mem_cons.2 ⟨fun i hi => Option.some.inj hi ▸ hitem, hrest⟩
    · obtain ⟨rest', hfill, rfl⟩ := Option.map_eq_some_iff.1 h
      exact List.forall_mem_cons.2 ⟨hf, fieldsBounded_fill hitem hrest hfill⟩

theorem fieldsBounded_fill_getD {p : FieldKey → Bool} {item : Item} {fields : List Field}
    (hitem : item.Bounded n) (hfields : FieldsBounded n fields) :
    FieldsBounded n ((fill p item fields).getD fields) := by
  cases h : fill p item fields with
  | none => exact hfields
  | some fields' => exact fieldsBounded_fill hitem hfields h

/-- An entry that is placed is bounded, whichever field it is for. -/
theorem fieldsBounded_place {key item : Item} {fields fields' : List Field}
    (hitem : item.Bounded n) (hfields : FieldsBounded n fields)
    (h : place fields key item = some fields') : FieldsBounded n fields' := by
  unfold place at h
  split at h
  · obtain ⟨name, -, h⟩ := Option.bind_eq_some_iff.1 h
    split at h
    next filled hfill =>
      exact Option.some.inj h ▸ fieldsBounded_fill hitem hfields hfill
    · exact Option.some.inj h ▸ fieldsBounded_fill_getD hitem hfields
  · exact Option.some.inj h ▸ fieldsBounded_fill_getD hitem hfields
  · split at h
    · exact Option.some.inj h ▸ hfields
    · cases h
  · cases h

theorem fieldsBounded_foldlM : ∀ {entries : List (Item × Item)} {fields fields' : List Field},
    (∀ e ∈ entries, e.2.Bounded n) → FieldsBounded n fields →
      entries.foldlM (fun fields e => place fields e.1 e.2) fields = some fields' →
        FieldsBounded n fields'
  | [], _, _, _, hfields, h => Option.some.inj h ▸ hfields
  | e :: rest, fields, fields', hentries, hfields, h => by
    obtain ⟨he, hrest⟩ := List.forall_mem_cons.1 hentries
    rw [List.foldlM_cons] at h
    obtain ⟨placed, hplace, h⟩ := Option.bind_eq_some_iff.1 h
    exact fieldsBounded_foldlM hrest (fieldsBounded_place he hfields hplace) h

/-- The items of a record's fields are bounded. -/
theorem bounded_of_record? {keys : List FieldKey} {item : Item} {items : List (Option Item)}
    (hitem : item.Bounded n) (h : record? keys item = some items) {i : Item}
    (hi : some i ∈ items) : i.Bounded n := by
  have hkeys : FieldsBounded n (keys.map fun k => (⟨k, none⟩ : Field)) := by
    intro f hf i hi
    obtain ⟨k, -, rfl⟩ := List.mem_map.1 hf
    cases hi
  have hmap {fields : List Field} (hfields : FieldsBounded n fields)
      (hi : some i ∈ fields.map Field.item) : i.Bounded n := by
    obtain ⟨f, hf, hfi⟩ := List.mem_map.1 hi
    exact hfields f hf i hfi
  obtain ⟨content, hcontent, h⟩ := Option.bind_eq_some_iff.1 h
  have hbounded := hitem.untagged hcontent
  split at h
  · obtain rfl := Option.some.inj h
    exact hmap hkeys hi
  next entries =>
    obtain ⟨fields, hfold, h⟩ := Option.bind_eq_some_iff.1 h
    obtain rfl := Option.some.inj h
    obtain ⟨-, hinner⟩ := hbounded
    exact hmap (fieldsBounded_foldlM
      (fun e he => hinner e.2 (mem_unpaired he).2) hkeys hfold) hi
  · cases h

end Scriptlet.Cbor
