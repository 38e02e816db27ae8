import Scriptlet.Text.Table

/-!
# Tables in order

The keys of a table ascend, if it was made by binding and erasing keys (`ordered_insert`,
`ordered_erase`). So a table is known by its entries : whatever order they are bound in, the table
that comes of it is the same (`ofList_of_perm`).
-/

namespace Scriptlet.Table

variable {α : Type}

/-- The keys ascend. -/
def Ordered (t : Table α) : Prop := t.keys.Pairwise (· < ·)

theorem ordered_empty : (empty : Table α).Ordered := List.Pairwise.nil

theorem eq_empty {t : Table α} (h : (!t.entries.isEmpty) = false) : t = empty := by
  rw [Bool.not_eq_false', List.isEmpty_iff] at h
  exact congrArg Table.mk h

theorem keys_nodup {t : Table α} (h : t.Ordered) : t.keys.Nodup := by
  refine List.Pairwise.imp (fun {k k'} hlt => ?_) h
  rintro rfl
  exact List.lt_irrefl k hlt

section

variable {key : Bytes} {value : α}

theorem mem_keys_insertIn {k : Bytes} : ∀ {es : List (Bytes × α)},
    k ∈ (insertIn key value es).map Prod.fst ↔ k = key ∨ k ∈ es.map Prod.fst
  | [] => by simp [insertIn]
  | (k', v') :: rest => by
    rw [insertIn]
    split
    next heq =>
      subst heq
      simp
    split
    · simp
    · rw [List.map_cons, List.mem_cons, mem_keys_insertIn, List.map_cons, List.mem_cons]
      exact or_left_comm

theorem mem_keys_insert {t : Table α} {k : Bytes} :
    k ∈ (t.insert key value).keys ↔ k = key ∨ k ∈ t.keys :=
  mem_keys_insertIn

theorem mem_insertIn {e : Bytes × α} : ∀ {es : List (Bytes × α)},
    e ∈ insertIn key value es → e = (key, value) ∨ e ∈ es
  | [], h => .inl (List.mem_singleton.1 h)
  | (k, v) :: rest, h => by
    rw [insertIn] at h
    split at h
    · exact (List.mem_cons.1 h).imp_right (List.mem_cons_of_mem _)
    split at h
    · exact List.mem_cons.1 h
    · rcases List.mem_cons.1 h with rfl | h
      · exact .inr List.mem_cons_self
      · exact (mem_insertIn h).imp_right (List.mem_cons_of_mem _)

/-- A key is bound at its place among the others. -/
theorem pairwise_insertIn : ∀ {es : List (Bytes × α)}, (es.map Prod.fst).Pairwise (· < ·) →
    ((insertIn key value es).map Prod.fst).Pairwise (· < ·)
  | [], _ => List.pairwise_singleton _ _
  | (k', v') :: rest, h => by
    obtain ⟨hfirst, hrest⟩ := List.pairwise_cons.1 h
    rw [insertIn]
    split
    next heq => exact heq ▸ h
    next hne =>
      split
      next hlt =>
        refine List.pairwise_cons.2 ⟨fun k hk => ?_, h⟩
        rcases List.mem_cons.1 hk with rfl | hk
        · exact hlt
        · exact List.lt_trans hlt (hfirst k hk)
      next hnot =>
        refine List.pairwise_cons.2 ⟨fun k hk => ?_, pairwise_insertIn hrest⟩
        rcases mem_keys_insertIn.1 hk with rfl | hk
        · exact Std.lt_of_le_of_ne (List.not_lt.1 hnot) hne
        · exact hfirst k hk

/-- Binding a key keeps the order. -/
theorem ordered_insert {t : Table α} (h : t.Ordered) : (t.insert key value).Ordered :=
  pairwise_insertIn h

/-- Erasing a key keeps the order. -/
theorem ordered_erase {t : Table α} (h : t.Ordered) : (t.erase key).Ordered :=
  List.Pairwise.sublist (List.filter_sublist.map Prod.fst) h

theorem perm_insertIn : ∀ {es : List (Bytes × α)}, key ∉ es.map Prod.fst →
    (insertIn key value es).Perm ((key, value) :: es)
  | [], _ => .refl _
  | (k', v') :: rest, h => by
    rw [List.map_cons, List.mem_cons, not_or] at h
    rw [insertIn, if_neg (Ne.symm h.1)]
    split
    · exact .refl _
    · exact ((perm_insertIn h.2).cons _).trans (.swap _ _ _)

/-- Binding a new key adds an entry. -/
theorem perm_insert {t : Table α} (h : key ∉ t.keys) :
    (t.insert key value).entries.Perm ((key, value) :: t.entries) :=
  perm_insertIn h

end

/-- Binding several keys keeps the order, and adds no entries but those. -/
theorem ordered_foldl_insert {t : Table α} (ht : t.Ordered) (es : List (Bytes × α)) :
    (es.foldl (fun t e => t.insert e.1 e.2) t).Ordered ∧
      ∀ e ∈ (es.foldl (fun t e => t.insert e.1 e.2) t).entries, e ∈ es ∨ e ∈ t.entries := by
  induction es generalizing t with
  | nil => exact ⟨ht, fun _ he => .inr he⟩
  | cons first es ih =>
    obtain ⟨hordered, hmem⟩ := ih (ordered_insert ht)
    refine ⟨hordered, fun e he => ?_⟩
    rcases hmem e he with he | he
    · exact .inl (List.mem_cons_of_mem _ he)
    · rcases mem_insertIn he with rfl | he
      · exact .inl List.mem_cons_self
      · exact .inr he

/-- The table of some entries is in order, and holds only them. -/
theorem ordered_ofList (es : List (Bytes × α)) :
    (ofList es).Ordered ∧ ∀ e ∈ (ofList es).entries, e ∈ es := by
  obtain ⟨hordered, hmem⟩ := ordered_foldl_insert ordered_empty es
  exact ⟨hordered, fun e he => (hmem e he).resolve_right List.not_mem_nil⟩

/-- Binding several new keys adds their entries. -/
theorem perm_foldl_insert : ∀ {es : List (Bytes × α)} {t : Table α}, t.Ordered →
    (es.map Prod.fst).Nodup → (∀ e ∈ es, e.1 ∉ t.keys) →
      (es.foldl (fun t e => t.insert e.1 e.2) t).Ordered ∧
        (es.foldl (fun t e => t.insert e.1 e.2) t).entries.Perm (es ++ t.entries)
  | [], t, ht, _, _ => ⟨ht, .refl _⟩
  | e :: rest, t, ht, hnodup, hnew => by
    obtain ⟨hfirst, hrest⟩ := List.nodup_cons.1 hnodup
    obtain ⟨he, hes⟩ := List.forall_mem_cons.1 hnew
    have hnew' : ∀ e' ∈ rest, e'.1 ∉ (t.insert e.1 e.2).keys := by
      intro e' he' hmem
      rcases mem_keys_insert.1 hmem with heq | hmem
      · exact hfirst (heq ▸ List.mem_map_of_mem he')
      · exact hes e' he' hmem
    obtain ⟨hordered, hperm⟩ := perm_foldl_insert (ordered_insert ht) hrest hnew'
    exact ⟨hordered, hperm.trans (((perm_insert he).append_left rest).trans List.perm_middle)⟩

/-- The entries of a table make up the table, in whatever order they are bound. -/
theorem ofList_of_perm {t : Table α} (ht : t.Ordered) {es : List (Bytes × α)}
    (h : es.Perm t.entries) : ofList es = t := by
  have hnodup : (es.map Prod.fst).Nodup := (h.map Prod.fst).nodup_iff.2 (keys_nodup ht)
  obtain ⟨hordered, hperm⟩ := perm_foldl_insert ordered_empty hnodup fun _ _ h => by cases h
  have hentries : (ofList es).entries.Perm t.entries := by
    rw [ofList]
    exact (hperm.trans (.of_eq (List.append_nil es))).trans h
  -- both are in order, so they are equal, not just permutations of each other
  have heq : (ofList es).entries = t.entries := by
    refine List.Perm.eq_of_pairwise (fun a b _ _ hab hba => ?_) (List.pairwise_map.1 hordered)
      (List.pairwise_map.1 ht) hentries
    exact absurd hba (List.lt_asymm hab)
  cases t
  cases hes : ofList es
  rw [hes] at heq
  exact congrArg Table.mk heq

/-- Binding each of some keys to its own value. -/
theorem find?_foldl_insert (f : Bytes → α) (key : Bytes) : ∀ (keys : List Bytes) (t : Table α),
    ((keys.map fun k => (k, f k)).foldl (fun t e => t.insert e.1 e.2) t).find? key =
      if key ∈ keys then some (f key) else t.find? key
  | [], t => by simp
  | k :: keys, t => by
    rw [List.map_cons, List.foldl_cons, find?_foldl_insert f key keys, find?_insert]
    by_cases hkeys : key ∈ keys
    · simp [hkeys]
    · by_cases hk : key = k <;> simp [hkeys, hk]

end Scriptlet.Table
