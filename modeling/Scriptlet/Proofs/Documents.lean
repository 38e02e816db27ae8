import Scriptlet.Proofs.Sheets
import Scriptlet.Toml.Document

/-!
# The documents of flat configuration files

The lines of a sheet build its tables one after another : a header adds an empty table at the end,
and each value goes to the end of the last table. So the text of a sheet is read as its tables, with
every path of the sheet in its order (`parse?_text`).
-/

namespace Scriptlet.Toml

/-! ## Entries at the end -/

namespace Entries

variable {key : Bytes} {value : Value} {es : Entries}

theorem get?_of_not_mem (h : key ∉ es.map Prod.fst) : Entries.get? key es = none := by
  induction es with
  | nil => rfl
  | cons e es ih =>
    rw [List.map_cons, List.mem_cons, not_or] at h
    rw [Entries.get?, if_neg (Ne.symm h.1), ih h.2]

theorem get?_concat (h : key ∉ es.map Prod.fst) :
    Entries.get? key (es ++ [(key, value)]) = some value := by
  induction es with
  | nil => exact if_pos rfl
  | cons e es ih =>
    rw [List.map_cons, List.mem_cons, not_or] at h
    rw [List.cons_append, Entries.get?, if_neg (Ne.symm h.1), ih h.2]

theorem put_of_not_mem (h : key ∉ es.map Prod.fst) :
    Entries.put key value es = es ++ [(key, value)] := by
  induction es with
  | nil => rfl
  | cons e es ih =>
    rw [List.map_cons, List.mem_cons, not_or] at h
    rw [Entries.put, if_neg (Ne.symm h.1), ih h.2, List.cons_append]

theorem put_concat (h : key ∉ es.map Prod.fst) (value' : Value) :
    Entries.put key value' (es ++ [(key, value)]) = es ++ [(key, value')] := by
  induction es with
  | nil => exact if_pos rfl
  | cons e es ih =>
    rw [List.map_cons, List.mem_cons, not_or] at h
    rw [List.cons_append, Entries.put, if_neg (Ne.symm h.1), ih h.2, List.cons_append]

end Entries

/-! ## Lines of a sheet in a document -/

namespace Document

variable {root inner : Entries} {written : List KeyPath} {name key : Bytes}

/-- A new table is opened at the end. -/
theorem addLine?_header (h : name ∉ root.map Prod.fst) (outer : KeyPath) :
    addLine? ⟨root, [], [], written⟩ outer (.table [name]) =
      some (⟨root ++ [(name, .table [])], [], [], [name] :: written⟩, [name]) := by
  have hfind : Entries.find? root [name] = none := by
    simp only [Entries.find?, Entries.get?_of_not_mem h]
  have hset : Entries.set? root (.table []) [name] = some (root ++ [(name, .table [])]) := by
    rw [Entries.set?, Entries.put_of_not_mem h]
  have hopen : openTable? ⟨root, [], [], written⟩ [name] =
      some ⟨root ++ [(name, .table [])], [], [], written⟩ := by
    change define? ⟨root, [], [], written⟩ [name] (.table []) = _
    simp only [define?, hfind, set?, hset, Option.map_some]
  rw [addLine?, hopen]
  rfl

/-- A value goes to the end of the last table. -/
theorem addLine?_entry (hname : name ∉ root.map Prod.fst) (hkey : key ∉ inner.map Prod.fst)
    (v : Scalar) :
    addLine? ⟨root ++ [(name, .table inner)], [], [], written⟩ [name] (.entry [key] v.literal) =
      some (⟨root ++ [(name, .table (inner ++ [(key, v.value)]))], [], [], [name, key] :: written⟩,
        [name]) := by
  have hfind : Entries.find? (root ++ [(name, .table inner)]) [name, key] = none := by
    simp only [Entries.find?, Entries.get?_concat hname, Entries.get?_of_not_mem hkey]
  have hset : Entries.set? (root ++ [(name, .table inner)]) v.value [name, key] =
      some (root ++ [(name, .table (inner ++ [(key, v.value)]))]) := by
    simp only [Entries.set?, Entries.get?_concat hname, Entries.put_of_not_mem hkey,
      Entries.put_concat hname]
    rfl
  have hvalue (d : Document) (path : KeyPath) :
      value? d path false v.literal = some (d, v.value) := by
    cases v <;> rw [Scalar.literal, value?, Scalar.value]
  have hdefine : define? ⟨root ++ [(name, .table inner)], [], [], [name, key] :: written⟩
      [name, key] v.value = some ⟨root ++ [(name, .table (inner ++ [(key, v.value)]))], [], [],
        [name, key] :: written⟩ := by
    simp only [define?, hfind, set?, hset, Option.map_some]
  rw [addLine?, addPairs?]
  change (value? ⟨_, [], [], [name, key] :: written⟩ [name, key] false v.literal >>= _) >>= _ = _
  rw [hvalue]
  change (define? ⟨_, [], [], [name, key] :: written⟩ [name, key] v.value >>= _) >>= _ = _
  rw [hdefine]
  change addPairs? _ [name] [] >>= _ = _
  rw [addPairs?]
  cases v <;> rfl

end Document

/-! ## Sheets as documents -/

namespace Sheet

/-- The entries of a table. -/
def tableEntries (table : Bytes × List (Bytes × Scalar)) : Entries :=
  table.2.map fun e => (e.1, e.2.value)

/-- The tables of the sheet. -/
def entries (sheet : Sheet) : Entries := sheet.map fun t => (t.1, .table (tableEntries t))

/-- The paths of a table. -/
def tablePaths (table : Bytes × List (Bytes × Scalar)) : List KeyPath :=
  [table.1] :: table.2.map fun e => [table.1, e.1]

/-- The paths of the sheet, in their order. -/
def paths (sheet : Sheet) : List KeyPath := sheet.flatMap tablePaths

variable {root : Entries} {name : Bytes}

/-- The values of a table go to the end of the last table, one after another. -/
theorem addLines?_entries (hname : name ∉ root.map Prod.fst) (rest : List Line) :
    ∀ {es : List (Bytes × Scalar)} {inner : Entries} {written : List KeyPath},
    (inner.map Prod.fst ++ es.map Prod.fst).Nodup →
    Document.addLines? ⟨root ++ [(name, .table inner)], [], [], written⟩ [name]
        (es.map entryLine ++ rest) =
      Document.addLines? ⟨root ++ [(name, .table (inner ++ es.map fun e => (e.1, e.2.value)))],
        [], [], (es.map fun e => [name, e.1]).reverse ++ written⟩ [name] rest
  | [], inner, written, _ => by
    rw [List.map_nil, List.map_nil, List.append_nil]
    rfl
  | e :: es, inner, written, h => by
    have hkey : e.1 ∉ inner.map Prod.fst := fun hmem =>
      (List.nodup_append.1 h).2.2 e.1 hmem e.1 List.mem_cons_self rfl
    have hnext : ((inner ++ [(e.1, e.2.value)]).map Prod.fst ++ es.map Prod.fst).Nodup := by
      rw [List.map_append, List.append_assoc]
      exact h
    rw [List.map_cons, List.cons_append, Document.addLines?, entryLine,
      Document.addLine?_entry hname hkey]
    change Document.addLines? _ _ _ = _
    rw [addLines?_entries hname rest hnext]
    simp

theorem addLines?_tables : ∀ {sheet : Sheet} {root : Entries} {written : List KeyPath}
    (outer : KeyPath), (root.map Prod.fst ++ sheet.map Prod.fst).Nodup →
    (∀ t ∈ sheet, (t.2.map Prod.fst).Nodup) →
    Document.addLines? ⟨root, [], [], written⟩ outer sheet.lines =
      some ⟨root ++ sheet.entries, [], [], sheet.paths.reverse ++ written⟩
  | [], root, written, _, _, _ => by
    have hentries : root ++ entries [] = root := List.append_nil root
    rw [hentries]
    rfl
  | table :: sheet, root, written, outer, hnames, hkeys => by
    obtain ⟨htable, hkeys⟩ := List.forall_mem_cons.1 hkeys
    have hname : table.1 ∉ root.map Prod.fst := fun hmem =>
      (List.nodup_append.1 hnames).2.2 table.1 hmem table.1 List.mem_cons_self rfl
    have hnext : ((root ++ [(table.1, Value.table (tableEntries table))]).map Prod.fst ++
        sheet.map Prod.fst).Nodup := by
      rw [List.map_append, List.append_assoc]
      exact hnames
    have hlines : lines (table :: sheet) =
        .table [table.1] :: (table.2.map entryLine ++ lines sheet) := rfl
    rw [hlines, Document.addLines?, Document.addLine?_header hname]
    change Document.addLines? _ _ _ = _
    rw [@addLines?_entries root table.1 hname _ table.2 [] _ htable, List.nil_append]
    change Document.addLines? ⟨root ++ [(table.1, .table (tableEntries table))], [], [], _⟩ _ _ = _
    rw [addLines?_tables _ hnext hkeys]
    simp [entries, paths, tablePaths]

/-- The text of a sheet is read as its tables, with all its paths. -/
theorem parse?_text {sheet : Sheet} (h : sheet.Fits) :
    Document.parse? sheet.text = some ⟨sheet.entries, [], [], sheet.paths.reverse⟩ := by
  have hlines := @addLines?_tables sheet [] [] [] h.distinctNames h.distinctKeys
  rw [List.nil_append, List.append_nil] at hlines
  rw [Document.parse?, lines?_text h.names h.values]
  exact hlines

end Sheet

end Scriptlet.Toml
