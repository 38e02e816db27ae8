import Mathlib.Data.Prod.Lex
import Scriptlet.Proofs.Positions
import Scriptlet.Proofs.Spans

/-!
# The order of positions

The positions of a text are those reached by passing some of its characters (`Position.In`). Each
character moves on the offset, and the line or the column. So of two positions of a text one stands
before the other, by bytes as well as by line and column (`Position.In.linear`), and the two orders
are the same (`Position.In.place_le_iff`). Tokens start and end at positions of their text, and so
do the nodes of its tree (`in_of_mem_walk`).
-/

namespace Scriptlet

namespace Position

/-- The line and the column, which are ordered by the line first. -/
def place (p : Position) : ℕ ×ₗ ℕ := toLex (p.line, p.column)

theorem place_le_iff {p q : Position} :
    p.place ≤ q.place ↔ p.line < q.line ∨ p.line = q.line ∧ p.column ≤ q.column :=
  Prod.Lex.toLex_le_toLex

theorem place_lt_iff {p q : Position} :
    p.place < q.place ↔ p.line < q.line ∨ p.line = q.line ∧ p.column < q.column :=
  Prod.Lex.toLex_lt_toLex

/-- The position stands before another one, by bytes as well as by line and column. -/
def Before (p q : Position) : Prop := p.offset < q.offset ∧ p.place < q.place

theorem Before.trans {p q r : Position} (h : p.Before q) (h' : q.Before r) : p.Before r :=
  ⟨h.1.trans h'.1, h.2.trans h'.2⟩

theorem before_past (p : Position) {g : Glyph} (hg : g.bytes ≠ []) : p.Before (p.past g) := by
  have hlength := List.length_pos_iff.2 hg
  rw [past]
  split
  · exact ⟨Nat.lt_add_of_pos_right hlength, place_lt_iff.2 (.inl (Nat.lt_succ_self _))⟩
  · exact ⟨Nat.lt_add_of_pos_right hlength, place_lt_iff.2 (.inr ⟨rfl, Nat.lt_succ_self _⟩)⟩

/-- Passing characters goes on, unless there are none. -/
theorem eq_or_before_pastAll {gs : List Glyph} (hgs : ∀ g ∈ gs, g.bytes ≠ []) (p : Position) :
    p = p.pastAll gs ∨ p.Before (p.pastAll gs) := by
  induction gs generalizing p with
  | nil => exact .inl rfl
  | cons g gs ih =>
    obtain ⟨hg, hgs⟩ := List.forall_mem_cons.1 hgs
    have hfirst := p.before_past hg
    rcases ih hgs (p.past g) with heq | hrest
    · exact .inr (heq ▸ hfirst)
    · exact .inr (hfirst.trans hrest)

/-- A position that is reached after `m` characters is reached from the one after `n` of them, if
`n` is not more. -/
theorem pastAll_take_of_le (p : Position) (gs : List Glyph) {n m : Nat} (h : n ≤ m) :
    p.pastAll (gs.take m) = (p.pastAll (gs.take n)).pastAll ((gs.take m).drop n) := by
  have hfirst : gs.take n = (gs.take m).take n := by rw [List.take_take, Nat.min_eq_left h]
  rw [hfirst, ← pastAll_append, List.take_append_drop]

/-- Of two positions that are reached in a text, one stands before the other. -/
theorem ReachedFrom.linear {gs : List Glyph} (hgs : ∀ g ∈ gs, g.bytes ≠ []) {p q r : Position}
    (hq : p.ReachedFrom gs q) (hr : p.ReachedFrom gs r) : q = r ∨ q.Before r ∨ r.Before q := by
  obtain ⟨n, rfl⟩ := hq
  obtain ⟨m, rfl⟩ := hr
  have hpart (n m : Nat) : ∀ g ∈ (gs.take m).drop n, g.bytes ≠ [] := fun g hg =>
    hgs g (List.mem_of_mem_take (List.mem_of_mem_drop hg))
  rcases Nat.le_total n m with h | h
  · rw [pastAll_take_of_le p gs h]
    exact (eq_or_before_pastAll (hpart n m) _).imp_right .inl
  · rw [pastAll_take_of_le p gs h]
    exact (eq_or_before_pastAll (hpart m n) _).imp Eq.symm .inr

/-- The position is reached in the text. -/
def In (source : Bytes) (p : Position) : Prop := start.ReachedFrom (Utf8.glyphs source) p

namespace In

variable {source : Bytes} {p q : Position}

/-- Of two positions in a text one comes first, since both are past some of its first characters. -/
theorem linear (hp : p.In source) (hq : q.In source) : p = q ∨ p.Before q ∨ q.Before p :=
  ReachedFrom.linear (fun _ hg => (Utf8.faithful_of_mem hg).ne_nil) hp hq

/-- The order by line and column is the order by bytes. -/
theorem place_lt_iff (hp : p.In source) (hq : q.In source) :
    p.place < q.place ↔ p.offset < q.offset := by
  rcases hp.linear hq with rfl | h | h
  · exact iff_of_false (lt_irrefl _) (Nat.lt_irrefl _)
  · exact iff_of_true h.2 h.1
  · exact iff_of_false h.2.not_gt h.1.not_gt

theorem place_le_iff (hp : p.In source) (hq : q.In source) :
    p.place ≤ q.place ↔ p.offset ≤ q.offset := by
  rw [← not_lt, hq.place_lt_iff hp, Nat.not_lt]

/-- Lines do not go back. -/
theorem line_le (hp : p.In source) (hq : q.In source) (h : p.offset ≤ q.offset) :
    p.line ≤ q.line := by
  rcases Position.place_le_iff.1 ((hp.place_le_iff hq).2 h) with hline | ⟨hline, -⟩
  · exact hline.le
  · exact hline.le

/-- A position is known by its line and its column. -/
theorem eq_of_place (hp : p.In source) (hq : q.In source) (h : p.place = q.place) : p = q := by
  rcases hp.linear hq with heq | hbefore | hbefore
  · exact heq
  · exact absurd h hbefore.2.ne
  · exact absurd h.symm hbefore.2.ne

theorem counted (hp : p.In source) : p.CountedIn source := by
  obtain ⟨n, rfl⟩ := hp
  exact countedIn_pastAll source n

/-- Lines and columns start at one. -/
theorem pos (hp : p.In source) : 0 < p.line ∧ 0 < p.column := by
  obtain ⟨-, hline, hcolumn⟩ := hp.counted
  omega

end In

end Position

/-! ## Tokens and nodes -/

variable {source : Bytes}

theorem in_of_mem_tokenize {t : Token} (ht : t ∈ tokenize source) :
    t.start.In source ∧ t.stop.In source :=
  reached_of_mem_scan _ _ _ t ht

theorem Span.Covers.in {span : Span} {u : List Token} (h : span.Covers u)
    (hu : ∀ t ∈ u, t ∈ tokenize source) : span.start.In source ∧ span.stop.In source := by
  obtain ⟨t, v, rfl, hstart⟩ := h.first
  obtain ⟨w, r, hr, hstop⟩ := h.last
  have ht := in_of_mem_tokenize (hu t List.mem_cons_self)
  have hlast := in_of_mem_tokenize (hu r (hr ▸ List.mem_append_right w List.mem_cons_self))
  exact ⟨hstart ▸ ht.1, hstop ▸ hlast.2⟩

/-- Nodes start and end at positions of the text. -/
theorem in_of_mem_walk {n : Node} (hn : n ∈ (Node.script (parsePartial source).1).walk) :
    n.span.start.In source ∧ n.span.stop.In source := by
  obtain ⟨u, hu, hbuilt⟩ := (builtFrom_parsePartial source).exists_of_mem_walk n hn
  exact hbuilt.covers.in fun t ht => (List.mem_filter.1 (hu.subset ht)).1

end Scriptlet
