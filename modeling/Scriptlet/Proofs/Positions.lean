import Mathlib.Data.List.DropRight
import Scriptlet.Proofs.Partition

/-!
# Lines and columns

Positions are moved on character by character, and a line feed starts a new line. So the position at
the end of a text can be read off the text: its line counts the line feeds (`line_pastAll`), and its
column the characters of the last line (`column_pastAll_glyphs`), where a byte that belongs to no
character counts as one. Each token starts and ends past some of the characters of the text
(`reached_of_mem_scan`), and these are also the characters of the text up to there.

Main statement : `positions_counted`.
-/

namespace Scriptlet

/-! ## The last line of a text -/

namespace Bytes

/-- The bytes of a text behind its last line feed. -/
def lastLine (s : Bytes) : Bytes := s.rtakeWhile (· ≠ 0x0A)

theorem lastLine_of_notMem {s : Bytes} (h : 0x0A ∉ s) : lastLine s = s := by
  refine List.rtakeWhile_eq_self_iff.2 fun b hb => decide_eq_true ?_
  rintro rfl
  exact h hb

theorem lastLine_append (s : Bytes) {t : Bytes} (h : 0x0A ∉ t) : lastLine (s ++ 0x0A :: t) = t := by
  induction t using List.reverseRecOn with
  | nil => exact List.rtakeWhile_concat_neg _ _ _ (by simp)
  | append_singleton t b ih =>
    rw [List.mem_append, not_or, List.mem_singleton] at h
    have hb : decide (b ≠ 0x0A) = true := decide_eq_true (Ne.symm h.2)
    rw [← List.cons_append, ← List.append_assoc, lastLine,
      List.rtakeWhile_concat_pos (· ≠ 0x0A) _ b hb]
    exact congrArg (· ++ [b]) (ih h.1)

/-- A text is one line, or its last line stands behind a line feed. -/
theorem eq_lastLine_or (s : Bytes) :
    0x0A ∉ s ∨ ∃ before last, s = before ++ 0x0A :: last ∧ 0x0A ∉ last := by
  by_cases h : 0x0A ∈ s
  · obtain ⟨after, before, hs, hafter⟩ := List.eq_append_cons_of_mem (List.mem_reverse.2 h)
    refine .inr ⟨before.reverse, after.reverse, ?_, fun hmem => hafter (List.mem_reverse.1 hmem)⟩
    rw [← List.reverse_reverse s, hs]
    simp
  · exact .inl h

end Bytes

/-! ## The end of a text -/

namespace Position

theorem pastAll_append (p : Position) (gs hs : List Glyph) :
    p.pastAll (gs ++ hs) = (p.pastAll gs).pastAll hs :=
  List.foldl_append

theorem past_of_lineFeed (p : Position) {g : Glyph} (h : g.code = lineFeed) :
    (p.past g).line = p.line + 1 ∧ (p.past g).column = 1 := by
  rw [past, if_pos h]
  exact ⟨rfl, rfl⟩

theorem past_of_ne (p : Position) {g : Glyph} (h : g.code ≠ lineFeed) :
    (p.past g).line = p.line ∧ (p.past g).column = p.column + 1 := by
  rw [past, if_neg h]
  exact ⟨rfl, rfl⟩

/-- Each line feed that is passed starts a line. -/
theorem line_pastAll (p : Position) {gs : List Glyph} (hgs : ∀ g ∈ gs, g.Faithful) :
    (p.pastAll gs).line = p.line + (Utf8.join gs).count 0x0A := by
  induction gs generalizing p with
  | nil => rfl
  | cons g gs ih =>
    obtain ⟨hg, hgs⟩ := List.forall_mem_cons.1 hgs
    have hline : ((p.past g).pastAll gs).line = _ := ih (p.past g) hgs
    rw [Utf8.join_cons, List.count_append]
    change ((p.past g).pastAll gs).line = _
    rw [hline]
    by_cases hcode : g.code = lineFeed
    · have hbytes : g.bytes = [0x0A] := hg.bytes_eq (by decide) hcode
      rw [(p.past_of_lineFeed hcode).1, hbytes, List.count_singleton_self, Nat.add_assoc]
    · have hnone : (0x0A : UInt8) ∉ g.bytes := (hg.mem_bytes_iff (by decide)).not.2 hcode
      rw [(p.past_of_ne hcode).1, List.count_eq_zero.2 hnone, Nat.zero_add]

/-- Within a line, each character that is passed takes a column. -/
theorem column_pastAll (p : Position) {gs : List Glyph} (hgs : ∀ g ∈ gs, g.code ≠ lineFeed) :
    (p.pastAll gs).column = p.column + gs.length := by
  induction gs generalizing p with
  | nil => rfl
  | cons g gs ih =>
    obtain ⟨hg, hgs⟩ := List.forall_mem_cons.1 hgs
    have hcolumn : ((p.past g).pastAll gs).column = _ := ih (p.past g) hgs
    change ((p.past g).pastAll gs).column = _
    rw [hcolumn, (p.past_of_ne hg).2, List.length_cons]
    omega

theorem code_ne_lineFeed {s : Bytes} (h : 0x0A ∉ s) : ∀ g ∈ Utf8.glyphs s, g.code ≠ lineFeed := by
  intro g hg hcode
  refine h ?_
  rw [← Utf8.join_glyphs s, Utf8.mem_join_iff (fun g => Utf8.faithful_of_mem) (by decide)]
  exact ⟨g, hg, hcode⟩

/-- The column at the end of a text counts the characters of its last line. -/
theorem column_pastAll_glyphs (s : Bytes) :
    (start.pastAll (Utf8.glyphs s)).column = 1 + (Utf8.glyphs s.lastLine).length := by
  rcases Bytes.eq_lastLine_or s with h | ⟨before, last, rfl, hlast⟩
  · rw [column_pastAll _ (code_ne_lineFeed h), Bytes.lastLine_of_notMem h]
    rfl
  · rw [Bytes.lastLine_append _ hlast, Utf8.glyphs_append_ascii (by decide), pastAll_append]
    change (((start.pastAll _).past _).pastAll _).column = _
    rw [column_pastAll _ (code_ne_lineFeed hlast), (past_of_lineFeed _ rfl).2]

end Position

/-! ## The places of tokens -/

/-- The position counts what stands before it in the text : the bytes, the line feeds, and the
characters since the last line feed. -/
structure Position.CountedIn (source : Bytes) (p : Position) : Prop where
  offset_le : p.offset ≤ source.length
  line : p.line = 1 + (source.take p.offset).count 0x0A
  column : p.column = 1 + (Utf8.glyphs (Bytes.lastLine (source.take p.offset))).length

/-- A position past some of the characters of a text counts them. -/
theorem Position.countedIn_pastAll (source : Bytes) (n : Nat) :
    (Position.start.pastAll ((Utf8.glyphs source).take n)).CountedIn source := by
  have hread := Utf8.glyphs_join_take source n
  have hsource : Utf8.join ((Utf8.glyphs source).take n) ++
      Utf8.join ((Utf8.glyphs source).drop n) = source := by
    rw [← Utf8.join_append, List.take_append_drop, Utf8.join_glyphs]
  generalize Utf8.join ((Utf8.glyphs source).take n) = passed at hread hsource
  rw [← hread]
  have hoffset : (Position.start.pastAll (Utf8.glyphs passed)).offset = passed.length := by
    rw [offset_pastAll_join, Utf8.join_glyphs]
    exact Nat.zero_add _
  have htake : source.take (Position.start.pastAll (Utf8.glyphs passed)).offset = passed := by
    rw [hoffset, ← hsource, List.take_left]
  refine ⟨?_, ?_, ?_⟩
  · rw [hoffset, ← hsource, List.length_append]
    exact Nat.le_add_right _ _
  · rw [htake, line_pastAll _ fun g => Utf8.faithful_of_mem, Utf8.join_glyphs]
    rfl
  · rw [htake, column_pastAll_glyphs]

/-- The position is reached from `p` by passing some of the characters. -/
def Position.ReachedFrom (p : Position) (gs : List Glyph) (q : Position) : Prop :=
  ∃ n, q = p.pastAll (gs.take n)

theorem Position.ReachedFrom.cons {p q : Position} {g : Glyph} {gs : List Glyph}
    (h : (p.past g).ReachedFrom gs q) : p.ReachedFrom (g :: gs) q := by
  obtain ⟨n, rfl⟩ := h
  exact ⟨n + 1, rfl⟩

/-- A token starts and ends past some of the characters. -/
theorem reached_of_mem_scan : ∀ (mode : ScanMode) (p : Position) (gs : List Glyph) (t : Token),
    t ∈ scan mode p gs → p.ReachedFrom gs t.start ∧ p.ReachedFrom gs t.stop
  | mode, p, [], t, ht => by
    have ht : t ∈ [(⟨.eof, [], p, p⟩ : Token)] := by cases mode <;> exact ht
    obtain rfl := List.mem_singleton.1 ht
    exact ⟨⟨0, rfl⟩, ⟨0, rfl⟩⟩
  | .token (left + 1), p, g :: rest, t, ht => by
    rw [scan] at ht
    exact (reached_of_mem_scan (.token left) (p.past g) rest t ht).imp .cons .cons
  | .comment, p, g :: rest, t, ht => by
    rw [scan] at ht
    exact (reached_of_mem_scan _ (p.past g) rest t ht).imp .cons .cons
  | .token 0, p, g :: rest, t, ht => by
    rw [scan] at ht
    split at ht
    · exact (reached_of_mem_scan (.token 0) (p.past g) rest t ht).imp .cons .cons
    split at ht
    · exact (reached_of_mem_scan .comment (p.past g) rest t ht).imp .cons .cons
    · rcases List.mem_cons.1 ht with rfl | ht
      · exact ⟨⟨0, rfl⟩, ⟨(Lexeme.read g rest).width, rfl⟩⟩
      · exact (reached_of_mem_scan _ (p.past g) rest t ht).imp .cons .cons

/-- Each token, also a faulty one or the end of the text, starts and ends on the line and in the
column that counting from the start of the text gives. -/
theorem positions_counted (source : Bytes) {t : Token} (ht : t ∈ tokenize source) :
    t.start.CountedIn source ∧ t.stop.CountedIn source := by
  obtain ⟨⟨n, hstart⟩, ⟨m, hstop⟩⟩ := reached_of_mem_scan _ _ _ t ht
  rw [hstart, hstop]
  exact ⟨Position.countedIn_pastAll source n, Position.countedIn_pastAll source m⟩

/-- A faulty token in the third line : before it there are a string over two lines, a comment, a
character of two bytes and a byte that belongs to no character. -/
theorem positions_counted_of_faulty_token : ∃ source t,
    source = ("'\n' --\n'é" : Bytes) ++ 0xFF :: ("' @" : Bytes) ∧ t ∈ tokenize source ∧
      t.kind = .error ∧ t.start = ⟨13, 3, 6⟩ ∧ t.stop = ⟨14, 3, 7⟩ ∧
      t.start.CountedIn source ∧ t.stop.CountedIn source := by
  have ht : ⟨.error, Lexeme.unexpected 0x40, ⟨13, 3, 6⟩, ⟨14, 3, 7⟩⟩ ∈
      tokenize (("'\n' --\n'é" : Bytes) ++ 0xFF :: ("' @" : Bytes)) := by decide +kernel
  exact ⟨_, _, rfl, ht, rfl, rfl, rfl, positions_counted _ ht⟩

end Scriptlet
