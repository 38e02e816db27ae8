import Scriptlet.Source.Lexer

/-!
# The tokens of a text

The last token of a text, and only it, marks the end (`tokenize_eq`), and the tokens stand one after
another, each over at least one byte (`Ordered`, `ordered_tokenize`). So a range of the text that
starts with one token and ends with another holds the tokens from the one to the other
(`Ordered.filter_inside`).
-/

namespace Scriptlet

/-! ## One token -/

namespace Lexeme

theorem digitRun_pos {g : Glyph} {rest : List Glyph} (h : isDigit g.code) :
    0 < digitRun (g :: rest) := by
  simp [digitRun, h]

theorem numberWidth_pos {g : Glyph} {rest : List Glyph} (h : isDigit g.code) :
    0 < numberWidth (g :: rest) := by
  have hrun : 0 < digitRun (g :: rest) := digitRun_pos h
  unfold numberWidth
  dsimp only
  split
  · split <;> omega
  · exact hrun

theorem continuesName_of_startsName {g : Glyph} (h : startsName g) : continuesName g := by
  simp only [startsName, continuesName, Bool.or_eq_true] at h ⊢
  rcases h with h | h
  · exact .inl (.inl h)
  · exact .inr h

/-- No word stands for the end of the text. -/
theorem ofWord?_ne_eof (word : Bytes) : (TokenKind.ofWord? word).getD .identifier ≠ .eof := by
  cases h : TokenKind.ofWord? word with
  | none => decide
  | some k =>
    have hk : k ∈ TokenKind.reserved := List.mem_of_find?_eq_some h
    have hall : ∀ k ∈ TokenKind.reserved, k ≠ .eof := by decide
    exact hall k hk

/-- A token takes at least one character, and does not mark the end of the text. -/
def Proper (l : Lexeme) : Prop := 0 < l.width ∧ l.kind ≠ .eof

theorem proper_readName {g : Glyph} {rest : List Glyph} (h : startsName g) :
    Proper (readName (g :: rest)) := by
  refine ⟨?_, ofWord?_ne_eof _⟩
  simp [readName, continuesName_of_startsName h]

/-- Whatever a text starts with, its first token is proper. -/
theorem proper_read (g : Glyph) (rest : List Glyph) : Proper (read g rest) := by
  unfold read
  dsimp only
  -- all but numbers and names are of a width that is written out
  repeat' refine iteInduction (fun _ => ?_) fun _ => ?_
  all_goals try exact ⟨Nat.succ_pos _, fun h => by cases h⟩
  · next hdigit => exact ⟨numberWidth_pos hdigit, fun h => by cases h⟩
  · next hstart => exact proper_readName hstart

end Lexeme

/-- The characters of a text take at least one byte each. -/
theorem Utf8.bytes_ne_nil {g : Glyph} : ∀ {skip : Nat} {s : Bytes}, g ∈ glyphsAfter skip s →
    g.bytes ≠ []
  | _, [], h => by simp [glyphsAfter] at h
  | skip + 1, _ :: rest, h => by
    rw [glyphsAfter] at h
    exact bytes_ne_nil h
  | 0, b :: rest, h => by
    obtain ⟨hpos, -⟩ := head_width b rest
    simp only [glyphsAfter, List.mem_cons] at h
    rcases h with rfl | h
    · obtain ⟨w, hw⟩ := Nat.exists_eq_succ_of_ne_zero (Nat.pos_iff_ne_zero.1 hpos)
      rw [hw, List.take_succ_cons]
      exact List.cons_ne_nil _ _
    · exact bytes_ne_nil h

/-! ## The end of the text -/

/-- The last token marks the end of the text, and no other does. -/
theorem scan_eq : ∀ (mode : ScanMode) (p : Position) (gs : List Glyph),
    ∃ body stop, scan mode p gs = body ++ [stop] ∧ stop.kind = .eof ∧ ∀ t ∈ body, t.kind ≠ .eof
  | mode, p, [] => ⟨[], ⟨.eof, [], p, p⟩, by cases mode <;> rfl, rfl, by simp⟩
  | .token (left + 1), p, g :: rest => by
    rw [scan]
    exact scan_eq (.token left) (p.past g) rest
  | .comment, p, g :: rest => by
    rw [scan]
    exact scan_eq _ (p.past g) rest
  | .token 0, p, g :: rest => by
    rw [scan]
    split
    · exact scan_eq (.token 0) (p.past g) rest
    split
    · exact scan_eq .comment (p.past g) rest
    · dsimp only
      obtain ⟨body, stop, hscan, hstop, hbody⟩ :=
        scan_eq (.token ((Lexeme.read g rest).width - 1)) (p.past g) rest
      refine ⟨_ :: body, stop, by rw [hscan]; rfl, hstop, ?_⟩
      rintro t (_ | ⟨_, ht⟩)
      · exact (Lexeme.proper_read g rest).2
      · exact hbody t ht

theorem tokenize_eq (source : Bytes) : ∃ body stop, tokenize source = body ++ [stop] ∧
    stop.kind = .eof ∧ ∀ t ∈ body, t.kind ≠ .eof :=
  scan_eq _ _ _

/-! ## The order of tokens -/

namespace Position

theorem offset_past (p : Position) (g : Glyph) : (p.past g).offset = p.offset + g.bytes.length := by
  rw [past]
  split <;> rfl

/-- Passing characters does not go back. -/
theorem offset_pastAll (p : Position) (gs : List Glyph) : p.offset ≤ (p.pastAll gs).offset := by
  induction gs generalizing p with
  | nil => exact Nat.le_refl _
  | cons g gs ih =>
    have hp := p.offset_past g
    have hih : (p.past g).offset ≤ (p.pastAll (g :: gs)).offset := ih (p.past g)
    omega

end Position

/-- Each token ends before the next ones start, and all but the end of the text cover at least one
byte. -/
structure Ordered (ts : List Token) : Prop where
  pairwise : ts.Pairwise fun a b => a.stop.offset ≤ b.start.offset
  nonempty : ∀ t ∈ ts, t.kind ≠ .eof → t.start.offset < t.stop.offset

/-- The number of characters that the current token still covers. -/
def ScanMode.left : ScanMode → Nat
  | .token left => left
  | .comment => 0

/-- The tokens from `p` on start past the characters that the current token covers. -/
theorem start_of_scan : ∀ (mode : ScanMode) (p : Position) (gs : List Glyph) (t : Token),
    t ∈ scan mode p gs → (p.pastAll (gs.take mode.left)).offset ≤ t.start.offset
  | mode, p, [], t, ht => by
    have ht : t ∈ [(⟨.eof, [], p, p⟩ : Token)] := by cases mode <;> exact ht
    obtain rfl := List.mem_singleton.1 ht
    have htake : p.pastAll ([].take mode.left) = p := by rw [List.take_nil]; rfl
    exact Nat.le_of_eq (congrArg Position.offset htake)
  | .token (left + 1), p, g :: rest, t, ht => by
    rw [scan] at ht
    exact start_of_scan (.token left) (p.past g) rest t ht
  | .comment, p, g :: rest, t, ht => by
    rw [scan] at ht
    have hstart := start_of_scan _ (p.past g) rest t ht
    have hnext := (p.past g).offset_pastAll
      (rest.take (if g.is '\n' then ScanMode.token 0 else .comment).left)
    have hp := p.offset_past g
    change p.offset ≤ _
    omega
  | .token 0, p, g :: rest, t, ht => by
    have hp := p.offset_past g
    change p.offset ≤ _
    rw [scan] at ht
    split at ht
    · have hstart : (p.past g).offset ≤ _ := start_of_scan (.token 0) (p.past g) rest t ht
      omega
    split at ht
    · have hstart : (p.past g).offset ≤ _ := start_of_scan .comment (p.past g) rest t ht
      omega
    · rcases List.mem_cons.1 ht with rfl | ht
      · exact Nat.le_refl _
      · have hstart := start_of_scan _ (p.past g) rest t ht
        have hnext := (p.past g).offset_pastAll
          (rest.take (ScanMode.token ((Lexeme.read g rest).width - 1)).left)
        omega

/-- The tokens of characters with bytes are in order. -/
theorem ordered_scan : ∀ (mode : ScanMode) (p : Position) (gs : List Glyph),
    (∀ g ∈ gs, g.bytes ≠ []) → Ordered (scan mode p gs)
  | mode, p, [], _ => by
    have hscan : scan mode p [] = [⟨.eof, [], p, p⟩] := by cases mode <;> rfl
    rw [hscan]
    exact ⟨List.pairwise_singleton _ _, fun t ht hk => absurd (by rw [List.mem_singleton.1 ht]) hk⟩
  | .token (left + 1), p, g :: rest, hgs => by
    rw [scan]
    exact ordered_scan (.token left) (p.past g) rest fun g' h => hgs g' (List.mem_cons_of_mem g h)
  | .comment, p, g :: rest, hgs => by
    rw [scan]
    exact ordered_scan _ (p.past g) rest fun g' h => hgs g' (List.mem_cons_of_mem g h)
  | .token 0, p, g :: rest, hgs => by
    have hrest : ∀ g' ∈ rest, g'.bytes ≠ [] := fun g' h => hgs g' (List.mem_cons_of_mem g h)
    rw [scan]
    split
    · exact ordered_scan (.token 0) (p.past g) rest hrest
    split
    · exact ordered_scan .comment (p.past g) rest hrest
    · have ih := ordered_scan (.token ((Lexeme.read g rest).width - 1)) (p.past g) rest hrest
      obtain ⟨w, hw⟩ := Nat.exists_eq_succ_of_ne_zero
        (Nat.pos_iff_ne_zero.1 (Lexeme.proper_read g rest).1)
      have hstop : p.pastAll ((g :: rest).take (Lexeme.read g rest).width) =
          (p.past g).pastAll (rest.take ((Lexeme.read g rest).width - 1)) := by
        rw [hw]
        rfl
      dsimp only
      rw [hstop]
      refine ⟨List.pairwise_cons.2 ⟨fun t ht => ?_, ih.pairwise⟩, ?_⟩
      · exact start_of_scan _ (p.past g) rest t ht
      · rintro t (_ | ⟨_, ht⟩) hk
        · have hp := p.offset_past g
          have hlen := List.length_pos_iff.2 (hgs g List.mem_cons_self)
          have hnext := (p.past g).offset_pastAll (rest.take ((Lexeme.read g rest).width - 1))
          dsimp only
          omega
        · exact ih.nonempty t ht hk

theorem ordered_tokenize (source : Bytes) : Ordered (tokenize source) :=
  ordered_scan _ _ _ fun _ hg => Utf8.bytes_ne_nil hg

/-- The token starts and ends within the range. -/
def Token.inside (span : Span) (t : Token) : Bool :=
  span.start.offset ≤ t.start.offset && t.start.offset < span.stop.offset &&
    t.stop.offset ≤ span.stop.offset

/-- The tokens within a range that starts with the first of some tokens in a row and ends with the
last of them are these tokens. -/
theorem Ordered.filter_inside {pre u post v w : List Token} {first last : Token} {span : Span}
    (h : Ordered (pre ++ u ++ post)) (hbody : ∀ t ∈ pre ++ u, t.kind ≠ .eof)
    (hfirst : u = first :: v) (hlast : u = w ++ [last]) (hstart : first.start = span.start)
    (hstop : last.stop = span.stop) : (pre ++ u ++ post).filter (Token.inside span) = u := by
  obtain ⟨hpu, -, hpost⟩ := List.pairwise_append.1 h.pairwise
  obtain ⟨-, hu, hpre⟩ := List.pairwise_append.1 hpu
  have hne : ∀ t ∈ pre ++ u, t.start.offset < t.stop.offset := fun t ht =>
    h.nonempty t (List.mem_append_left post ht) (hbody t ht)
  have hmemFirst : first ∈ u := hfirst ▸ List.mem_cons_self
  have hmemLast : last ∈ u := hlast ▸ List.mem_append_right w List.mem_cons_self
  have hfilterPre : pre.filter (Token.inside span) = [] := by
    rw [List.filter_eq_nil_iff]
    intro t ht
    have h₁ := hne t (List.mem_append_left u ht)
    have h₂ := hpre t ht first hmemFirst
    rw [hstart] at h₂
    simp only [Token.inside, Bool.and_eq_true, decide_eq_true_eq]
    omega
  have hfilterPost : post.filter (Token.inside span) = [] := by
    rw [List.filter_eq_nil_iff]
    intro t ht
    have h₁ := hpost last (List.mem_append_right pre hmemLast) t ht
    rw [hstop] at h₁
    simp only [Token.inside, Bool.and_eq_true, decide_eq_true_eq]
    omega
  have hfilter : u.filter (Token.inside span) = u := by
    rw [List.filter_eq_self]
    intro t ht
    have hfirst' : span.start.offset ≤ t.start.offset := by
      rw [← hstart]
      rcases List.mem_cons.1 (hfirst ▸ ht) with rfl | ht'
      · exact Nat.le_refl _
      · have h₁ := hne first (List.mem_append_right pre hmemFirst)
        have h₂ := List.rel_of_pairwise_cons (hfirst ▸ hu) ht'
        omega
    have hlast' : t.stop.offset ≤ span.stop.offset := by
      rw [← hstop]
      rcases List.mem_append.1 (hlast ▸ ht) with ht' | ht'
      · have h₁ := hne last (List.mem_append_right pre hmemLast)
        have h₂ := (List.pairwise_append.1 (hlast ▸ hu)).2.2 t ht' last List.mem_cons_self
        omega
      · exact Nat.le_of_eq (congrArg (·.stop.offset) (List.mem_singleton.1 ht'))
    have h₁ := hne t (List.mem_append_right pre ht)
    simp only [Token.inside, Bool.and_eq_true, decide_eq_true_eq]
    omega
  rw [List.filter_append, List.filter_append, hfilterPre, hfilterPost, hfilter, List.nil_append,
    List.append_nil]

end Scriptlet
