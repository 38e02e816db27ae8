import Scriptlet.Proofs.Sequences

/-!
# The bytes of tokens

The tokens of a text cut it into pieces : the bytes that each token covers, and the gaps before
them, which hold nothing but blanks and comments (`Layout`). The literal of a token is spelled by
the bytes that it covers (`TokenKind.Spells`). This holds of every byte string, well-formed or not.

Main statement : `tokens_partition_source`.
-/

namespace Scriptlet

/-! ## What the bytes of a token say -/

/-- The literal of a token is spelled by the bytes that it covers : it is these bytes, but for a
string without its quotes, and for the message of an error. No name is a reserved word. -/
def TokenKind.Spells (kind : TokenKind) (literal covered : Bytes) : Prop :=
  match kind with
  | .error => True
  | .string => ∃ q ∈ [(0x22 : UInt8), 0x27], q ∉ literal ∧ covered = q :: literal ++ [q]
  | .identifier => literal = covered ∧ ∀ word ∈ TokenKind.reserved, word.name ≠ literal
  | _ => literal = covered

theorem TokenKind.spells_self {kind : TokenKind}
    (h : kind ∉ [TokenKind.error, .string, .identifier]) (covered : Bytes) :
    kind.Spells covered covered := by
  simp only [List.mem_cons, List.not_mem_nil, or_false, not_or] at h
  unfold TokenKind.Spells
  split
  · trivial
  · exact absurd rfl h.2.1
  · exact absurd rfl h.2.2
  · rfl

theorem TokenKind.Spells.eq {kind : TokenKind} {literal covered : Bytes}
    (h : kind.Spells literal covered) (hkind : kind ∉ [TokenKind.error, .string]) :
    literal = covered := by
  simp only [List.mem_cons, List.not_mem_nil, or_false, not_or] at hkind
  unfold TokenKind.Spells at h
  split at h
  · exact absurd rfl hkind.1
  · exact absurd rfl hkind.2
  · exact h.1
  · exact h

namespace Lexeme

/-- The token takes some of the characters, and its literal is spelled by them. -/
structure Covers (gs : List Glyph) (l : Lexeme) : Prop where
  width_le : l.width ≤ gs.length
  spells : l.kind.Spells l.literal (Utf8.join (gs.take l.width))

theorem covers_covering {kind : TokenKind} {width : Nat} {gs : List Glyph}
    (h : kind ∉ [TokenKind.error, .string, .identifier]) (hwidth : width ≤ gs.length) :
    Covers gs (covering kind width gs) :=
  ⟨hwidth, TokenKind.spells_self h _⟩

theorem covers_error (message : Bytes) (g : Glyph) (rest : List Glyph) :
    Covers (g :: rest) ⟨.error, message, 1⟩ :=
  ⟨Nat.succ_le_succ (Nat.zero_le _), trivial⟩

theorem digitRun_le (gs : List Glyph) : digitRun gs ≤ gs.length :=
  (List.takeWhile_prefix _).length_le

theorem numberWidth_le (gs : List Glyph) : numberWidth gs ≤ gs.length := by
  have hrun := digitRun_le gs
  rw [numberWidth]
  split
  next point rest hdrop =>
    have hrest := digitRun_le rest
    have hlen := congrArg List.length hdrop
    rw [List.length_drop, List.length_cons] at hlen
    split <;> omega
  next => exact hrun

theorem take_takeWhile (p : Glyph → Bool) (gs : List Glyph) :
    gs.take (gs.takeWhile p).length = gs.takeWhile p :=
  (List.prefix_iff_eq_take.1 (List.takeWhile_prefix p)).symm

/-- Behind the characters of a closed string stands a quote like the one before them. -/
theorem exists_close {q : Glyph} {rest body : List Glyph}
    (hbody : rest.takeWhile (fun g => g.code != q.code) = body) (h : body.length < rest.length) :
    ∃ close, close.code = q.code ∧ (q :: rest).take (body.length + 2) = q :: body ++ [close] := by
  have happend := rest.takeWhile_append_dropWhile (p := fun g => g.code != q.code)
  rw [hbody] at happend
  obtain ⟨close, after, hdrop⟩ : ∃ close after,
      rest.dropWhile (fun g => g.code != q.code) = close :: after := by
    refine List.exists_cons_of_ne_nil fun hnil => ?_
    rw [hnil, List.append_nil] at happend
    exact absurd (congrArg List.length happend) (Nat.ne_of_lt h)
  have hclose := List.head_dropWhile_not (l := rest) (fun g : Glyph => g.code != q.code)
    (by rw [hdrop]; exact List.cons_ne_nil _ _)
  simp only [hdrop, List.head_cons, bne_eq_false_iff_eq] at hclose
  refine ⟨close, hclose, ?_⟩
  rw [← happend, hdrop, List.take_succ_cons, List.take_append, List.take_of_length_le (by omega)]
  simp

/-- A string holds the characters up to the next quote of its kind. -/
theorem covers_readString {q : Glyph} {rest : List Glyph} (hgs : ∀ g ∈ q :: rest, g.Faithful)
    {b : UInt8} (hb : b ∈ [(0x22 : UInt8), 0x27]) (hq : q.code = b.toNat) :
    Covers (q :: rest) (readString q rest) := by
  have hascii : b < 0x80 := by
    have hall : ∀ b ∈ [(0x22 : UInt8), 0x27], b < 0x80 := by simp
    exact hall b hb
  rw [readString]
  split
  next hclosed =>
    have hbody : b ∉ Utf8.join (rest.takeWhile fun g => g.code != q.code) := by
      rw [Utf8.mem_join_iff (fun g hg => hgs g (List.mem_cons_of_mem q
        ((List.takeWhile_prefix _).subset hg))) hascii]
      rintro ⟨g, hg, hcode⟩
      have hne := List.all_eq_true.1 List.all_takeWhile g hg
      rw [hcode, hq] at hne
      simp at hne
    obtain ⟨close, hclose, htake⟩ := exists_close rfl hclosed
    have hmem : close ∈ q :: rest :=
      List.mem_of_mem_take (htake ▸ List.mem_append_right _ List.mem_cons_self)
    have hq' : q.bytes = [b] := (hgs q List.mem_cons_self).bytes_eq hascii hq
    have hclose' : close.bytes = [b] := (hgs close hmem).bytes_eq hascii (hclose.trans hq)
    refine ⟨Nat.succ_le_succ hclosed, b, hb, hbody, ?_⟩
    rw [htake]
    simp [Utf8.join, hq', hclose']
  next => exact ⟨Nat.succ_le_succ (List.takeWhile_prefix _).length_le, trivial⟩

/-- A name or a reserved word is the characters that it takes. -/
theorem covers_readName (gs : List Glyph) : Covers gs (readName gs) := by
  have htake := take_takeWhile continuesName gs
  refine ⟨(List.takeWhile_prefix _).length_le, ?_⟩
  rw [readName]
  dsimp only
  rw [htake]
  cases hword : TokenKind.ofWord? (Utf8.join (gs.takeWhile continuesName)) with
  | none =>
    refine ⟨rfl, fun word hmem heq => ?_⟩
    have hnone := List.find?_eq_none.1 hword word hmem
    exact hnone (by simpa using heq)
  | some word =>
    have hmem : word ∈ TokenKind.reserved := List.mem_of_find?_eq_some hword
    have hplain : ∀ k ∈ TokenKind.reserved, k ∉ [TokenKind.error, .string, .identifier] := by
      decide
    exact TokenKind.spells_self (hplain word hmem) _

/-- The token that a text starts with takes some of its characters, and is spelled by them. -/
theorem covers_read {g : Glyph} {rest : List Glyph} (hgs : ∀ g' ∈ g :: rest, g'.Faithful) :
    Covers (g :: rest) (read g rest) := by
  have hone : 1 ≤ (g :: rest).length := Nat.succ_le_succ (Nat.zero_le _)
  -- a token of two characters ends with an equals sign, so there is a second character
  have htwo (h : (rest.head?.map (·.is '=')).getD false = true) : 2 ≤ (g :: rest).length := by
    cases rest with
    | nil => cases h
    | cons next rest => exact Nat.succ_le_succ (Nat.succ_le_succ (Nat.zero_le _))
  have hstring (h : (g.is '"' || g.is '\'') = true) :
      Covers (g :: rest) (readString g rest) := by
    rw [Bool.or_eq_true, Glyph.is, Glyph.is, beq_iff_eq, beq_iff_eq] at h
    rcases h with h | h
    · exact covers_readString hgs (b := 0x22) (by decide) h
    · exact covers_readString hgs (b := 0x27) (by decide) h
  unfold read
  dsimp only
  -- the cases of a string are not to be taken apart again
  generalize readString g rest = string at hstring ⊢
  repeat' refine iteInduction (fun _ => ?_) fun _ => ?_
  all_goals try exact covers_covering (by decide) hone
  all_goals try exact covers_error _ g rest
  · next h => exact covers_covering (by decide) (htwo h)
  · next h => exact covers_covering (by decide) (htwo h)
  · next h => exact covers_covering (by decide) (htwo (Bool.and_eq_true_iff.1 h).2)
  · next h => exact covers_covering (by decide) (htwo h)
  · next h => exact covers_covering (by decide) (htwo h)
  · next h => exact hstring h
  · exact covers_covering (by decide) (numberWidth_le _)
  · exact covers_readName _

end Lexeme

/-! ## Gaps -/

/-- The bytes between tokens : blanks, and comments from two hyphens to the end of their line. At
the end of the text a comment may end with it. -/
inductive Layout : (atEnd : Bool) → Bytes → Prop where
  | nil {atEnd} : Layout atEnd []
  | blank {atEnd b s} : b ∈ [(0x20 : UInt8), 0x09, 0x0A, 0x0D] → Layout atEnd s →
      Layout atEnd (b :: s)
  | comment {atEnd body s} : 0x0A ∉ body → Layout atEnd s →
      Layout atEnd (0x2D :: 0x2D :: body ++ 0x0A :: s)
  | lastComment {body} : 0x0A ∉ body → Layout true (0x2D :: 0x2D :: body)

/-- The tokens cut the text `s`, whose first byte has the offset `start` : before each token there
is a gap, and the token covers the bytes after it, at least one. After the last gap the text ends,
and there is one token more, which covers nothing. -/
inductive Cuts : (start : Nat) → (s : Bytes) → List Token → Prop where
  | stop {start gap t} : Layout true gap → t.kind = .eof → t.literal = [] →
      t.start.offset = start + gap.length → t.stop = t.start → Cuts start gap [t]
  | token {start gap covered s t ts} : Layout false gap → covered ≠ [] → t.kind ≠ .eof →
      t.start.offset = start + gap.length → t.stop.offset = t.start.offset + covered.length →
      t.kind.Spells t.literal covered → Cuts t.stop.offset s ts →
      Cuts start (gap ++ covered ++ s) (t :: ts)

namespace Layout

theorem append {a : Bytes} (ha : Layout false a) {atEnd : Bool} {s : Bytes}
    (hs : Layout atEnd s) : Layout atEnd (a ++ s) := by
  generalize hend : false = e at ha
  induction ha with
  | nil => exact hs
  | blank hb _ ih => exact .blank hb (ih hend)
  | comment hbody _ ih =>
    rw [List.append_assoc]
    exact .comment hbody (ih hend)
  | lastComment => cases hend

end Layout

namespace Cuts

variable {start : Nat} {s : Bytes} {ts : List Token}

/-- Blanks and whole comments before a text belong to its first gap. -/
theorem after {gap : Bytes} (hgap : Layout false gap) (h : Cuts (start + gap.length) s ts) :
    Cuts start (gap ++ s) ts := by
  cases h with
  | stop hlast hkind hliteral hstart hstop =>
    refine .stop (hgap.append hlast) hkind hliteral ?_ hstop
    rw [hstart, List.length_append, Nat.add_assoc]
  | token hfirst hne hkind hstart hstop hspells hrest =>
    rw [← List.append_assoc, ← List.append_assoc]
    refine .token (hgap.append hfirst) hne hkind ?_ hstop hspells hrest
    rw [hstart, List.length_append, Nat.add_assoc]

/-- Each token but the last one covers a byte of its own. -/
theorem length_le (h : Cuts start s ts) : ts.length ≤ s.length + 1 := by
  induction h with
  | stop => exact Nat.succ_le_succ (Nat.zero_le _)
  | token _ hne _ _ _ _ _ ih =>
    have hpos := List.length_pos_iff.2 hne
    rw [List.length_cons, List.length_append, List.length_append]
    omega

/-- The last token stands at the end of the text. -/
theorem stop_offset (h : Cuts start s ts) : ∃ body last, ts = body ++ [last] ∧
    last.kind = .eof ∧ last.start.offset = start + s.length ∧ last.stop = last.start ∧
    ∀ t ∈ body, t.kind ≠ .eof := by
  induction h with
  | @stop start gap t _ hkind _ hstart hstop =>
    exact ⟨[], t, rfl, hkind, hstart, hstop, fun _ ht => nomatch ht⟩
  | @token start gap covered s t ts _ _ hkind hstart hstop _ _ ih =>
    obtain ⟨body, last, rfl, hlast, hoffset, hlength, hbody⟩ := ih
    refine ⟨t :: body, last, rfl, hlast, ?_, hlength, List.forall_mem_cons.2 ⟨hkind, hbody⟩⟩
    rw [hoffset, hstop, hstart, List.length_append, List.length_append]
    omega

/-- No token ends before it starts. -/
theorem forwards (h : Cuts start s ts) : ∀ t ∈ ts, t.start.offset ≤ t.stop.offset := by
  induction h with
  | stop _ _ _ _ hstop => exact List.forall_mem_singleton.2 (Nat.le_of_eq (hstop ▸ rfl))
  | token _ _ _ _ hstop _ _ ih =>
    exact List.forall_mem_cons.2 ⟨hstop ▸ Nat.le_add_right _ _, ih⟩

/-- A token stands at the end of the text, or covers bytes of it that spell it. -/
theorem covered (h : Cuts start s ts) : ∀ t ∈ ts, (t.kind = .eof ∧ t.literal = []) ∨
    (t.kind ≠ .eof ∧ ∃ before covered after, s = before ++ (covered ++ after) ∧
      t.start.offset = start + before.length ∧
      t.stop.offset = t.start.offset + covered.length ∧ t.kind.Spells t.literal covered) := by
  induction h with
  | stop _ hkind hliteral => exact List.forall_mem_singleton.2 (.inl ⟨hkind, hliteral⟩)
  | @token start gap covered s t ts _ _ hkind hstart hstop hspells _ ih =>
    refine List.forall_mem_cons.2 ⟨.inr ⟨hkind, gap, covered, s, by simp, hstart, hstop, hspells⟩,
      fun t' ht' => ?_⟩
    refine (ih t' ht').imp_right ?_
    rintro ⟨hkind', before, covered', after, rfl, hstart', hstop', hspells'⟩
    refine ⟨hkind', gap ++ (covered ++ before), covered', after, by simp, ?_, hstop', hspells'⟩
    rw [hstart', hstop, hstart, List.length_append, List.length_append]
    omega

end Cuts

/-! ## The tokens of a text -/

namespace Position

/-- A position moves on by the bytes that it passes. -/
theorem offset_pastAll_join (p : Position) (gs : List Glyph) :
    (p.pastAll gs).offset = p.offset + (Utf8.join gs).length := by
  induction gs generalizing p with
  | nil => rfl
  | cons g gs ih =>
    change ((p.past g).pastAll gs).offset = _
    rw [ih, offset_past, Utf8.join_cons, List.length_append, Nat.add_assoc]

end Position

/-- The characters that a token covers are passed, and then the next token is looked for. -/
theorem scan_token : ∀ (left : Nat) (p : Position) (gs : List Glyph),
    scan (.token left) p gs = scan (.token 0) (p.pastAll (gs.take left)) (gs.drop left)
  | 0, _, _ => rfl
  | _ + 1, _, [] => rfl
  | left + 1, p, g :: rest => by
    rw [scan, scan_token left (p.past g) rest]
    rfl

/-- A comment that is read so far ends with its line. -/
theorem Layout.of_comment {read : Bytes} (hread : 0x0A ∉ read) {s : Bytes}
    (hopen : [0x2D, 0x2D] <+: read ++ 0x0A :: s) : Layout false (read ++ [0x0A]) := by
  obtain ⟨body, rfl⟩ : ∃ body, read = 0x2D :: 0x2D :: body := by
    obtain ⟨rest, hrest⟩ := hopen
    match read, hrest with
    | a :: b :: body, h =>
      injection h with ha h
      injection h with hb _
      exact ⟨body, by rw [← ha, ← hb]⟩
    | [a], h => exact absurd (List.cons.inj (List.cons.inj h).2).1 (by decide)
    | [], h => exact absurd (List.cons.inj h).1 (by decide)
  refine .comment (fun hmem => hread ?_) .nil
  exact List.mem_cons_of_mem _ (List.mem_cons_of_mem _ hmem)

theorem Layout.of_lastComment {read : Bytes} (hread : 0x0A ∉ read)
    (hopen : [0x2D, 0x2D] <+: read) : Layout true read := by
  obtain ⟨body, rfl⟩ := hopen
  exact .lastComment fun hmem => hread (List.mem_append_right _ hmem)

/-- How the tokens from `p` on cut the characters. Inside a comment, some bytes of it, `read`, are
read already. -/
def ScanMode.Cuts (p : Position) (gs : List Glyph) : ScanMode → Prop
  | .token left => Scriptlet.Cuts (p.pastAll (gs.take left)).offset (Utf8.join (gs.drop left))
      (scan (.token left) p gs)
  | .comment => ∀ start read, 0x0A ∉ read → [0x2D, 0x2D] <+: read ++ Utf8.join gs →
      start + read.length = p.offset →
      Scriptlet.Cuts start (read ++ Utf8.join gs) (scan .comment p gs)

section

variable {g : Glyph} {rest : List Glyph} {p : Position}

/-- A character inside a comment ends it or belongs to it. -/
theorem cuts_comment (hg : g.Faithful) (hcuts : ∀ mode : ScanMode, mode.Cuts (p.past g) rest) :
    ScanMode.comment.Cuts p (g :: rest) := by
  intro start read hread hopen hstart
  have hp := p.offset_past g
  have hfeed := hg.mem_bytes_iff (b := 0x0A) (by decide)
  rw [Utf8.join_cons, ← List.append_assoc] at hopen ⊢
  rw [scan]
  cases hline : g.is '\n' with
  | true =>
    have hbytes := hg.bytes_eq (b := 0x0A) (by decide) (beq_iff_eq.1 hline)
    rw [hbytes] at hopen hp ⊢
    rw [List.append_assoc] at hopen
    refine .after (.of_comment hread hopen) ?_
    rw [List.length_append, ← Nat.add_assoc, hstart, ← hp]
    exact hcuts (.token 0)
  | false =>
    refine hcuts .comment start (read ++ g.bytes) ?_ hopen ?_
    · rw [List.mem_append, hfeed]
      exact not_or.2 ⟨hread, beq_eq_false_iff_ne.1 hline⟩
    · rw [List.length_append, hp]
      omega

/-- A blank belongs to the gap before the next token. -/
theorem cuts_blank (hg : g.Faithful) (hlayout : g.isLayout)
    (hcuts : (ScanMode.token 0).Cuts (p.past g) rest) :
    Cuts p.offset (Utf8.join (g :: rest)) (scan (.token 0) (p.past g) rest) := by
  obtain ⟨b, hb, hcode⟩ : ∃ b ∈ [(0x20 : UInt8), 0x09, 0x0A, 0x0D], g.code = b.toNat := by
    simpa [Glyph.isLayout, Glyph.is, or_assoc] using hlayout
  have hascii : ∀ b ∈ [(0x20 : UInt8), 0x09, 0x0A, 0x0D], b < 0x80 := by simp
  have hbytes := hg.bytes_eq (hascii b hb) hcode
  rw [Utf8.join_cons]
  refine .after (hbytes ▸ .blank hb .nil) ?_
  rw [← p.offset_past g]
  exact hcuts

/-- The first hyphen of a comment is the part of it that is read. -/
theorem cuts_hyphen (hgs : ∀ g' ∈ g :: rest, g'.Faithful) (hopen : startsComment g rest)
    (hcuts : ScanMode.comment.Cuts (p.past g) rest) :
    Cuts p.offset (Utf8.join (g :: rest)) (scan .comment (p.past g) rest) := by
  obtain ⟨hg, hrest⟩ := List.forall_mem_cons.1 hgs
  obtain ⟨hhyphen, hnext⟩ := Bool.and_eq_true_iff.1 hopen
  have hp := p.offset_past g
  have hbytes := hg.bytes_eq (b := 0x2D) (by decide) (beq_iff_eq.1 hhyphen)
  rw [Utf8.join_cons, hbytes]
  rw [hbytes] at hp
  refine hcuts p.offset [0x2D] (by decide) ?_ hp.symm
  cases rest with
  | nil => cases hnext
  | cons second rest =>
    have hbytes' := (List.forall_mem_cons.1 hrest).1.bytes_eq (b := 0x2D) (by decide)
      (beq_iff_eq.1 hnext)
    refine ⟨Utf8.join rest, ?_⟩
    rw [Utf8.join_cons, hbytes']
    rfl

/-- A lexeme covers the characters of its width, of which it has at least one. -/
theorem cuts_lexeme (hgs : ∀ g' ∈ g :: rest, g'.Faithful) {l : Lexeme} (hl : Lexeme.read g rest = l)
    (hcuts : (ScanMode.token (l.width - 1)).Cuts (p.past g) rest) :
    Cuts p.offset (Utf8.join (g :: rest))
      (⟨l.kind, l.literal, p, p.pastAll ((g :: rest).take l.width)⟩ ::
        scan (.token (l.width - 1)) (p.past g) rest) := by
  have hg := (List.forall_mem_cons.1 hgs).1
  obtain ⟨hwidth, hkind⟩ := hl ▸ Lexeme.proper_read g rest
  obtain ⟨-, hspells⟩ := hl ▸ Lexeme.covers_read hgs
  obtain ⟨w, hw⟩ := Nat.exists_eq_succ_of_ne_zero (Nat.pos_iff_ne_zero.1 hwidth)
  have hsplit : Utf8.join (g :: rest) =
      Utf8.join ((g :: rest).take l.width) ++ Utf8.join ((g :: rest).drop l.width) := by
    rw [← Utf8.join_append, List.take_append_drop]
  rw [hsplit]
  refine @Cuts.token _ [] (Utf8.join ((g :: rest).take l.width)) _ _ _ .nil ?_ hkind rfl
    (p.offset_pastAll_join _) hspells ?_
  · have hfirst : Utf8.join ((g :: rest).take l.width) = g.bytes ++ Utf8.join (rest.take w) := by
      rw [hw, List.take_succ_cons, Utf8.join_cons]
    rw [hfirst]
    exact List.append_ne_nil_of_left_ne_nil hg.ne_nil _
  · rw [hw] at hcuts ⊢
    exact hcuts

end

theorem cuts_scan : ∀ (gs : List Glyph) (p : Position), (∀ g ∈ gs, g.Faithful) →
    ∀ mode : ScanMode, mode.Cuts p gs
  | [], p, _, .token left => by
    have htoken := scan_token left p []
    rw [List.take_nil, List.drop_nil] at htoken
    rw [ScanMode.Cuts, htoken, List.take_nil, List.drop_nil]
    exact .stop .nil rfl rfl rfl rfl
  | [], p, _, .comment => by
    intro start read hread hopen hstart
    have hjoin : read ++ Utf8.join [] = read := List.append_nil read
    rw [hjoin] at hopen ⊢
    exact .stop (.of_lastComment hread hopen) rfl rfl hstart.symm rfl
  | g :: rest, p, hgs, mode => by
    obtain ⟨hg, hrest⟩ := List.forall_mem_cons.1 hgs
    have hcuts := cuts_scan rest (p.past g) hrest
    match mode with
    | .comment => exact cuts_comment hg hcuts
    | .token (left + 1) =>
      rw [ScanMode.Cuts, scan]
      exact hcuts (.token left)
    | .token 0 =>
      change Cuts p.offset (Utf8.join (g :: rest)) _
      rw [scan]
      split
      next hlayout => exact cuts_blank hg hlayout (hcuts (.token 0))
      next =>
      split
      next hopen => exact cuts_hyphen hgs hopen (hcuts .comment)
      next => exact cuts_lexeme hgs rfl (hcuts _)

/-- The tokens of a text partition it. -/
theorem cuts_tokenize (source : Bytes) : Cuts 0 source (tokenize source) := by
  have hscan : Cuts 0 (Utf8.join (Utf8.glyphs source)) (tokenize source) :=
    cuts_scan (Utf8.glyphs source) Position.start (fun g => Utf8.faithful_of_mem) (.token 0)
  rwa [Utf8.join_glyphs] at hscan

/-- The tokens of a text partition it. They are at most as many as its bytes, and one more at its
end; only that one marks the end. Each of the others covers at least one byte and is spelled by the
bytes that it covers, and between them there are blanks and comments only. -/
theorem tokens_partition_source (source : Bytes) : Cuts 0 source (tokenize source) ∧
    ∃ body stop, tokenize source = body ++ [stop] ∧ stop.kind = .eof ∧
      stop.start.offset = source.length ∧ stop.stop.offset = source.length ∧
      body.length ≤ source.length ∧ ∀ t ∈ body, t.kind ≠ .eof := by
  have hcuts := cuts_tokenize source
  obtain ⟨body, stop, htokens, hkind, hstart, hstop, hbody⟩ := hcuts.stop_offset
  rw [Nat.zero_add] at hstart
  have hlength := hcuts.length_le
  rw [htokens, List.length_append, List.length_singleton] at hlength
  exact ⟨hcuts, body, stop, htokens, hkind, hstart, hstop ▸ hstart, Nat.le_of_succ_le_succ hlength,
    hbody⟩

end Scriptlet
