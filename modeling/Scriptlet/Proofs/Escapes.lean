import Scriptlet.Proofs.Simulation

/-!
# Escapes

A text can be written with escapes in many ways : each byte by itself, by a letter, by its
hexadecimal or its octal digits, and with line ends that are escaped between the bytes (`Spelled`).
All of them are decoded to the text. What lets the bytes be decoded one by one is that an escape at
full length is read the same way whatever follows it (`Reads`).

The same holds of whole texts. A text can be decoded apart from what follows it just if it does not
end in an escape that more bytes could change (`Finished`). So a concatenation is printed as its
parts are, one after the other, if the first part is finished.

Main statements : `decode_spelled`, `decode_append_iff`.
-/

namespace Scriptlet

namespace Escape

/-! ## Decoding from the left -/

theorem decodeAfter_eq : ∀ (skip : Nat) (s : Bytes), decodeAfter skip s = decode (s.drop skip)
  | 0, _ => rfl
  | skip + 1, [] => rfl
  | skip + 1, b :: rest => by
    unfold decodeAfter
    exact decodeAfter_eq skip rest

theorem decode_byte {b : UInt8} (hb : b ≠ backslash) (s : Bytes) :
    decode (b :: s) = b :: decode s := by
  unfold decode
  rw [decodeAfter, if_neg (by simpa using hb)]

theorem decode_backslash (s : Bytes) :
    decode (backslash :: s) = (sequence s).1 ++ decode (s.drop (sequence s).2) := by
  rw [← decodeAfter_eq]
  rfl

/-- Digits of an octal escape : one to three, and not more than there are. -/
theorem octal?_width {s : Bytes} {r : Nat × Nat} (h : octal? s = some r) :
    1 ≤ r.2 ∧ r.2 ≤ s.length := by
  obtain ⟨n, width⟩ := r
  cases s with
  | nil => cases h
  | cons x s =>
    simp only [octal?, Option.bind_eq_bind, Option.bind_eq_some_iff] at h
    obtain ⟨i, -, h⟩ := h
    repeat' split at h
    all_goals
      obtain ⟨-, rfl⟩ := Prod.mk.inj (Option.some.inj h)
      simp only [List.length_cons]
      omega

/-- An escape stands for no more bytes than it has, and lies within the text. -/
theorem sequence_bounds (s : Bytes) :
    (sequence s).1.length ≤ (sequence s).2 + 1 ∧ (sequence s).2 ≤ s.length := by
  unfold sequence
  split
  · exact ⟨Nat.le_refl 1, Nat.le_refl 0⟩
  next e s =>
    repeat' split
    · simp
    · simp
    · next n hn =>
      rcases s with _ | ⟨h, _ | ⟨l, s⟩⟩
      · cases hn
      · cases hn
      · simp
    · simp
    · next n width hn =>
      have hwidth := octal?_width hn
      exact ⟨by simp, hwidth.2⟩
    · simp

/-- A text is scanned from the left, a byte or an escape at a time. -/
theorem scan_induction {motive : Bytes → Prop} (nil : motive [])
    (byte : ∀ b s, b ≠ backslash → motive s → motive (b :: s))
    (escape : ∀ s, motive (s.drop (sequence s).2) → motive (backslash :: s)) : ∀ s, motive s
  | [] => nil
  | b :: s => by
    by_cases hb : b = backslash
    · subst hb
      exact escape s (scan_induction nil byte escape (s.drop (sequence s).2))
    · exact byte b s hb (scan_induction nil byte escape s)
termination_by s => s.length
decreasing_by
  · rw [List.length_drop, List.length_cons]
    omega
  · exact Nat.lt_succ_self _

theorem length_decode_le (s : Bytes) : (decode s).length ≤ s.length := by
  induction s using scan_induction with
  | nil => exact Nat.le_refl 0
  | byte b s hb ih =>
    rw [decode_byte hb]
    exact Nat.succ_le_succ ih
  | escape s ih =>
    have hbounds := sequence_bounds s
    rw [List.length_drop] at ih
    rw [decode_backslash, List.length_append, List.length_cons]
    omega

/-- What stands before an escape stays as it is. -/
theorem decode_append_of_notMem {s : Bytes} (h : backslash ∉ s) (t : Bytes) :
    decode (s ++ t) = s ++ decode t := by
  induction s with
  | nil => rfl
  | cons b s ih =>
    rw [List.mem_cons, not_or] at h
    rw [List.cons_append, decode_byte (Ne.symm h.1), ih h.2]
    rfl

theorem decode_of_notMem {s : Bytes} (h : backslash ∉ s) : decode s = s := by
  have hdecode := decode_append_of_notMem h []
  rw [List.append_nil] at hdecode
  exact hdecode.trans (List.append_nil s)

/-! ## Written bytes -/

/-- The bytes that have an escape of one character, with that character. -/
def letters : List (UInt8 × Char) :=
  [(0x0A, 'n'), (0x09, 't'), (0x0D, 'r'), (0x07, 'a'), (0x08, 'b'), (0x0C, 'f'), (0x0B, 'v'),
    (0x5C, '\\'), (0x27, '\''), (0x22, '"')]

/-- The octal digit of `n % 8`. -/
def octalDigit (n : Nat) : UInt8 := (0x30 + n % 8).toUInt8

/-- The ways to write a byte. Of an octal number that is too large for a byte, the low bits
count. -/
inductive Spells : UInt8 → Bytes → Prop
  | plain {b : UInt8} : b ≠ backslash → Spells b [b]
  | letter {b : UInt8} {c : Char} : (b, c) ∈ letters → Spells b [backslash, c.toNat.toUInt8]
  | hexadecimal {b : UInt8} {high low : Nat} : high ∈ [0x41, 0x61] → low ∈ [0x41, 0x61] →
      Spells b [backslash, 0x78, hexDigit high (b.toNat / 16), hexDigit low b.toNat]
  | octal {b : UInt8} {n : Nat} : n < 512 → n % 256 = b.toNat →
      Spells b [backslash, octalDigit (n / 64), octalDigit (n / 8), octalDigit n]

/-- The second text is the first one with each byte written in one of the ways, and with escaped
line ends anywhere between them. -/
inductive Spelled : Bytes → Bytes → Prop
  | nil : Spelled [] []
  | byte {b : UInt8} {written text spelling : Bytes} : Spells b written → Spelled text spelling →
      Spelled (b :: text) (written ++ spelling)
  | joint {text spelling : Bytes} : Spelled text spelling →
      Spelled text (backslash :: 0x0A :: spelling)

/-- Whatever follows it, `written` is decoded to `text`. -/
def Reads (written text : Bytes) : Prop := ∀ rest, decode (written ++ rest) = text ++ decode rest

/-- An escape of fixed length is read whatever follows it. -/
theorem reads_escape {e out : Bytes} (h : ∀ rest, sequence (e ++ rest) = (out, e.length)) :
    Reads (backslash :: e) out := by
  intro rest
  rw [List.cons_append, decode_backslash, h rest, List.drop_left]

theorem sequence_hexadecimal {s : Bytes} {n : Nat} (h : hexPair? s = some n) :
    sequence (0x78 :: s) = ([n.toUInt8], 3) := by
  have hsingle : single? 0x78 = none := rfl
  unfold sequence
  simp only [hsingle, h]
  rfl

theorem octalValue?_octalDigit (n : Nat) : octalValue? (octalDigit n) = some (n % 8) := by
  have h : n % 8 < 8 := Nat.mod_lt n (by decide)
  unfold octalDigit
  generalize n % 8 = m at h
  revert m
  decide

theorem single?_octalDigit (n : Nat) : single? (octalDigit n) = none ∧
    (octalDigit n == 0x0A) = false ∧ (octalDigit n == 0x78) = false := by
  have h : n % 8 < 8 := Nat.mod_lt n (by decide)
  unfold octalDigit
  generalize n % 8 = m at h
  revert m
  decide

/-- Each way to write a byte is decoded to the byte. -/
theorem Spells.reads {b : UInt8} {written : Bytes} (h : Spells b written) : Reads written [b] := by
  cases h with
  | plain hb => exact fun rest => decode_byte hb rest
  | @letter c hc =>
    have hsingle : ∀ e ∈ letters, single? e.2.toNat.toUInt8 = some e.1 := by decide
    refine reads_escape fun rest => ?_
    unfold sequence
    simp only [List.cons_append, List.nil_append, hsingle _ hc]
    rfl
  | @hexadecimal high low hhigh hlow =>
    have hhigh : high = 0x41 ∨ high = 0x61 := by simpa using hhigh
    have hlow : low = 0x41 ∨ low = 0x61 := by simpa using hlow
    have hvalue : (b.toNat / 16 % 16 * 16 + b.toNat % 16).toUInt8 = b := by
      have hlt := b.toNat_lt
      rw [show b.toNat / 16 % 16 * 16 + b.toNat % 16 = b.toNat by omega]
      exact UInt8.ofNat_toNat
    refine reads_escape fun rest => ?_
    have hpair : hexPair? (hexDigit high (b.toNat / 16) :: hexDigit low b.toNat :: rest) =
        some (b.toNat / 16 % 16 * 16 + b.toNat % 16) := by
      simp only [hexPair?, hexValue?_hexDigit hhigh, hexValue?_hexDigit hlow]
      rfl
    exact (sequence_hexadecimal hpair).trans (by rw [hvalue]; rfl)
  | @octal n hn hb =>
    have hvalue : ((n / 64 % 8 * 8 + n / 8 % 8) * 8 + n % 8).toUInt8 = b := by
      rw [show (n / 64 % 8 * 8 + n / 8 % 8) * 8 + n % 8 = n by omega, ← UInt8.toNat_inj, ← hb]
      exact UInt8.toNat_ofNat'
    obtain ⟨hsingle, hline, hx⟩ := single?_octalDigit (n / 64)
    refine reads_escape fun rest => ?_
    unfold sequence
    simp only [List.cons_append, List.nil_append, hsingle, hline, hx, octal?,
      octalValue?_octalDigit, Option.bind_eq_bind, Option.bind_some, hvalue]
    rfl

/-- Texts with escapes are decoded to what they were made from, in whatever way each byte was
written. No text gets longer, and one without a backslash stays as it is. -/
theorem decode_spelled :
    (∀ text spelling, Spelled text spelling → decode spelling = text) ∧
    (∀ s, (decode s).length ≤ s.length) ∧
    ∀ s, backslash ∉ s → decode s = s := by
  refine ⟨?_, length_decode_le, fun s => decode_of_notMem⟩
  intro text spelling h
  induction h with
  | nil => rfl
  | byte hb _ ih => rw [hb.reads, ih]; rfl
  | joint _ ih =>
    have hjoint : Reads [backslash, 0x0A] [] := reads_escape (e := [0x0A]) fun rest => rfl
    exact (hjoint _).trans ih

/-- A text of a letter, a line feed, a backslash, a digit, a byte outside ASCII and another digit.
The line feed is written by a letter, the backslash by itself, the byte in hexadecimal between two
escaped line ends, and the last digit by an octal number above 255. -/
theorem decode_spelled_of_mixture :
    Spelled [0x6E, 0x0A, 0x5C, 0x37, 0xFF, 0x31] ("n\\n\\\\7\\\n\\xfF\\\n\\461" : String) ∧
    decode ("n\\n\\\\7\\\n\\xfF\\\n\\461" : String) = [0x6E, 0x0A, 0x5C, 0x37, 0xFF, 0x31] ∧
    (decode ("\\x4" : String)).length ≤ 3 ∧ backslash ∉ [0x78, 0x34] ∧
    decode [0x78, 0x34] = [0x78, 0x34] := by
  have hspelled : Spelled [0x6E, 0x0A, 0x5C, 0x37, 0xFF, 0x31]
      ("n\\n\\\\7\\\n\\xfF\\\n\\461" : String) := by
    have hbyte : Spells 0xFF ("\\xfF" : String) :=
      @Spells.hexadecimal 0xFF 0x61 0x41 (by decide) (by decide)
    have hnumber : Spelled [0xFF, 0x31] ("\\xfF\\\n\\461" : String) := by
      refine Spelled.byte hbyte (.joint ?_)
      exact Spelled.byte (.octal (b := 0x31) (n := 0x131) (by decide) rfl) .nil
    refine Spelled.byte (.plain (by decide)) (.byte (.letter (c := 'n') (by decide)) ?_)
    refine Spelled.byte (.letter (c := '\\') (by decide)) (.byte (.plain (by decide)) (.joint ?_))
    exact hnumber
  obtain ⟨hdecode, hlength, hplain⟩ := decode_spelled
  exact ⟨hspelled, hdecode _ _ hspelled, hlength _, by decide, hplain _ (by decide)⟩

/-! ## Cuts between texts -/

/-- What stands after a backslash at the end of a text is an escape that more bytes could change :
none of it is there, or one or two of its three octal digits, or not both of its hexadecimal
ones. -/
inductive BreaksOff : Bytes → Prop
  | backslash : BreaksOff []
  | hexadecimal {digits : Bytes} : digits.length < 2 → (∀ d ∈ digits, (hexValue? d).isSome) →
      BreaksOff (0x78 :: digits)
  | octal {digits : Bytes} : digits ≠ [] → digits.length < 3 →
      (∀ d ∈ digits, (octalValue? d).isSome) → BreaksOff digits

/-- The scan of the first text, a byte or an escape at a time, comes to the second one. -/
inductive Scans : Bytes → Bytes → Prop
  | here (s : Bytes) : Scans s s
  | byte {b : UInt8} {s rest : Bytes} : b ≠ backslash → Scans s rest → Scans (b :: s) rest
  | escape {s rest : Bytes} : Scans (s.drop (sequence s).2) rest → Scans (backslash :: s) rest

/-- The scan of the text meets no escape that breaks off at its end. -/
def Finished (s : Bytes) : Prop := ∀ rest, Scans s (backslash :: rest) → ¬BreaksOff rest

theorem finished_nil : Finished [] := by
  intro rest h
  cases h

theorem finished_byte {b : UInt8} (hb : b ≠ backslash) (s : Bytes) :
    Finished (b :: s) ↔ Finished s := by
  refine ⟨fun h rest hrest => h rest (.byte hb hrest), fun h rest hrest => ?_⟩
  cases hrest with
  | here => exact absurd rfl hb
  | byte _ hrest => exact h rest hrest
  | escape _ => exact absurd rfl hb

theorem finished_backslash (s : Bytes) :
    Finished (backslash :: s) ↔ ¬BreaksOff s ∧ Finished (s.drop (sequence s).2) := by
  constructor
  · intro h
    exact ⟨h s (.here _), fun rest hrest => h rest (.escape hrest)⟩
  · rintro ⟨hs, h⟩ rest hrest
    cases hrest with
    | here => exact hs
    | byte hb _ => exact absurd rfl hb
    | escape hrest => exact h rest hrest

theorem hexPair?_append {s : Bytes} (h : ¬BreaksOff (0x78 :: s)) (t : Bytes) :
    hexPair? (s ++ t) = hexPair? s := by
  rcases s with _ | ⟨d, _ | ⟨e, s⟩⟩
  · exact absurd (.hexadecimal (by simp) (by simp)) h
  · cases hd : hexValue? d with
    | some n => exact absurd (.hexadecimal (by simp) (by simp [hd])) h
    | none =>
      cases t with
      | nil => rfl
      | cons e t => simp [hexPair?, hd]
  · rfl

theorem octal?_append {s : Bytes} (h : ¬BreaksOff s) (t : Bytes) : octal? (s ++ t) = octal? s := by
  rcases s with _ | ⟨a, s⟩
  · exact absurd .backslash h
  cases ha : octalValue? a with
  | none => simp [octal?, ha]
  | some i =>
    rcases s with _ | ⟨b, s⟩
    · exact absurd (.octal (by simp) (by simp) (by simp [ha])) h
    cases hb : octalValue? b with
    | none => simp [octal?, ha, hb]
    | some j =>
      rcases s with _ | ⟨c, s⟩
      · exact absurd (.octal (by simp) (by simp) (by simp [ha, hb])) h
      · simp [octal?, ha, hb]

/-- An escape that does not break off is read as it is if more text follows. -/
theorem sequence_append {s : Bytes} (h : ¬BreaksOff s) (t : Bytes) :
    sequence (s ++ t) = sequence s := by
  rcases s with _ | ⟨e, s⟩
  · exact absurd .backslash h
  have hoctal : octal? (e :: (s ++ t)) = octal? (e :: s) := octal?_append h t
  unfold sequence
  rw [List.cons_append]
  simp only [hoctal]
  by_cases he : e = 0x78
  · subst he
    rw [hexPair?_append h]
  · simp only [beq_iff_eq, he, if_false]

theorem eq_octalDigit {d : UInt8} (h : (octalValue? d).isSome) :
    d = octalDigit (d.toNat - 0x30) := by
  unfold octalValue? at h
  split at h
  next hd =>
    simp only [Bool.and_eq_true, decide_eq_true_eq, UInt8.le_iff_toNat_le] at hd
    have hlow : 0x30 ≤ d.toNat := hd.1
    have hhigh : d.toNat ≤ 0x37 := hd.2
    rw [octalDigit, show 0x30 + (d.toNat - 0x30) % 8 = d.toNat by omega]
    exact UInt8.ofNat_toNat.symm
  · cases h

/-- Octal digits up to the end of a text are one escape. -/
theorem sequence_octal {digits : Bytes} (hne : digits ≠ []) (hlen : digits.length ≤ 3)
    (h : ∀ d ∈ digits, (octalValue? d).isSome) :
    ∃ n, sequence digits = ([n], digits.length) := by
  have hwidth : ∃ n, octal? digits = some (n, digits.length) := by
    rcases digits with _ | ⟨a, _ | ⟨b, _ | ⟨c, _ | ⟨d, s⟩⟩⟩⟩
    · exact absurd rfl hne
    all_goals
      simp only [List.forall_mem_cons, Option.isSome_iff_exists, List.length_cons] at h hlen
    · obtain ⟨⟨i, ha⟩, -⟩ := h
      exact ⟨i, by simp [octal?, ha]⟩
    · obtain ⟨⟨i, ha⟩, ⟨j, hb⟩, -⟩ := h
      exact ⟨i * 8 + j, by simp [octal?, ha, hb]⟩
    · obtain ⟨⟨i, ha⟩, ⟨j, hb⟩, ⟨k, hc⟩, -⟩ := h
      exact ⟨(i * 8 + j) * 8 + k, by simp [octal?, ha, hb, hc]⟩
    · omega
  obtain ⟨n, hn⟩ := hwidth
  obtain ⟨a, s, rfl⟩ := List.exists_cons_of_ne_nil hne
  obtain ⟨hsingle, hline, hx⟩ := single?_octalDigit (a.toNat - 0x30)
  rw [← eq_octalDigit (h a List.mem_cons_self)] at hsingle hline hx
  refine ⟨n.toUInt8, ?_⟩
  unfold sequence
  simp only [hsingle, hline, hx, hn]
  rfl

/-- Some text after an escape that breaks off changes what the escape stands for. -/
theorem exists_shorter {s : Bytes} (h : BreaksOff s) :
    ∃ t, (decode (backslash :: (s ++ t))).length <
      (decode (backslash :: s)).length + (decode t).length := by
  cases h with
  | backslash => exact ⟨("n" : String), by decide⟩
  | @hexadecimal digits hlen h =>
    rcases digits with _ | ⟨d, _ | ⟨e, s⟩⟩
    · exact ⟨("41" : String), by decide⟩
    · obtain ⟨n, hn⟩ := Option.isSome_iff_exists.1 (h d List.mem_cons_self)
      have hd : d ≠ backslash := by
        rintro rfl
        cases hn
      have hlong : decode [backslash, 0x78, d] = [backslash, 0x78, d] := by
        show backslash :: 0x78 :: decode [d] = _
        rw [decode_byte hd]
        rfl
      have hpair : hexPair? [d, 0x31] = some (n * 16 + 1) := by
        simp only [hexPair?, hn]
        rfl
      have hshort : decode [backslash, 0x78, d, 0x31] = [(n * 16 + 1).toUInt8] := by
        rw [decode_backslash, sequence_hexadecimal hpair]
        rfl
      refine ⟨[0x31], ?_⟩
      rw [List.cons_append, List.cons_append, List.nil_append, hlong, hshort]
      exact Nat.lt_of_sub_eq_succ rfl
    · simp only [List.length_cons] at hlen
      omega
  | octal hne hlen h =>
    obtain ⟨n, hn⟩ := sequence_octal hne (by omega) h
    have hmore : ∀ d ∈ s ++ [0x31], (octalValue? d).isSome := by
      simpa [or_imp, forall_and] using ⟨h, by decide⟩
    have hroom : (s ++ [0x31]).length ≤ 3 := by
      rw [List.length_append]
      exact hlen
    obtain ⟨m, hm⟩ := sequence_octal (by simp) hroom hmore
    refine ⟨[0x31], ?_⟩
    simp only [decode_backslash, hn, hm, List.drop_length]
    exact Nat.lt_of_sub_eq_succ rfl

/-- A text can be decoded apart from whatever follows it just if it is finished. -/
theorem finished_iff (a : Bytes) : Finished a ↔ ∀ b, decode (a ++ b) = decode a ++ decode b := by
  induction a using scan_induction with
  | nil => exact ⟨fun _ _ => rfl, fun _ => finished_nil⟩
  | byte b s hb ih =>
    rw [finished_byte hb, ih]
    simp only [List.cons_append, decode_byte hb, List.cons.injEq, true_and]
  | escape s ih =>
    rw [finished_backslash]
    by_cases hs : BreaksOff s
    · obtain ⟨t, ht⟩ := exists_shorter hs
      refine ⟨fun h => absurd hs h.1, fun h => absurd (h t) fun heq => ?_⟩
      rw [List.cons_append] at heq
      rw [heq, List.length_append] at ht
      exact Nat.lt_irrefl _ ht
    · have hwidth := (sequence_bounds s).2
      rw [ih]
      simp only [hs, not_false_eq_true, true_and, List.cons_append, decode_backslash,
        sequence_append hs, List.drop_append_of_le_length hwidth, List.append_assoc,
        List.append_cancel_left_eq]

end Escape

/-! ## Printing -/

/-- A sum of which one side is a text is the text of both. -/
theorem Operator.binary_add {v w : Value} (h : v.kind = .string ∨ w.kind = .string) :
    Operator.binary .add v w = .ok (.string (v.text ++ w.text)) := by
  rcases v with x | s | x <;> rcases w with y | t | y <;>
    first | rfl | exact absurd h (by simp [Value.kind])

theorem Expr.evaluate_add {globals : Table Value} {span : Span} {left right : Expr} {v w : Value}
    (hleft : left.evaluate globals = .ok v) (hright : right.evaluate globals = .ok w)
    (h : v.kind = .string ∨ w.kind = .string) :
    (Expr.binary span .plus left right).evaluate globals = .ok (.string (v.text ++ w.text)) := by
  unfold Expr.evaluate
  rw [hleft, hright]
  simp only [bind, Except.bind, binaryOpcode?, evaluateBinary, Operator.binary_add h]
  rfl

theorem Store.print_print (s : Store) (text text' : Bytes) :
    (s.print text).print text' = s.print (text ++ text') := by
  unfold Store.print
  rw [List.append_assoc]

namespace Machine

variable {p : Program}

/-- The code of a statement that prints a value. -/
theorem codeFollows_print {s : Store} {e : Expr} {v : Value} (he : e.evaluate s.globals = .ok v)
    (span : Span) (newline : Bool) (n rounds : Nat) :
    CodeFollows p ((Stmt.print span newline e).code n) rounds s
      (some (.finished (s.print (printedText newline v)))) := by
  rintro pc m hc rfl hm
  have hvalue := turns_of_evaluate hc.left hm he
  refine ⟨_, _, hvalue.snoc (turn_print hc.right.head rfl), ?_, rfl, hm.print _⟩
  simp [Stmt.code, State.print, State.past, State.push, Nat.add_assoc]

/-- Code that follows an evaluation up to a store, and code that goes on from there. -/
theorem CodeFollows.append {code code' : List Instruction} {rounds : Nat} {s s' : Store}
    {ending : Option Ending} (h : CodeFollows p code rounds s (some (.finished s')))
    (h' : CodeFollows p code' rounds s' ending) :
    CodeFollows p (code ++ code') rounds s ending := by
  rintro pc m hc rfl hm
  obtain ⟨n, m', ht, hpc, hstack, hs⟩ := h m.pc m hc.left rfl hm
  have hrest := h' _ m' hc.right hpc hs
  rw [hstack] at hrest
  refine (hrest.of_turns ht (Nat.le_add_left _ _)).congr ?_
  rw [List.length_append, Nat.add_assoc]

end Machine

open Machine in
/-- A text can be decoded apart from whatever follows it just if it does not end in an escape that
is broken off. So a sum of texts, the first one of this kind, is printed as the two are one after
the other. -/
theorem decode_append_iff :
    (∀ a, Escape.Finished a ↔
      ∀ b, Escape.decode (a ++ b) = Escape.decode a ++ Escape.decode b) ∧
    ∀ (s : Store) (left right : Expr) (v w : Value), left.evaluate s.globals = .ok v →
      right.evaluate s.globals = .ok w → v.kind = .string ∨ w.kind = .string →
      Escape.Finished v.text →
      ∀ (p : Program) (span span' : Span) (newline : Bool) (n rounds : Nat),
        let done := some (.finished (s.print (Escape.decode v.text ++ printedText newline w)))
        CodeFollows p (Stmt.codeOf n [.print span newline (.binary span' .plus left right)])
          rounds s done ∧
        CodeFollows p (Stmt.codeOf n [.print span false left, .print span' newline right])
          rounds s done := by
  refine ⟨Escape.finished_iff, ?_⟩
  intro s left right v w hleft hright hkind hfinished p span span' newline n rounds
  have hdecode := (Escape.finished_iff v.text).1 hfinished w.text
  have hsum : printedText newline (.string (v.text ++ w.text)) =
      Escape.decode v.text ++ printedText newline w := by
    unfold printedText
    simp only [Value.text] at hdecode ⊢
    rw [hdecode]
    split
    · exact List.append_assoc _ _ _
    · rfl
  constructor
  · have hvalue : (Expr.binary span' .plus left right).evaluate s.globals =
        .ok (.string (v.text ++ w.text)) := Expr.evaluate_add hleft hright hkind
    have hprint := codeFollows_print (p := p) hvalue span newline n rounds
    rw [hsum] at hprint
    simpa only [Stmt.codeOf, List.append_nil] using hprint
  · have hfirst := codeFollows_print (p := p) hleft span false n rounds
    have hsecond := codeFollows_print (p := p) (s := s.print (printedText false v)) hright span'
      newline n rounds
    have hboth := hfirst.append hsecond
    rw [Store.print_print, show printedText false v = Escape.decode v.text from rfl] at hboth
    simpa only [Stmt.codeOf, Stmt.labelCount, List.append_nil, Nat.add_zero] using hboth

/-- The sum of a text of two backslashes, which is finished though it ends in a backslash, and a
letter that would make a line feed with a backslash before it. -/
theorem decode_append_iff_of_backslashes :
    Escape.Finished ("\\\\" : String) ∧ Escape.decode ("\\\\n" : String) = ("\\n" : String) ∧
    ∃ p : Program, ∃ code, p.Has 0 code ∧
      code = [.push (.string "\\\\"), .push (.string "n"), .simple .add, .simple .println] ∧
      Machine.CodeFollows p code 1 {} (some (.finished { output := ("\\n\n" : String) })) := by
  have hfinished : Escape.Finished ("\\\\" : String) := by
    refine (Escape.finished_backslash _).2 ⟨?_, ?_⟩
    · intro h
      cases h with
      | octal _ _ h => exact absurd (h Escape.backslash List.mem_cons_self) (by decide)
    · exact Escape.finished_nil
  obtain ⟨happend, hprint⟩ := decode_append_iff
  let code : List Instruction :=
    [.push (.string "\\\\"), .push (.string "n"), .simple .add, .simple .println]
  refine ⟨hfinished, (happend _).1 hfinished ("n" : String), { code := code.toArray }, code,
    ⟨[], ?_⟩, rfl, ?_⟩
  · simp
  · exact (hprint {} (.string default "\\\\") (.string default "n") _ _ rfl rfl (.inl rfl)
      hfinished _ default default true 0 1).1

end Scriptlet
