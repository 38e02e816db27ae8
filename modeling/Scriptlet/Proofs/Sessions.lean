import Mathlib.Data.List.Induction
import Mathlib.Tactic.FinCases
import Scriptlet.Editor.Session

/-!
# What a session knows and tells

A session knows a document from an event that gives its text up to one that closes it, and what it
knows is the analysis of the latest text (`find?_after_eq_some_iff`). Of each text that is given it
tells what was found in it, once, and of each document that is closed that nothing is known of it
(`forall₂_tells`). The events are any, also for documents that were never opened.

Main statement : `session_follows_events`.
-/

namespace Scriptlet.Editor

/-! ## What events are about -/

namespace Event

/-- The event gives the text of a document, as its version : by opening it, or by a change that ends
with the whole text. -/
def Gives (uri : Bytes) (version : Int) (text : Bytes) : Event → Prop
  | .opened u v t => u = uri ∧ v = version ∧ t = text
  | .changed u v changes => u = uri ∧ v = version ∧ ∃ earlier, changes = earlier ++ [.whole text]
  | _ => False

/-- The event gives the document some text. -/
def GivesText (uri text : Bytes) (e : Event) : Prop := ∃ version, e.Gives uri version text

/-- The event gives the document a text or closes it. -/
def Touches (uri : Bytes) (e : Event) : Prop := e = .closed uri ∨ ∃ text, e.GivesText uri text

/-- The document that an event is about, if it is about one. -/
def uri? : Event → Option Bytes
  | .startup | .started | .shutdown | .setTrace => none
  | .opened uri _ _ | .changed uri _ _ | .closed uri | .completion uri _ | .hover uri _
  | .definition uri _ | .references uri _ _ => some uri

/-- The event is a question about the name at a place. -/
def IsQuestion : Event → Prop
  | .completion _ _ | .hover _ _ | .definition _ _ | .references _ _ _ => True
  | _ => False

/-- What an event tells of a document : what was found in a text that it gives, under the version of
that text unless it is negative, or that nothing is known of a document that it closes. -/
inductive Tells : Event → Notification → Prop
  | given {e : Event} {uri text : Bytes} {version : Int} : e.Gives uri version text →
      Tells e ⟨uri, if version < 0 then none else some version.toNat,
        (Inspection.ofSource text).diagnostics⟩
  | closed {uri : Bytes} : Tells (.closed uri) ⟨uri, none, []⟩

variable {e : Event} {uri : Bytes} {version : Int} {text : Bytes}

/-- An event gives one text. -/
theorem Gives.text_eq {version' : Int} {text' : Bytes} (h : e.Gives uri version text)
    (h' : e.Gives uri version' text') : text = text' := by
  cases e with
  | opened u v t => exact h.2.2.symm.trans h'.2.2
  | changed u v changes =>
    obtain ⟨-, -, earlier, rfl⟩ := h
    obtain ⟨-, -, earlier', heq⟩ := h'
    exact Change.whole.inj (List.singleton_inj.1 (List.append_inj' heq rfl).2)
  | _ => exact h.elim

theorem Gives.uri?_eq (h : e.Gives uri version text) : e.uri? = some uri := by
  cases e with
  | opened u v t => rw [uri?, h.1]
  | changed u v changes => rw [uri?, h.1]
  | _ => exact h.elim

/-- A change gives the text that is last among its parts, if that is a whole one. -/
theorem gives_changed_iff {u : Bytes} {v : Int} {changes : List Change} :
    Gives uri version text (.changed u v changes) ↔
      u = uri ∧ v = version ∧ changes.getLast? = some (.whole text) := by
  rw [Gives, List.getLast?_eq_some_iff]

end Event

/-! ## Runs of a session -/

namespace Session

/-- The session after some events. -/
def after (s : Session) (events : List Event) : Session :=
  events.foldl (fun s e => (s.handle e).1) s

/-- What the editor is told during some events. -/
def told (s : Session) : List Event → List Notification
  | [] => []
  | e :: rest => (s.handle e).2.2 ++ told (s.handle e).1 rest

theorem after_concat (s : Session) (events : List Event) (e : Event) :
    s.after (events ++ [e]) = ((s.after events).handle e).1 := by
  rw [after, after, List.foldl_concat]

/-! ## One event -/

variable {s : Session} {e : Event} {uri text : Bytes} {version : Int}

theorem version?_eq (version : Int) :
    version? version = if version < 0 then none else some version.toNat := by
  cases version with
  | ofNat n => rfl
  | negSucc n => rw [version?, if_pos (Int.negSucc_lt_zero n)]

/-- An event that gives a text makes the session know it, and tells what was found in it. -/
theorem handle_of_gives (h : e.Gives uri version text) :
    s.handle e = ((s.update uri version text).1, .nothing, [(s.update uri version text).2]) := by
  cases e with
  | opened u v t =>
    obtain ⟨rfl, rfl, rfl⟩ := h
    rfl
  | changed u v changes =>
    obtain ⟨rfl, rfl, hlast⟩ := Event.gives_changed_iff.1 h
    rw [handle, hlast]
  | _ => exact h.elim

/-- An event that touches no document changes nothing and tells nothing. -/
theorem handle_of_untouched (h : ∀ uri, ¬e.Touches uri) :
    (s.handle e).1 = s ∧ (s.handle e).2.2 = [] := by
  cases e with
  | opened u v t => exact absurd (Or.inr ⟨t, v, rfl, rfl, rfl⟩) (h u)
  | changed u v changes =>
    rw [handle]
    split
    next t hlast => exact absurd (Or.inr ⟨t, v, Event.gives_changed_iff.2 ⟨rfl, rfl, hlast⟩⟩) (h u)
    next => exact ⟨rfl, rfl⟩
  | closed u => exact absurd (Or.inl rfl) (h u)
  | _ => exact ⟨rfl, rfl⟩

/-- What an event can do to what is known of a document. -/
theorem find?_handle (s : Session) (e : Event) (uri : Bytes) :
    (∃ text, e.GivesText uri text ∧
        (s.handle e).1.documents.find? uri = some (.ofText text)) ∨
      e = .closed uri ∧ (s.handle e).1.documents.find? uri = none ∨
      ¬e.Touches uri ∧ (s.handle e).1.documents.find? uri = s.documents.find? uri := by
  by_cases htouches : ∃ u, e.Touches u
  · obtain ⟨u, rfl | ⟨text, version, hgives⟩⟩ := htouches
    · by_cases hu : u = uri
      · subst hu
        exact Or.inr (Or.inl ⟨rfl, by simp [handle]⟩)
      · refine Or.inr (Or.inr ⟨?_, ?_⟩)
        · rintro (h | ⟨text, version, h⟩)
          · exact hu (Event.closed.inj h)
          · exact h
        · simp [handle, Ne.symm hu]
    · rw [handle_of_gives hgives]
      by_cases hu : u = uri
      · subst hu
        exact Or.inl ⟨text, ⟨version, hgives⟩, by simp [update]⟩
      · refine Or.inr (Or.inr ⟨?_, ?_⟩)
        · rintro (rfl | ⟨text', version', h⟩)
          · exact hgives
          · exact hu (Option.some.inj (hgives.uri?_eq.symm.trans h.uri?_eq))
        · simp [update, Ne.symm hu]
  · rw [not_exists] at htouches
    rw [(handle_of_untouched htouches).1]
    exact Or.inr (Or.inr ⟨htouches uri, rfl⟩)

/-- An event about another document, or about none, changes nothing for a document. -/
theorem find?_handle_of_ne (h : e.uri? ≠ some uri) :
    (s.handle e).1.documents.find? uri = s.documents.find? uri := by
  rcases find?_handle s e uri with ⟨text, ⟨version, hgives⟩, -⟩ | ⟨rfl, -⟩ | ⟨-, hsame⟩
  · exact absurd hgives.uri?_eq h
  · exact absurd rfl h
  · exact hsame

theorem handle_of_isQuestion (h : e.IsQuestion) : (s.handle e).1 = s := by
  cases e with
  | completion | hover | definition | references => rfl
  | _ => exact h.elim

/-- The notifications of an event are what it tells, and there is at most one. -/
theorem mem_handle_iff {n : Notification} : n ∈ (s.handle e).2.2 ↔ e.Tells n := by
  constructor
  · intro h
    by_cases htouches : ∃ u, e.Touches u
    · obtain ⟨u, rfl | ⟨text, version, hgives⟩⟩ := htouches
      · obtain rfl := List.mem_singleton.1 h
        exact .closed
      · rw [handle_of_gives hgives] at h
        obtain rfl := List.mem_singleton.1 h
        rw [update, version?_eq]
        exact .given hgives
    · rw [(handle_of_untouched (not_exists.1 htouches)).2] at h
      cases h
  · rintro (hgives | _)
    · rw [handle_of_gives hgives, update, version?_eq]
      exact List.mem_singleton_self _
    · exact List.mem_singleton_self _

theorem length_handle_le (s : Session) (e : Event) : (s.handle e).2.2.length ≤ 1 := by
  cases e with
  | changed u v changes =>
    rw [handle]
    split <;> simp
  | _ => simp [handle]

end Session

/-! ## All events -/

/-- Some element satisfies `p`, and all behind it satisfy `q`. -/
def Since {α : Type} (p q : α → Prop) (xs : List α) : Prop :=
  ∃ before x behind, xs = before ++ x :: behind ∧ p x ∧ ∀ y ∈ behind, q y

section

variable {α : Type} {p q : α → Prop}

theorem not_since_nil : ¬Since p q [] := by
  rintro ⟨before, x, behind, h, -⟩
  simp at h

theorem since_concat {xs : List α} {x : α} :
    Since p q (xs ++ [x]) ↔ p x ∨ q x ∧ Since p q xs := by
  constructor
  · rintro ⟨before, y, behind, h, hy, hbehind⟩
    rcases List.eq_nil_or_concat' behind with rfl | ⟨behind, z, rfl⟩
    · obtain ⟨-, heq⟩ := List.append_inj' h rfl
      rw [List.singleton_inj.1 heq]
      exact Or.inl hy
    · have hsplit : xs ++ [x] = (before ++ y :: behind) ++ [z] := by simpa using h
      obtain ⟨hxs, heq⟩ := List.append_inj' hsplit rfl
      rw [List.singleton_inj.1 heq]
      exact Or.inr ⟨hbehind z (by simp), before, y, behind, hxs, hy,
        fun w hw => hbehind w (List.mem_append_left _ hw)⟩
  · rintro (hx | ⟨hx, before, y, behind, rfl, hy, hbehind⟩)
    · exact ⟨xs, x, [], rfl, hx, by simp⟩
    · refine ⟨before, y, behind ++ [x], by simp, hy, fun w hw => ?_⟩
      rcases List.mem_append.1 hw with hw | hw
      · exact hbehind w hw
      · rw [List.mem_singleton.1 hw]
        exact hx

end

namespace Session

/-- A document is known if a text was given for it since it was closed. -/
theorem isSome_find?_after_iff (events : List Event) (uri : Bytes) :
    ((after {} events).documents.find? uri).isSome = true ↔
      Since (fun e => ∃ text, e.GivesText uri text) (fun e => e ≠ .closed uri) events := by
  induction events using List.reverseRecOn with
  | nil => simp [after, not_since_nil]
  | append_singleton events e ih =>
    rw [after_concat, since_concat, ← ih]
    rcases find?_handle (after {} events) e uri with ⟨text, hgives, h⟩ | ⟨rfl, h⟩ | ⟨hnot, h⟩
    · simp only [h, Option.isSome_some, true_iff]
      exact Or.inl ⟨text, hgives⟩
    · simp only [h, Option.isSome_none, Bool.false_eq_true, ne_eq, not_true, false_and, or_false,
        false_iff]
      rintro ⟨text, version, hgives⟩
      exact hgives
    · rw [h]
      rw [Event.Touches, not_or] at hnot
      exact ⟨fun hs => Or.inr ⟨hnot.1, hs⟩, fun hs => hs.elim (absurd · hnot.2) And.right⟩

/-- What is known of a document is its latest text, if it was not closed since, and the analysis of
just this text. -/
theorem find?_after_eq_some_iff (events : List Event) (uri : Bytes) (d : Document) :
    (after {} events).documents.find? uri = some d ↔
      Since (fun e => e.GivesText uri d.text) (fun e => ¬e.Touches uri) events ∧
        d.analysis = (Inspection.ofSource d.text).analysis := by
  induction events using List.reverseRecOn with
  | nil => simp [after, not_since_nil]
  | append_singleton events e ih =>
    rw [after_concat, since_concat]
    rcases find?_handle (after {} events) e uri with ⟨text, hgives, h⟩ | ⟨rfl, h⟩ | ⟨hnot, h⟩
    · rw [h, Option.some.injEq]
      have htouches : e.Touches uri := Or.inr ⟨text, hgives⟩
      constructor
      · rintro rfl
        exact ⟨Or.inl hgives, rfl⟩
      · rintro ⟨hd | ⟨hnot, -⟩, hanalysis⟩
        · obtain ⟨version, hgives⟩ := hgives
          obtain ⟨version', hd⟩ := hd
          have htext : text = d.text := hgives.text_eq hd
          rw [Document.ofText, htext, ← hanalysis]
        · exact absurd htouches hnot
    · rw [h]
      have htouches : (Event.closed uri).Touches uri := Or.inl rfl
      constructor
      · intro hd
        cases hd
      · rintro ⟨⟨version, hgives⟩ | ⟨hnot, -⟩, -⟩
        · exact hgives.elim
        · exact absurd htouches hnot
    · have hgives : ¬e.GivesText uri d.text := fun hg => hnot (Or.inr ⟨d.text, hg⟩)
      rw [h, ih]
      simp only [hgives, hnot, not_false_eq_true, true_and, false_or]

/-- What is told during some events is what each of them tells, in their order. -/
theorem forall₂_tells (s : Session) (events : List Event) :
    ∃ notices : List (List Notification), s.told events = notices.flatten ∧
      List.Forall₂ (fun e ns => ns.length ≤ 1 ∧ ∀ n, n ∈ ns ↔ e.Tells n) events notices := by
  induction events generalizing s with
  | nil => exact ⟨[], rfl, .nil⟩
  | cons e rest ih =>
    obtain ⟨notices, htold, hnotices⟩ := ih (s.handle e).1
    refine ⟨(s.handle e).2.2 :: notices, ?_, .cons ⟨length_handle_le s e, fun n => ?_⟩ hnotices⟩
    · rw [told, htold, List.flatten_cons]
    · exact mem_handle_iff

end Session

open Session in
/-- Sessions follow the events. A document is known after some events if a text was given for it
since it was closed, by opening it or by a change that ends with a whole text. What is known is the
latest of these texts and its own analysis. An event about another document, or a question, changes
nothing in any session. The notifications are, in the order of the events, what each event tells,
and none is sent twice. -/
theorem session_follows_events (events : List Event) :
    (∀ uri, ((after {} events).documents.find? uri).isSome = true ↔
      Since (fun e => ∃ text, e.GivesText uri text) (fun e => e ≠ .closed uri) events) ∧
    (∀ uri d, (after {} events).documents.find? uri = some d ↔
      Since (fun e => e.GivesText uri d.text) (fun e => ¬e.Touches uri) events ∧
        d.analysis = (Inspection.ofSource d.text).analysis) ∧
    (∀ (s : Session) (e : Event) (uri : Bytes), e.uri? ≠ some uri →
      (s.handle e).1.documents.find? uri = s.documents.find? uri) ∧
    (∀ (s : Session) (e : Event), e.IsQuestion → (s.handle e).1 = s) ∧
    ∃ notices : List (List Notification), told {} events = notices.flatten ∧
      List.Forall₂ (fun e ns => ns.length ≤ 1 ∧ ∀ n, n ∈ ns ↔ e.Tells n) events notices :=
  ⟨isSome_find?_after_iff events, find?_after_eq_some_iff events,
    fun _ _ _ h => find?_handle_of_ne h, fun _ _ h => handle_of_isQuestion h,
    forall₂_tells {} events⟩

open Session in
/-- One document is changed that was never opened, and another is opened, looked at and closed. -/
theorem session_follows_events_of_two_documents :
    let events : List Event := [.changed "b" (-1) [.part "y", .whole "x := 2"],
      .opened "a" 1 "print x", .hover "a" ⟨0, 6⟩, .closed "a"]
    (∃ d, (after {} events).documents.find? "b" = some d ∧ d.text = "x := 2") ∧
    ((after {} events).documents.find? "a").isSome = false ∧
    ((after {} events).handle (.closed "a")).1.documents.find? "b" =
      (after {} events).documents.find? "b" ∧
    ((after {} events).handle (.hover "b" ⟨0, 0⟩)).1 = after {} events := by
  intro events
  obtain ⟨hopen, hknown, hother, hquestion, -⟩ := session_follows_events events
  refine ⟨⟨.ofText "x := 2", (hknown "b" _).2 ⟨?_, rfl⟩, rfl⟩, ?_,
    hother _ (.closed "a") "b" (by decide), hquestion _ (.hover "b" ⟨0, 0⟩) trivial⟩
  · refine ⟨[], _, _, rfl, ⟨-1, rfl, rfl, [.part "y"], rfl⟩, ?_⟩
    rintro e he (rfl | ⟨text, version, hgives⟩)
    · revert he
      decide
    · have huri := hgives.uri?_eq
      revert huri
      fin_cases he <;> decide
  · rw [← Bool.not_eq_true, hopen]
    rw [show events = events.dropLast ++ [.closed "a"] from rfl, since_concat]
    rintro (⟨text, version, hgives⟩ | ⟨hne, -⟩)
    · exact hgives
    · exact hne rfl

end Scriptlet.Editor
