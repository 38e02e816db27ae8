import Scriptlet.Text.Utf8

/-!
# Parts of a text

Cutting a text at a byte. The parts and the bytes between them make up the text (`joined_partsAt`).
-/

namespace Scriptlet.Bytes

/-- The parts of a text between the bytes `b`; always at least one. -/
def partsAt (b : UInt8) : Bytes → List Bytes
  | [] => [[]]
  | a :: rest =>
    if a = b then [] :: partsAt b rest
    else match partsAt b rest with
      | [] => [[a]]
      | part :: parts => (a :: part) :: parts

/-- The parts of a text put together again, with `b` between them. -/
def joined (b : UInt8) : List Bytes → Bytes
  | [] => []
  | [part] => part
  | part :: next :: parts => part ++ b :: joined b (next :: parts)

theorem partsAt_ne_nil (b : UInt8) (s : Bytes) : partsAt b s ≠ [] := by
  cases s with
  | nil => simp [partsAt]
  | cons a rest =>
    simp only [partsAt]
    split
    · simp
    · split <;> simp

theorem joined_cons_cons (b a : UInt8) (part : Bytes) (parts : List Bytes) :
    joined b ((a :: part) :: parts) = a :: joined b (part :: parts) := by
  cases parts <;> simp [joined]

/-- Cutting a text loses none of its bytes. -/
theorem joined_partsAt (b : UInt8) (s : Bytes) : joined b (partsAt b s) = s := by
  induction s with
  | nil => rfl
  | cons a rest ih =>
    obtain ⟨part, parts, h⟩ := List.exists_cons_of_ne_nil (partsAt_ne_nil b rest)
    rw [h] at ih
    by_cases hab : a = b
    · simp only [partsAt, hab, h, joined, if_true, List.nil_append, ih]
    · simp only [partsAt, hab, h, if_false, joined_cons_cons, ih]

end Scriptlet.Bytes
