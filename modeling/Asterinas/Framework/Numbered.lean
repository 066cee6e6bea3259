import Mathlib.Tactic

/-!
# Numbered lists

A list whose elements have consecutive numbers, described by what holds of each element and its
number.
-/

namespace Framework

open List

/-- The elements of the list have the property `P` of their numbers, the first of which is
`start`. -/
def Numbered {α : Type} (P : ℕ → α → Prop) (start : ℕ) (l : List α) : Prop :=
  ∀ j a, l[j]? = some a → P (start + j) a

namespace Numbered

variable {α β : Type} {P Q : ℕ → α → Prop} {start : ℕ} {l : List α}

lemma nil : Numbered P start [] := fun _ _ h => by simp at h

lemma mono (h : Numbered P start l)
    (hPQ : ∀ j, j < l.length → ∀ a, P (start + j) a → Q (start + j) a) : Numbered Q start l := by
  intro j a hj
  exact hPQ j (List.getElem?_eq_some_iff.mp hj).1 a (h j a hj)

lemma cons_iff {a : α} : Numbered P start (a :: l) ↔ P start a ∧ Numbered P (start + 1) l := by
  constructor
  · intro h
    refine ⟨h 0 a rfl, fun j b hj => ?_⟩
    have hb := h (j + 1) b (by simpa using hj)
    rwa [add_comm j 1, ← add_assoc] at hb
  · rintro ⟨ha, hl⟩ j b hj
    cases j with
    | zero =>
      obtain rfl : a = b := by simpa using hj
      exact ha
    | succ j =>
      have hb := hl j b (by simpa using hj)
      rwa [add_assoc, add_comm 1 j] at hb

section

variable (h : Numbered P start l)

include h

lemma append {l' : List α} (h' : Numbered P (start + l.length) l') :
    Numbered P start (l ++ l') := by
  induction l generalizing start with
  | nil => simpa using h'
  | cons a l ih =>
    obtain ⟨ha, hl⟩ := cons_iff.mp h
    refine cons_iff.mpr ⟨ha, ih hl ?_⟩
    rwa [length_cons, add_comm l.length 1, ← add_assoc] at h'

lemma drop (k : ℕ) : Numbered P (start + k) (l.drop k) := by
  intro j a hj
  rw [getElem?_drop] at hj
  rw [add_assoc]
  exact h (k + j) a hj

lemma take (k : ℕ) : Numbered P start (l.take k) := by
  intro j a hj
  rw [getElem?_take] at hj
  split at hj
  · exact h j a hj
  · cases hj

end

/-- The parts of numbered elements, each with `N` parts. -/
lemma flatMap {N : ℕ} {R : ℕ → β → Prop} {f : α → List β} (hlen : ∀ a ∈ l, (f a).length = N)
    (h : Numbered (fun c a => Numbered R (c * N) (f a)) start l) :
    Numbered R (start * N) (l.flatMap f) := by
  induction l generalizing start with
  | nil => exact nil
  | cons a l ih =>
    obtain ⟨ha, hl⟩ := cons_iff.mp h
    rw [flatMap_cons]
    refine ha.append ?_
    rw [hlen a mem_cons_self, ← Nat.succ_mul]
    exact ih (fun b hb => hlen b (mem_cons_of_mem a hb)) hl

end Numbered

end Framework
