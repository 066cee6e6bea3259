import Mathlib.Data.List.Sort
import Mathlib.Order.Defs.LinearOrder

/-!
# Association lists in ascending order of their keys

The lookup of a key in a list of pairs whose keys ascend strictly, in one piece or cut into several.
-/

namespace Framework

open List

variable {K V A : Type}

/-- The keys ascend strictly. -/
def Ascending [LT K] (l : List (K × V)) : Prop := l.Pairwise fun a b => a.1 < b.1

section Lookup

variable [LinearOrder K] {l : List (K × V)} {k : K} {v : V}

lemma mem_of_lookup_eq_some (h : l.lookup k = some v) : (k, v) ∈ l := by
  obtain ⟨l₁, l₂, rfl, -⟩ := lookup_eq_some_iff.mp h
  exact mem_append_right _ mem_cons_self

lemma lookup_eq_none_iff_forall : l.lookup k = none ↔ ∀ r ∈ l, r.1 ≠ k := by
  rw [lookup_eq_none_iff]
  exact forall₂_congr fun r _ => by rw [bne_iff_ne, ne_comm]

lemma Ascending.lookup_eq_some_iff (h : Ascending l) : l.lookup k = some v ↔ (k, v) ∈ l := by
  refine ⟨mem_of_lookup_eq_some, fun hmem => ?_⟩
  induction l with
  | nil => cases hmem
  | cons r l ih =>
    obtain ⟨hr, hl⟩ := pairwise_cons.mp h
    cases mem_cons.mp hmem with
    | inl heq =>
      subst heq
      simp
    | inr hmem =>
      have hne : (k == r.1) = false := beq_eq_false_iff_ne.mpr (hr _ hmem).ne'
      rw [lookup_cons, hne]
      exact ih hl hmem

/-- The value of a key in a piece of a list that ascends as a whole: no other piece has the key. -/
lemma filterMap_lookup_eq {β : Type} {f : A → List (K × β)} {as : List A}
    (h : Ascending (as.flatMap f)) :
    as.filterMap (fun a => (f a).lookup k) = ((as.flatMap f).lookup k).toList := by
  induction as with
  | nil => rfl
  | cons a as ih =>
    rw [flatMap_cons] at h ⊢
    obtain ⟨-, has, hlt⟩ := pairwise_append.mp h
    rw [lookup_append]
    cases hv : (f a).lookup k with
    | none =>
      rw [filterMap_cons_none (f := fun a => (f a).lookup k) hv, ih has, Option.none_or]
    | some v =>
      have hnone : (as.flatMap f).lookup k = none := by
        rw [lookup_eq_none_iff_forall]
        intro r hr
        exact (hlt _ (mem_of_lookup_eq_some hv) r hr).ne'
      rw [filterMap_cons_some (f := fun a => (f a).lookup k) hv, ih has, hnone]
      rfl

lemma lookup_map {W : Type} (g : K → V → W) :
    (l.map fun r => (r.1, g r.1 r.2)).lookup k = (l.lookup k).map (g k) := by
  induction l with
  | nil => rfl
  | cons r l ih =>
    rw [map_cons, lookup_cons, lookup_cons, ih]
    cases h : k == r.1 with
    | false => rfl
    | true => rw [beq_iff_eq.mp h, Option.map_some]

lemma Ascending.map {W : Type} (h : Ascending l) (g : K → V → W) :
    Ascending (l.map fun r => (r.1, g r.1 r.2)) :=
  pairwise_map.mpr h

lemma Ascending.head_le {r : K × V} (h : Ascending l) (hne : l ≠ []) (hr : r ∈ l) :
    (l.head hne).1 ≤ r.1 := by
  obtain ⟨a, l, rfl⟩ := exists_cons_of_ne_nil hne
  rcases mem_cons.mp hr with rfl | hr
  · exact le_refl _
  · exact (rel_of_pairwise_cons h hr).le

lemma Ascending.le_getLast {r : K × V} (h : Ascending l) (hne : l ≠ []) (hr : r ∈ l) :
    r.1 ≤ (l.getLast hne).1 := by
  rw [← dropLast_append_getLast hne] at h hr
  rcases mem_append.mp hr with hr | hr
  · exact ((pairwise_append.mp h).2.2 r hr _ mem_cons_self).le
  · rw [mem_singleton.mp hr]

end Lookup

/-- Two lists of at most one element with the same elements are equal. -/
lemma eq_of_perm_of_length_le_one {l₁ l₂ : List A} (h : l₁.Perm l₂) (hle : l₁.length ≤ 1) :
    l₁ = l₂ := by
  match l₁, hle with
  | [], _ => exact (nil_perm.mp h).symm
  | [a], _ => exact singleton_perm.mp h

/-! ### The first hit of a search -/

section FirstHit

variable {B : Type} {f : A → Option B} {l : List A}

lemma findSome?_flatMap {C : Type} (cs : List C) (g : C → List A) :
    (cs.flatMap g).findSome? f = cs.findSome? fun c => (g c).findSome? f := by
  rw [← head?_filterMap, filterMap_flatMap, head?_flatMap]
  simp only [head?_filterMap]

lemma findSome?_filterMap {C : Type} (g : C → Option A) (cs : List C) :
    (cs.filterMap g).findSome? f = cs.findSome? fun c => (g c).bind f := by
  rw [← head?_filterMap, filterMap_filterMap, head?_filterMap]

lemma findSome?_congr {g : A → Option B} (h : ∀ a ∈ l, f a = g a) :
    l.findSome? f = l.findSome? g := by
  rw [← head?_filterMap, ← head?_filterMap, filterMap_congr h]

/-- A search all of whose hits agree. -/
lemma findSome?_eq_of_forall {o : Option B} (h : ∀ a ∈ l, f a = none ∨ f a = o)
    (ho : o = none ∨ ∃ a ∈ l, f a = o) : l.findSome? f = o := by
  cases hl : l.findSome? f with
  | none =>
    rcases ho with rfl | ⟨a, ha, rfl⟩
    · rfl
    · exact (findSome?_eq_none_iff.mp hl a ha).symm
  | some b =>
    obtain ⟨a, ha, hfa⟩ := exists_of_findSome?_eq_some hl
    rcases h a ha with hnone | heq
    · rw [hnone] at hfa
      cases hfa
    · exact hfa.symm.trans heq

end FirstHit

end Framework
