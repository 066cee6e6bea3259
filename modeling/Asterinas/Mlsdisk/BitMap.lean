import Mathlib.Tactic

/-!
# Searching a bit map

`BitMap` (`util/bitmap.rs`) as a list of Booleans, with the searches for the first and for the last
zero.
-/

namespace Asterinas.Mlsdisk

open List

/-- `BitMap::first_zero`, from a position on. -/
def firstZero (table : List Bool) (start : ℕ) : Option ℕ :=
  (List.range' start (table.length - start)).find? fun i => table[i]? == some false

/-- `BitMap::last_zero`: the last clear bit. -/
def lastZero (table : List Bool) : Option ℕ :=
  (List.range table.length).reverse.find? fun i => table[i]? == some false

lemma firstZero_eq_none {table : List Bool} {start : ℕ} (h : firstZero table start = none) :
    ∀ i, start ≤ i → i < table.length → table[i]? = some true := by
  intro i hs hi
  have hne := find?_eq_none.mp h i (mem_range'_1.mpr ⟨hs, by omega⟩)
  rw [getElem?_eq_getElem hi] at hne ⊢
  simpa using hne

lemma firstZero_eq_some {table : List Bool} {start j : ℕ} (h : firstZero table start = some j) :
    start ≤ j ∧ j < table.length ∧ table[j]? = some false ∧
      ∀ i, start ≤ i → i < j → table[i]? = some true := by
  obtain ⟨hj, hmem, hbefore⟩ := find?_range'_eq_some.mp h
  have hrange := mem_range'_1.mp hmem
  refine ⟨hrange.1, by omega, beq_iff_eq.mp hj, fun i hi hij => ?_⟩
  have hlt : i < table.length := by omega
  have hb := hbefore i hi hij
  rw [getElem?_eq_getElem hlt] at hb ⊢
  simpa using hb

lemma lastZero_spec {table : List Bool} {i : ℕ} (hi : table[i]? = some false) :
    ∃ j, lastZero table = some j ∧ j < table.length ∧ i ≤ j ∧
      ∀ k, j < k → k < table.length → table[k]? = some true := by
  have hlt : i < table.length := (List.getElem?_eq_some_iff.mp hi).1
  cases hl : lastZero table with
  | none =>
    have hne := List.find?_eq_none.mp hl i (List.mem_reverse.mpr (List.mem_range.mpr hlt))
    exact absurd (beq_iff_eq.mpr hi) hne
  | some j =>
    -- the zero stands at a position of the reversed range, and ones before it
    obtain ⟨-, m, hm, hj, hbefore⟩ := find?_eq_some_iff_getElem.mp hl
    simp only [length_reverse, length_range, getElem_reverse, getElem_range] at hm hj hbefore
    have hjlen : j < table.length := by omega
    have hafter : ∀ k, j < k → k < table.length → table[k]? = some true := by
      intro k hjk hk
      have hb := hbefore (table.length - 1 - k) (by omega)
      rw [Nat.sub_sub_self (by omega), getElem?_eq_getElem hk] at hb
      rw [getElem?_eq_getElem hk]
      simpa using hb
    refine ⟨j, rfl, hjlen, not_lt.mp fun hji => ?_, hafter⟩
    rw [hafter i hji hlt] at hi
    cases hi

lemma getElem?_set_true {i j : ℕ} {table : List Bool} (hi : i < table.length) :
    (table.set i true)[j]? = if i = j then some true else table[j]? := by
  rw [getElem?_set]
  split
  · rfl
  · rfl

end Asterinas.Mlsdisk
