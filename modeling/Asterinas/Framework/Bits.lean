import Mathlib.Data.Bool.Count
import Mathlib.Tactic

/-!
# Lists of bits

A list of bits as a set of positions: giving a list of positions one value, how that changes the
number of clear bits, and the position of the first clear bit.
-/

namespace Framework.Bits

open List

section

variable (bits : List Bool)

/-- Give every position of `ids` the value `v`, one after the other. -/
def setAll (ids : List ℕ) (v : Bool) : List Bool :=
  ids.foldl (fun bits id => bits.set id v) bits

@[simp] lemma setAll_nil (v : Bool) : setAll bits [] v = bits := rfl

@[simp] lemma setAll_cons (id : ℕ) (ids : List ℕ) (v : Bool) :
    setAll bits (id :: ids) v = setAll (bits.set id v) ids v := rfl

@[simp] lemma length_setAll (ids : List ℕ) (v : Bool) :
    (setAll bits ids v).length = bits.length := by
  induction ids generalizing bits with
  | nil => rfl
  | cons id ids ih => simp [ih]

lemma getElem?_setAll (ids : List ℕ) (v : Bool) (i : ℕ) :
    (setAll bits ids v)[i]? = if i ∈ ids then bits[i]?.map fun _ => v else bits[i]? := by
  induction ids generalizing bits with
  | nil => simp
  | cons id ids ih =>
    rw [setAll_cons, ih, getElem?_set']
    by_cases hid : id = i
    · by_cases hi : i ∈ ids <;> simp [hi, hid, Function.const_def]
    · by_cases hi : i ∈ ids <;> simp [hi, hid, Ne.symm hid]

end

variable {bits : List Bool} {ids : List ℕ}

lemma getElem?_setAll_of_mem {i : ℕ} (v : Bool) (hi : i ∈ ids)
    (hlt : i < bits.length) : (setAll bits ids v)[i]? = some v := by
  rw [getElem?_setAll, if_pos hi, getElem?_eq_getElem hlt, Option.map_some]

lemma getElem?_setAll_of_not_mem {i : ℕ} (bits : List Bool) (v : Bool)
    (hi : i ∉ ids) : (setAll bits ids v)[i]? = bits[i]? := by
  rw [getElem?_setAll, if_neg hi]

/-- Flipping distinct positions to `v` adds their number to the count of `v`. -/
lemma count_setAll {v : Bool} (hnd : ids.Nodup) (h : ∀ i ∈ ids, bits[i]? = some (!v)) :
    (setAll bits ids v).count v = bits.count v + ids.length := by
  induction ids generalizing bits with
  | nil => simp
  | cons id ids ih =>
    obtain ⟨hid, hnd⟩ := List.nodup_cons.mp hnd
    obtain ⟨hlt, hbit⟩ := List.getElem?_eq_some_iff.mp (h id List.mem_cons_self)
    have hrest : ∀ i ∈ ids, (bits.set id v)[i]? = some (!v) := by
      intro i hi
      rw [List.getElem?_set_ne (fun (heq : id = i) => hid (heq ▸ hi))]
      exact h i (mem_cons_of_mem _ hi)
    rw [setAll_cons, ih hnd hrest, count_set hlt, hbit]
    cases v <;> simp <;> omega

/-- Setting clear positions takes their number from the count of clear bits. -/
lemma count_false_setAll_true (hnd : ids.Nodup) (h : ∀ i ∈ ids, bits[i]? = some false) :
    (setAll bits ids true).count false + ids.length = bits.count false := by
  have hset := count_setAll (v := true) hnd h
  have hold := count_false_add_count_true bits
  have hnew := count_false_add_count_true (setAll bits ids true)
  rw [length_setAll] at hnew
  omega

/-- The position of the first clear bit, or the length when there is none. -/
def firstClear (bits : List Bool) : ℕ := bits.findIdx (! ·)

lemma firstClear_le_length (bits : List Bool) : firstClear bits ≤ bits.length :=
  findIdx_le_length

lemma getElem?_of_lt_firstClear {i : ℕ} (h : i < firstClear bits) : bits[i]? = some true := by
  have hlt : i < bits.length := lt_of_lt_of_le h (firstClear_le_length bits)
  rw [getElem?_eq_getElem hlt]
  simpa using not_of_lt_findIdx h

lemma getElem?_firstClear (h : firstClear bits < bits.length) :
    bits[firstClear bits]? = some false := by
  have hbit : (! bits[firstClear bits]) = true := findIdx_getElem (w := h)
  rw [getElem?_eq_getElem h]
  simpa using hbit

section

variable {n : ℕ} (hle : n ≤ bits.length) (hset : ∀ i < n, bits[i]? = some true)

include hle hset

/-- The first clear bit is where the set bits of the front end. -/
lemma firstClear_eq (hclear : n < bits.length → bits[n]? = some false) :
    firstClear bits = n := by
  rcases lt_trichotomy (firstClear bits) n with hlt | heq | hgt
  · have hclear' := getElem?_firstClear (lt_of_lt_of_le hlt hle)
    rw [hset _ hlt] at hclear'
    cases hclear'
  · exact heq
  · have hset' := getElem?_of_lt_firstClear hgt
    rw [hclear (lt_of_lt_of_le hgt (firstClear_le_length bits))] at hset'
    cases hset'

/-- Behind a front of set bits, the first clear bit is the first one of the rest. -/
lemma firstClear_eq_add_drop : firstClear bits = n + firstClear (bits.drop n) := by
  have hdrop := firstClear_le_length (bits.drop n)
  rw [length_drop] at hdrop
  refine firstClear_eq (by omega) (fun i hi => ?_) (fun hlt => ?_)
  · rcases lt_or_ge i n with hin | hin
    · exact hset i hin
    · have hlt : i - n < firstClear (bits.drop n) := by omega
      have h := getElem?_of_lt_firstClear hlt
      rwa [getElem?_drop, Nat.add_sub_cancel' hin] at h
  · have hlt' : firstClear (bits.drop n) < (bits.drop n).length := by
      rw [length_drop]
      omega
    have h := getElem?_firstClear hlt'
    rwa [getElem?_drop] at h

end

/-- Setting bits behind a clear first one leaves it the first. -/
lemma firstClear_setAll_true (h : (setAll bits ids true)[firstClear bits]? ≠ some true) :
    firstClear (setAll bits ids true) = firstClear bits := by
  refine firstClear_eq ?_ (fun i hi => ?_) (fun hlt => ?_)
  · rw [length_setAll]
    exact firstClear_le_length bits
  · have hset := getElem?_of_lt_firstClear hi
    rw [getElem?_setAll, hset]
    simp
  · rw [getElem?_eq_getElem hlt] at h ⊢
    simpa using h

/-- Clearing bits moves the first clear one down to the lowest of them. -/
lemma firstClear_setAll_false {start : ℕ} (hmem : start ∈ ids)
    (hmin : ∀ i ∈ ids, start ≤ i) (hlt : start < bits.length) :
    firstClear (setAll bits ids false) = min start (firstClear bits) := by
  have hle := firstClear_le_length bits
  refine firstClear_eq ?_ (fun i hi => ?_) (fun _ => ?_)
  · rw [length_setAll]
    omega
  · rw [getElem?_setAll_of_not_mem bits false (fun h => absurd (hmin i h) (by omega))]
    exact getElem?_of_lt_firstClear (by omega)
  · rcases le_total start (firstClear bits) with h | h
    · rw [min_eq_left h]
      exact getElem?_setAll_of_mem false hmem hlt
    · rw [min_eq_right h, getElem?_setAll, getElem?_firstClear (by omega)]
      simp

/-- There is a first clear bit exactly when some bit is clear. -/
lemma firstClear_lt_length_iff : firstClear bits < bits.length ↔ 0 < bits.count false := by
  rw [count_pos_iff]
  constructor
  · exact fun h => mem_of_getElem? (getElem?_firstClear h)
  · intro h
    exact findIdx_lt_length_of_exists ⟨false, h, rfl⟩

end Framework.Bits
