import Asterinas.Basic
import Asterinas.Framework.OrderedMap

/-!
# Interval sets (`interval_set.rs`)

`IntervalSet` keeps items that occupy a range of keys in a B-tree map, each under the start of its
range.  The searches look at the neighbours of a key only, so they are right as long as the ranges
are nonempty, pairwise disjoint and stored under their own start; `WellFormed` says so, and the
lemmas after it say what each search finds in a well-formed set.
-/

namespace Asterinas.Vmar

open Framework OrderedMap List

/-- The `Interval` trait: an item with the range it occupies. -/
class Interval (K : outParam Type) (V : Type) where
  range : V → Range K

export Interval (range)

/-- `IntervalSet`: values that stand for ranges, by the starts of the ranges. -/
structure IntervalSet (K V : Type) [LinearOrder K] [Interval K V] where
  btree : OrderedMap K V
deriving DecidableEq

namespace IntervalSet

variable {K V : Type} [LinearOrder K] [Interval K V]

/-- `IntervalSet::new`: no ranges. -/
def new : IntervalSet K V := ⟨.empty⟩

section

variable (s : IntervalSet K V)

/-- `IntervalSet::insert`: a value comes in at the start of its range. -/
def insert (item : V) : IntervalSet K V :=
  ⟨s.btree.insert (range item).start item⟩

/-- `IntervalSet::remove`: the removed item and the set without it. -/
def remove (key : K) : Option V × IntervalSet K V :=
  (s.btree.get? key, ⟨s.btree.erase key⟩)

/-- `IntervalSet::iter`: all values in the order of their starts. -/
def iter : List V := s.btree.values

/-- `IntervalSet::find_one`: the item that contains the point.  Only the last item that starts at
or before the point can. -/
def findOne (point : K) : Option V :=
  (s.btree.lastWhere (· ≤ point)).filter (fun v => point < (range v).stop)

/-- `IntervalSet::find` with the `IntervalIter` it returns run to its end: the last item that
starts at or before the range, if it reaches into it, then the items that start inside it. -/
def find (r : Range K) : List V :=
  ((s.btree.lastWhere (· ≤ r.start)).filter (fun v => r.start < (range v).stop)).toList ++
    (s.btree.above r.start).takeWhile (fun v => (range v).start < r.stop)

/-- `IntervalSet::find_prev`: the last item that starts before the point. -/
def findPrev (point : K) : Option V := s.btree.lastWhere (· < point)

/-- `IntervalSet::find_next`: the first item that starts after the point. -/
def findNext (point : K) : Option V := (s.btree.above point).head?

/-- Every item is stored under the start of its range, no range is empty, and no two overlap. -/
structure WellFormed (s : IntervalSet K V) : Prop where
  keyed : ∀ e ∈ s.btree.entries, e.1 = (range e.2).start
  nonempty : ∀ e ∈ s.btree.entries, (range e.2).start < (range e.2).stop
  apart : ∀ a ∈ s.btree.entries, ∀ b ∈ s.btree.entries, a.1 ≠ b.1 → (range a.2).Apart (range b.2)

/-- The range meets no item of the set. -/
def Free (r : Range K) : Prop :=
  ∀ v ∈ s.iter, (range v).Apart r

end

variable {s : IntervalSet K V} {r : Range K} {item v : V} {key point : K}

lemma mem_iter : v ∈ s.iter ↔ ∃ k, (k, v) ∈ s.btree.entries := mem_values

@[simp] lemma iter_new : (new : IntervalSet K V).iter = [] := rfl

lemma wellFormed_new : (new : IntervalSet K V).WellFormed where
  keyed := by simp [new]
  nonempty := by simp [new]
  apart := by simp [new]

namespace WellFormed

section

variable (h : s.WellFormed)

include h

/-- In a well-formed set an item determines its key. -/
lemma mem_entries (hv : v ∈ s.iter) : ((range v).start, v) ∈ s.btree.entries := by
  obtain ⟨k, hk⟩ := mem_iter.mp hv
  exact h.keyed _ hk ▸ hk

lemma start_lt_stop (hv : v ∈ s.iter) : (range v).start < (range v).stop :=
  h.nonempty _ (h.mem_entries hv)

/-- Two items are the same or do not overlap. -/
lemma eq_or_apart {w : V} (hv : v ∈ s.iter) (hw : w ∈ s.iter) :
    v = w ∨ (range v).Apart (range w) := by
  by_cases hk : (range v).start = (range w).start
  · exact .inl (congrArg Prod.snd (eq_of_mem_of_key_eq (h.mem_entries hv) (h.mem_entries hw) hk))
  · exact .inr (h.apart _ (h.mem_entries hv) _ (h.mem_entries hw) hk)

/-- A nonempty item that meets no other may be inserted. -/
lemma insert (hne : (range item).start < (range item).stop)
    (hfree : s.Free (range item)) : (s.insert item).WellFormed where
  keyed := by
    intro e he
    rcases mem_entries_insert.mp he with rfl | he
    · rfl
    · exact h.keyed e he.1
  nonempty := by
    intro e he
    rcases mem_entries_insert.mp he with rfl | he
    · exact hne
    · exact h.nonempty e he.1
  apart := by
    intro a ha b hb hab
    have free : ∀ e ∈ s.btree.entries, (range e.2).Apart (range item) :=
      fun e he => hfree e.2 (mem_iter.mpr ⟨e.1, he⟩)
    rcases mem_entries_insert.mp ha with rfl | ha <;> rcases mem_entries_insert.mp hb with rfl | hb
    · exact absurd rfl hab
    · exact (free b hb.1).symm
    · exact free a ha.1
    · exact h.apart a ha.1 b hb.1 hab

lemma remove (key : K) : (s.remove key).2.WellFormed where
  keyed := fun e he => h.keyed e (mem_entries_erase.mp he).1
  nonempty := fun e he => h.nonempty e (mem_entries_erase.mp he).1
  apart := fun a ha b hb => h.apart a (mem_entries_erase.mp ha).1 b (mem_entries_erase.mp hb).1

/-! ### What the searches find -/

lemma remove_eq_some : (s.remove key).1 = some v ↔ v ∈ s.iter ∧ (range v).start = key := by
  show s.btree.get? key = some v ↔ _
  rw [get?_eq_some]
  constructor
  · intro hv
    exact ⟨mem_iter.mpr ⟨key, hv⟩, (h.keyed _ hv).symm⟩
  · rintro ⟨hv, rfl⟩
    exact h.mem_entries hv

lemma mem_iter_remove : v ∈ (s.remove key).2.iter ↔ v ∈ s.iter ∧ (range v).start ≠ key := by
  constructor
  · intro hv
    obtain ⟨k, hk⟩ := mem_iter.mp hv
    obtain ⟨hk, hne⟩ := mem_entries_erase.mp hk
    exact ⟨mem_iter.mpr ⟨k, hk⟩, h.keyed _ hk ▸ hne⟩
  · rintro ⟨hv, hne⟩
    exact mem_iter.mpr ⟨_, mem_entries_erase.mpr ⟨h.mem_entries hv, hne⟩⟩

section

variable (hne : (range item).start < (range item).stop) (hfree : s.Free (range item))

include hne hfree

/-- An item that meets no other starts where no other starts. -/
lemma start_ne_of_free (hv : v ∈ s.iter) : (range v).start ≠ (range item).start := by
  intro heq
  have hvne := h.start_lt_stop hv
  rcases hfree v hv with hle | hle
  · exact absurd hvne (not_lt.mpr (heq ▸ hle))
  · exact absurd hne (not_lt.mpr (heq ▸ hle))

lemma iter_insert_perm : (s.insert item).iter.Perm (item :: s.iter) := by
  refine values_insert_perm fun e he => ?_
  rw [h.keyed e he]
  exact h.start_ne_of_free hne hfree (mem_iter.mpr ⟨e.1, he⟩)

end

lemma iter_remove_perm (hv : v ∈ s.iter) : s.iter.Perm (v :: (s.remove (range v).start).2.iter) :=
  values_erase_perm (h.mem_entries hv)

lemma findOne_eq_some :
    s.findOne point = some v ↔ v ∈ s.iter ∧ (range v).start ≤ point ∧ point < (range v).stop := by
  unfold findOne
  constructor
  · intro hf
    obtain ⟨hlast, hstop⟩ := Option.filter_eq_some_iff.mp hf
    obtain ⟨k, hk, hle, -⟩ := lastWhere_eq_some hlast
    have hkey := h.keyed _ hk
    exact ⟨mem_iter.mpr ⟨k, hk⟩, hkey ▸ by simpa using hle, by simpa using hstop⟩
  · rintro ⟨hv, hle, hlt⟩
    have hmem := h.mem_entries hv
    cases hlast : s.btree.lastWhere (· ≤ point) with
    | none => exact absurd hle (by simpa using lastWhere_eq_none.mp hlast _ hmem)
    | some w =>
      obtain ⟨k, hk, hkle, hmax⟩ := lastWhere_eq_some hlast
      have hkey := h.keyed _ hk
      have hle' := hmax _ hmem (by simpa using hle)
      -- the last item that starts before the point starts inside `v`, so it is `v`
      have hw : v = w := by
        rcases h.eq_or_apart hv (mem_iter.mpr ⟨k, hk⟩) with heq | hap
        · exact heq
        · have hkw := h.nonempty _ hk
          simp only at hkey hle' hkle hkw
          rcases hap with hap | hap
          · have : point < k := hlt.trans_le (hkey ▸ hap)
            exact absurd (by simpa using hkle) (not_le.mpr this)
          · have : k < (range v).start := (hkey ▸ hkw).trans_le hap
            exact absurd hle' (not_le.mpr this)
      subst hw
      simpa using hlt

/-- The two parts of `find`: the item around the start of the range, and the items that start
inside it. -/
lemma mem_find_iff :
    v ∈ s.find r ↔ v ∈ s.iter ∧
      (((range v).start ≤ r.start ∧ r.start < (range v).stop) ∨
        (r.start < (range v).start ∧ (range v).start < r.stop)) := by
  have htake : v ∈ (s.btree.above r.start).takeWhile (fun v => (range v).start < r.stop) ↔
      v ∈ s.btree.above r.start ∧ (range v).start < r.stop := by
    refine (mem_takeWhile_above ?_).trans (by simp)
    intro a ha b hb hlt hb'
    have : (range b.2).start < r.stop := by simpa using hb'
    simpa using (h.keyed a ha ▸ h.keyed b hb ▸ hlt).trans this
  have hprev : v ∈ ((s.btree.lastWhere (· ≤ r.start)).filter
      (fun v => r.start < (range v).stop)).toList ↔
      v ∈ s.iter ∧ (range v).start ≤ r.start ∧ r.start < (range v).stop := by
    rw [Option.mem_toList]
    exact h.findOne_eq_some
  have habove : v ∈ s.btree.above r.start ↔ v ∈ s.iter ∧ r.start < (range v).start := by
    rw [mem_above]
    constructor
    · rintro ⟨k, hlt, hk⟩
      exact ⟨mem_iter.mpr ⟨k, hk⟩, h.keyed _ hk ▸ hlt⟩
    · rintro ⟨hv, hlt⟩
      exact ⟨_, hlt, h.mem_entries hv⟩
  rw [find, mem_append, htake, hprev, habove, and_assoc, ← and_or_left]

/-- `find` yields exactly the items that meet a nonempty range. -/
lemma mem_find (hr : r.start < r.stop) : v ∈ s.find r ↔ v ∈ s.iter ∧ ¬ (range v).Apart r := by
  rw [h.mem_find_iff, Range.not_apart_iff]
  refine and_congr_right fun hv => ?_
  constructor
  · rintro (⟨hle, hlt⟩ | ⟨hlt, hstop⟩)
    · exact ⟨hlt, hle.trans_lt hr⟩
    · exact ⟨hlt.trans (h.start_lt_stop hv), hstop⟩
  · rintro ⟨hlt, hstop⟩
    rcases le_or_gt (range v).start r.start with hle | hgt
    · exact .inl ⟨hle, hlt⟩
    · exact .inr ⟨hgt, hstop⟩

/-- No item that reaches into a range is missed, even by an empty range. -/
lemma mem_find_of_not_apart (hv : v ∈ s.iter) (hap : ¬ (range v).Apart r) : v ∈ s.find r := by
  obtain ⟨hlt, hstop⟩ := Range.not_apart_iff.mp hap
  refine h.mem_find_iff.mpr ⟨hv, ?_⟩
  rcases le_or_gt (range v).start r.start with hle | hgt
  · exact .inl ⟨hle, hlt⟩
  · exact .inr ⟨hgt, hstop⟩

/-- A range in which `find` finds nothing is free. -/
lemma free_of_find_eq_nil (hf : s.find r = []) : s.Free r := by
  intro v hv
  by_contra hap
  have := h.mem_find_of_not_apart hv hap
  simp [hf] at this

/-- `find` yields the items in ascending order. -/
lemma find_pairwise (r : Range K) :
    (s.find r).Pairwise (fun a b => (range a).start < (range b).start) := by
  have habove :
      (s.btree.above r.start).Pairwise (fun a b => (range a).start < (range b).start) := by
    refine pairwise_map.mpr ((s.btree.sorted.filter _).imp_of_mem fun {a b} ha hb hlt => ?_)
    rw [← h.keyed a (mem_filter.mp ha).1, ← h.keyed b (mem_filter.mp hb).1]
    exact hlt
  refine pairwise_append.mpr ⟨?_, habove.sublist (takeWhile_sublist _), ?_⟩
  · cases (s.btree.lastWhere (· ≤ r.start)).filter (fun v => r.start < (range v).stop) <;> simp
  · intro a ha b hb
    obtain ⟨-, hle, -⟩ := h.findOne_eq_some.mp (Option.mem_toList.mp ha)
    obtain ⟨k, hlt, hk⟩ := mem_above.mp ((takeWhile_sublist _).subset hb)
    exact hle.trans_lt (h.keyed _ hk ▸ hlt)

/-- The items come in the order of their ranges. -/
lemma iter_pairwise : s.iter.Pairwise (fun a b => (range a).stop ≤ (range b).start) := by
  refine pairwise_map.mpr (s.btree.sorted.imp_of_mem fun {a b} ha hb hlt => ?_)
  have hlt' : (range a.2).start < (range b.2).start := h.keyed a ha ▸ h.keyed b hb ▸ hlt
  rcases h.apart a ha b hb hlt.ne with hap | hap
  · exact hap
  · exact absurd ((h.nonempty b hb).trans_le hap) (not_lt.mpr hlt'.le)

lemma findPrev_eq_some (hf : s.findPrev point = some v) : v ∈ s.iter ∧ (range v).start < point := by
  obtain ⟨k, hk, hlt, -⟩ := lastWhere_eq_some hf
  have hkey := h.keyed _ hk
  exact ⟨mem_iter.mpr ⟨k, hk⟩, hkey ▸ by simpa using hlt⟩

lemma findNext_eq_some (hf : s.findNext point = some v) : v ∈ s.iter ∧ point < (range v).start := by
  obtain ⟨k, hlt, hk⟩ := mem_above.mp (mem_of_head? hf)
  have hkey := h.keyed _ hk
  exact ⟨mem_iter.mpr ⟨k, hk⟩, hkey ▸ hlt⟩

end

end WellFormed

/-- **The searches of an interval set.** `find` yields the items that meet the range, in ascending
order, and `find_one` the item around the point. -/
theorem find_findOne_exact (h : s.WellFormed) (hr : r.start < r.stop) (point : K) :
    (∀ v, v ∈ s.find r ↔ v ∈ s.iter ∧ ¬ (range v).Apart r) ∧
      (s.find r).Pairwise (fun a b => (range a).start < (range b).start) ∧
      ∀ v, s.findOne point = some v ↔
        v ∈ s.iter ∧ (range v).start ≤ point ∧ point < (range v).stop :=
  ⟨fun _ => h.mem_find hr, h.find_pairwise r, fun _ => h.findOne_eq_some⟩

instance : Interval ℕ (Range ℕ) := ⟨id⟩

/-- The query reaches from the first of three ranges into the second. -/
theorem find_findOne_exact_ranges :
    let s : IntervalSet ℕ (Range ℕ) := ((new.insert ⟨0, 2⟩).insert ⟨3, 5⟩).insert ⟨6, 8⟩
    s.find ⟨1, 4⟩ = [⟨0, 2⟩, ⟨3, 5⟩] ∧ s.findOne 5 = none ∧
      ∀ v, v ∈ s.find ⟨1, 4⟩ ↔ v ∈ s.iter ∧ ¬ (range v).Apart ⟨1, 4⟩ :=
  ⟨by decide, by decide,
    (find_findOne_exact ⟨by decide, by decide, by decide⟩ (by decide) 5).1⟩

end IntervalSet

end Asterinas.Vmar
