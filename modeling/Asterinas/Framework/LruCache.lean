import Mathlib.Data.List.Induction
import Mathlib.Data.List.Nodup

/-!
# Caches that evict the least recently used key

The keys of a cache of bounded size, in the order of their last use, and what is in the cache after
a sequence of uses.
-/

namespace Framework

open List

/-- The keys of a cache with room for `cap` of them, from the most to the least recently used
one. -/
structure LruCache (K : Type) (cap : ℕ) where
  keys : List K
  nodup : keys.Nodup
  length_le : keys.length ≤ cap

namespace LruCache

variable {K : Type} {cap : ℕ}

/-- The cache in which nothing is. -/
def empty : LruCache K cap := ⟨[], nodup_nil, Nat.zero_le _⟩

variable [DecidableEq K]

/-- Use a key.  One that is not in the cache is put there, and the last key leaves a cache that is
full. -/
def use (c : LruCache K cap) (k : K) : LruCache K cap where
  keys := (k :: c.keys.erase k).take cap
  nodup := (nodup_cons.mpr ⟨c.nodup.not_mem_erase, c.nodup.erase k⟩).take
  length_le := length_take_le _ _

lemma keys_use (c : LruCache K cap) (k : K) : (c.use k).keys = (k :: c.keys.erase k).take cap := rfl

/-- To erase a key from the first `n + 1` elements takes the last of them in when `n` are looked
at. -/
lemma take_erase_take (l : List K) (k : K) (n : ℕ) :
    ((l.take (n + 1)).erase k).take n = (l.erase k).take n := by
  induction l generalizing n with
  | nil => rfl
  | cons x l ih =>
    rw [take_succ_cons, erase_cons, erase_cons]
    split
    · rw [take_take, Nat.min_self]
    · cases n with
      | zero => rw [take_zero, take_zero]
      | succ n => rw [take_succ_cons, take_succ_cons, ih]

/-- After distinct keys have been used, they are in the cache from the last to the first one, and
the keys of before stand behind them, as far as there is room. -/
lemma keys_foldl_use (c : LruCache K cap) {l : List K} (h : l.Nodup) :
    (l.foldl use c).keys = (l.reverse ++ c.keys.filter (· ∉ l)).take cap := by
  induction l using reverseRecOn with
  | nil => simpa using (take_of_length_le c.length_le).symm
  | append_singleton l k ih =>
    obtain ⟨hl, -, hk⟩ := nodup_append.mp h
    have hkl : k ∉ l := fun hmem => hk k hmem k mem_cons_self rfl
    have herase : (l.reverse ++ c.keys.filter (· ∉ l)).erase k =
        l.reverse ++ c.keys.filter (· ∉ l ++ [k]) := by
      rw [erase_append_right _ (by rwa [mem_reverse]), (c.nodup.filter _).erase_eq_filter,
        filter_filter]
      congr 1
      refine filter_congr fun x _ => ?_
      rw [Bool.eq_iff_iff]
      simp [and_comm]
    rw [foldl_append, foldl_cons, foldl_nil, keys_use, ih hl, reverse_append, reverse_singleton,
      singleton_append, cons_append, ← herase]
    cases cap with
    | zero => rw [take_zero, take_zero]
    | succ n => rw [take_succ_cons, take_succ_cons, take_erase_take]

end LruCache

end Framework
