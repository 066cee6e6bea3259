import Mathlib.Algebra.Order.Floor.Div
import Mathlib.Tactic

/-!
# The levels of a tree with `N` branches

A tree over `n` leaves that is filled from the left has `⌈n / N ^ h⌉` nodes at level `h`.
-/

namespace Framework

/-- The number of nodes at level `h` over `n` leaves. -/
def levelCount (N n h : ℕ) : ℕ := n ⌈/⌉ N ^ h

variable {N n h c : ℕ}

@[simp] lemma levelCount_zero : levelCount N n 0 = n := by simp [levelCount]

variable [NeZero N]

lemma branches_pow_pos : 0 < N ^ h := pow_pos (Nat.pos_of_neZero N) h

lemma levelCount_le_iff : levelCount N n h ≤ c ↔ n ≤ c * N ^ h := by
  rw [mul_comm]
  exact ceilDiv_le_iff_le_mul branches_pow_pos

lemma lt_levelCount_iff : c < levelCount N n h ↔ c * N ^ h < n := by
  rw [← not_le, ← not_le, levelCount_le_iff]

/-- A level has a node for every `N` nodes of the level below. -/
lemma ceilDiv_levelCount : levelCount N n h ⌈/⌉ N = levelCount N n (h + 1) := by
  refine eq_of_forall_ge_iff fun k => ?_
  rw [ceilDiv_le_iff_le_mul (Nat.pos_of_neZero N), levelCount_le_iff, levelCount_le_iff, pow_succ',
    mul_comm N, mul_assoc]

lemma levelCount_of_dvd (h' : N ^ h ∣ n) : levelCount N n h = n / N ^ h := by
  obtain ⟨k, rfl⟩ := h'
  rw [Nat.mul_div_cancel_left k branches_pow_pos, mul_comm]
  refine eq_of_forall_ge_iff fun c => ?_
  rw [levelCount_le_iff, Nat.mul_le_mul_right_iff branches_pow_pos]

lemma levelCount_of_not_dvd (h' : ¬ N ^ h ∣ n) : levelCount N n h = n / N ^ h + 1 := by
  have hmod : n % N ^ h ≠ 0 := fun h0 => h' (Nat.dvd_of_mod_eq_zero h0)
  have hdiv := Nat.div_add_mod' n (N ^ h)
  have hlt := Nat.mod_lt n (branches_pow_pos (N := N) (h := h))
  refine le_antisymm (levelCount_le_iff.mpr ?_) (lt_levelCount_iff.mpr ?_)
  · rw [add_mul]
    omega
  · omega

lemma div_le_levelCount : n / N ^ h ≤ levelCount N n h :=
  Nat.div_le_of_le_mul (mul_comm _ (N ^ h) ▸ levelCount_le_iff.mp le_rfl)

/-- Where a level divides the leaves, so does the level below. -/
lemma div_pow_succ_mul (h' : N ^ (h + 1) ∣ n) : n / N ^ (h + 1) * N = n / N ^ h := by
  obtain ⟨k, rfl⟩ := h'
  rw [Nat.mul_div_cancel_left k branches_pow_pos, pow_succ, mul_assoc,
    Nat.mul_div_cancel_left _ branches_pow_pos, mul_comm]

/-- What is left of `x` after whole groups of `N` have been taken from it. -/
lemma ceilDiv_sub_mul (x s : ℕ) : (x - s * N) ⌈/⌉ N = x ⌈/⌉ N - s := by
  have hN := Nat.pos_of_neZero N
  refine eq_of_forall_ge_iff fun c => ?_
  rw [ceilDiv_le_iff_le_mul hN, Nat.sub_le_iff_le_add, Nat.sub_le_iff_le_add,
    ceilDiv_le_iff_le_mul hN, mul_add, mul_comm s N]

end Framework
