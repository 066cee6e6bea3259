import Asterinas.FrameAllocator.Balancing

/-!
# Splitting a range into chunks (`chunk.rs`)

`split_to_chunks` takes the largest chunk that starts where the range does and fits, again and
again.  Sums of addresses wrap.
-/

namespace Asterinas.FrameAllocator

/-- The trailing zeros of an address, less those of the page size. -/
def maxOrderFrom (addr : ℕ) : ℕ := Nat.findGreatest (2 ^ · ∣ addr) 64 - 12

lemma sizeOfOrder_eq (order : ℕ) : sizeOfOrder order = 2 ^ (order + 12) := by
  rw [sizeOfOrder, Nat.one_shiftLeft, pow_add]
  rfl

lemma sizeOfOrder_pos (order : ℕ) : 0 < sizeOfOrder order :=
  sizeOfOrder_eq order ▸ Nat.two_pow_pos _

/-- The iterator `SplitChunks`, run to its end. -/
def chunksFrom (addr size : ℕ) : Option (List (ℕ × ℕ)) :=
  if size = 0 then some []
  else do
    let order := min (maxOrderFrom addr) (← lesserOrderOf size)
    let rest ← chunksFrom ((addr + sizeOfOrder order) % 2 ^ 64) (size - sizeOfOrder order)
    some ((addr, order) :: rest)
termination_by size
decreasing_by exact Nat.sub_lt (pos_of_ne_zero ‹_›) (sizeOfOrder_pos _)

/-- `split_to_chunks`: the chunks of an aligned range of memory, one after the other; `none` is a
panic. -/
def splitToChunks (addr size : ℕ) : Option (List (ℕ × ℕ)) :=
  if addr % pageSize = 0 ∧ size % pageSize = 0 then chunksFrom addr size else none

/-- The chunks lie side by side from the address on and make up the size, and each is aligned to
its own size. -/
inductive Chunks : ℕ → ℕ → List (ℕ × ℕ) → Prop
  | nil {addr : ℕ} : Chunks addr 0 []
  | cons {order addr size : ℕ} {rest : List (ℕ × ℕ)} :
      sizeOfOrder order ∣ addr → sizeOfOrder order ≤ size →
      Chunks (addr + sizeOfOrder order) (size - sizeOfOrder order) rest →
      Chunks addr size ((addr, order) :: rest)

lemma sizeOfOrder_dvd {order order' : ℕ} (h : order ≤ order') :
    sizeOfOrder order ∣ sizeOfOrder order' := by
  rw [sizeOfOrder_eq, sizeOfOrder_eq]
  exact pow_dvd_pow 2 (Nat.add_le_add_right h 12)

/-- The iterator takes the largest chunk at the address. -/
lemma le_order_iff {addr size k : ℕ} (haddr : pageSize ∣ addr) (hsize : size / pageSize ≠ 0)
    (hlt : size < 2 ^ 64) : k ≤ min (maxOrderFrom addr) (size / pageSize).log2 ↔
      sizeOfOrder k ∣ addr ∧ sizeOfOrder k ≤ size := by
  have hfits : k ≤ (size / pageSize).log2 ↔ sizeOfOrder k ≤ size := by
    rw [Nat.le_log2 hsize, Nat.le_div_iff_mul_le pageSize_pos, sizeOfOrder, Nat.one_shiftLeft]
  rw [le_min_iff, hfits, and_congr_left_iff, sizeOfOrder_eq]
  intro hk
  have hk64 : k + 12 ≤ 64 := (Nat.pow_le_pow_iff_right (by omega)).mp (hk.trans hlt.le)
  have haligned : 12 ≤ Nat.findGreatest (2 ^ · ∣ addr) 64 := Nat.le_findGreatest (by omega) haddr
  constructor
  · intro h
    rw [maxOrderFrom] at h
    exact (pow_dvd_pow 2 (by omega)).trans
      (Nat.findGreatest_spec (P := (2 ^ · ∣ addr)) (show 12 ≤ 64 by omega) haddr)
  · exact fun h => Nat.le_sub_of_add_le (Nat.le_findGreatest hk64 h)

/-- A cover that does not start with a larger chunk has a chunk that ends where this one does. -/
lemma Chunks.behind {b size k addr : ℕ} {other : List (ℕ × ℕ)} (h : Chunks b size other)
    (hdvd : sizeOfOrder k ∣ addr) (hle : addr ≤ b) (hlt : b < addr + sizeOfOrder k)
    (hend : addr + sizeOfOrder k ≤ b + size)
    (hmax : ∀ j, sizeOfOrder j ∣ addr → sizeOfOrder j ≤ size → b = addr → j ≤ k) :
    ∃ rest, Chunks (addr + sizeOfOrder k) (b + size - (addr + sizeOfOrder k)) rest ∧
      rest.length < other.length := by
  induction h with
  | nil => omega
  | @cons order b size rest hb hfits htail ih =>
    have hchunk : b + sizeOfOrder order ≤ addr + sizeOfOrder k := by
      rcases le_total order k with hord | hord
      · have hd := Nat.dvd_sub (dvd_add ((sizeOfOrder_dvd hord).trans hdvd) (sizeOfOrder_dvd hord))
          hb
        have := Nat.le_of_dvd (by omega) hd
        omega
      · have hd := Nat.dvd_sub ((sizeOfOrder_dvd hord).trans hb) hdvd
        have heq : b = addr := by
          have := Nat.eq_zero_of_dvd_of_lt hd (by omega)
          omega
        subst heq
        rw [le_antisymm (hmax order hb hfits rfl) hord]
    rcases hchunk.eq_or_lt with heq | hlt'
    · refine ⟨rest, ?_, lt_add_one _⟩
      rw [← heq, Nat.add_sub_add_left]
      exact htail
    · have hpos := sizeOfOrder_pos order
      obtain ⟨rest', hrest, hlen⟩ := ih (by omega) hlt' (by omega) fun j _ _ heq => by omega
      refine ⟨rest', ?_, hlen.trans (lt_add_one _)⟩
      rwa [add_assoc b, Nat.add_sub_cancel' hfits] at hrest

/-- **Splitting into chunks.** A range of pages inside the address space is split, and no other
cover by chunks has fewer of them. -/
theorem splitToChunks_least {addr size : ℕ} (haddr : pageSize ∣ addr) (hsize : pageSize ∣ size)
    (hend : addr + size < 2 ^ 64) :
    ∃ chunks, splitToChunks addr size = some chunks ∧ Chunks addr size chunks ∧
      ∀ other, Chunks addr size other → chunks.length ≤ other.length := by
  rw [splitToChunks, if_pos ⟨Nat.mod_eq_zero_of_dvd haddr, Nat.mod_eq_zero_of_dvd hsize⟩]
  induction size using Nat.strongRecOn generalizing addr with
  | ind size ih =>
    rw [chunksFrom]
    split
    · next h => exact ⟨[], rfl, h ▸ .nil, fun _ _ => zero_le⟩
    · next h =>
      have hpages : size / pageSize ≠ 0 := fun h0 => h (Nat.eq_zero_of_dvd_of_div_eq_zero hsize h0)
      have hiff := fun k => le_order_iff (k := k) haddr hpages (by omega)
      rw [lesserOrderOf, if_neg hpages]
      generalize horder : min (maxOrderFrom addr) (size / pageSize).log2 = order at hiff
      obtain ⟨hdvd, hle⟩ := (hiff order).mp le_rfl
      have hpos := sizeOfOrder_pos order
      have hpage : pageSize ∣ sizeOfOrder order := sizeOfOrder_dvd zero_le
      obtain ⟨rest, hrest, hchunks, hleast⟩ := ih _ (Nat.sub_lt (pos_of_ne_zero h) hpos)
        (dvd_add haddr hpage) (Nat.dvd_sub hsize hpage) (by omega)
      refine ⟨(addr, order) :: rest, ?_, .cons hdvd hle hchunks, fun other hother => ?_⟩
      · have hmod := Nat.mod_eq_of_lt (show addr + sizeOfOrder order < 2 ^ 64 by omega)
        simp only [horder, hmod, hrest, Option.bind_eq_bind, Option.bind_some]
      · obtain ⟨rest', hrest', hlen⟩ := hother.behind hdvd le_rfl (by omega) (by omega)
          fun j hj hjs _ => (hiff j).mpr ⟨hj, hjs⟩
        rw [Nat.add_sub_add_left] at hrest'
        exact (Nat.succ_le_succ (hleast _ hrest')).trans hlen

theorem splitToChunks_least_pages :
    ∃ chunks, splitToChunks 0x3000 0x6000 = some chunks ∧ Chunks 0x3000 0x6000 chunks ∧
      ∀ other, Chunks 0x3000 0x6000 other → chunks.length ≤ other.length :=
  splitToChunks_least (by decide) (by decide) (by decide)

/-- Behind the last page of the address space comes the first one. -/
theorem splitToChunks_wraps :
    splitToChunks (2 ^ 64 - pageSize) (2 * pageSize) = some [(2 ^ 64 - pageSize, 0), (0, 0)] := by
  decide +kernel

end Asterinas.FrameAllocator
