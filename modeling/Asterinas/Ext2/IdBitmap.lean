import Asterinas.Basic
import Asterinas.Framework.Bits

/-!
# Bitmaps of identifiers (`fs/utils/id_bitmap.rs`)

An `IdBitmap` is one block of bits, of which the first `len` stand for identifiers: a set bit is
an identifier in use.  It remembers the first clear bit, from which every search starts, and each
method keeps that position up to date; here this is a field of the structure, so that a bitmap
with a stale position cannot be built.

The bits behind the valid ones are neither read nor written by any method, so `bits` holds the
valid ones only and its length is the `len` of the source.
-/

namespace Asterinas.Ext2

open Framework Framework.Bits

/-- `u16::MAX`. -/
def u16Max : ℕ := 65535

/-- `BLOCK_SIZE` of the `aster_block` crate. -/
def blockSize : ℕ := 4096

/-- `IdBitmap::capacity`. -/
def idCapacity : ℕ := blockSize * 8

/-- `IdBitmap`: the valid bits, with the first clear one remembered. -/
structure IdBitmap where
  /-- The valid bits. -/
  bits : List Bool
  firstAvailableId : ℕ
  /-- `first_available_id` is the first clear bit, or `len` when every bit is set. -/
  first_eq : firstAvailableId = firstClear bits
  len_le : bits.length ≤ idCapacity
deriving DecidableEq

namespace IdBitmap

/-- `IdBitmap::len`: the number of IDs. -/
def len (bm : IdBitmap) : ℕ := bm.bits.length

/-- The position `update_first_available_id` finds: the first clear bit at or after `start`. -/
def firstZeroFrom (bits : List Bool) (start : ℕ) : ℕ := start + firstClear (bits.drop start)

/-- `IdBitmap::is_allocated`: an identifier out of bounds is a panic. -/
def isAllocated (bm : IdBitmap) (id : ℕ) : Option Bool := bm.bits[id]?

/-- The scan of `alloc_consecutive`: `curr` grows over clear bits and starts again behind a set
one, until it has `count` bits or the bits end. -/
def scan (count : ℕ) : List Bool → Range ℕ → Range ℕ
  | [], curr => curr
  | bit :: rest, curr =>
    if curr.len < count then
      if !bit then scan count rest ⟨curr.start, curr.stop + 1⟩
      else scan count rest ⟨curr.stop + 1, curr.stop + 1⟩
    else curr

/-- What the scan keeps of its range: it lies in the bitmap, behind where the scan began, and
holds at most `count` bits, all of them clear. -/
structure Scanned (bits : List Bool) (first count : ℕ) (curr : Range ℕ) : Prop where
  first_le : first ≤ curr.start
  start_le : curr.start ≤ curr.stop
  stop_le : curr.stop ≤ bits.length
  len_le : curr.len ≤ count
  clear : ∀ i ∈ curr.toList, bits[i]? = some false

lemma scan_scanned {first count : ℕ} {bits : List Bool} :
    ∀ {rest : List Bool} {curr : Range ℕ}, rest = bits.drop curr.stop →
      Scanned bits first count curr → Scanned bits first count (scan count rest curr)
  | [], _, _, h => h
  | bit :: rest, curr, hrest, h => by
    have hbit : bits[curr.stop]? = some bit := by
      rw [← List.head?_drop, ← hrest, List.head?_cons]
    have hdrop : rest = bits.drop (curr.stop + 1) := by
      rw [← List.tail_drop, ← hrest, List.tail_cons]
    have hlt : curr.stop < bits.length := (List.getElem?_eq_some_iff.mp hbit).1
    have hstart := h.start_le
    have hfirst := h.first_le
    rw [scan]
    split
    · rename_i hlen
      simp only [Range.len] at hlen
      cases bit with
      | false =>
        refine scan_scanned hdrop
          ⟨hfirst, by simp only; omega, hlt, by simp only [Range.len]; omega, ?_⟩
        intro i hi
        obtain ⟨hge, hle⟩ := Range.mem_toList.mp hi
        rcases lt_or_ge i curr.stop with hi' | hi'
        · exact h.clear i (Range.mem_toList.mpr ⟨hge, hi'⟩)
        · have : i = curr.stop := by simp only at hle; omega
          exact this ▸ hbit
      | true =>
        refine scan_scanned hdrop ⟨by simp only; omega, le_rfl, hlt, by simp [Range.len], ?_⟩
        intro i hi
        obtain ⟨hge, hle⟩ := Range.mem_toList.mp hi
        simp only at hge hle
        omega
    · exact h

variable {bm : IdBitmap}

/-- The range that the scan starts with: the first clear bit alone. -/
lemma scanned_first {count : ℕ} (hcount : count ≠ 0)
    (hlt : bm.firstAvailableId < bm.bits.length) :
    Scanned bm.bits bm.firstAvailableId count ⟨bm.firstAvailableId, bm.firstAvailableId + 1⟩ := by
  refine ⟨le_rfl, Nat.le_succ _, hlt, by simp only [Range.len]; omega, ?_⟩
  intro i hi
  obtain ⟨hge, hle⟩ := Range.mem_toList.mp hi
  obtain rfl : i = bm.firstAvailableId := by simp only at hge hle; omega
  rw [bm.first_eq] at hlt ⊢
  exact getElem?_firstClear hlt

/-- Where `alloc_consecutive` leaves `first_available_id` is the first clear bit again. -/
lemma firstClear_setAll_scanned {count : ℕ} {r : Range ℕ} {bits : List Bool}
    (h : Scanned bits (firstClear bits) count r) :
    (if (setAll bits r.toList true)[firstClear bits]? = some true then
      firstZeroFrom (setAll bits r.toList true) r.stop else firstClear bits) =
      firstClear (setAll bits r.toList true) := by
  split
  · rename_i hset
    -- the first clear bit was set, so it lies in the range, which then starts there
    have hmem : firstClear bits ∈ r.toList := by
      by_contra hmem
      rw [getElem?_setAll_of_not_mem bits true hmem] at hset
      rw [getElem?_firstClear (List.getElem?_eq_some_iff.mp hset).1] at hset
      cases hset
    have hstart := (Range.mem_toList.mp hmem).1
    refine (firstClear_eq_add_drop ?_ fun i hi => ?_).symm
    · rw [length_setAll]
      exact h.stop_le
    · by_cases hi' : i ∈ r.toList
      · exact getElem?_setAll_of_mem true hi' (lt_of_lt_of_le hi h.stop_le)
      · rw [getElem?_setAll_of_not_mem bits true hi']
        rw [Range.mem_toList] at hi'
        exact getElem?_of_lt_firstClear (by have := h.first_le; omega)
  · rename_i hset
    exact (firstClear_setAll_true hset).symm

section

variable (bm : IdBitmap)

/-- The bitmap with a scanned range set. -/
def setRange {count : ℕ} (r : Range ℕ)
    (h : Scanned bm.bits bm.firstAvailableId count r) : IdBitmap where
  bits := setAll bm.bits r.toList true
  firstAvailableId :=
    if (setAll bm.bits r.toList true)[bm.firstAvailableId]? = some true then
      firstZeroFrom (setAll bm.bits r.toList true) r.stop
    else bm.firstAvailableId
  first_eq := by
    rw [bm.first_eq] at h ⊢
    exact firstClear_setAll_scanned h
  len_le := by
    rw [length_setAll]
    exact bm.len_le

/-- `IdBitmap::alloc_consecutive`: the first `count` clear bits in a row. -/
def allocConsecutive (count : ℕ) : Option (Range ℕ × IdBitmap) :=
  if hcount : count = 0 then none
  -- `checked_add` of two `u16`
  else if u16Max < bm.firstAvailableId + count then none
  else if hend : bm.len < bm.firstAvailableId + count then none
  else
    let range := scan count (bm.bits.drop (bm.firstAvailableId + 1))
      ⟨bm.firstAvailableId, bm.firstAvailableId + 1⟩
    if range.len < count then none
    else some (range, bm.setRange range
      (scan_scanned rfl (scanned_first hcount (by simp only [len] at hend; omega))))

/-- `IdBitmap::free`: an identifier that is out of bounds or not in use is a panic. -/
def free (id : ℕ) : Option IdBitmap :=
  if h : bm.bits[id]? = some true then
    some
      { bits := bm.bits.set id false
        firstAvailableId := if id < bm.firstAvailableId then id else bm.firstAvailableId
        first_eq := by
          have hlt := (List.getElem?_eq_some_iff.mp h).1
          have hset : firstClear (setAll bm.bits [id] false) = min id (firstClear bm.bits) :=
            firstClear_setAll_false List.mem_cons_self (by simp) hlt
          rw [setAll_cons, setAll_nil] at hset
          rw [hset, bm.first_eq]
          split <;> omega
        len_le := by
          rw [List.length_set]
          exact bm.len_le }
  else none

/-- `IdBitmap::free_consecutive`: every identifier of the range has to be in use. -/
def freeConsecutive (range : Range ℕ) : Option IdBitmap :=
  if hempty : range.isEmpty then some bm
  else if h : ∀ id ∈ range.toList, bm.bits[id]? = some true then
    some
      { bits := setAll bm.bits range.toList false
        firstAvailableId :=
          if range.start < bm.firstAvailableId then range.start else bm.firstAvailableId
        first_eq := by
          have hmem : range.start ∈ range.toList := by
            simp only [Range.isEmpty, decide_eq_true_eq, not_le] at hempty
            exact Range.mem_toList.mpr ⟨le_rfl, hempty⟩
          have hlt := (List.getElem?_eq_some_iff.mp (h _ hmem)).1
          rw [firstClear_setAll_false hmem (fun i hi => (Range.mem_toList.mp hi).1) hlt,
            bm.first_eq]
          split <;> omega
        len_le := by
          rw [length_setAll]
          exact bm.len_le }
  else none

end

/-! ### What the methods do to the bits -/

/-- `alloc_consecutive` returns clear bits in a row, as many as asked for, and sets them. -/
lemma allocConsecutive_eq_some {count : ℕ} {r : Range ℕ} {bm bm' : IdBitmap}
    (h : bm.allocConsecutive count = some (r, bm')) :
    0 < count ∧ r.stop = r.start + count ∧ r.stop ≤ bm.len ∧
      (∀ i ∈ r.toList, bm.bits[i]? = some false) ∧ bm'.bits = setAll bm.bits r.toList true := by
  unfold allocConsecutive at h
  split at h
  · cases h
  rename_i hcount
  split at h
  · cases h
  split at h
  · cases h
  rename_i hend
  rw [len] at hend
  dsimp only at h
  split at h
  · cases h
  rename_i hlen
  have hfirst : bm.firstAvailableId < bm.bits.length := by omega
  have hscan := scan_scanned rfl (scanned_first hcount hfirst)
  obtain ⟨rfl, rfl⟩ := Prod.mk.injEq .. ▸ Option.some.inj h
  refine ⟨pos_of_ne_zero hcount, ?_, hscan.stop_le, hscan.clear, rfl⟩
  have hle := hscan.len_le
  have hstart := hscan.start_le
  simp only [Range.len] at hle hlen
  omega

/-- A single identifier is found as long as a bit is clear. -/
lemma allocConsecutive_one (h : 0 < bm.bits.count false) :
    ∃ r bm', bm.allocConsecutive 1 = some (r, bm') := by
  rw [← firstClear_lt_length_iff, ← bm.first_eq] at h
  have hlen := bm.len_le
  have hcap : idCapacity = 32768 := rfl
  have hscan : scan 1 (bm.bits.drop (bm.firstAvailableId + 1))
      ⟨bm.firstAvailableId, bm.firstAvailableId + 1⟩ =
      ⟨bm.firstAvailableId, bm.firstAvailableId + 1⟩ := by
    cases bm.bits.drop (bm.firstAvailableId + 1) <;> simp [scan, Range.len]
  unfold allocConsecutive
  rw [dif_neg one_ne_zero, if_neg (by unfold u16Max; omega), dif_neg (by rw [len]; omega)]
  rw [if_neg (by rw [hscan]; simp [Range.len])]
  exact ⟨_, _, rfl⟩

lemma free_of_allocated {id : ℕ} (h : bm.bits[id]? = some true) :
    ∃ bm', bm.free id = some bm' ∧ bm'.bits = bm.bits.set id false := by
  unfold free
  rw [dif_pos h]
  exact ⟨_, rfl, rfl⟩

end IdBitmap

end Asterinas.Ext2
