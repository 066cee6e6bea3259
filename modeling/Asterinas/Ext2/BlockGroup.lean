import Asterinas.Ext2.IdBitmap
import Asterinas.Framework.Exec

/-!
# Block groups (`block_group.rs`)

A block group owns a run of consecutive blocks of the volume with a bitmap for them, an inode
bitmap, and a descriptor that holds the places of the two bitmaps and of the inode table and the
counters of free blocks, free inodes and directories.  The bitmaps and the descriptor are kept in
memory with a dirty flag each.

The methods run under the lock of the group, so they are programs over the group alone.  The
values of a `BlockGroup` that the allocation of blocks relies on are collected in
`BlockGroup.Consistent`; a method's lemma says what it returns and what it leaves behind.
-/

namespace Asterinas.Ext2

open Framework Exec Framework.Bits Range

/-- `Dirty`: a value that remembers whether it has been borrowed mutably since it was written
back. -/
structure Dirty (α : Type) where
  value : α
  dirty : Bool
deriving DecidableEq

namespace Dirty

variable {α : Type}

/-- `Dirty::new`: a value as it is on the device. -/
def new (value : α) : Dirty α := ⟨value, false⟩

/-- `deref_mut` followed by a change of the value. -/
def set (_ : Dirty α) (value : α) : Dirty α := ⟨value, true⟩

end Dirty

/-- `BlockGroupDesc`: where the bitmaps and the inodes of a group are, and its counters. -/
structure BlockGroupDesc where
  blockBitmapBid : ℕ
  inodeBitmapBid : ℕ
  inodeTableBid : ℕ
  freeBlocksCount : ℕ
  freeInodesCount : ℕ
  usedDirsCount : ℕ
deriving DecidableEq

/-- `BlockGroup`, with the fields of `BlockGroupMetadata`. -/
structure BlockGroup where
  groupIdx : ℕ
  desc : Dirty BlockGroupDesc
  blockBitmap : Dirty IdBitmap
  inodeBitmap : Dirty IdBitmap
  firstBlock : ℕ
  lastBlock : ℕ
  nrInodeTableBlocksPerGroup : ℕ
  nrInodesPerGroup : ℕ
deriving DecidableEq

/-- A method of a block group. -/
abbrev GroupM (α : Type) : Type := Exec Error BlockGroup α

/-- An `EIO` error with a message. -/
def eio (msg : String) : Error := Error.withMessage .eio msg

/-- `as u16`. -/
def asU16 (n : ℕ) : ℕ := n % (u16Max + 1)

namespace BlockGroup

/-- `BlockGroup::free_blocks_count`, the counter of the descriptor. -/
def freeBlocksCount (g : BlockGroup) : ℕ := g.desc.value.freeBlocksCount

/-- `BlockGroup::free_inodes_count`, the counter of the descriptor. -/
def freeInodesCount (g : BlockGroup) : ℕ := g.desc.value.freeInodesCount

/-- `BlockGroup::ranges_overlap`: neither range is empty and they have a block in common. -/
def rangesOverlap (a b : Range ℕ) : Bool :=
  !a.isEmpty && !b.isEmpty && a.start < b.stop && b.start < a.stop

/-- `BlockGroup::overlaps_system_zone_with`: the range meets a bitmap or the inode table of the
group. -/
def overlapsSystemZoneWith (g : BlockGroup) (desc : BlockGroupDesc) (range : Range ℕ) : Bool :=
  if range.isEmpty then false
  else
    rangesOverlap range ⟨desc.blockBitmapBid, desc.blockBitmapBid + 1⟩ ||
    rangesOverlap range ⟨desc.inodeBitmapBid, desc.inodeBitmapBid + 1⟩ ||
    rangesOverlap range ⟨desc.inodeTableBid, desc.inodeTableBid + g.nrInodeTableBlocksPerGroup⟩

/-! ### Blocks -/

/-- The loop of `alloc_blocks`: as long as no run of `requestedCount` blocks is found, ask for
half as many.  `requestedCount` itself is fuel enough, see `allocHalving_isSome`. -/
def allocHalving (bitmap : IdBitmap) : ℕ → ℕ → Option (Range ℕ × IdBitmap)
  | 0, _ => none
  | fuel + 1, requestedCount =>
    if requestedCount = 0 then none
    else
      match bitmap.allocConsecutive requestedCount with
      | some found => some found
      | none => allocHalving bitmap fuel (requestedCount / 2)

/-- The second half of `alloc_blocks`: check the range found against the system zone and the
counters, and account for it. -/
def claimRange (range : Range ℕ) (bitmap : IdBitmap) (sbFreeBlocks : ℕ) : GroupM (Range ℕ) := do
  let g ← get
  let desc := g.desc.value
  let allocCount := range.len
  let absRange := ⟨g.firstBlock + range.start, g.firstBlock + range.start + allocCount⟩
  if g.overlapsSystemZoneWith desc absRange ∨ desc.freeBlocksCount < allocCount ∨
      sbFreeBlocks < allocCount then
    let bitmap ← ofOption (bitmap.freeConsecutive range)
    modify fun g => { g with blockBitmap := g.blockBitmap.set bitmap }
    throw (eio "block bitmap corruption detected")
  else
    modify fun g => { g with
      blockBitmap := g.blockBitmap.set bitmap
      desc := g.desc.set { desc with freeBlocksCount := desc.freeBlocksCount - asU16 allocCount } }
    pure ⟨g.firstBlock + range.start, g.firstBlock + range.stop⟩

/-- `BlockGroup::alloc_blocks`: at most `count` consecutive blocks, as many as the bitmap has in a
row. -/
def allocBlocks (count sbFreeBlocks : ℕ) : GroupM (Range ℕ) := do
  let g ← get
  let groupSize := g.lastBlock - g.firstBlock + 1
  require (groupSize ≤ idCapacity)
  let requestedCount :=
    asU16 (min (min (min count groupSize) g.desc.value.freeBlocksCount) sbFreeBlocks)
  -- `alloc_consecutive` borrows the bitmap mutably, also when it finds nothing
  modify fun g => { g with
    blockBitmap :=
      if requestedCount = 0 then g.blockBitmap else g.blockBitmap.set g.blockBitmap.value }
  match allocHalving g.blockBitmap.value requestedCount requestedCount with
  | none =>
    failIf (0 < g.desc.value.freeBlocksCount) (eio "block bitmap corruption detected")
    pure ⟨0, 0⟩
  | some (range, bitmap) => claimRange range bitmap sbFreeBlocks

/-- The loop of `free_blocks`: clear the bits one by one and count those that were set. -/
def clearBits : List ℕ → IdBitmap → Option (IdBitmap × ℕ)
  | [], bitmap => some (bitmap, 0)
  | bit :: rest, bitmap => do
    if ← bitmap.isAllocated bit then
      let bitmap ← bitmap.free bit
      let (bitmap, freed) ← clearBits rest bitmap
      some (bitmap, freed + 1)
    else clearBits rest bitmap

/-- `BlockGroup::free_blocks`: free the bits of a range, and return how many were in use. -/
def freeBlocks (bitRange : Range ℕ) : GroupM ℕ := do
  let g ← get
  let desc := g.desc.value
  let absRange := ⟨g.firstBlock + bitRange.start, g.firstBlock + bitRange.stop⟩
  failIf (g.overlapsSystemZoneWith desc absRange) (eio "freeing blocks in system zone")
  let bits : Range ℕ := ⟨asU16 bitRange.start, asU16 (bitRange.start + bitRange.len)⟩
  let (bitmap, actuallyFreed) ← ofOption (clearBits bits.toList g.blockBitmap.value)
  modify fun g => { g with
    blockBitmap := if actuallyFreed = 0 then g.blockBitmap else g.blockBitmap.set bitmap }
  failIf (u16Max < desc.freeBlocksCount + asU16 actuallyFreed)
    (eio "free block count overflow in group")
  modify fun g => { g with
    desc := g.desc.set { desc with freeBlocksCount := desc.freeBlocksCount + asU16 actuallyFreed } }
  pure actuallyFreed

/-! ### Consistent groups -/

/-- `b` is a block of the group's own metadata: one of its bitmaps or its inode table. -/
def SystemBlock (g : BlockGroup) (b : ℕ) : Prop :=
  b = g.desc.value.blockBitmapBid ∨ b = g.desc.value.inodeBitmapBid ∨
    (g.desc.value.inodeTableBid ≤ b ∧ b < g.desc.value.inodeTableBid + g.nrInodeTableBlocksPerGroup)

/-- Block `b` of the volume belongs to the group and its bit has the value `v`. -/
def HasBit (g : BlockGroup) (b : ℕ) (v : Bool) : Prop :=
  g.firstBlock ≤ b ∧ g.blockBitmap.value.bits[b - g.firstBlock]? = some v

/-- What a mounted group is known to satisfy: its bitmap has one bit for each of its blocks, its
counter counts the clear ones, and the blocks of its metadata are in use. -/
structure Consistent (g : BlockGroup) : Prop where
  first_le_last : g.firstBlock ≤ g.lastBlock
  len_eq : g.blockBitmap.value.len = g.lastBlock - g.firstBlock + 1
  free_eq : g.freeBlocksCount = g.blockBitmap.value.bits.count false
  system_allocated : ∀ b, g.SystemBlock b → g.HasBit b true

variable {g : BlockGroup}

lemma Consistent.free_le (h : g.Consistent) :
    g.freeBlocksCount ≤ g.blockBitmap.value.len := by
  rw [h.free_eq]
  exact List.count_le_length

lemma Consistent.len_le (h : g.Consistent) :
    g.lastBlock - g.firstBlock + 1 ≤ idCapacity := by
  rw [← h.len_eq]
  exact g.blockBitmap.value.len_le

lemma rangesOverlap_iff {a b : Range ℕ} :
    rangesOverlap a b = true ↔ ∃ i, (a.start ≤ i ∧ i < a.stop) ∧ b.start ≤ i ∧ i < b.stop := by
  simp only [rangesOverlap, isEmpty, Bool.and_eq_true, Bool.not_eq_true',
    decide_eq_false_iff_not, decide_eq_true_eq, not_le]
  constructor
  · rintro ⟨⟨⟨ha, hb⟩, hab⟩, hba⟩
    exact ⟨max a.start b.start, by omega, by omega⟩
  · rintro ⟨i, ⟨h1, h2⟩, h3, h4⟩
    omega

/-- The check against the system zone is right. -/
lemma overlapsSystemZoneWith_iff {r : Range ℕ} :
    g.overlapsSystemZoneWith g.desc.value r = true ↔
      ∃ b, (r.start ≤ b ∧ b < r.stop) ∧ g.SystemBlock b := by
  unfold overlapsSystemZoneWith
  split
  · rename_i hempty
    simp only [isEmpty, decide_eq_true_eq] at hempty
    simp only [Bool.false_eq_true, false_iff]
    rintro ⟨b, hb, -⟩
    omega
  · simp only [Bool.or_eq_true, rangesOverlap_iff, ← exists_or, ← and_or_left]
    refine exists_congr fun b => and_congr_right fun _ => ?_
    simp only [SystemBlock]
    omega

/-! ### What `alloc_blocks` does -/

lemma allocHalving_eq_some {bitmap bitmap' : IdBitmap} {r : Range ℕ} :
    ∀ {fuel requestedCount : ℕ},
      allocHalving bitmap fuel requestedCount = some (r, bitmap') →
      r.start < r.stop ∧ r.len ≤ requestedCount ∧ r.stop ≤ bitmap.len ∧
        (∀ i ∈ r.toList, bitmap.bits[i]? = some false) ∧
        bitmap'.bits = setAll bitmap.bits r.toList true := by
  intro fuel
  induction fuel with
  | zero =>
    intro _ h
    cases h
  | succ fuel ih =>
    intro requestedCount h
    rw [allocHalving] at h
    split at h
    · cases h
    · split at h
      · rename_i hfound
        obtain ⟨hpos, hstop, hle, hclear, hbits⟩ :=
          IdBitmap.allocConsecutive_eq_some (hfound.trans h)
        exact ⟨by omega, by simp only [len]; omega, hle, hclear, hbits⟩
      · obtain ⟨hlt, hlen, hrest⟩ := ih h
        exact ⟨hlt, hlen.trans (Nat.div_le_self _ _), hrest⟩

/-- Halving the request ends with a single block, which is found when any bit is clear. -/
lemma allocHalving_isSome {bitmap : IdBitmap} (hclear : 0 < bitmap.bits.count false) :
    ∀ {fuel requestedCount : ℕ}, 0 < requestedCount → requestedCount ≤ fuel →
      ∃ found, allocHalving bitmap fuel requestedCount = some found := by
  intro fuel
  induction fuel with
  | zero =>
    intro requestedCount hpos hle
    omega
  | succ fuel ih =>
    intro requestedCount hpos hle
    rw [allocHalving, if_neg (by omega)]
    split
    · exact ⟨_, rfl⟩
    · rename_i hnone
      refine ih ?_ (by omega)
      by_contra hzero
      obtain rfl : requestedCount = 1 := by omega
      obtain ⟨r, bitmap', hsome⟩ := IdBitmap.allocConsecutive_one hclear
      rw [hsome] at hnone
      cases hnone

/-- The group after the blocks `r` of the volume have been allocated in it. -/
structure Claimed (g : BlockGroup) (r : Range ℕ) (g' : BlockGroup) : Prop where
  start_lt : r.start < r.stop
  first_le : g.firstBlock ≤ r.start
  le_last : r.stop ≤ g.lastBlock + 1
  clear : ∀ b, r.start ≤ b → b < r.stop → g.HasBit b false
  free_le : r.len ≤ g.freeBlocksCount
  eq : ∃ bitmap : IdBitmap, g' = { g with
      blockBitmap := ⟨bitmap, true⟩
      desc := ⟨{ g.desc.value with freeBlocksCount := g.freeBlocksCount - r.len }, true⟩ } ∧
    bitmap.bits = setAll g.blockBitmap.value.bits
      (toList ⟨r.start - g.firstBlock, r.stop - g.firstBlock⟩) true

lemma asU16_of_le {n : ℕ} (h : n ≤ u16Max) : asU16 n = n := by
  exact Nat.mod_eq_of_lt (by omega)

section

variable {g : BlockGroup}

/-- In a consistent group, clear bits do not overlap the system zone. -/
lemma Consistent.not_overlaps {r : Range ℕ} (h : g.Consistent)
    (hclear : ∀ b, r.start ≤ b → b < r.stop → g.HasBit b false) :
    ¬ g.overlapsSystemZoneWith g.desc.value r = true := by
  rw [overlapsSystemZoneWith_iff]
  rintro ⟨b, ⟨hge, hlt⟩, hsys⟩
  have hset := (h.system_allocated b hsys).2
  rw [(hclear b hge hlt).2] at hset
  cases hset

/-- A range of clear bits passes the checks and is accounted for. -/
lemma claimRange_spec {sbFreeBlocks : ℕ} {range : Range ℕ} (h : g.Consistent) {bitmap : IdBitmap}
    (hlt : range.start < range.stop) (hsb : g.freeBlocksCount ≤ sbFreeBlocks)
    (hle : range.len ≤ g.freeBlocksCount) (hstop : range.stop ≤ g.blockBitmap.value.len)
    (hclear : ∀ i ∈ range.toList, g.blockBitmap.value.bits[i]? = some false)
    (hbits : bitmap.bits = setAll g.blockBitmap.value.bits range.toList true) :
    yields (claimRange range bitmap sbFreeBlocks)
      (fun r g' => Claimed g r g' ∧ r.len = range.len) g := by
  have hcap := h.len_le
  have hlen := h.len_eq
  have hfirst := h.first_le_last
  have hmax : idCapacity < u16Max := by decide
  have hrange : ∀ b, g.firstBlock + range.start ≤ b → b < g.firstBlock + range.stop →
      g.HasBit b false := by
    intro b hge hlt
    exact ⟨by omega, hclear _ (mem_toList.mpr (by omega))⟩
  have hstop' : g.firstBlock + range.start + range.len = g.firstBlock + range.stop := by
    simp only [len]
    omega
  have hno : ¬ g.overlapsSystemZoneWith g.desc.value
      ⟨g.firstBlock + range.start, g.firstBlock + range.stop⟩ = true :=
    h.not_overlaps hrange
  have hu16 : asU16 range.len = range.len := asU16_of_le (by omega)
  unfold claimRange
  simp only [twp_bind, twp_get, hstop']
  rw [if_neg
    (by simp only [not_or]; exact ⟨hno, by unfold freeBlocksCount at hle; omega, by omega⟩)]
  refine ⟨⟨by simp only; omega, by simp only; omega, by simp only; omega, hrange, ?_,
    bitmap, ?_, ?_⟩, ?_⟩
  · simp only [len] at hle ⊢
    omega
  · rw [hu16]
    simp only [Dirty.set, freeBlocksCount, len, Nat.add_sub_add_left]
  · simp only [Nat.add_sub_cancel_left, hbits]
  · simp only [len]
    omega

/-- In a consistent group `alloc_blocks` either finds no free block, and changes nothing, or
allocates a nonempty range of free ones. -/
lemma allocBlocks_spec (h : g.Consistent) {count sbFreeBlocks : ℕ}
    (hcount : 0 < count) (hsb : g.freeBlocksCount ≤ sbFreeBlocks) :
    yields (allocBlocks count sbFreeBlocks)
      (fun r g' => (r = ⟨0, 0⟩ ∧ g' = g ∧ g.freeBlocksCount = 0) ∨
        (Claimed g r g' ∧ r.len ≤ count)) g := by
  have hcap := h.len_le
  have hmax : idCapacity < u16Max := by decide
  unfold allocBlocks
  simp only [twp_bind, twp_get, twp_require, twp_modify]
  refine ⟨hcap, ?_⟩
  rw [asU16_of_le (by omega)]
  generalize hreq : min (min (min count (g.lastBlock - g.firstBlock + 1))
    g.desc.value.freeBlocksCount) sbFreeBlocks = requestedCount
  have hle : requestedCount ≤ g.freeBlocksCount ∧ requestedCount ≤ count := by
    unfold freeBlocksCount
    omega
  by_cases hzero : g.freeBlocksCount = 0
  · -- nothing is requested, so the bitmap is not even borrowed
    obtain rfl : requestedCount = 0 := by omega
    have hno : ¬ 0 < g.desc.value.freeBlocksCount := by
      unfold freeBlocksCount at hzero
      omega
    simp only [allocHalving, if_true, twp_bind, twp_failIf, twp_pure, hno,
      false_imp_iff, not_false_eq_true, forall_true_left, true_and]
    exact .inl hzero
  · have hpos : 0 < requestedCount := by
      unfold freeBlocksCount at hzero hsb
      omega
    rw [h.free_eq] at hzero
    obtain ⟨⟨range, bitmap⟩, hfound⟩ :=
      allocHalving_isSome (pos_of_ne_zero hzero) hpos (le_refl _)
    obtain ⟨hlt, hcnt, hstop, hclear, hbits⟩ := allocHalving_eq_some hfound
    rw [hfound, if_neg (by omega)]
    -- the dirty flag is the only difference to the group the range was found in
    have hsame : Consistent { g with blockBitmap := g.blockBitmap.set g.blockBitmap.value } :=
      ⟨h.first_le_last, h.len_eq, h.free_eq, h.system_allocated⟩
    refine (claimRange_spec hsame hlt hsb (hcnt.trans hle.1) hstop hclear hbits).mono ?_
      (fun _ _ hf => hf)
    rintro r g' ⟨hr, hrlen⟩
    obtain ⟨bitmap, rfl, hbitmap⟩ := hr.eq
    exact .inr ⟨⟨hr.start_lt, hr.first_le, hr.le_last, hr.clear, hr.free_le,
      bitmap, rfl, hbitmap⟩, by omega⟩

lemma HasBit.lt_len {b : ℕ} {v : Bool} (h : g.HasBit b v) :
    b - g.firstBlock < g.blockBitmap.value.len :=
  (List.getElem?_eq_some_iff.mp h.2).1

/-- The bits of the volume's blocks after a range of them has been given the value `v`. -/
lemma hasBit_setAll_iff {v w : Bool} {bitmap : Dirty IdBitmap} {b : ℕ} {desc : Dirty BlockGroupDesc}
    {r : Range ℕ} (hfirst : g.firstBlock ≤ r.start)
    (hlen : r.stop ≤ g.firstBlock + g.blockBitmap.value.len)
    (hbits : bitmap.value.bits = setAll g.blockBitmap.value.bits
      (toList ⟨r.start - g.firstBlock, r.stop - g.firstBlock⟩) v) :
    HasBit { g with blockBitmap := bitmap, desc := desc } b w ↔
      (r.start ≤ b ∧ b < r.stop ∧ w = v) ∨ (¬ (r.start ≤ b ∧ b < r.stop) ∧ g.HasBit b w) := by
  unfold HasBit
  simp only [hbits]
  by_cases hb : r.start ≤ b ∧ b < r.stop
  · have hmem : b - g.firstBlock ∈ toList ⟨r.start - g.firstBlock, r.stop - g.firstBlock⟩ :=
      mem_toList.mpr (by simp only; omega)
    have hlt : b - g.firstBlock < g.blockBitmap.value.bits.length := by
      unfold IdBitmap.len at hlen
      omega
    rw [getElem?_setAll_of_mem v hmem hlt, Option.some_inj]
    constructor
    · rintro ⟨-, rfl⟩
      exact .inl ⟨hb.1, hb.2, rfl⟩
    · rintro (⟨-, -, rfl⟩ | ⟨hno, -⟩)
      · exact ⟨by omega, rfl⟩
      · exact absurd hb hno
  · by_cases hge : g.firstBlock ≤ b
    · have hmem : b - g.firstBlock ∉ toList ⟨r.start - g.firstBlock, r.stop - g.firstBlock⟩ := by
        rw [mem_toList]
        simp only
        omega
      rw [getElem?_setAll_of_not_mem _ v hmem]
      tauto
    · simp only [hge, false_and, and_false, or_false, false_iff]
      omega

end

namespace Claimed

variable {g g' : BlockGroup} {r : Range ℕ}

section

variable (h : Claimed g r g')

include h

lemma frame : g'.groupIdx = g.groupIdx ∧ g'.firstBlock = g.firstBlock ∧
    g'.lastBlock = g.lastBlock ∧ (∀ b, g'.SystemBlock b ↔ g.SystemBlock b) := by
  obtain ⟨bitmap, rfl, -⟩ := h.eq
  exact ⟨rfl, rfl, rfl, fun _ => Iff.rfl⟩

lemma free_eq : g'.freeBlocksCount + r.len = g.freeBlocksCount := by
  have hle := h.free_le
  obtain ⟨bitmap, rfl, -⟩ := h.eq
  show g.freeBlocksCount - r.len + r.len = g.freeBlocksCount
  omega

/-- Exactly the blocks of the range become allocated. -/
lemma hasBit_iff {b : ℕ} {v : Bool} (hg : g.Consistent) :
    g'.HasBit b v ↔
      (r.start ≤ b ∧ b < r.stop ∧ v = true) ∨ (¬ (r.start ≤ b ∧ b < r.stop) ∧ g.HasBit b v) := by
  have hle := h.le_last
  have hlen := hg.len_eq
  obtain ⟨bitmap, rfl, hbits⟩ := h.eq
  exact hasBit_setAll_iff h.first_le (by omega) hbits

lemma consistent (hg : g.Consistent) : g'.Consistent := by
  have hfree := h.free_eq
  have hfirst := h.first_le
  refine ⟨?_, ?_, ?_, fun b hb => ?_⟩
  · rw [h.frame.2.1, h.frame.2.2.1]
    exact hg.first_le_last
  · rw [h.frame.2.1, h.frame.2.2.1, ← hg.len_eq]
    obtain ⟨bitmap, rfl, hbits⟩ := h.eq
    simp only [IdBitmap.len, hbits, length_setAll]
  · have hcount : (setAll g.blockBitmap.value.bits
        (toList ⟨r.start - g.firstBlock, r.stop - g.firstBlock⟩) true).count false +
          (toList ⟨r.start - g.firstBlock, r.stop - g.firstBlock⟩).length =
        g.blockBitmap.value.bits.count false := by
      refine count_false_setAll_true (nodup_toList _) fun i hi => ?_
      obtain ⟨hge, hlt⟩ := mem_toList.mp hi
      simp only at hge hlt
      have hbit := (h.clear (g.firstBlock + i) (by omega) (by omega)).2
      rwa [Nat.add_sub_cancel_left] at hbit
    have hold := hg.free_eq
    obtain ⟨bitmap, rfl, hbits⟩ := h.eq
    rw [length_toList] at hcount
    simp only [len, hbits] at hcount hfree ⊢
    omega
  · rw [h.frame.2.2.2] at hb
    have hset := hg.system_allocated b hb
    rw [h.hasBit_iff hg]
    by_cases hr : r.start ≤ b ∧ b < r.stop
    · exact .inl ⟨hr.1, hr.2, rfl⟩
    · exact .inr ⟨hr, hset⟩

end

end Claimed

/-! ### What `free_blocks` does -/

/-- Clearing bits one by one never panics inside the bitmap, and counts the change. -/
lemma clearBits_spec : ∀ (ids : List ℕ) (bitmap : IdBitmap), (∀ i ∈ ids, i < bitmap.len) →
    ∃ bitmap' freed, clearBits ids bitmap = some (bitmap', freed) ∧
      bitmap'.bits = setAll bitmap.bits ids false ∧
      bitmap'.bits.count false = bitmap.bits.count false + freed ∧
      (freed = 0 → bitmap' = bitmap)
  | [], bitmap, _ => ⟨bitmap, 0, rfl, rfl, rfl, fun _ => rfl⟩
  | bit :: rest, bitmap, hlt => by
    have hbit : bit < bitmap.bits.length := hlt bit List.mem_cons_self
    have hget : bitmap.isAllocated bit = some bitmap.bits[bit] := List.getElem?_eq_getElem hbit
    cases hset : bitmap.bits[bit] with
    | false =>
      obtain ⟨bitmap', freed, hrun, hbits, hcount, hzero⟩ :=
        clearBits_spec rest bitmap fun i hi => hlt i (List.mem_cons_of_mem _ hi)
      have hsame : bitmap.bits.set bit false = bitmap.bits := by
        rw [← hset]
        exact List.set_getElem_self hbit
      refine ⟨bitmap', freed, ?_, ?_, hcount, hzero⟩
      · simp [clearBits, hget, hset, hrun]
      · rw [setAll_cons, hsame, hbits]
    | true =>
      have hset' : bitmap.bits[bit]? = some true := by rw [List.getElem?_eq_getElem hbit, hset]
      obtain ⟨cleared, hfree, hcleared⟩ := IdBitmap.free_of_allocated hset'
      have hlen : cleared.len = bitmap.len := by
        rw [IdBitmap.len, hcleared, List.length_set, IdBitmap.len]
      obtain ⟨bitmap', freed, hrun, hbits, hcount, -⟩ :=
        clearBits_spec rest cleared fun i hi => hlen ▸ hlt i (List.mem_cons_of_mem _ hi)
      refine ⟨bitmap', freed + 1, ?_, ?_, ?_, fun h => absurd h (Nat.succ_ne_zero _)⟩
      · simp [clearBits, hget, hset, hfree, hrun]
      · rw [setAll_cons, hbits, hcleared]
      · rw [hcount, hcleared, List.count_set hbit, hset]
        simp only [Bool.true_eq_false, beq_iff_eq, if_false, BEq.rfl, if_true]
        omega

/-- The group after `freed` of the blocks `r` of the volume, and no others, have been freed. -/
structure Released (g : BlockGroup) (r : Range ℕ) (freed : ℕ) (g' : BlockGroup) : Prop where
  not_system : ∀ b, r.start ≤ b → b < r.stop → ¬ g.SystemBlock b
  first_le : g.firstBlock ≤ r.start
  le_last : r.stop ≤ g.firstBlock + g.blockBitmap.value.len
  count : g'.blockBitmap.value.bits.count false = g.blockBitmap.value.bits.count false + freed
  eq : ∃ bitmap : Dirty IdBitmap, g' = { g with
      blockBitmap := bitmap
      desc := ⟨{ g.desc.value with freeBlocksCount := g.freeBlocksCount + freed }, true⟩ } ∧
    bitmap.value.bits = setAll g.blockBitmap.value.bits
      (toList ⟨r.start - g.firstBlock, r.stop - g.firstBlock⟩) false

/-- In a consistent group `free_blocks` refuses a range with metadata in it, and otherwise clears
the range and counts the blocks that were in use. -/
lemma freeBlocks_spec {bits : Range ℕ} (h : g.Consistent)
    (hle : bits.start ≤ bits.stop) (hstop : bits.stop ≤ g.blockBitmap.value.len) :
    twp (freeBlocks bits)
      (fun freed g' => Released g ⟨g.firstBlock + bits.start, g.firstBlock + bits.stop⟩ freed g')
      (fun e g' => e = eio "freeing blocks in system zone" ∧ g' = g ∧
        ∃ b, (g.firstBlock + bits.start ≤ b ∧ b < g.firstBlock + bits.stop) ∧ g.SystemBlock b)
      g := by
  have hcap := h.len_le
  have hlen := h.len_eq
  have hmax : idCapacity < u16Max := by decide
  have hstart : asU16 bits.start = bits.start := asU16_of_le (by omega)
  have hend : asU16 (bits.start + bits.len) = bits.stop := by
    rw [asU16_of_le (by simp only [len]; omega)]
    simp only [len]
    omega
  unfold freeBlocks
  simp only [twp_bind, twp_get, twp_failIf, hstart, hend]
  refine ⟨fun hsys => ⟨trivial, trivial, ?_⟩, fun hsys => ?_⟩
  · exact overlapsSystemZoneWith_iff.mp hsys
  obtain ⟨bitmap, freed, hrun, hbits, hcount, hzero⟩ :=
    clearBits_spec bits.toList g.blockBitmap.value fun i hi => by
      have := mem_toList.mp hi
      omega
  have hnew : g.freeBlocksCount + freed ≤ g.blockBitmap.value.len := by
    rw [h.free_eq, ← hcount]
    refine List.count_le_length.trans ?_
    rw [hbits, length_setAll, IdBitmap.len]
  have hu16 : asU16 freed = freed := asU16_of_le (by omega)
  rw [twp_ofOption]
  refine ⟨(bitmap, freed), hrun, ?_⟩
  simp only [twp_modify, twp_pure, hu16]
  refine ⟨fun hover => absurd hover ?_, fun _ => ?_⟩
  · unfold freeBlocksCount at hnew
    omega
  -- the bitmap is borrowed mutably only when a bit is cleared
  have hvalue : (if freed = 0 then g.blockBitmap else g.blockBitmap.set bitmap).value = bitmap := by
    split
    · exact (hzero ‹_›).symm
    · rfl
  refine ⟨fun b hge hlt hb => hsys ?_, le_self_add, by simp only; omega, ?_, _, rfl, ?_⟩
  · exact overlapsSystemZoneWith_iff.mpr ⟨b, ⟨hge, hlt⟩, hb⟩
  · simp only [hvalue, hcount]
  · simp only [hvalue, hbits, Nat.add_sub_cancel_left]

namespace Released

variable {g g' : BlockGroup} {r : Range ℕ} {freed : ℕ}

section

variable (h : Released g r freed g')

include h

lemma frame : g'.groupIdx = g.groupIdx ∧
    g'.firstBlock = g.firstBlock ∧ g'.lastBlock = g.lastBlock ∧
    (∀ b, g'.SystemBlock b ↔ g.SystemBlock b) := by
  obtain ⟨bitmap, rfl, -⟩ := h.eq
  exact ⟨rfl, rfl, rfl, fun _ => Iff.rfl⟩

lemma free_eq : g'.freeBlocksCount = g.freeBlocksCount + freed := by
  obtain ⟨bitmap, rfl, -⟩ := h.eq
  rfl

/-- Exactly the blocks of the range become free. -/
lemma hasBit_iff {b : ℕ} {v : Bool} :
    g'.HasBit b v ↔
      (r.start ≤ b ∧ b < r.stop ∧ v = false) ∨ (¬ (r.start ≤ b ∧ b < r.stop) ∧ g.HasBit b v) := by
  obtain ⟨bitmap, rfl, hbits⟩ := h.eq
  exact hasBit_setAll_iff h.first_le h.le_last hbits

lemma consistent (hg : g.Consistent) : g'.Consistent := by
  refine ⟨?_, ?_, ?_, fun b hb => ?_⟩
  · rw [h.frame.2.1, h.frame.2.2.1]
    exact hg.first_le_last
  · rw [h.frame.2.1, h.frame.2.2.1, ← hg.len_eq]
    obtain ⟨bitmap, rfl, hbits⟩ := h.eq
    simp only [IdBitmap.len, hbits, length_setAll]
  · rw [h.free_eq, h.count, hg.free_eq]
  · rw [h.frame.2.2.2] at hb
    rw [h.hasBit_iff]
    exact .inr ⟨fun hr => h.not_system b hr.1 hr.2 hb, hg.system_allocated b hb⟩

/-- When every block of the range was in use, all of them are counted. -/
lemma freed_eq (hset : ∀ b, r.start ≤ b → b < r.stop → g.HasBit b true) : freed = r.len := by
  have hcount := h.count
  have hfirst := h.first_le
  obtain ⟨bitmap, rfl, hbits⟩ := h.eq
  have hflip := count_setAll (v := false)
    (nodup_toList ⟨r.start - g.firstBlock, r.stop - g.firstBlock⟩) fun i hi => by
      obtain ⟨hge, hlt⟩ := mem_toList.mp hi
      simp only at hge hlt
      have hbit := (hset (g.firstBlock + i) (by omega) (by omega)).2
      rwa [Nat.add_sub_cancel_left] at hbit
  rw [length_toList] at hflip
  simp only [len, hbits] at hcount hflip ⊢
  omega

end

end Released

end BlockGroup

end Asterinas.Ext2
