import Asterinas.Ext2.BlockGroup

/-!
# The mounted volume (`super_block.rs`, `fs.rs`)

`Ext2` is a mounted volume: the superblock and the block groups in memory, the segment that holds
the group descriptor table, and the device.  The methods here allocate and free blocks; each takes
the lock of the superblock for its whole run and the lock of one group at a time, so it is a program
over the volume.
-/

namespace Asterinas

open Framework Exec

namespace Ext2

/-- `u32::MAX`. -/
def u32Max : ℕ := 4294967295

/-- The fields of `SuperBlock` that the modelled methods read or write. -/
structure SuperBlock where
  inodesCount : ℕ
  blocksCount : ℕ
  reservedBlocksCount : ℕ
  freeBlocksCount : ℕ
  freeInodesCount : ℕ
  firstDataBlock : ℕ
  nrBlocksPerGroup : ℕ
  nrInodesPerGroup : ℕ
  nrInodeTableBlocksPerGroup : ℕ
  defaultReservedUid : ℕ
  defaultReservedGid : ℕ
  firstIno : ℕ
  /-- `feature_ro_compat` contains `SPARSE_SUPER`. -/
  sparseSuper : Bool
deriving DecidableEq

/-- What the device holds of the metadata of the volume, by the number of the block it is in. -/
structure Device where
  /-- The block and inode bitmaps. -/
  bitmaps : ℕ → List Bool
  /-- The copies of the group descriptor table, by their first block. -/
  groupDescs : ℕ → List BlockGroupDesc
  /-- The copies of the superblock. -/
  superBlocks : ℕ → SuperBlock

end Ext2

/-- `Ext2`, the mounted volume: the super block, the groups and the copy of their descriptors. -/
structure Ext2 where
  superBlock : Ext2.Dirty Ext2.SuperBlock
  blockGroups : List Ext2.BlockGroup
  groupDescriptorsSegment : List Ext2.BlockGroupDesc
  device : Ext2.Device

namespace Ext2

/-- A method of the mounted volume. -/
abbrev Ext2M (α : Type) : Type := Exec Error Ext2 α

namespace SuperBlock

section

variable (sb : SuperBlock)

/-- `SuperBlock::nr_block_groups`, the last of which may be short. -/
def nrBlockGroups : ℕ := divCeil sb.blocksCount sb.nrBlocksPerGroup

/-- `SuperBlock::group_first_block_no`: the first block of a group. -/
def groupFirstBlockNo (groupIdx : ℕ) : ℕ :=
  groupIdx * sb.nrBlocksPerGroup + sb.firstDataBlock

/-- `SuperBlock::group_last_block_no`: the last block of a group, which for the last one is that of
the volume. -/
def groupLastBlockNo (groupIdx : ℕ) : ℕ :=
  if groupIdx = sb.nrBlockGroups - 1 then sb.blocksCount - 1
  else sb.groupFirstBlockNo groupIdx + sb.nrBlocksPerGroup - 1

/-- `SuperBlock::is_data_block_valid`, for blocks of 4096 bytes: the superblock is in block 0. -/
def isDataBlockValid (startBlk count : ℕ) : Bool :=
  if count = 0 then false
  -- `checked_add` of two `u32`
  else if u32Max < startBlk + (count - 1) then false
  else if startBlk ≤ sb.firstDataBlock ∨ sb.blocksCount ≤ startBlk + (count - 1) then false
  else if startBlk ≤ 0 ∧ 0 ≤ startBlk + (count - 1) then false
  else true

end

end SuperBlock

/-- Run a method of the superblock through the mutable borrow of its `Dirty` wrapper: a `none` is
the error that the method returns, and the superblock counts as dirty also then. -/
def onSuperBlock (f : SuperBlock → Option SuperBlock) (e : Error) : Ext2M Unit := do
  let fs ← get
  let sb := fs.superBlock.value
  modify fun fs => { fs with superBlock := fs.superBlock.set ((f sb).getD sb) }
  failIf ((f sb).isNone) e

lemma twp_onSuperBlock {f : SuperBlock → Option SuperBlock} {sb : SuperBlock}
    {Q : Unit → Ext2 → Prop} {e : Error} {E : Error → Ext2 → Prop} {fs : Ext2}
    (h : f fs.superBlock.value = some sb) (hQ : Q () { fs with superBlock := ⟨sb, true⟩ }) :
    twp (onSuperBlock f e) Q E fs := by
  unfold onSuperBlock
  simpa [h, Dirty.set] using hQ

/-- `SuperBlock::inc_free_blocks`, which fails when the counter does not fit into 32 bits. -/
def incFreeBlocks (count : ℕ) : Ext2M Unit :=
  onSuperBlock (fun sb =>
      if u32Max < sb.freeBlocksCount + count then none
      else some { sb with freeBlocksCount := sb.freeBlocksCount + count })
    (eio "free block counter overflow")

/-- `SuperBlock::dec_free_blocks`, which fails when there are fewer free blocks. -/
def decFreeBlocks (count : ℕ) : Ext2M Unit :=
  onSuperBlock (fun sb =>
      if sb.freeBlocksCount < count then none
      else some { sb with freeBlocksCount := sb.freeBlocksCount - count })
    (eio "free block counter underflow")

/-- The volume with another state of the group with index `idx`. -/
def setGroup (fs : Ext2) (idx : ℕ) (g : BlockGroup) : Ext2 :=
  { fs with blockGroups := fs.blockGroups.set idx g }

/-- Run a method of the group with index `idx`; an index out of bounds is a panic. -/
def onGroup {α : Type} (idx : ℕ) (m : GroupM α) : Ext2M α := fun fs =>
  match fs.blockGroups[idx]? with
  | none => .panic
  | some g =>
    match m g with
    | .ok a g' => .ok a (fs.setGroup idx g')
    | .err e g' => .err e (fs.setGroup idx g')
    | .panic => .panic

lemma twp_onGroup {idx : ℕ} {g : BlockGroup} {E : Error → Ext2 → Prop} {fs : Ext2} {α : Type}
    {m : GroupM α} {Q : α → Ext2 → Prop} (hg : fs.blockGroups[idx]? = some g)
    (h : twp m (fun a g' => Q a (fs.setGroup idx g')) (fun e g' => E e (fs.setGroup idx g')) g) :
    twp (onGroup idx m) Q E fs := by
  unfold twp at h ⊢
  unfold onGroup
  rw [hg]
  dsimp only
  generalize m g = result at h ⊢
  cases result <;> exact h

/-! ### Who may allocate -/

/-- The credentials of a POSIX thread that `can_alloc` looks at. -/
structure Credentials where
  /-- The thread has `CAP_SYS_RESOURCE` in the initial user namespace. -/
  sysResource : Bool
  fsuid : ℕ
  fsgid : ℕ
  groups : List ℕ

/-- The caller of an allocation: `none` is a kernel thread, or no thread at all. -/
abbrev Caller : Type := Option Credentials

/-- The caller may use the reserved blocks: the checks of `can_alloc` behind the first one. -/
def privileged (caller : Caller) (reservedUid reservedGid : ℕ) : Bool :=
  match caller with
  | none => true
  | some cred =>
    cred.sysResource || cred.fsuid == reservedUid ||
      (reservedGid != 0 && (cred.fsgid == reservedGid || cred.groups.contains reservedGid))

/-- `Ext2::can_alloc`: there are blocks beyond the reserved ones, or the caller may use those. -/
def canAlloc (caller : Caller) (freeBlocks reservedBlocks reservedUid reservedGid : ℕ) : Bool :=
  decide (reservedBlocks < freeBlocks) || privileged caller reservedUid reservedGid

/-! ### Blocks -/

/-- The loop of `alloc_blocks` over the groups, from the goal's group on and around. -/
def allocFromGroups (count sbFreeBlocks goalGroup nrBlockGroups : ℕ) :
    List ℕ → Ext2M (Range ℕ)
  | [] => throw (Error.withMessage .enospc "no free blocks available in any group")
  | groupSearchOffset :: rest => do
    let range ← onGroup ((goalGroup + groupSearchOffset) % nrBlockGroups)
      (BlockGroup.allocBlocks count sbFreeBlocks)
    if range.isEmpty then
      allocFromGroups count sbFreeBlocks goalGroup nrBlockGroups rest
    else
      decFreeBlocks (range.stop - range.start)
      pure range

/-- The group in which `alloc_blocks` starts its search. -/
def goalGroup (sb : SuperBlock) (goal : ℕ) : ℕ :=
  min (if sb.firstDataBlock < goal then (goal - sb.firstDataBlock) / sb.nrBlocksPerGroup else 0)
    (sb.nrBlockGroups - 1)

/-- `Ext2::alloc_blocks`: consecutive blocks, at most `count`, from the group of the goal on. -/
def allocBlocks (caller : Caller) (count goal : ℕ) : Ext2M (Range ℕ) := do
  failIf (count = 0) (Error.withMessage .einval "zero block allocation requested")
  let fs ← get
  let sb := fs.superBlock.value
  failIf (sb.freeBlocksCount = 0) (Error.withMessage .enospc "no free blocks on device")
  failIf (¬ canAlloc caller sb.freeBlocksCount sb.reservedBlocksCount sb.defaultReservedUid
      sb.defaultReservedGid)
    (Error.withMessage .enospc "no free blocks available for unprivileged user")
  allocFromGroups count sb.freeBlocksCount (goalGroup sb goal) sb.nrBlockGroups
    (List.range sb.nrBlockGroups)

/-- One turn of the loop of `free_blocks`: free what the group of `currentBlock` holds of the
range, and return how many blocks that is. -/
def freeInGroup (currentBlock remainingBlocks : ℕ) : Ext2M ℕ := do
  let fs ← get
  let sb := fs.superBlock.value
  let groupIdx := (currentBlock - sb.firstDataBlock) / sb.nrBlocksPerGroup
  let group ← ofOption fs.blockGroups[groupIdx]?
  let groupSize := group.lastBlock - group.firstBlock + 1
  let groupStartBit := currentBlock - group.firstBlock
  let blocksInGroup := min remainingBlocks (groupSize - groupStartBit)
  let freedCount ← onGroup groupIdx
    (BlockGroup.freeBlocks ⟨groupStartBit, groupStartBit + blocksInGroup⟩)
  if 0 < freedCount then incFreeBlocks freedCount else pure ()
  pure blocksInGroup

/-- The loop of `free_blocks`.  Each turn frees at least one block of the rest, so `count` is
fuel enough; running out of it stands for a loop that does not end. -/
def freeLoop : ℕ → ℕ → ℕ → Ext2M Unit
  | _, _, 0 => pure ()
  | 0, _, _ + 1 => panic
  | fuel + 1, currentBlock, remainingBlocks + 1 => do
    let blocksInGroup ← freeInGroup currentBlock (remainingBlocks + 1)
    freeLoop fuel (currentBlock + blocksInGroup) (remainingBlocks + 1 - blocksInGroup)

/-- `Ext2::free_blocks`: the range is checked and then freed group by group. -/
def freeBlocks (start count : ℕ) : Ext2M Unit :=
  if count = 0 then pure ()
  else do
    let fs ← get
    failIf (¬ fs.superBlock.value.isDataBlockValid start count)
      (eio "freeing invalid data block range")
    freeLoop count start count

end Ext2

end Asterinas
