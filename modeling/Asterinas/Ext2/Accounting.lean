import Asterinas.Ext2.Fs

/-!
# Free-space accounting

`Ext2.Consistent` is the state in which a volume is mounted: the groups tile the blocks of the
volume, each group's counter counts the clear bits of its bitmap, and the superblock's counter is
the sum over the groups.  `alloc_blocks` and `free_blocks` keep it, whatever their arguments and
whether they succeed or fail.
-/

namespace Asterinas.Ext2

open Framework Exec List Option BlockGroup

section

variable (fs : Ext2) (b : ℕ)

/-- Block `b` is marked as allocated in the bitmap of its group. -/
def Allocated : Prop := ∃ g ∈ fs.blockGroups, g.HasBit b true

/-- Block `b` is marked as free in the bitmap of its group. -/
def FreeBlock : Prop := ∃ g ∈ fs.blockGroups, g.HasBit b false

/-- Block `b` holds a bitmap or a part of an inode table. -/
def SystemBlock : Prop := ∃ g ∈ fs.blockGroups, g.SystemBlock b

end

/-- A volume whose bitmaps and counters agree. -/
structure Consistent (fs : Ext2) : Prop where
  perGroup_pos : 0 < fs.superBlock.value.nrBlocksPerGroup
  blocks_pos : 0 < fs.superBlock.value.blocksCount
  blocks_le : fs.superBlock.value.blocksCount ≤ u32Max
  length_eq : fs.blockGroups.length = fs.superBlock.value.nrBlockGroups
  group : ∀ (i : ℕ) (g : BlockGroup), fs.blockGroups[i]? = some g → g.Consistent
  first_eq : ∀ (i : ℕ) (g : BlockGroup), fs.blockGroups[i]? = some g →
    g.firstBlock = fs.superBlock.value.groupFirstBlockNo i
  last_eq : ∀ (i : ℕ) (g : BlockGroup), fs.blockGroups[i]? = some g →
    g.lastBlock = fs.superBlock.value.groupLastBlockNo i
  free_eq : fs.superBlock.value.freeBlocksCount = (fs.blockGroups.map freeBlocksCount).sum

/-! ### The groups tile the volume -/

lemma lt_divCeil_iff {d i n : ℕ} (hd : 0 < d) : i < divCeil n d ↔ i * d < n := by
  unfold divCeil
  rw [Nat.lt_iff_add_one_le, Nat.le_div_iff_mul_le hd, add_mul]
  omega

namespace Consistent

variable {fs : Ext2} {i j : ℕ} {g g' : BlockGroup}

section

variable (h : fs.Consistent)

include h

lemma groups_pos : 0 < fs.superBlock.value.nrBlockGroups := by
  have hpos := h.blocks_pos
  exact (lt_divCeil_iff h.perGroup_pos).mpr (by omega)

/-- The last block of a group lies before the first block of the next one. -/
lemma last_lt_next (hg : fs.blockGroups[i]? = some g) :
    g.lastBlock < (i + 1) * fs.superBlock.value.nrBlocksPerGroup +
      fs.superBlock.value.firstDataBlock := by
  have hpos := h.perGroup_pos
  have hlt : i < fs.superBlock.value.nrBlockGroups := by
    rw [← h.length_eq]
    exact (List.getElem?_eq_some_iff.mp hg).1
  have hfirst := (h.group i g hg).first_le_last
  rw [h.last_eq i g hg] at hfirst ⊢
  unfold SuperBlock.groupLastBlockNo at hfirst ⊢
  unfold SuperBlock.groupFirstBlockNo at hfirst ⊢
  have hmul : (i + 1) * fs.superBlock.value.nrBlocksPerGroup =
      i * fs.superBlock.value.nrBlocksPerGroup + fs.superBlock.value.nrBlocksPerGroup := by ring
  split at hfirst
  · rename_i hi
    -- the last group: the volume does not reach into a further one
    rw [if_pos hi]
    have hno : ¬ i + 1 < fs.superBlock.value.nrBlockGroups := by omega
    unfold SuperBlock.nrBlockGroups at hno
    rw [lt_divCeil_iff hpos] at hno
    omega
  · rename_i hi
    rw [if_neg hi]
    omega

/-- A block has a bit in one group only. -/
lemma index_unique {b : ℕ} {v w : Bool} (hg : fs.blockGroups[i]? = some g)
    (hg' : fs.blockGroups[j]? = some g') (hb : g.HasBit b v)
    (hb' : g'.HasBit b w) : i = j := by
  have hle : ∀ {i : ℕ} {g : BlockGroup} {v : Bool}, fs.blockGroups[i]? = some g → g.HasBit b v →
      i * fs.superBlock.value.nrBlocksPerGroup ≤ b - fs.superBlock.value.firstDataBlock ∧
      b - fs.superBlock.value.firstDataBlock < (i + 1) * fs.superBlock.value.nrBlocksPerGroup := by
    intro i g v hg hb
    have hlt := hb.lt_len
    have hlast := h.last_lt_next hg
    have hfirst := hb.1
    have hfl := (h.group i g hg).first_le_last
    rw [(h.group i g hg).len_eq] at hlt
    rw [h.first_eq i g hg, SuperBlock.groupFirstBlockNo] at hfirst
    omega
  have hi := hle hg hb
  have hj := hle hg' hb'
  exact (Nat.div_eq_of_lt_le hi.1 hi.2).symm.trans (Nat.div_eq_of_lt_le hj.1 hj.2)

lemma eq_of_hasBit {b : ℕ} {v w : Bool} (hg : g ∈ fs.blockGroups) (hg' : g' ∈ fs.blockGroups)
    (hb : g.HasBit b v) (hb' : g'.HasBit b w) : g = g' := by
  obtain ⟨i, hi⟩ := mem_iff_getElem?.mp hg
  obtain ⟨j, hj⟩ := mem_iff_getElem?.mp hg'
  obtain rfl := h.index_unique hi hj hb hb'
  exact some_inj.mp (hi.symm.trans hj)

lemma of_mem (hg : g ∈ fs.blockGroups) : g.Consistent := by
  obtain ⟨i, hi⟩ := mem_iff_getElem?.mp hg
  exact h.group i g hi

/-- The group that a block of the volume belongs to. -/
lemma group_of_block {b : ℕ} (hfirst : fs.superBlock.value.firstDataBlock ≤ b)
    (hlt : b < fs.superBlock.value.blocksCount) :
    ∃ g, fs.blockGroups[(b - fs.superBlock.value.firstDataBlock) /
        fs.superBlock.value.nrBlocksPerGroup]? = some g ∧
      g.firstBlock ≤ b ∧ b ≤ g.lastBlock := by
  have hpos := h.perGroup_pos
  generalize hi : (b - fs.superBlock.value.firstDataBlock) /
    fs.superBlock.value.nrBlocksPerGroup = i
  have hdiv := (Nat.div_eq_iff hpos).mp hi
  have hidx : i < fs.blockGroups.length := by
    rw [h.length_eq]
    exact (lt_divCeil_iff hpos).mpr (by omega)
  refine ⟨fs.blockGroups[i], getElem?_eq_getElem hidx, ?_, ?_⟩
  · rw [h.first_eq i _ (getElem?_eq_getElem hidx), SuperBlock.groupFirstBlockNo]
    omega
  · rw [h.last_eq i _ (getElem?_eq_getElem hidx)]
    unfold SuperBlock.groupLastBlockNo SuperBlock.groupFirstBlockNo
    split <;> omega

end

end Consistent

/-! ### Changing one group -/

variable {α : Type}

lemma sum_map_set (f : α → ℕ) : ∀ {l : List α} {i : ℕ} {a : α} (b : α),
    l[i]? = some a → ((l.set i b).map f).sum + f a = (l.map f).sum + f b
  | _ :: _, 0, _, _, h => by
    cases h
    simp only [set_cons_zero, map_cons, sum_cons]
    omega
  | _ :: _, _ + 1, _, b, h => by
    have ih := sum_map_set f b (getElem?_cons_succ ▸ h)
    simp only [set_cons_succ, map_cons, sum_cons]
    omega

variable {l : List α}

variable {i : ℕ}

lemma le_sum_map (f : α → ℕ) {a : α} (h : l[i]? = some a) :
    f a ≤ (l.map f).sum :=
  le_sum_of_mem (mem_map_of_mem (mem_of_getElem? h))

lemma set_of_getElem? {a : α} (h : l[i]? = some a) : l.set i a = l := by
  obtain ⟨hlt, rfl⟩ := List.getElem?_eq_some_iff.mp h
  exact set_getElem_self hlt

lemma exists_mem_set {P : α → Prop} {a b : α} (h : l[i]? = some a) :
    (∃ x ∈ l.set i b, P x) ↔ P b ∨ ∃ j x, i ≠ j ∧ l[j]? = some x ∧ P x := by
  constructor
  · rintro ⟨x, hmem, hx⟩
    obtain ⟨j, hj⟩ := mem_iff_getElem?.mp hmem
    by_cases hij : i = j
    · subst hij
      rw [getElem?_set_self (List.getElem?_eq_some_iff.mp h).1, some_inj] at hj
      exact .inl (hj ▸ hx)
    · exact .inr ⟨j, x, hij, (getElem?_set_ne hij).symm.trans hj, hx⟩
  · rintro (hb | ⟨j, x, hij, hj, hx⟩)
    · exact ⟨b, mem_of_getElem? (getElem?_set_self (List.getElem?_eq_some_iff.mp h).1), hb⟩
    · exact ⟨x, mem_of_getElem? ((getElem?_set_ne hij).trans hj), hx⟩

lemma exists_mem_iff {P : α → Prop} {a : α} (h : l[i]? = some a) :
    (∃ x ∈ l, P x) ↔ P a ∨ ∃ j x, i ≠ j ∧ l[j]? = some x ∧ P x := by
  rw [← exists_mem_set h, set_of_getElem? h]

/-- The volume with a new state of one group and a new count of free blocks. -/
def update (fs : Ext2) (i : ℕ) (g : BlockGroup) (freeBlocks : ℕ) (dirty : Bool) : Ext2 :=
  { fs.setGroup i g with
    superBlock := ⟨{ fs.superBlock.value with freeBlocksCount := freeBlocks }, dirty⟩ }

section Update

variable {fs : Ext2} {i : ℕ} {g g' : BlockGroup} {freeBlocks : ℕ} {dirty : Bool}

/-- A change of one group that keeps it consistent and in its place, together with the change of
the counter, keeps the volume consistent. -/
lemma Consistent.update (h : fs.Consistent) (hg : fs.blockGroups[i]? = some g)
    (hg' : g'.Consistent) (hfirst : g'.firstBlock = g.firstBlock)
    (hlast : g'.lastBlock = g.lastBlock)
    (hfree : freeBlocks + g.freeBlocksCount =
      fs.superBlock.value.freeBlocksCount + g'.freeBlocksCount) :
    (fs.update i g' freeBlocks dirty).Consistent := by
  have hcases : ∀ {j : ℕ} {g₁ : BlockGroup}, (fs.blockGroups.set i g')[j]? = some g₁ →
      (j = i ∧ g₁ = g') ∨ fs.blockGroups[j]? = some g₁ := by
    intro j g₁ hj
    by_cases hij : i = j
    · subst hij
      rw [getElem?_set_self (List.getElem?_eq_some_iff.mp hg).1, some_inj] at hj
      exact .inl ⟨rfl, hj.symm⟩
    · rw [getElem?_set_ne hij] at hj
      exact .inr hj
  refine ⟨h.perGroup_pos, h.blocks_pos, h.blocks_le, ?_, ?_, ?_, ?_, ?_⟩
  · exact (length_set ..).trans h.length_eq
  · intro j g₁ hj
    rcases hcases hj with ⟨rfl, rfl⟩ | hj
    · exact hg'
    · exact h.group j g₁ hj
  · intro j g₁ hj
    rcases hcases hj with ⟨rfl, rfl⟩ | hj
    · exact hfirst.trans (h.first_eq j g hg)
    · exact h.first_eq j g₁ hj
  · intro j g₁ hj
    rcases hcases hj with ⟨rfl, rfl⟩ | hj
    · exact hlast.trans (h.last_eq j g hg)
    · exact h.last_eq j g₁ hj
  · have hsum := sum_map_set freeBlocksCount g' hg
    have hold := h.free_eq
    show freeBlocks = ((fs.blockGroups.set i g').map freeBlocksCount).sum
    omega

/-- The bits of the volume after a change of one group. -/
lemma hasBit_update {b : ℕ} {v : Bool} (h : fs.Consistent) (hg : fs.blockGroups[i]? = some g) :
    (∃ g₁ ∈ (fs.update i g' freeBlocks dirty).blockGroups, g₁.HasBit b v) ↔
      g'.HasBit b v ∨ ((∀ w, ¬ g.HasBit b w) ∧ ∃ g₁ ∈ fs.blockGroups, g₁.HasBit b v) := by
  show (∃ g₁ ∈ fs.blockGroups.set i g', g₁.HasBit b v) ↔ _
  rw [exists_mem_set hg, exists_mem_iff hg]
  refine or_congr_right ⟨fun ⟨j, g₁, hij, hj, hb⟩ => ?_, fun ⟨hno, hb⟩ => hb.resolve_left (hno v)⟩
  exact ⟨fun w hw => hij (h.index_unique hg hj hw hb), .inr ⟨j, g₁, hij, hj, hb⟩⟩

end Update

/-! ### What the methods change -/

/-- The part of a group that the allocation of inodes works on. -/
def BlockGroup.inodePart (g : BlockGroup) : IdBitmap × ℕ × ℕ × ℕ × ℕ :=
  (g.inodeBitmap.value, g.freeInodesCount, g.desc.value.usedDirsCount, g.nrInodesPerGroup,
    g.groupIdx)

/-- The two volumes differ in their block bitmaps and the counters of free blocks only. -/
structure SameInodes (fs fs' : Ext2) : Prop where
  superBlock : fs'.superBlock.value =
    { fs.superBlock.value with freeBlocksCount := fs'.superBlock.value.freeBlocksCount }
  groups : fs'.blockGroups.map inodePart = fs.blockGroups.map inodePart
  system : ∀ b, fs'.SystemBlock b ↔ fs.SystemBlock b

lemma SameInodes.refl (fs : Ext2) : SameInodes fs fs := ⟨rfl, rfl, fun _ => Iff.rfl⟩

lemma SameInodes.trans {fs fs' fs'' : Ext2} (h : SameInodes fs fs') (h' : SameInodes fs' fs'') :
    SameInodes fs fs'' := by
  refine ⟨?_, h'.groups.trans h.groups, fun b => (h'.system b).trans (h.system b)⟩
  rw [h'.superBlock, h.superBlock]

variable {fs : Ext2}

lemma sameInodes_update {dirty : Bool} {g g' : BlockGroup} {freeBlocks : ℕ}
    (hg : fs.blockGroups[i]? = some g) (hinode : g'.inodePart = g.inodePart)
    (hsys : ∀ b, g'.SystemBlock b ↔ g.SystemBlock b) :
    SameInodes fs (fs.update i g' freeBlocks dirty) := by
  refine ⟨rfl, ?_, fun b => ?_⟩
  · show (fs.blockGroups.set i g').map inodePart = _
    have hmap : (fs.blockGroups.map inodePart)[i]? = some g'.inodePart := by
      rw [getElem?_map, hg, map_some, hinode]
    rw [map_set, set_of_getElem? hmap]
  · show (∃ g₁ ∈ fs.blockGroups.set i g', g₁.SystemBlock b) ↔ ∃ g₁ ∈ fs.blockGroups, _
    rw [exists_mem_set hg, exists_mem_iff hg, hsys]

/-- `fs'` is the volume `fs` after the blocks `r` have been allocated. -/
structure Took (fs : Ext2) (r : Range ℕ) (fs' : Ext2) : Prop where
  consistent : fs'.Consistent
  start_lt : r.start < r.stop
  in_group : ∃ g ∈ fs.blockGroups, g.firstBlock ≤ r.start ∧ r.stop ≤ g.lastBlock + 1
  free : ∀ b, r.start ≤ b → b < r.stop → fs.FreeBlock b
  allocated_iff : ∀ b, fs'.Allocated b ↔ fs.Allocated b ∨ (r.start ≤ b ∧ b < r.stop)
  count : fs'.superBlock.value.freeBlocksCount + r.len = fs.superBlock.value.freeBlocksCount
  same : SameInodes fs fs'

/-- `fs'` is the volume `fs` after the blocks `r` have been freed. -/
structure Gave (fs : Ext2) (r : Range ℕ) (fs' : Ext2) : Prop where
  consistent : fs'.Consistent
  allocated_iff : ∀ b, fs'.Allocated b ↔ fs.Allocated b ∧ ¬ (r.start ≤ b ∧ b < r.stop)
  count : (∀ b, r.start ≤ b → b < r.stop → fs.Allocated b) →
    fs'.superBlock.value.freeBlocksCount = fs.superBlock.value.freeBlocksCount + r.len
  same : SameInodes fs fs'

/-- A range claimed in one group is taken from the volume. -/
lemma Consistent.took {r : Range ℕ} {g g' : BlockGroup}
    (h : fs.Consistent) (hg : fs.blockGroups[i]? = some g) (hclaim : Claimed g r g')
    (dirty : Bool) :
    Took fs r (fs.update i g' (fs.superBlock.value.freeBlocksCount - r.len) dirty) := by
  have hgc := h.group i g hg
  have hle : r.len ≤ fs.superBlock.value.freeBlocksCount := by
    rw [h.free_eq]
    exact hclaim.free_le.trans (le_sum_map freeBlocksCount hg)
  have hmem := mem_of_getElem? hg
  refine ⟨?_, hclaim.start_lt, ⟨g, hmem, hclaim.first_le, hclaim.le_last⟩, ?_, fun b => ?_, ?_, ?_⟩
  · refine h.update hg (hclaim.consistent hgc) hclaim.frame.2.1 hclaim.frame.2.2.1 ?_
    have := hclaim.free_eq
    omega
  · intro b hge hlt
    exact ⟨g, hmem, hclaim.clear b hge hlt⟩
  · unfold Allocated
    rw [hasBit_update h hg, hclaim.hasBit_iff hgc]
    constructor
    · rintro ((⟨hge, hlt, -⟩ | ⟨-, hb⟩) | ⟨-, hb⟩)
      · exact .inr ⟨hge, hlt⟩
      · exact .inl ⟨g, hmem, hb⟩
      · exact .inl hb
    · rintro (⟨g₁, hmem1, hb⟩ | ⟨hge, hlt⟩)
      · by_cases hr : r.start ≤ b ∧ b < r.stop
        · exact .inl (.inl ⟨hr.1, hr.2, rfl⟩)
        · by_cases hin : ∃ w, g.HasBit b w
          · -- the block is one of this group, so the group it is allocated in is this one
            obtain ⟨w, hw⟩ := hin
            obtain rfl := h.eq_of_hasBit hmem hmem1 hw hb
            exact .inl (.inr ⟨hr, hb⟩)
          · exact .inr ⟨fun w hw => hin ⟨w, hw⟩, g₁, hmem1, hb⟩
      · exact .inl (.inl ⟨hge, hlt, rfl⟩)
  · show fs.superBlock.value.freeBlocksCount - r.len + r.len = _
    omega
  · refine sameInodes_update hg ?_ hclaim.frame.2.2.2
    obtain ⟨bitmap, rfl, -⟩ := hclaim.eq
    rfl

/-- A range released in one group is given back to the volume. -/
lemma Consistent.gave {g g' : BlockGroup} {r : Range ℕ} {freed : ℕ} (h : fs.Consistent)
    (hg : fs.blockGroups[i]? = some g) (hrel : Released g r freed g') (dirty : Bool) :
    Gave fs r (fs.update i g' (fs.superBlock.value.freeBlocksCount + freed) dirty) := by
  have hgc := h.group i g hg
  have hmem := mem_of_getElem? hg
  have hhas : ∀ b, r.start ≤ b → b < r.stop → ∃ w, g.HasBit b w := by
    intro b hge hlt
    have hstop := hrel.le_last
    have hfirst := hrel.first_le
    have hidx : b - g.firstBlock < g.blockBitmap.value.bits.length := by
      unfold IdBitmap.len at hstop
      omega
    exact ⟨_, by omega, getElem?_eq_getElem hidx⟩
  have hown : ∀ {b : ℕ} {w : Bool}, fs.Allocated b → g.HasBit b w → g.HasBit b true := by
    rintro b w ⟨g₁, hmem1, hb⟩ hw
    exact h.eq_of_hasBit hmem hmem1 hw hb ▸ hb
  refine ⟨?_, fun b => ?_, fun hall => ?_, ?_⟩
  · refine h.update hg (hrel.consistent hgc) hrel.frame.2.1 hrel.frame.2.2.1 ?_
    have := hrel.free_eq
    omega
  · unfold Allocated
    rw [hasBit_update h hg, hrel.hasBit_iff]
    constructor
    · rintro ((⟨-, -, hfalse⟩ | ⟨hr, hb⟩) | ⟨hno, hb⟩)
      · cases hfalse
      · exact ⟨⟨g, hmem, hb⟩, hr⟩
      · refine ⟨hb, fun hr => ?_⟩
        obtain ⟨w, hw⟩ := hhas b hr.1 hr.2
        exact hno w hw
    · rintro ⟨hb, hr⟩
      by_cases hin : ∃ w, g.HasBit b w
      · obtain ⟨w, hw⟩ := hin
        exact .inl (.inr ⟨hr, hown hb hw⟩)
      · exact .inr ⟨fun w hw => hin ⟨w, hw⟩, hb⟩
  · show fs.superBlock.value.freeBlocksCount + freed = _
    have hset : ∀ b, r.start ≤ b → b < r.stop → g.HasBit b true := by
      intro b hge hlt
      obtain ⟨w, hw⟩ := hhas b hge hlt
      exact hown (hall b hge hlt) hw
    rw [hrel.freed_eq hset]
  · refine sameInodes_update hg ?_ hrel.frame.2.2.2
    obtain ⟨bitmap, rfl, -⟩ := hrel.eq
    rfl

/-! ### `alloc_blocks` -/

variable {Q : Unit → Ext2 → Prop}

lemma twp_decFreeBlocks {E : Error → Ext2 → Prop} {count : ℕ}
    (h : count ≤ fs.superBlock.value.freeBlocksCount)
    (hQ : Q () { fs with superBlock := ⟨{ fs.superBlock.value with
      freeBlocksCount := fs.superBlock.value.freeBlocksCount - count }, true⟩ }) :
    twp (decFreeBlocks count) Q E fs :=
  twp_onSuperBlock (if_neg (by omega)) hQ

lemma twp_incFreeBlocks {E : Error → Ext2 → Prop} {count : ℕ}
    (h : fs.superBlock.value.freeBlocksCount + count ≤ u32Max)
    (hQ : Q () { fs with superBlock := ⟨{ fs.superBlock.value with
      freeBlocksCount := fs.superBlock.value.freeBlocksCount + count }, true⟩ }) :
    twp (incFreeBlocks count) Q E fs :=
  twp_onSuperBlock (if_neg (by omega)) hQ

/-- Going around from any start reaches every index. -/
lemma exists_offset {n : ℕ} (h : i < n) (start : ℕ) : ∃ offset < n, (start + offset) % n = i := by
  have hmod := Nat.mod_lt start (show 0 < n by omega)
  refine ⟨(i + (n - start % n)) % n, Nat.mod_lt _ (by omega), ?_⟩
  rw [Nat.add_mod, Nat.mod_mod, ← Nat.add_mod, ← Nat.mod_add_mod,
    show start % n + (i + (n - start % n)) = i + n by omega, Nat.add_mod_right,
    Nat.mod_eq_of_lt h]

section

variable (h : fs.Consistent)

include h

/-- The search over the groups stops at the first one with a free block; what it has passed is
unchanged. -/
lemma allocFromGroups_spec {count goalGroup : ℕ}
    (hcount : 0 < count) :
    ∀ offsets, twp (allocFromGroups count fs.superBlock.value.freeBlocksCount goalGroup
        fs.superBlock.value.nrBlockGroups offsets)
      (fun r fs' => Took fs r fs' ∧ r.len ≤ count)
      (fun e fs' => e = Error.withMessage .enospc "no free blocks available in any group" ∧
        fs' = fs ∧ ∀ offset ∈ offsets, ∀ g,
          fs.blockGroups[(goalGroup + offset) % fs.superBlock.value.nrBlockGroups]? = some g →
            g.freeBlocksCount = 0) fs := by
  intro offsets
  induction offsets with
  | nil => exact ⟨rfl, rfl, by simp⟩
  | cons offset rest ih =>
    have hidx : (goalGroup + offset) % fs.superBlock.value.nrBlockGroups <
        fs.blockGroups.length := by
      rw [h.length_eq]
      exact Nat.mod_lt _ h.groups_pos
    generalize hi : (goalGroup + offset) % fs.superBlock.value.nrBlockGroups = i at hidx
    have hg := getElem?_eq_getElem hidx
    have hgc := h.group i _ hg
    have hfree : fs.blockGroups[i].freeBlocksCount ≤ fs.superBlock.value.freeBlocksCount := by
      rw [h.free_eq]
      exact le_sum_map freeBlocksCount hg
    rw [allocFromGroups, twp_bind, hi]
    refine twp_onGroup hg ((allocBlocks_spec hgc hcount hfree).mono ?_ fun _ _ hf => hf.elim)
    rintro r g' (⟨rfl, rfl, hzero⟩ | ⟨hclaim, hlen⟩)
    · -- nothing free here: the group is as before
      rw [if_pos (by rfl), setGroup, set_of_getElem? hg]
      refine ih.mono (fun _ _ hq => hq) ?_
      rintro e fs' ⟨he, hfs, hrest⟩
      refine ⟨he, hfs, fun offset' hmem g hget => ?_⟩
      rcases mem_cons.mp hmem with rfl | hmem
      · rw [hi, hg, some_inj] at hget
        exact hget ▸ hzero
      · exact hrest offset' hmem g hget
    · have hne : ¬ r.isEmpty = true := by
        simp only [Range.isEmpty, decide_eq_true_eq, not_le]
        exact hclaim.start_lt
      rw [if_neg hne, twp_bind]
      refine twp_decFreeBlocks (hclaim.free_le.trans hfree) ?_
      rw [twp_pure]
      exact ⟨h.took hg hclaim true, hlen⟩

/-- `alloc_blocks` on a consistent volume: it takes a range of free blocks, or it fails and
changes nothing, because it was asked for nothing or because nothing is free for the caller. -/
lemma allocBlocks_spec (caller : Caller) (count goal : ℕ) :
    twp (allocBlocks caller count goal)
      (fun r fs' => Took fs r fs' ∧ r.len ≤ count)
      (fun e fs' => fs' = fs ∧ ((e.errno = .einval ∧ count = 0) ∨
        (e.errno = .enospc ∧ count ≠ 0 ∧ (fs.superBlock.value.freeBlocksCount = 0 ∨
          privileged caller fs.superBlock.value.defaultReservedUid
            fs.superBlock.value.defaultReservedGid = false)))) fs := by
  unfold allocBlocks
  simp only [twp_bind, twp_failIf, twp_get]
  refine ⟨fun hzero => ⟨trivial, .inl ⟨rfl, hzero⟩⟩, fun hcount => ⟨fun hzero => ?_, fun hfree =>
    ⟨fun hcan => ?_, fun _ => ?_⟩⟩⟩
  · exact ⟨trivial, .inr ⟨rfl, hcount, .inl hzero⟩⟩
  · refine ⟨trivial, .inr ⟨rfl, hcount, .inr ?_⟩⟩
    simp only [canAlloc, Bool.or_eq_true, not_or, Bool.not_eq_true] at hcan
    exact hcan.2
  · refine (allocFromGroups_spec h (pos_of_ne_zero hcount) _).mono (fun _ _ hq => hq) ?_
    rintro e fs' ⟨-, -, hnone⟩
    -- the offsets reach every group, so no group has a free block and the sum is zero
    refine absurd ?_ hfree
    rw [h.free_eq, List.sum_eq_zero_iff_forall_eq_nat]
    intro n hn
    obtain ⟨g, hmem, rfl⟩ := mem_map.mp hn
    obtain ⟨i, hi⟩ := mem_iff_getElem?.mp hmem
    have hlt : i < fs.superBlock.value.nrBlockGroups := by
      rw [← h.length_eq]
      exact (List.getElem?_eq_some_iff.mp hi).1
    obtain ⟨offset, hoff, heq⟩ := exists_offset hlt (goalGroup fs.superBlock.value goal)
    exact hnone offset (mem_range.mpr hoff) g (by rw [heq, hi])

/-! ### `free_blocks` -/

/-- The free blocks of the groups before the last one fit into the blocks before it. -/
lemma Consistent.sum_take_le :
    ∀ k ≤ fs.blockGroups.length, ((fs.blockGroups.take k).map freeBlocksCount).sum ≤
      k * fs.superBlock.value.nrBlocksPerGroup := by
  intro k
  induction k with
  | zero => simp
  | succ k ih =>
    intro hk
    have hg := getElem?_eq_getElem (show k < fs.blockGroups.length by omega)
    have hgc := h.group k _ hg
    have hfree := hgc.free_le
    have hlast := h.last_lt_next hg
    have hfirst := h.first_eq k _ hg
    have hle := hgc.first_le_last
    rw [hgc.len_eq] at hfree
    unfold SuperBlock.groupFirstBlockNo at hfirst
    rw [take_add_one, hg, map_append, sum_append]
    simp only [toList_some, map_cons, map_nil, sum_cons, sum_nil]
    omega

/-- A consistent volume has at most as many free blocks as blocks. -/
lemma Consistent.free_le :
    fs.superBlock.value.freeBlocksCount ≤ fs.superBlock.value.blocksCount := by
  have hpos := h.groups_pos
  have hlen := h.length_eq
  obtain ⟨n, hn⟩ := Nat.exists_eq_add_of_lt hpos
  have hg := getElem?_eq_getElem (show n < fs.blockGroups.length by omega)
  have hgc := h.group n _ hg
  have hfree := hgc.free_le
  have hfirst := h.first_eq n _ hg
  have hlast := h.last_eq n _ hg
  have hle := hgc.first_le_last
  have hsum := h.sum_take_le n (by omega)
  have hblocks := h.blocks_pos
  rw [hgc.len_eq] at hfree
  unfold SuperBlock.groupLastBlockNo at hlast
  unfold SuperBlock.groupFirstBlockNo at hfirst
  rw [if_pos (by omega)] at hlast
  have hall : fs.blockGroups = fs.blockGroups.take n ++ [fs.blockGroups[n]] := by
    rw [take_append_getElem, take_of_length_le (by omega)]
  rw [h.free_eq, hall, map_append, sum_append]
  simp only [map_cons, map_nil, sum_cons, sum_nil]
  omega

end

namespace Gave

variable {fs fs₁ fs₂ : Ext2} {a b c : ℕ}

/-- Freeing nothing. -/
lemma refl (h : fs.Consistent) (a : ℕ) : Gave fs ⟨a, a⟩ fs := by
  refine ⟨h, fun b => ?_, fun _ => ?_, SameInodes.refl fs⟩
  · have : ¬ (a ≤ b ∧ b < a) := by omega
    simp [this]
  · simp [Range.len]

/-- Freeing two ranges one after the other. -/
lemma trans (h : Gave fs ⟨a, b⟩ fs₁) (h' : Gave fs₁ ⟨b, c⟩ fs₂) (hab : a ≤ b) (hbc : b ≤ c) :
    Gave fs ⟨a, c⟩ fs₂ := by
  refine ⟨h'.consistent, fun x => ?_, fun hall => ?_, h.same.trans h'.same⟩
  · rw [h'.allocated_iff, h.allocated_iff, and_assoc, ← not_or]
    refine and_congr_right fun _ => not_congr ?_
    simp only
    omega
  · have h1 := h.count fun x hge hlt => hall x hge (lt_of_lt_of_le hlt hbc)
    have h2 := h'.count fun x hge hlt => (h.allocated_iff x).mpr
      ⟨hall x (hab.trans hge) hlt, by simp only at hge ⊢; omega⟩
    simp only [Range.len] at h1 h2 ⊢
    omega

end Gave

/-- The error of `free_blocks` when the range holds a block of the system zone. -/
def FreesSystemBlock (fs : Ext2) (r : Range ℕ) (e : Error) : Prop :=
  e = eio "freeing blocks in system zone" ∧ ∃ b, (r.start ≤ b ∧ b < r.stop) ∧ fs.SystemBlock b

/-- One turn of the loop frees a nonempty front of the range. -/
lemma freeInGroup_spec (h : fs.Consistent) {currentBlock remainingBlocks : ℕ}
    (hfirst : fs.superBlock.value.firstDataBlock ≤ currentBlock) (hrem : 0 < remainingBlocks)
    (hend : currentBlock + remainingBlocks ≤ fs.superBlock.value.blocksCount) :
    twp (freeInGroup currentBlock remainingBlocks)
      (fun k fs' => 0 < k ∧ k ≤ remainingBlocks ∧ Gave fs ⟨currentBlock, currentBlock + k⟩ fs')
      (fun e fs' => fs' = fs ∧
        FreesSystemBlock fs ⟨currentBlock, currentBlock + remainingBlocks⟩ e) fs := by
  obtain ⟨g, hg, hge, hle⟩ := h.group_of_block hfirst (by omega)
  have hgc := h.group _ g hg
  have hlen := hgc.len_eq
  unfold freeInGroup
  rw [twp_bind, twp_get, twp_bind, twp_ofOption]
  refine ⟨g, hg, ?_⟩
  rw [twp_bind]
  generalize hk : min remainingBlocks (g.lastBlock - g.firstBlock + 1 -
    (currentBlock - g.firstBlock)) = k
  have hk' : 0 < k ∧ k ≤ remainingBlocks := by omega
  have hrange : (⟨g.firstBlock + (currentBlock - g.firstBlock),
      g.firstBlock + (currentBlock - g.firstBlock + k)⟩ : Range ℕ) =
      ⟨currentBlock, currentBlock + k⟩ := by
    rw [Range.mk.injEq]
    omega
  refine twp_onGroup hg ((freeBlocks_spec hgc (by simp only; omega)
    (by simp only; omega)).mono ?_ ?_)
  · intro freed g' hrel
    rw [hrange] at hrel
    have hgave := h.gave hg hrel
    have hbound := (hgave true).consistent.free_le
    have hblocks := h.blocks_le
    change fs.superBlock.value.freeBlocksCount + freed ≤ fs.superBlock.value.blocksCount at hbound
    split
    · rw [twp_bind]
      refine twp_incFreeBlocks
        (show fs.superBlock.value.freeBlocksCount + freed ≤ u32Max by omega) ?_
      exact ⟨hk'.1, hk'.2, hgave true⟩
    · rename_i hzero
      obtain rfl : freed = 0 := by omega
      exact ⟨hk'.1, hk'.2, hgave fs.superBlock.dirty⟩
  · rintro e g' ⟨rfl, rfl, b, hb, hsys⟩
    rw [setGroup, set_of_getElem? hg]
    simp only at hb
    exact ⟨rfl, rfl, b, by simp only; omega, g', mem_of_getElem? hg, hsys⟩

/-- The loop of `free_blocks` ends and frees the whole range, unless it meets the system zone. -/
lemma freeLoop_spec : ∀ {fuel currentBlock remainingBlocks : ℕ} {fs : Ext2}, fs.Consistent →
    fs.superBlock.value.firstDataBlock ≤ currentBlock →
    currentBlock + remainingBlocks ≤ fs.superBlock.value.blocksCount → remainingBlocks ≤ fuel →
    twp (freeLoop fuel currentBlock remainingBlocks)
      (fun _ fs' => Gave fs ⟨currentBlock, currentBlock + remainingBlocks⟩ fs')
      (fun e fs' => fs'.Consistent ∧ SameInodes fs fs' ∧
        FreesSystemBlock fs ⟨currentBlock, currentBlock + remainingBlocks⟩ e) fs := by
  intro fuel
  induction fuel with
  | zero =>
    intro currentBlock remainingBlocks fs h hfirst hend hfuel
    obtain rfl : remainingBlocks = 0 := by omega
    exact Gave.refl h currentBlock
  | succ fuel ih =>
    intro currentBlock remainingBlocks fs h hfirst hend hfuel
    cases remainingBlocks with
    | zero => exact Gave.refl h currentBlock
    | succ rem =>
      rw [freeLoop]
      refine (freeInGroup_spec h hfirst (Nat.succ_pos rem) hend).seq ?_ ?_
      · rintro e fs' ⟨rfl, hsys⟩
        exact ⟨h, SameInodes.refl fs', hsys⟩
      · rintro k fs₁ ⟨hpos, hle, hgave⟩
        have hsb := hgave.same.superBlock
        have hrest : currentBlock + k + (rem + 1 - k) = currentBlock + (rem + 1) := by omega
        refine (ih hgave.consistent ?_ ?_ (by omega)).mono ?_ ?_
        · rw [hsb]
          exact hfirst.trans le_self_add
        · rw [hsb, hrest]
          exact hend
        · rintro - fs₂ hgave'
          rw [hrest] at hgave'
          exact hgave.trans hgave' (by omega) (by omega)
        · rintro e fs₂ ⟨hcons, hsame, he, b, hb, hsys⟩
          simp only at hb
          exact ⟨hcons, hgave.same.trans hsame, he, b, by simp only; omega,
            (hgave.same.system b).mp hsys⟩

lemma isDataBlockValid_iff {sb : SuperBlock} {start count : ℕ} (hsb : sb.blocksCount ≤ u32Max) :
    sb.isDataBlockValid start count = true ↔
      count ≠ 0 ∧ sb.firstDataBlock < start ∧ start + count ≤ sb.blocksCount := by
  unfold SuperBlock.isDataBlockValid
  split_ifs <;> simp only [false_iff, true_iff] <;> omega

/-- `free_blocks` on a consistent volume: it frees the range, or it fails because the range is not
one of data blocks. -/
lemma freeBlocks_spec (h : fs.Consistent) (start count : ℕ) :
    twp (freeBlocks start count)
      (fun _ fs' => Gave fs ⟨start, start + count⟩ fs')
      (fun e fs' => fs'.Consistent ∧ SameInodes fs fs' ∧
        (fs.superBlock.value.isDataBlockValid start count = false ∨
          FreesSystemBlock fs ⟨start, start + count⟩ e)) fs := by
  unfold freeBlocks
  split
  · rename_i hzero
    subst hzero
    exact Gave.refl h start
  · simp only [twp_bind, twp_get, twp_failIf]
    refine ⟨fun hno => ⟨h, SameInodes.refl fs, .inl (by simpa using hno)⟩, fun hyes => ?_⟩
    obtain ⟨-, hfirst, hend⟩ := (isDataBlockValid_iff h.blocks_le).mp (not_not.mp hyes)
    refine (freeLoop_spec h hfirst.le hend le_rfl).mono (fun _ _ hq => hq) ?_
    rintro e fs' ⟨hcons, hsame, hsys⟩
    exact ⟨hcons, hsame, .inr hsys⟩

/-! ### Sequences of calls -/

/-- A call of `alloc_blocks` or `free_blocks`. -/
inductive BlockCall
  | alloc (caller : Caller) (count goal : ℕ)
  | free (start count : ℕ)

/-- The state that a call leaves behind when it returns, with success or with an error. -/
def BlockCall.Returns (fs : Ext2) : BlockCall → Ext2 → Prop
  | .alloc caller count goal, fs' =>
    (∃ r, allocBlocks caller count goal fs = .ok r fs') ∨
      ∃ e, allocBlocks caller count goal fs = .err e fs'
  | .free start count, fs' =>
    (∃ u, freeBlocks start count fs = .ok u fs') ∨ ∃ e, freeBlocks start count fs = .err e fs'

/-- `fs'` is reached from `fs` by a sequence of calls. -/
def BlocksReachable : Ext2 → Ext2 → Prop :=
  Relation.ReflTransGen fun fs fs' => ∃ call : BlockCall, call.Returns fs fs'

/-- One call keeps the volume consistent. -/
lemma Consistent.of_returns {fs' : Ext2} {call : BlockCall} (h : fs.Consistent)
    (hcall : call.Returns fs fs') : fs'.Consistent := by
  cases call with
  | alloc caller count goal =>
    have hspec := allocBlocks_spec h caller count goal
    rcases hcall with ⟨r, hrun⟩ | ⟨e, hrun⟩
    · exact (hspec.of_ok hrun).1.consistent
    · exact (hspec.of_err hrun).1 ▸ h
  | free start count =>
    have hspec := freeBlocks_spec h start count
    rcases hcall with ⟨u, hrun⟩ | ⟨e, hrun⟩
    · exact (hspec.of_ok hrun).consistent
    · exact (hspec.of_err hrun).1

/-- Every sequence of calls keeps the volume consistent. -/
lemma Consistent.of_reachable {fs fs' : Ext2} (h : fs.Consistent) (hrun : BlocksReachable fs fs') :
    fs'.Consistent := by
  induction hrun with
  | refl => exact h
  | tail _ hcall ih =>
    obtain ⟨call, hcall⟩ := hcall
    exact ih.of_returns hcall

namespace Consistent

variable {fs : Ext2} {b : ℕ}

lemma not_allocated_of_free (h : fs.Consistent) (hb : fs.FreeBlock b) : ¬ fs.Allocated b := by
  rintro ⟨g', hmem', hset⟩
  obtain ⟨g, hmem, hclear⟩ := hb
  obtain rfl := h.eq_of_hasBit hmem hmem' hclear hset
  have hbit := hset.2
  rw [hclear.2] at hbit
  cases hbit

lemma allocated_of_system (h : fs.Consistent) (hb : fs.SystemBlock b) : fs.Allocated b := by
  obtain ⟨g, hmem, hsys⟩ := hb
  exact ⟨g, hmem, (h.of_mem hmem).system_allocated b hsys⟩

/-- The superblock counts no free block exactly when no bit is clear. -/
lemma free_eq_zero_iff (h : fs.Consistent) :
    fs.superBlock.value.freeBlocksCount = 0 ↔ ¬ ∃ b, fs.FreeBlock b := by
  rw [h.free_eq, List.sum_eq_zero_iff_forall_eq_nat, List.forall_mem_map]
  constructor
  · rintro hzero ⟨b, g, hmem, hb⟩
    have hcount := hzero g hmem
    rw [(h.of_mem hmem).free_eq, count_eq_zero] at hcount
    exact hcount (mem_of_getElem? hb.2)
  · intro hno g hmem
    rw [(h.of_mem hmem).free_eq, count_eq_zero]
    intro hfalse
    obtain ⟨k, hk⟩ := mem_iff_getElem?.mp hfalse
    refine hno ⟨g.firstBlock + k, g, hmem, le_self_add, ?_⟩
    rw [Nat.add_sub_cancel_left]
    exact hk

end Consistent

/-- The properties of a volume's free-space accounting: the counters agree with the bitmaps, an
allocation returns free blocks of one group, and a privileged caller is refused for lack of space
exactly when there is none. -/
structure Accounted (fs : Ext2) : Prop where
  group_count : ∀ g ∈ fs.blockGroups, g.freeBlocksCount = g.blockBitmap.value.bits.count false
  sum_count : fs.superBlock.value.freeBlocksCount = (fs.blockGroups.map freeBlocksCount).sum
  alloc_ok : ∀ caller count goal r fs', allocBlocks caller count goal fs = .ok r fs' →
    r.start < r.stop ∧ r.len ≤ count ∧
      (∃ g ∈ fs.blockGroups, g.firstBlock ≤ r.start ∧ r.stop ≤ g.lastBlock + 1) ∧
      ∀ b, r.start ≤ b → b < r.stop → ¬ fs.Allocated b ∧ ¬ fs.SystemBlock b
  alloc_privileged : ∀ caller count goal,
    privileged caller fs.superBlock.value.defaultReservedUid
      fs.superBlock.value.defaultReservedGid = true →
    allocBlocks caller count goal fs ≠ .panic ∧
      (∀ e fs', allocBlocks caller count goal fs = .err e fs' → e.errno ≠ .eio) ∧
      ((∃ e fs', allocBlocks caller count goal fs = .err e fs' ∧ e.errno = .enospc) ↔
        count ≠ 0 ∧ ¬ ∃ b, fs.FreeBlock b)

lemma Consistent.accounted (h : fs.Consistent) : fs.Accounted := by
  refine ⟨fun g hmem => (h.of_mem hmem).free_eq, h.free_eq, ?_, ?_⟩
  · intro caller count goal r fs' hrun
    obtain ⟨htook, hlen⟩ := (allocBlocks_spec h caller count goal).of_ok hrun
    refine ⟨htook.start_lt, hlen, htook.in_group, fun b hge hlt => ?_⟩
    have hno := h.not_allocated_of_free (htook.free b hge hlt)
    exact ⟨hno, fun hsys => hno (h.allocated_of_system hsys)⟩
  · intro caller count goal hpriv
    have hspec := allocBlocks_spec h caller count goal
    rcases hspec.returns with ⟨r, fs', hrun, htook, -⟩ | ⟨e, fs', hrun, -, herr⟩
    · -- blocks were found, so some block is free
      have hfree := htook.free r.start le_rfl htook.start_lt
      refine ⟨by rw [hrun]; simp, fun e fs' hrun' => ?_, ?_⟩
      · rw [hrun] at hrun'
        cases hrun'
      · rw [hrun]
        simp only [reduceCtorEq, false_and, exists_false, false_iff, not_and, not_not]
        exact fun _ => ⟨r.start, hfree⟩
    · rw [hpriv] at herr
      refine ⟨by rw [hrun]; simp, fun e' fs'' hrun' => ?_, ?_⟩
      · rw [hrun] at hrun'
        cases hrun'
        rcases herr with ⟨he, -⟩ | ⟨he, -⟩ <;> rw [he] <;> decide
      · rw [hrun, ← h.free_eq_zero_iff]
        rcases herr with ⟨he, hzero⟩ | ⟨he, hcount, hfree⟩
        · simp [he, hzero]
        · simp_all

end Asterinas.Ext2
