import Asterinas.Framework.Ascending
import Asterinas.Mlsdisk.MemTable

/-!
# Sorted string tables

The on-disk tables of the LSM tree (`4-lsm/sstable.rs`): how records are laid out in record blocks,
the point query and the scan.

A record block is modelled by the records it holds; the bytes after the last one read as an invalid
flag and end the block.  A record of one value takes `K_SIZE + 1 + V_SIZE` bytes and one of two
values `K_SIZE + 1 + 2 * V_SIZE`.  The sizes are those of the records of a disk, a block address of
8 bytes and a value of 40 bytes (host block address, key and MAC).
-/

namespace Asterinas.Mlsdisk

open Framework List Option Bool

/-- A record of a sorted table: a key with its values. -/
abbrev Record (V : Type) := ℕ × ValueEx V

/-- `SSTable::K_SIZE`: the bytes of a key. -/
def kSize : ℕ := 8

/-- `SSTable::V_SIZE`: the bytes of a value. -/
def vSize : ℕ := 40

/-- `SSTable::MAX_RECORD_SIZE`: a key, a flag and two values. -/
def maxRecordSize : ℕ := 8 + 1 + 2 * vSize

/-- `RECORD_BLOCK_SIZE`: the bytes of a block of records. -/
def recordBlockSize : ℕ := 32 * 4096

variable {V : Type}

/-- What `build_record_blocks` adds to `inner_offset` for a record.  `MAX_RECORD_SIZE` counts the
key already, so the key of a record with two values is counted twice. -/
def countedSize : ValueEx V → ℕ
  | .synced _ => kSize + (1 + vSize)
  | .unsynced _ => kSize + (1 + vSize)
  | .syncedAndUnsynced _ _ => kSize + maxRecordSize

/-- `RecordBlock` with the keys of its `IndexEntry`: the first and the last of its records. -/
structure RecordBlock (V : Type) where
  records : List (Record V)
  nonempty : records ≠ []

namespace RecordBlock

variable {V : Type}

section

variable (b : RecordBlock V)

/-- `IndexEntry::first`: the first key of a block. -/
def first : ℕ := (b.records.head b.nonempty).1

/-- `IndexEntry::last`: the last key of a block. -/
def last : ℕ := (b.records.getLast b.nonempty).1

/-- `IndexEntry::is_within_range`: the key is between the first and the last one of the block. -/
def isWithinRange (key : ℕ) : Bool := b.first ≤ key && decide (key ≤ b.last)

end

end RecordBlock

/-- The loop of `SSTable::build_record_blocks`: `curr` is the content of `block_buf`.  `none` is the
overflow of `RECORD_BLOCK_SIZE - inner_offset`. -/
def buildFrom (curr : List (Record V)) (innerOffset : ℕ) :
    List (Record V) → Option (List (RecordBlock V))
  | [] => if h : curr = [] then some [] else some [⟨curr, h⟩]
  | r :: rest =>
    let innerOffset := innerOffset + countedSize r.2
    if recordBlockSize < innerOffset then none
    else if maxRecordSize ≤ recordBlockSize - innerOffset then
      buildFrom (curr ++ [r]) innerOffset rest
    else (buildFrom [] 0 rest).map (⟨curr ++ [r], by simp⟩ :: ·)

/-- `SSTable`: the ID of its log, the sync ID of its footer and its record blocks. -/
structure SSTable (V : Type) where
  id : ℕ
  syncId : ℕ
  blocks : List (RecordBlock V)
  nonempty : blocks ≠ []

/-- `BlockScanIter::next` at one record: the record it yields, and the values it drops. -/
def scanRecord (allSynced discardUnsynced : Bool) :
    Record V → Option (Record V) × List (ℕ × V)
  | (key, .synced v) => (some (key, .synced v), [])
  | (key, .unsynced v) =>
    if allSynced then (some (key, .synced v), [])
    else if discardUnsynced then (none, [(key, v)])
    else (some (key, .unsynced v), [])
  | (key, .syncedAndUnsynced sv usv) =>
    if allSynced then (some (key, .synced usv), [(key, sv)])
    else if discardUnsynced then (some (key, .synced sv), [(key, usv)])
    else (some (key, .syncedAndUnsynced sv usv), [])

/-- The records that a scan of a block yields, and the values that it drops. -/
def scanRecords (allSynced discardUnsynced : Bool) (records : List (Record V)) :
    List (Record V) × List (ℕ × V) :=
  (records.filterMap fun r => (scanRecord allSynced discardUnsynced r).1,
    records.flatMap fun r => (scanRecord allSynced discardUnsynced r).2)

/-- `SstIter::next` from the second block on: a block that yields no record ends the scan. -/
def scanBlocks (allSynced discardUnsynced : Bool) :
    List (RecordBlock V) → List (Record V) × List (ℕ × V)
  | [] => ([], [])
  | b :: rest =>
    let (yielded, dropped) := scanRecords allSynced discardUnsynced b.records
    if yielded.isEmpty then ([], dropped)
    else
      let (yieldedRest, droppedRest) := scanBlocks allSynced discardUnsynced rest
      (yielded ++ yieldedRest, dropped ++ droppedRest)

namespace SSTable

variable {V : Type}

/-- `SSTable::build`.  `none` is a panic: the overflow in a block, or no record at all. -/
def build (records : List (Record V)) (syncId id : ℕ) : Option (SSTable V) :=
  (buildFrom [] 0 records).bind fun blocks =>
    if h : blocks = [] then none else some ⟨id, syncId, blocks, h⟩

section

variable (t : SSTable V)

/-- All records of the table. -/
def records : List (Record V) := t.blocks.flatMap RecordBlock.records

/-- `SSTable::range`: the first key. -/
def start : ℕ := (t.blocks.head t.nonempty).first

/-- `SSTable::range`: the last key. -/
def stop : ℕ := (t.blocks.getLast t.nonempty).last

/-- `SSTable::is_within_range`: the key is between the first and the last one of the table. -/
def isWithinRange (key : ℕ) : Bool := t.start ≤ key && decide (key ≤ t.stop)

/-- `SSTable::overlap_with`: the table meets a range of keys. -/
def overlapWith (start stop : ℕ) : Bool :=
  !(decide (t.stop < start) || decide (stop < t.start))

/-- `SSTable::access_point`: the value of a key, from the block that its index names. -/
def accessPoint (key : ℕ) : Option V :=
  (t.blocks.find? (RecordBlock.isWithinRange · key)).bind fun b =>
    b.records.findSome? fun r => if r.1 = key then some r.2.get else none

/-- `SSTable::iter` and all of `SstIter`: the records of the scan, and the values it drops. -/
def iter (masterSyncId : ℕ) (discardUnsynced : Bool) : List (Record V) × List (ℕ × V) :=
  let allSynced := decide (t.syncId < masterSyncId)
  let (yielded, dropped) :=
    scanRecords allSynced discardUnsynced (t.blocks.head t.nonempty).records
  let (yieldedRest, droppedRest) := scanBlocks allSynced discardUnsynced t.blocks.tail
  (yielded ++ yieldedRest, dropped ++ droppedRest)

end

end SSTable

/-! ### Building -/

section Build

variable {V : Type}

/-- The value has a synced and an unsynced version. -/
def ValueEx.isTwo : ValueEx V → Bool
  | .syncedAndUnsynced _ _ => true
  | _ => false

/-- Laying out records of one (`false`) or two (`true`) values from the offset on, no record of two
values falls where fewer than `K_SIZE + MAX_RECORD_SIZE` bytes of the block are left. -/
def layoutFits (innerOffset : ℕ) : List Bool → Bool
  | [] => true
  | two :: rest =>
    let innerOffset := innerOffset + if two then kSize + maxRecordSize else kSize + (1 + vSize)
    decide (innerOffset ≤ recordBlockSize) &&
      layoutFits (if maxRecordSize ≤ recordBlockSize - innerOffset then innerOffset else 0) rest

/-- Records of one value always fit. -/
lemma layoutFits_of_single {innerOffset : ℕ} {flags : List Bool}
    (h : innerOffset + maxRecordSize ≤ recordBlockSize) (hf : ∀ two ∈ flags, two = false) :
    layoutFits innerOffset flags = true := by
  induction flags generalizing innerOffset with
  | nil => rfl
  | cons two flags ih =>
    have htwo : two = false := hf two mem_cons_self
    have hrest : ∀ b ∈ flags, b = false := fun b hb => hf b (mem_cons_of_mem _ hb)
    subst htwo
    have hsize : kSize + (1 + vSize) ≤ maxRecordSize := by decide
    have hblock : maxRecordSize ≤ recordBlockSize := by decide
    simp only [layoutFits, false_eq_true, if_false, and_eq_true, decide_eq_true_eq]
    refine ⟨by omega, ih ?_ hrest⟩
    split <;> omega

/-- Records of one value that stay in a block add their sizes up. -/
lemma layoutFits_replicate_append {innerOffset n : ℕ}
    (h : innerOffset + n * (kSize + (1 + vSize)) + maxRecordSize ≤ recordBlockSize)
    (flags : List Bool) :
    layoutFits innerOffset (List.replicate n false ++ flags) =
      layoutFits (innerOffset + n * (kSize + (1 + vSize))) flags := by
  induction n generalizing innerOffset with
  | zero => simp
  | succ n ih =>
    simp only [kSize, vSize, maxRecordSize, recordBlockSize] at h ih ⊢
    rw [replicate_succ, cons_append, layoutFits]
    simp only [kSize, vSize, maxRecordSize, recordBlockSize, false_eq_true, if_false]
    rw [decide_eq_true (by omega), Bool.true_and, if_pos (by omega), ih (by omega)]
    congr 1
    omega

lemma countedSize_eq (v : ValueEx V) :
    countedSize v = if v.isTwo then kSize + maxRecordSize else kSize + (1 + vSize) := by
  cases v <;> rfl

lemma buildFrom_isSome (rs curr : List (Record V)) (innerOffset : ℕ) :
    (buildFrom curr innerOffset rs).isSome = layoutFits innerOffset (rs.map (·.2.isTwo)) := by
  induction rs generalizing curr innerOffset with
  | nil =>
    rw [buildFrom]
    split <;> rfl
  | cons r rs ih =>
    simp only [buildFrom, map_cons, layoutFits, ← countedSize_eq]
    split
    · rename_i h
      simp [not_le.mpr h]
    · rename_i h
      rw [decide_eq_true (not_lt.mp h), Bool.true_and]
      split
      · exact ih _ _
      · rw [isSome_map]
        exact ih _ _

/-- The number of records of two values that fill a block. -/
def twoPerBlock : ℕ := 1351

/-- Records of two values fit their blocks, and no block has more than `twoPerBlock` of them. -/
lemma exists_buildFrom_of_two {rs : List (Record V)} (h : ∀ r ∈ rs, r.2.isTwo = true)
    (curr : List (Record V)) (hcurr : curr.length < twoPerBlock) :
    ∃ blocks, buildFrom curr (curr.length * (kSize + maxRecordSize)) rs = some blocks ∧
      ∀ b ∈ blocks, b.records.length ≤ twoPerBlock := by
  induction rs generalizing curr with
  | nil =>
    rw [buildFrom]
    split
    · exact ⟨[], rfl, by simp⟩
    · exact ⟨_, rfl, fun b hb => by rw [mem_singleton.mp hb]; exact hcurr.le⟩
  | cons r rs ih =>
    obtain ⟨hr, hrs⟩ := forall_mem_cons.mp h
    have hsize : countedSize r.2 = kSize + maxRecordSize := by rw [countedSize_eq, if_pos hr]
    have hoff : curr.length * (kSize + maxRecordSize) + countedSize r.2 =
        (curr ++ [r]).length * (kSize + maxRecordSize) := by
      rw [hsize, length_append, length_singleton, Nat.add_mul, Nat.one_mul]
    have hlen : (curr ++ [r]).length = curr.length + 1 := by simp
    simp only [buildFrom, hoff]
    have hfit : (curr ++ [r]).length * (kSize + maxRecordSize) ≤ recordBlockSize := by
      simp only [kSize, maxRecordSize, vSize, recordBlockSize, twoPerBlock] at hcurr ⊢
      omega
    rw [if_neg (not_lt.mpr hfit)]
    split
    · rename_i hroom
      refine ih hrs _ ?_
      simp only [kSize, maxRecordSize, vSize, recordBlockSize, twoPerBlock] at hroom ⊢
      omega
    · obtain ⟨blocks, hblocks, hle⟩ := ih hrs [] (Nat.zero_lt_succ _)
      rw [length_nil, Nat.zero_mul] at hblocks
      refine ⟨_, by rw [hblocks]; rfl, forall_mem_cons.mpr ⟨?_, hle⟩⟩
      rw [hlen]
      exact hcurr

lemma flatMap_records_of_buildFrom {curr rs : List (Record V)} {innerOffset : ℕ}
    {blocks : List (RecordBlock V)} (h : buildFrom curr innerOffset rs = some blocks) :
    blocks.flatMap RecordBlock.records = curr ++ rs := by
  induction rs generalizing curr innerOffset blocks with
  | nil =>
    rw [buildFrom] at h
    split at h
    · rename_i hc
      cases h
      simp [hc]
    · cases h
      simp
  | cons r rs ih =>
    simp only [buildFrom] at h
    split at h
    · cases h
    · split at h
      · rw [ih h, append_assoc, singleton_append]
      · obtain ⟨rest, hrest, rfl⟩ := map_eq_some_iff.mp h
        rw [flatMap_cons, ih hrest]
        simp

namespace SSTable

/-- A table has the ID, the sync ID and the records that it was built with. -/
lemma build_spec {rs : List (Record V)} {t : SSTable V} {syncId id : ℕ}
    (h : build rs syncId id = some t) : t.id = id ∧ t.syncId = syncId ∧ t.records = rs := by
  obtain ⟨blocks, hb, h⟩ := bind_eq_some_iff.mp h
  split at h
  · cases h
  · cases h
    exact ⟨rfl, rfl, flatMap_records_of_buildFrom hb⟩

lemma build_isSome {rs : List (Record V)} (hrs : rs ≠ []) (syncId id : ℕ) :
    (build rs syncId id).isSome = layoutFits 0 (rs.map (·.2.isTwo)) := by
  rw [← buildFrom_isSome rs [] 0, build]
  cases hb : buildFrom [] 0 rs with
  | none => rfl
  | some blocks =>
    have hne : blocks ≠ [] := by
      rintro rfl
      exact hrs (flatMap_records_of_buildFrom hb).symm
    simp [hne]

/-- A table of records of two values has as many blocks as these need. -/
lemma exists_build_of_two {rs : List (Record V)} (hne : rs ≠ [])
    (h : ∀ r ∈ rs, r.2.isTwo = true) (syncId id : ℕ) :
    ∃ t, build rs syncId id = some t ∧ rs.length ≤ t.blocks.length * twoPerBlock := by
  obtain ⟨blocks, hb, hle⟩ := exists_buildFrom_of_two h [] (Nat.zero_lt_succ _)
  rw [length_nil, Nat.zero_mul] at hb
  have hrecords := flatMap_records_of_buildFrom hb
  have hblocks : blocks ≠ [] := by
    rintro rfl
    exact hne hrecords.symm
  refine ⟨⟨id, syncId, blocks, hblocks⟩, by rw [build, hb, bind_some, dif_neg hblocks], ?_⟩
  rw [nil_append] at hrecords
  rw [← hrecords, length_flatMap]
  exact sum_le_card_nsmul _ _ (by simpa using hle) |>.trans_eq (by simp)

end SSTable

end Build

/-! ### Scanning -/

section Scan

variable {V : Type}

/-- The value as a sync has left it: all versions are synced if a sync came after them. -/
def ValueEx.asOf (allSynced : Bool) (v : ValueEx V) : ValueEx V :=
  if allSynced then .synced v.get else v

@[simp] lemma ValueEx.get_asOf (allSynced : Bool) (v : ValueEx V) :
    (v.asOf allSynced).get = v.get := by
  cases allSynced <;> rfl

/-- The record and its versions, each with the key. -/
def Record.versions (r : Record V) : List (ℕ × V) := r.2.versions.map (r.1, ·)

section

variable (allSynced : Bool)

/-- A scan that keeps unsynced values yields every record. -/
lemma scanRecord_fst (r : Record V) :
    (scanRecord allSynced false r).1 = some (r.1, r.2.asOf allSynced) := by
  obtain ⟨key, v⟩ := r
  cases v <;> cases allSynced <;> rfl

/-- The versions of a record are those that the scan yields and those that it drops. -/
lemma versions_scanRecord (r : Record V) :
    (Record.versions r).Perm (Record.versions (r.1, r.2.asOf allSynced) ++
      (scanRecord allSynced false r).2) := by
  obtain ⟨key, v⟩ := r
  cases v <;> cases allSynced <;> first | exact .refl _ | exact .swap _ _ _

lemma scanRecords_fst (rs : List (Record V)) :
    (scanRecords allSynced false rs).1 = rs.map fun r => (r.1, r.2.asOf allSynced) := by
  rw [scanRecords, ← filterMap_eq_map]
  exact filterMap_congr fun r _ => scanRecord_fst allSynced r

lemma scanBlocks_eq (blocks : List (RecordBlock V)) :
    scanBlocks allSynced false blocks =
      scanRecords allSynced false (blocks.flatMap RecordBlock.records) := by
  induction blocks with
  | nil => rfl
  | cons b blocks ih =>
    have hb : (scanRecords allSynced false b.records).1.isEmpty = false := by
      rw [scanRecords_fst, isEmpty_map, isEmpty_eq_false_iff]
      exact b.nonempty
    simp only [scanBlocks, hb, ih]
    simp [scanRecords]

end

namespace SSTable

/-- The scan of a table that keeps unsynced values is the scan of all of its records. -/
lemma iter_false (t : SSTable V) (masterSyncId : ℕ) :
    t.iter masterSyncId false = scanRecords (decide (t.syncId < masterSyncId)) false t.records := by
  obtain ⟨id, syncId, blocks, hne⟩ := t
  obtain ⟨b, blocks, rfl⟩ := exists_cons_of_ne_nil hne
  simp only [iter, records, head_cons, tail_cons, scanBlocks_eq]
  simp [scanRecords]

end SSTable

/-- The versions of all records. -/
def versionsOf (rs : List (Record V)) : List (ℕ × V) := rs.flatMap Record.versions

lemma versionsOf_scanRecords (allSynced : Bool) (rs : List (Record V)) :
    (versionsOf rs).Perm (versionsOf (scanRecords allSynced false rs).1 ++
      (scanRecords allSynced false rs).2) := by
  rw [scanRecords_fst, versionsOf, versionsOf, flatMap_map]
  calc rs.flatMap Record.versions
    _ |>.Perm (rs.flatMap fun r => Record.versions (r.1, r.2.asOf allSynced) ++
          (scanRecord allSynced false r).2) :=
        List.Perm.flatMap_left rs fun r _ => versions_scanRecord allSynced r
    _ |>.Perm ((rs.flatMap fun r => Record.versions (r.1, r.2.asOf allSynced)) ++
          rs.flatMap fun r => (scanRecord allSynced false r).2) :=
        (flatMap_append_perm rs _ _).symm

end Scan

/-! ### Ranges and point queries -/

section Query

variable {V : Type}

lemma findSome?_get_eq (rs : List (Record V)) (key : ℕ) :
    (rs.findSome? fun r => if r.1 = key then some r.2.get else none) =
      (rs.lookup key).map ValueEx.get := by
  induction rs with
  | nil => rfl
  | cons r rs ih =>
    rw [findSome?_cons, lookup_cons, ih]
    by_cases h : r.1 = key
    · simp [h]
    · have hne : (key == r.1) = false := beq_eq_false_iff_ne.mpr (Ne.symm h)
      simp [h, hne]

/-- The blocks of an ascending table cover disjoint ranges, so that the first block whose range has
the key is the only one that can have it. -/
lemma accessBlocks_eq {blocks : List (RecordBlock V)}
    (h : Ascending (blocks.flatMap RecordBlock.records)) (key : ℕ) :
    ((blocks.find? (RecordBlock.isWithinRange · key)).bind fun b =>
      b.records.findSome? fun r => if r.1 = key then some r.2.get else none) =
      ((blocks.flatMap RecordBlock.records).lookup key).map ValueEx.get := by
  induction blocks with
  | nil => rfl
  | cons b blocks ih =>
    rw [flatMap_cons] at h ⊢
    obtain ⟨hb, hrest, hlt⟩ := pairwise_append.mp h
    rw [find?_cons, lookup_append]
    cases hin : b.isWithinRange key with
    | true =>
      have hle : b.first ≤ key ∧ key ≤ b.last := by simpa [RecordBlock.isWithinRange] using hin
      have hnone : (blocks.flatMap RecordBlock.records).lookup key = none := by
        rw [lookup_eq_none_iff_forall]
        intro r hr heq
        have hlast := hlt _ (getLast_mem b.nonempty) r hr
        exact absurd (heq ▸ hlast) (not_lt.mpr hle.2)
      rw [hnone, or_none]
      exact findSome?_get_eq _ _
    | false =>
      have hnone : b.records.lookup key = none := by
        rw [lookup_eq_none_iff_forall]
        intro r hr heq
        have hfirst := Ascending.head_le hb b.nonempty hr
        have hlast := Ascending.le_getLast hb b.nonempty hr
        rw [heq] at hfirst hlast
        simp [RecordBlock.isWithinRange, RecordBlock.first, RecordBlock.last, hfirst, hlast] at hin
      rw [hnone, none_or]
      exact ih hrest

namespace SSTable

lemma accessPoint_eq {t : SSTable V} (h : Ascending t.records) (key : ℕ) :
    t.accessPoint key = (t.records.lookup key).map ValueEx.get :=
  accessBlocks_eq h key

lemma records_ne_nil (t : SSTable V) : t.records ≠ [] := by
  obtain ⟨id, syncId, blocks, hne⟩ := t
  obtain ⟨b, blocks, rfl⟩ := exists_cons_of_ne_nil hne
  simp [records, b.nonempty]

lemma start_eq (t : SSTable V) : t.start = (t.records.head t.records_ne_nil).1 := by
  obtain ⟨id, syncId, blocks, hne⟩ := t
  obtain ⟨b, blocks, rfl⟩ := exists_cons_of_ne_nil hne
  simp [start, records, RecordBlock.first, head_append_of_ne_nil b.nonempty]

lemma start_of_cons {t : SSTable V} {r : Record V} {rest : List (Record V)}
    (h : t.records = r :: rest) : t.start = r.1 := by
  rw [start_eq]
  simp only [h, head_cons]

lemma stop_eq (t : SSTable V) : t.stop = (t.records.getLast t.records_ne_nil).1 := by
  obtain ⟨id, syncId, blocks, hne⟩ := t
  obtain ⟨blocks, b, rfl⟩ := (eq_nil_or_concat' blocks).resolve_left hne
  simp [stop, records, RecordBlock.last, getLast_append_of_ne_nil _ b.nonempty]

variable {t : SSTable V} {r : Record V}

lemma start_le (h : Ascending t.records) (hr : r ∈ t.records) : t.start ≤ r.1 :=
  t.start_eq ▸ h.head_le _ hr

lemma le_stop (h : Ascending t.records) (hr : r ∈ t.records) : r.1 ≤ t.stop :=
  t.stop_eq ▸ h.le_getLast _ hr

lemma exists_mem_start (t : SSTable V) : ∃ r ∈ t.records, r.1 = t.start :=
  ⟨_, head_mem _, t.start_eq.symm⟩

lemma exists_mem_stop (t : SSTable V) : ∃ r ∈ t.records, r.1 = t.stop :=
  ⟨_, getLast_mem _, t.stop_eq.symm⟩

lemma isWithinRange_of_mem (h : Ascending t.records) (hr : r ∈ t.records) :
    t.isWithinRange r.1 = true := by
  simp [isWithinRange, start_le h hr, le_stop h hr]

end SSTable

end Query

end Asterinas.Mlsdisk
