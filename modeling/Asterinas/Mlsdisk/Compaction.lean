import Asterinas.Mlsdisk.SsTable

/-!
# Levels and compaction

The levels of sorted string tables, the compaction of records (`4-lsm/compaction.rs`) and the minor
and the major compaction of `4-lsm/tx_lsm_tree.rs`.

Compaction runs on a thread of its own.  A sync and a switch of the memory tables wait until it has
finished, so that the master sync ID, the immutable table and the set of sorted tables that it works
on are changed by nobody else; its transactions are single steps of the tree here.
-/

namespace Asterinas.Mlsdisk

open Framework

/-- `MEMTABLE_CAPACITY`: the values that a memory table takes, 96 MiB of them. -/
def memtableCapacity : ℕ := 2097152

/-- `SSTABLE_CAPACITY`: a sorted table takes as many records as a memory table. -/
def sstableCapacity : ℕ := memtableCapacity

/-- `LsmLevel`: the levels of the tree, of which the first takes the memory tables. -/
inductive LsmLevel
  | l0 | l1 | l2 | l3 | l4 | l5
  deriving DecidableEq

namespace LsmLevel

/-- `LsmLevel::iter`: the levels from newer to older. -/
def all : List LsmLevel := [l0, l1, l2, l3, l4, l5]

/-- `LsmLevel::upper_level`, which the first level does not have. -/
def upperLevel : LsmLevel → Option LsmLevel
  | l0 => none
  | l1 => some l0
  | l2 => some l1
  | l3 => some l2
  | l4 => some l3
  | l5 => some l4

/-- `LsmLevel::lower_level`, which the last level does not have. -/
def lowerLevel : LsmLevel → Option LsmLevel
  | l0 => some l1
  | l1 => some l2
  | l2 => some l3
  | l3 => some l4
  | l4 => some l5
  | l5 => none

/-- The number of tables from which on a level is compacted into the next one: `LEVEL0_RATIO`, and
the powers of `LEVELI_RATIO`. -/
def ratio : LsmLevel → ℕ
  | l0 => 4
  | l1 => 10
  | l2 => 10 ^ 2
  | l3 => 10 ^ 3
  | l4 => 10 ^ 4
  | l5 => 10 ^ 5

end LsmLevel

section Records

variable {V : Type}

/-- `Compactor::compact_value_ex`: the compacted value and the dropped one.  `none` is the case that
the source takes for unreachable. -/
def compactValueEx : ValueEx V → ValueEx V → Option (ValueEx V × Option V)
  | .synced new, .synced old => some (.synced new, some old)
  | .unsynced new, .synced old => some (.syncedAndUnsynced old new, none)
  | .unsynced new, .unsynced old => some (.unsynced new, some old)
  | .unsynced new, .syncedAndUnsynced oldSv oldUsv =>
    some (.syncedAndUnsynced oldSv new, some oldUsv)
  | .syncedAndUnsynced newSv newUsv, .synced oldSv =>
    some (.syncedAndUnsynced newSv newUsv, some oldSv)
  | _, _ => none

/-- The records that `compact_records_and_build_ssts` makes from those of the upper and the lower
tables, and the values that it drops. -/
def compactRecords : List (Record V) → List (Record V) →
    Option (List (Record V) × List (ℕ × V))
  | [], lower => some (lower, [])
  | u :: upper, [] => some (u :: upper, [])
  | (uk, new) :: upper, (lk, old) :: lower =>
    if uk < lk then
      (compactRecords upper ((lk, old) :: lower)).map fun (rs, ds) => ((uk, new) :: rs, ds)
    else if lk < uk then
      (compactRecords ((uk, new) :: upper) lower).map fun (rs, ds) => ((lk, old) :: rs, ds)
    else
      (compactValueEx new old).bind fun (v, dropped) =>
        (compactRecords upper lower).map fun (rs, ds) =>
          ((uk, v) :: rs, dropped.toList.map (uk, ·) ++ ds)
termination_by upper lower => upper.length + lower.length

/-- The records of each new table: `SSTABLE_CAPACITY` of them, and the rest in the last table. -/
def chunks {A : Type} (rs : List A) : List (List A) :=
  if _h : rs = [] then [] else rs.take sstableCapacity :: chunks (rs.drop sstableCapacity)
termination_by rs.length
decreasing_by
  have : 0 < rs.length := List.length_pos_of_ne_nil ‹_›
  rw [List.length_drop, sstableCapacity, memtableCapacity]
  omega

/-- The new tables, in logs with consecutive new IDs. -/
def buildSsts (syncId : ℕ) : List (List (Record V)) → ℕ → Option (List (SSTable V))
  | [], _ => some []
  | rs :: rest, id =>
    (SSTable.build rs syncId id).bind fun sst => (buildSsts syncId rest (id + 1)).map (sst :: ·)

end Records

/-- `SstManager`: the sorted tables of each level, by their IDs. -/
structure SstManager (V : Type) where
  levelSsts : LsmLevel → OrderedMap ℕ (SSTable V)

namespace SstManager

variable {V : Type}

/-- `SstManager::new`: no tables. -/
def new : SstManager V := ⟨fun _ => OrderedMap.empty⟩

section

variable (m : SstManager V)

/-- `SstManager::list_level`: the tables of a level from newer to older. -/
def listLevel (level : LsmLevel) : List (SSTable V) :=
  (m.levelSsts level).values.reverse

/-- `SstManager::insert`: a table comes to a level. -/
def insert (sst : SSTable V) (level : LsmLevel) : SstManager V :=
  ⟨Function.update m.levelSsts level ((m.levelSsts level).insert sst.id sst)⟩

/-- `SstManager::remove`: the table of an ID leaves a level. -/
def remove (id : ℕ) (level : LsmLevel) : SstManager V :=
  ⟨Function.update m.levelSsts level ((m.levelSsts level).erase id)⟩

/-- `SstManager::move_sst`, of a table of the level `source`. -/
def moveSst (sst : SSTable V) (source target : LsmLevel) : SstManager V :=
  (m.remove sst.id source).insert sst target

/-- `SstManager::find_overlapped_ssts`: the tables of a level that meet a range of keys. -/
def findOverlappedSsts (start stop : ℕ) (level : LsmLevel) : List (SSTable V) :=
  (m.listLevel level).filter (·.overlapWith start stop)

/-- `SstManager::require_major_compaction`.  `none` is the assertion that the level is not the
last one. -/
def requireMajorCompaction (level : LsmLevel) : Option Bool :=
  if level = .l5 then none else some (level.ratio ≤ (m.levelSsts level).entries.length)

/-- `TreeInner::update_sst_manager`: the new tables come and then the old ones go. -/
def updateSstManager (created : List (SSTable V × LsmLevel))
    (deleted : List (ℕ × LsmLevel)) : SstManager V :=
  deleted.foldl (fun m d => m.remove d.1 d.2) (created.foldl (fun m c => m.insert c.1 c.2) m)

/-- What a compaction leaves: the tables, the next free log ID, and the records that were dropped,
one for each call of `on_drop_record`. -/
structure Compacted (V : Type) where
  manager : SstManager V
  nextId : ℕ
  dropped : List (ℕ × V)

/-- The tables of the lower level that `do_major_compaction` merges with the table `upper`. -/
def lowerSsts (upper : SSTable V) (toLevel : LsmLevel) : List (SSTable V) :=
  (m.findOverlappedSsts upper.start upper.stop toLevel).mergeSort
    fun a b => decide (a.start ≤ b.start)

/-- The case of `do_major_compaction` in which there are overlapping tables. -/
def mergeSsts (upper : SSTable V) (lower : List (SSTable V))
    (fromLevel toLevel : LsmLevel) (masterSyncId nextId : ℕ) : Option (Compacted V) :=
  let upperScan := upper.iter masterSyncId false
  let lowerScans := lower.map (·.iter masterSyncId false)
  (compactRecords upperScan.1 (lowerScans.flatMap (·.1))).bind fun (records, dropped) =>
    (buildSsts masterSyncId (chunks records) nextId).map fun created =>
      { manager := m.updateSstManager (created.map (·, toLevel))
          ((upper.id, fromLevel) :: lower.map fun sst => (sst.id, toLevel))
        nextId := nextId + created.length
        dropped := upperScan.2 ++ lowerScans.flatMap (·.2) ++ dropped }

/-- The transaction of `TreeInner::do_major_compaction`.  `none` is a panic. -/
def majorCompaction (toLevel : LsmLevel) (masterSyncId nextId : ℕ) : Option (Compacted V) :=
  toLevel.upperLevel.bind fun fromLevel =>
    (m.listLevel fromLevel).getLast?.bind fun upper =>
      let lower := m.lowerSsts upper toLevel
      if lower.isEmpty then some ⟨m.moveSst upper fromLevel toLevel, nextId, []⟩
      else m.mergeSsts upper lower fromLevel toLevel masterSyncId nextId

/-- The transaction of `TreeInner::do_minor_compaction`.  `none` is a panic. -/
def minorCompaction (immutable : MemTable V) (nextId : ℕ) : Option (Compacted V) :=
  (SSTable.build immutable.table.entries immutable.syncId nextId).map fun sst =>
    ⟨m.insert sst .l0, nextId + 1, []⟩

end

end SstManager

end Asterinas.Mlsdisk
