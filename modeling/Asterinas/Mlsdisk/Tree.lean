import Asterinas.Mlsdisk.CompactionSpec

/-!
# The tables of the tree over a whole run

The memory tables and the sorted tables of a `TxLsmTree`, with the steps that change them, and what
these tables say about a key: its versions from newer to older.
-/

namespace Asterinas.Mlsdisk

open Framework

/-- `SSTable::access_point` of a table in the loop of `do_read_tx`: a table whose range does not
have the key is skipped. -/
def SSTable.search {V : Type} (t : SSTable V) (key : ℕ) : Option V :=
  if t.isWithinRange key then t.accessPoint key else none

/-- The search of `TreeInner::do_read_tx`, from newer to older tables. -/
def SstManager.search {V : Type} (m : SstManager V) (key : ℕ) : Option V :=
  LsmLevel.all.findSome? fun level => (m.listLevel level).findSome? (·.search key)

/-- The tables of a `TreeInner`. -/
structure Tree (V : Type) where
  memtables : MemTableManager V
  /-- The immutable table is to be compacted: the compaction thread has not finished. -/
  pending : Bool
  sstManager : SstManager V
  masterSyncId : ℕ
  /-- All log IDs in use are below. -/
  nextId : ℕ

/-- The steps of a run without a crash. -/
inductive Step (V : Type)
  /-- `put`, up to the memory table. -/
  | put (key : ℕ) (value : V)
  /-- The rest of a `put` that has filled the memory table. -/
  | switch
  | sync
  /-- A log for other records is created, such as a write-ahead log. -/
  | newLog
  /-- `do_minor_compaction`. -/
  | minor
  /-- `do_major_compaction`. -/
  | major (toLevel : LsmLevel)

/-- The step is a compaction. -/
def Step.IsCompaction {V : Type} : Step V → Prop
  | .minor => True
  | .major _ => True
  | _ => False

namespace Tree

variable {V : Type}

/-- `TreeInner::format`: an empty tree. -/
def format : Tree V := ⟨MemTableManager.new 0 memtableCapacity, false, SstManager.new, 0, 0⟩

section

variable (t : Tree V)

/-- The step can be taken: a `put` waits while the table is full, a switch and a sync wait for the
compaction, and there is something to compact. -/
def Enabled : Step V → Prop
  | .put _ _ => t.memtables.isFull = false
  | .switch => t.memtables.isFull = true ∧ t.pending = false
  | .sync => t.pending = false
  | .newLog => True
  | .minor => t.pending = true
  | .major toLevel => ∃ fromLevel, toLevel.upperLevel = some fromLevel ∧
      t.sstManager.listLevel fromLevel ≠ []

/-- The tree after a compaction. -/
def withCompacted (pending : Bool) (c : SstManager.Compacted V) : Tree V × List (ℕ × V) :=
  ({ t with pending, sstManager := c.manager, nextId := c.nextId }, c.dropped)

/-- One step: the tree, and the records that were dropped.  `none` is a panic. -/
def step : Step V → Option (Tree V × List (ℕ × V))
  | .put key value =>
    let (memtables, dropped) := t.memtables.put key value
    some ({ t with memtables }, dropped.toList.map (key, ·))
  | .switch => t.memtables.switch.map fun memtables => ({ t with memtables, pending := true }, [])
  | .sync =>
    let (memtables, dropped) := t.memtables.sync (t.masterSyncId + 1)
    some ({ t with memtables, masterSyncId := t.masterSyncId + 1 }, dropped)
  | .newLog => some ({ t with nextId := t.nextId + 1 }, [])
  | .minor =>
    (t.sstManager.minorCompaction t.memtables.immutable t.nextId).map (t.withCompacted false)
  | .major toLevel =>
    (t.sstManager.majorCompaction toLevel t.masterSyncId t.nextId).map (t.withCompacted t.pending)

/-- The trees that a run without a crash can reach. -/
inductive Reachable : Tree V → Prop
  | format : Reachable format
  | step {t t' : Tree V} {s : Step V} {dropped : List (ℕ × V)} : Reachable t → t.Enabled s →
      t.step s = some (t', dropped) → Reachable t'

/-! ### What the tables say about a key -/

/-- The immutable table, while it is not in a sorted table. -/
def pendingEntries : List (Record V) :=
  if t.pending then t.memtables.immutable.table.entries else []

/-- The newest value of a key: memory tables first, then the levels from newer to older. -/
def newest (key : ℕ) : Option V :=
  ((t.memtables.mutable.get key).or ((t.pendingEntries.lookup key).map ValueEx.get)).or
    (t.sstManager.search key)

end

end Tree

namespace SSTable

variable {V : Type}

/-- What the table says about a key at a sync ID: in a table from before the last sync everything
is synced. -/
def view (t : SSTable V) (masterSyncId key : ℕ) : Option (ValueEx V) :=
  (t.records.lookup key).map (ValueEx.asOf (decide (t.syncId < masterSyncId)))

/-- The versions of all records of the table. -/
def versions (t : SSTable V) : List (ℕ × V) := versionsOf t.records

/-- Two tables have disjoint key ranges. -/
def Apart (a b : SSTable V) : Prop := a.stop < b.start ∨ b.stop < a.start

end SSTable

namespace SstManager

variable {V : Type}

/-- The values of a key in a level, from newer to older tables. -/
def levelChain (m : SstManager V) (masterSyncId : ℕ) (level : LsmLevel) (key : ℕ) :
    List (ValueEx V) :=
  (m.listLevel level).filterMap (·.view masterSyncId key)

/-- All versions in the tables of a level. -/
def levelVersions (m : SstManager V) (level : LsmLevel) : List (ℕ × V) :=
  (m.listLevel level).flatMap SSTable.versions

end SstManager

namespace Tree

variable {V : Type}

section

variable (t : Tree V) (key : ℕ)

/-- The values of a key in the memory tables, from newer to older. -/
def memChain : List (ValueEx V) :=
  (t.memtables.mutable.table.get? key).toList ++ (t.pendingEntries.lookup key).toList

/-- The values of a key in all tables, from newer to older. -/
def chain : List (ValueEx V) :=
  t.memChain key ++
    LsmLevel.all.flatMap fun level => t.sstManager.levelChain t.masterSyncId level key

/-- The newest synced value of a key. -/
def syncedValue : Option V := (t.chain key).findSome? ValueEx.syncedPart

end

/-- All versions that are in a table. -/
def versions (t : Tree V) : List (ℕ × V) :=
  versionsOf t.memtables.mutable.table.entries ++ versionsOf t.pendingEntries ++
    LsmLevel.all.flatMap t.sstManager.levelVersions

end Tree

end Asterinas.Mlsdisk
