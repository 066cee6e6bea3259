import Asterinas.Mlsdisk.TxTreeRun

/-!
# Crashes and recovery

`TreeInner::recover` (`4-lsm/tx_lsm_tree.rs`) from the committed state of the log store, and the
runs of a tree with crashes.

A transaction of the log store is atomic, and it is durable when the store has been synced.  So the
committed states since the last sync of the store are what a crash can leave; `MlsDisk::sync` syncs
the tree and then the store.
-/

namespace Asterinas.Mlsdisk

open Framework

variable {V : Type}

/-- The committed logs: the write-ahead logs and the sorted tables. -/
structure Store (V : Type) where
  wals : Wals V
  sstManager : SstManager V

/-- What the scan of a write-ahead log has seen. -/
structure WalScan (V : Type) where
  records : List (ℕ × V)
  maxSyncId : Option ℕ
  syncedLen : ℕ

/-- One entry of the scan. -/
def WalScan.entry (scan : WalScan V) : WalEntry V → WalScan V
  | .record key value => { scan with records := scan.records ++ [(key, value)] }
  | .sync id => { scan with maxSyncId := some id, syncedLen := scan.records.length }

/-- The scan of all entries. -/
def scanOf (entries : List (WalEntry V)) : WalScan V := entries.foldl WalScan.entry ⟨[], none, 0⟩

/-- `WalAppendTx::collect_synced_records_and_sync_id`: what the last sync in a log covers. -/
def collectSyncedRecordsAndSyncId (entries : List (WalEntry V)) : List (ℕ × V) × ℕ :=
  match (scanOf entries).maxSyncId with
  | some id => ((scanOf entries).records.take (scanOf entries).syncedLen, id)
  | none => ([], 0)

/-- `TreeInner::recover_from_wal`, which opens the write-ahead log with the largest ID. -/
def recoverFromWal (wals : Wals V) : List (ℕ × V) × ℕ :=
  match wals.entries.getLast? with
  | some (_, entries) => collectSyncedRecordsAndSyncId entries
  | none => ([], 0)

/-- `TreeInner::recover_memtable_manager`: the memory tables, and the records that the puts drop. -/
def recoverMemtableManager (syncId : ℕ) (records : List (ℕ × V)) :
    MemTableManager V × List (ℕ × V) :=
  records.foldl (fun (m, dropped) (key, value) =>
      let (m, old) := m.put key value
      (m, dropped ++ old.toList.map (key, ·)))
    (MemTableManager.new syncId memtableCapacity, [])

namespace SstManager

/-- The tables with their levels, in the order of `LsmLevel::iter` and `list_level`. -/
def leveled (m : SstManager V) : List (SSTable V × LsmLevel) :=
  LsmLevel.all.flatMap fun level => (m.listLevel level).map (·, level)

/-- The maximum sync ID of `TreeInner::recover_sst_manager`. -/
def maxSyncId (m : SstManager V) : ℕ := (m.tables.map SSTable.syncId).foldr max 0

/-- What the loop of `do_migration_tx` collects. -/
structure Migrated (V : Type) where
  created : List (SSTable V × LsmLevel)
  deleted : List (ℕ × LsmLevel)
  nextId : ℕ
  dropped : List (ℕ × V)

/-- The loop of `do_migration_tx`: a table with synced records is copied without the unsynced ones,
and is not deleted; a table without synced records is deleted.  `none` is a panic. -/
def migrateSsts (masterSyncId : ℕ) : List (SSTable V × LsmLevel) → ℕ → Option (Migrated V)
  | [], nextId => some ⟨[], [], nextId, []⟩
  | (sst, level) :: rest, nextId =>
    if sst.syncId = masterSyncId then
      let (synced, dropped) := sst.iter masterSyncId true
      if synced.isEmpty then
        (migrateSsts masterSyncId rest nextId).map fun m =>
          { m with deleted := (sst.id, level) :: m.deleted, dropped := dropped ++ m.dropped }
      else
        (SSTable.build synced masterSyncId nextId).bind fun copy =>
          (migrateSsts masterSyncId rest (nextId + 1)).map fun m =>
            { m with created := (copy, level) :: m.created, dropped := dropped ++ m.dropped }
    else migrateSsts masterSyncId rest nextId

/-- `TreeInner::do_migration_tx`. -/
def migrate (m : SstManager V) (masterSyncId nextId : ℕ) : Option (Compacted V) :=
  (migrateSsts masterSyncId m.leveled nextId).map fun r =>
    ⟨m.updateSstManager r.created r.deleted, r.nextId, r.dropped⟩

end SstManager

namespace Store

/-- The largest sync ID in the logs. -/
def syncId (d : Store V) : ℕ := max (recoverFromWal d.wals).2 d.sstManager.maxSyncId

/-- The next free log ID: above the IDs of all logs. -/
def nextId (d : Store V) : ℕ :=
  (d.wals.entries.map Prod.fst ++ d.sstManager.tables.map SSTable.id).foldr
    (fun id n => max (id + 1) n) 0

/-- `TreeInner::recover`, with the sync ID of a `SyncIdStore` if there is one. -/
def recover (d : Store V) (syncIdStore : Option ℕ) : Option (TreeInner V) :=
  let (records, _) := recoverFromWal d.wals
  let syncId := syncIdStore.getD d.syncId
  let (memtables, dropped) := recoverMemtableManager syncId records
  (d.sstManager.migrate syncId d.nextId).map fun c =>
    { tree := ⟨memtables, false, c.manager, syncId, c.nextId⟩
      wal := ⟨none, none, syncId, []⟩
      tx := none
      wals := d.wals
      compactor := none
      waiting := none
      dropped := dropped ++ c.dropped }

end Store

namespace TreeInner

/-- The committed state of the store. -/
def store (s : TreeInner V) : Store V := ⟨s.wals, s.tree.sstManager⟩

/-- The value that a read of the key returns. -/
def visible (s : TreeInner V) (key : ℕ) : Option V :=
  (s.tree.memtables.get key).or (s.tree.sstManager.search key)

end TreeInner

/-- A tree with its store. -/
structure Lsm (V : Type) where
  inner : TreeInner V
  /-- The tree has been synced, and the store is about to be. -/
  syncing : Bool
  /-- The committed states since the last sync of the store, from newer to older. -/
  crashStates : List (Store V)
  /-- The sync ID in a `SyncIdStore`. -/
  syncIdStore : Option ℕ

/-- What happens in a run with crashes. -/
inductive Event (V : Type)
  | put (key : ℕ) (value : V)
  | finishPut
  /-- `TxLsmTree::sync`. -/
  | sync
  /-- `MasterSyncId::increment`, at its end. -/
  | writeSyncId
  /-- `TxLogStore::sync`, which follows. -/
  | syncStore
  | compact
  /-- A crash that leaves the given committed state, and the recovery from it. -/
  | crash (nth : ℕ)

namespace Lsm

/-- A formatted tree, with a `SyncIdStore` or without one. -/
def format (withStore : Bool) : Lsm V :=
  ⟨TreeInner.format, false, [TreeInner.store TreeInner.format], if withStore then some 0 else none⟩

/-- A call of the tree: afterwards its committed state may be what a crash leaves. -/
def callTree (s : Lsm V) (c : Call V) : Option (Lsm V) :=
  match TreeInner.call c s.inner with
  | .ok _ inner => some { s with inner, crashStates := inner.store :: s.crashStates }
  | _ => none

/-- One event.  `none` if it cannot happen, or if the call does not return. -/
def step (s : Lsm V) : Event V → Option (Lsm V)
  | .put key value =>
    if s.syncing = false ∧ s.inner.waiting = none then s.callTree (.put key value) else none
  | .finishPut =>
    if s.inner.waiting.isSome = true ∧ s.inner.compactor = none then s.callTree .finishPut else none
  | .sync =>
    if s.syncing = false ∧ s.inner.waiting = none ∧ s.inner.compactor = none then
      (s.callTree .sync).map fun s' => { s' with syncing := true }
    else none
  | .writeSyncId =>
    if s.syncing = true then
      some { s with syncIdStore := s.syncIdStore.map fun _ => s.inner.tree.masterSyncId }
    else none
  | .syncStore =>
    if s.syncing = true ∧ s.syncIdStore.all (· = s.inner.tree.masterSyncId) = true then
      some { s with syncing := false, crashStates := [s.inner.store] }
    else none
  | .compact => if s.inner.compactor.isSome = true then s.callTree .compact else none
  | .crash nth =>
    s.crashStates[nth]?.bind fun d => (d.recover s.syncIdStore).map fun inner =>
      { s with inner, syncing := false, crashStates := [inner.store, d] }

end Lsm

end Asterinas.Mlsdisk
