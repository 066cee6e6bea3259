import Asterinas.Framework.Exec
import Asterinas.Mlsdisk.Error
import Asterinas.Mlsdisk.RangeQuery
import Asterinas.Mlsdisk.TreeCorrectness

/-!
# Transactions and the write-ahead log

The calls of a `TxLsmTree` by one thread (`4-lsm/tx_lsm_tree.rs`), with the transaction table
(`tx/mod.rs`, `tx/current.rs`) and the append transaction of the write-ahead log (`4-lsm/wal.rs`).

Transactions are looked up by thread.  The table below is the entry of the thread that makes the
calls; the compaction thread has an entry of its own.  A transaction is modelled by what it will
append to write-ahead logs when it is committed; what it reads is committed.
-/

namespace Asterinas.Mlsdisk

open Framework Exec

/-- What a write-ahead log holds: records and sync IDs. -/
inductive WalEntry (V : Type)
  | record (key : ℕ) (value : V)
  | sync (id : ℕ)
  deriving DecidableEq

/-- The bytes of an entry: the flag, and the key and the value or the sync ID. -/
def WalEntry.size {V : Type} : WalEntry V → ℕ
  | record _ _ => 1 + kSize + vSize
  | sync _ => 1 + 8

/-- `WalTxInner`. -/
structure WalTx (V : Type) where
  appendedLog : Option ℕ
  logId : Option ℕ
  syncId : ℕ
  recordBuf : List (WalEntry V)

/-- `WalAppendTx::BUF_CAP`. -/
def walBufCap : ℕ := 1024 * 4096

/-- `Tx`: the entries that it appends to logs. -/
abbrev Tx (V : Type) := List (ℕ × List (WalEntry V))

/-- The committed write-ahead logs. -/
abbrev Wals (V : Type) := OrderedMap ℕ (List (WalEntry V))

/-- The logs after a transaction has been committed. -/
def applyTx {V : Type} (wals : Wals V) (tx : Tx V) : Wals V :=
  tx.foldl (fun wals e => wals.insert e.1 ((wals.get? e.1).getD [] ++ e.2)) wals

/-- The transaction has created a log and appended nothing to it, so that there is no root of its
Merkle tree. -/
def Tx.rootless {V : Type} (tx : Tx V) : Bool :=
  tx.any fun e => e.2.isEmpty && tx.all fun e' => decide (e'.1 ≠ e.1) || e'.2.isEmpty

/-- Where the compaction thread is. -/
inductive CompactPhase
  /-- About to ask whether the level has to be compacted. -/
  | check (level : LsmLevel)
  | major (toLevel : LsmLevel)
  | minor
  deriving DecidableEq

/-- `TreeInner`, with the transaction of the calling thread. -/
structure TreeInner (V : Type) where
  tree : Tree V
  wal : WalTx V
  tx : Option (Tx V)
  wals : Wals V
  /-- The compaction thread, and the log that it discards. -/
  compactor : Option (CompactPhase × ℕ)
  /-- A `put` that has filled the memory table waits for the compaction. -/
  waiting : Option ℕ
  /-- The calls of `on_drop_record` so far. -/
  dropped : List (ℕ × V)

/-- All tables in the order of the search. -/
def SstManager.tables {V : Type} (m : SstManager V) : List (SSTable V) :=
  LsmLevel.all.flatMap m.listLevel

namespace TreeInner

variable {V : Type}

/-- `TreeInner::format`: an empty tree, without a log or a transaction. -/
def format : TreeInner V :=
  ⟨Tree.format, ⟨none, none, 0, []⟩, none, OrderedMap.empty, none, none, []⟩

/-- The calls as programs. -/
abbrev Prog (V α : Type) := Exec Error (TreeInner V) α

/-! ### Transactions -/

/-- `TxProvider::new_tx`: a thread that has a transaction gets the same one again. -/
def newTx : Prog V Unit := modify fun s => { s with tx := some (s.tx.getD []) }

/-- `CurrentTx::context`, which panics without a transaction. -/
def context : Prog V Unit := do
  let s ← Exec.get
  require (s.tx.isSome = true)

/-- `CurrentTx::commit`.  `TxLogStoreEdit::apply_to` panics on a created log that has no root. -/
def commitTx : Prog V Unit := do
  let s ← Exec.get
  let tx ← ofOption s.tx
  require (tx.rootless = false)
  modify fun s => { s with tx := none, wals := applyTx s.wals tx }

/-- `CurrentTx::abort`. -/
def abortTx : Prog V Unit := do
  let s ← Exec.get
  let _ ← ofOption s.tx
  modify fun s => { s with tx := none }

/-- Append entries to a log within the transaction. -/
def appendLog (id : ℕ) (entries : List (WalEntry V)) : Prog V Unit :=
  modify fun s => { s with tx := s.tx.map (· ++ [(id, entries)]) }

/-! ### The write-ahead log -/

/-- `TxLogStore::create_log` in the bucket of the write-ahead logs. -/
def createLog : Prog V ℕ := do
  let s ← Exec.get
  appendLog s.tree.nextId []
  modify fun s => { s with tree := { s.tree with nextId := s.tree.nextId + 1 } }
  return s.tree.nextId

/-- `TxLogStore::open_log`: the log must exist; otherwise the transaction is aborted. -/
def openLog (id : ℕ) : Prog V ℕ := do
  let s ← Exec.get
  if (s.wals.get? id).isNone then
    abortTx
    throw ⟨.notFound, "log not found"⟩
  else return id

/-- `WalTxInner::prepare`: a transaction with the log of the last sync, or with a new one. -/
def prepare : Prog V Unit := do
  let s ← Exec.get
  require (s.wal.appendedLog = none)
  newTx
  context
  let id ← match s.wal.logId with
    | some logId => openLog logId
    | none => createLog
  require (s.wal.recordBuf = [])
  modify fun s =>
    { s with wal := { s.wal with
        logId := some id
        appendedLog := some id
        recordBuf := [.sync s.wal.syncId] } }

/-- `WalAppendTx::flush_buf`, with the clearing of the buffer after it. -/
def flushBuf (log : ℕ) : Prog V Unit := do
  let s ← Exec.get
  require (s.wal.recordBuf.isEmpty = false)
  context
  appendLog log s.wal.recordBuf
  modify fun s => { s with wal := { s.wal with recordBuf := [] } }

/-- Push an entry to the buffer. -/
def pushEntry (entry : WalEntry V) : Prog V Unit :=
  modify fun s => { s with wal := { s.wal with recordBuf := s.wal.recordBuf ++ [entry] } }

/-- The preparation at the start of `append` and of `sync`. -/
def prepareIfNeeded : Prog V Unit := do
  let s ← Exec.get
  if s.wal.appendedLog.isNone then prepare

/-- `WalAppendTx::append`: the record is buffered, and a full buffer is written to the log. -/
def append (key : ℕ) (value : V) : Prog V Unit := do
  prepareIfNeeded
  pushEntry (.record key value)
  let s ← Exec.get
  if (s.wal.recordBuf.map WalEntry.size).sum ≤ walBufCap - 49 then return ()
  else do
    let log ← ofOption s.wal.appendedLog
    flushBuf log

/-- `WalAppendTx::commit`. -/
def commitWal : Prog V ℕ := do
  let s ← Exec.get
  let log ← ofOption s.wal.appendedLog
  let id ← ofOption s.wal.logId
  require (id = log)
  modify fun s => { s with wal := { s.wal with appendedLog := none, logId := none } }
  if s.wal.recordBuf.isEmpty then pure () else flushBuf log
  commitTx
  return id

/-- `WalAppendTx::sync`. -/
def syncWal (syncId : ℕ) : Prog V Unit := do
  prepareIfNeeded
  pushEntry (.sync syncId)
  let s ← Exec.get
  let log ← ofOption s.wal.appendedLog
  modify fun s => { s with wal := { s.wal with syncId, appendedLog := none } }
  flushBuf log
  commitTx

/-! ### Calls of the tree -/

/-- A step of the tables, whose `none` is a panic. -/
def stepTree (step : Step V) : Prog V Unit := do
  let s ← Exec.get
  let (tree, dropped) ← ofOption (s.tree.step step)
  modify fun s => { s with tree, dropped := s.dropped ++ dropped }

/-- `TxLsmTree::put`, up to the wait for the compaction. -/
def put (key : ℕ) (value : V) : Prog V Unit := do
  append key value
  stepTree (.put key value)
  let s ← Exec.get
  if s.tree.memtables.isFull = false then return ()
  else do
    let walId ← commitWal
    modify fun s => { s with waiting := some walId }

/-- The rest of a `put` that has filled the memory table, when the compaction has finished. -/
def finishPut : Prog V Unit := do
  let s ← Exec.get
  let walId ← ofOption s.waiting
  stepTree .switch
  modify fun s => { s with waiting := none, compactor := some (.check .l0, walId) }

/-- `TreeInner::do_read_tx`: the sorted tables are searched in a transaction of their own. -/
def doReadTx (key : ℕ) : Prog V V := do
  newTx
  context
  let s ← Exec.get
  commitTx
  match s.tree.sstManager.search key with
  | some value => return value
  | none => throw ⟨.notFound, "target sst not found"⟩

/-- `TreeInner::get`: the memory tables are searched and then the sorted ones. -/
def get (key : ℕ) : Prog V V := do
  let s ← Exec.get
  match s.tree.memtables.get key with
  | some value => return value
  | none => doReadTx key

/-- `TreeInner::do_read_range_tx`: the sorted tables are searched for the keys that are not found
yet. -/
def doReadRangeTx (c : RangeQueryCtx V) : Prog V (RangeQueryCtx V) := do
  newTx
  context
  let s ← Exec.get
  let (found, c) ← ofOption (readRange s.tree.sstManager.tables c)
  commitTx
  if found then return c else throw ⟨.notFound, "target sst not found"⟩

/-- `TreeInner::get_range` of a new query. -/
def getRange (start numValues : ℕ) : Prog V (RangeQueryCtx V) := do
  let s ← Exec.get
  let c ← ofOption (s.tree.memtables.getRange (RangeQueryCtx.new start numValues))
  if c.isCompleted then return c else doReadRangeTx c

/-- `TreeInner::sync`, when the compaction has finished. -/
def sync : Prog V Unit := do
  let s ← Exec.get
  syncWal (s.tree.masterSyncId + 1)
  stepTree .sync

/-! ### The compaction thread -/

/-- What follows the check of a level: the compaction into the next one, or the minor one. -/
def nextPhase (manager : SstManager V) (level : LsmLevel) : Option CompactPhase :=
  (manager.requireMajorCompaction level).bind fun required =>
    if required then level.lowerLevel.map .major else some .minor

/-- `TxLogStore::delete_log` of the log that the minor compaction discards. -/
def deleteLog (id : ℕ) : Prog V Unit := do
  let s ← Exec.get
  if (s.wals.get? id).isNone then throw ⟨.txAborted, "minor compaction TX failed"⟩
  else modify fun s => { s with wals := s.wals.erase id }

/-- The next step of the compaction thread, which is one transaction at most. -/
def compact : Prog V Unit := do
  let s ← Exec.get
  let (phase, walId) ← ofOption s.compactor
  match phase with
  | .check level => do
    let next ← ofOption (nextPhase s.tree.sstManager level)
    modify fun s => { s with compactor := some (next, walId) }
  | .major toLevel => do
    stepTree (.major toLevel)
    modify fun s => { s with compactor := some (.check toLevel, walId) }
  | .minor => do
    let (tree, dropped) ← ofOption (s.tree.step .minor)
    deleteLog walId
    modify fun s => { s with tree, dropped := s.dropped ++ dropped, compactor := none }

end TreeInner

end Asterinas.Mlsdisk
