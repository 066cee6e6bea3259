import Asterinas.Mlsdisk.TxTree

/-!
# The tree is a map under calls by one thread

The open transaction of the write-ahead log, the table of transactions and the logs stay consistent
through every call, as long as no read is sent to the sorted tables while that transaction is open:
a read looks its own transaction up by thread, gets the open one and commits it.
-/

namespace Asterinas.Mlsdisk

open Framework Exec Option List

variable {V : Type}

variable {id : ℕ} {tx : Tx V}

/-- The entries that a transaction appends to a log. -/
def txEntries (tx : Tx V) (id : ℕ) : List (WalEntry V) :=
  tx.flatMap fun e => if e.1 = id then e.2 else []

lemma get?_applyTx (wals : Wals V) (tx : Tx V) (id : ℕ) :
    (applyTx wals tx).get? id = if ∃ e ∈ tx, e.1 = id then
      some ((wals.get? id).getD [] ++ txEntries tx id) else wals.get? id := by
  induction tx generalizing wals with
  | nil => simp [applyTx]
  | cons e tx ih =>
    have hstep : applyTx wals (e :: tx) =
        applyTx (wals.insert e.1 ((wals.get? e.1).getD [] ++ e.2)) tx := rfl
    rw [hstep, ih, OrderedMap.get?_insert]
    by_cases heq : e.1 = id
    · subst heq
      by_cases hex : ∃ e' ∈ tx, e'.1 = e.1
      · simp [hex, txEntries]
      · have hnil : txEntries tx e.1 = [] := by
          refine flatMap_eq_nil_iff.mpr fun e' he' => if_neg fun h => hex ⟨e', he', h⟩
        simp [hex, txEntries] at hnil ⊢
        exact hnil
    · have hiff : (∃ e' ∈ e :: tx, e'.1 = id) ↔ ∃ e' ∈ tx, e'.1 = id := by simp [heq]
      have hentries : txEntries (e :: tx) id = txEntries tx id := by simp [txEntries, heq]
      rw [if_neg (Ne.symm heq), hentries]
      by_cases hex : ∃ e' ∈ tx, e'.1 = id
      · rw [if_pos hex, if_pos (hiff.mpr hex)]
      · rw [if_neg hex, if_neg (mt hiff.mp hex)]

/-- The logs after a commit are those before and those that the transaction names. -/
lemma isSome_applyTx {wals : Wals V} :
    ((applyTx wals tx).get? id).isSome = true ↔
      (wals.get? id).isSome = true ∨ ∃ e ∈ tx, e.1 = id := by
  rw [get?_applyTx]
  split <;> simp [*]

/-! ### The newest value of a key -/

namespace Tree

variable {t : Tree V}

lemma get_put (m : MemTable V) (key : ℕ) (value : V) (k : ℕ) :
    (m.put key value).1.get k = if k = key then some value else m.get k := by
  rw [MemTable.get, MemTable.put_table, OrderedMap.get?_insert]
  split
  · rw [map_some, MemTable.putValue]
    cases m.table.get? key with
    | none => rfl
    | some v => rw [ValueEx.get_put]
  · rfl

/-- A put sets the newest value of its key. -/
lemma newest_put (key : ℕ) (value : V) (k : ℕ) :
    ({ t with memtables := (t.memtables.put key value).1 } : Tree V).newest k =
      if k = key then some value else t.newest k := by
  change (((t.memtables.mutable.put key value).1.get k).or _).or _ = _
  rw [get_put]
  split
  · rfl
  · rfl

lemma Inv.get?_sync (h : t.Inv) (k : ℕ) :
    (t.memtables.mutable.sync (t.masterSyncId + 1)).1.table.get? k =
      (t.memtables.mutable.table.get? k).map (·.sync.1) := by
  have hne : t.memtables.mutable.syncId ≠ t.masterSyncId + 1 := by
    rw [h.mutable_syncId]
    exact (lt_add_one _).ne
  rw [MemTable.sync_table h.mutable hne, OrderedMap.get?_mapValues]

lemma Inv.get_sync (h : t.Inv) (k : ℕ) :
    (t.memtables.mutable.sync (t.masterSyncId + 1)).1.get k = t.memtables.mutable.get k := by
  rw [MemTable.get, h.get?_sync, Option.map_map, MemTable.get]
  exact congrArg (Option.map · _) (funext ValueEx.get_sync)

lemma Inv.newest_sync (h : t.Inv) (k : ℕ) :
    ({ t with
        memtables := (t.memtables.sync (t.masterSyncId + 1)).1
        masterSyncId := t.masterSyncId + 1 } : Tree V).newest k = t.newest k := by
  change (((t.memtables.mutable.sync (t.masterSyncId + 1)).1.get k).or _).or _ = _
  rw [h.get_sync]
  rfl

lemma newest_switch (hp : t.pending = false) {memtables : MemTableManager V}
    (hs : t.memtables.switch = some memtables) (k : ℕ) :
    ({ t with memtables, pending := true } : Tree V).newest k = t.newest k := by
  rw [MemTableManager.switch] at hs
  split at hs
  · cases hs
    have hempty : (t.memtables.immutable.clear.sync t.memtables.mutable.syncId).1.get k = none := by
      rw [MemTable.get, MemTable.sync]
      split <;> simp [MemTable.clear]
    change ((((t.memtables.immutable.clear.sync t.memtables.mutable.syncId).1.get k).or
      ((t.memtables.mutable.table.entries.lookup k).map ValueEx.get)).or _) = _
    rw [hempty, newest, pendingEntries, hp, lookup_entries]
    simp [MemTable.get]
  · cases hs

/-- A minor compaction puts the immutable table in front of the sorted ones. -/
lemma search_minorCompaction {immutable : MemTable V} {c : SstManager.Compacted V}
    {m : SstManager V} {masterSyncId nextId : ℕ} (h : m.Inv masterSyncId nextId)
    (hc : m.minorCompaction immutable nextId = some c) (k : ℕ) :
    c.manager.search k = (immutable.get k).or (m.search k) := by
  obtain ⟨sst, hsst, rfl⟩ := map_eq_some_iff.mp hc
  obtain ⟨hid, -, hrecords⟩ := SSTable.build_spec hsst
  have hasc : Ascending sst.records := hrecords ▸ immutable.table.sorted
  have hlist := h.listLevel_insert_l0 hid
  have hsearch : sst.search k = immutable.get k := by
    rw [SSTable.search_eq_lookup hasc, hrecords, lookup_entries, MemTable.get]
  have htail : (LsmLevel.all.tail.findSome? fun level =>
        ((m.insert sst .l0).listLevel level).findSome? (·.search k)) =
      LsmLevel.all.tail.findSome? fun level => (m.listLevel level).findSome? (·.search k) := by
    rfl
  have hall : ∀ f : LsmLevel → Option V,
      LsmLevel.all.findSome? f = (f .l0).or (LsmLevel.all.tail.findSome? f) := by
    intro f
    change (LsmLevel.l0 :: LsmLevel.all.tail).findSome? f = _
    rw [findSome?_cons]
    cases f .l0 <;> rfl
  rw [SstManager.search, SstManager.search, hall, hall, htail, hlist, if_pos rfl,
    findSome?_cons, hsearch]
  cases immutable.get k with
  | none | some v => rfl

end Tree

/-! ### The append transaction -/

namespace TreeInner

/-- The log is committed, or the open transaction names it. -/
def Live (s : TreeInner V) (id : ℕ) : Prop :=
  (s.wals.get? id).isSome = true ∨ ∃ e ∈ s.tx.getD [], e.1 = id

/-- The log is committed, and it is not the current one. -/
structure Sealed (s : TreeInner V) (id : ℕ) : Prop where
  committed : (s.wals.get? id).isSome = true
  ne : s.wal.logId ≠ some id

/-- The open transaction appends to the current log only. -/
def TxOnly (s : TreeInner V) : Prop := ∀ e ∈ s.tx.getD [], s.wal.logId = some e.1

/-- The append transaction of the write-ahead log is consistent with the transaction table. -/
structure WalInv (s : TreeInner V) : Prop where
  tx_iff : s.tx.isSome = s.wal.appendedLog.isSome
  log_eq : ∀ id, s.wal.appendedLog = some id → s.wal.logId = some id
  buf : s.wal.appendedLog = none → s.wal.recordBuf = []
  txOnly : s.TxOnly
  /-- A buffer that is empty has been written. -/
  rooted : s.tx.isSome = true → s.wal.recordBuf = [] → ∃ e ∈ s.tx.getD [], e.2 ≠ []
  live : ∀ id, s.wal.logId = some id → s.Live id
  live_lt : ∀ id, s.Live id → id < s.tree.nextId
  discarded : ∀ phase id, s.compactor = some (phase, id) → s.Sealed id
  waiting : ∀ id, s.waiting = some id → s.Sealed id ∧ s.wal.appendedLog = none ∧
    ∀ phase, s.compactor ≠ some (phase, id)

lemma walInv_format : (format : TreeInner V).WalInv where
  tx_iff := rfl
  log_eq id h := by cases h
  buf _ := rfl
  txOnly e he := by cases he
  rooted htx := by cases htx
  live id h := by cases h
  live_lt id h := by simp [Live, format] at h
  discarded phase id h := by cases h
  waiting id h := by cases h

variable {s : TreeInner V}

lemma WalInv.tx_eq_none (h : s.WalInv) (hlog : s.wal.appendedLog = none) : s.tx = none := by
  have htx := h.tx_iff
  rw [hlog] at htx
  simpa using htx

lemma live_iff_of_tx_eq_none (h : s.tx = none) : s.Live id ↔ (s.wals.get? id).isSome = true := by
  simp [Live, h]

/-- While no transaction is open the current log is committed. -/
lemma WalInv.committed_of_closed (h : s.WalInv)
    (hlog : s.wal.appendedLog = none) (hid : s.wal.logId = some id) :
    (s.wals.get? id).isSome = true :=
  (live_iff_of_tx_eq_none (h.tx_eq_none hlog)).mp (h.live id hid)

/-- What the programs of the write-ahead log leave alone. -/
structure Frame (s s' : TreeInner V) : Prop where
  tree : s'.tree = { s.tree with nextId := s'.tree.nextId }
  nextId_le : s.tree.nextId ≤ s'.tree.nextId
  compactor : s'.compactor = s.compactor
  waiting : s'.waiting = s.waiting
  dropped : s'.dropped = s.dropped

lemma Frame.refl (s : TreeInner V) : Frame s s := ⟨rfl, le_refl _, rfl, rfl, rfl⟩

lemma Frame.exists_eq {s' : TreeInner V} (h : Frame s s') :
    ∃ nextId wal tx wals, s' = { s with tree := { s.tree with nextId }, wal, tx, wals } := by
  obtain ⟨tree, wal, tx, wals, compactor, waiting, dropped⟩ := s'
  obtain ⟨htree, -, rfl, rfl, rfl⟩ := h
  exact ⟨tree.nextId, wal, tx, wals, by rw [← htree]⟩

lemma Frame.trans {s₁ s₂ s₃ : TreeInner V} (h1 : Frame s₁ s₂) (h2 : Frame s₂ s₃) : Frame s₁ s₃ where
  tree := by rw [h2.tree, h1.tree]
  nextId_le := h1.nextId_le.trans h2.nextId_le
  compactor := h2.compactor.trans h1.compactor
  waiting := h2.waiting.trans h1.waiting
  dropped := h2.dropped.trans h1.dropped

/-- A state in which the append transaction is open and nothing waits. -/
structure Opened (s : TreeInner V) (id : ℕ) : Prop where
  inv : s.WalInv
  appendedLog : s.wal.appendedLog = some id
  waiting : s.waiting = none

/-- The state when the append transaction has been prepared. -/
def prepared (s : TreeInner V) (id nextId : ℕ) (tx : Tx V) : TreeInner V :=
  { s with
    tx := some tx
    wal := ⟨some id, some id, s.wal.syncId, [.sync s.wal.syncId]⟩
    tree := { s.tree with nextId } }

lemma WalInv.prepared {nextId : ℕ} (h : s.WalInv) (hw : s.waiting = none)
    (hlog : s.wal.appendedLog = none) (hlive : (s.wals.get? id).isSome = true ∨ ∃ e ∈ tx, e.1 = id)
    (htx : ∀ e ∈ tx, e.1 < nextId) (hid : ∀ e ∈ tx, e.1 = id) (hn : s.tree.nextId ≤ nextId)
    (hne : ∀ phase w, s.compactor = some (phase, w) → w ≠ id) :
    (s.prepared id nextId tx).Opened id := by
  refine ⟨⟨rfl, fun _ heq => heq, fun hnone => ?_, fun e he => ?_, fun _ hnil => ?_,
    fun w heq => ?_, fun w hw' => ?_, fun phase w hc => ?_, fun w hw' => ?_⟩, rfl, hw⟩
  · cases hnone
  · exact congrArg some (hid e he).symm
  · cases hnil
  · cases heq
    exact hlive
  · rcases hw' with hw' | ⟨e, he, rfl⟩
    · refine lt_of_lt_of_le (h.live_lt w ?_) hn
      exact (live_iff_of_tx_eq_none (h.tx_eq_none hlog)).mpr hw'
    · exact htx e he
  · refine ⟨(h.discarded phase w hc).committed, fun heq => ?_⟩
    cases heq
    exact hne phase _ hc rfl
  · have hw'' : s.waiting = some w := hw'
    rw [hw] at hw''
    cases hw''

lemma frame_prepared {nextId : ℕ} (s : TreeInner V) (id : ℕ) (tx : Tx V)
    (hn : s.tree.nextId ≤ nextId) : Frame s (s.prepared id nextId tx) :=
  ⟨rfl, hn, rfl, rfl, rfl⟩

/-- A log in use has a smaller ID than the next one. -/
lemma WalInv.sealed_lt (h : s.WalInv) (hs : s.Sealed id) : id < s.tree.nextId :=
  h.live_lt id (.inl hs.committed)

/-- The preparation does nothing while the transaction is open; otherwise it opens the log of the
last sync again, or creates a log. -/
lemma prepareIfNeeded_cases (h : s.WalInv) :
    yields prepareIfNeeded (fun _ s' => (s.wal.appendedLog.isSome = true ∧ s' = s) ∨
      s.wal.appendedLog = none ∧
        ((∃ id, s.wal.logId = some id ∧ s' = s.prepared id s.tree.nextId []) ∨
        s.wal.logId = none ∧
          s' = s.prepared s.tree.nextId (s.tree.nextId + 1) [(s.tree.nextId, [])])) s := by
  cases hlog : s.wal.appendedLog with
  | some id => simp [prepareIfNeeded, hlog]
  | none =>
    have htx : s.tx = none := h.tx_eq_none hlog
    have hbuf := h.buf hlog
    cases hid : s.wal.logId with
    | some id =>
      have hne := isSome_iff_ne_none.mp (h.committed_of_closed hlog hid)
      simp [prepareIfNeeded, prepare, newTx, context, openLog, prepared, hlog, hid, hbuf, htx, hne]
    | none =>
      simp [prepareIfNeeded, prepare, newTx, context, createLog, appendLog, prepared, hlog, hid,
        hbuf, htx]

lemma prepareIfNeeded_spec (h : s.WalInv) (hw : s.waiting = none) :
    yields prepareIfNeeded (fun _ s' => Frame s s' ∧ ∃ id, s'.Opened id) s := by
  refine (prepareIfNeeded_cases h).imp ?_
  rintro _ _ (⟨hsome, rfl⟩ | ⟨hlog, ⟨id, hid, rfl⟩ | ⟨hid, rfl⟩⟩)
  · obtain ⟨id, hlog⟩ := isSome_iff_exists.mp hsome
    exact ⟨Frame.refl _, id, h, hlog, hw⟩
  · refine ⟨s.frame_prepared id [] (le_refl _), id,
      h.prepared hw hlog (.inl (h.committed_of_closed hlog hid)) (by simp) (by simp)
        (le_refl _) ?_⟩
    rintro phase w hc rfl
    exact (h.discarded phase w hc).ne hid
  · refine ⟨s.frame_prepared s.tree.nextId [(s.tree.nextId, [])] (Nat.le_succ _),
      s.tree.nextId, h.prepared hw hlog (.inr ⟨_, mem_cons_self, rfl⟩) (by simp)
      (by simp) (Nat.le_succ _) ?_⟩
    rintro phase w hc rfl
    exact lt_irrefl _ (h.sealed_lt (h.discarded phase _ hc))

/-- Changing the buffer of an open transaction. -/
lemma Opened.withBuf (h : s.Opened id) {recordBuf : List (WalEntry V)} (hne : recordBuf ≠ []) :
    ({ s with wal := { s.wal with recordBuf } } : TreeInner V).Opened id where
  inv :=
    { h.inv with
      buf := fun hnone => by cases h.appendedLog.symm.trans hnone
      rooted := fun _ hnil => absurd hnil hne
      discarded := fun phase w hc =>
        ⟨(h.inv.discarded phase w hc).committed, (h.inv.discarded phase w hc).ne⟩
      waiting := fun _ hw => by cases h.waiting.symm.trans hw }
  appendedLog := h.appendedLog
  waiting := h.waiting

/-- Appending to the log within the open transaction. -/
lemma Opened.flushed (h : s.Opened id) (htx : s.tx = some tx) {entries : List (WalEntry V)}
    (hne : entries ≠ []) : ({ s with
        tx := some (tx ++ [(id, entries)])
        wal := { s.wal with recordBuf := [] } } : TreeInner V).Opened id := by
  have hlive : ∀ w, ({ s with
      tx := some (tx ++ [(id, entries)])
      wal := { s.wal with recordBuf := [] } } : TreeInner V).Live w → s.Live w := by
    rintro w (hw | ⟨e, he, rfl⟩)
    · exact .inl hw
    · rcases mem_append.mp he with he | he
      · exact .inr ⟨e, by rw [htx]; exact he, rfl⟩
      · rw [mem_singleton.mp he]
        exact h.inv.live id (h.inv.log_eq id h.appendedLog)
  have hid := h.inv.log_eq id h.appendedLog
  refine ⟨⟨?_, h.inv.log_eq, fun _ => rfl, fun e he => ?_, fun _ _ => ?_, fun w hw => ?_,
    fun w hw => ?_, fun phase w hc => ?_, fun w hw => ?_⟩, h.appendedLog, h.waiting⟩
  · rw [← h.inv.tx_iff, htx]
    rfl
  · rcases mem_append.mp he with he | he
    · exact h.inv.txOnly e (by rwa [htx])
    · rw [mem_singleton.mp he]
      exact hid
  · exact ⟨(id, entries), mem_append_right _ mem_cons_self, hne⟩
  · rcases h.inv.live w hw with hw | ⟨e, he, rfl⟩
    · exact .inl hw
    · rw [htx] at he
      exact .inr ⟨e, mem_append_left _ he, rfl⟩
  · exact h.inv.live_lt w (hlive w hw)
  · exact ⟨(h.inv.discarded phase w hc).committed, (h.inv.discarded phase w hc).ne⟩
  · cases h.waiting.symm.trans hw

lemma Opened.exists_tx (h : s.Opened id) : ∃ tx, s.tx = some tx := by
  rw [← isSome_iff_exists, h.inv.tx_iff, h.appendedLog]
  rfl

lemma twp_flushBuf {Q : Unit → TreeInner V → Prop} {E : Error → TreeInner V → Prop} (tx : Tx V)
    (htx : s.tx = some tx) (hne : s.wal.recordBuf ≠ []) (log : ℕ) :
    twp (flushBuf log) Q E s ↔ Q () { s with
      tx := some (tx ++ [(log, s.wal.recordBuf)])
      wal := { s.wal with recordBuf := [] } } := by
  have hemp : s.wal.recordBuf.isEmpty = false := by simpa using hne
  simp only [flushBuf, context, appendLog, twp_bind, twp_get, twp_require,
    twp_modify, htx, hemp, map_some, isSome_some, true_and]

lemma twp_commitTx {Q : Unit → TreeInner V → Prop} {E : Error → TreeInner V → Prop} (tx : Tx V)
    (htx : s.tx = some tx) (hroot : tx.rootless = false) :
    twp commitTx Q E s ↔ Q () { s with tx := none, wals := applyTx s.wals tx } := by
  simp only [commitTx, twp_bind, twp_get, twp_ofOption, twp_require, twp_modify, htx, some_inj,
    exists_eq_left', hroot, true_and]

/-- A transaction that appends to one log, and appends something, can be committed. -/
lemma rootless_eq_false {tx : Tx V} (id : ℕ) (hid : ∀ e ∈ tx, e.1 = id)
    (hne : ∃ e ∈ tx, e.2 ≠ []) : tx.rootless = false := by
  obtain ⟨e, he, hentries⟩ := hne
  simp only [Tx.rootless, List.any_eq_false, Bool.and_eq_true, List.all_eq_true, not_and]
  intro e' he' _ hall
  have := hall e he
  simp [hid e he, hid e' he', hentries] at this

lemma Opened.rootless_append (h : s.Opened id) (htx : s.tx = some tx) {entries : List (WalEntry V)}
    (hne : entries ≠ []) : Tx.rootless (tx ++ [(id, entries)]) = false := by
  refine rootless_eq_false id (fun e he => ?_)
    ⟨(id, entries), mem_append_right _ mem_cons_self, hne⟩
  rcases mem_append.mp he with he | he
  · exact some_inj.mp ((h.inv.txOnly e (by rwa [htx])).symm.trans (h.inv.log_eq id h.appendedLog))
  · rw [mem_singleton.mp he]

lemma Opened.rootless (h : s.Opened id) (htx : s.tx = some tx) (hbuf : s.wal.recordBuf = []) :
    tx.rootless = false := by
  have hroot := h.inv.rooted (by rw [htx]; rfl) hbuf
  rw [htx] at hroot
  refine rootless_eq_false id (fun e he => ?_) hroot
  exact some_inj.mp ((h.inv.txOnly e (by rwa [htx])).symm.trans (h.inv.log_eq id h.appendedLog))

variable {P Q : TreeInner V → Prop}

/-- What follows the preparation in `append`. -/
lemma append_of_prepared {key : ℕ} {value : V}
    (hprep : yields prepareIfNeeded (fun _ s₁ => P s₁ ∧ ∃ id, s₁.Opened id) s)
    (hpush : ∀ s₁ id tx, P s₁ → s₁.Opened id → s₁.tx = some tx →
      ∀ recordBuf, recordBuf = s₁.wal.recordBuf ++ [.record key value] →
        Q { s₁ with wal := { s₁.wal with recordBuf } } ∧ Q { s₁ with
          tx := some (tx ++ [(id, recordBuf)])
          wal := { s₁.wal with recordBuf := [] } }) :
    yields (append key value) (fun _ => Q) s := by
  refine hprep.then fun _ s₁ ⟨hp, id, hopen⟩ => ?_
  obtain ⟨tx, htx⟩ := hopen.exists_tx
  obtain ⟨hpushed, hflushed⟩ := hpush s₁ id tx hp hopen htx _ rfl
  simp only [pushEntry, twp_bind, twp_get, twp_modify]
  split
  · exact hpushed
  · rw [twp_bind, twp_ofOption]
    refine ⟨id, hopen.appendedLog, (twp_flushBuf tx ?_ ?_ id).mpr hflushed⟩
    · exact htx
    · simp

lemma append_spec (h : s.WalInv) (hw : s.waiting = none) (key : ℕ) (value : V) :
    yields (append key value) (fun _ s' => Frame s s' ∧ ∃ id, s'.Opened id) s := by
  refine append_of_prepared (prepareIfNeeded_spec h hw) fun s₁ id tx hframe hopen htx buf hbuf => ?_
  have hne : buf ≠ [] := by simp [hbuf]
  have hopen' := hopen.withBuf hne
  exact ⟨⟨hframe.trans ⟨rfl, le_refl _, rfl, rfl, rfl⟩, id, hopen'⟩,
    hframe.trans ⟨rfl, le_refl _, rfl, rfl, rfl⟩, id, hopen'.flushed htx hne⟩

/-- The state when the open transaction has been committed. -/
def closed (s : TreeInner V) (tx : Tx V) (logId : Option ℕ) (syncId : ℕ) : TreeInner V :=
  { s with tx := none, wals := applyTx s.wals tx, wal := ⟨none, logId, syncId, []⟩ }

lemma Opened.live_closed {tx' : Tx V} {w : ℕ} (h : s.Opened id) (htx : s.tx = some tx)
    (htx' : tx' = tx ∨ ∃ entries, tx' = tx ++ [(id, entries)]) :
    ((applyTx s.wals tx').get? w).isSome = true ↔ s.Live w := by
  have hid := h.inv.live id (h.inv.log_eq id h.appendedLog)
  rw [isSome_applyTx]
  rw [Live, htx, getD_some] at hid ⊢
  rcases htx' with rfl | ⟨entries, rfl⟩
  · rfl
  · constructor
    · rintro (hw | ⟨e, he, rfl⟩)
      · exact .inl hw
      · rcases mem_append.mp he with he | he
        · exact .inr ⟨e, he, rfl⟩
        · rw [mem_singleton.mp he]
          exact hid
    · rintro (hw | ⟨e, he, rfl⟩)
      · exact .inl hw
      · exact .inr ⟨e, mem_append_left _ he, rfl⟩

lemma Opened.closed {tx' : Tx V} {logId : Option ℕ} (h : s.Opened id) (htx : s.tx = some tx)
    (htx' : tx' = tx ∨ ∃ entries, tx' = tx ++ [(id, entries)])
    (hlog : logId = none ∨ logId = some id) (syncId : ℕ) : (s.closed tx' logId syncId).WalInv := by
  have hlive : ∀ w, (s.closed tx' logId syncId).Live w ↔ s.Live w := fun w =>
    (live_iff_of_tx_eq_none rfl).trans (h.live_closed htx htx')
  have hid := h.inv.log_eq id h.appendedLog
  refine ⟨rfl, fun w hw => ?_, fun _ => rfl, fun e he => ?_, fun hsome => ?_, fun w hw => ?_,
    fun w hw => ?_, fun phase w hc => ?_, fun w hw => ?_⟩
  · cases hw
  · cases he
  · cases hsome
  · rw [hlive]
    rcases hlog with rfl | rfl
    · cases hw
    · cases hw
      exact h.inv.live id hid
  · exact h.inv.live_lt w ((hlive w).mp hw)
  · have hsealed := h.inv.discarded phase w hc
    refine ⟨(h.live_closed htx htx').mpr (.inl hsealed.committed), fun heq => ?_⟩
    rcases hlog with rfl | rfl
    · cases heq
    · exact hsealed.ne (hid.trans heq)
  · cases h.waiting.symm.trans hw

/-- What `commit` does: it writes what is left in the buffer, and commits the transaction. -/
lemma twp_commitWal (h : s.Opened id) (htx : s.tx = some tx) :
    ∃ tx', (tx' = tx ∨ ∃ entries, tx' = tx ++ [(id, entries)]) ∧
      txEntries tx' id = txEntries tx id ++ s.wal.recordBuf ∧
      ∀ {Q E}, Q id (s.closed tx' none s.wal.syncId) → twp commitWal Q E s := by
  have hid := h.inv.log_eq id h.appendedLog
  by_cases hbuf : s.wal.recordBuf = []
  · refine ⟨tx, .inl rfl, by rw [hbuf, append_nil], fun hQ => ?_⟩
    rw [closed, ← hbuf] at hQ
    simp only [commitWal, twp_bind, twp_get, twp_ofOption, twp_require, twp_modify]
    refine ⟨id, h.appendedLog, id, hid, rfl, ?_⟩
    rw [if_pos (by simpa using hbuf), twp_bind]
    refine (twp_commitTx tx ?_ (h.rootless htx hbuf)).mpr hQ
    exact htx
  · refine ⟨tx ++ [(id, s.wal.recordBuf)], .inr ⟨_, rfl⟩, by simp [txEntries], fun hQ => ?_⟩
    simp only [commitWal, twp_bind, twp_get, twp_ofOption, twp_require, twp_modify]
    refine ⟨id, h.appendedLog, id, hid, rfl, ?_⟩
    rw [if_neg (by simpa using hbuf), twp_bind]
    refine (twp_flushBuf tx ?_ ?_ id).mpr ?_
    · exact htx
    · exact hbuf
    · rw [twp_bind]
      exact (twp_commitTx _ rfl (h.rootless_append htx hbuf)).mpr hQ

lemma commitWal_spec (h : s.Opened id) :
    yields commitWal
      (fun walId s' => Frame s s' ∧ s'.WalInv ∧ s'.Sealed walId ∧ s'.wal.appendedLog = none ∧
        ∀ phase, s'.compactor ≠ some (phase, walId)) s := by
  obtain ⟨tx, htx⟩ := h.exists_tx
  have hid := h.inv.log_eq id h.appendedLog
  obtain ⟨tx', htx', -, hcommit⟩ := twp_commitWal h htx
  refine hcommit ⟨⟨rfl, le_refl _, rfl, rfl, rfl⟩, h.closed htx htx' (.inl rfl) _, ⟨?_, ?_⟩,
    rfl, ?_⟩
  · exact (h.live_closed htx htx').mpr (h.inv.live id hid)
  · exact (some_ne_none id).symm
  · exact fun phase hc => (h.inv.discarded phase id hc).ne hid

/-- What follows the preparation in `sync`. -/
lemma syncWal_of_prepared {syncId : ℕ}
    (hprep : yields prepareIfNeeded (fun _ s₁ => P s₁ ∧ ∃ id, s₁.Opened id) s)
    (hclosed : ∀ s₁ id tx, P s₁ → s₁.Opened id → s₁.tx = some tx →
      Q (s₁.closed (tx ++ [(id, s₁.wal.recordBuf ++ [.sync syncId])]) s₁.wal.logId syncId)) :
    yields (syncWal syncId) (fun _ => Q) s := by
  refine hprep.then fun _ s₁ ⟨hp, id, hopen⟩ => ?_
  obtain ⟨tx, htx⟩ := hopen.exists_tx
  simp only [pushEntry, twp_bind, twp_get, twp_modify, twp_ofOption]
  refine ⟨id, hopen.appendedLog, (twp_flushBuf tx ?_ ?_ id).mpr
    ((twp_commitTx _ rfl (hopen.rootless_append htx (by simp))).mpr
    (hclosed s₁ id tx hp hopen htx))⟩
  · exact htx
  · simp

lemma syncWal_spec (h : s.WalInv) (hw : s.waiting = none) (syncId : ℕ) :
    yields (syncWal syncId) (fun _ s' => Frame s s' ∧ s'.WalInv) s := by
  refine syncWal_of_prepared (prepareIfNeeded_spec h hw) fun s₁ id tx hframe hopen htx => ?_
  have hlog := hopen.inv.log_eq id hopen.appendedLog
  exact ⟨hframe.trans ⟨rfl, le_refl _, rfl, rfl, rfl⟩, hopen.closed htx (.inr ⟨_, rfl⟩)
    (.inr hlog) syncId⟩

end TreeInner

end Asterinas.Mlsdisk
