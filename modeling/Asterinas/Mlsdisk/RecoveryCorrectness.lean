import Asterinas.Mlsdisk.RecoverySpec
import Asterinas.Mlsdisk.WalContents

/-!
# Synced data survives a crash

Along a run the committed state stands behind the tree, so that a recovery from any state that a
crash can leave restores the values of the last sync.

Two things are in the way of this.  A recovery reads only the write-ahead log with the largest ID:
the records of an older log must be in sorted tables by the time when a newer log is committed, and
they are not if the older log is from before the last recovery, or if its memory table is still
being compacted.  And the migration does not separate the synced from the unsynced records of a
sorted table of the last sync ID.
-/

namespace Asterinas.Mlsdisk

open Framework Exec List Option

variable {V : Type}

/-- The synced value of a key in a memory table. -/
def MemTable.synced (m : MemTable V) (key : ℕ) : Option V :=
  (m.table.get? key).bind ValueEx.syncedPart

namespace TreeInner

variable {s s' : TreeInner V} {latest : ℕ → Option V}

/-- The log of the mutable table. -/
def CurrentLog (s : TreeInner V) (id : ℕ) : Prop := s.wal.logId = some id ∨ s.waiting = some id

/-- The committed entries hold the synced values of a memory table. -/
structure Holds (s : TreeInner V) (entries : List (WalEntry V)) (m : MemTable V) : Prop where
  syncId : (collectSyncedRecordsAndSyncId entries).2 = s.tree.masterSyncId
  synced : ∀ key, lastWrite (collectSyncedRecordsAndSyncId entries).1 key = m.synced key

/-- The write-ahead logs hold what is synced in the memory tables. -/
structure Durable (s : TreeInner V) : Prop where
  syncId : s.wal.syncId = s.tree.masterSyncId
  waiting_log : s.waiting.isSome = true → s.wal.logId = none
  current : ∀ id es, s.CurrentLog id → s.wals.get? id = some es →
    s.Holds es s.tree.memtables.mutable
  uncommitted : (∀ id, s.CurrentLog id → s.wals.get? id = none) →
    ∀ key, s.tree.memtables.mutable.synced key = none
  current_max : ∀ id, s.CurrentLog id → ∀ w, (s.wals.get? w).isSome = true → w ≤ id
  newest : s.waiting = none → ∀ key,
    lastWrite (recordsOf s.logged) key = s.tree.memtables.mutable.get key
  logged : s.waiting = none → s.wal.appendedLog.isSome = true →
    s.Holds s.logged s.tree.memtables.mutable
  closed : s.waiting = none → s.wal.appendedLog = none → ∀ key,
    s.tree.memtables.mutable.synced key = s.tree.memtables.mutable.get key
  compacting : ∀ phase id, s.compactor = some (phase, id) →
    (∃ es, s.wals.get? id = some es ∧ s.Holds es s.tree.memtables.immutable) ∧
    (∀ key, s.tree.memtables.mutable.synced key = none) ∧
    (∀ w, (s.wals.get? w).isSome = true → w ≤ id ∨ s.CurrentLog w) ∧
    ∀ w, s.wal.logId = some w → s.wals.get? w = none
  waiting_compacting : s.waiting.isSome = true → s.compactor.isSome = true → ∀ key,
    s.tree.memtables.immutable.synced key = none
  stale : ∀ id es, s.wals.get? id = some es → ¬ s.CurrentLog id →
    (∀ phase, s.compactor ≠ some (phase, id)) → (collectSyncedRecordsAndSyncId es).1 = []
  syncId_le : ∀ id es, s.wals.get? id = some es →
    (collectSyncedRecordsAndSyncId es).2 ≤ s.tree.masterSyncId
  syncId_kept : (∃ level, ∃ sst ∈ s.tree.sstManager.listLevel level,
    sst.syncId = s.tree.masterSyncId) ∨ (recoverFromWal s.wals).2 = s.tree.masterSyncId

lemma findSome?_memChain (t : Tree V) (key : ℕ) :
    (t.memChain key).findSome? ValueEx.syncedPart =
      (t.memtables.mutable.synced key).or
        (if t.pending then t.memtables.immutable.synced key else none) := by
  have hlist : ∀ o : Option (ValueEx V), o.toList.findSome? ValueEx.syncedPart =
      o.bind ValueEx.syncedPart := by
    intro o
    cases o with
    | none => rfl
    | some v => simp
  rw [Tree.memChain, findSome?_append, hlist, hlist, Tree.pendingEntries]
  cases t.pending with
  | true => simp [lookup_entries, MemTable.synced]
  | false => simp [MemTable.synced]

/-- What a recovery reads from the write-ahead logs. -/
lemma Durable.records (h : s.Durable) (hp : s.tree.pending = s.compactor.isSome) (key : ℕ) :
    lastWrite (recoverFromWal s.wals).1 key =
      (s.tree.memChain key).findSome? ValueEx.syncedPart := by
  rw [findSome?_memChain, hp]
  by_cases hcom : ∃ id es, s.CurrentLog id ∧ s.wals.get? id = some es
  · -- the log of the mutable table is read
    obtain ⟨id, es, hcur, hes⟩ := hcom
    rw [recoverFromWal_of_max hes (h.current_max id hcur), (h.current id es hcur hes).synced]
    cases hc : s.compactor with
    | none => simp
    | some c =>
      have himm : s.tree.memtables.immutable.synced key = none := by
        rcases hcur with hlog | hwait
        · have hnone := (h.compacting c.1 c.2 hc).2.2.2 id hlog
          rw [hes] at hnone
          cases hnone
        · exact h.waiting_compacting (by rw [hwait]; rfl) (by rw [hc]; rfl) key
      simp [himm]
  · have hun : ∀ id, s.CurrentLog id → s.wals.get? id = none := by
      intro id hcur
      by_contra hne
      obtain ⟨es, hes⟩ := ne_none_iff_exists'.mp hne
      exact hcom ⟨id, es, hcur, hes⟩
    rw [h.uncommitted hun key, none_or]
    cases hc : s.compactor with
    | some c =>
      -- the log of the immutable table is read
      obtain ⟨⟨es, hes, hholds⟩, -, hmax, -⟩ := h.compacting c.1 c.2 hc
      have hmax' : ∀ w, (s.wals.get? w).isSome = true → w ≤ c.2 := by
        intro w hw
        rcases hmax w hw with hle | hcur
        · exact hle
        · rw [hun w hcur] at hw
          cases hw
      rw [recoverFromWal_of_max hes hmax', hholds.synced]
      rfl
    | none =>
      rcases recoverFromWal_cases s.wals with hnone | ⟨id, es, hes, hread⟩
      · rw [hnone]
        rfl
      · rw [hread, h.stale id es hes (fun hcur => by rw [hun id hcur] at hes; cases hes)
          (by simp [hc])]
        rfl

/-- The committed state stands behind the tree. -/
lemma Durable.backs (h : s.Durable) (hinv : s.Consistent latest) : s.store.Backs s.tree where
  inv := hinv.tree
  sstManager := rfl
  syncId := by
    have hwal : (recoverFromWal s.wals).2 ≤ s.tree.masterSyncId := by
      rcases recoverFromWal_cases s.wals with hnone | ⟨id, es, hes, hread⟩
      · rw [hnone]
        exact zero_le
      · rw [hread]
        exact h.syncId_le id es hes
    have hsst : s.tree.sstManager.maxSyncId ≤ s.tree.masterSyncId := by
      refine max_le_of_forall_le _ _ fun id hid => ?_
      obtain ⟨sst, hs, rfl⟩ := mem_map.mp hid
      obtain ⟨level, hs⟩ := Store.mem_tables.mp hs
      exact hinv.tree.levels.syncId_le level sst hs
    refine le_antisymm (max_le hwal hsst) ?_
    rcases h.syncId_kept with ⟨level, sst, hs, heq⟩ | heq
    · refine le_trans (heq ▸ le_max_of_le ?_ le_rfl) (le_max_right _ _)
      exact mem_map_of_mem (Store.mem_tables.mpr ⟨level, hs⟩)
    · exact heq.ge.trans (le_max_left _ _)
  records := h.records hinv.pending
  syncId_le := h.syncId_le

/-! ### Puts -/

lemma synced_put (m : MemTable V) (key : ℕ) (value : V) (k : ℕ) :
    (m.put key value).1.synced k = m.synced k := by
  rw [MemTable.synced, MemTable.put_table, OrderedMap.get?_insert]
  split
  · rename_i hk
    subst hk
    rw [MemTable.putValue, MemTable.synced]
    cases m.table.get? k with
    | none => rfl
    | some v => exact ValueEx.syncedPart_put value v
  · rfl

lemma recordsOf_header (s : TreeInner V) : recordsOf s.header = [] := by
  rw [header]
  split <;> rfl

/-- With the header of the append transaction the log holds the synced values. -/
lemma Durable.holds_header (h : s.Durable) (hw : s.waiting = none) :
    s.Holds (s.logged ++ s.header) s.tree.memtables.mutable := by
  cases happ : s.wal.appendedLog with
  | some id =>
    have hheader : s.header = [] := by rw [header, happ]; rfl
    rw [hheader, append_nil]
    exact h.logged hw (by rw [happ]; rfl)
  | none =>
    have hheader : s.header = [.sync s.wal.syncId] := by rw [header, happ]; rfl
    rw [hheader]
    refine ⟨?_, fun key => ?_⟩
    · rw [collect_append_sync]
      exact h.syncId
    · rw [collect_append_sync, h.closed hw happ key]
      exact h.newest hw key

/-- The state when a record has been appended and put into the memory table. -/
def afterPut (s : TreeInner V) (key : ℕ) (value : V) (dropped : List (ℕ × V)) : TreeInner V :=
  { s with tree := { s.tree with memtables := (s.tree.memtables.put key value).1 }, dropped }

variable {id : ℕ}

/-- A log of the append transaction that is committed is the current one: a new log is above all
that are committed. -/
lemma Appended.currentLog {entries es : List (WalEntry V)} {w : ℕ} (h : Appended s s' entries)
    (hwal : s.WalInv) (hopen : s'.Opened id) (hcur : s'.CurrentLog w)
    (hes : s.wals.get? w = some es) : s.CurrentLog w := by
  rw [CurrentLog, hopen.waiting, h.logId] at hcur
  obtain rfl : s.wal.logId.getD s.tree.nextId = w := by simpa using hcur
  cases hlog : s.wal.logId with
  | some w' => exact .inl hlog
  | none =>
    rw [hlog, getD_none] at hes
    exact absurd (hwal.live_lt _ (.inl (isSome_of_eq_some hes))) (lt_irrefl _)

lemma Durable.put {s₁ : TreeInner V} {key : ℕ} {value : V} (h : s.Durable) (hwal : s.WalInv)
    (hw : s.waiting = none) (hframe : Frame s s₁) (hopen : s₁.Opened id)
    (happ : Appended s s₁ (s.header ++ [.record key value])) (dropped : List (ℕ × V)) :
    (s₁.afterPut key value dropped).Durable := by
  have hcur : ∀ w, s.CurrentLog w ↔ s.wal.logId = some w := by simp [CurrentLog, hw]
  have hcur' : ∀ w, (s₁.afterPut key value dropped).CurrentLog w ↔
      s.wal.logId.getD s.tree.nextId = w := by
    intro w
    have hwait : (s₁.afterPut key value dropped).waiting = none := hopen.waiting
    have hlog : (s₁.afterPut key value dropped).wal.logId = _ := happ.logId
    rw [CurrentLog, hwait, hlog]
    simp
  have hstays : ∀ w, s.CurrentLog w → (s₁.afterPut key value dropped).CurrentLog w := by
    intro w hw'
    rw [hcur', (hcur w).mp hw', getD_some]
  have hcommitted : ∀ w es, (s₁.afterPut key value dropped).CurrentLog w →
      s.wals.get? w = some es → s.CurrentLog w :=
    fun w es hw' hes => happ.currentLog hwal hopen hw' hes
  have hlogged : (s₁.afterPut key value dropped).logged =
      s.logged ++ s.header ++ [.record key value] := by
    rw [append_assoc]
    exact happ.logged
  obtain ⟨nextId, wal, tx, wals, rfl⟩ := hframe.exists_eq
  obtain rfl : wals = s.wals := happ.wals
  have hsynced := synced_put s.tree.memtables.mutable key value
  refine
    { syncId := happ.syncId.trans h.syncId
      waiting_log := fun hsome => by cases (congrArg isSome hw).symm.trans hsome
      current := fun w es hw' hes => ?_
      uncommitted := fun hun k =>
        (hsynced k).trans (h.uncommitted (fun w hw' => hun w (hstays w hw')) k)
      current_max := fun w hw' w' hsome => ?_
      newest := fun _ k => ?_
      logged := fun _ _ => ?_
      closed := fun _ hnone => by cases hopen.appendedLog.symm.trans hnone
      compacting := fun phase w hc => ?_
      waiting_compacting := h.waiting_compacting
      stale := fun w es hes hnot => h.stale w es hes fun hcw => hnot (hstays w hcw)
      syncId_le := h.syncId_le
      syncId_kept := h.syncId_kept }
  · have hheld := h.current w es (hcommitted w es hw' hes) hes
    exact ⟨hheld.syncId, fun k => (hheld.synced k).trans (hsynced k).symm⟩
  · have heq := (hcur' w).mp hw'
    cases hlog : s.wal.logId with
    | some x =>
      rw [hlog] at heq
      exact h.current_max w (.inl (hlog.trans (congrArg some heq))) w' hsome
    | none =>
      rw [hlog, getD_none] at heq
      exact heq ▸ (hwal.live_lt w' (.inl hsome)).le
  · rw [hlogged, recordsOf_append, recordsOf_append, recordsOf_header, append_nil]
    refine (lastWrite_append _ _ _ _).trans ?_
    rw [h.newest hw k]
    exact (Tree.get_put ..).symm
  · have hheld := h.holds_header hw
    rw [hlogged]
    exact ⟨by rw [collect_append_record]; exact hheld.syncId,
      fun k => by rw [collect_append_record]; exact (hheld.synced k).trans (hsynced k).symm⟩
  · obtain ⟨⟨es, hes, hh⟩, hmut, hmax, hun⟩ := h.compacting phase w hc
    refine ⟨⟨es, hes, hh.syncId, hh.synced⟩, fun k => (hsynced k).trans (hmut k),
      fun w' hsome => (hmax w' hsome).imp_right (hstays w'), fun w' hlog => ?_⟩
    refine eq_none_iff_forall_ne_some.mpr fun es' hes' => ?_
    have hlog' := (hcur w').mp (hcommitted w' es' (.inl hlog) hes')
    cases (hun w' hlog').symm.trans hes'

/-- The log of a full memory table has been committed, and the `put` waits for the compaction. -/
lemma Durable.filled {s₁ : TreeInner V} (h : s.Durable) (hopen : s.Opened id)
    (hframe : Frame s s₁) (hcom : Committed s s₁ id s.logged) (hlog : s₁.wal.logId = none)
    (hsync : s₁.wal.syncId = s.wal.syncId)
    (himm : s.compactor.isSome = true → ∀ key, s.tree.memtables.immutable.synced key = none) :
    ({ s₁ with waiting := some id } : TreeInner V).Durable := by
  have hid := hopen.inv.log_eq id hopen.appendedLog
  have hcur : ∀ w, s.CurrentLog w ↔ w = id := by simp [CurrentLog, hopen.waiting, hid, eq_comm]
  have hcur' : ∀ w, ({ s₁ with waiting := some id } : TreeInner V).CurrentLog w ↔ w = id := by
    simp [CurrentLog, hlog, eq_comm]
  have hheld := h.logged hopen.waiting (by rw [hopen.appendedLog]; rfl)
  have hget : s₁.wals.get? id = some s.logged := by rw [hcom.wals, if_pos rfl]
  have hmax := hcom.le_of_committed (h.current_max id ((hcur id).mpr rfl))
  obtain ⟨nextId, wal, tx, wals, rfl⟩ := hframe.exists_eq
  refine
    { syncId := hsync.trans h.syncId
      waiting_log := fun _ => hlog
      current := fun w es hw hes => ?_
      uncommitted := fun hun => by cases hget.symm.trans (hun id ((hcur' id).mpr rfl))
      current_max := fun w hw => (hcur' w).mp hw ▸ hmax
      newest := nofun
      logged := nofun
      closed := nofun
      compacting := fun phase w hc => ?_
      waiting_compacting := fun _ => himm
      stale := fun w es hes hnot hne => ?_
      syncId_le := fun w es hes => ?_
      syncId_kept :=
        .inr ((congrArg Prod.snd (recoverFromWal_of_max hget hmax)).trans hheld.syncId) }
  · rw [(hcur' w).mp hw] at hes
    cases hget.symm.trans hes
    exact ⟨hheld.syncId, hheld.synced⟩
  · obtain ⟨⟨es, hes, hh⟩, hmut, hle, -⟩ := h.compacting phase w hc
    have hne : w ≠ id := by
      rintro rfl
      exact (hopen.inv.discarded phase w hc).ne hid
    refine ⟨⟨es, (hcom.wals w).trans ((if_neg hne).trans hes), hh.syncId, hh.synced⟩, hmut,
      fun w' hw' => ?_, fun w' hlog' => by cases hlog.symm.trans hlog'⟩
    have hw'' : (wals.get? w').isSome = true := hw'
    rw [show wals.get? w' = _ from hcom.wals w'] at hw''
    split at hw''
    · rename_i heq
      exact .inr ((hcur' w').mpr heq)
    · exact (hle w' hw'').imp_right fun hcw => (hcur' w').mpr ((hcur w').mp hcw)
  · have hw : w ≠ id := fun heq => hnot ((hcur' w).mpr heq)
    have hes' := (hcom.wals w).symm.trans hes
    rw [if_neg hw] at hes'
    exact h.stale w es hes' (fun hcw => hw ((hcur w).mp hcw)) hne
  · have hes' := (hcom.wals w).symm.trans hes
    split at hes'
    · cases hes'
      exact hheld.syncId.le
    · exact h.syncId_le w es hes'

/-- A `put` that fills the memory table meets no unfinished compaction of synced records. -/
def FillsSafely (s : TreeInner V) (key : ℕ) (value : V) : Prop :=
  (s.tree.memtables.put key value).1.isFull = false ∨ s.compactor = none ∨
    ∀ k, s.tree.memtables.immutable.synced k = none

/-- The synced values depend on the synced part of the memory tables and on the sorted tables. -/
lemma syncedValue_eq (t : Tree V) (key : ℕ) :
    t.syncedValue key = ((t.memtables.mutable.synced key).or
        (if t.pending then t.memtables.immutable.synced key else none)).or
      ((LsmLevel.all.flatMap fun level => t.sstManager.levelChain t.masterSyncId level
        key).findSome?
        ValueEx.syncedPart) := by
  rw [Tree.syncedValue, Tree.chain, findSome?_append, findSome?_memChain]

lemma put_durable {key : ℕ} {value : V} (hwal : s.WalInv) (h : s.Durable) (hw : s.waiting = none)
    (hf : s.FillsSafely key value) :
    yields (put key value) (fun _ s' => s'.Durable ∧
      ∀ k, s'.tree.syncedValue k = s.tree.syncedValue k) s := by
  refine ((append_spec hwal hw key value).and (append_contents hwal hw key value)).then
    fun _ s₁ ⟨⟨hframe, id, hopen⟩, happ⟩ => ?_
  have hdur := h.put hwal hw hframe hopen happ
  have hopen' : ∀ dropped, (s₁.afterPut key value dropped).Opened id := fun dropped =>
    ⟨hopen.inv.withTree (le_refl _), hopen.appendedLog, hopen.waiting⟩
  obtain ⟨nextId, wal, tx, wals, rfl⟩ := hframe.exists_eq
  have hsynced : ∀ dropped k, (afterPut { s with tree := { s.tree with nextId }, wal, tx, wals }
      key value dropped).tree.syncedValue k = s.tree.syncedValue k := by
    intro dropped k
    rw [syncedValue_eq, syncedValue_eq, ← synced_put s.tree.memtables.mutable key value k]
    rfl
  rw [twp_bind]
  refine (twp_stepTree (.put key value)
    { s.tree with memtables := (s.tree.memtables.put key value).1, nextId }
    ((s.tree.memtables.put key value).2.toList.map (key, ·)) rfl).mpr ?_
  rw [twp_bind, twp_get]
  by_cases hfull : (s.tree.memtables.put key value).1.isFull = false
  · rw [if_pos hfull, twp_pure]
    exact ⟨hdur _, hsynced _⟩
  · rw [if_neg hfull]
    refine ((commitWal_spec (hopen' _)).and (commitWal_contents (hopen' _))).then
      fun walId s₃ ⟨⟨hframe3, _⟩, heq, hcom, hlog, hsync⟩ => ?_
    rw [twp_modify, heq]
    refine ⟨(hdur _).filled (hopen' _) hframe3 hcom hlog hsync fun hsome k => ?_, fun k => ?_⟩
    · rcases hf with hf | hf | hf
      · exact absurd hf hfull
      · cases (congrArg isSome hf).symm.trans hsome
      · exact hf k
    · change s₃.tree.syncedValue k = _
      rw [hframe3.tree]
      exact hsynced [] k

lemma synced_of_entries_nil {m : MemTable V} (h : ∀ key, m.table.get? key = none) (key : ℕ) :
    m.synced key = none := by
  rw [MemTable.synced, h]
  rfl

lemma finishPut_durable (hinv : s.Inv latest) (h : s.Durable) (hw : s.waiting.isSome = true)
    (hc : s.compactor = none) :
    yields finishPut (fun _ s' => s'.Durable ∧
      ∀ k, s'.tree.syncedValue k = s.tree.syncedValue k) s := by
  obtain ⟨id, hid⟩ := isSome_iff_exists.mp hw
  obtain ⟨hsealed, -, -⟩ := hinv.wal.waiting id hid
  have hlog := h.waiting_log hw
  have hp : s.tree.pending = false := by rw [hinv.pending, hc]; rfl
  have hswitch : s.tree.memtables.switch = some _ := if_pos (hinv.full hw)
  -- the new mutable table is empty
  have hempty : ∀ k, (s.tree.memtables.immutable.clear.sync
      s.tree.memtables.mutable.syncId).1.table.get? k = none := by
    intro k
    rw [MemTable.sync]
    split <;> simp [MemTable.clear]
  have hsynced := synced_of_entries_nil hempty
  have hcur : s.CurrentLog id := .inr hid
  obtain ⟨es, hes⟩ := isSome_iff_exists.mp hsealed.committed
  have hheld := h.current id es hcur hes
  simp only [finishPut, twp_bind, twp_get, twp_ofOption, hid, some_inj, exists_eq_left']
  refine (twp_stepTree .switch _ _ (congrArg (Option.map _) hswitch)).mpr ?_
  rw [twp_modify]
  refine ⟨⟨h.syncId, fun hsome => (by cases hsome), ?_, fun _ => hsynced,
    ?_, ?_, ?_, ?_, ?_, fun hsome => (by cases hsome), ?_, h.syncId_le,
    h.syncId_kept⟩, fun k => ?_⟩
  · rintro w es' (hw' | hw') -
    · cases hlog.symm.trans hw'
    · cases hw'
  · rintro w (hw' | hw')
    · cases hlog.symm.trans hw'
    · cases hw'
  · intro _ k
    have hnil : s.logged = [] := by rw [logged, hlog]
    change lastWrite (recordsOf s.logged) k = (Option.map ValueEx.get _)
    rw [hnil, hempty]
    rfl
  · intro _ hsome
    have happ : s.wal.appendedLog = none := (hinv.wal.waiting id hid).2.1
    have hsome' : s.wal.appendedLog.isSome = true := hsome
    rw [happ] at hsome'
    cases hsome'
  · intro _ _ k
    change (s.tree.memtables.immutable.clear.sync s.tree.memtables.mutable.syncId).1.synced k =
      Option.map ValueEx.get _
    rw [hsynced, hempty]
    rfl
  · rintro phase w ⟨⟩
    exact ⟨⟨es, hes, hheld.syncId, hheld.synced⟩, hsynced,
      fun w hsome => .inl (h.current_max id hcur w hsome),
      fun w hw' => by cases hlog.symm.trans hw'⟩
  · intro w es' hes' hnot hne
    refine h.stale w es' hes' ?_ (fun phase hc' => by rw [hc] at hc'; cases hc')
    rintro (hw' | hw')
    · exact hnot (.inl hw')
    · rw [hid] at hw'
      cases hw'
      exact hne _ rfl
  · rw [syncedValue_eq, syncedValue_eq, hp]
    change ((((s.tree.memtables.immutable.clear.sync s.tree.memtables.mutable.syncId).1.synced k).or
      (s.tree.memtables.mutable.synced k)).or _) = _
    rw [hsynced]
    simp

/-! ### Syncs -/

lemma synced_sync {t : Tree V} (h : t.Inv) (k : ℕ) :
    (t.memtables.mutable.sync (t.masterSyncId + 1)).1.synced k = t.memtables.mutable.get k := by
  rw [MemTable.synced, h.get?_sync, MemTable.get]
  cases t.memtables.mutable.table.get? k with
  | none => rfl
  | some v => cases v <;> rfl

/-- After a sync the synced values are the newest ones. -/
lemma syncedValue_sync {t : Tree V} (h : t.Inv) (hp : t.pending = false) (k : ℕ) :
    ({ t with
        memtables := (t.memtables.sync (t.masterSyncId + 1)).1
        masterSyncId := t.masterSyncId + 1 } : Tree V).syncedValue k = t.newest k := by
  rw [← h.newest_sync k, (h.sync hp).newest_eq, Tree.syncedValue]
  cases hchain : ({ t with
      memtables := (t.memtables.sync (t.masterSyncId + 1)).1
      masterSyncId := t.masterSyncId + 1 } : Tree V).chain k with
  | nil => rfl
  | cons v vs =>
    have hv : v.containsUnsynced = false :=
      h.synced_of_mem_chain_sync hp (hchain ▸ mem_cons_self)
    cases v with
    | synced x => rfl
    | unsynced x | syncedAndUnsynced x y => cases hv

/-- The state when the log has been synced, and then the memory table. -/
def afterSync (s : TreeInner V) (dropped : List (ℕ × V)) : TreeInner V :=
  { s with
    tree := { s.tree with
      memtables := (s.tree.memtables.sync (s.tree.masterSyncId + 1)).1
      masterSyncId := s.tree.masterSyncId + 1 }
    dropped }

lemma Durable.sync (h : s.Durable) (hinv : s.Inv latest) (hw : s.waiting = none)
    (hc : s.compactor = none) {s₁ : TreeInner V} (hframe : Frame s s₁)
    (hcom : Committed s s₁ (s.wal.logId.getD s.tree.nextId)
      (s.logged ++ (s.header ++ [.sync (s.tree.masterSyncId + 1)])))
    (hlog : s₁.wal.logId = some (s.wal.logId.getD s.tree.nextId))
    (hsync : s₁.wal.syncId = s.tree.masterSyncId + 1) (dropped : List (ℕ × V)) :
    (s₁.afterSync dropped).Durable := by
  obtain ⟨nextId, wal, tx, wals, rfl⟩ := hframe.exists_eq
  set id := s.wal.logId.getD s.tree.nextId with hid
  -- the log has all records of the memory table, and they are synced now
  set entries := s.logged ++ (s.header ++ [.sync (s.tree.masterSyncId + 1)]) with hentries
  have hcollect : collectSyncedRecordsAndSyncId entries =
      (recordsOf s.logged, s.tree.masterSyncId + 1) := by
    rw [hentries, ← append_assoc, collect_append_sync, recordsOf_append, recordsOf_header,
      append_nil]
  have hrecords : recordsOf entries = recordsOf s.logged := by
    rw [hentries, recordsOf_append, recordsOf_append, recordsOf_header]
    exact append_nil _
  have hget : wals.get? id = some entries := (hcom.wals id).trans (if_pos rfl)
  have hmax : ∀ w, (wals.get? w).isSome = true → w ≤ id := by
    refine hcom.le_of_committed fun w hw' => ?_
    cases hlog' : s.wal.logId with
    | some x =>
      rw [hid, hlog']
      exact h.current_max x (.inl hlog') w hw'
    | none =>
      rw [hid, hlog']
      exact (hinv.wal.live_lt w (.inl hw')).le
  have hsynced : ∀ k, (s.tree.memtables.mutable.sync (s.tree.masterSyncId + 1)).1.synced k = _ :=
    synced_sync hinv.tree
  have hsame : ∀ k, (s.tree.memtables.mutable.sync (s.tree.masterSyncId + 1)).1.get k = _ :=
    hinv.tree.get_sync
  generalize hs' : ({ s with
    tree := { s.tree with nextId }, wal, tx, wals } : TreeInner V).afterSync dropped = s'
  have hlog' : s'.wal.logId = some id := hs' ▸ hlog
  have hcur : ∀ w, s'.CurrentLog w ↔ w = id := by
    have hwait : s'.waiting = none := hs' ▸ hw
    simp [CurrentLog, hlog', hwait, eq_comm]
  have hlogged : s'.logged = entries := by
    rw [logged_of_some hlog', ← hs']
    change (wals.get? id).getD [] ++ txEntries (tx.getD []) id ++ wal.recordBuf = entries
    rw [hget, show tx = none from hcom.tx, show wal.recordBuf = [] from hcom.recordBuf]
    simp [txEntries]
  have hholds : s'.Holds entries s'.tree.memtables.mutable := by
    subst hs'
    refine ⟨congrArg Prod.snd hcollect, fun k => ?_⟩
    rw [hcollect]
    exact (h.newest hw k).trans (hsynced k).symm
  subst hs'
  refine
    { syncId := hsync
      waiting_log := fun hsome => by cases (congrArg isSome hw).symm.trans hsome
      current := fun w es hw' hes => ?_
      uncommitted := fun hun => by cases hget.symm.trans (hun id ((hcur id).mpr rfl))
      current_max := fun w hw' => (hcur w).mp hw' ▸ hmax
      newest := fun _ k => ?_
      logged := fun _ _ => hlogged ▸ hholds
      closed := fun _ _ k => (hsynced k).trans (hsame k).symm
      compacting := fun phase w hc' => by cases hc.symm.trans hc'
      waiting_compacting := fun hsome => by cases (congrArg isSome hw).symm.trans hsome
      stale := fun w es hes hnot _ => ?_
      syncId_le := fun w es hes => ?_
      syncId_kept :=
        .inr ((congrArg Prod.snd (recoverFromWal_of_max hget hmax)).trans hholds.syncId) }
  · rw [(hcur w).mp hw'] at hes
    cases hget.symm.trans hes
    exact hholds
  · rw [hlogged, hrecords, h.newest hw k]
    exact (hsame k).symm
  · have hne : w ≠ id := fun heq => hnot ((hcur w).mpr heq)
    have hes' := (hcom.wals w).symm.trans hes
    rw [if_neg hne] at hes'
    refine h.stale w es hes' ?_ (by simp [hc])
    rintro (hlog' | hwait')
    · exact hne (by rw [hid, hlog']; rfl)
    · cases hw.symm.trans hwait'
  · have hes' := (hcom.wals w).symm.trans hes
    split at hes'
    · cases hes'
      exact hholds.syncId.le
    · exact (h.syncId_le w es hes').trans (Nat.le_succ _)

lemma sync_durable (hinv : s.Inv latest) (h : s.Durable) (hw : s.waiting = none)
    (hc : s.compactor = none) :
    yields sync (fun _ s' => s'.Durable ∧ (∀ k, s'.tree.syncedValue k = latest k) ∧
      s'.waiting = none ∧ s'.compactor = none) s := by
  simp only [sync, twp_bind, twp_get]
  refine ((syncWal_spec hinv.wal hw _).and (syncWal_contents hinv.wal hw _)).imp ?_
  rintro _ s₁ ⟨⟨hframe, _⟩, hcom, hlog, hsync⟩
  have hcons := hinv.toConsistent.frame hframe
  have hp : s₁.tree.pending = false := by
    rw [hcons.pending, hframe.compactor, hc]
    rfl
  refine (twp_stepTree .sync { s₁.tree with
    memtables := (s₁.tree.memtables.sync (s₁.tree.masterSyncId + 1)).1
    masterSyncId := s₁.tree.masterSyncId + 1 } _ rfl).mpr ?_
  exact ⟨h.sync hinv hw hc hframe hcom hlog hsync _,
    fun k => (syncedValue_sync hcons.tree hp k).trans (hcons.newest k),
    hframe.waiting.trans hw, hframe.compactor.trans hc⟩

/-! ### Compactions -/

/-- The compaction thread goes on, and the sorted tables may be compacted into others. -/
lemma Durable.withPhase (h : s.Durable) {phase next : CompactPhase}
    (hc : s.compactor = some (phase, id)) (t : Tree V) (hmem : t.memtables = s.tree.memtables)
    (hmaster : t.masterSyncId = s.tree.masterSyncId)
    (hsst : (∃ level, ∃ sst ∈ s.tree.sstManager.listLevel level,
        sst.syncId = s.tree.masterSyncId) →
      ∃ level, ∃ sst ∈ t.sstManager.listLevel level, sst.syncId = s.tree.masterSyncId)
    (dropped : List (ℕ × V)) :
    ({ s with tree := t, compactor := some (next, id), dropped } : TreeInner V).Durable := by
  obtain ⟨memtables, pending, sstManager, masterSyncId, nextId⟩ := t
  cases hmem
  cases hmaster
  refine
    { syncId := h.syncId
      waiting_log := h.waiting_log
      current := fun w es hw hes =>
        ⟨(h.current w es hw hes).syncId, (h.current w es hw hes).synced⟩
      uncommitted := h.uncommitted
      current_max := h.current_max
      newest := h.newest
      logged := fun hw hlog => ⟨(h.logged hw hlog).syncId, (h.logged hw hlog).synced⟩
      closed := h.closed
      compacting := ?_
      waiting_compacting := fun hw _ => h.waiting_compacting hw (by rw [hc]; rfl)
      stale := ?_
      syncId_le := h.syncId_le
      syncId_kept := h.syncId_kept.imp_left hsst }
  · rintro _ _ ⟨⟩
    obtain ⟨⟨es, hes, hheld⟩, hrest⟩ := h.compacting phase id hc
    exact ⟨⟨es, hes, hheld.syncId, hheld.synced⟩, hrest⟩
  · intro w es hes hnot hne
    refine h.stale w es hes hnot fun phase' hc' => hne next ?_
    cases hc.symm.trans hc'
    rfl

/-- The immutable table is a sorted table now, and its log is deleted. -/
lemma Durable.deleteLog {phase : CompactPhase} (h : s.Durable) (hwal : s.WalInv)
    (hc : s.compactor = some (phase, id)) (t : Tree V) (hmem : t.memtables = s.tree.memtables)
    (hmaster : t.masterSyncId = s.tree.masterSyncId)
    (hsst : ∃ level, ∃ sst ∈ t.sstManager.listLevel level, sst.syncId = s.tree.masterSyncId)
    (dropped : List (ℕ × V)) :
    ({ s with wals := s.wals.erase id, tree := t, compactor := none, dropped } :
      TreeInner V).Durable := by
  obtain ⟨memtables, pending, sstManager, masterSyncId, nextId⟩ := t
  cases hmem
  cases hmaster
  have hne : ∀ w, s.CurrentLog w → w ≠ id := by
    rintro w (hlog | hwait) rfl
    · exact (hwal.discarded phase w hc).ne hlog
    · exact (hwal.waiting w hwait).2.2 phase hc
  have hget : ∀ w, w ≠ id → (s.wals.erase id).get? w = s.wals.get? w := by
    intro w hw
    rw [OrderedMap.get?_erase, if_neg hw]
  have hlogged : ∀ s' : TreeInner V, s'.wal = s.wal → s'.tx = s.tx →
      s'.wals = s.wals.erase id → s'.logged = s.logged := by
    intro s' hwal' htx hwals
    refine logged_congr hwal' htx fun w hlog => ?_
    rw [hwals, hget w (hne w (.inl hlog))]
  have hsub : ∀ w es, (s.wals.erase id).get? w = some es → w ≠ id ∧ s.wals.get? w = some es := by
    intro w es hes
    rw [OrderedMap.get?_erase] at hes
    split at hes
    · cases hes
    · rename_i hw
      exact ⟨hw, hes⟩
  refine
    { syncId := h.syncId
      waiting_log := h.waiting_log
      current := fun w es hw hes => ?_
      uncommitted := fun hun => h.uncommitted fun w hw => ?_
      current_max := fun w hw w' hsome => ?_
      newest := fun hw key => ?_
      logged := fun hw hlog => ?_
      closed := h.closed
      compacting := fun _ _ hc' => ?_
      waiting_compacting := fun _ hsome => by cases hsome
      stale := fun w es hes hnot _ => ?_
      syncId_le := fun w es hes => h.syncId_le w es (hsub w es hes).2
      syncId_kept := .inl hsst }
  · have hheld := h.current w es hw (hsub w es hes).2
    exact ⟨hheld.syncId, hheld.synced⟩
  · rw [← hget w (hne w hw)]
    exact hun w hw
  · obtain ⟨es, hes⟩ := isSome_iff_exists.mp hsome
    exact h.current_max w hw w' (by rw [(hsub w' es hes).2]; rfl)
  · rw [hlogged]
    · exact h.newest hw key
    all_goals rfl
  · rw [hlogged]
    · exact ⟨(h.logged hw hlog).syncId, (h.logged hw hlog).synced⟩
    all_goals rfl
  · cases hc'
  · obtain ⟨hw, hes⟩ := hsub w es hes
    refine h.stale w es hes hnot fun phase' hc' => hw ?_
    cases hc.symm.trans hc'
    rfl

lemma compact_durable (hinv : s.Inv latest) (h : s.Durable) (hc : s.CanCall .compact)
    (hg : s.Good latest .compact) :
    yields compact (fun _ s' => s'.Durable ∧
      ∀ k, s'.tree.syncedValue k = s.tree.syncedValue k) s := by
  obtain ⟨⟨phase, id⟩, hphase⟩ := isSome_iff_exists.mp hc
  have hgood := hg phase id hphase
  cases phase with
  | check level =>
    refine (compact_check hinv hphase hgood).imp ?_
    rintro _ _ ⟨-, next, rfl⟩
    exact ⟨h.withPhase hphase _ rfl rfl (fun hsst => hsst) _, fun _ => rfl⟩
  | major toLevel =>
    refine (compact_major hinv hphase hgood).imp ?_
    rintro _ _ ⟨-, c, next, dropped, hcomp, rfl⟩
    obtain ⟨_, _, _, _, _, hcompacts⟩ := SstManager.compacts_majorCompaction hinv.tree.levels hcomp
    exact ⟨h.withPhase hphase (s.tree.withCompacted _ c).1 rfl rfl hcompacts.exists_syncId_eq _,
      fun k => ((Tree.kept_major hinv.tree hcomp).values k).synced⟩
  | minor =>
    have hp : s.tree.pending = true := by
      rw [hinv.pending, hphase]
      rfl
    refine (compact_minor hinv hphase hgood).imp ?_
    rintro _ _ ⟨-, c, dropped, hcomp, rfl⟩
    refine ⟨h.deleteLog hinv.wal hphase (s.tree.withCompacted _ c).1 rfl rfl ?_ _,
      fun k => ((Tree.kept_minor hinv.tree hp hcomp).values k).synced⟩
    obtain ⟨sst, hsst, rfl⟩ := map_eq_some_iff.mp hcomp
    obtain ⟨hid, hsync, -⟩ := SSTable.build_spec hsst
    refine ⟨.l0, sst, ?_, hsync.trans (hinv.tree.immutable_syncId hp)⟩
    change sst ∈ (s.tree.sstManager.insert sst .l0).listLevel .l0
    rw [hinv.tree.levels.listLevel_insert_l0 hid, if_pos rfl]
    exact mem_cons_self

end TreeInner

end Asterinas.Mlsdisk
