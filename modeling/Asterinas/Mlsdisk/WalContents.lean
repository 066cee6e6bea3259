import Asterinas.Mlsdisk.TxTreeRun

/-!
# What the write-ahead log holds

The entries of the current log are spread over the committed log, the open transaction and the
buffer.  The programs of the write-ahead log append to them, and a commit makes them the committed
log.
-/

namespace Asterinas.Mlsdisk

open Framework Exec Option List

variable {V : Type}

namespace TreeInner

/-- All entries of the current log. -/
def logged (s : TreeInner V) : List (WalEntry V) :=
  match s.wal.logId with
  | some id => (s.wals.get? id).getD [] ++ txEntries (s.tx.getD []) id ++ s.wal.recordBuf
  | none => []

variable {s : TreeInner V}

variable {id : ℕ}

lemma logged_of_some (h : s.wal.logId = some id) :
    s.logged = (s.wals.get? id).getD [] ++ txEntries (s.tx.getD []) id ++ s.wal.recordBuf := by
  rw [logged, h]

lemma logged_congr {s' : TreeInner V} (hwal : s'.wal = s.wal) (htx : s'.tx = s.tx)
    (hwals : ∀ id, s.wal.logId = some id → s'.wals.get? id = s.wals.get? id) :
    s'.logged = s.logged := by
  rw [logged, logged, hwal, htx]
  cases hlog : s.wal.logId with
  | none => rfl
  | some id =>
    dsimp only
    rw [hwals id hlog]

/-- Entries have been appended to the current log, which may be a new one; nothing is committed. -/
structure Appended (s s' : TreeInner V) (entries : List (WalEntry V)) : Prop where
  wals : s'.wals = s.wals
  syncId : s'.wal.syncId = s.wal.syncId
  logged : s'.logged = s.logged ++ entries
  logId : s'.wal.logId = some (s.wal.logId.getD s.tree.nextId)

/-- What the preparation of an append transaction writes. -/
def header (s : TreeInner V) : List (WalEntry V) :=
  if s.wal.appendedLog.isNone then [.sync s.wal.syncId] else []

lemma prepareIfNeeded_contents (h : s.WalInv) :
    yields prepareIfNeeded (fun _ s' => Appended s s' s.header) s := by
  refine (prepareIfNeeded_cases h).imp ?_
  rintro _ _ (⟨hsome, rfl⟩ | ⟨hlog, ⟨id, hid, rfl⟩ | ⟨hid, rfl⟩⟩)
  · obtain ⟨id, hlog⟩ := isSome_iff_exists.mp hsome
    exact ⟨rfl, rfl, by simp [header, hlog], by rw [h.log_eq id hlog]; rfl⟩
  · refine ⟨rfl, rfl, ?_, by rw [hid]; rfl⟩
    rw [logged_of_some hid, h.tx_eq_none hlog, h.buf hlog]
    simp [logged, prepared, txEntries, header, hlog]
  · have hfresh : s.wals.get? s.tree.nextId = none := by
      by_contra hne
      exact lt_irrefl _ (h.live_lt _ (.inl (isSome_iff_ne_none.mpr hne)))
    refine ⟨rfl, rfl, ?_, by rw [hid]; rfl⟩
    simp [logged, prepared, hid, hfresh, txEntries, header, hlog]

/-- Appending the buffer to the log leaves the entries as they are. -/
lemma logged_flushed (hid : s.wal.logId = some id) {tx : Tx V} (htx : s.tx = some tx) :
    logged { s with
      tx := some (tx ++ [(id, s.wal.recordBuf)])
      wal := { s.wal with recordBuf := [] } } = s.logged := by
  rw [logged_of_some hid, logged, htx]
  simp [hid, txEntries]

lemma append_contents (h : s.WalInv) (hw : s.waiting = none) (key : ℕ) (value : V) :
    yields (append key value) (fun _ s' => Appended s s' (s.header ++ [.record key value])) s := by
  refine append_of_prepared (P := (Appended s · s.header))
    (((prepareIfNeeded_spec h hw).and (prepareIfNeeded_contents h)).imp
      fun _ _ h => ⟨h.2, h.1.2⟩) ?_
  rintro s₁ id tx happ hopen htx _ rfl
  have hid := hopen.inv.log_eq id hopen.appendedLog
  have hpushed : logged { s₁ with wal := { s₁.wal with
      recordBuf := s₁.wal.recordBuf ++ [.record key value] } } =
      s.logged ++ (s.header ++ [.record key value]) := by
    have hlogged := happ.logged
    rw [logged_of_some hid] at hlogged
    rw [← append_assoc, ← hlogged, logged]
    simp [hid]
  refine ⟨⟨happ.wals, happ.syncId, hpushed, happ.logId⟩, happ.wals, happ.syncId, ?_, happ.logId⟩
  rw [← hpushed]
  exact logged_flushed (s := { s₁ with wal := { s₁.wal with
    recordBuf := s₁.wal.recordBuf ++ [.record key value] } }) hid htx

/-- A commit changes the current log only. -/
lemma Opened.get?_committed (h : s.Opened id)
    {tx tx' : Tx V} (htx : s.tx = some tx)
    (htx' : tx' = tx ∨ ∃ entries, tx' = tx ++ [(id, entries)]) (w : ℕ) :
    (applyTx s.wals tx').get? w = if w = id then
      some ((s.wals.get? id).getD [] ++ txEntries tx' id) else s.wals.get? w := by
  have hid := h.inv.log_eq id h.appendedLog
  have honly : ∀ e ∈ tx', e.1 = id := by
    have honly : ∀ e ∈ tx, e.1 = id := by
      intro e he
      have heq := h.inv.txOnly e (by rw [htx]; exact he)
      exact some_inj.mp (heq.symm.trans hid)
    rcases htx' with rfl | ⟨entries, rfl⟩
    · exact honly
    · intro e he
      rcases mem_append.mp he with he | he
      · exact honly e he
      · rw [mem_singleton.mp he]
  rw [get?_applyTx]
  by_cases hw : w = id
  · subst hw
    rw [if_pos rfl]
    split
    · rfl
    · -- the log was opened again, and nothing has been written to it
      rename_i hnone
      have hnil : tx' = [] := by
        refine eq_nil_iff_forall_not_mem.mpr fun e he => hnone ⟨e, he, honly e he⟩
      have hlive := h.live_closed (w := w) htx htx'
      rw [hnil] at hlive
      obtain ⟨entries, he⟩ := isSome_iff_exists.mp (hlive.mpr (h.inv.live w hid))
      have he' : s.wals.get? w = some entries := he
      rw [he', hnil]
      simp [txEntries]
  · rw [if_neg hw, if_neg]
    rintro ⟨e, he, heq⟩
    exact hw (heq.symm.trans (honly e he))

/-- The state that a commit of the write-ahead log leaves. -/
structure Committed (s s' : TreeInner V) (id : ℕ) (entries : List (WalEntry V)) : Prop where
  wals : ∀ w, s'.wals.get? w = if w = id then some entries else s.wals.get? w
  tx : s'.tx = none
  recordBuf : s'.wal.recordBuf = []

lemma Committed.le_of_committed {s' : TreeInner V} {entries : List (WalEntry V)}
    (h : Committed s s' id entries) (hmax : ∀ w, (s.wals.get? w).isSome = true → w ≤ id) (w : ℕ)
    (hw : (s'.wals.get? w).isSome = true) : w ≤ id := by
  rw [h.wals] at hw
  split at hw
  · rename_i heq
    exact heq.le
  · exact hmax w hw

lemma commitWal_contents (h : s.Opened id) :
    yields commitWal (fun walId s' => walId = id ∧ Committed s s' id s.logged ∧
      s'.wal.logId = none ∧ s'.wal.syncId = s.wal.syncId) s := by
  obtain ⟨tx, htx⟩ := h.exists_tx
  have hid := h.inv.log_eq id h.appendedLog
  obtain ⟨tx', htx', hentries, hcommit⟩ := twp_commitWal h htx
  refine hcommit ⟨rfl, ⟨fun w => ?_, rfl, rfl⟩, rfl, rfl⟩
  rw [logged_of_some hid, htx, getD_some, append_assoc, ← hentries]
  exact h.get?_committed htx htx' w

/-- `WalAppendTx::sync` makes all records of the log synced. -/
lemma syncWal_contents (h : s.WalInv) (hw : s.waiting = none) (syncId : ℕ) :
    yields (syncWal syncId) (fun _ s' =>
      Committed s s' (s.wal.logId.getD s.tree.nextId) (s.logged ++ (s.header ++ [.sync syncId])) ∧
        s'.wal.logId = some (s.wal.logId.getD s.tree.nextId) ∧ s'.wal.syncId = syncId) s := by
  refine syncWal_of_prepared (P := (Appended s · s.header))
    (((prepareIfNeeded_spec h hw).and (prepareIfNeeded_contents h)).imp
      fun _ _ h => ⟨h.2, h.1.2⟩) fun s₁ id tx happ hopen htx => ?_
  have hid := hopen.inv.log_eq id hopen.appendedLog
  have hid' : s.wal.logId.getD s.tree.nextId = id := some_inj.mp (happ.logId.symm.trans hid)
  have hlogged := happ.logged
  rw [logged_of_some hid, htx, getD_some] at hlogged
  refine ⟨⟨fun w => ?_, rfl, rfl⟩, happ.logId, rfl⟩
  have hcommitted := hopen.get?_committed htx
    (.inr ⟨s₁.wal.recordBuf ++ [.sync syncId], rfl⟩) w
  rw [hid', ← happ.wals, ← append_assoc, ← hlogged]
  simpa [closed, txEntries] using hcommitted

end TreeInner

end Asterinas.Mlsdisk
