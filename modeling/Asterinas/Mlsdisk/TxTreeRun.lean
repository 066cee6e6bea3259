import Asterinas.Mlsdisk.TxTreeCorrectness

/-!
# Runs of calls by one thread

The calls of one thread with the compaction thread between them, against the map of the latest
puts.  A read leaves the state as it is, unless it goes to the sorted tables while the write-ahead
log has an open transaction: then it ends that transaction, and the next call of the write-ahead log
panics.
-/

namespace Asterinas.Mlsdisk

open Framework Exec Function Option

variable {V : Type}

/-- What happens in a run. -/
inductive Call (V : Type)
  | put (key : ℕ) (value : V)
  /-- The rest of a `put` that has filled the memory table. -/
  | finishPut
  | get (key : ℕ)
  | getRange (start numValues : ℕ)
  | sync
  /-- The next step of the compaction thread. -/
  | compact

/-- What a call returns. -/
inductive Reply (V : Type)
  | done
  | value (value : V)
  | range (query : RangeQueryCtx V)

/-- The latest puts after a call. -/
def Call.record (latest : ℕ → Option V) : Call V → ℕ → Option V
  | .put key value => update latest key (some value)
  | _ => latest

namespace TreeInner

/-- The program of a call. -/
def call : Call V → Prog V (Reply V)
  | .put key value => do put key value; return .done
  | .finishPut => do finishPut; return .done
  | .get key => do return .value (← get key)
  | .getRange start numValues => do return .range (← getRange start numValues)
  | .sync => do sync; return .done
  | .compact => do compact; return .done

/-- The call can be made: the thread is in one call at a time, a full memory table and a sync wait
for the compaction thread. -/
def CanCall (s : TreeInner V) : Call V → Prop
  | .finishPut => s.waiting.isSome = true ∧ s.compactor = none
  | .sync => s.waiting = none ∧ s.compactor = none
  | .compact => s.compactor.isSome = true
  | _ => s.waiting = none

/-- The memory tables have the key, or the write-ahead log has no open transaction. -/
def ReadsApart (s : TreeInner V) (key : ℕ) : Prop :=
  (s.tree.memtables.get key).isSome = true ∨ s.wal.appendedLog = none

/-- The calls that are answered as a map would: a read that goes to the sorted tables finds no open
transaction of the write-ahead log, a range is not empty and has only keys that were put, and a
compaction can be completed. -/
def Good (s : TreeInner V) (latest : ℕ → Option V) : Call V → Prop
  | .get key => s.ReadsApart key
  | .getRange start numValues => 0 < numValues ∧
      ∀ key, start ≤ key → key < start + numValues → (latest key).isSome = true ∧ s.ReadsApart key
  | .compact => ∀ phase id, s.compactor = some (phase, id) →
      match phase with
      | .check level => level ≠ .l5
      | .major toLevel => s.tree.Fits (.major toLevel)
      | .minor => s.tree.Fits .minor
  | _ => True

/-- The states that a run of such calls can reach, with the latest puts. -/
inductive Reached : TreeInner V → (ℕ → Option V) → Prop
  | format : Reached format fun _ => none
  | ok {s s' : TreeInner V} {latest : ℕ → Option V} {c : Call V} {r : Reply V} :
      Reached s latest → s.CanCall c → s.Good latest c → call c s = .ok r s' →
      Reached s' (c.record latest)
  | err {s s' : TreeInner V} {latest : ℕ → Option V} {c : Call V} {e : Error} :
      Reached s latest → s.CanCall c → s.Good latest c → call c s = .err e s' →
      Reached s' latest

/-! ### The invariant of a run -/

/-- The tables, the compaction thread and the map of the latest puts are consistent. -/
structure Consistent (s : TreeInner V) (latest : ℕ → Option V) : Prop where
  tree : s.tree.Inv
  newest : ∀ key, s.tree.newest key = latest key
  /-- An immutable table that has been compacted is still read, and it is not out of date. -/
  compacted : s.tree.pending = false → ∀ key value,
    s.tree.memtables.immutable.get key = some value → s.tree.sstManager.search key = some value
  pending : s.tree.pending = s.compactor.isSome
  major : ∀ toLevel id, s.compactor = some (.major toLevel, id) →
    ∃ fromLevel, toLevel.upperLevel = some fromLevel ∧ s.tree.sstManager.listLevel fromLevel ≠ []

/-- The invariant of a run: a call waits exactly while the memory table is full. -/
structure Inv (s : TreeInner V) (latest : ℕ → Option V) : Prop extends s.Consistent latest where
  wal : s.WalInv
  not_full : s.waiting = none → s.tree.memtables.isFull = false
  full : s.waiting.isSome = true → s.tree.memtables.mutable.atCapacity = true

lemma inv_format : (format : TreeInner V).Inv fun _ => none where
  wal := walInv_format
  tree := Tree.inv_format
  newest key := rfl
  compacted _ key value h := by cases h
  pending := rfl
  not_full _ := rfl
  full h := by cases h
  major toLevel id h := by cases h

variable {s : TreeInner V} {latest : ℕ → Option V}

/-- What the tables say is the latest put. -/
lemma Consistent.get_or_search (h : s.Consistent latest) (key : ℕ) :
    (s.tree.memtables.get key).or (s.tree.sstManager.search key) = latest key := by
  rw [← h.newest, Tree.newest, MemTableManager.get, Tree.pendingEntries]
  cases hp : s.tree.pending with
  | true =>
    rw [if_pos rfl, lookup_entries]
    rfl
  | false =>
    have hcompacted := h.compacted hp key
    cases s.tree.memtables.mutable.get key with
    | some v => rfl
    | none =>
      cases himm : s.tree.memtables.immutable.get key with
      | none => rfl
      | some v => simp [hcompacted v himm]

/-- The programs of the write-ahead log keep everything else. -/
lemma Consistent.frame {s' : TreeInner V} (h : s.Consistent latest) (hf : Frame s s') :
    s'.Consistent latest := by
  have hlevels := h.tree.levels.mono (le_refl _) hf.nextId_le
  obtain ⟨nextId, wal, tx, wals, rfl⟩ := hf.exists_eq
  exact { h with tree := { h.tree with levels := hlevels } }

variable {dropped : List (ℕ × V)}

/-- The tables do not matter to the write-ahead log, but for the next log ID. -/
lemma WalInv.withTree (h : s.WalInv) {tree : Tree V}
    (hn : s.tree.nextId ≤ tree.nextId) :
    ({ s with tree, dropped } : TreeInner V).WalInv :=
  { h with
    live_lt := fun id hlive => lt_of_lt_of_le (h.live_lt id hlive) hn
    discarded :=
      fun phase id hc => ⟨(h.discarded phase id hc).committed, (h.discarded phase id hc).ne⟩
    waiting := fun id hw =>
      have ⟨hsealed, hlog, hne⟩ := h.waiting id hw
      ⟨⟨hsealed.committed, hsealed.ne⟩, hlog, hne⟩ }

lemma twp_stepTree {Q : Unit → TreeInner V → Prop} {E : Error → TreeInner V → Prop} (step : Step V)
    (tree : Tree V) (dropped : List (ℕ × V)) (hs : s.tree.step step = some (tree, dropped)) :
    twp (stepTree step) Q E s ↔ Q () { s with tree, dropped := s.dropped ++ dropped } := by
  simp only [stepTree, twp_bind, twp_get, twp_ofOption, twp_modify, hs, some_inj, exists_eq_left']

/-! ### Writes -/

lemma Consistent.put (h : s.Consistent latest) (key : ℕ) (value : V) (dropped : List (ℕ × V)) :
    ({ s with
        tree := { s.tree with memtables := (s.tree.memtables.put key value).1 }
        dropped } : TreeInner V).Consistent (update latest key (some value)) where
  tree := h.tree.put key value
  newest k := by
    rw [Tree.newest_put, update_apply, h.newest]
  compacted := h.compacted
  pending := h.pending
  major := h.major

variable {id : ℕ}

/-- The log that a `put` has committed is kept until the compaction starts. -/
lemma WalInv.wait (h : s.WalInv) (hs : s.Sealed id) (hlog : s.wal.appendedLog = none)
    (hne : ∀ phase, s.compactor ≠ some (phase, id)) :
    ({ s with waiting := some id } : TreeInner V).WalInv :=
  { h with
    discarded := fun phase w hc => ⟨(h.discarded phase w hc).committed, (h.discarded phase w hc).ne⟩
    waiting := by
      rintro w ⟨⟩
      exact ⟨⟨hs.committed, hs.ne⟩, hlog, hne⟩ }

lemma put_spec (h : s.Inv latest) (hw : s.waiting = none) (key : ℕ) (value : V) :
    yields (put key value) (fun _ s' => s'.Inv (update latest key (some value))) s := by
  refine (append_spec h.wal hw key value).then fun _ s₁ ⟨hframe, id, hopen⟩ => ?_
  have hput := (h.toConsistent.frame hframe).put key value
  have hopen' : ∀ dropped, ({ s₁ with
      tree := { s₁.tree with memtables := (s₁.tree.memtables.put key value).1 }
      dropped } : TreeInner V).Opened id := fun dropped =>
    ⟨hopen.inv.withTree (le_refl _), hopen.appendedLog, hopen.waiting⟩
  rw [twp_bind]
  refine (twp_stepTree (.put key value)
    { s₁.tree with memtables := (s₁.tree.memtables.put key value).1 }
    ((s₁.tree.memtables.put key value).2.toList.map (key, ·)) rfl).mpr ?_
  rw [twp_bind, twp_get]
  by_cases hfull : (s₁.tree.memtables.put key value).1.isFull = false
  · rw [if_pos hfull, twp_pure]
    refine ⟨hput _, (hopen' _).inv, fun _ => hfull, fun hsome => ?_⟩
    rw [(hopen' _).waiting] at hsome
    cases hsome
  · rw [if_neg hfull]
    refine (commitWal_spec (hopen' _)).then fun walId s₃ ⟨hframe3, hwal, hsealed, hlog, hne⟩ => ?_
    rw [twp_modify]
    refine ⟨?_, hwal.wait hsealed hlog hne, fun hnone => ?_, fun _ => ?_⟩
    · exact { (hput _).frame hframe3 with }
    · cases hnone
    · rw [hframe3.tree]
      exact Bool.eq_true_of_not_eq_false hfull

lemma Consistent.switch {memtables : MemTableManager V} (h : s.Consistent latest)
    (hp : s.tree.pending = false) (hs : s.tree.memtables.switch = some memtables) (id : ℕ)
    (dropped : List (ℕ × V)) :
    ({ s with
        tree := { s.tree with memtables, pending := true }
        waiting := none
        compactor := some (.check .l0, id)
        dropped } : TreeInner V).Consistent latest where
  tree := h.tree.switch hp hs
  newest k := (Tree.newest_switch hp hs k).trans (h.newest k)
  compacted hp' := by cases hp'
  pending := rfl
  major toLevel id hc := by cases hc

lemma finishPut_spec (h : s.Inv latest) (hw : s.waiting.isSome = true) (hc : s.compactor = none) :
    yields finishPut (fun _ s' => s'.Inv latest) s := by
  obtain ⟨id, hid⟩ := isSome_iff_exists.mp hw
  obtain ⟨hsealed, hlog, -⟩ := h.wal.waiting id hid
  have hp : s.tree.pending = false := by rw [h.pending, hc]; rfl
  have hswitch : s.tree.memtables.switch = some _ := if_pos (h.full hw)
  simp only [finishPut, twp_bind, twp_get, twp_ofOption, hid, some_inj, exists_eq_left']
  refine (twp_stepTree .switch _ _ (congrArg (Option.map _) hswitch)).mpr ?_
  rw [twp_modify]
  refine ⟨h.toConsistent.switch hp hswitch id _, ?_, fun _ => rfl, fun hsome => by cases hsome⟩
  exact
    { h.wal with
      discarded := by
        rintro phase w ⟨⟩
        exact ⟨hsealed.committed, hsealed.ne⟩
      waiting := fun w hw' => by cases hw' }

lemma Consistent.sync (h : s.Consistent latest) (hp : s.tree.pending = false)
    (dropped : List (ℕ × V)) :
    ({ s with
        tree := { s.tree with
          memtables := (s.tree.memtables.sync (s.tree.masterSyncId + 1)).1
          masterSyncId := s.tree.masterSyncId + 1 }
        dropped } : TreeInner V).Consistent latest where
  tree := h.tree.sync hp
  newest k := (h.tree.newest_sync k).trans (h.newest k)
  compacted := h.compacted
  pending := h.pending
  major := h.major

lemma sync_spec (h : s.Inv latest) (hw : s.waiting = none) (hc : s.compactor = none) :
    yields sync (fun _ s' => s'.Inv latest) s := by
  simp only [sync, twp_bind, twp_get]
  refine (syncWal_spec h.wal hw _).imp ?_
  rintro _ s₁ ⟨hframe, hwal⟩
  have hcons := h.toConsistent.frame hframe
  obtain ⟨nextId, wal, tx, wals, rfl⟩ := hframe.exists_eq
  have hp : s.tree.pending = false := by
    rw [h.pending, hc]
    rfl
  refine (twp_stepTree .sync { s.tree with
    memtables := (s.tree.memtables.sync (s.tree.masterSyncId + 1)).1
    masterSyncId := s.tree.masterSyncId + 1
    nextId } _ rfl).mpr ?_
  refine ⟨hcons.sync hp _, hwal.withTree (le_refl _), fun _ => h.not_full hw, fun hsome => ?_⟩
  cases (congrArg isSome hw).symm.trans hsome

/-! ### Reads -/

/-- Without an open transaction, a read begins one that is empty, and commits it. -/
lemma WalInv.commit_empty (h : s.WalInv) (hlog : s.wal.appendedLog = none) :
    ({ s with tx := none, wals := applyTx s.wals [] } : TreeInner V) = s := by
  rw [← h.tx_eq_none hlog]
  rfl

lemma get_spec {key : ℕ} (h : s.Inv latest) (hr : s.ReadsApart key) :
    twp (get key) (fun v s' => s' = s ∧ latest key = some v)
      (fun e s' => s' = s ∧ latest key = none ∧ e = ⟨.notFound, "target sst not found"⟩) s := by
  have hlatest := h.get_or_search key
  rw [get, twp_bind, twp_get]
  cases hm : s.tree.memtables.get key with
  | some v =>
    rw [hm] at hlatest
    exact ⟨rfl, hlatest.symm⟩
  | none =>
    have hlog : s.wal.appendedLog = none := by
      rcases hr with hr | hr
      · rw [hm] at hr
        cases hr
      · exact hr
    rw [hm, none_or] at hlatest
    simp only [doReadTx, newTx, context, twp_bind, twp_modify, twp_get,
      twp_require, h.wal.tx_eq_none hlog, getD_none, isSome_some, true_and]
    refine (twp_commitTx [] ?_ rfl).mpr ?_
    · rfl
    · rw [h.wal.commit_empty hlog]
      cases hs : s.tree.sstManager.search key with
      | some v => exact ⟨rfl, hlatest.symm.trans hs⟩
      | none => exact ⟨rfl, hlatest.symm.trans hs, rfl⟩

lemma findSome?_tables (m : SstManager V) (key : ℕ) :
    m.tables.findSome? (·.search key) = m.search key := by
  rw [SstManager.tables, findSome?_flatMap, SstManager.search]

lemma getRange_spec {numValues start : ℕ} (h : s.Inv latest) (hpos : 0 < numValues)
    (hput : ∀ key, start ≤ key → key < start + numValues →
      (latest key).isSome = true ∧ s.ReadsApart key) :
    yields (getRange start numValues)
      (fun c s' => s' = s ∧ ∀ key, start ≤ key → key < start + numValues →
        c.found key = latest key) s := by
  have hnew : (RangeQueryCtx.new start numValues : RangeQueryCtx V).isCompleted = false := by
    simp [RangeQueryCtx.isCompleted, RangeQueryCtx.new, hpos.ne]
  obtain ⟨c₁, hc1, hext1⟩ :=
    s.tree.memtables.getRange_spec (RangeQueryCtx.inv_new start numValues) hnew
  have hfound1 : ∀ key, start ≤ key → key < start + numValues →
      c₁.found key = s.tree.memtables.get key := fun key h1 h2 => hext1.found_eq key ⟨h1, h2⟩
  simp only [getRange, twp_bind, twp_get, twp_ofOption]
  refine ⟨c₁, hc1, ?_⟩
  cases hcomp : c₁.isCompleted with
  | true =>
    refine ⟨rfl, fun key h1 h2 => ?_⟩
    have hsome := hext1.inv.isCompleted_iff.mp hcomp key (hext1.asked_iff.mpr ⟨h1, h2⟩)
    rw [← h.get_or_search key, ← hfound1 key h1 h2, or_of_isSome hsome]
  | false =>
    -- some key is not in the memory tables, so that no transaction is open
    have hlog : s.wal.appendedLog = none := by
      by_contra hopen
      refine absurd (hext1.inv.isCompleted_iff.mpr fun key hk => ?_) (by simp [hcomp])
      obtain ⟨h1, h2⟩ := hext1.asked_iff.mp hk
      rw [hfound1 key h1 h2]
      exact (hput key h1 h2).2.resolve_right hopen
    have hasc : ∀ t ∈ s.tree.sstManager.tables, Ascending t.records := by
      intro t ht
      obtain ⟨level, -, ht⟩ := List.mem_flatMap.mp ht
      exact h.tree.levels.ascending level t ht
    obtain ⟨c₂, hc2, hext2⟩ := readRange_spec hasc hext1.inv hcomp
    have hfound2 : ∀ key, start ≤ key → key < start + numValues → c₂.found key = latest key := by
      intro key h1 h2
      rw [hext2.found_eq key (hext1.asked_iff.mpr ⟨h1, h2⟩), hfound1 key h1 h2,
        findSome?_tables, h.get_or_search]
    have hcomp2 : c₂.isCompleted = true := by
      refine hext2.inv.isCompleted_iff.mpr fun key hk => ?_
      obtain ⟨h1, h2⟩ := hext1.asked_iff.mp (hext2.asked_iff.mp hk)
      rw [hfound2 key h1 h2]
      exact (hput key h1 h2).1
    simp only [doReadRangeTx, newTx, context, twp_bind, twp_modify, twp_get,
      twp_require, twp_ofOption, h.wal.tx_eq_none hlog, getD_none,
      isSome_some, true_and, Bool.false_eq_true, if_false]
    refine ⟨(c₂.isCompleted, c₂), hc2, (twp_commitTx [] ?_ rfl).mpr ?_⟩
    · rfl
    · rw [h.wal.commit_empty hlog, hcomp2]
      exact ⟨rfl, hfound2⟩

/-! ### The compaction thread -/

/-- After a level other than the last one, there is something to do next. -/
lemma nextPhase_spec (m : SstManager V) (level : LsmLevel) (hl : level ≠ .l5) :
    ∃ phase, nextPhase m level = some phase ∧ ∀ toLevel, phase = .major toLevel →
      ∃ fromLevel, toLevel.upperLevel = some fromLevel ∧ m.listLevel fromLevel ≠ [] := by
  have hlower : ∃ lower, level.lowerLevel = some lower ∧ lower.upperLevel = some level := by
    cases level with
    | l5 => exact absurd rfl hl
    | _ => exact ⟨_, rfl, rfl⟩
  obtain ⟨lower, hlower, hupper⟩ := hlower
  rw [nextPhase, SstManager.requireMajorCompaction, if_neg hl, bind_some]
  split
  · rename_i hreq
    refine ⟨.major lower, by rw [hlower]; rfl, ?_⟩
    rintro toLevel ⟨⟩
    refine ⟨level, hupper, fun hnil => ?_⟩
    have hpos : 0 < level.ratio := by cases level <;> decide
    have hlen := hpos.trans_le (of_decide_eq_true hreq)
    rw [SstManager.listLevel, List.reverse_eq_nil_iff, OrderedMap.values,
      List.map_eq_nil_iff] at hnil
    rw [hnil] at hlen
    exact absurd hlen (lt_irrefl _)
  · exact ⟨.minor, rfl, fun _ heq => by cases heq⟩

lemma Consistent.kept {t : Tree V} (h : s.Consistent latest)
    (hk : s.tree.Kept t dropped) (key : ℕ) : t.newest key = latest key := by
  rw [hk.inv.newest_eq, (hk.values key).newest, ← h.tree.newest_eq, h.newest]

/-- The compaction thread goes on to the next phase. -/
lemma WalInv.withPhase {phase next : CompactPhase} (h : s.WalInv)
    (hc : s.compactor = some (phase, id)) :
    ({ s with compactor := some (next, id) } : TreeInner V).WalInv :=
  { h with
    discarded := by
      rintro p w ⟨⟩
      exact ⟨(h.discarded phase id hc).committed, (h.discarded phase id hc).ne⟩
    waiting := by
      intro w hw
      obtain ⟨hsealed, hlog, hne⟩ := h.waiting w hw
      refine ⟨⟨hsealed.committed, hsealed.ne⟩, hlog, ?_⟩
      rintro p ⟨⟩
      exact hne phase hc }

/-- The log that the minor compaction discards is used by nobody else. -/
lemma WalInv.deleteLog {phase : CompactPhase} (h : s.WalInv) (hc : s.compactor = some (phase, id)) :
    ({ s with wals := s.wals.erase id, compactor := none } : TreeInner V).WalInv := by
  have hmem : ∀ w, w ≠ id → (s.wals.erase id).get? w = s.wals.get? w := by
    intro w hw
    rw [OrderedMap.get?_erase, if_neg hw]
  have hne : s.wal.logId ≠ some id := (h.discarded phase id hc).ne
  refine
    { h with
      live := fun w hw => ?_
      live_lt := fun w hw => ?_
      discarded := fun _ _ hc' => ?_
      waiting := fun w hw => ?_ }
  · rcases h.live w hw with hw' | hw'
    · refine .inl ?_
      rwa [hmem]
      rintro rfl
      exact hne hw
    · exact .inr hw'
  · refine h.live_lt w ?_
    rcases hw with hw | hw
    · refine .inl ?_
      rw [OrderedMap.get?_erase] at hw
      split at hw
      · cases hw
      · exact hw
    · exact .inr hw
  · cases hc'
  · obtain ⟨hsealed, hlog, hother⟩ := h.waiting w hw
    refine ⟨⟨?_, hsealed.ne⟩, hlog, fun _ hc' => by cases hc'⟩
    rw [hmem]
    · exact hsealed.committed
    · rintro rfl
      exact hother phase hc

section

variable (h : s.Inv latest)

include h

lemma compact_check {level : LsmLevel}
    (hc : s.compactor = some (.check level, id)) (hl : level ≠ .l5) :
    yields compact (fun _ s' => s'.Inv latest ∧ ∃ next, s' =
        { s with compactor := some (next, id) }) s := by
  obtain ⟨next, hnext, hmajor⟩ := nextPhase_spec s.tree.sstManager level hl
  simp only [compact, twp_bind, twp_get, twp_ofOption, hc, some_inj,
    exists_eq_left', twp_modify, hnext]
  refine ⟨⟨⟨h.tree, h.newest, h.compacted, ?_, ?_⟩, h.wal.withPhase hc, h.not_full, h.full⟩, _, rfl⟩
  · rw [h.pending, hc]
    rfl
  · rintro toLevel w ⟨⟩
    exact hmajor toLevel rfl

lemma compact_major {toLevel : LsmLevel}
    (hc : s.compactor = some (.major toLevel, id)) (hf : s.tree.Fits (.major toLevel)) :
    yields compact (fun _ s' => s'.Inv latest ∧ ∃ c next dropped,
      s.tree.sstManager.majorCompaction toLevel s.tree.masterSyncId s.tree.nextId = some c ∧
      s' = { s with
        tree := (s.tree.withCompacted s.tree.pending c).1, compactor := some (next, id), dropped })
            s := by
  obtain ⟨⟨t, dropped⟩, hstep⟩ := isSome_iff_exists.mp
    ((h.tree.step_isSome (s := .major toLevel) trivial (h.major toLevel id hc)).mpr hf)
  obtain ⟨c, hcomp, heq⟩ := map_eq_some_iff.mp hstep
  have hkept := Tree.kept_major h.tree hcomp
  obtain ⟨_, _, _, _, _, hcompacts⟩ := SstManager.compacts_majorCompaction h.tree.levels hcomp
  simp only [compact, twp_bind, twp_get, twp_ofOption, hc, some_inj, exists_eq_left']
  refine (twp_stepTree _ t dropped hstep).mpr ?_
  rw [twp_modify]
  cases heq
  have hp : s.tree.pending = true := by
    rw [h.pending, hc]
    rfl
  refine ⟨⟨⟨hkept.inv, h.toConsistent.kept hkept, fun hp' => ?_, hp, ?_⟩,
    (h.wal.withTree hcompacts.nextId_le).withPhase hc, h.not_full, h.full⟩, c, _, _, hcomp, rfl⟩
  · exact absurd (hp.symm.trans hp') (by decide)
  · rintro toLevel w ⟨⟩

lemma compact_minor (hc : s.compactor = some (.minor, id))
    (hf : s.tree.Fits .minor) :
    yields compact (fun _ s' => s'.Inv latest ∧ ∃ c dropped,
      s.tree.sstManager.minorCompaction s.tree.memtables.immutable s.tree.nextId = some c ∧
      s' = { s with
        wals := s.wals.erase id, tree := (s.tree.withCompacted false c).1
        compactor := none, dropped }) s := by
  have hp : s.tree.pending = true := by
    rw [h.pending, hc]
    rfl
  obtain ⟨⟨t, dropped⟩, hstep⟩ := isSome_iff_exists.mp
    ((h.tree.step_isSome (s := .minor) trivial hp).mpr hf)
  obtain ⟨c, hcomp, heq⟩ := map_eq_some_iff.mp hstep
  have hkept := Tree.kept_minor h.tree hp hcomp
  have hlog : (s.wals.get? id).isNone = false := by
    simpa using (h.wal.discarded .minor id hc).committed
  simp only [compact, TreeInner.deleteLog, twp_bind, twp_get, twp_ofOption, hc,
    some_inj, exists_eq_left', hstep, hlog, Bool.false_eq_true, if_false, twp_modify]
  cases heq
  have hnext : s.tree.nextId ≤ c.nextId := by
    obtain ⟨sst, -, rfl⟩ := map_eq_some_iff.mp hcomp
    exact Nat.le_succ _
  refine ⟨⟨⟨hkept.inv, h.toConsistent.kept hkept, fun _ key value himm => ?_, rfl, ?_⟩,
    (h.wal.withTree hnext).deleteLog hc, h.not_full, h.full⟩, c, _, hcomp, rfl⟩
  · exact (Tree.search_minorCompaction h.tree.levels hcomp key).trans (by rw [himm]; rfl)
  · rintro toLevel w ⟨⟩

lemma compact_spec (hc : s.CanCall .compact) (hg : s.Good latest .compact) :
    yields compact (fun _ s' => s'.Inv latest) s := by
  obtain ⟨⟨phase, id⟩, hphase⟩ := isSome_iff_exists.mp hc
  have hgood := hg phase id hphase
  cases phase with
  | check level => exact (compact_check h hphase hgood).imp fun _ _ => And.left
  | major toLevel => exact (compact_major h hphase hgood).imp fun _ _ => And.left
  | minor => exact (compact_minor h hphase hgood).imp fun _ _ => And.left

end

/-! ### Runs -/

/-- What a map answers to a call in a state: a read leaves the state as it is. -/
def Answers (s : TreeInner V) (latest : ℕ → Option V) :
    Call V → Outcome Error (TreeInner V) (Reply V) → Prop
  | .get key, o => o = match latest key with
    | some value => .ok (.value value) s
    | none => .err ⟨.notFound, "target sst not found"⟩ s
  | .getRange start numValues, o => ∃ query, o = .ok (.range query) s ∧
      ∀ key, start ≤ key → key < start + numValues → query.found key = latest key
  | _, o => ∃ s', o = .ok .done s'

/-- The state that a call leaves keeps the invariant. -/
def LeavesInv (o : Outcome Error (TreeInner V) (Reply V)) (latest latest' : ℕ → Option V) : Prop :=
  match o with
  | .ok _ s' => s'.Inv latest'
  | .err _ s' => s'.Inv latest
  | .panic => False

/-- A call that returns nothing returns, and keeps the invariant. -/
lemma answers_done {α : Type} {p : Exec Error (TreeInner V) α} {latest' : ℕ → Option V}
    (h : yields p (fun _ s' => s'.Inv latest') s) (latest) :
    let o := (p >>= fun _ => pure Reply.done : Prog V (Reply V)) s
    (∃ s', o = .ok .done s') ∧ LeavesInv o latest latest' := by
  have hcall : yields (p >>= fun _ => pure Reply.done : Prog V (Reply V))
      (fun r s' => r = Reply.done ∧ s'.Inv latest') s :=
    h.then fun _ s' hinv => ⟨rfl, hinv⟩
  rcases hcall.returns with ⟨r, s', hs, rfl, hinv⟩ | ⟨_, _, _, hfalse⟩
  · exact ⟨⟨s', hs⟩, hs ▸ hinv⟩
  · exact hfalse.elim

/-- One call: the map answers, and the invariant is kept. -/
lemma call_spec (h : s.Inv latest) (c : Call V) (hc : s.CanCall c) (hg : s.Good latest c) :
    s.Answers latest c (call c s) ∧ LeavesInv (call c s) latest (c.record latest) := by
  cases c with
  | put key value => exact answers_done (put_spec h hc key value) latest
  | finishPut => exact answers_done (finishPut_spec h hc.1 hc.2) latest
  | sync => exact answers_done (sync_spec h hc.1 hc.2) latest
  | compact => exact answers_done (compact_spec h hc hg) latest
  | get key =>
    have hcall : twp (call (.get key))
        (fun r s' => s' = s ∧ ∃ value, latest key = some value ∧ r = .value value)
        (fun e s' => s' = s ∧ latest key = none ∧ e = ⟨.notFound, "target sst not found"⟩) s :=
      (get_spec h hg).then fun value s' hs => ⟨hs.1, value, hs.2, rfl⟩
    rcases hcall.returns with ⟨r, s', hs, rfl, value, hvalue, rfl⟩ | ⟨e, s', hs, rfl, hnone, rfl⟩
    · refine ⟨?_, by rw [hs]; exact h⟩
      rw [Answers, hs, hvalue]
    · refine ⟨?_, by rw [hs]; exact h⟩
      rw [Answers, hs, hnone]
  | getRange start numValues =>
    have hcall : yields (call (.getRange start numValues))
        (fun r s' => s' = s ∧ ∃ query, r = .range query ∧
          ∀ key, start ≤ key → key < start + numValues → query.found key = latest key) s :=
      (getRange_spec h hg.1 hg.2).then fun query s' hs => ⟨hs.1, query, rfl, hs.2⟩
    rcases hcall.returns with ⟨r, s', hs, rfl, query, rfl, hfound⟩ | ⟨_, _, _, hfalse⟩
    · exact ⟨⟨query, hs, hfound⟩, by rw [hs]; exact h⟩
    · exact hfalse.elim

lemma Reached.inv (h : s.Reached latest) : s.Inv latest := by
  induction h with
  | format => exact inv_format
  | ok _ hc hg hs ih | err _ hc hg hs ih =>
    have hkeeps := (call_spec ih _ hc hg).2
    rw [hs] at hkeeps
    exact hkeeps

end TreeInner

end Asterinas.Mlsdisk
