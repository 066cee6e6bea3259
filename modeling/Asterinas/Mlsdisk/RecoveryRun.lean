import Asterinas.Mlsdisk.RecoveryCorrectness

/-!
# Runs with crashes

In a run whose steps stay clear of what breaks a recovery, every recovery restores the values of the
last sync, or of the sync that was in progress.
-/

namespace Asterinas.Mlsdisk

open Framework Exec List Option TreeInner

variable {V : Type}

namespace TreeInner

variable {s s' : TreeInner V} {latest : ℕ → Option V}

/-- Nothing is left from before a recovery: the logs that nobody uses have no synced records, and
there are no copies among the sorted tables. -/
structure Settled (s : TreeInner V) : Prop where
  apart : ∀ level, level ≠ .l0 → (s.tree.sstManager.listLevel level).Pairwise SSTable.Apart
  wals : ∀ id es, s.wals.get? id = some es → ¬ s.CurrentLog id →
    (∀ phase, s.compactor ≠ some (phase, id)) → (collectSyncedRecordsAndSyncId es).1 = []

lemma Durable.settled (h : s.Durable) (hinv : s.Inv latest) : s.Settled :=
  ⟨hinv.tree.levels.apart, h.stale⟩

/-- What a `put` that does not fill the memory table leaves in any state: nothing is committed. -/
structure Uncommitted (s s' : TreeInner V) : Prop where
  wal : s'.WalInv
  store : s'.store = s.store
  waiting : s'.waiting = s.waiting
  compactor : s'.compactor = s.compactor
  settled : s'.Settled → s.Settled

lemma put_uncommitted {key : ℕ} {value : V} (hwal : s.WalInv) (hw : s.waiting = none)
    (hf : (s.tree.memtables.put key value).1.isFull = false) :
    yields (put key value) (fun _ s' => Uncommitted s s') s := by
  refine ((append_spec hwal hw key value).and (append_contents hwal hw key value)).then
    fun _ s₁ ⟨⟨hframe, id, hopen⟩, happ⟩ => ?_
  have hcommitted : ∀ w es, s₁.CurrentLog w → s.wals.get? w = some es → s.CurrentLog w :=
    fun w es hw' hes => happ.currentLog hwal hopen hw' hes
  obtain ⟨nextId, wal, tx, wals, rfl⟩ := hframe.exists_eq
  obtain rfl : wals = s.wals := happ.wals
  rw [twp_bind]
  refine (twp_stepTree (.put key value)
    { s.tree with memtables := (s.tree.memtables.put key value).1, nextId }
    ((s.tree.memtables.put key value).2.toList.map (key, ·)) rfl).mpr ?_
  rw [twp_bind, twp_get, if_pos hf, twp_pure]
  exact ⟨hopen.inv.withTree (le_refl _), rfl, rfl, rfl, fun hs => ⟨hs.apart,
    fun w es hes hnot => hs.wals w es hes fun hcur => hnot (hcommitted w es hcur hes)⟩⟩

/-- A step of the compaction thread that returns is one that can be completed. -/
lemma good_of_compact {r : Reply V} (h : s.Inv latest) (hok : call .compact s = .ok r s') :
    s.Good latest .compact := by
  have hgood : ∀ {P : _ → Prop} phase id, s.compactor = some (phase, id) → P phase →
      ∀ phase id, s.compactor = some (phase, id) → P phase := by
    intro P phase id hc hphase phase' id' hc'
    cases hc.symm.trans hc'
    exact hphase
  have hcall : wp (call .compact) (fun _ _ => s.Good latest .compact) (fun _ _ => True) s := by
    simp only [call, compact, wp_bind, wp_get, wp_ofOption]
    rintro ⟨phase, id⟩ hc
    cases phase with
    | check level =>
      simp only [wp_bind, wp_ofOption]
      intro next hnext
      refine wp_of_forall _ (fun _ _ => hgood _ id hc ?_) fun _ _ => trivial
      rintro rfl
      cases hnext
    | major toLevel =>
      simp only [stepTree, wp_bind, wp_get, wp_ofOption]
      intro t ht
      have hfits := (h.tree.step_isSome (s := .major toLevel) trivial
        (h.major toLevel id hc)).mp (isSome_iff_exists.mpr ⟨t, ht⟩)
      exact wp_of_forall _ (fun _ _ => hgood _ id hc hfits) fun _ _ => trivial
    | minor =>
      have hp : s.tree.pending = true := by
        rw [h.pending, hc]
        rfl
      simp only [wp_bind, wp_ofOption]
      intro t ht
      have hfits := (h.tree.step_isSome (s := .minor) trivial hp).mp (isSome_iff_exists.mpr ⟨t, ht⟩)
      exact wp_of_forall _ (fun _ _ => wp_of_forall _ (fun _ _ => hgood _ id hc hfits)
        fun _ _ => trivial) fun _ _ => trivial
  exact hcall.of_ok hok

end TreeInner

/-! ### After a recovery -/

namespace TreeInner

/-- A tree that starts with empty memory tables. -/
def restarted (wals : Wals V) (m : SstManager V) (syncId nextId : ℕ) (dropped : List (ℕ × V)) :
    TreeInner V where
  tree := ⟨MemTableManager.new syncId memtableCapacity, false, m, syncId, nextId⟩
  wal := ⟨none, none, syncId, []⟩
  tx := none
  wals := wals
  compactor := none
  waiting := none
  dropped := dropped

variable {wals : Wals V} {m : SstManager V} {syncId nextId : ℕ} {dropped : List (ℕ × V)}

lemma not_currentLog_restarted (id : ℕ) :
    ¬ (restarted wals m syncId nextId dropped).CurrentLog id := by
  rintro (hlog | hwait)
  · cases hlog
  · cases hwait

lemma inv_restarted (hm : m.Inv syncId nextId)
    (hnewer : ∀ key, (LsmLevel.all.flatMap fun level => m.levelChain syncId level key).Pairwise
      ValueEx.Newer)
    (hwal : (restarted wals m syncId nextId dropped).WalInv) :
    (restarted wals m syncId nextId dropped).Inv
      (restarted wals m syncId nextId dropped).visible where
  wal := hwal
  tree :=
    { levels := hm
      mutable := by constructor <;> simp [restarted, MemTableManager.new, MemTable.new]
      mutable_syncId := rfl
      mutable_cap := rfl
      immutable_cap := rfl
      immutable_syncId := fun h => by cases h
      immutable_ne := fun h => by cases h
      newer := hnewer }
  newest _ := rfl
  compacted _ key value h := by cases h
  pending := rfl
  not_full _ := rfl
  full h := by cases h
  major toLevel id h := by cases h

lemma durable_restarted (hstale : ∀ id es, wals.get? id = some es →
      ¬ (restarted wals m syncId nextId dropped).CurrentLog id →
      (∀ phase, (restarted wals m syncId nextId dropped).compactor ≠ some (phase, id)) →
      (collectSyncedRecordsAndSyncId es).1 = [])
    (hle : ∀ id es, wals.get? id = some es → (collectSyncedRecordsAndSyncId es).2 ≤ syncId)
    (hkept : (recoverFromWal wals).2 = syncId) :
    (restarted wals m syncId nextId dropped).Durable where
  syncId := rfl
  waiting_log h := by cases h
  current id _ h := absurd h (not_currentLog_restarted id)
  uncommitted _ key := rfl
  current_max id h := absurd h (not_currentLog_restarted id)
  newest _ _ := rfl
  logged _ h := by cases h
  closed _ _ _ := rfl
  compacting phase id h := by cases h
  waiting_compacting h := by cases h
  stale := hstale
  syncId_le := hle
  syncId_kept := .inr hkept

end TreeInner

namespace Store

variable {d : Store V} {t : Tree V} {r : SstManager.Migrated V} {dropped : List (ℕ × V)}

lemma walInv_recovered (hm : SstManager.MigratesTo d.syncId d.sstManager.leveled d.nextId r)
    (dropped : List (ℕ × V)) :
    (d.recovered r dropped).WalInv where
  tx_iff := rfl
  log_eq id h := by cases h
  buf _ := rfl
  txOnly e he := by cases he
  rooted htx := by cases htx
  live id h := by cases h
  live_lt id h := by
    rcases h with h | ⟨e, he, -⟩
    · exact (lt_nextId_of_mem_wals h).trans_le hm.nextId_le
    · cases he
  discarded phase id h := by cases h
  waiting id h := by cases h

/-- Nothing is restored from the logs when nothing is left in them. -/
lemma records_eq_nil (hs : (d.recovered r dropped).Settled) : (recoverFromWal d.wals).1 = [] := by
  rcases recoverFromWal_cases d.wals with hnone | ⟨id, es, hes, hread⟩
  · rw [hnone]
  · rw [hread]
    refine hs.wals id es hes ?_ fun phase hc => by cases hc
    rintro (hlog | hwait)
    · cases hlog
    · cases hwait

lemma recovered_eq (hs : (d.recovered r dropped).Settled) :
    d.recovered r dropped = .restarted d.wals (d.sstManager.updateSstManager r.created r.deleted)
      d.syncId r.nextId dropped := by
  rw [recovered, records_eq_nil hs]
  rfl

section

variable {syncIdStore : Option ℕ} (h : d.Backs t) (hr : d.Recoverable syncIdStore)

include h hr

lemma Backs.inv_recovered (hm : SstManager.MigratesTo d.syncId d.sstManager.leveled d.nextId r)
    (hs : (d.recovered r dropped).Settled) :
    (d.recovered r dropped).Inv (d.recovered r dropped).visible := by
  have hc : r.created = [] := hm.created_eq_nil h.levels hr.uniform hs.apart
  have hwal := walInv_recovered hm dropped
  rw [recovered_eq hs] at hwal ⊢
  refine inv_restarted ?_ (fun key => ?_) hwal
  · exact (hm.inv h.levels hc h.levels).mono (le_refl _) hm.nextId_le
  · have hnewer := (h.migrated hr hm hc).inv.newer key
    rw [Tree.chain, ← h.syncId] at hnewer
    exact (pairwise_append.mp hnewer).2.1

lemma Backs.durable_recovered (hs : (d.recovered r dropped).Settled) :
    (d.recovered r dropped).Durable := by
  have hstale := hs.wals
  rw [recovered_eq hs] at hstale ⊢
  exact durable_restarted hstale (fun id es hes => h.syncId ▸ h.syncId_le id es hes) hr.wal

lemma Backs.syncedValue_recovered
    (hm : SstManager.MigratesTo d.syncId d.sstManager.leveled d.nextId r)
    (hs : (d.recovered r dropped).Settled) (key : ℕ) :
    (d.recovered r dropped).tree.syncedValue key = t.syncedValue key := by
  have hc : r.created = [] := hm.created_eq_nil h.levels hr.uniform hs.apart
  have hmem : (t.memChain key).findSome? ValueEx.syncedPart = none := by
    rw [← h.records, records_eq_nil hs]
    rfl
  rw [← h.syncedValue_migrated hm hc key, recovered_eq hs, Tree.syncedValue, Tree.syncedValue,
    Tree.chain, Tree.chain, findSome?_append, findSome?_append, ← h.syncId]
  change _ = ((t.memChain key).findSome? ValueEx.syncedPart).or _
  rw [hmem]
  rfl

end

end Store

namespace Lsm

variable {s s' : Lsm V} {synced latest : ℕ → Option V}

/-- The steps that keep the synced data: a `put` fills the memory table, and a sync is made, only
when nothing is left from before a recovery; a filled memory table does not wait for a compaction of
synced records; and a crash leaves a state that the recovery can restore. -/
def Safe (s : Lsm V) : Event V → Prop
  | .put key value => (s.inner.tree.memtables.put key value).1.isFull = false ∨
      (s.inner.Settled ∧
        (s.inner.compactor = none ∨ ∀ k, s.inner.tree.memtables.immutable.synced k = none))
  | .sync => s.inner.Settled
  | .crash nth => ∀ d, s.crashStates[nth]? = some d → d.Recoverable s.syncIdStore
  | _ => True

/-- The map of the last completed sync, after an event that leads to `s'`. -/
def syncedAfter (synced latest : ℕ → Option V) (s' : Lsm V) : Event V → ℕ → Option V
  | .syncStore => latest
  | .crash _ => s'.inner.visible
  | _ => synced

/-- The map of the latest puts, after an event that leads to `s'`. -/
def latestAfter (latest : ℕ → Option V) (s' : Lsm V) : Event V → ℕ → Option V
  | .put key value => Function.update latest key (some value)
  | .crash _ => s'.inner.visible
  | _ => latest

/-- The states that a run of such steps can reach, with the map of the last completed sync and the
map of the latest puts. -/
inductive Reached : Lsm V → (ℕ → Option V) → (ℕ → Option V) → Prop
  | format (withStore : Bool) : Reached (format withStore) (fun _ => none) fun _ => none
  | step {s s' : Lsm V} {synced latest : ℕ → Option V} {e : Event V} :
      Reached s synced latest → s.Safe e → s.step e = some s' →
      Reached s' (syncedAfter synced latest s' e) (latestAfter latest s' e)

/-- A recovery from the state would restore the last sync, or the one in progress. -/
def Restores (s : Lsm V) (synced latest : ℕ → Option V) (t : Tree V) : Prop :=
  (∀ key, t.syncedValue key = synced key) ∨
    (s.syncing = true ∧ ∀ key, t.syncedValue key = latest key)

/-- The invariant of a run. -/
structure Inv (s : Lsm V) (synced latest : ℕ → Option V) : Prop where
  current : s.inner.store ∈ s.crashStates
  wal : s.inner.WalInv
  syncing : s.syncing = true → s.inner.waiting = none ∧ s.inner.compactor = none
  crash : ∀ d ∈ s.crashStates,
    (∀ level, level ≠ .l0 → (d.sstManager.listLevel level).Pairwise SSTable.Apart) →
    ∃ t, d.Backs t ∧ s.Restores synced latest t
  settled : s.inner.Settled ∨ s.inner.waiting.isSome = true ∨ s.inner.compactor.isSome = true ∨
      s.syncing = true →
    s.inner.Inv latest ∧ s.inner.Durable ∧
      ∀ key, s.inner.tree.syncedValue key = if s.syncing then latest key else synced key

/-- A call that is not refused returns a state that its program guarantees. -/
lemma exists_of_callTree {c : Call V} {Q : Unit → TreeInner V → Prop}
    {E : Error → TreeInner V → Prop} {p : Prog V Unit} (hp : call c = do p; return .done)
    (h : twp p Q E s.inner) (hs : s.callTree c = some s') :
    ∃ inner, Q () inner ∧ s' = { s with inner, crashStates := inner.store :: s.crashStates } := by
  have hcall : twp (call c) (fun _ => Q ()) E s.inner := by
    rw [hp]
    exact h.then fun _ _ hq => hq
  rw [callTree] at hs
  split at hs
  · rename_i r inner hok
    cases hs
    exact ⟨inner, hcall.of_ok hok, rfl⟩
  · cases hs

/-- The tree is consistent after a call: so is what a crash can leave. -/
lemma Inv.afterCall {latest' : ℕ → Option V} (h : s.Inv synced latest) {inner : TreeInner V}
    (hs : s.syncing = false) (hinv : inner.Inv latest') (hdur : inner.Durable) {syncing : Bool}
    (hsyncing : syncing = true → inner.waiting = none ∧ inner.compactor = none)
    (hvalue : ∀ key, inner.tree.syncedValue key = if syncing then latest' key else synced key) :
    ({ s with inner, syncing, crashStates := inner.store :: s.crashStates } : Lsm V).Inv
      synced latest' where
  current := mem_cons_self
  wal := hinv.wal
  syncing := hsyncing
  crash d hd hap := by
    rcases mem_cons.mp hd with rfl | hd
    · refine ⟨inner.tree, hdur.backs hinv.toConsistent, ?_⟩
      cases syncing with
      | true => exact .inr ⟨rfl, hvalue⟩
      | false => exact .inl hvalue
    · obtain ⟨t, ht, hrest⟩ := h.crash d hd hap
      refine ⟨t, ht, .inl ?_⟩
      rcases hrest with hrest | ⟨hsync, -⟩
      · exact hrest
      · rw [hs] at hsync
        cases hsync
  settled _ := ⟨hinv, hdur, hvalue⟩

lemma Inv.not_syncing (h : s.Inv synced latest)
    (hb : s.inner.waiting.isSome = true ∨ s.inner.compactor.isSome = true) :
    s.syncing = false := by
  refine Bool.eq_false_of_not_eq_true fun hs => ?_
  obtain ⟨hw, hc⟩ := h.syncing hs
  rw [hw, hc] at hb
  rcases hb with hb | hb <;> cases hb

lemma inv_format (withStore : Bool) :
    (format withStore : Lsm V).Inv (fun _ => none) fun _ => none := by
  have hdur : (restarted OrderedMap.empty SstManager.new 0 0 [] : TreeInner V).Durable :=
    durable_restarted (fun _ _ hes => by cases hes) (fun _ _ hes => by cases hes) rfl
  refine ⟨mem_cons_self, walInv_format, ?_, ?_, ?_⟩
  · intro h
    cases h
  · intro d hd _
    rw [mem_singleton.mp hd]
    exact ⟨_, hdur.backs TreeInner.inv_format.toConsistent, .inl fun _ => rfl⟩
  · intro _
    exact ⟨TreeInner.inv_format, hdur, fun _ => rfl⟩

section

variable (h : s.Inv synced latest)

include h

/-- A `put` that does not fill the memory table commits nothing, whatever is left from before a
recovery. -/
lemma Inv.put_uncommitted (hs : s.syncing = false)
    (hw : s.inner.waiting = none) (hset : ¬ s.inner.Settled) {inner : TreeInner V}
    (hu : Uncommitted s.inner inner) (latest' : ℕ → Option V) :
    ({ s with inner, crashStates := inner.store :: s.crashStates } : Lsm V).Inv synced latest' where
  current := mem_cons_self
  wal := hu.wal
  syncing hs' := by cases hs.symm.trans hs'
  crash d hd hap := by
    have hd' : d ∈ s.crashStates := by
      rcases mem_cons.mp hd with rfl | hd
      · rw [hu.store]
        exact h.current
      · exact hd
    obtain ⟨t, ht, hrest⟩ := h.crash d hd' hap
    refine ⟨t, ht, hrest.imp_right fun hright => ?_⟩
    cases hs.symm.trans hright.1
  settled hcase := by
    refine absurd ?_ hset
    rcases hcase with hcase | hcase | hcase | hcase
    · exact hu.settled hcase
    · rw [hu.waiting, hw] at hcase
      cases hcase
    · rw [hu.compactor] at hcase
      obtain ⟨hinv, hdur, -⟩ := h.settled (.inr (.inr (.inl hcase)))
      exact hdur.settled hinv
    · cases hs.symm.trans hcase

lemma Inv.put {key : ℕ} {value : V} (hsafe : s.Safe (.put key value))
    (hs : s.step (.put key value) = some s') :
    s'.Inv synced (Function.update latest key (some value)) := by
  obtain ⟨⟨hsync, hw⟩, hs⟩ := ite_none_right_eq_some.mp hs
  by_cases hset : s.inner.Settled
  · obtain ⟨hinv, hdur, hvalue⟩ := h.settled (.inl hset)
    have hfills : s.inner.FillsSafely key value := hsafe.imp_right And.right
    obtain ⟨inner, ⟨hinv', hdur', hkept⟩, rfl⟩ := exists_of_callTree rfl
      ((put_spec hinv hw key value).and (put_durable hinv.wal hdur hw hfills)) hs
    refine h.afterCall hsync hinv' hdur' (fun hs' => ?_) fun k => ?_
    · cases hsync.symm.trans hs'
    · rw [hkept k, hvalue k, hsync]
      rfl
  · have hfull := hsafe.resolve_right fun hright => hset hright.1
    obtain ⟨inner, hu, rfl⟩ := exists_of_callTree rfl
      (TreeInner.put_uncommitted h.wal hw hfull) hs
    exact h.put_uncommitted hsync hw hset hu _

lemma Inv.finishPut (hs : s.step .finishPut = some s') : s'.Inv synced latest := by
  obtain ⟨⟨hw, hc⟩, hs⟩ := ite_none_right_eq_some.mp hs
  have hsync := h.not_syncing (.inl hw)
  obtain ⟨hinv, hdur, hvalue⟩ := h.settled (.inr (.inl hw))
  obtain ⟨inner, ⟨hinv', hdur', hkept⟩, rfl⟩ := exists_of_callTree rfl
    ((finishPut_spec hinv hw hc).and (finishPut_durable hinv hdur hw hc)) hs
  refine h.afterCall hsync hinv' hdur' (fun hs' => ?_) fun k => ?_
  · cases hsync.symm.trans hs'
  · rw [hkept k, hvalue k]

lemma Inv.compact (hs : s.step .compact = some s') : s'.Inv synced latest := by
  obtain ⟨hc, hs⟩ := ite_none_right_eq_some.mp hs
  have hsync := h.not_syncing (.inr hc)
  obtain ⟨hinv, hdur, hvalue⟩ := h.settled (.inr (.inr (.inl hc)))
  have hgood : s.inner.Good latest .compact := by
    rw [callTree] at hs
    split at hs
    · rename_i hok
      exact good_of_compact hinv hok
    · cases hs
  obtain ⟨inner, ⟨hinv', hdur', hkept⟩, rfl⟩ := exists_of_callTree rfl
    ((compact_spec hinv hc hgood).and (compact_durable hinv hdur hc hgood)) hs
  refine h.afterCall hsync hinv' hdur' (fun hs' => ?_) fun k => ?_
  · cases hsync.symm.trans hs'
  · rw [hkept k, hvalue k]

lemma Inv.sync (hset : s.inner.Settled) (hs : s.step .sync = some s') : s'.Inv synced latest := by
  obtain ⟨⟨hsync, hw, hc⟩, hs⟩ := ite_none_right_eq_some.mp hs
  obtain ⟨s₁, hs1, rfl⟩ := map_eq_some_iff.mp hs
  obtain ⟨hinv, hdur, -⟩ := h.settled (.inl hset)
  obtain ⟨inner, ⟨hinv', hdur', hvalue, hidle⟩, rfl⟩ := exists_of_callTree rfl
    ((sync_spec hinv hw hc).and (sync_durable hinv hdur hw hc)) hs1
  exact h.afterCall hsync hinv' hdur' (fun _ => hidle) hvalue

lemma Inv.syncStore (hs : s.step .syncStore = some s') : s'.Inv latest latest := by
  obtain ⟨⟨hsync, -⟩, hs⟩ := ite_none_right_eq_some.mp hs
  cases hs
  obtain ⟨hinv, hdur, hvalue⟩ := h.settled (.inr (.inr (.inr hsync)))
  rw [hsync] at hvalue
  refine ⟨mem_cons_self, h.wal, fun hs' => ?_, fun d hd _ => ?_, fun _ => ?_⟩
  · cases hs'
  · rw [mem_singleton.mp hd]
    exact ⟨s.inner.tree, hdur.backs hinv.toConsistent, .inl hvalue⟩
  · exact ⟨hinv, hdur, hvalue⟩

/-- A recovery shows the last sync, or the one in progress. -/
lemma Inv.exists_crash {nth : ℕ} {d : Store V} (hd : s.crashStates[nth]? = some d)
    (hr : d.Recoverable s.syncIdStore) : ∃ t r dropped, d.Backs t ∧ s.Restores synced latest t ∧
      SstManager.MigratesTo d.syncId d.sstManager.leveled d.nextId r ∧
      s.step (.crash nth) = some { s with
        inner := d.recovered r dropped
        syncing := false
        crashStates := [(d.recovered r dropped).store, d] } := by
  obtain ⟨t, ht, hrest⟩ := h.crash d (mem_of_getElem? hd) hr.apart
  obtain ⟨r, dropped, hm, hrecover⟩ := hr.recover_eq
  refine ⟨t, r, dropped, ht, hrest, hm, ?_⟩
  rw [step, hd, bind_some, hrecover]
  rfl

lemma Inv.crashed {nth : ℕ} (hsafe : s.Safe (.crash nth))
    (hs : s.step (.crash nth) = some s') : s'.Inv s'.inner.visible s'.inner.visible := by
  obtain ⟨d, hd, -⟩ := bind_eq_some_iff.mp hs
  have hr := hsafe d hd
  obtain ⟨t, r, dropped, ht, -, hm, hstep⟩ := h.exists_crash hd hr
  cases hs.symm.trans hstep
  have hvisible := ht.visible_recovered hr hm dropped
  refine ⟨mem_cons_self, Store.walInv_recovered hm dropped,
    fun hs' => (by cases hs'), fun d' hd' hap => ?_, fun hcase => ?_⟩
  · rcases mem_cons.mp hd' with rfl | hd'
    · -- the recovery has been committed
      have hc : r.created = [] := hm.created_eq_nil ht.levels hr.uniform hap
      refine ⟨_, ht.migrated hr hm hc, .inl fun key => ?_⟩
      rw [ht.syncedValue_migrated hm hc]
      exact (hvisible key).symm
    · rw [mem_singleton.mp hd']
      exact ⟨t, ht, .inl fun key => (hvisible key).symm⟩
  · rcases hcase with hcase | hcase | hcase | hcase
    · refine ⟨ht.inv_recovered hr hm hcase, ht.durable_recovered hr hcase, fun key => ?_⟩
      rw [ht.syncedValue_recovered hr hm hcase]
      exact (hvisible key).symm
    all_goals cases hcase

end

lemma Reached.inv (h : s.Reached synced latest) : s.Inv synced latest := by
  induction h with
  | format withStore => exact inv_format withStore
  | @step s s' synced latest e _ hsafe hs ih =>
    cases e with
    | put key value => exact ih.put hsafe hs
    | finishPut => exact ih.finishPut hs
    | sync => exact ih.sync hsafe hs
    | writeSyncId =>
      obtain ⟨-, hs⟩ := ite_none_right_eq_some.mp hs
      cases hs
      exact { ih with }
    | syncStore => exact ih.syncStore hs
    | compact => exact ih.compact hs
    | crash nth => exact ih.crashed hsafe hs

/-- After a run of safe steps, a recovery from any state that a crash can leave, if it can be
restored, shows the map of the last completed sync, or of the sync in progress. -/
theorem recovery_restores_synced (h : s.Reached synced latest) (nth : ℕ)
    (hnth : nth < s.crashStates.length) (hsafe : s.Safe (.crash nth)) :
    ∃ s', s.step (.crash nth) = some s' ∧
      ((∀ key, s'.inner.visible key = synced key) ∨
        (s.syncing = true ∧ ∀ key, s'.inner.visible key = latest key)) := by
  have hd := getElem?_eq_getElem hnth
  have hr := hsafe _ hd
  obtain ⟨t, r, dropped, ht, hrest, hm, hstep⟩ := h.inv.exists_crash hd hr
  have hvisible := ht.visible_recovered hr hm dropped
  refine ⟨_, hstep, hrest.imp (fun hleft key => ?_) fun hright => ⟨hright.1, fun key => ?_⟩⟩
  · exact (hvisible key).trans (hleft key)
  · exact (hvisible key).trans (hright.2 key)

/-- A tree without sorted tables whose last log has the last sync ID can be recovered. -/
lemma recoverable_of_no_tables {d : Store V}
    (hnil : ∀ level, d.sstManager.listLevel level = []) : d.Recoverable none := by
  have htables : d.sstManager.tables = [] := flatMap_eq_nil_iff.mpr fun level _ => hnil level
  refine ⟨fun level sst hs => ?_, fun level _ => ?_, ?_, fun id hid => by cases hid⟩
  · rw [hnil] at hs
    cases hs
  · rw [hnil]
    exact List.Pairwise.nil
  · rw [Store.syncId, SstManager.maxSyncId, htables]
    exact (Nat.max_zero _).symm

/-- A put after the sync and one after the first recovery are lost, and what was synced is found
after both recoveries. -/
theorem recovery_restores_synced_after_two :
    ∃ s s' : Lsm ℕ, [.put 1 7, .sync, .syncStore, .put 2 8, .crash 0, .put 3 9].foldlM step
        (format false) = some s ∧
      s.inner.visible 3 = some 9 ∧ s.step (.crash 0) = some s' ∧ s'.inner.visible 1 = some 7 ∧
      s'.inner.visible 2 = none ∧ s'.inner.visible 3 = none := by
  have hput := (Reached.format (V := ℕ) false).step (e := .put 1 7) (.inl rfl) rfl
  have hsync := hput.step (e := .sync)
    ⟨fun level _ => by cases level <;> exact List.Pairwise.nil, fun _ _ hes => by cases hes⟩ rfl
  have hstore := hsync.step (e := .syncStore) trivial rfl
  have hput' := hstore.step (e := .put 2 8) (.inl rfl) rfl
  have hcrash := hput'.step (e := .crash 0) (by
    rintro d ⟨⟩
    exact recoverable_of_no_tables fun level => by cases level <;> rfl) rfl
  have hput'' := hcrash.step (e := .put 3 9) (.inl rfl) rfl
  obtain ⟨s', hs', hvisible⟩ := recovery_restores_synced hput'' 0 (Nat.zero_lt_succ _) (by
    rintro d ⟨⟩
    exact recoverable_of_no_tables fun level => by cases level <;> rfl)
  rcases hvisible with hvisible | ⟨hsyncing, -⟩
  · exact ⟨_, s', rfl, rfl, hs', hvisible 1, hvisible 2, hvisible 3⟩
  · cases hsyncing

/-- A recovery reads the newest log only: what was restored from an older one is lost, although it
has been synced twice. -/
theorem recovery_loses_synced : ∃ s s' : Lsm ℕ,
    [.put 1 7, .sync, .syncStore, .crash 0, .put 2 8, .sync, .syncStore].foldlM step
      (format false) = some s ∧
    s.inner.visible 1 = some 7 ∧ s.syncing = false ∧
    s.step (.crash 0) = some s' ∧ s'.inner.visible 1 = none :=
  ⟨_, _, rfl, rfl, rfl, rfl, rfl⟩

end Lsm

end Asterinas.Mlsdisk
