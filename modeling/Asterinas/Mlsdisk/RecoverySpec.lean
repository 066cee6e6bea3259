import Asterinas.Mlsdisk.Recovery

/-!
# What a recovery restores

A committed state that stands behind a tree holds the synced values of the tree: those of the memory
tables in the write-ahead log with the largest ID, the others in the sorted tables.  The recovery
restores them if every sorted table of the last sync ID has only synced or only unsynced records.
-/

namespace Asterinas.Mlsdisk

open Framework OrderedMap SSTable List SstManager ValueEx

variable {V : Type}

/-! ### Write-ahead logs -/

/-- The records among the entries. -/
def recordsOf (entries : List (WalEntry V)) : List (ℕ × V) :=
  entries.filterMap fun
    | .record key value => some (key, value)
    | .sync _ => none

lemma scanOf_append (entries : List (WalEntry V)) (e : WalEntry V) :
    scanOf (entries ++ [e]) = (scanOf entries).entry e := by
  rw [scanOf, foldl_append]
  rfl

lemma recordsOf_append (es es' : List (WalEntry V)) :
    recordsOf (es ++ es') = recordsOf es ++ recordsOf es' :=
  filterMap_append

section

variable (entries : List (WalEntry V))

lemma scanOf_records : (scanOf entries).records = recordsOf entries := by
  induction entries using reverseRecOn with
  | nil => rfl
  | append_singleton es e ih =>
    rw [scanOf_append, recordsOf_append, ← ih]
    cases e with
    | record key value => rfl
    | sync id => exact (append_nil _).symm

lemma scanOf_syncedLen_le : (scanOf entries).syncedLen ≤ (scanOf entries).records.length := by
  induction entries using reverseRecOn with
  | nil => exact le_refl _
  | append_singleton es e ih =>
    rw [scanOf_append]
    cases e with
    | record key value =>
      refine ih.trans ?_
      simp [WalScan.entry]
    | sync id => exact le_refl _

/-- A record after the last sync ID does not count. -/
lemma collect_append_record (key : ℕ) (value : V) :
    collectSyncedRecordsAndSyncId (entries ++ [.record key value]) =
      collectSyncedRecordsAndSyncId entries := by
  have htake : ((scanOf entries).records ++ [(key, value)]).take (scanOf entries).syncedLen =
      (scanOf entries).records.take (scanOf entries).syncedLen :=
    take_append_of_le_length (scanOf_syncedLen_le entries)
  rw [collectSyncedRecordsAndSyncId, collectSyncedRecordsAndSyncId, scanOf_append, WalScan.entry]
  cases (scanOf entries).maxSyncId with
  | none => rfl
  | some id => exact congrArg (·, id) htake

/-- A sync ID makes all records before it count. -/
lemma collect_append_sync (id : ℕ) :
    collectSyncedRecordsAndSyncId (entries ++ [.sync id]) = (recordsOf entries, id) := by
  rw [collectSyncedRecordsAndSyncId, scanOf_append, ← scanOf_records]
  exact congrArg (·, id) take_length

end

/-- The last write of a key. -/
def lastWrite (records : List (ℕ × V)) (key : ℕ) : Option V := records.reverse.lookup key

lemma lastWrite_append (records : List (ℕ × V)) (k : ℕ) (v : V) (key : ℕ) :
    lastWrite (records ++ [(k, v)]) key = if key = k then some v else lastWrite records key := by
  rw [lastWrite, reverse_append, reverse_singleton, singleton_append, lookup_cons]
  split
  · rename_i h
    rw [if_pos (by simpa using h)]
  · rename_i h
    rw [if_neg (by simpa using h)]
    rfl

/-- The log that is read is the one with the largest ID. -/
lemma recoverFromWal_of_max {wals : Wals V} {id : ℕ} {entries : List (WalEntry V)}
    (h : wals.get? id = some entries) (hmax : ∀ w, (wals.get? w).isSome = true → w ≤ id) :
    recoverFromWal wals = collectSyncedRecordsAndSyncId entries := by
  have hmem := get?_eq_some.mp h
  obtain ⟨init, last, hinit⟩ := eq_nil_or_concat wals.entries |>.resolve_left (ne_nil_of_mem hmem)
  have hlast : last = (id, entries) := by
    have hmem' : last ∈ wals.entries := by
      rw [hinit, concat_eq_append]
      simp
    refine eq_of_mem_of_key_eq hmem' hmem (le_antisymm ?_ ?_)
    · exact hmax last.1 (by rw [get?_eq_some.mpr hmem']; rfl)
    · have hsorted := wals.sorted
      rw [hinit, concat_eq_append, pairwise_append] at hsorted
      rw [hinit, concat_eq_append] at hmem
      rcases mem_append.mp hmem with hin | hin
      · exact (hsorted.2.2 _ hin last mem_cons_self).le
      · rw [mem_singleton.mp hin]
  rw [recoverFromWal, hinit, concat_eq_append, getLast?_concat, hlast]

/-- With no log there is nothing to read; otherwise some log is read. -/
lemma recoverFromWal_cases (wals : Wals V) :
    recoverFromWal wals = ([], 0) ∨ ∃ id entries, wals.get? id = some entries ∧
      recoverFromWal wals = collectSyncedRecordsAndSyncId entries := by
  rw [recoverFromWal]
  cases h : wals.entries.getLast? with
  | none => exact .inl rfl
  | some e =>
    refine .inr ⟨e.1, e.2, get?_eq_some.mpr (mem_of_getLast? h), rfl⟩

/-! ### The memory tables -/

section

variable (syncId : ℕ) (records : List (ℕ × V))

lemma recoverMemtableManager_append (k : ℕ) (v : V) :
    (recoverMemtableManager syncId (records ++ [(k, v)])).1 =
      ((recoverMemtableManager syncId records).1.put k v).1 := by
  rw [recoverMemtableManager, foldl_append]
  rfl

/-- The recovered memory tables hold the last write of every key. -/
lemma get_recoverMemtableManager (key : ℕ) :
    (recoverMemtableManager syncId records).1.get key = lastWrite records key := by
  have himm : (recoverMemtableManager syncId records).1.immutable.get key = none := by
    induction records using reverseRecOn with
    | nil => rfl
    | append_singleton rs r ih =>
      rw [recoverMemtableManager_append]
      exact ih
  have hmut : (recoverMemtableManager syncId records).1.mutable.get key =
      lastWrite records key := by
    induction records using reverseRecOn with
    | nil => rfl
    | append_singleton rs r ih =>
      rw [recoverMemtableManager_append] at himm ⊢
      rw [lastWrite_append, ← ih himm]
      exact Tree.get_put _ _ _ _
  rw [MemTableManager.get, himm, hmut, Option.or_none]

end

/-! ### The migration -/

namespace SSTable

/-- No record of the table has a synced version. -/
def AllUnsynced (t : SSTable V) : Prop := ∀ r ∈ t.records, ∃ v, r.2 = .unsynced v

/-- No record of the table has an unsynced version. -/
def AllSynced (t : SSTable V) : Prop := ∀ r ∈ t.records, ∃ v, r.2 = .synced v

variable {t : SSTable V}

lemma AllUnsynced.not_allSynced (h : t.AllUnsynced) : ¬ t.AllSynced := by
  intro hs
  obtain ⟨r, hr⟩ := exists_mem_of_ne_nil _ t.records_ne_nil
  obtain ⟨v, hv⟩ := h r hr
  obtain ⟨w, hw⟩ := hs r hr
  rw [hv] at hw
  cases hw

lemma scanRecords_unsynced {rs : List (Record V)} (h : ∀ r ∈ rs, ∃ v, r.2 = .unsynced v) :
    (scanRecords false true rs).1 = [] := by
  refine filterMap_eq_nil_iff.mpr fun r hr => ?_
  obtain ⟨k, w⟩ := r
  obtain ⟨v, rfl⟩ := h _ hr
  rfl

lemma scanRecords_synced {rs : List (Record V)} (h : ∀ r ∈ rs, ∃ v, r.2 = .synced v) :
    (scanRecords false true rs).1 = rs := by
  have hrec : ∀ r ∈ rs, (scanRecord false true r).1 = some r := by
    rintro ⟨k, w⟩ hr
    obtain ⟨v, rfl⟩ := h _ hr
    rfl
  rw [scanRecords, filterMap_congr hrec]
  exact filterMap_some

lemma iter_syncId (t : SSTable V) : (t.iter t.syncId true).1 =
    (scanRecords false true (t.blocks.head t.nonempty).records).1 ++
      (scanBlocks false true t.blocks.tail).1 := by
  rw [iter, decide_eq_false (lt_irrefl _)]

/-- A table with unsynced records only is not copied. -/
lemma iter_of_allUnsynced (h : t.AllUnsynced) : (t.iter t.syncId true).1 = [] := by
  have hblock : ∀ b ∈ t.blocks, (scanRecords false true b.records).1 = [] := fun b hb =>
    scanRecords_unsynced fun r hr => h r (mem_flatMap.mpr ⟨b, hb, hr⟩)
  rw [iter_syncId, hblock _ (head_mem _), nil_append]
  cases htail : t.blocks.tail with
  | nil => rfl
  | cons b rest => simp [scanBlocks, hblock b (mem_of_mem_tail (htail ▸ mem_cons_self))]

/-- A table with synced records only is copied as it is. -/
lemma iter_of_allSynced (h : t.AllSynced) :
    (t.iter t.syncId true).1 = t.records := by
  have hblock : ∀ b ∈ t.blocks, (scanRecords false true b.records).1 = b.records := fun b hb =>
    scanRecords_synced fun r hr => h r (mem_flatMap.mpr ⟨b, hb, hr⟩)
  have hrest : ∀ blocks : List (RecordBlock V),
      (∀ b ∈ blocks, (scanRecords false true b.records).1 = b.records) →
      (scanBlocks false true blocks).1 = blocks.flatMap RecordBlock.records := by
    intro blocks hb
    induction blocks with
    | nil => rfl
    | cons b rest ih =>
      obtain ⟨hb, hrest⟩ := forall_mem_cons.mp hb
      have hne : b.records.isEmpty = false := by simpa using b.nonempty
      simp [scanBlocks, hb, hne, ih hrest]
  rw [iter_syncId, hblock _ (head_mem _), hrest _ fun b hb => hblock b (mem_of_mem_tail hb),
    ← flatMap_cons, cons_head_tail, records]

end SSTable

namespace SstManager

/-- What the loop of the migration does when the tables of the sync ID are synced or unsynced
throughout: it deletes the unsynced ones and copies the synced ones. -/
structure MigratesTo (masterSyncId : ℕ) (ssts : List (SSTable V × LsmLevel)) (nextId : ℕ)
    (r : Migrated V) : Prop where
  deleted : ∀ e, e ∈ r.deleted ↔
    ∃ sst, (sst, e.2) ∈ ssts ∧ sst.id = e.1 ∧ sst.syncId = masterSyncId ∧ sst.AllUnsynced
  created : ∀ c ∈ r.created, ∃ sst, (sst, c.2) ∈ ssts ∧ sst.syncId = masterSyncId ∧
    sst.AllSynced ∧ c.1.records = sst.records
  created_id : ∀ c ∈ r.created, nextId ≤ c.1.id
  nodup : (r.created.map (·.1.id)).Nodup
  nextId_le : nextId ≤ r.nextId

lemma layoutFits_allSynced {t : SSTable V} (h : t.AllSynced) :
    layoutFits 0 (t.records.map (·.2.isTwo)) = true := by
  refine layoutFits_of_single (by decide) fun two htwo => ?_
  obtain ⟨r, hr, rfl⟩ := mem_map.mp htwo
  obtain ⟨v, hv⟩ := h r hr
  rw [hv]
  rfl

lemma migrateSsts_spec (masterSyncId : ℕ) (ssts : List (SSTable V × LsmLevel)) (nextId : ℕ)
    (h : ∀ e ∈ ssts, e.1.syncId = masterSyncId → e.1.AllUnsynced ∨ e.1.AllSynced) :
    ∃ r, migrateSsts masterSyncId ssts nextId = some r ∧ MigratesTo masterSyncId ssts nextId r := by
  induction ssts generalizing nextId with
  | nil => exact ⟨_, rfl, by simp, by simp, by simp, by simp, le_refl _⟩
  | cons e rest ih =>
    obtain ⟨sst, level⟩ := e
    obtain ⟨he, hrest⟩ := forall_mem_cons.mp h
    have hdeleted : ∀ e : ℕ × LsmLevel, (∃ t, (t, e.2) ∈ (sst, level) :: rest ∧ t.id = e.1 ∧
        t.syncId = masterSyncId ∧ t.AllUnsynced) ↔
        (e = (sst.id, level) ∧ sst.syncId = masterSyncId ∧ sst.AllUnsynced) ∨
          ∃ t, (t, e.2) ∈ rest ∧ t.id = e.1 ∧ t.syncId = masterSyncId ∧ t.AllUnsynced := by
      rintro ⟨id, l⟩
      simp only [mem_cons, or_and_right, exists_or, Prod.mk.injEq, and_assoc, exists_eq_left]
      tauto
    rw [migrateSsts]
    by_cases hid : sst.syncId = masterSyncId
    · rw [if_pos hid]
      rcases he hid with hun | hsy
      · -- nothing is left of the table
        obtain ⟨r, hr, hm⟩ := ih nextId hrest
        have hnil : (sst.iter masterSyncId true).1 = [] := hid ▸ iter_of_allUnsynced hun
        refine ⟨⟨r.created, (sst.id, level) :: r.deleted, r.nextId,
          (sst.iter masterSyncId true).2 ++ r.dropped⟩, by simp [hnil, hr],
          fun e' => ?_, fun c hc => ?_, hm.created_id, hm.nodup, hm.nextId_le⟩
        · rw [hdeleted, ← hm.deleted]
          simp [hid, hun]
        · obtain ⟨t, ht, hrest⟩ := hm.created c hc
          exact ⟨t, mem_cons_of_mem _ ht, hrest⟩
      · obtain ⟨r, hr, hm⟩ := ih (nextId + 1) hrest
        have hall : (sst.iter masterSyncId true).1 = sst.records :=
          hid ▸ iter_of_allSynced hsy
        have hne : sst.records.isEmpty = false := by simpa using sst.records_ne_nil
        obtain ⟨copy, hcopy⟩ := Option.isSome_iff_exists.mp
          ((build_isSome sst.records_ne_nil masterSyncId nextId).trans (layoutFits_allSynced hsy))
        obtain ⟨hcid, -, hrecords⟩ := build_spec hcopy
        refine ⟨⟨(copy, level) :: r.created, r.deleted, r.nextId,
          (sst.iter masterSyncId true).2 ++ r.dropped⟩, by simp [hall, hne, hcopy, hr],
          fun e' => ?_, fun c hc => ?_, ?_, ?_, (Nat.le_succ _).trans hm.nextId_le⟩
        · rw [hdeleted, ← hm.deleted]
          simp [show ¬ sst.AllUnsynced from fun hun => hun.not_allSynced hsy]
        · rcases mem_cons.mp hc with rfl | hc
          · exact ⟨sst, mem_cons_self, hid, hsy, hrecords⟩
          · obtain ⟨t, ht, hrest⟩ := hm.created c hc
            exact ⟨t, mem_cons_of_mem _ ht, hrest⟩
        · intro c hc
          rcases mem_cons.mp hc with rfl | hc
          · exact hcid.ge
          · exact (Nat.le_succ _).trans (hm.created_id c hc)
        · refine nodup_cons.mpr ⟨fun hmem => ?_, hm.nodup⟩
          obtain ⟨c, hc, heq⟩ := mem_map.mp hmem
          have hle := hm.created_id c hc
          have hcid' : c.1.id = nextId := heq.trans hcid
          omega
    · rw [if_neg hid]
      obtain ⟨r, hr, hm⟩ := ih nextId hrest
      refine ⟨r, hr, fun e' => ?_, fun c hc => ?_, hm.created_id, hm.nodup, hm.nextId_le⟩
      · rw [hdeleted, ← hm.deleted]
        simp [hid]
      · obtain ⟨t, ht, hrest⟩ := hm.created c hc
        exact ⟨t, mem_cons_of_mem _ ht, hrest⟩

variable {sst : SSTable V} {level : LsmLevel}

lemma mem_leveled {m : SstManager V} : (sst, level) ∈ m.leveled ↔ sst ∈ m.listLevel level := by
  rw [leveled, mem_flatMap]
  constructor
  · rintro ⟨l, -, hmem⟩
    obtain ⟨t, ht, heq⟩ := mem_map.mp hmem
    cases heq
    exact ht
  · intro hmem
    exact ⟨level, LsmLevel.mem_all level, mem_map_of_mem hmem⟩

variable {m : SstManager V} {masterSyncId nextId : ℕ} {r : Migrated V}

/-- The synced value of a key in a level, table by table. -/
lemma findSome?_levelChain (level : LsmLevel) (key : ℕ) :
    (m.levelChain masterSyncId level key).findSome? syncedPart =
      (m.listLevel level).findSome? fun sst =>
        (sst.view masterSyncId key).bind syncedPart := by
  rw [levelChain, findSome?_filterMap]

lemma syncedPart_view_of_lt (hasc : Ascending sst.records)
    (hlt : sst.syncId < masterSyncId) (key : ℕ) :
    (sst.view masterSyncId key).bind syncedPart = sst.search key := by
  rw [search_eq hasc masterSyncId, view, decide_eq_true hlt]
  cases sst.records.lookup key with
  | none | some v => rfl

lemma syncedPart_view_of_allUnsynced (hid : sst.syncId = masterSyncId)
    (hun : sst.AllUnsynced) (key : ℕ) :
    (sst.view masterSyncId key).bind syncedPart = none := by
  rw [view_of_syncId_eq hid]
  cases hl : sst.records.lookup key with
  | none => rfl
  | some v =>
    obtain ⟨w, hw⟩ := hun _ (mem_of_lookup_eq_some hl)
    cases hw
    rfl

lemma syncedPart_view_of_allSynced (hasc : Ascending sst.records)
    (hid : sst.syncId = masterSyncId) (hsy : sst.AllSynced) (key : ℕ) :
    (sst.view masterSyncId key).bind syncedPart = sst.search key := by
  rw [search_eq_lookup hasc, view_of_syncId_eq hid]
  cases hl : sst.records.lookup key with
  | none => rfl
  | some v =>
    obtain ⟨w, hw⟩ := hsy _ (mem_of_lookup_eq_some hl)
    cases hw
    rfl

/-- Tables of one sync ID are synced or unsynced throughout, in the first level unsynced. -/
def Uniform (m : SstManager V) (syncId : ℕ) : Prop :=
  ∀ level, ∀ sst ∈ m.listLevel level, sst.syncId = syncId →
    sst.AllUnsynced ∨ (level ≠ .l0 ∧ sst.AllSynced)

/-- What a table that stays says about a key is synced. -/
lemma Uniform.syncedPart_view (hu : m.Uniform masterSyncId) (h : m.Inv masterSyncId nextId)
    (hs : sst ∈ m.listLevel level)
    (hnot : ¬ (sst.syncId = masterSyncId ∧ sst.AllUnsynced)) (key : ℕ) :
    (sst.view masterSyncId key).bind syncedPart = sst.search key := by
  have hasc := h.ascending level sst hs
  rcases (h.syncId_le level sst hs).lt_or_eq with hlt | heq
  · exact syncedPart_view_of_lt hasc hlt key
  · rcases hu level sst hs heq with hun | ⟨-, hsy⟩
    · exact absurd ⟨heq, hun⟩ hnot
    · exact syncedPart_view_of_allSynced hasc heq hsy key

/-- Without copies the tables that stay keep their order. -/
lemma listLevel_of_no_copies (h : m.Inv masterSyncId nextId)
    (hnone : r.created.filter (·.2 = level) = []) :
    (m.updateSstManager r.created r.deleted).listLevel level =
      (m.listLevel level).filter fun sst => (sst.id, level) ∉ r.deleted := by
  rw [listLevel, listLevel, updateSstManager, levelSsts_foldl_remove, levelSsts_foldl_insert,
    hnone, filter_reverse, values, entries_foldl_erase,
    values, filter_map]
  congr 2
  refine filter_congr fun e he => ?_
  simp [h.id_eq level e he]

lemma sublist_of_no_copies (h : m.Inv masterSyncId nextId) (hc : r.created = [])
    (level : LsmLevel) :
    ((m.updateSstManager r.created r.deleted).listLevel level).Sublist (m.listLevel level) := by
  rw [listLevel_of_no_copies h (by rw [hc]; rfl)]
  exact filter_sublist

namespace MigratesTo

variable (hr : MigratesTo masterSyncId m.leveled nextId r) (h : m.Inv masterSyncId nextId)

include hr h

/-- The entries of a level after the migration. -/
lemma entries_perm (level : LsmLevel) :
    (m.updateSstManager r.created r.deleted |>.levelSsts level).entries.Perm
      ((((r.created.filter (·.2 = level)).map fun c => (c.1.id, c.1)) ++
        (m.levelSsts level).entries).filter
          (·.1 ∉ (r.deleted.filter (·.2 = level)).map Prod.fst)) := by
  rw [updateSstManager, levelSsts_foldl_remove, entries_foldl_erase, levelSsts_foldl_insert]
  refine (entries_foldl_insert_perm ?_ ?_).filter _
  · rw [map_map]
    exact hr.nodup.sublist (filter_sublist.map _)
  · intro e he hmem
    obtain ⟨x, hx, heq⟩ := mem_map.mp hmem
    obtain ⟨c, hc, rfl⟩ := mem_map.mp hx
    have hle := hr.created_id c (mem_filter.mp hc).1
    have hlt := h.id_lt level e.2 (mem_listLevel.mpr ⟨e.1, he⟩)
    rw [← h.id_eq level e he, ← heq] at hlt
    exact absurd hlt (not_lt.mpr hle)

/-- The tables of a level after the migration: the copies, and the tables that were not deleted. -/
lemma mem_listLevel_iff {t : SSTable V} :
    t ∈ (m.updateSstManager r.created r.deleted).listLevel level ↔
      (t, level) ∈ r.created ∨
        (t ∈ m.listLevel level ∧ ¬ (t.syncId = masterSyncId ∧ t.AllUnsynced)) := by
  have hdel : ∀ id, id ∈ (r.deleted.filter (·.2 = level)).map Prod.fst ↔
      ∃ sst ∈ m.listLevel level, sst.id = id ∧ sst.syncId = masterSyncId ∧ sst.AllUnsynced := by
    intro id
    simp only [mem_map, mem_filter, decide_eq_true_eq]
    constructor
    · rintro ⟨⟨id', l⟩, ⟨hd, rfl⟩, rfl⟩
      obtain ⟨sst, hs, hrest⟩ := (hr.deleted _).mp hd
      exact ⟨sst, mem_leveled.mp hs, hrest⟩
    · rintro ⟨sst, hs, hrest⟩
      exact ⟨(id, level), ⟨(hr.deleted _).mpr ⟨sst, mem_leveled.mpr hs, hrest⟩, rfl⟩, rfl⟩
  rw [mem_listLevel]
  simp only [(hr.entries_perm h level).mem_iff, mem_filter, mem_append, decide_eq_true_eq, hdel]
  constructor
  · rintro ⟨id, hmem | hmem, hnot⟩
    · obtain ⟨⟨c, l⟩, hc, heq⟩ := mem_map.mp hmem
      obtain ⟨hc', hl⟩ := mem_filter.mp hc
      cases heq
      cases of_decide_eq_true hl
      exact .inl hc'
    · have hid := h.id_eq level _ hmem
      have ht := mem_listLevel.mpr ⟨id, hmem⟩
      exact .inr ⟨ht, fun hun => hnot ⟨t, ht, hid.symm, hun⟩⟩
  · rintro (hc | ⟨ht, hnot⟩)
    · refine ⟨t.id, .inl (mem_map.mpr ⟨(t, level), ?_, rfl⟩), ?_⟩
      · exact mem_filter.mpr ⟨hc, decide_eq_true rfl⟩
      · rintro ⟨sst, hs, heq, -⟩
        have hle := hr.created_id _ hc
        have hlt := h.id_lt level sst hs
        rw [heq] at hlt
        exact absurd hlt (not_lt.mpr hle)
    · refine ⟨t.id, .inr (h.mem_entries ht), ?_⟩
      rintro ⟨sst, hs, heq, hun⟩
      cases h.eq_of_id_eq hs ht heq
      exact hnot hun

/-- A table of the level is deleted if it has nothing but unsynced records. -/
lemma mem_deleted_iff (hs : sst ∈ m.listLevel level) :
    (sst.id, level) ∈ r.deleted ↔ sst.syncId = masterSyncId ∧ sst.AllUnsynced := by
  rw [hr.deleted]
  constructor
  · rintro ⟨t, ht, heq, hun⟩
    cases h.eq_of_id_eq (mem_leveled.mp ht) hs heq
    exact hun
  · intro hun
    exact ⟨sst, mem_leveled.mpr hs, rfl, hun⟩

/-- The tables that go have no synced value. -/
lemma findSome?_levelChain_eq (hnone : r.created.filter (·.2 = level) = []) (key : ℕ) :
    ((m.updateSstManager r.created r.deleted).levelChain masterSyncId level key).findSome?
        syncedPart =
      (m.levelChain masterSyncId level key).findSome? syncedPart := by
  rw [findSome?_levelChain, findSome?_levelChain, listLevel_of_no_copies h hnone,
    ← head?_filterMap, filterMap_filter, head?_filterMap]
  refine findSome?_congr fun sst hs => ?_
  by_cases hdel : sst.syncId = masterSyncId ∧ sst.AllUnsynced
  · rw [syncedPart_view_of_allUnsynced hdel.1 hdel.2]
    simp
  · simp [mt (hr.mem_deleted_iff h hs).mp hdel]

section

variable (hu : m.Uniform masterSyncId)

include hu

omit h in
lemma created_ne_l0 {c : SSTable V × LsmLevel} (hc : c ∈ r.created) : c.2 ≠ .l0 := by
  obtain ⟨sst, hs, hid, hsy, -⟩ := hr.created c hc
  rcases hu c.2 sst (mem_leveled.mp hs) hid with hun | ⟨hne, -⟩
  · exact absurd hsy hun.not_allSynced
  · exact hne

lemma search_l0 (key : ℕ) :
    ((m.updateSstManager r.created r.deleted).listLevel .l0).findSome? (·.search key) =
      (m.levelChain masterSyncId .l0 key).findSome? syncedPart := by
  have hnone : r.created.filter (·.2 = .l0) = [] :=
    filter_eq_nil_iff.mpr fun c hc heq => hr.created_ne_l0 hu hc (of_decide_eq_true heq)
  rw [← hr.findSome?_levelChain_eq h hnone, findSome?_levelChain]
  refine findSome?_congr fun sst hs => ?_
  rcases (hr.mem_listLevel_iff h).mp hs with hc | ⟨hs, hdel⟩
  · exact absurd (mem_filter.mpr ⟨hc, decide_eq_true rfl⟩) (hnone ▸ not_mem_nil)
  · exact (hu.syncedPart_view h hs hdel key).symm

/-- In the other levels at most one table has a key, and a copy says the same as its original. -/
lemma search_apart (hl : level ≠ .l0) (key : ℕ) :
    ((m.updateSstManager r.created r.deleted).listLevel level).findSome? (·.search key) =
      (m.levelChain masterSyncId level key).findSome? syncedPart := by
  have hsearch : ∀ sst ∈ m.listLevel level, sst.view masterSyncId key = none →
      sst.search key = none := by
    intro sst hs hv
    rw [search_eq (h.ascending level sst hs) masterSyncId, hv]
    rfl
  have hfrom : ∀ t ∈ (m.updateSstManager r.created r.deleted).listLevel level,
      ∃ t' ∈ m.listLevel level, ¬ (t'.syncId = masterSyncId ∧ t'.AllUnsynced) ∧
        t.search key = t'.search key := by
    intro t ht
    rcases (hr.mem_listLevel_iff h).mp ht with hc | ⟨ht, hnot⟩
    · obtain ⟨sst, hs, -, hsy, hrec⟩ := hr.created _ hc
      have hs' := mem_leveled.mp hs
      have hasc := h.ascending level sst hs'
      refine ⟨sst, hs', fun hun => hun.2.not_allSynced hsy, ?_⟩
      rw [search_eq_lookup (hrec ▸ hasc), search_eq_lookup hasc, hrec]
    · exact ⟨t, ht, hnot, rfl⟩
  rw [findSome?_levelChain]
  by_cases hex : ∃ sst ∈ m.listLevel level, sst.view masterSyncId key ≠ none
  · obtain ⟨sst, hs, hv⟩ := hex
    have hother : ∀ t ∈ m.listLevel level, t = sst ∨ t.view masterSyncId key = none := by
      intro t ht
      refine or_iff_not_imp_left.mpr fun hne => ?_
      have hap := (h.apart level hl).forall hs ht (Ne.symm hne)
      exact hap.view_eq_none (h.ascending level sst hs) (h.ascending level t ht) hv
    have hall : (m.listLevel level).findSome? (fun sst =>
        (sst.view masterSyncId key).bind syncedPart) =
        (sst.view masterSyncId key).bind syncedPart := by
      refine findSome?_eq_of_forall (fun t ht => ?_) (.inr ⟨sst, hs, rfl⟩)
      rcases hother t ht with rfl | hnone
      · exact .inr rfl
      · exact .inl (by rw [hnone]; rfl)
    rw [hall]
    by_cases hdel : sst.syncId = masterSyncId ∧ sst.AllUnsynced
    · rw [syncedPart_view_of_allUnsynced hdel.1 hdel.2]
      refine findSome?_eq_none_iff.mpr fun t ht => ?_
      obtain ⟨t', ht', hnot, heq⟩ := hfrom t ht
      rw [heq]
      rcases hother t' ht' with rfl | hnone
      · exact absurd hdel hnot
      · exact hsearch t' ht' hnone
    · rw [hu.syncedPart_view h hs hdel]
      refine findSome?_eq_of_forall (fun t ht => ?_)
        (.inr ⟨sst, (hr.mem_listLevel_iff h).mpr (.inr ⟨hs, hdel⟩), rfl⟩)
      obtain ⟨t', ht', -, heq⟩ := hfrom t ht
      rw [heq]
      rcases hother t' ht' with rfl | hnone
      · exact .inr rfl
      · exact .inl (hsearch t' ht' hnone)
  · have hnone : ∀ sst ∈ m.listLevel level, sst.view masterSyncId key = none := by
      simpa using hex
    have hleft : (m.listLevel level).findSome? (fun sst =>
        (sst.view masterSyncId key).bind syncedPart) = none := by
      refine findSome?_eq_none_iff.mpr fun t ht => ?_
      rw [hnone t ht]
      rfl
    rw [hleft]
    refine findSome?_eq_none_iff.mpr fun t ht => ?_
    obtain ⟨t', ht', -, heq⟩ := hfrom t ht
    rw [heq]
    exact hsearch t' ht' (hnone t' ht')

/-- The search after the migration finds the synced values. -/
lemma search_eq (key : ℕ) :
    (m.updateSstManager r.created r.deleted).search key =
      (LsmLevel.all.flatMap fun level => m.levelChain masterSyncId level key).findSome?
        syncedPart := by
  rw [search, findSome?_flatMap]
  refine findSome?_congr fun level _ => ?_
  by_cases hl : level = .l0
  · rw [hl]
    exact hr.search_l0 h hu key
  · exact hr.search_apart h hu hl key

/-- Tables that are apart have no copies among them. -/
lemma created_eq_nil (hap : ∀ level, level ≠ .l0 →
      ((m.updateSstManager r.created r.deleted).listLevel level).Pairwise SSTable.Apart) :
    r.created = [] := by
  refine eq_nil_iff_forall_not_mem.mpr fun ⟨copy, level⟩ hc => ?_
  obtain ⟨sst, hs, hid, hsy, hrec⟩ := hr.created _ hc
  have hs' : sst ∈ m.listLevel level := mem_leveled.mp hs
  have hl : level ≠ .l0 := hr.created_ne_l0 hu hc
  have hne : copy ≠ sst := by
    rintro rfl
    exact absurd (h.id_lt level _ hs') (not_lt.mpr (hr.created_id _ hc))
  have hcopy := (hr.mem_listLevel_iff h).mpr (.inl hc)
  have hold := (hr.mem_listLevel_iff h).mpr (.inr ⟨hs', fun hun => hun.2.not_allSynced hsy⟩)
  have hasc := h.ascending level sst hs'
  obtain ⟨x, hx⟩ := exists_mem_of_ne_nil _ sst.records_ne_nil
  have hx' : x ∈ copy.records := hrec ▸ hx
  have hasc' : Ascending copy.records := hrec ▸ hasc
  have h1 := start_le hasc hx
  have h2 := le_stop hasc hx
  have h3 := start_le hasc' hx'
  have h4 := le_stop hasc' hx'
  rcases (hap level hl).forall hcopy hold hne with hlt | hlt <;> omega

end

lemma inv (hc : r.created = []) {n : ℕ} (hn : m.Inv masterSyncId n) :
    (m.updateSstManager r.created r.deleted).Inv masterSyncId n := by
  have hsub := sublist_of_no_copies h hc
  refine ⟨fun level sst hs => hn.ascending level sst ((hsub level).subset hs),
    fun level hl => (hn.apart level hl).sublist (hsub level), fun level e he => ?_,
    fun level sst hs => hn.id_lt level sst ((hsub level).subset hs),
    fun l l' a ha b hb => hn.level_eq l l' a ((hsub l).subset ha) b ((hsub l').subset hb),
    fun level sst hs => hn.syncId_le level sst ((hsub level).subset hs)⟩
  have he' := (hr.entries_perm h level).mem_iff.mp he
  rw [hc] at he'
  exact hn.id_eq level e (mem_filter.mp he').1

end MigratesTo

end SstManager

/-! ### Recovery -/

namespace Store

variable {d : Store V} {t : Tree V}

/-- The committed state stands behind the tree: it has its sorted tables, its sync ID and the synced
values of its memory tables. -/
structure Backs (d : Store V) (t : Tree V) : Prop where
  inv : t.Inv
  sstManager : d.sstManager = t.sstManager
  syncId : d.syncId = t.masterSyncId
  records : ∀ key, lastWrite (recoverFromWal d.wals).1 key = (t.memChain key).findSome? syncedPart
  syncId_le : ∀ id entries, d.wals.get? id = some entries →
    (collectSyncedRecordsAndSyncId entries).2 ≤ t.masterSyncId

/-- The recovery restores the synced values: the sorted tables of the last sync ID have only synced
or only unsynced records, and the write-ahead log and a `SyncIdStore` agree about that ID. -/
structure Recoverable (d : Store V) (syncIdStore : Option ℕ) : Prop where
  uniform : d.sstManager.Uniform d.syncId
  apart : ∀ level, level ≠ .l0 → (d.sstManager.listLevel level).Pairwise SSTable.Apart
  wal : (recoverFromWal d.wals).2 = d.syncId
  store : ∀ id, syncIdStore = some id → id = d.syncId

/-- The next free ID is above all IDs. -/
lemma lt_of_mem_foldr {ids : List ℕ} {id : ℕ} (h : id ∈ ids) :
    id < ids.foldr (fun id n => max (id + 1) n) 0 := by
  have hle := le_max_of_le (mem_map_of_mem (f := (· + 1)) h) le_rfl
  rwa [foldr_map] at hle

lemma mem_tables {sst : SSTable V} {m : SstManager V} :
    sst ∈ m.tables ↔ ∃ level, sst ∈ m.listLevel level := by
  rw [tables, mem_flatMap]
  constructor
  · rintro ⟨level, -, hs⟩
    exact ⟨level, hs⟩
  · rintro ⟨level, hs⟩
    exact ⟨level, level.mem_all, hs⟩

/-- The levels of a state that stands behind a tree, with the IDs that the recovery uses. -/
lemma Backs.levels (h : d.Backs t) : d.sstManager.Inv d.syncId d.nextId := by
  have hinv := h.inv.levels
  rw [← h.sstManager, ← h.syncId] at hinv
  refine { hinv with id_lt := fun level sst hs => lt_of_mem_foldr ?_ }
  exact mem_append_right _ (mem_map_of_mem (mem_tables.mpr ⟨level, hs⟩))

/-- The tree that a recovery starts from, when the migration has collected `r`. -/
def recovered (d : Store V) (r : Migrated V) (dropped : List (ℕ × V)) : TreeInner V where
  tree := ⟨(recoverMemtableManager d.syncId (recoverFromWal d.wals).1).1, false,
    d.sstManager.updateSstManager r.created r.deleted, d.syncId, r.nextId⟩
  wal := ⟨none, none, d.syncId, []⟩
  tx := none
  wals := d.wals
  compactor := none
  waiting := none
  dropped := dropped

variable {syncIdStore : Option ℕ}

lemma Recoverable.getD_eq (h : d.Recoverable syncIdStore) :
    syncIdStore.getD d.syncId = d.syncId := by
  cases hs : syncIdStore with
  | none => rfl
  | some id => exact h.store id hs

lemma Recoverable.recover_eq (hr : d.Recoverable syncIdStore) :
    ∃ r dropped, MigratesTo d.syncId d.sstManager.leveled d.nextId r ∧
      d.recover syncIdStore = some (d.recovered r dropped) := by
  obtain ⟨r, hmigrate, hm⟩ := migrateSsts_spec d.syncId d.sstManager.leveled d.nextId
    fun e he hid => (hr.uniform e.2 e.1 (mem_leveled.mp he) hid).imp_right And.right
  refine ⟨r, (recoverMemtableManager d.syncId (recoverFromWal d.wals).1).2 ++ r.dropped, hm, ?_⟩
  simp only [recover, migrate, hr.getD_eq, hmigrate]
  rfl

/-- A recovered tree shows the synced values. -/
lemma Backs.visible_recovered {r : Migrated V} (h : d.Backs t) (hr : d.Recoverable syncIdStore)
    (hm : MigratesTo d.syncId d.sstManager.leveled d.nextId r)
    (dropped : List (ℕ × V)) (key : ℕ) :
    (d.recovered r dropped).visible key = t.syncedValue key := by
  rw [TreeInner.visible, recovered, get_recoverMemtableManager, h.records,
    hm.search_eq h.levels hr.uniform, Tree.syncedValue, Tree.chain, findSome?_append,
    h.sstManager, h.syncId]

/-- The committed state after the migration, as long as there are no copies. -/
lemma Backs.migrated (h : d.Backs t) (hr : d.Recoverable syncIdStore) {r : Migrated V}
    (hm : MigratesTo d.syncId d.sstManager.leveled d.nextId r)
    (hc : r.created = []) :
    (⟨d.wals, d.sstManager.updateSstManager r.created r.deleted⟩ : Store V).Backs
      { t with sstManager := d.sstManager.updateSstManager r.created r.deleted } := by
  have hlevels := hm.inv h.levels hc h.levels
  refine ⟨{ h.inv with levels := ?_, newer := fun key => ?_ }, rfl, ?_, h.records, h.syncId_le⟩
  · rw [← h.syncId]
    refine hm.inv h.levels hc ?_
    rw [h.syncId, h.sstManager]
    exact h.inv.levels
  · refine (h.inv.newer key).sublist (List.Sublist.append_left ?_ _)
    refine List.Sublist.flatMap_right _ fun level _ => ?_
    rw [← h.sstManager]
    exact (sublist_of_no_copies h.levels hc level).filterMap _
  · change max (recoverFromWal d.wals).2 _ = _
    rw [hr.wal, ← h.syncId]
    refine max_eq_left (max_le_of_forall_le _ _ fun id hid => ?_)
    obtain ⟨sst, hs, rfl⟩ := mem_map.mp hid
    obtain ⟨level, hs⟩ := mem_tables.mp hs
    exact hlevels.syncId_le level sst hs

lemma Backs.syncedValue_migrated {r : Migrated V} (h : d.Backs t)
    (hm : MigratesTo d.syncId d.sstManager.leveled d.nextId r)
    (hc : r.created = []) (key : ℕ) :
    Tree.syncedValue { t with sstManager := d.sstManager.updateSstManager r.created r.deleted }
      key =
      t.syncedValue key := by
  rw [Tree.syncedValue, Tree.syncedValue, Tree.chain, Tree.chain, findSome?_append,
    findSome?_append, findSome?_flatMap, findSome?_flatMap]
  refine congrArg ((t.memChain key).findSome? syncedPart).or ?_
  refine findSome?_congr fun level _ => ?_
  rw [← h.syncId, ← h.sstManager]
  exact hm.findSome?_levelChain_eq h.levels (by rw [hc]; rfl) key

lemma lt_nextId_of_mem_wals {id : ℕ} (h : (d.wals.get? id).isSome = true) : id < d.nextId := by
  obtain ⟨entries, he⟩ := Option.isSome_iff_exists.mp h
  have hmem : id ∈ d.wals.entries.map Prod.fst ++ d.sstManager.tables.map SSTable.id :=
    mem_append_left _ (mem_map_of_mem (get?_eq_some.mp he))
  exact lt_of_mem_foldr hmem

end Store

end Asterinas.Mlsdisk
