import Asterinas.Mlsdisk.MajorSpec

/-!
# The invariant of the tables

Along every run without a crash the values of a key, from newer to older tables, are in order: once
a version is synced, all older ones are.  This is what excludes the unreachable case of the value
merge, and what makes a merge keep the newest and the synced value of every key.
-/

namespace Asterinas.Mlsdisk

open Framework OrderedMap List Option Nat

variable {V : Type}

/-! ### Chains of values -/

lemma pairwise_newer_of_synced {vs : List (ValueEx V)}
    (h : ∀ v ∈ vs, v.containsUnsynced = false) : vs.Pairwise ValueEx.Newer :=
  pairwise_of_forall_mem_list fun _ _ b hb _ => h b hb

/-- Replacing the newest value by one with the same synced part keeps the order. -/
lemma pairwise_newer_put {rest : List (ValueEx V)} {v : ValueEx V} {old : Option (ValueEx V)}
    (h : (old.toList ++ rest).Pairwise ValueEx.Newer)
    (hv : v.syncedPart = old.bind ValueEx.syncedPart) : (v :: rest).Pairwise ValueEx.Newer := by
  cases old with
  | none =>
    refine pairwise_cons.mpr ⟨fun b _ hsome => ?_, h⟩
    rw [hv] at hsome
    cases hsome
  | some a =>
    obtain ⟨ha, hrest⟩ := pairwise_cons.mp h
    refine pairwise_cons.mpr ⟨fun b hb hsome => ha b hb ?_, hrest⟩
    rw [hv] at hsome
    exact hsome

/-- Two neighbouring values of a chain are replaced by their merge. -/
structure SameValues (before after : List (ValueEx V)) : Prop where
  newer : after.Pairwise ValueEx.Newer
  newest : after.head?.map ValueEx.get = before.head?.map ValueEx.get
  synced : after.findSome? ValueEx.syncedPart = before.findSome? ValueEx.syncedPart

lemma sameValues_refl {vs : List (ValueEx V)} (h : vs.Pairwise ValueEx.Newer) : SameValues vs vs :=
  ⟨h, rfl, rfl⟩

lemma sameValues_isMerge {newer older : List (ValueEx V)} {a b v : ValueEx V}
    (h : (newer ++ [a, b] ++ older).Pairwise ValueEx.Newer) (hv : IsMerge a b v) :
    SameValues (newer ++ [a, b] ++ older) (newer ++ [v] ++ older) := by
  obtain ⟨hleft, hold, hlo⟩ := pairwise_append.mp h
  obtain ⟨hnew, hab, hna⟩ := pairwise_append.mp hleft
  refine ⟨?_, ?_, ?_⟩
  · refine pairwise_append.mpr ⟨pairwise_append.mpr ⟨hnew, by simp, ?_⟩, hold, ?_⟩
    · intro x hx y hy hsome
      rw [mem_singleton.mp hy, hv.containsUnsynced_eq]
      exact hna x hx a mem_cons_self hsome
    · intro x hx y hy
      rcases mem_append.mp hx with hx | hx
      · exact hlo x (mem_append_left _ hx) y hy
      · rw [mem_singleton.mp hx]
        intro hsome
        rw [hv.syncedPart_eq, isSome_or, Bool.or_eq_true] at hsome
        rcases hsome with hsome | hsome
        · exact hlo a (by simp) y hy hsome
        · exact hlo b (by simp) y hy hsome
  · cases newer with
    | nil => simp [hv.get_eq]
    | cons x newer => rfl
  · simp only [findSome?_append, findSome?_cons, findSome?_nil, hv.syncedPart_eq]
    cases a.syncedPart <;> cases b.syncedPart <;> rfl

lemma sameValues_mergeOption {newer older : List (ValueEx V)} {u w : Option (ValueEx V)}
    (h : (newer ++ (u.toList ++ w.toList) ++ older).Pairwise ValueEx.Newer) :
    SameValues (newer ++ (u.toList ++ w.toList) ++ older)
      (newer ++ (mergeOption u w).toList ++ older) := by
  cases u with
  | none => exact sameValues_refl h
  | some a =>
    cases w with
    | none => exact sameValues_refl (by simpa using h)
    | some b =>
      have hab : a.Newer b := by
        have hmid := (pairwise_append.mp (pairwise_append.mp h).1).2.1
        exact rel_of_pairwise_cons hmid mem_cons_self
      obtain ⟨v, d, heq, hv⟩ := compactValueEx_spec hab
      rw [mergeOption, heq]
      exact sameValues_isMerge h hv

/-! ### The invariant -/

lemma lookup_entries (m : OrderedMap ℕ (ValueEx V)) (key : ℕ) :
    m.entries.lookup key = m.get? key := by
  ext v
  have hasc : Ascending m.entries := m.sorted
  rw [hasc.lookup_eq_some_iff, get?_eq_some]

namespace SstManager

variable {m : SstManager V} {masterSyncId nextId : ℕ}

section

variable (h : m.Inv masterSyncId nextId)

include h

/-- The search of the tables finds the newest value of a key. -/
lemma Inv.search_eq (key : ℕ) :
    m.search key =
      ((LsmLevel.all.flatMap fun level => m.levelChain masterSyncId level key).head?).map
        ValueEx.get := by
  have hlevel : ∀ level, (m.listLevel level).findSome? (·.search key) =
      (m.levelChain masterSyncId level key).head?.map ValueEx.get := by
    intro level
    rw [levelChain, ← head?_map, map_filterMap, ← head?_filterMap]
    refine congrArg List.head? (filterMap_congr fun sst hs => ?_)
    exact SSTable.search_eq (h.ascending level sst hs) masterSyncId key
  rw [head?_flatMap, map_findSome?, search]
  exact congrArg (LsmLevel.all.findSome? ·) (funext hlevel)

/-- The invariant does not depend on how far the IDs and the sync ID have gone on. -/
lemma Inv.mono {masterSyncId' nextId' : ℕ}
    (hs : masterSyncId ≤ masterSyncId') (hn : nextId ≤ nextId') :
    m.Inv masterSyncId' nextId' :=
  { h with
    id_lt := fun level sst hmem => lt_of_lt_of_le (h.id_lt level sst hmem) hn
    syncId_le := fun level sst hmem => (h.syncId_le level sst hmem).trans hs }

/-- After a sync all values in the tables are synced. -/
lemma Inv.levelChain_synced {level : LsmLevel} {key : ℕ} {v : ValueEx V}
    (hv : v ∈ m.levelChain (masterSyncId + 1) level key) : v.containsUnsynced = false := by
  obtain ⟨sst, hs, hview⟩ := mem_filterMap.mp hv
  obtain ⟨w, -, rfl⟩ := map_eq_some_iff.mp hview
  have hlt : sst.syncId < masterSyncId + 1 := lt_succ_of_le (h.syncId_le level sst hs)
  rw [decide_eq_true hlt]
  rfl

/-- A new table of the first level is the newest. -/
lemma Inv.listLevel_insert_l0 {sst : SSTable V} (hid : sst.id = nextId) (level : LsmLevel) :
    (m.insert sst .l0).listLevel level =
      if level = .l0 then sst :: m.listLevel .l0 else m.listLevel level := by
  rw [listLevel, levelSsts_insert]
  split
  · have hlt : ∀ e ∈ (m.levelSsts .l0).entries, e.1 < sst.id := by
      intro e he
      rw [h.id_eq .l0 e he, hid]
      exact h.id_lt .l0 e.2 (mem_listLevel.mpr ⟨e.1, he⟩)
    rw [OrderedMap.values, entries_insert_last hlt]
    simp [listLevel, OrderedMap.values]
  · rfl

lemma Inv.insert_l0 {sst : SSTable V} (hid : sst.id = nextId)
    (hasc : Ascending sst.records) (hsync : sst.syncId = masterSyncId) :
    (m.insert sst .l0).Inv masterSyncId (nextId + 1) := by
  have hmem : ∀ {level s}, s ∈ (m.insert sst .l0).listLevel level →
      (level = .l0 ∧ s = sst) ∨ s ∈ m.listLevel level := by
    intro level s hs
    rw [h.listLevel_insert_l0 hid] at hs
    split at hs
    · rename_i hl
      rcases mem_cons.mp hs with rfl | hs
      · exact .inl ⟨hl, rfl⟩
      · exact .inr (hl ▸ hs)
    · exact .inr hs
  refine ⟨?_, ?_, IdsMatch.insert h.id_eq sst .l0, ?_, ?_, ?_⟩
  · intro level s hs
    rcases hmem hs with ⟨-, rfl⟩ | hs
    · exact hasc
    · exact h.ascending level s hs
  · intro level hl
    rw [h.listLevel_insert_l0 hid, if_neg hl]
    exact h.apart level hl
  · intro level s hs
    rcases hmem hs with ⟨-, rfl⟩ | hs
    · exact hid ▸ lt_succ_self _
    · exact lt_succ_of_lt (h.id_lt level s hs)
  · intro l l' a ha b hb heq
    rcases hmem ha with ⟨hl, rfl⟩ | ha' <;> rcases hmem hb with ⟨hl', rfl⟩ | hb'
    · exact hl.trans hl'.symm
    · exact absurd (h.id_lt l' b hb') (by omega)
    · exact absurd (h.id_lt l a ha') (by omega)
    · exact h.level_eq l l' a ha' b hb' heq
  · intro level s hs
    rcases hmem hs with ⟨-, rfl⟩ | hs
    · exact hsync.le
    · exact h.syncId_le level s hs

end

end SstManager

namespace Tree

/-- The invariant of the tables of a tree. -/
structure Inv (t : Tree V) : Prop where
  levels : t.sstManager.Inv t.masterSyncId t.nextId
  mutable : t.memtables.mutable.Inv
  mutable_syncId : t.memtables.mutable.syncId = t.masterSyncId
  mutable_cap : t.memtables.mutable.cap = memtableCapacity
  immutable_cap : t.memtables.immutable.cap = memtableCapacity
  immutable_syncId : t.pending = true → t.memtables.immutable.syncId = t.masterSyncId
  immutable_ne : t.pending = true → t.memtables.immutable.table.entries ≠ []
  newer : ∀ key, (t.chain key).Pairwise ValueEx.Newer

variable {t : Tree V}

/-- The newest value of a key is the first of its values. -/
lemma Inv.newest_eq (h : t.Inv) (key : ℕ) : t.newest key = (t.chain key).head?.map ValueEx.get := by
  rw [newest, h.levels.search_eq, chain, memChain, MemTable.get]
  cases t.memtables.mutable.table.get? key with
  | some v => rfl
  | none =>
    cases t.pendingEntries.lookup key with
    | some v | none => rfl

lemma inv_format : (format : Tree V).Inv where
  levels := by
    constructor <;> intro level <;>
      simp [format, SstManager.new, SstManager.listLevel, OrderedMap.values]
  mutable := by
    constructor <;> simp [format, MemTableManager.new, MemTable.new]
  mutable_syncId := rfl
  mutable_cap := rfl
  immutable_cap := rfl
  immutable_syncId h := by cases h
  immutable_ne h := by cases h
  newer key := List.Pairwise.nil

lemma Inv.put (h : t.Inv) (key : ℕ) (value : V) :
    ({ t with memtables := (t.memtables.put key value).1 } : Tree V).Inv where
  levels := h.levels
  mutable := h.mutable.put key value
  mutable_syncId := h.mutable_syncId
  mutable_cap := h.mutable_cap
  immutable_cap := h.immutable_cap
  immutable_syncId := h.immutable_syncId
  immutable_ne := h.immutable_ne
  newer k := by
    have hold := h.newer k
    rw [chain, memChain, append_assoc] at hold ⊢
    change (((t.memtables.mutable.put key value).1.table.get? k).toList ++ _).Pairwise _
    rw [MemTable.put_table, get?_insert]
    split
    · rename_i hk
      subst hk
      refine pairwise_newer_put hold ?_
      rw [MemTable.putValue]
      cases t.memtables.mutable.table.get? k with
      | none => rfl
      | some v => exact ValueEx.syncedPart_put value v
    · exact hold

section

variable (h : t.Inv) (hp : t.pending = false)

include h hp

lemma Inv.switch {memtables : MemTableManager V} (hs : t.memtables.switch = some memtables) :
    ({ t with memtables, pending := true } : Tree V).Inv := by
  rw [MemTableManager.switch] at hs
  split at hs
  · rename_i hcap
    cases hs
    have hempty : ∀ key, (t.memtables.immutable.clear.sync
        t.memtables.mutable.syncId).1.table.get? key = none := by
      intro key
      rw [← lookup_entries, MemTable.entries_sync_clear]
      rfl
    refine ⟨h.levels, (MemTable.clear_inv _).sync _, ?_, ?_, h.mutable_cap,
      fun _ => h.mutable_syncId, fun _ hnil => ?_, fun key => ?_⟩
    · exact (MemTable.sync_syncId _).trans h.mutable_syncId
    · exact (MemTable.sync_cap _).trans h.immutable_cap
    · have hsize := h.mutable.size hnil
      have hle : t.memtables.mutable.cap ≤ t.memtables.mutable.size := of_decide_eq_true hcap
      rw [hsize, h.mutable_cap] at hle
      exact absurd hle (by decide)
    · have hold := h.newer key
      rw [chain, memChain, pendingEntries, hp] at hold
      rw [chain, memChain, pendingEntries, hempty, if_pos rfl, lookup_entries]
      simpa using hold
  · cases hs

/-- After a sync all values are synced. -/
lemma Inv.synced_of_mem_chain_sync {v : ValueEx V} {key : ℕ} (hv : v ∈ ({ t with
        memtables := (t.memtables.sync (t.masterSyncId + 1)).1
        masterSyncId := t.masterSyncId + 1 } : Tree V).chain key) :
    v.containsUnsynced = false := by
  rw [chain, memChain, pendingEntries, hp] at hv
  rcases mem_append.mp hv with hv | hv
  · have hne : t.memtables.mutable.syncId ≠ t.masterSyncId + 1 := by
      rw [h.mutable_syncId]
      exact (lt_succ_self _).ne
    change v ∈ ((t.memtables.mutable.sync (t.masterSyncId + 1)).1.table.get? key).toList ++ _
      at hv
    rw [MemTable.sync_table h.mutable hne, get?_mapValues] at hv
    have hv : v ∈ ((t.memtables.mutable.table.get? key).map (·.sync.1)).toList := by
      simpa using hv
    obtain ⟨w, -, rfl⟩ := map_eq_some_iff.mp (Option.mem_toList.mp hv)
    exact ValueEx.containsUnsynced_sync w
  · obtain ⟨level, -, hv⟩ := mem_flatMap.mp hv
    exact h.levels.levelChain_synced hv

lemma Inv.sync :
    ({ t with
        memtables := (t.memtables.sync (t.masterSyncId + 1)).1
        masterSyncId := t.masterSyncId + 1 } : Tree V).Inv where
  levels := h.levels.mono (le_succ _) (le_refl _)
  mutable := h.mutable.sync _
  mutable_syncId := MemTable.sync_syncId _
  mutable_cap := (MemTable.sync_cap _).trans h.mutable_cap
  immutable_cap := h.immutable_cap
  immutable_syncId hp' := by
    rw [hp] at hp'
    cases hp'
  immutable_ne := h.immutable_ne
  newer key := pairwise_newer_of_synced fun _ hv => h.synced_of_mem_chain_sync hp hv

end

end Tree

end Asterinas.Mlsdisk
