import Asterinas.Mlsdisk.LevelSpec

/-!
# What a major compaction does

`Compacts` says which tables a major compaction takes away and which it adds, for both of its cases:
the oldest table of the upper level is moved, or merged with the overlapping tables of the lower
level.  The invariant of the levels, the versions of a key and the multiset of all versions are
derived from it.
-/

namespace Asterinas.Mlsdisk

open Framework OrderedMap SSTable LsmLevel List

variable {V : Type}

variable {rs : List (Record V)} {sst : SSTable V}

namespace SstManager

/-- The value of a key in several tables that are apart. -/
def lookupIn (ssts : List (SSTable V)) (masterSyncId key : ℕ) : Option (ValueEx V) :=
  (ssts.flatMap (·.viewRecords masterSyncId)).lookup key

/-- The compaction has replaced `upper`, the last table of the level `fromLevel`, and the tables
`lower` of the level `toLevel` by the tables `created`; the tables `rest` of `toLevel` stay. -/
structure Compacts (m : SstManager V) (masterSyncId nextId : ℕ) (fromLevel toLevel : LsmLevel)
    (upper : SSTable V) (lower created rest : List (SSTable V)) (c : Compacted V) : Prop where
  upperLevel : toLevel.upperLevel = some fromLevel
  source : m.listLevel fromLevel = c.manager.listLevel fromLevel ++ [upper]
  target_before : (m.listLevel toLevel).Perm (lower ++ rest)
  target_after : (c.manager.listLevel toLevel).Perm (created ++ rest)
  other : ∀ level, level ≠ fromLevel → level ≠ toLevel →
    c.manager.listLevel level = m.listLevel level
  id_eq : ∀ level, ∀ e ∈ (c.manager.levelSsts level).entries, e.1 = e.2.id
  nextId_le : nextId ≤ c.nextId
  ascending : ∀ sst ∈ created, Ascending sst.records
  apart : (created ++ rest).Pairwise Apart
  created_id : ∀ sst ∈ created, sst.id < c.nextId ∧ (nextId ≤ sst.id ∨ sst = upper)
  syncId_le : ∀ sst ∈ created, sst.syncId ≤ masterSyncId
  syncId_eq : (created ≠ [] ∧ ∀ sst ∈ created, sst.syncId = masterSyncId) ∨
    (lower = [] ∧ created = [upper])
  view_lower : ∀ key, lower.filterMap (·.view masterSyncId key) =
    (lookupIn lower masterSyncId key).toList
  view_created : ∀ key, created.filterMap (·.view masterSyncId key) =
    (mergeOption (upper.view masterSyncId key) (lookupIn lower masterSyncId key)).toList
  versions : (upper.versions ++ lower.flatMap versions).Perm (created.flatMap versions ++ c.dropped)

variable {m : SstManager V} {masterSyncId nextId : ℕ} {fromLevel toLevel : LsmLevel}
  {upper : SSTable V} {lower created rest : List (SSTable V)} {c : Compacted V}

/-- The IDs of a level descend in the order of the search. -/
lemma Inv.pairwise_id (h : m.Inv masterSyncId nextId) (level : LsmLevel) :
    (m.listLevel level).Pairwise fun a b => b.id < a.id := by
  rw [listLevel, pairwise_reverse, values, pairwise_map]
  refine (m.levelSsts level).sorted.imp_of_mem ?_
  intro a b ha hb hlt
  rw [h.id_eq level a ha, h.id_eq level b hb] at hlt
  exact hlt

/-- A level below the first holds at most one value of a key. -/
lemma Inv.levelChain_eq {level : LsmLevel} {ssts : List (SSTable V)} {key : ℕ}
    (h : m.Inv masterSyncId nextId) (hl : level ≠ .l0)
    (hp : (m.listLevel level).Perm (ssts ++ rest)) {value : Option (ValueEx V)}
    (hv : ssts.filterMap (·.view masterSyncId key) = value.toList) :
    m.levelChain masterSyncId level key =
      value.toList ++ rest.filterMap (·.view masterSyncId key) := by
  refine eq_of_perm_of_length_le_one ?_
    (length_filterMap_view_le_one (h.apart level hl) (h.ascending level) _ _)
  rw [← hv, ← filterMap_append]
  exact hp.filterMap _

/-! ### The invariant -/

namespace Compacts

variable (hc : m.Compacts masterSyncId nextId fromLevel toLevel upper lower created rest c)

include hc

lemma upper_mem : upper ∈ m.listLevel fromLevel := by
  rw [hc.source]
  exact mem_append_right _ mem_cons_self

/-- A compaction of a table of the current sync ID leaves one. -/
lemma exists_syncId_eq (h : ∃ level, ∃ sst ∈ m.listLevel level, sst.syncId = masterSyncId) :
    ∃ level, ∃ sst ∈ c.manager.listLevel level, sst.syncId = masterSyncId := by
  obtain ⟨level, sst, hs, hid⟩ := h
  have hcreated : ∀ x ∈ created, x ∈ c.manager.listLevel toLevel := fun x hx =>
    hc.target_after.mem_iff.mpr (mem_append_left _ hx)
  rcases hc.syncId_eq with ⟨hne, hall⟩ | ⟨rfl, rfl⟩
  · obtain ⟨x, hx⟩ := exists_mem_of_ne_nil _ hne
    exact ⟨toLevel, x, hcreated x hx, hall x hx⟩
  · by_cases hfrom : level = fromLevel
    · subst hfrom
      rw [hc.source] at hs
      rcases mem_append.mp hs with hs | hs
      · exact ⟨level, sst, hs, hid⟩
      · exact ⟨toLevel, sst, hcreated sst hs, hid⟩
    · by_cases hto : level = toLevel
      · subst hto
        refine ⟨level, sst, hc.target_after.mem_iff.mpr (mem_append_right _ ?_), hid⟩
        simpa using hc.target_before.mem_iff.mp hs
      · exact ⟨level, sst, by rwa [hc.other level hfrom hto], hid⟩

lemma levelChain_source (key : ℕ) :
    m.levelChain masterSyncId fromLevel key =
      c.manager.levelChain masterSyncId fromLevel key ++ (upper.view masterSyncId key).toList := by
  rw [levelChain, hc.source, filterMap_append]
  rfl

lemma levelVersions_perm :
    (all.flatMap m.levelVersions).Perm (all.flatMap c.manager.levelVersions ++ c.dropped) := by
  classical
  obtain ⟨pre, post, hall, hpre, hpost⟩ := exists_all_eq hc.upperLevel
  have hother : ∀ ls : List LsmLevel, (∀ l ∈ ls, l ≠ fromLevel ∧ l ≠ toLevel) →
      ls.flatMap c.manager.levelVersions = ls.flatMap m.levelVersions := fun ls hls =>
    flatMap_congr fun l hl => by simp only [levelVersions, hc.other l (hls l hl).1 (hls l hl).2]
  have hsource : m.levelVersions fromLevel =
      c.manager.levelVersions fromLevel ++ upper.versions := by
    rw [levelVersions, hc.source, flatMap_append, flatMap_singleton, levelVersions]
  have hbefore : (m.levelVersions toLevel).Perm
      (lower.flatMap SSTable.versions ++ rest.flatMap SSTable.versions) := by
    rw [← flatMap_append]
    exact hc.target_before.flatMap_right _
  have hafter : (c.manager.levelVersions toLevel).Perm
      (created.flatMap SSTable.versions ++ rest.flatMap SSTable.versions) := by
    rw [← flatMap_append]
    exact hc.target_after.flatMap_right _
  have hversions := hc.versions
  rw [hall, flatMap_append, flatMap_append, flatMap_cons, flatMap_cons,
    flatMap_cons, flatMap_cons, hother pre hpre, hother post hpost, hsource]
  rw [perm_iff_count] at *
  intro x
  have h1 := hbefore x
  have h2 := hafter x
  have h3 := hversions x
  simp only [count_append] at *
  omega

variable (h : m.Inv masterSyncId nextId)

include h

lemma mem_after {level : LsmLevel} (hs : sst ∈ c.manager.listLevel level) :
    (level = toLevel ∧ sst ∈ created) ∨
      (sst ∈ m.listLevel level ∧ (level = fromLevel → sst.id ≠ upper.id)) := by
  have hne := ne_of_upperLevel hc.upperLevel
  by_cases hto : level = toLevel
  · subst hto
    rcases mem_append.mp (hc.target_after.mem_iff.mp hs) with hmem | hmem
    · exact .inl ⟨rfl, hmem⟩
    · refine .inr ⟨hc.target_before.mem_iff.mpr (mem_append_right _ hmem), ?_⟩
      exact fun heq => absurd heq.symm hne
  · by_cases hfrom : level = fromLevel
    · subst hfrom
      refine .inr ⟨hc.source ▸ mem_append_left _ hs, fun _ => ?_⟩
      have hids := h.pairwise_id level
      rw [hc.source] at hids
      exact ((pairwise_append.mp hids).2.2 sst hs upper mem_cons_self).ne'
    · rw [hc.other level hfrom hto] at hs
      exact .inr ⟨hs, fun heq => absurd heq hfrom⟩

/-- A table of another level does not have the ID of a new table. -/
lemma id_ne {a b : SSTable V} {level : LsmLevel} (ha : a ∈ created)
    (hb : b ∈ m.listLevel level) (hfrom : level = fromLevel → b.id ≠ upper.id) : a.id ≠ b.id := by
  intro hid
  rcases (hc.created_id a ha).2 with hfresh | rfl
  · exact absurd (h.id_lt level b hb) (not_lt.mpr (hid ▸ hfresh))
  · exact hfrom (h.level_eq _ _ b hb a hc.upper_mem hid.symm) hid.symm

theorem inv : c.manager.Inv masterSyncId c.nextId where
  ascending level sst hs := by
    rcases hc.mem_after h hs with ⟨-, hs⟩ | ⟨hs, -⟩
    · exact hc.ascending sst hs
    · exact h.ascending level sst hs
  apart level hl0 := by
    by_cases hto : level = toLevel
    · subst hto
      exact (hc.target_after.pairwise_iff Apart.symm).mpr hc.apart
    · by_cases hfrom : level = fromLevel
      · subst hfrom
        have hap := h.apart level hl0
        rw [hc.source] at hap
        exact (pairwise_append.mp hap).1
      · rw [hc.other level hfrom hto]
        exact h.apart level hl0
  id_eq := hc.id_eq
  id_lt level sst hs := by
    rcases hc.mem_after h hs with ⟨-, hs⟩ | ⟨hs, -⟩
    · exact (hc.created_id sst hs).1
    · exact lt_of_lt_of_le (h.id_lt level sst hs) hc.nextId_le
  level_eq l l' a ha b hb hid := by
    rcases hc.mem_after h ha with ⟨rfl, ha⟩ | ⟨ha, hfa⟩ <;>
      rcases hc.mem_after h hb with ⟨rfl, hb⟩ | ⟨hb, hfb⟩
    · rfl
    · exact absurd hid (hc.id_ne h ha hb hfb)
    · exact absurd hid.symm (hc.id_ne h hb ha hfa)
    · exact h.level_eq l l' a ha b hb hid
  syncId_le level sst hs := by
    rcases hc.mem_after h hs with ⟨-, hs⟩ | ⟨hs, -⟩
    · exact hc.syncId_le sst hs
    · exact h.syncId_le level sst hs

/-! ### The versions of a key -/

lemma levelChain_target (key : ℕ) :
    m.levelChain masterSyncId toLevel key =
      (lookupIn lower masterSyncId key).toList ++ rest.filterMap (·.view masterSyncId key) :=
  h.levelChain_eq (ne_l0_of_upperLevel hc.upperLevel) hc.target_before (hc.view_lower key)

lemma levelChain_target_after (key : ℕ) :
    c.manager.levelChain masterSyncId toLevel key =
      (mergeOption (upper.view masterSyncId key) (lookupIn lower masterSyncId key)).toList ++
        rest.filterMap (·.view masterSyncId key) :=
  (hc.inv h).levelChain_eq (ne_l0_of_upperLevel hc.upperLevel) hc.target_after (hc.view_created key)

/-- In the versions of a key the values of the merged tables are next to each other, and are
replaced by the merged value. -/
lemma exists_chain (key : ℕ) :
    ∃ newer older,
      (all.flatMap fun level => m.levelChain masterSyncId level key) =
        newer ++ ((upper.view masterSyncId key).toList ++
          (lookupIn lower masterSyncId key).toList) ++ older ∧
      (all.flatMap fun level => c.manager.levelChain masterSyncId level key) =
        newer ++ (mergeOption (upper.view masterSyncId key)
          (lookupIn lower masterSyncId key)).toList ++ older := by
  obtain ⟨pre, post, hall, hpre, hpost⟩ := exists_all_eq hc.upperLevel
  have hother : ∀ ls : List LsmLevel, (∀ l ∈ ls, l ≠ fromLevel ∧ l ≠ toLevel) →
      (ls.flatMap fun level => c.manager.levelChain masterSyncId level key) =
        ls.flatMap fun level => m.levelChain masterSyncId level key := fun ls hls =>
    flatMap_congr fun l hl => by simp only [levelChain, hc.other l (hls l hl).1 (hls l hl).2]
  refine ⟨(pre.flatMap fun level => m.levelChain masterSyncId level key) ++
      c.manager.levelChain masterSyncId fromLevel key,
    rest.filterMap (·.view masterSyncId key) ++
      post.flatMap fun level => m.levelChain masterSyncId level key, ?_, ?_⟩
  · rw [hall, flatMap_append, flatMap_cons, flatMap_cons,
      hc.levelChain_source, hc.levelChain_target h]
    simp only [append_assoc]
  · rw [hall, flatMap_append, flatMap_cons, flatMap_cons, hother pre hpre,
      hother post hpost, hc.levelChain_target_after h]
    simp only [append_assoc]

end Compacts

/-! ### Moving a table -/

/-- The keys of the tables are their IDs. -/
def IdsMatch (m : SstManager V) : Prop :=
  ∀ level, ∀ e ∈ (m.levelSsts level).entries, e.1 = e.2.id

lemma IdsMatch.insert (h : m.IdsMatch) (sst : SSTable V) (level : LsmLevel) :
    (m.insert sst level).IdsMatch := by
  intro l e he
  rw [levelSsts_insert] at he
  split at he
  · rcases mem_entries_insert.mp he with rfl | ⟨he, -⟩
    · rfl
    · exact h _ e he
  · exact h l e he

lemma IdsMatch.remove (h : m.IdsMatch) (id : ℕ) (level : LsmLevel) :
    (m.remove id level).IdsMatch := by
  intro l e he
  rw [levelSsts_remove] at he
  split at he
  · exact h _ e (mem_entries_erase.mp he).1
  · exact h l e he

lemma IdsMatch.updateSstManager (h : m.IdsMatch) (created : List (SSTable V × LsmLevel))
    (deleted : List (ℕ × LsmLevel)) : (m.updateSstManager created deleted).IdsMatch := by
  have hcreated : (created.foldl (fun m c => m.insert c.1 c.2) m).IdsMatch := by
    induction created generalizing m with
    | nil => exact h
    | cons c created ih => exact ih (h.insert c.1 c.2)
  rw [SstManager.updateSstManager]
  generalize created.foldl (fun m c => m.insert c.1 c.2) m = m' at hcreated
  induction deleted generalizing m' with
  | nil => exact hcreated
  | cons d deleted ih => exact ih _ (hcreated.remove d.1 d.2)

lemma overlapWith_eq_false_iff {a b : SSTable V} :
    a.overlapWith b.start b.stop = false ↔ a.Apart b := by
  rw [overlapWith, Bool.not_eq_false', Bool.or_eq_true, decide_eq_true_eq, decide_eq_true_eq, Apart]

/-- A table of the upper level is not in the lower one. -/
lemma Inv.ne_id_of_mem_entries {e : ℕ × SSTable V} (h : m.Inv masterSyncId nextId)
    (hne : fromLevel ≠ toLevel) (hu : upper ∈ m.listLevel fromLevel)
    (he : e ∈ (m.levelSsts toLevel).entries) : e.1 ≠ upper.id := by
  intro hid
  have hmem : e.2 ∈ m.listLevel toLevel := mem_listLevel.mpr ⟨e.1, he⟩
  rw [h.id_eq toLevel e he] at hid
  exact hne (h.level_eq _ _ e.2 hmem upper hu hid).symm

section

variable (m : SstManager V) (upper : SSTable V) (toLevel : LsmLevel)

/-- The tables of the lower level that are not merged. -/
def restSsts : List (SSTable V) :=
  (m.listLevel toLevel).filter fun sst => !sst.overlapWith upper.start upper.stop

lemma lowerSsts_perm :
    (m.listLevel toLevel).Perm (m.lowerSsts upper toLevel ++ m.restSsts upper toLevel) :=
  ((mergeSort_perm _ _).append_right _ |>.trans (filter_append_perm _ _)).symm

end

lemma mem_lowerSsts : sst ∈ m.lowerSsts upper toLevel ↔
    sst ∈ m.listLevel toLevel ∧ sst.overlapWith upper.start upper.stop = true := by
  rw [lowerSsts, (mergeSort_perm _ _).mem_iff, findOverlappedSsts, mem_filter]

lemma mem_restSsts : sst ∈ m.restSsts upper toLevel ↔
    sst ∈ m.listLevel toLevel ∧ sst.Apart upper := by
  rw [restSsts, mem_filter, Bool.not_eq_true', overlapWith_eq_false_iff]

lemma compacts_moveSst (h : m.Inv masterSyncId nextId)
    (hlevel : toLevel.upperLevel = some fromLevel)
    (hu : (m.listLevel fromLevel).getLast? = some upper)
    (hlower : m.lowerSsts upper toLevel = []) :
    m.Compacts masterSyncId nextId fromLevel toLevel upper [] [upper]
      (m.restSsts upper toLevel) ⟨m.moveSst upper fromLevel toLevel, nextId, []⟩ := by
  have hne := ne_of_upperLevel hlevel
  have hmem : upper ∈ m.listLevel fromLevel := mem_of_getLast? hu
  have hrest : (m.listLevel toLevel).Perm (m.restSsts upper toLevel) := by
    have hperm := m.lowerSsts_perm upper toLevel
    rwa [hlower, nil_append] at hperm
  refine
    { upperLevel := hlevel
      source := ?_
      target_before := hrest
      target_after := ?_
      other := ?_
      id_eq := (IdsMatch.remove h.id_eq upper.id fromLevel).insert upper toLevel
      nextId_le := le_refl _
      ascending := forall_mem_singleton.mpr (h.ascending fromLevel upper hmem)
      apart := ?_
      created_id := forall_mem_singleton.mpr ⟨h.id_lt fromLevel upper hmem, .inr rfl⟩
      syncId_le := forall_mem_singleton.mpr (h.syncId_le fromLevel upper hmem)
      syncId_eq := .inr ⟨rfl, rfl⟩
      view_lower := fun _ => rfl
      view_created := fun key => ?_
      versions := ?_ }
  · rw [h.listLevel_eq_append hu]
    rw [listLevel, levelSsts_moveSst hne, if_neg hne, if_pos rfl]
  · dsimp only
    refine (listLevel_perm _ _).trans ?_
    rw [levelSsts_moveSst hne, if_pos rfl]
    refine (values_insert_perm fun e he => h.ne_id_of_mem_entries hne hmem he).trans ?_
    exact ((listLevel_perm m toLevel).symm.trans hrest).cons upper
  · intro level hfrom hto
    rw [listLevel, levelSsts_moveSst hne, if_neg hto, if_neg hfrom, listLevel]
  · refine pairwise_cons.mpr ⟨fun sst hs => (mem_restSsts.mp hs).2.symm, ?_⟩
    exact (h.apart toLevel (ne_l0_of_upperLevel hlevel)).filter _
  · rw [lookupIn, flatMap_nil, lookup_nil, mergeOption_none_right]
    rfl
  · simp

/-! ### Merging tables -/

lemma start_le_stop (h : Ascending sst.records) : sst.start ≤ sst.stop := by
  obtain ⟨r, hr, heq⟩ := sst.exists_mem_start
  exact heq ▸ le_stop h hr

lemma ascending_flatMap_viewRecords {ssts : List (SSTable V)}
    (hasc : ∀ sst ∈ ssts, Ascending sst.records)
    (hlt : ssts.Pairwise fun a b => a.stop < b.start) :
    Ascending (ssts.flatMap (·.viewRecords masterSyncId)) := by
  refine pairwise_flatMap.mpr ⟨fun sst hs => ascending_viewRecords (hasc sst hs) _, ?_⟩
  refine hlt.imp_of_mem ?_
  intro a b ha hb hab x hx y hy
  obtain ⟨x', hx', hxeq⟩ := exists_mem_of_mem_viewRecords hx
  obtain ⟨y', hy', hyeq⟩ := exists_mem_of_mem_viewRecords hy
  have h1 := le_stop (hasc a ha) hx'
  have h2 := start_le (hasc b hb) hy'
  omega

section

variable (h : m.Inv masterSyncId nextId) (hl0 : toLevel ≠ .l0)

include h hl0

/-- The lower tables, in the order of their first keys, follow each other. -/
lemma Inv.lowerSsts_pairwise (upper : SSTable V) :
    (m.lowerSsts upper toLevel).Pairwise fun a b => a.stop < b.start := by
  have hap : (m.lowerSsts upper toLevel).Pairwise Apart := by
    refine ((mergeSort_perm _ _).pairwise_iff Apart.symm).mpr ?_
    exact (h.apart toLevel hl0).filter _
  have hle : (m.lowerSsts upper toLevel).Pairwise fun a b => a.start ≤ b.start := by
    refine (pairwise_mergeSort ?_ ?_ _).imp fun hab => of_decide_eq_true hab
    · intro a b c hab hbc
      exact decide_eq_true ((of_decide_eq_true hab).trans (of_decide_eq_true hbc))
    · intro a b
      simpa using le_total a.start b.start
  refine (hap.and hle).imp_of_mem ?_
  intro a b ha hb ⟨hab, hle⟩
  have hb' := start_le_stop (h.ascending toLevel b (mem_lowerSsts.mp hb).1)
  rcases hab with hab | hab <;> omega

lemma Inv.ascending_lower (upper : SSTable V) :
    Ascending ((m.lowerSsts upper toLevel).flatMap (·.viewRecords masterSyncId)) :=
  ascending_flatMap_viewRecords
    (fun sst hs => h.ascending toLevel sst (mem_lowerSsts.mp hs).1)
    (h.lowerSsts_pairwise hl0 upper)

/-- A table that stays has all merged keys on one side: the merged tables cover an interval. -/
lemma Inv.key_side {x : SSTable V} (hu : Ascending upper.records)
    (hx : x ∈ m.restSsts upper toLevel) :
    (∀ sst ∈ upper :: m.lowerSsts upper toLevel, ∀ r ∈ sst.records, x.stop < r.1) ∨
      ∀ sst ∈ upper :: m.lowerSsts upper toLevel, ∀ r ∈ sst.records, r.1 < x.start := by
  obtain ⟨hxm, hxu⟩ := mem_restSsts.mp hx
  have hxle := start_le_stop (h.ascending toLevel x hxm)
  have hap : ((m.lowerSsts upper toLevel) ++ m.restSsts upper toLevel).Pairwise Apart :=
    ((m.lowerSsts_perm upper toLevel).pairwise_iff Apart.symm).mp (h.apart toLevel hl0)
  have hall : ∀ sst ∈ upper :: m.lowerSsts upper toLevel, Ascending sst.records ∧ sst.Apart x ∧
      upper.start ≤ sst.stop ∧ sst.start ≤ upper.stop := by
    refine forall_mem_cons.mpr ⟨⟨hu, hxu.symm, start_le_stop hu, start_le_stop hu⟩,
      fun sst hs => ?_⟩
    obtain ⟨hmem, hov⟩ := mem_lowerSsts.mp hs
    refine ⟨h.ascending toLevel sst hmem, (pairwise_append.mp hap).2.2 sst hs x hx, ?_⟩
    simpa [overlapWith] using hov
  rcases hxu with hleft | hright
  · refine .inl fun sst hs r hr => ?_
    obtain ⟨hasc, hapart, h1, h2⟩ := hall sst hs
    have h3 := start_le hasc hr
    rcases hapart with hapart | hapart <;> omega
  · refine .inr fun sst hs r hr => ?_
    obtain ⟨hasc, hapart, h1, h2⟩ := hall sst hs
    have h3 := le_stop hasc hr
    rcases hapart with hapart | hapart <;> omega

end

/-- The tables built from ascending records. -/
lemma built_ascending (hrs : Ascending rs) (hb : Built masterSyncId nextId (chunks rs) created) :
    created.flatMap records = rs ∧ (∀ sst ∈ created, Ascending sst.records) ∧
      created.Pairwise Apart := by
  have heq : created.flatMap records = rs := by
    rw [flatMap_def, hb.records_eq, flatten_chunks]
  have hasc : Ascending (created.flatMap records) := heq ▸ hrs
  obtain ⟨hin, hbetween⟩ := pairwise_flatMap.mp hasc
  refine ⟨heq, hin, hbetween.imp fun {a b} hab => .inl ?_⟩
  obtain ⟨x, hx, hxeq⟩ := a.exists_mem_stop
  obtain ⟨y, hy, hyeq⟩ := b.exists_mem_start
  exact hxeq ▸ hyeq ▸ hab x hx y hy

/-- The merge of tables, by what their records are at the current sync ID. -/
lemma exists_of_mergeSsts (h : m.mergeSsts upper lower fromLevel toLevel masterSyncId nextId =
      some c) :
    ∃ rs ds created,
      compactRecords (upper.viewRecords masterSyncId)
        (lower.flatMap (·.viewRecords masterSyncId)) = some (rs, ds) ∧
      buildSsts masterSyncId (chunks rs) nextId = some created ∧
      c = ⟨m.updateSstManager (created.map (·, toLevel))
            ((upper.id, fromLevel) :: lower.map fun sst => (sst.id, toLevel)),
          nextId + created.length,
          (upper.iter masterSyncId false).2 ++
            lower.flatMap (fun sst => (sst.iter masterSyncId false).2) ++ ds⟩ := by
  obtain ⟨⟨rs, ds⟩, hrs, h⟩ := Option.bind_eq_some_iff.mp h
  obtain ⟨created, hcreated, rfl⟩ := Option.map_eq_some_iff.mp h
  refine ⟨rs, ds, created, ?_, hcreated, ?_⟩
  · simpa only [flatMap_map, iter_fst] using hrs
  · simp only [flatMap_map]

/-- The versions of a table are those that its scan yields and those that it drops. -/
lemma versions_iter (sst : SSTable V) (masterSyncId : ℕ) :
    sst.versions.Perm (versionsOf (sst.viewRecords masterSyncId) ++
      (sst.iter masterSyncId false).2) := by
  rw [← iter_fst, iter_false]
  exact versionsOf_scanRecords _ _

lemma versions_merge {ds : List (ℕ × V)} (hrs : compactRecords (upper.viewRecords masterSyncId)
      (lower.flatMap (·.viewRecords masterSyncId)) = some (rs, ds))
    (hcreated : created.flatMap records = rs) :
    (upper.versions ++ lower.flatMap versions).Perm
      (created.flatMap versions ++ ((upper.iter masterSyncId false).2 ++
        lower.flatMap (fun sst => (sst.iter masterSyncId false).2) ++ ds)) := by
  classical
  have hversions : created.flatMap versions = versionsOf rs := by
    rw [← hcreated, versionsOf, flatMap_assoc]
    rfl
  have hupper := versions_iter upper masterSyncId
  have hlower : (lower.flatMap versions).Perm
      (versionsOf (lower.flatMap (·.viewRecords masterSyncId)) ++
        lower.flatMap fun sst => (sst.iter masterSyncId false).2) := by
    rw [versionsOf, flatMap_assoc]
    refine (List.Perm.flatMap_left lower fun sst _ => versions_iter sst masterSyncId).trans ?_
    exact (flatMap_append_perm lower _ _).symm
  have hmerge := (merging_of_compactRecords hrs).versionsOf_perm
  rw [hversions]
  rw [perm_iff_count] at *
  intro x
  have h1 := hupper x
  have h2 := hlower x
  have h3 := hmerge x
  simp only [count_append] at *
  omega

/-- The tables that are not merged, by their IDs. -/
lemma Inv.filter_entries (h : m.Inv masterSyncId nextId) (upper : SSTable V) :
    (((m.levelSsts toLevel).entries.filter
      (·.1 ∉ (m.lowerSsts upper toLevel).map SSTable.id)).map Prod.snd).Perm
      (m.restSsts upper toLevel) := by
  have hcongr : (m.levelSsts toLevel).entries.filter
        (·.1 ∉ (m.lowerSsts upper toLevel).map SSTable.id) =
      (m.levelSsts toLevel).entries.filter fun e => !e.2.overlapWith upper.start upper.stop := by
    refine filter_congr fun e he => ?_
    have hmem : e.2 ∈ m.listLevel toLevel := mem_listLevel.mpr ⟨e.1, he⟩
    have hiff : e.1 ∈ (m.lowerSsts upper toLevel).map SSTable.id ↔
        e.2.overlapWith upper.start upper.stop = true := by
      rw [mem_map, h.id_eq toLevel e he]
      constructor
      · rintro ⟨sst, hs, hid⟩
        obtain ⟨hs, hov⟩ := mem_lowerSsts.mp hs
        rw [← h.eq_of_id_eq hs hmem hid]
        exact hov
      · intro hov
        exact ⟨e.2, mem_lowerSsts.mpr ⟨hmem, hov⟩, rfl⟩
    cases hov : e.2.overlapWith upper.start upper.stop with
    | true => exact decide_eq_false (not_not.mpr (hiff.mpr hov))
    | false => exact decide_eq_true fun hin => Bool.noConfusion (hov.symm.trans (hiff.mp hin))
  rw [hcongr, restSsts, listLevel, filter_reverse, values, filter_map]
  exact (reverse_perm _).symm

/-- The tables of the lower level after the merge. -/
lemma Inv.merge_target (h : m.Inv masterSyncId nextId)
    (hb : Built masterSyncId nextId (chunks rs) created) :
    ((m.lowerSsts upper toLevel).map SSTable.id |>.foldl (fun om id => om.erase id)
      ((created.map fun c => (c.id, c)).foldl (fun om e => om.insert e.1 e.2)
        (m.levelSsts toLevel))).values.Perm (created ++ m.restSsts upper toLevel) := by
  have hids : (created.map fun c => (c.id, c)).map Prod.fst = created.map SSTable.id := by
    rw [map_map]
    rfl
  have hfresh : ∀ sst ∈ m.listLevel toLevel, sst.id ∉ created.map SSTable.id := by
    intro sst hs hmem
    rw [hb.ids_eq, mem_range'_1] at hmem
    exact absurd (h.id_lt toLevel sst hs) (not_lt.mpr hmem.1)
  have hinsert := entries_foldl_insert_perm (m := m.levelSsts toLevel)
    (l := created.map fun c => (c.id, c))
    (by rw [hids, hb.ids_eq]; exact nodup_range')
    (by
      intro e he
      rw [hids, h.id_eq toLevel e he]
      exact hfresh e.2 (mem_listLevel.mpr ⟨e.1, he⟩))
  have hcreated : (created.map fun c => (c.id, c)).filter
      (·.1 ∉ (m.lowerSsts upper toLevel).map SSTable.id) = created.map fun c => (c.id, c) := by
    rw [filter_eq_self]
    intro e he
    obtain ⟨c, hc, rfl⟩ := mem_map.mp he
    refine decide_eq_true fun hmem => ?_
    obtain ⟨sst, hs, hid⟩ := mem_map.mp hmem
    exact hfresh sst (mem_lowerSsts.mp hs).1 (hid ▸ mem_map_of_mem hc)
  have hperm := (hinsert.filter (·.1 ∉ (m.lowerSsts upper toLevel).map SSTable.id)).map Prod.snd
  rw [values, entries_foldl_erase]
  refine hperm.trans ?_
  rw [filter_append, hcreated, map_append, map_map]
  refine List.Perm.append (.of_eq ?_) (h.filter_entries upper)
  exact map_id _

/-- A key of the merged records is a key of one of the merged tables. -/
lemma exists_key_of_merge {r : Record V} (hrs : MergesTo (upper.viewRecords masterSyncId)
      (lower.flatMap (·.viewRecords masterSyncId)) rs) (hr : r ∈ rs) :
    ∃ sst ∈ upper :: lower, ∃ x ∈ sst.records, x.1 = r.1 := by
  rcases hrs.mem_keys hr with ⟨x, hx, hxr⟩ | ⟨x, hx, hxr⟩
  · obtain ⟨y, hy, hyx⟩ := exists_mem_of_mem_viewRecords hx
    exact ⟨upper, mem_cons_self, y, hy, hyx.trans hxr⟩
  · obtain ⟨sst, hs, hx⟩ := mem_flatMap.mp hx
    obtain ⟨y, hy, hyx⟩ := exists_mem_of_mem_viewRecords hx
    exact ⟨sst, mem_cons_of_mem _ hs, y, hy, hyx.trans hxr⟩

lemma compacts_mergeSsts (h : m.Inv masterSyncId nextId)
    (hlevel : toLevel.upperLevel = some fromLevel)
    (hu : (m.listLevel fromLevel).getLast? = some upper)
    (hc : m.mergeSsts upper (m.lowerSsts upper toLevel) fromLevel toLevel masterSyncId nextId =
      some c) :
    ∃ created, m.Compacts masterSyncId nextId fromLevel toLevel upper
      (m.lowerSsts upper toLevel) created (m.restSsts upper toLevel) c := by
  have hne := ne_of_upperLevel hlevel
  have hl0 := ne_l0_of_upperLevel hlevel
  have huasc := h.ascending fromLevel upper (mem_of_getLast? hu)
  obtain ⟨rs, ds, created, hrs, hcreated, rfl⟩ := exists_of_mergeSsts hc
  have hlasc := h.ascending_lower hl0 upper
  have hmerging := merging_of_compactRecords hrs
  have hmerge := hmerging.mergesTo (ascending_viewRecords huasc _) hlasc
  have hb := buildSsts_built hcreated
  obtain ⟨heq, hasc, hap⟩ := built_ascending hmerge.ascending hb
  have hlen : created.length = (chunks rs).length := by
    rw [← hb.records_eq, length_map]
  refine ⟨created,
    { upperLevel := hlevel
      source := ?_
      target_before := m.lowerSsts_perm upper toLevel
      target_after := ?_
      other := ?_
      id_eq := IdsMatch.updateSstManager h.id_eq _ _
      nextId_le := le_self_add
      ascending := hasc
      apart := ?_
      created_id := ?_
      syncId_le := fun sst hs => (hb.syncIds_eq sst hs).le
      syncId_eq := .inl ⟨?_, hb.syncIds_eq⟩
      view_lower := fun key => ?_
      view_created := fun key => ?_
      versions := versions_merge hrs heq }⟩
  · rw [h.listLevel_eq_append hu]
    rw [listLevel, levelSsts_updateSstManager hne, if_neg hne, if_pos rfl]
  · refine (listLevel_perm _ _).trans ?_
    rw [levelSsts_updateSstManager hne, if_pos rfl]
    exact h.merge_target hb
  · intro level hfrom hto
    rw [listLevel, levelSsts_updateSstManager hne, if_neg hto, if_neg hfrom, listLevel]
  · -- the new tables lie in the interval that the merged tables cover
    refine pairwise_append.mpr ⟨hap, (h.apart toLevel hl0).filter _, fun c hc x hx => ?_⟩
    have hkey : ∀ r ∈ c.records,
        ∃ sst ∈ upper :: m.lowerSsts upper toLevel, ∃ y ∈ sst.records, y.1 = r.1 := by
      intro r hr
      exact exists_key_of_merge hmerge (heq ▸ mem_flatMap.mpr ⟨c, hc, hr⟩)
    rcases h.key_side hl0 huasc hx with hside | hside
    · obtain ⟨r, hr, hstart⟩ := c.exists_mem_start
      obtain ⟨sst, hs, y, hy, hyr⟩ := hkey r hr
      exact .inr (hstart ▸ hyr ▸ hside sst hs y hy)
    · obtain ⟨r, hr, hstop⟩ := c.exists_mem_stop
      obtain ⟨sst, hs, y, hy, hyr⟩ := hkey r hr
      exact .inl (hstop ▸ hyr ▸ hside sst hs y hy)
  · intro sst hs
    have hid : sst.id ∈ created.map SSTable.id := mem_map_of_mem hs
    rw [hb.ids_eq, mem_range'_1, ← hlen] at hid
    exact ⟨hid.2, .inl hid.1⟩
  · rintro rfl
    exact hmerging.ne_nil (viewRecords_ne_nil _ _) heq.symm
  · simp only [← lookup_viewRecords]
    exact filterMap_lookup_eq hlasc
  · have hview : created.filterMap (·.view masterSyncId key) =
        created.filterMap (·.records.lookup key) :=
      filterMap_congr fun sst hs => view_of_syncId_eq (hb.syncIds_eq sst hs) key
    rw [hview, filterMap_lookup_eq (heq ▸ hmerge.ascending), heq, hmerge.lookup_eq,
      lookup_viewRecords, lookupIn]

/-- What a major compaction that does not panic does. -/
theorem compacts_majorCompaction (h : m.Inv masterSyncId nextId)
    (hc : m.majorCompaction toLevel masterSyncId nextId = some c) :
    ∃ fromLevel upper lower created rest,
      m.Compacts masterSyncId nextId fromLevel toLevel upper lower created rest c := by
  obtain ⟨fromLevel, hlevel, hc⟩ := Option.bind_eq_some_iff.mp hc
  obtain ⟨upper, hu, hc⟩ := Option.bind_eq_some_iff.mp hc
  dsimp only at hc
  split at hc
  · rename_i hempty
    cases hc
    exact ⟨fromLevel, upper, _, _, _, compacts_moveSst h hlevel hu (isEmpty_iff.mp hempty)⟩
  · obtain ⟨created, hcompacts⟩ := compacts_mergeSsts h hlevel hu hc
    exact ⟨fromLevel, upper, _, created, _, hcompacts⟩

end SstManager

end Asterinas.Mlsdisk
