import Asterinas.Mlsdisk.Tree

/-!
# What a compaction does to the levels

The invariant of the levels, and what a major compaction replaces: the oldest table of the upper
level and the overlapping tables of the lower one by new tables of the lower level with the merged
records.
-/

namespace Asterinas.Mlsdisk

open Framework List OrderedMap

variable {V : Type}

/-! ### Tables -/

namespace SSTable

lemma Apart.symm {a b : SSTable V} (h : a.Apart b) : b.Apart a := Or.symm h

instance : Std.Symm (Apart (V := V)) := ⟨fun _ _ => Apart.symm⟩

/-- What the records of a table are at a sync ID. -/
def viewRecords (t : SSTable V) (masterSyncId : ℕ) : List (Record V) :=
  t.records.map fun r => (r.1, r.2.asOf (decide (t.syncId < masterSyncId)))

lemma lookup_viewRecords (t : SSTable V) (masterSyncId key : ℕ) :
    (t.viewRecords masterSyncId).lookup key = t.view masterSyncId key :=
  lookup_map fun _ => ValueEx.asOf (decide (t.syncId < masterSyncId))

variable {t : SSTable V}

lemma ascending_viewRecords (h : Ascending t.records) (masterSyncId : ℕ) :
    Ascending (t.viewRecords masterSyncId) :=
  h.map fun _ => ValueEx.asOf (decide (t.syncId < masterSyncId))

lemma viewRecords_ne_nil (t : SSTable V) (masterSyncId : ℕ) : t.viewRecords masterSyncId ≠ [] := by
  obtain ⟨r, hr, -⟩ := t.exists_mem_start
  exact ne_nil_of_mem (mem_map_of_mem hr)

lemma iter_fst (t : SSTable V) (masterSyncId : ℕ) :
    (t.iter masterSyncId false).1 = t.viewRecords masterSyncId := by
  rw [iter_false, scanRecords_fst, viewRecords]

lemma exists_mem_of_mem_viewRecords {masterSyncId : ℕ} {r : Record V}
    (h : r ∈ t.viewRecords masterSyncId) : ∃ x ∈ t.records, x.1 = r.1 := by
  obtain ⟨x, hx, rfl⟩ := mem_map.mp h
  exact ⟨x, hx, rfl⟩

lemma view_eq_none_iff {masterSyncId key : ℕ} :
    t.view masterSyncId key = none ↔ ∀ r ∈ t.records, r.1 ≠ key := by
  rw [view, Option.map_eq_none_iff, lookup_eq_none_iff_forall]

lemma exists_mem_of_view_ne_none {masterSyncId key : ℕ} (h : t.view masterSyncId key ≠ none) :
    ∃ r ∈ t.records, r.1 = key := by
  simpa [view_eq_none_iff] using h

/-- A table of the current sync ID shows its records as they are. -/
lemma view_of_syncId_eq {masterSyncId : ℕ} (h : t.syncId = masterSyncId)
    (key : ℕ) : t.view masterSyncId key = t.records.lookup key := by
  have hf : decide (t.syncId < masterSyncId) = false := decide_eq_false (h ▸ lt_irrefl _)
  rw [view, hf]
  exact Option.map_id_apply

/-- Of two tables that are apart, at most one has a key. -/
lemma Apart.view_eq_none {masterSyncId key : ℕ} {a b : SSTable V} (h : a.Apart b)
    (ha : Ascending a.records) (hb : Ascending b.records) (hv : a.view masterSyncId key ≠ none) :
    b.view masterSyncId key = none := by
  obtain ⟨r, hr, rfl⟩ := exists_mem_of_view_ne_none hv
  rw [view_eq_none_iff]
  intro r' hr' heq
  have h1 := start_le ha hr
  have h2 := le_stop ha hr
  have h3 := start_le hb hr'
  have h4 := le_stop hb hr'
  rcases h with h | h <;> omega

/-- The search of a table finds the newest value of the key. -/
lemma search_eq_lookup (h : Ascending t.records) (key : ℕ) :
    t.search key = (t.records.lookup key).map ValueEx.get := by
  rw [search]
  split
  · exact accessPoint_eq h key
  · rename_i hout
    have hnone : t.records.lookup key = none := by
      rw [lookup_eq_none_iff_forall]
      rintro r hr rfl
      exact hout (isWithinRange_of_mem h hr)
    rw [hnone, Option.map_none]

lemma search_eq (h : Ascending t.records) (masterSyncId key : ℕ) :
    t.search key = (t.view masterSyncId key).map ValueEx.get := by
  rw [search_eq_lookup h, view, Option.map_map]
  exact congrArg (Option.map · _) (funext fun v => (ValueEx.get_asOf _ v).symm)

end SSTable

/-- In tables that are pairwise apart a key has at most one value. -/
lemma length_filterMap_view_le_one {ssts : List (SSTable V)} (hap : ssts.Pairwise SSTable.Apart)
    (hasc : ∀ sst ∈ ssts, Ascending sst.records) (masterSyncId key : ℕ) :
    (ssts.filterMap (·.view masterSyncId key)).length ≤ 1 := by
  induction ssts with
  | nil => exact zero_le
  | cons a ssts ih =>
    obtain ⟨ha, hap⟩ := pairwise_cons.mp hap
    obtain ⟨hasca, hasc⟩ := forall_mem_cons.mp hasc
    cases hv : a.view masterSyncId key with
    | none =>
      rw [filterMap_cons_none (f := (SSTable.view · masterSyncId key)) hv]
      exact ih hap hasc
    | some v =>
      have hnil : ssts.filterMap (·.view masterSyncId key) = [] := by
        rw [filterMap_eq_nil_iff]
        intro b hb
        exact (ha b hb).view_eq_none hasca (hasc b hb) (by simp [hv])
      rw [filterMap_cons_some (f := (SSTable.view · masterSyncId key)) hv, hnil]
      exact le_refl _

/-! ### Levels -/

namespace LsmLevel

lemma mem_all (level : LsmLevel) : level ∈ all := by
  cases level <;> decide

variable {fromLevel toLevel : LsmLevel}

section

variable (h : toLevel.upperLevel = some fromLevel)

include h

lemma ne_of_upperLevel : fromLevel ≠ toLevel := by
  rintro rfl
  cases fromLevel <;> cases h

lemma ne_l0_of_upperLevel : toLevel ≠ l0 := by
  rintro rfl
  cases h

/-- A level and its lower level are next to each other in the search order. -/
lemma exists_all_eq :
    ∃ pre post, all = pre ++ fromLevel :: toLevel :: post ∧
      (∀ l ∈ pre, l ≠ fromLevel ∧ l ≠ toLevel) ∧ ∀ l ∈ post, l ≠ fromLevel ∧ l ≠ toLevel := by
  cases toLevel <;> cases h
  · exact ⟨[], [l2, l3, l4, l5], rfl, by decide, by decide⟩
  · exact ⟨[l0], [l3, l4, l5], rfl, by decide, by decide⟩
  · exact ⟨[l0, l1], [l4, l5], rfl, by decide, by decide⟩
  · exact ⟨[l0, l1, l2], [l5], rfl, by decide, by decide⟩
  · exact ⟨[l0, l1, l2, l3], [], rfl, by decide, by decide⟩

end

end LsmLevel

namespace SstManager

variable {m : SstManager V}

variable {level : LsmLevel}

lemma mem_listLevel {sst : SSTable V} :
    sst ∈ m.listLevel level ↔ ∃ id, (id, sst) ∈ (m.levelSsts level).entries := by
  rw [listLevel, mem_reverse, mem_values]

lemma listLevel_perm (m : SstManager V) (level : LsmLevel) :
    (m.listLevel level).Perm (m.levelSsts level).values :=
  reverse_perm _

lemma levelSsts_insert (sst : SSTable V) (level l : LsmLevel) :
    (m.insert sst level).levelSsts l =
      if l = level then (m.levelSsts level).insert sst.id sst else m.levelSsts l :=
  Function.update_apply _ _ _ _

lemma levelSsts_remove (id : ℕ) (level l : LsmLevel) :
    (m.remove id level).levelSsts l =
      if l = level then (m.levelSsts level).erase id else m.levelSsts l :=
  Function.update_apply _ _ _ _

lemma levelSsts_foldl_insert (created : List (SSTable V × LsmLevel)) (l : LsmLevel) :
    (created.foldl (fun m c => m.insert c.1 c.2) m).levelSsts l =
      ((created.filter (·.2 = l)).map fun c => (c.1.id, c.1)).foldl
        (fun om e => om.insert e.1 e.2) (m.levelSsts l) := by
  induction created generalizing m with
  | nil => rfl
  | cons c created ih =>
    rw [foldl_cons, ih, levelSsts_insert]
    by_cases hl : l = c.2
    · rw [if_pos hl, filter_cons_of_pos (by simpa using hl.symm), hl]
      rfl
    · rw [if_neg hl, filter_cons_of_neg (by simpa using Ne.symm hl)]

lemma levelSsts_foldl_remove (deleted : List (ℕ × LsmLevel)) (l : LsmLevel) :
    (deleted.foldl (fun m d => m.remove d.1 d.2) m).levelSsts l =
      ((deleted.filter (·.2 = l)).map Prod.fst).foldl (fun om id => om.erase id)
        (m.levelSsts l) := by
  induction deleted generalizing m with
  | nil => rfl
  | cons d deleted ih =>
    rw [foldl_cons, ih, levelSsts_remove]
    by_cases hl : l = d.2
    · rw [if_pos hl, filter_cons_of_pos (by simpa using hl.symm), hl]
      rfl
    · rw [if_neg hl, filter_cons_of_neg (by simpa using Ne.symm hl)]

lemma filter_map_level {A B : Type} (f : A → B) (as : List A) (level l : LsmLevel) :
    ((as.map fun a => (f a, level)).filter (·.2 = l)) =
      if l = level then as.map fun a => (f a, level) else [] := by
  split
  · rename_i hl
    rw [filter_eq_self]
    simp [hl]
  · rename_i hl
    rw [filter_eq_nil_iff]
    simp [Ne.symm hl]

/-- The levels after `update_sst_manager` in a major compaction. -/
lemma levelSsts_updateSstManager {fromLevel toLevel : LsmLevel} (hne : fromLevel ≠ toLevel)
    (created lower : List (SSTable V)) (id : ℕ) (l : LsmLevel) :
    (m.updateSstManager (created.map (·, toLevel))
      ((id, fromLevel) :: lower.map fun sst => (sst.id, toLevel))).levelSsts l =
      if l = toLevel then
        (lower.map SSTable.id).foldl (fun om id => om.erase id)
          ((created.map fun c => (c.id, c)).foldl (fun om e => om.insert e.1 e.2)
            (m.levelSsts toLevel))
      else if l = fromLevel then (m.levelSsts fromLevel).erase id else m.levelSsts l := by
  have hcreated : ∀ l, (created.map (·, toLevel)).filter (·.2 = l) =
      if l = toLevel then created.map (·, toLevel) else [] :=
    filter_map_level (fun sst => sst) created toLevel
  rw [updateSstManager, foldl_cons, levelSsts_foldl_remove, levelSsts_remove,
    levelSsts_foldl_insert, levelSsts_foldl_insert, filter_map_level SSTable.id, hcreated,
    hcreated]
  by_cases hl : l = toLevel
  · subst hl
    rw [if_pos rfl, if_pos rfl, if_neg hne.symm, if_pos rfl, map_map, map_map]
    rfl
  · rw [if_neg hl, if_neg hl, if_neg hl, if_neg hne]
    rfl

/-- The levels after `move_sst`. -/
lemma levelSsts_moveSst {fromLevel toLevel : LsmLevel} (hne : fromLevel ≠ toLevel) (sst : SSTable V)
    (l : LsmLevel) : (m.moveSst sst fromLevel toLevel).levelSsts l =
      if l = toLevel then (m.levelSsts toLevel).insert sst.id sst
      else if l = fromLevel then (m.levelSsts fromLevel).erase sst.id else m.levelSsts l := by
  rw [moveSst, levelSsts_insert]
  split
  · rw [levelSsts_remove, if_neg hne.symm]
  · rw [levelSsts_remove]

/-- The invariant of the levels. -/
structure Inv (m : SstManager V) (masterSyncId nextId : ℕ) : Prop where
  ascending : ∀ level, ∀ sst ∈ m.listLevel level, Ascending sst.records
  apart : ∀ level, level ≠ .l0 → (m.listLevel level).Pairwise SSTable.Apart
  id_eq : ∀ level, ∀ e ∈ (m.levelSsts level).entries, e.1 = e.2.id
  id_lt : ∀ level, ∀ sst ∈ m.listLevel level, sst.id < nextId
  level_eq : ∀ l l', ∀ a ∈ m.listLevel l, ∀ b ∈ m.listLevel l', a.id = b.id → l = l'
  syncId_le : ∀ level, ∀ sst ∈ m.listLevel level, sst.syncId ≤ masterSyncId

variable {masterSyncId nextId : ℕ}

section

variable (h : m.Inv masterSyncId nextId)

include h

lemma Inv.mem_entries {sst : SSTable V}
    (hs : sst ∈ m.listLevel level) : (sst.id, sst) ∈ (m.levelSsts level).entries := by
  obtain ⟨id, hid⟩ := mem_listLevel.mp hs
  rw [← h.id_eq level _ hid]
  exact hid

/-- A level has one table of an ID. -/
lemma Inv.eq_of_id_eq {a b : SSTable V}
    (ha : a ∈ m.listLevel level) (hb : b ∈ m.listLevel level) (hid : a.id = b.id) : a = b :=
  congrArg Prod.snd (eq_of_mem_of_key_eq (h.mem_entries ha) (h.mem_entries hb) hid)

/-- The last table of a level is the one that the removal of its ID takes away. -/
lemma Inv.listLevel_eq_append {upper : SSTable V} (hu : (m.listLevel level).getLast? = some upper) :
    m.listLevel level = ((m.levelSsts level).erase upper.id).values.reverse ++ [upper] := by
  rw [listLevel, getLast?_reverse, values, head?_map] at hu
  obtain ⟨e, he, rfl⟩ := Option.map_eq_some_iff.mp hu
  obtain ⟨l, hl⟩ := head?_eq_some_iff.mp he
  have hid : e.1 = e.2.id := h.id_eq level e (hl ▸ mem_cons_self)
  have herase := entries_erase_head (m := m.levelSsts level) (k := e.1) (v := e.2) hl
  rw [hid] at herase
  rw [listLevel, values, values, herase, hl, map_cons, reverse_cons]

end

end SstManager

end Asterinas.Mlsdisk
