import Asterinas.Mlsdisk.Compaction

/-!
# What the compaction of records computes

`compactRecords` merges two ascending lists of records: a key of one list keeps its value, a key of
both gets the merged value, and no version is lost without being dropped.  The unreachable case of
the value merge is excluded by the order of the versions (`ValueEx.Newer`).
-/

namespace Asterinas.Mlsdisk

open Framework List Option

variable {V : Type}

/-! ### Values -/

/-- `v` is the merge of the newer value `a` and the older value `b`. -/
structure IsMerge (a b v : ValueEx V) : Prop where
  get_eq : v.get = a.get
  syncedPart_eq : v.syncedPart = a.syncedPart.or b.syncedPart
  containsUnsynced_eq : v.containsUnsynced = a.containsUnsynced
  isTwo_eq : v.isTwo = ((a.containsUnsynced || b.containsUnsynced) &&
    (a.syncedPart.isSome || b.syncedPart.isSome))

lemma compactValueEx_spec {a b : ValueEx V} (h : a.Newer b) :
    ∃ v d, compactValueEx a b = some (v, d) ∧ IsMerge a b v := by
  cases a <;> cases b <;>
    first
    | exact ⟨_, _, rfl, ⟨rfl, rfl, rfl, rfl⟩⟩
    | cases h rfl

lemma versions_compactValueEx {a b v : ValueEx V} {d : Option V}
    (h : compactValueEx a b = some (v, d)) :
    (a.versions ++ b.versions).Perm (v.versions ++ d.toList) := by
  cases a <;> cases b <;> cases h <;>
    first
    | exact .refl _
    | exact .swap _ _ _

/-- The value of a key after a merge, from its values in the newer and the older list. -/
def mergeOption : Option (ValueEx V) → Option (ValueEx V) → Option (ValueEx V)
  | some a, some b => (compactValueEx a b).map Prod.fst
  | some a, none => some a
  | none, b => b

@[simp] lemma mergeOption_none_right (a : Option (ValueEx V)) : mergeOption a none = a := by
  cases a <;> rfl

@[simp] lemma mergeOption_none_left (b : Option (ValueEx V)) : mergeOption none b = b := rfl

/-! ### Records -/

/-- The runs of the merge that do not meet the unreachable case. -/
inductive Merging : List (Record V) → List (Record V) → List (Record V) → List (ℕ × V) → Prop
  | nilUpper (lower : List (Record V)) : Merging [] lower lower []
  | nilLower (upper : List (Record V)) : Merging upper [] upper []
  | upper {upper lower rs : List (Record V)} {ds : List (ℕ × V)} {uk lk : ℕ} {new old : ValueEx V} :
      uk < lk → Merging upper ((lk, old) :: lower) rs ds →
      Merging ((uk, new) :: upper) ((lk, old) :: lower) ((uk, new) :: rs) ds
  | lower {upper lower rs : List (Record V)} {ds : List (ℕ × V)} {uk lk : ℕ} {new old : ValueEx V} :
      lk < uk → Merging ((uk, new) :: upper) lower rs ds →
      Merging ((uk, new) :: upper) ((lk, old) :: lower) ((lk, old) :: rs) ds
  | both {upper lower rs : List (Record V)} {ds : List (ℕ × V)} {k : ℕ} {new old v : ValueEx V}
      {d : Option V} : compactValueEx new old = some (v, d) → Merging upper lower rs ds →
      Merging ((k, new) :: upper) ((k, old) :: lower) ((k, v) :: rs) (d.toList.map (k, ·) ++ ds)

variable {upper lower : List (Record V)}

lemma mem_keys_of_mergeOption_ne_none {k : ℕ}
    (h : mergeOption (upper.lookup k) (lower.lookup k) ≠ none) :
    (∃ r ∈ upper, r.1 = k) ∨ ∃ r ∈ lower, r.1 = k := by
  cases hu : upper.lookup k with
  | some a => exact .inl ⟨_, mem_of_lookup_eq_some hu, rfl⟩
  | none =>
    cases hl : lower.lookup k with
    | some b => exact .inr ⟨_, mem_of_lookup_eq_some hl, rfl⟩
    | none => exact absurd (by rw [hu, hl]; rfl) h

/-- The records that a merge yields, key by key. -/
structure MergesTo (upper lower rs : List (Record V)) : Prop where
  ascending : Ascending rs
  lookup_eq : ∀ k, rs.lookup k = mergeOption (upper.lookup k) (lower.lookup k)

variable {rs : List (Record V)}

lemma MergesTo.mem_keys {r : Record V} (h : MergesTo upper lower rs) (hr : r ∈ rs) :
    (∃ x ∈ upper, x.1 = r.1) ∨ ∃ x ∈ lower, x.1 = r.1 := by
  refine mem_keys_of_mergeOption_ne_none ?_
  rw [← h.lookup_eq, h.ascending.lookup_eq_some_iff.mpr hr]
  exact some_ne_none _

lemma lookup_cons_self (k : ℕ) (v : ValueEx V) (rs : List (Record V)) :
    ((k, v) :: rs).lookup k = some v := by
  simp

lemma lookup_cons_of_ne {k' k : ℕ} (h : k' ≠ k) (v : ValueEx V) (rs : List (Record V)) :
    ((k, v) :: rs).lookup k' = rs.lookup k' := by
  rw [lookup_cons, beq_eq_false_iff_ne.mpr h]

lemma lookup_eq_none_of_lt {k : ℕ} (h : ∀ r ∈ rs, k < r.1) : rs.lookup k = none :=
  lookup_eq_none_iff_forall.mpr fun r hr => (h r hr).ne'

lemma lt_of_lt_head {r : ℕ × ValueEx V} {k : ℕ} (h : Ascending (r :: rs)) (hk : k < r.1) :
    ∀ x ∈ r :: rs, k < x.1 :=
  fun _ hx => lt_of_lt_of_le hk (h.head_le (cons_ne_nil _ _) hx)

/-- One more record in front, with a key below all others. -/
lemma MergesTo.cons {k : ℕ} {v : ValueEx V} {upper' lower' : List (Record V)}
    (h : MergesTo upper lower rs) (hu : ∀ r ∈ upper, k < r.1) (hl : ∀ r ∈ lower, k < r.1)
    (hk : mergeOption (upper'.lookup k) (lower'.lookup k) = some v)
    (hne : ∀ k' ≠ k, upper'.lookup k' = upper.lookup k' ∧ lower'.lookup k' = lower.lookup k') :
    MergesTo upper' lower' ((k, v) :: rs) where
  ascending := by
    refine pairwise_cons.mpr ⟨fun r hr => ?_, h.ascending⟩
    rcases h.mem_keys hr with ⟨x, hx, heq⟩ | ⟨x, hx, heq⟩
    · exact heq ▸ hu x hx
    · exact heq ▸ hl x hx
  lookup_eq k' := by
    by_cases hk' : k' = k
    · rw [hk', lookup_cons_self, hk]
    · rw [lookup_cons_of_ne hk', h.lookup_eq, (hne k' hk').1, (hne k' hk').2]

variable {ds : List (ℕ × V)}

lemma merging_of_compactRecords (h : compactRecords upper lower = some (rs, ds)) :
    Merging upper lower rs ds := by
  induction upper, lower using compactRecords.induct generalizing rs ds with
  | case1 lower =>
    rw [compactRecords] at h
    cases h
    exact .nilUpper lower
  | case2 u upper =>
    rw [compactRecords] at h
    cases h
    exact .nilLower _
  | case3 uk new upper lk old lower hlt ih =>
    rw [compactRecords, if_pos hlt] at h
    obtain ⟨⟨rs', ds'⟩, h', ⟨⟩⟩ := map_eq_some_iff.mp h
    exact .upper hlt (ih h')
  | case4 uk new upper lk old lower hnlt hlt ih =>
    rw [compactRecords, if_neg hnlt, if_pos hlt] at h
    obtain ⟨⟨rs', ds'⟩, h', ⟨⟩⟩ := map_eq_some_iff.mp h
    exact .lower hlt (ih h')
  | case5 uk new upper lk old lower hnlt hnlt' ih =>
    obtain rfl : uk = lk := le_antisymm (not_lt.mp hnlt') (not_lt.mp hnlt)
    rw [compactRecords, if_neg hnlt, if_neg hnlt'] at h
    obtain ⟨⟨v, d⟩, hv, h⟩ := bind_eq_some_iff.mp h
    obtain ⟨⟨rs', ds'⟩, h', ⟨⟩⟩ := map_eq_some_iff.mp h
    exact .both hv (ih h')

lemma Merging.mergesTo (h : Merging upper lower rs ds) (hu : Ascending upper)
    (hl : Ascending lower) : MergesTo upper lower rs := by
  induction h with
  | nilUpper lower => exact ⟨hl, fun _ => rfl⟩
  | nilLower upper => exact ⟨hu, fun _ => (mergeOption_none_right _).symm⟩
  | upper hlt _ ih =>
    obtain ⟨hu0, hu⟩ := pairwise_cons.mp hu
    have hl0 := lt_of_lt_head hl hlt
    refine (ih hu hl).cons hu0 hl0 ?_ fun k' hk' => ⟨lookup_cons_of_ne hk' _ _, rfl⟩
    rw [lookup_cons_self, lookup_eq_none_of_lt hl0, mergeOption_none_right]
  | lower hlt _ ih =>
    obtain ⟨hl0, hl⟩ := pairwise_cons.mp hl
    have hu0 := lt_of_lt_head hu hlt
    refine (ih hu hl).cons hu0 hl0 ?_ fun k' hk' => ⟨rfl, lookup_cons_of_ne hk' _ _⟩
    rw [lookup_cons_self, lookup_eq_none_of_lt hu0, mergeOption_none_left]
  | both hv _ ih =>
    obtain ⟨hu0, hu⟩ := pairwise_cons.mp hu
    obtain ⟨hl0, hl⟩ := pairwise_cons.mp hl
    refine (ih hu hl).cons hu0 hl0 ?_
      fun k' hk' => ⟨lookup_cons_of_ne hk' _ _, lookup_cons_of_ne hk' _ _⟩
    rw [lookup_cons_self, lookup_cons_self, mergeOption, hv, map_some]

lemma Merging.ne_nil (h : Merging upper lower rs ds) (hu : upper ≠ []) : rs ≠ [] := by
  cases h with
  | nilUpper => exact absurd rfl hu
  | nilLower => exact hu
  | upper | lower | both => exact cons_ne_nil _ _

/-- The merge does not meet the unreachable case when the values of every key are in order. -/
lemma compactRecords_isSome (h : ∀ k a b, (k, a) ∈ upper → (k, b) ∈ lower → a.Newer b) :
    (compactRecords upper lower).isSome := by
  induction upper, lower using compactRecords.induct with
  | case1 lower =>
    rw [compactRecords]
    rfl
  | case2 u upper =>
    rw [compactRecords]
    rfl
  | case3 uk new upper lk old lower hlt ih =>
    rw [compactRecords, if_pos hlt, isSome_map]
    exact ih fun k a b ha hb => h k a b (mem_cons_of_mem _ ha) hb
  | case4 uk new upper lk old lower hnlt hlt ih =>
    rw [compactRecords, if_neg hnlt, if_pos hlt, isSome_map]
    exact ih fun k a b ha hb => h k a b ha (mem_cons_of_mem _ hb)
  | case5 uk new upper lk old lower hnlt hnlt' ih =>
    have heq : uk = lk := le_antisymm (not_lt.mp hnlt') (not_lt.mp hnlt)
    subst heq
    obtain ⟨v, d, hv, -⟩ :=
      compactValueEx_spec (h uk new old mem_cons_self mem_cons_self)
    rw [compactRecords, if_neg hnlt, if_neg hnlt', hv, bind_some, isSome_map]
    exact ih fun k a b ha hb =>
      h k a b (mem_cons_of_mem _ ha) (mem_cons_of_mem _ hb)

lemma versionsOf_cons (r : Record V) (rs : List (Record V)) :
    versionsOf (r :: rs) = Record.versions r ++ versionsOf rs :=
  flatMap_cons

/-- Every version of the merged lists is in the result or dropped, exactly once. -/
lemma Merging.versionsOf_perm (h : Merging upper lower rs ds) :
    (versionsOf upper ++ versionsOf lower).Perm (versionsOf rs ++ ds) := by
  classical
  induction h with
  | nilUpper lower | nilLower upper => simp [versionsOf]
  | @upper _ _ _ _ uk _ new _ _ _ ih =>
    simp only [versionsOf_cons (uk, new), append_assoc]
    exact ih.append_left _
  | @lower _ _ _ _ _ lk _ old _ _ ih =>
    rw [perm_iff_count] at *
    intro x
    have ihx := ih x
    simp only [versionsOf_cons (lk, old), count_append] at *
    omega
  | @both _ _ _ _ k _ _ _ _ hv _ ih =>
    have hvers := (versions_compactValueEx hv).map (k, ·)
    rw [perm_iff_count] at *
    intro x
    have hx := hvers x
    have ihx := ih x
    simp only [versionsOf_cons, Record.versions, map_append, count_append] at *
    omega

/-! ### New tables -/

variable {A : Type}

@[simp] lemma chunks_nil : chunks ([] : List A) = [] := by
  rw [chunks, dif_pos rfl]

lemma chunks_of_ne_nil {α : Type} {l : List α} (h : l ≠ []) :
    chunks l = l.take sstableCapacity :: chunks (l.drop sstableCapacity) := by
  rw [chunks, dif_neg h]

lemma flatten_chunks (l : List A) : (chunks l).flatten = l := by
  induction l using chunks.induct with
  | case1 => rw [chunks_nil, flatten_nil]
  | case2 l h ih => rw [chunks_of_ne_nil h, flatten_cons, ih, take_append_drop]

lemma ne_nil_of_mem_chunks {α : Type} {l c : List α} (hc : c ∈ chunks l) : c ≠ [] := by
  induction l using chunks.induct with
  | case1 =>
    rw [chunks_nil] at hc
    cases hc
  | case2 l h ih =>
    rw [chunks_of_ne_nil h] at hc
    rcases mem_cons.mp hc with rfl | hc
    · rw [Ne, take_eq_nil_iff, not_or]
      exact ⟨by decide, h⟩
    · exact ih hc

lemma chunks_map {B : Type} (f : A → B) (l : List A) :
    chunks (l.map f) = (chunks l).map (List.map f) := by
  induction l using chunks.induct with
  | case1 => rw [map_nil, chunks_nil, chunks_nil, map_nil]
  | case2 l h ih =>
    have hmap : l.map f ≠ [] := by simpa using h
    rw [chunks_of_ne_nil hmap, chunks_of_ne_nil h, map_cons, map_take, ← map_drop, ih]

/-- The new tables hold the given records, with new IDs and the given sync ID. -/
structure Built (syncId firstId : ℕ) (rss : List (List (Record V))) (ssts : List (SSTable V)) :
    Prop where
  records_eq : ssts.map SSTable.records = rss
  ids_eq : ssts.map SSTable.id = (List.range' firstId rss.length)
  syncIds_eq : ∀ sst ∈ ssts, sst.syncId = syncId

lemma buildSsts_built {rss : List (List (Record V))} {ssts : List (SSTable V)} {syncId id : ℕ}
    (h : buildSsts syncId rss id = some ssts) : Built syncId id rss ssts := by
  induction rss generalizing id ssts with
  | nil =>
    cases h
    exact ⟨rfl, rfl, by simp⟩
  | cons rs rss ih =>
    obtain ⟨sst, hsst, h⟩ := bind_eq_some_iff.mp h
    obtain ⟨rest, hrest, rfl⟩ := map_eq_some_iff.mp h
    obtain ⟨hid, hsync, hrecords⟩ := SSTable.build_spec hsst
    have hbuilt := ih hrest
    refine ⟨?_, ?_, ?_⟩
    · rw [map_cons, hrecords, hbuilt.records_eq]
    · rw [map_cons, hid, hbuilt.ids_eq, length_cons, range'_succ]
    · intro t ht
      rcases mem_cons.mp ht with rfl | ht
      · exact hsync
      · exact hbuilt.syncIds_eq t ht

/-- The tables can be built exactly when the records of each fit their blocks. -/
lemma buildSsts_isSome {syncId id : ℕ} {rss : List (List (Record V))} (hne : ∀ rs ∈ rss, rs ≠ []) :
    (buildSsts syncId rss id).isSome ↔ ∀ rs ∈ rss, layoutFits 0 (rs.map (·.2.isTwo)) = true := by
  induction rss generalizing id with
  | nil => simp [buildSsts]
  | cons rs rss ih =>
    obtain ⟨hrs, hrest⟩ := forall_mem_cons.mp hne
    have hbuild : (buildSsts syncId rss (id + 1)).isSome ↔ _ := ih hrest
    rw [forall_mem_cons, ← SSTable.build_isSome hrs syncId id, ← hbuild, buildSsts]
    cases SSTable.build rs syncId id with
    | none | some sst => simp

end Asterinas.Mlsdisk
