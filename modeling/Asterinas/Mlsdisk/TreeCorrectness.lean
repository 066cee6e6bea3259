import Asterinas.Mlsdisk.TreeInvariant
import Mathlib.Data.Finset.Sort

/-!
# Compaction keeps the map

In every tree that a run without a crash can reach, a compaction changes neither the newest nor the
synced value of any key, drops exactly the versions that are in no table any more, and keeps the
tables of each level from L1 on apart.

It can fail for one reason only: `build_record_blocks` counts the key of a record with two values
twice, so that such a record can overflow a record block that has room for it.
-/

namespace Asterinas.Mlsdisk

open Framework SSTable List SstManager Option

variable {V : Type}

namespace Tree

variable {t : Tree V}

/-- What a compaction step does to a tree. -/
structure Kept (t t' : Tree V) (dropped : List (ℕ × V)) : Prop where
  inv : t'.Inv
  values : ∀ key, SameValues (t.chain key) (t'.chain key)
  versions : t.versions.Perm (t'.versions ++ dropped)

lemma kept_minor {c : Compacted V} (h : t.Inv) (hp : t.pending = true)
    (hc : t.sstManager.minorCompaction t.memtables.immutable t.nextId = some c) :
    t.Kept (t.withCompacted false c).1 c.dropped := by
  obtain ⟨sst, hsst, rfl⟩ := map_eq_some_iff.mp hc
  obtain ⟨hid, hsync, hrecords⟩ := build_spec hsst
  rw [h.immutable_syncId hp] at hsync
  have hasc : Ascending sst.records := hrecords ▸ t.memtables.immutable.table.sorted
  have hlist := h.levels.listLevel_insert_l0 hid
  have hall : ∀ {A : Type} (f : List (SSTable V) → List A), (∀ l, f (sst :: l) = f [sst] ++ f l) →
      (LsmLevel.all.flatMap fun level => f ((t.sstManager.insert sst .l0).listLevel level)) =
        f [sst] ++ LsmLevel.all.flatMap fun level => f (t.sstManager.listLevel level) := by
    intro A f hf
    have hl0 : ∀ g : LsmLevel → List A,
        LsmLevel.all.flatMap g = g .l0 ++ LsmLevel.all.tail.flatMap g := fun _ => flatMap_cons
    have htail : ∀ level ∈ LsmLevel.all.tail, f ((t.sstManager.insert sst .l0).listLevel level) =
        f (t.sstManager.listLevel level) := by
      intro level hlevel
      rw [hlist, if_neg]
      rintro rfl
      exact absurd hlevel (by decide)
    rw [hl0, hl0, flatMap_congr htail, hlist, if_pos rfl, hf, append_assoc]
  -- the new table takes the place of the immutable one
  have hchain : ∀ key, (t.withCompacted false
      ⟨t.sstManager.insert sst .l0, t.nextId + 1, []⟩).1.chain key = t.chain key := by
    intro key
    have hview : [sst].filterMap (·.view t.masterSyncId key) =
        (t.pendingEntries.lookup key).toList := by
      rw [pendingEntries, if_pos hp, ← hrecords, ← view_of_syncId_eq hsync key]
      cases hv : sst.view t.masterSyncId key <;> simp [hv]
    have hlevels := hall (·.filterMap (·.view t.masterSyncId key)) fun l => filterMap_append
      (l := [sst])
    rw [hview] at hlevels
    refine (congrArg ((_ ++ []) ++ ·) hlevels).trans ?_
    simp [chain, memChain, levelChain, withCompacted]
  refine ⟨⟨h.levels.insert_l0 hid hasc hsync, h.mutable, h.mutable_syncId, h.mutable_cap,
    h.immutable_cap, fun hp' => (by cases hp'),
    fun hp' => (by cases hp'), fun key => hchain key ▸ h.newer key⟩, fun key => ?_, ?_⟩
  · rw [hchain]
    exact sameValues_refl (h.newer key)
  · have hversions : sst.versions = versionsOf t.pendingEntries := by
      rw [SSTable.versions, hrecords, pendingEntries, if_pos hp]
    have hlevels := hall (·.flatMap SSTable.versions) fun l => by simp
    rw [flatMap_singleton, hversions] at hlevels
    refine .of_eq (.trans ?_ (congrArg ((_ ++ []) ++ · ++ []) hlevels).symm)
    simp only [versions, withCompacted, append_nil, append_assoc]
    rfl

lemma kept_major {toLevel : LsmLevel} {c : Compacted V} (h : t.Inv)
    (hc : t.sstManager.majorCompaction toLevel t.masterSyncId t.nextId = some c) :
    t.Kept (t.withCompacted t.pending c).1 c.dropped := by
  obtain ⟨fromLevel, upper, lower, created, rest, hcompacts⟩ :=
    compacts_majorCompaction h.levels hc
  have hvalues : ∀ key, SameValues (t.chain key) ((t.withCompacted t.pending c).1.chain key) := by
    intro key
    obtain ⟨newer, older, hbefore, hafter⟩ := hcompacts.exists_chain h.levels key
    have hnewer := h.newer key
    rw [chain, hbefore, ← append_assoc, ← append_assoc] at hnewer
    rw [chain, hbefore, chain]
    change SameValues _ (t.memChain key ++ LsmLevel.all.flatMap fun level =>
      c.manager.levelChain t.masterSyncId level key)
    rw [hafter]
    simpa only [append_assoc] using sameValues_mergeOption hnewer
  refine ⟨⟨hcompacts.inv h.levels, h.mutable, h.mutable_syncId, h.mutable_cap, h.immutable_cap,
    h.immutable_syncId, h.immutable_ne, fun key => (hvalues key).newer⟩, hvalues, ?_⟩
  rw [versions, versions, append_assoc (_ ++ _)]
  exact hcompacts.levelVersions_perm.append_left _

lemma kept_step {s : Step V} {t' : Tree V} {dropped : List (ℕ × V)} (h : t.Inv)
    (hs : s.IsCompaction) (he : t.Enabled s) (hstep : t.step s = some (t', dropped)) :
    t.Kept t' dropped := by
  cases s with
  | minor =>
    obtain ⟨c, hc, heq⟩ := map_eq_some_iff.mp hstep
    cases heq
    exact kept_minor h he hc
  | major toLevel =>
    obtain ⟨c, hc, heq⟩ := map_eq_some_iff.mp hstep
    cases heq
    exact kept_major h hc
  | _ => cases hs

lemma inv_step {s : Step V} {t' : Tree V} {dropped : List (ℕ × V)} (h : t.Inv) (he : t.Enabled s)
    (hs : t.step s = some (t', dropped)) : t'.Inv := by
  cases s with
  | put key value =>
    cases hs
    exact h.put key value
  | switch =>
    obtain ⟨memtables, hm, heq⟩ := map_eq_some_iff.mp hs
    cases heq
    exact h.switch he.2 hm
  | sync =>
    cases hs
    exact h.sync he
  | newLog =>
    cases hs
    exact { h with levels := h.levels.mono (le_refl _) (Nat.le_succ _) }
  | minor | major => exact (kept_step h (by trivial) he hs).inv

lemma Reachable.inv (h : t.Reachable) : t.Inv := by
  induction h with
  | format => exact inv_format
  | step _ he hs ih => exact inv_step ih he hs

end Tree

/-! ### When a compaction succeeds -/

/-- The keys of the tables, in ascending order. -/
def heldKeys (ssts : List (SSTable V)) : List ℕ :=
  (ssts.flatMap fun sst => sst.records.map Prod.fst).toFinset.sort (· ≤ ·)

/-- The key has a synced and an unsynced version in the tables. -/
def bothVersions (ssts : List (SSTable V)) (masterSyncId key : ℕ) : Bool :=
  let vs := ssts.filterMap (·.view masterSyncId key)
  vs.any ValueEx.containsUnsynced && vs.any (·.syncedPart.isSome)

lemma mem_heldKeys {ssts : List (SSTable V)} {key : ℕ} :
    key ∈ heldKeys ssts ↔ ∃ sst ∈ ssts, ∃ r ∈ sst.records, r.1 = key := by
  simp [heldKeys]

lemma isTwo_eq (v : ValueEx V) : v.isTwo = (v.containsUnsynced && v.syncedPart.isSome) := by
  cases v <;> rfl

namespace SstManager

variable {m : SstManager V} {masterSyncId nextId : ℕ} {fromLevel toLevel : LsmLevel}
  {upper : SSTable V}

/-- The merged records of a major compaction: their keys are those of the merged tables, and a
record has two values exactly if the tables have a synced and an unsynced version of its key. -/
lemma map_isTwo_of_mergesTo {rs : List (Record V)} {lower : List (SSTable V)}
    (hrs : MergesTo (upper.viewRecords masterSyncId)
      (lower.flatMap (·.viewRecords masterSyncId)) rs)
    (hview : ∀ key, lower.filterMap (·.view masterSyncId key) =
      (lookupIn lower masterSyncId key).toList)
    (hnewer : ∀ key a b, upper.view masterSyncId key = some a →
      lookupIn lower masterSyncId key = some b → a.Newer b) :
    rs.map (·.2.isTwo) =
      (heldKeys (upper :: lower)).map (bothVersions (upper :: lower) masterSyncId) := by
  have htwo : ∀ key, (rs.lookup key).map ValueEx.isTwo =
      if (upper :: lower).filterMap (·.view masterSyncId key) = [] then none
      else some (bothVersions (upper :: lower) masterSyncId key) := by
    intro key
    rw [hrs.lookup_eq, lookup_viewRecords, ← lookupIn, bothVersions]
    cases ha : upper.view masterSyncId key with
    | none =>
      rw [filterMap_cons_none (f := (view · masterSyncId key)) ha, hview, mergeOption_none_left]
      cases lookupIn lower masterSyncId key <;> simp [isTwo_eq]
    | some a =>
      rw [filterMap_cons_some (f := (view · masterSyncId key)) ha, hview]
      cases hb : lookupIn lower masterSyncId key with
      | none => simp [isTwo_eq]
      | some b =>
        obtain ⟨v, d, heq, hv⟩ := compactValueEx_spec (hnewer key a b ha hb)
        simp [mergeOption, heq, hv.isTwo_eq]
  have hmem : ∀ key, key ∈ rs.map Prod.fst ↔ key ∈ heldKeys (upper :: lower) := by
    intro key
    rw [mem_heldKeys]
    constructor
    · intro hkey
      obtain ⟨r, hr, rfl⟩ := mem_map.mp hkey
      exact exists_key_of_merge hrs hr
    · rintro ⟨sst, hs, r, hr, rfl⟩
      have hv : (upper :: lower).filterMap (·.view masterSyncId r.1) ≠ [] := by
        rw [Ne, filterMap_eq_nil_iff]
        exact fun hall => view_eq_none_iff.mp (hall sst hs) r hr rfl
      obtain ⟨v, hlookup, -⟩ := map_eq_some_iff.mp ((htwo r.1).trans (if_neg hv))
      exact mem_map.mpr ⟨_, mem_of_lookup_eq_some hlookup, rfl⟩
  have hkeys : heldKeys (upper :: lower) = rs.map Prod.fst := by
    have hlt : (rs.map Prod.fst).Pairwise (· < ·) := pairwise_map.mpr hrs.ascending
    have hsorted := (toFinset_sort (· ≤ ·) (hlt.imp LT.lt.ne)).mpr (hlt.imp LT.lt.le)
    rw [← hsorted, heldKeys]
    congr 1
    ext key
    rw [List.mem_toFinset, List.mem_toFinset, hmem key, heldKeys, Finset.mem_sort,
      List.mem_toFinset]
  rw [hkeys, List.map_map]
  refine map_congr_left fun r hr => ?_
  have hr' := htwo r.1
  rw [hrs.ascending.lookup_eq_some_iff.mpr hr, map_some] at hr'
  split at hr'
  · cases hr'
  · exact some.inj hr'

/-- The merge of tables whose values are in order succeeds exactly when the new tables fit. -/
lemma mergeSsts_isSome (h : m.Inv masterSyncId nextId)
    (hlevel : toLevel.upperLevel = some fromLevel)
    (hu : (m.listLevel fromLevel).getLast? = some upper)
    (hnewer : ∀ key a b, upper.view masterSyncId key = some a →
      lookupIn (m.lowerSsts upper toLevel) masterSyncId key = some b → a.Newer b) :
    (m.mergeSsts upper (m.lowerSsts upper toLevel) fromLevel toLevel masterSyncId nextId).isSome ↔
      ∀ c ∈ chunks ((heldKeys (upper :: m.lowerSsts upper toLevel)).map
        (bothVersions (upper :: m.lowerSsts upper toLevel) masterSyncId)),
        layoutFits 0 c = true := by
  have hl0 := LsmLevel.ne_l0_of_upperLevel hlevel
  have huasc := ascending_viewRecords
    (h.ascending fromLevel upper (mem_of_getLast? hu)) masterSyncId
  have hlasc := h.ascending_lower hl0 upper
  have hview : ∀ key, (m.lowerSsts upper toLevel).filterMap (·.view masterSyncId key) =
      (lookupIn (m.lowerSsts upper toLevel) masterSyncId key).toList := by
    intro key
    simp only [← lookup_viewRecords]
    exact filterMap_lookup_eq hlasc
  have hsome : (compactRecords (upper.viewRecords masterSyncId)
      ((m.lowerSsts upper toLevel).flatMap (·.viewRecords masterSyncId))).isSome := by
    refine compactRecords_isSome fun key a b ha hb => hnewer key a b ?_ ?_
    · rw [← lookup_viewRecords]
      exact huasc.lookup_eq_some_iff.mpr ha
    · exact hlasc.lookup_eq_some_iff.mpr hb
  obtain ⟨⟨rs, ds⟩, hrs⟩ := isSome_iff_exists.mp hsome
  have hmerge := (merging_of_compactRecords hrs).mergesTo huasc hlasc
  have hbuild : (m.mergeSsts upper (m.lowerSsts upper toLevel) fromLevel toLevel masterSyncId
      nextId).isSome = (buildSsts masterSyncId (chunks rs) nextId).isSome := by
    rw [mergeSsts]
    simp only [flatMap_map, iter_fst, hrs, bind_some, isSome_map]
  rw [hbuild, buildSsts_isSome fun _ => ne_nil_of_mem_chunks,
    ← map_isTwo_of_mergesTo hmerge hview hnewer, chunks_map, List.forall_mem_map]

end SstManager

namespace Tree

variable {t : Tree V}

/-- The tables of each level from L1 on have disjoint key ranges. -/
def LevelsApart (t : Tree V) : Prop :=
  ∀ level, level ≠ .l0 → (t.sstManager.listLevel level).Pairwise SSTable.Apart

/-- The records of the tables that a compaction builds fit their blocks: laying out the keys in
ascending order, no key with both a synced and an unsynced version falls where fewer than
`K_SIZE + MAX_RECORD_SIZE` bytes of a record block are left. -/
def Fits (t : Tree V) : Step V → Prop
  | .minor => layoutFits 0 (t.memtables.immutable.table.entries.map (·.2.isTwo)) = true
  | .major toLevel => ∀ fromLevel upper, toLevel.upperLevel = some fromLevel →
      (t.sstManager.listLevel fromLevel).getLast? = some upper →
      t.sstManager.lowerSsts upper toLevel ≠ [] →
      ∀ c ∈ chunks ((heldKeys (upper :: t.sstManager.lowerSsts upper toLevel)).map
        (bothVersions (upper :: t.sstManager.lowerSsts upper toLevel) t.masterSyncId)),
        layoutFits 0 c = true
  | _ => True

/-- A value in a level is newer than one in the level below. -/
lemma Inv.newer_of_mem {fromLevel toLevel : LsmLevel} {key : ℕ} {a b : ValueEx V} (h : t.Inv)
    (hlevel : toLevel.upperLevel = some fromLevel)
    (ha : a ∈ t.sstManager.levelChain t.masterSyncId fromLevel key)
    (hb : b ∈ t.sstManager.levelChain t.masterSyncId toLevel key) : a.Newer b := by
  obtain ⟨pre, post, hall, -, -⟩ := LsmLevel.exists_all_eq hlevel
  have hnewer := (pairwise_append.mp (h.newer key)).2.1
  rw [hall, flatMap_append, flatMap_cons, flatMap_cons] at hnewer
  have hrest := (pairwise_append.mp hnewer).2.1
  exact (pairwise_append.mp hrest).2.2 a ha b (mem_append_left _ hb)

lemma Inv.newer_lower {fromLevel toLevel : LsmLevel} {upper : SSTable V} (h : t.Inv)
    (hlevel : toLevel.upperLevel = some fromLevel)
    (hu : (t.sstManager.listLevel fromLevel).getLast? = some upper) (key : ℕ) (a b : ValueEx V)
    (ha : upper.view t.masterSyncId key = some a)
    (hb : lookupIn (t.sstManager.lowerSsts upper toLevel) t.masterSyncId key =
      some b) : a.Newer b := by
  refine h.newer_of_mem hlevel (mem_filterMap.mpr ⟨upper, mem_of_getLast? hu, ha⟩) ?_
  obtain ⟨sst, hs, hmem⟩ := mem_flatMap.mp (mem_of_lookup_eq_some hb)
  obtain ⟨hs, -⟩ := mem_lowerSsts.mp hs
  have hasc := ascending_viewRecords (h.levels.ascending toLevel sst hs) t.masterSyncId
  refine mem_filterMap.mpr ⟨sst, hs, ?_⟩
  rw [← lookup_viewRecords]
  exact hasc.lookup_eq_some_iff.mpr hmem

/-- A compaction that can be taken succeeds exactly when the new tables fit. -/
lemma Inv.step_isSome {s : Step V} (h : t.Inv) (hs : s.IsCompaction) (he : t.Enabled s) :
    (t.step s).isSome ↔ t.Fits s := by
  cases s with
  | minor =>
    rw [step, isSome_map, minorCompaction, isSome_map,
      build_isSome (h.immutable_ne he), Fits]
  | major toLevel =>
    obtain ⟨fromLevel, hlevel, hne⟩ := he
    obtain ⟨upper, hu⟩ : ∃ upper, (t.sstManager.listLevel fromLevel).getLast? = some upper :=
      ⟨_, getLast?_eq_some_getLast hne⟩
    have hfits :
      ∀ P : LsmLevel → SSTable V → Prop, (∀ fromLevel upper, toLevel.upperLevel = some fromLevel →
        (t.sstManager.listLevel fromLevel).getLast? = some upper → P fromLevel upper) ↔
            P fromLevel upper := by
      refine fun P =>
        ⟨fun hf => hf fromLevel upper hlevel hu, fun hf fromLevel' upper' hlevel' hu' => ?_⟩
      cases hlevel.symm.trans hlevel'
      cases hu.symm.trans hu'
      exact hf
    rw [Fits, hfits fun _ upper => t.sstManager.lowerSsts upper toLevel ≠ [] → _, step, isSome_map,
      majorCompaction, hlevel, bind_some, hu, bind_some]
    dsimp only
    split
    · rename_i hempty
      simp [isEmpty_iff.mp hempty]
    · rename_i hempty
      have hlower : t.sstManager.lowerSsts upper toLevel ≠ [] := by
        rwa [Ne, ← List.isEmpty_iff]
      rw [mergeSsts_isSome h.levels hlevel hu (h.newer_lower hlevel hu)]
      exact ⟨fun hf _ => hf, fun hf => hf hlower⟩
  | _ => cases hs

/-! ### Filling the memory table -/

/-- Records of consecutive keys, each with one value, which is not synced. -/
def consecutive (value : V) (key n : ℕ) : List (Record V) :=
  (range' key n).map fun k => (k, .unsynced value)

lemma consecutive_succ (value : V) (key n : ℕ) :
    consecutive value key (n + 1) = (key, .unsynced value) :: consecutive value (key + 1) n := by
  rw [consecutive, range'_succ, map_cons, consecutive]

lemma consecutive_concat (value : V) (key n : ℕ) :
    consecutive value key (n + 1) = consecutive value key n ++ [(key + n, .unsynced value)] := by
  rw [consecutive, range'_concat, map_append, one_mul]
  rfl

lemma mem_consecutive {value : V} {key n : ℕ} {e : Record V} :
    e ∈ consecutive value key n ↔ ∃ k, (key ≤ k ∧ k < key + n) ∧ (k, .unsynced value) = e := by
  simp [consecutive]

lemma map_isTwo_consecutive (value : V) (key n : ℕ) :
    (consecutive value key n).map (·.2.isTwo) = replicate n false := by
  rw [consecutive, List.map_map]
  exact (map_const' ..).trans (by rw [length_range'])

/-- The tree is reachable, nothing is to be compacted, and the mutable table holds the given records
and number of versions and is not full. -/
structure Filling (t : Tree V) (records : List (Record V)) (size : ℕ) : Prop where
  reachable : t.Reachable
  pending : t.pending = false
  isFull : t.memtables.isFull = false
  entries : t.memtables.mutable.table.entries = records
  size_eq : t.memtables.mutable.size = size

/-- The tree is reachable, the mutable table is empty, and the immutable one, which is to be
compacted, holds the given records. -/
structure Filled (t : Tree V) (records : List (Record V)) : Prop where
  reachable : t.Reachable
  pending : t.pending = true
  isFull : t.memtables.isFull = false
  entries : t.memtables.mutable.table.entries = []
  size_eq : t.memtables.mutable.size = 0
  immutable : t.memtables.immutable.table.entries = records

/-- Consecutive keys are put between the records below and above them. -/
lemma Filling.puts {size : ℕ} (value : V) (n key : ℕ) (below above : List (Record V))
    (h : t.Filling (below ++ above) size)
    (hb : ∀ e ∈ below, e.1 < key) (ha : ∀ e ∈ above, key + n ≤ e.1)
    (hn : size + n < memtableCapacity) :
    ∃ memtables, ({ t with memtables } : Tree V).Filling
      (below ++ consecutive value key n ++ above) (size + n) := by
  induction n generalizing t below key size with
  | zero => exact ⟨t.memtables, by simpa [consecutive] using h⟩
  | succ n ih =>
    obtain ⟨hentries, hsize⟩ := MemTable.put_between below above h.entries hb
      (fun e he => lt_of_lt_of_le (by omega) (ha e he)) value
    have hnext : ({ t with memtables := (t.memtables.put key value).1 } : Tree V).Filling
        ((below ++ [(key, .unsynced value)]) ++ above) (size + 1) := by
      refine ⟨.step h.reachable (s := .put key value) h.isFull rfl, h.pending, ?_, ?_, ?_⟩
      · change (t.memtables.mutable.put key value).1.atCapacity = false
        rw [MemTable.atCapacity, hsize, h.size_eq, MemTable.put_cap, h.reachable.inv.mutable_cap]
        exact decide_eq_false (by omega)
      · rw [append_assoc]
        exact hentries
      · rw [← h.size_eq]
        exact hsize
    obtain ⟨memtables, hfill⟩ := ih (key + 1) (below ++ [(key, .unsynced value)]) hnext
      (fun e he => by
        rcases mem_append.mp he with he | he
        · exact Nat.lt_succ_of_lt (hb e he)
        · rw [mem_singleton.mp he]
          exact lt_add_one _)
      (fun e he => by
        have := ha e he
        omega)
      (by omega)
    refine ⟨memtables, ?_⟩
    simpa [consecutive_succ, add_assoc, add_comm 1] using hfill

/-- With records above the given ones the table is filled and switched. -/
lemma Filling.fill {below : List (Record V)} {size : ℕ} (value : V) (key : ℕ)
    (h : t.Filling below size) (hb : ∀ e ∈ below, e.1 < key) (hsize : size < memtableCapacity) :
    ∃ memtables, ({ t with memtables, pending := true } : Tree V).Filled
      (below ++ consecutive value key (memtableCapacity - size)) := by
  obtain ⟨n, hn⟩ : ∃ n, size + n + 1 = memtableCapacity := ⟨memtableCapacity - size - 1, by omega⟩
  have hlen : memtableCapacity - size = n + 1 := by omega
  obtain ⟨memtables, hfill⟩ :=
    Filling.puts value n key below [] (by simpa using h) hb (by simp) (by omega)
  have hlt : ∀ e ∈ below ++ consecutive value key n, e.1 < key + n := by
    intro e he
    rcases mem_append.mp he with he | he
    · exact Nat.lt_add_right n (hb e he)
    · obtain ⟨k, ⟨-, hk⟩, rfl⟩ := mem_consecutive.mp he
      exact hk
  obtain ⟨hentries, hsize'⟩ := MemTable.put_between (below ++ consecutive value key n) []
    (by simpa using hfill.entries) hlt (by simp) value
  -- the last put fills the table
  have hcap : (memtables.put (key + n) value).1.mutable.atCapacity = true := by
    refine decide_eq_true ?_
    change _ ≤ (memtables.mutable.put (key + n) value).1.size
    rw [hsize', hfill.size_eq, hn]
    exact hfill.reachable.inv.mutable_cap.le
  have hput : ({ t with memtables := (memtables.put (key + n) value).1 } : Tree V).Reachable :=
    .step hfill.reachable (s := .put (key + n) value) hfill.isFull rfl
  have hswitch : (memtables.put (key + n) value).1.switch = some _ := if_pos hcap
  refine ⟨_, .step hput (s := .switch) ⟨hcap, hfill.pending⟩ (congrArg (Option.map _) hswitch), rfl,
    rfl, ?_, ?_, ?_⟩
  · exact MemTable.entries_sync_clear ..
  · exact MemTable.size_sync_clear ..
  · rw [hlen, consecutive_concat, ← append_assoc]
    exact hentries

/-- The minor compaction of records with one version each. -/
lemma Filled.minor {records : List (Record V)} (h : t.Filled records)
    (hsingle : ∀ e ∈ records, e.2.isTwo = false) :
    ∃ sst : SSTable V, sst.id = t.nextId ∧ sst.syncId = t.masterSyncId ∧ sst.records = records ∧
      ({ t with
        pending := false, sstManager := t.sstManager.insert sst .l0,
        nextId := t.nextId + 1 } : Tree V).Filling [] 0 := by
  have hfits : layoutFits 0 (records.map (·.2.isTwo)) = true :=
    layoutFits_of_single (by decide) (by simpa using hsingle)
  rw [← h.immutable, ← build_isSome (h.reachable.inv.immutable_ne h.pending)
    t.memtables.immutable.syncId t.nextId] at hfits
  obtain ⟨sst, hsst⟩ := isSome_iff_exists.mp hfits
  obtain ⟨hid, hsync, hrecords⟩ := build_spec hsst
  have hstep : t.step .minor = some ({ t with
      pending := false, sstManager := t.sstManager.insert sst .l0,
      nextId := t.nextId + 1 }, []) := by
    rw [step, minorCompaction, hsst]
    rfl
  exact ⟨sst, hid, hsync.trans (h.reachable.inv.immutable_syncId h.pending),
    hrecords.trans h.immutable, .step h.reachable (s := .minor) h.pending hstep, rfl,
    h.isFull, h.entries, h.size_eq⟩

lemma filling_format : (format : Tree V).Filling [] 0 :=
  ⟨.format, rfl, rfl, rfl, rfl⟩

/-- **Compaction keeps the map.**  In every reachable tree the levels from L1 on are apart, and a
compaction that can be taken keeps them apart, keeps the newest and the synced value of every key
and drops exactly the versions that are in no table any more, if and only if the tables that it
builds fit their blocks; otherwise it panics. -/
theorem compaction_keeps_map (hr : t.Reachable) (s : Step V) (hs : s.IsCompaction)
    (he : t.Enabled s) :
    t.LevelsApart ∧
      ((∃ t' dropped, t.step s = some (t', dropped) ∧ t'.LevelsApart ∧
        (∀ key, t'.newest key = t.newest key ∧ t'.syncedValue key = t.syncedValue key) ∧
        t.versions.Perm (t'.versions ++ dropped)) ↔ t.Fits s) := by
  have h := hr.inv
  refine ⟨h.levels.apart, ?_, fun hf => ?_⟩
  · rintro ⟨t', dropped, hstep, -⟩
    rw [← h.step_isSome hs he, hstep]
    rfl
  · obtain ⟨⟨t', dropped⟩, hstep⟩ :=
      isSome_iff_exists.mp ((h.step_isSome hs he).mpr hf)
    have hkept := kept_step h hs he hstep
    refine ⟨t', dropped, hstep, hkept.inv.levels.apart, fun key => ⟨?_, ?_⟩, hkept.versions⟩
    · rw [hkept.inv.newest_eq, h.newest_eq]
      exact (hkept.values key).newest
    · exact (hkept.values key).synced

/-- What a table of unsynced records says about a key is not synced. -/
lemma syncedPart_of_view {sst : SSTable V} {value : V} {first n masterSyncId key : ℕ}
    {v : ValueEx V} (hsync : sst.syncId = masterSyncId)
    (hrecords : sst.records = consecutive value first n)
    (hv : sst.view masterSyncId key = some v) : v.syncedPart = none := by
  rw [view_of_syncId_eq hsync, hrecords] at hv
  obtain ⟨k, -, heq⟩ := mem_consecutive.mp (mem_of_lookup_eq_some hv)
  cases heq
  rfl

lemma viewRecords_of_consecutive {sst : SSTable V} {value : V} {key n masterSyncId : ℕ}
    (hsync : sst.syncId = masterSyncId) (hrecords : sst.records = consecutive value key (n + 1)) :
    sst.viewRecords masterSyncId =
      (key, .unsynced value) :: consecutive value (key + 1) n := by
  have hfalse : decide (sst.syncId < masterSyncId) = false := decide_eq_false hsync.not_lt
  rw [viewRecords, hfalse, hrecords, consecutive_succ]
  exact map_id' _

lemma start_of_consecutive {sst : SSTable V} {value : V} {key n : ℕ}
    (hrecords : sst.records = consecutive value key (n + 1)) : sst.start = key :=
  start_of_cons (hrecords.trans (consecutive_succ ..))

/-- A merge of two tables that begin with the same key drops the older value of it. -/
lemma mem_dropped_of_mergeSsts {m : SstManager V} {upper lower : SSTable V}
    {fromLevel toLevel : LsmLevel} {masterSyncId nextId key : ℕ} {new old : V}
    {us ls : List (Record V)} {c : Compacted V}
    (hu : upper.viewRecords masterSyncId = (key, .unsynced new) :: us)
    (hl : lower.viewRecords masterSyncId = (key, .unsynced old) :: ls)
    (hc : m.mergeSsts upper [lower] fromLevel toLevel masterSyncId nextId = some c) :
    (key, old) ∈ c.dropped := by
  obtain ⟨⟨records, dropped⟩, hrecords, hbuild⟩ := bind_eq_some_iff.mp hc
  obtain ⟨created, -, rfl⟩ := map_eq_some_iff.mp hbuild
  simp only [map_cons, map_nil, flatMap_cons, flatMap_nil, append_nil, iter_fst, hu, hl,
    compactRecords, lt_irrefl, if_false, compactValueEx, bind_some] at hrecords
  obtain ⟨rest, -, heq⟩ := map_eq_some_iff.mp hrecords
  cases heq
  exact mem_append_right _ (mem_append_left _ (mem_singleton.mpr rfl))

/-- A table that no table of L1 overlaps is moved there. -/
lemma step_major_of_empty (sst : SSTable V) (h0 : t.sstManager.listLevel .l0 = [sst])
    (h1 : t.sstManager.listLevel .l1 = []) : t.step (.major .l1) =
      some ({ t with sstManager := t.sstManager.moveSst sst .l0 .l1 }, []) := by
  have hlower : t.sstManager.lowerSsts sst .l1 = [] := by
    rw [lowerSsts, findOverlappedSsts, h1, filter_nil, mergeSort_nil]
  simp [step, majorCompaction, LsmLevel.upperLevel, h0, hlower, withCompacted]

/-- The keys are put twice, and each round is compacted, the first one down to L1. -/
lemma exists_two_tables : ∃ (t : Tree ℕ) (upper lower : SSTable ℕ) (n : ℕ), t.Reachable ∧
    t.sstManager.listLevel .l0 = [upper] ∧ t.sstManager.listLevel .l1 = [lower] ∧
    upper.syncId = t.masterSyncId ∧ lower.syncId = t.masterSyncId ∧
    upper.records = consecutive 1 0 (n + 1) ∧ lower.records = consecutive 0 0 (n + 1) := by
  obtain ⟨n, hn⟩ : ∃ n, memtableCapacity - 0 = n + 1 := ⟨memtableCapacity - 1, by decide⟩
  have hsingle : ∀ value : ℕ, ∀ e ∈ [] ++ consecutive value 0 (memtableCapacity - 0),
      e.2.isTwo = false := by
    intro value e he
    obtain ⟨k, -, rfl⟩ := mem_consecutive.mp he
    rfl
  obtain ⟨memtables, h₁⟩ := (filling_format (V := ℕ)).fill 0 0 (by simp) (by decide)
  obtain ⟨lower, hid, hsync, hlower, h₂⟩ := h₁.minor (hsingle 0)
  have h₃ := Reachable.step h₂.reachable (s := .major .l1) ⟨.l0, rfl, cons_ne_nil lower []⟩
    (step_major_of_empty lower rfl rfl)
  obtain ⟨memtables', h₄⟩ := Filling.fill 1 0
    (⟨h₃, rfl, h₂.isFull, h₂.entries, h₂.size_eq⟩ : Filling _ [] 0) (by simp) (by decide)
  obtain ⟨upper, hid', hsync', hupper, h₅⟩ := h₄.minor (hsingle 1)
  rw [hn] at hlower hupper
  refine ⟨_, upper, lower, n, h₅.reachable, ?_, ?_, hsync', hsync, hupper, hlower⟩
  all_goals
    obtain ⟨_, _, _, _⟩ := upper
    obtain ⟨_, _, _, _⟩ := lower
    subst hid hid'
    rfl

/-- The keys are put twice with a compaction after each round, so that there is a table of the same
keys in L0 and in L1.  The compaction of the two drops the older values. -/
theorem compaction_keeps_map_of_two :
    ∃ t : Tree ℕ, t.Reachable ∧ t.Enabled (.major .l1) ∧ ∃ t' dropped,
      t.step (.major .l1) = some (t', dropped) ∧ t'.LevelsApart ∧
      (∀ key, t'.newest key = t.newest key ∧ t'.syncedValue key = t.syncedValue key) ∧
      t.versions.Perm (t'.versions ++ dropped) ∧ (0, 0) ∈ dropped := by
  obtain ⟨t, upper, lower, n, hr, hl0, hl1, hsync, hsync', hupper, hlower⟩ := exists_two_tables
  have he : t.Enabled (.major .l1) := ⟨.l0, rfl, hl0 ▸ cons_ne_nil _ _⟩
  have hfits : t.Fits (.major .l1) := by
    intro fromLevel upper' hlevel hu _ c hc
    cases hlevel
    obtain rfl : upper = upper' := by simpa [hl0] using hu
    refine layoutFits_of_single (by decide) fun two htwo => ?_
    have hmem := flatten_chunks _ ▸ mem_flatten_of_mem hc htwo
    obtain ⟨key, -, rfl⟩ := mem_map.mp hmem
    rw [bothVersions, Bool.and_eq_false_iff]
    refine .inr (any_eq_false.mpr fun v hv => ?_)
    obtain ⟨sst, hsst, hview⟩ := mem_filterMap.mp hv
    rcases mem_cons.mp hsst with rfl | hsst
    · simp [syncedPart_of_view hsync hupper hview]
    · have hmem := (mem_lowerSsts.mp hsst).1
      rw [hl1, mem_singleton] at hmem
      subst hmem
      simp [syncedPart_of_view hsync' hlower hview]
  obtain ⟨t', dropped, hstep, hapart, hvalues, hperm⟩ :=
    (compaction_keeps_map hr (.major .l1) trivial he).2.mpr hfits
  refine ⟨t, hr, he, t', dropped, hstep, hapart, hvalues, hperm, ?_⟩
  have hl : t.sstManager.lowerSsts upper .l1 = [lower] := by
    have hover : lower.overlapWith upper.start upper.stop = true := by
      simp [overlapWith, start_of_consecutive hupper, start_of_consecutive hlower]
    rw [lowerSsts, findOverlappedSsts, hl1, filter_singleton, hover]
    exact mergeSort_singleton _
  obtain ⟨c, hc, heq⟩ := map_eq_some_iff.mp hstep
  cases heq
  rw [majorCompaction, LsmLevel.upperLevel, bind_some, hl0, getLast?_singleton, bind_some, hl] at hc
  exact mem_dropped_of_mergeSsts (viewRecords_of_consecutive hsync hupper)
    (viewRecords_of_consecutive hsync' hlower) hc

/-- A reachable tree whose compaction panics: the key 2673 is put, synced and put again, so that it
has two versions; the 2673 smaller keys leave 95 bytes of the first record block. -/
theorem compaction_panics :
    ∃ t : Tree ℕ, t.Reachable ∧ t.Enabled .minor ∧ t.step .minor = none := by
  obtain ⟨t₀, h0⟩ : ∃ t : Tree ℕ, t.Filling ([] ++ [(2673, .syncedAndUnsynced 0 0)]) 2 :=
    ⟨_, .step (.step (.step .format (s := .put 2673 0) rfl rfl) (s := .sync) rfl rfl)
      (s := .put 2673 0) rfl rfl, rfl, rfl, rfl, rfl⟩
  obtain ⟨memtables₁, h1⟩ := h0.puts 0 2673 0 [] _ (by simp) (by simp) (by decide)
  obtain ⟨memtables, h⟩ := h1.fill 0 2674
    (by
      intro e he
      rcases mem_append.mp he with he | he
      · obtain ⟨k, ⟨-, hk⟩, rfl⟩ := mem_consecutive.mp he
        exact hk.trans (by decide)
      · rw [mem_singleton.mp he]
        decide)
    (by decide)
  refine ⟨_, h.reachable, h.pending, ?_⟩
  rw [← not_isSome_iff_eq_none, h.reachable.inv.step_isSome (s := .minor) trivial h.pending]
  change ¬ layoutFits 0 _ = true
  rw [h.immutable, nil_append, map_append, map_append, map_isTwo_consecutive, append_assoc,
    layoutFits_replicate_append (by decide)]
  exact Bool.false_ne_true

end Tree

end Asterinas.Mlsdisk
