import Asterinas.Mlsdisk.BitMap
import Asterinas.Mlsdisk.TreeInvariant

/-!
# Range queries

The context of a range query (`4-lsm/range_query_ctx.rs`), and how the memory tables and the sorted
tables complete it.  A context stands for the values found so far (`RangeQueryCtx.found`); a table
adds its values for the keys that are not found yet.
-/

namespace Asterinas.Mlsdisk

open Framework List Option Bool

variable {V : Type}

/-- `RangeQueryCtx`: the keys that are asked for, which of them are complete, and what was found. -/
structure RangeQueryCtx (V : Type) where
  start : ℕ
  numValues : ℕ
  completeTable : List Bool
  minUncompleted : ℕ
  res : List (ℕ × V)

namespace RangeQueryCtx

/-- `RangeQueryCtx::new`: a query to which nothing has been found. -/
def new (start numValues : ℕ) : RangeQueryCtx V :=
  ⟨start, numValues, replicate numValues false, 0, []⟩

section

variable (c : RangeQueryCtx V)

/-- `RangeQueryCtx::is_completed`: all keys have been found. -/
def isCompleted : Bool := c.minUncompleted == c.numValues

/-- `RangeQueryCtx::range_uncompleted`: the first and the last key that are not found. -/
def rangeUncompleted : Option (ℕ × ℕ) :=
  if c.isCompleted then none
  else (lastZero c.completeTable).map fun last => (c.start + c.minUncompleted, c.start + last)

/-- Set the slot, with `update_min_uncompleted`. -/
def markSlot (nth : ℕ) : RangeQueryCtx V :=
  let completeTable := c.completeTable.set nth true
  { c with
    completeTable
    minUncompleted := if c.minUncompleted = nth then
      (firstZero completeTable nth).getD c.numValues else c.minUncompleted }

/-- `RangeQueryCtx::complete`, of a key in the range of the query. -/
def complete (key : ℕ) (value : V) : RangeQueryCtx V :=
  if c.completeTable[key - c.start]? = some true then c
  else markSlot { c with res := c.res ++ [(key, value)] } (key - c.start)

/-- Complete the keys between `lo` and `hi` with the given records. -/
def completeAll (lo hi : ℕ) (records : List (Record V)) : RangeQueryCtx V :=
  (records.filter fun r => lo ≤ r.1 && decide (r.1 ≤ hi)).foldl
    (fun c r => c.complete r.1 r.2.get) c

end

end RangeQueryCtx

/-- `MemTable::get_range`.  `none` is the assertion that the query is not completed. -/
def MemTable.getRange (m : MemTable V) (c : RangeQueryCtx V) : Option (RangeQueryCtx V) :=
  c.rangeUncompleted.map fun (lo, hi) => c.completeAll lo hi m.table.entries

/-- `MemTableManager::get_range`: the context, which may be completed. -/
def MemTableManager.getRange (m : MemTableManager V) (c : RangeQueryCtx V) :
    Option (RangeQueryCtx V) :=
  (m.mutable.getRange c).bind fun c =>
    if c.isCompleted then some c else m.immutable.getRange c

/-- `SSTable::access_range`: the blocks that meet the uncompleted keys are read. -/
def SSTable.accessRange (t : SSTable V) (c : RangeQueryCtx V) : Option (RangeQueryCtx V) :=
  c.rangeUncompleted.map fun (lo, hi) =>
    (t.blocks.filter fun b => !(decide (b.last < lo) || decide (hi < b.first))).foldl
      (fun c b => c.completeAll lo hi b.records) c

/-- The loop of `TreeInner::do_read_range_tx` over the tables: whether the query was completed, and
the context. -/
def readRange : List (SSTable V) → RangeQueryCtx V → Option (Bool × RangeQueryCtx V)
  | [], c => some (false, c)
  | t :: ts, c =>
    c.rangeUncompleted.bind fun (lo, hi) =>
      if !t.overlapWith lo hi then readRange ts c
      else (t.accessRange c).bind fun c =>
        if c.isCompleted then some (true, c) else readRange ts c

/-! ### Slots -/

/-- `min` is the first open slot of a table, or its length. -/
structure Slots (table : List Bool) (min : ℕ) : Prop where
  min_le : min ≤ table.length
  below_min : ∀ i < min, table[i]? = some true
  at_min : min < table.length → table[min]? = some false

lemma slots_replicate (n : ℕ) : Slots (replicate n false) 0 where
  min_le := zero_le
  below_min i hi := absurd hi not_lt_zero
  at_min h := by
    rw [length_replicate] at h
    rw [getElem?_replicate, if_pos h]

lemma slots_firstZero {start : ℕ} {table : List Bool} (h : ∀ i < start, table[i]? = some true) :
    Slots table ((firstZero table start).getD table.length) := by
  cases hz : firstZero table start with
  | none =>
    refine ⟨le_refl _, fun i hi => ?_, fun hlt => absurd hlt (lt_irrefl _)⟩
    by_cases hs : i < start
    · exact h i hs
    · exact firstZero_eq_none hz i (not_lt.mp hs) hi
  | some j =>
    obtain ⟨-, hj, hzero, hbefore⟩ := firstZero_eq_some hz
    refine ⟨hj.le, fun i hi => ?_, fun _ => hzero⟩
    by_cases hs : i < start
    · exact h i hs
    · exact hbefore i (not_lt.mp hs) hi

/-- Closing a slot and moving on to the next open one. -/
lemma Slots.set {table : List Bool} {min nth : ℕ} (h : Slots table min) (hn : nth < table.length) :
    Slots (table.set nth true)
      (if min = nth then (firstZero (table.set nth true) nth).getD table.length else min) := by
  split
  · rename_i hmin
    have hlen : table.length = (table.set nth true).length := length_set.symm
    rw [hlen]
    refine slots_firstZero fun i hi => ?_
    rw [getElem?_set_true hn, if_neg hi.ne']
    exact h.below_min i (hmin ▸ hi)
  · rename_i hmin
    refine ⟨by rw [length_set]; exact h.min_le, fun i hi => ?_, fun hlt => ?_⟩
    · rw [getElem?_set_true hn]
      split
      · rfl
      · exact h.below_min i hi
    · rw [getElem?_set_true hn, if_neg (Ne.symm hmin)]
      exact h.at_min (by rwa [length_set] at hlt)

/-! ### What a query has found -/

namespace RangeQueryCtx

variable {c : RangeQueryCtx V}

/-- The value found for a key. -/
def found (c : RangeQueryCtx V) (key : ℕ) : Option V := c.res.lookup key

/-- The key is asked for. -/
def Asked (c : RangeQueryCtx V) (key : ℕ) : Prop := c.start ≤ key ∧ key < c.start + c.numValues

/-- The slots tell what is found, and the first open slot is known. -/
structure Inv (c : RangeQueryCtx V) : Prop where
  length : c.completeTable.length = c.numValues
  slots : Slots c.completeTable c.minUncompleted
  slot : ∀ i < c.numValues, c.completeTable[i]? = some (c.found (c.start + i)).isSome
  asked : ∀ r ∈ c.res, c.Asked r.1
  nodup : (c.res.map Prod.fst).Nodup

lemma inv_new (start numValues : ℕ) : (new start numValues : RangeQueryCtx V).Inv where
  length := length_replicate
  slots := slots_replicate numValues
  slot i hi := by
    change (replicate numValues false)[i]? = some (none : Option V).isSome
    rw [getElem?_replicate]
    exact if_pos hi
  asked r hr := by cases hr
  nodup := nodup_nil

lemma Inv.isSome_found_iff {key : ℕ} (h : c.Inv) (hk : c.Asked key) :
    (c.found key).isSome = true ↔ c.completeTable[key - c.start]? = some true := by
  obtain ⟨h1, h2⟩ := hk
  have hslot := h.slot (key - c.start) (by omega)
  rw [Nat.add_sub_cancel' h1] at hslot
  rw [hslot, some_inj]

/-- The query is completed when all keys are found. -/
lemma Inv.isCompleted_iff (h : c.Inv) :
    c.isCompleted = true ↔ ∀ key, c.Asked key → (c.found key).isSome = true := by
  rw [isCompleted, beq_iff_eq]
  constructor
  · intro heq key hk
    rw [h.isSome_found_iff hk]
    refine h.slots.below_min _ ?_
    obtain ⟨h1, h2⟩ := hk
    omega
  · intro hall
    by_contra hne
    have hlt : c.minUncompleted < c.completeTable.length :=
      lt_of_le_of_ne h.slots.min_le (h.length ▸ hne)
    have hk : c.Asked (c.start + c.minUncompleted) := by
      rw [h.length] at hlt
      exact ⟨by omega, by omega⟩
    have htrue := (h.isSome_found_iff hk).mp (hall _ hk)
    rw [Nat.add_sub_cancel_left, h.slots.at_min hlt] at htrue
    cases htrue

/-- The range in which the open keys of the context lie. -/
structure OpenIn (c : RangeQueryCtx V) (lo hi : ℕ) : Prop where
  asked : ∀ key, lo ≤ key → key ≤ hi → c.Asked key
  found : ∀ key, c.Asked key → ¬ (lo ≤ key ∧ key ≤ hi) → (c.found key).isSome = true

lemma OpenIn.mem {lo hi key : ℕ} (h : c.OpenIn lo hi) (hk : c.Asked key)
    (hnone : c.found key = none) : lo ≤ key ∧ key ≤ hi := by
  by_contra hout
  cases (congrArg isSome hnone).symm.trans (h.found key hk hout)

/-- The keys outside the uncompleted range are found. -/
lemma Inv.exists_rangeUncompleted (h : c.Inv) (hc : c.isCompleted = false) :
    ∃ lo hi, c.rangeUncompleted = some (lo, hi) ∧ c.OpenIn lo hi := by
  have hne : c.minUncompleted ≠ c.numValues := by simpa [isCompleted] using hc
  have hlt : c.minUncompleted < c.completeTable.length :=
    lt_of_le_of_ne h.slots.min_le (h.length ▸ hne)
  have hmin := h.slots.at_min hlt
  obtain ⟨j, hj, hjlen, hmj, hafter⟩ := lastZero_spec hmin
  rw [h.length] at hlt hjlen hafter
  refine ⟨c.start + c.minUncompleted, c.start + j, ?_, ?_, ?_⟩
  · rw [rangeUncompleted, hc, if_neg Bool.false_ne_true, hj]
    rfl
  · intro key h1 h2
    exact ⟨by omega, by omega⟩
  · intro key hk hout
    rw [h.isSome_found_iff hk]
    obtain ⟨h1, h2⟩ := hk
    by_cases hlo : key - c.start < c.minUncompleted
    · exact h.slots.below_min _ hlo
    · exact hafter _ (by omega) (by omega)

/-- The context `c'` comes from `c` by adding what `f` says about the keys that were not found. -/
structure Extends (c c' : RangeQueryCtx V) (f : ℕ → Option V) : Prop where
  inv : c'.Inv
  start_eq : c'.start = c.start
  numValues_eq : c'.numValues = c.numValues
  found_eq : ∀ key, c.Asked key → c'.found key = (c.found key).or (f key)

variable {f : ℕ → Option V} {c' : RangeQueryCtx V}

lemma Extends.asked_iff {key : ℕ} (h : c.Extends c' f) : c'.Asked key ↔ c.Asked key := by
  rw [Asked, Asked, h.start_eq, h.numValues_eq]

/-- What is said about the keys that were found does not matter. -/
lemma Extends.congr {g : ℕ → Option V} (h : c.Extends c' f)
    (hf : ∀ key, c.Asked key → c.found key = none → f key = g key) : c.Extends c' g :=
  { h with
    found_eq := fun key hk => by
      rw [h.found_eq key hk]
      cases hfound : c.found key with
      | none => rw [hf key hk hfound]
      | some v => rfl }

lemma Extends.refl (h : c.Inv)
    (hf : ∀ key, c.Asked key → c.found key = none → none = f key) : c.Extends c f :=
  Extends.congr (f := fun _ => none) ⟨h, rfl, rfl, fun _ _ => (or_none).symm⟩ hf

lemma Extends.trans {c₁ c₂ : RangeQueryCtx V} {g : ℕ → Option V} (h1 : c.Extends c₁ f)
    (h2 : c₁.Extends c₂ g) : c.Extends c₂ fun key => (f key).or (g key) where
  inv := h2.inv
  start_eq := h2.start_eq.trans h1.start_eq
  numValues_eq := h2.numValues_eq.trans h1.numValues_eq
  found_eq key hk := by
    rw [h2.found_eq key (h1.asked_iff.mpr hk), h1.found_eq key hk, Option.or_assoc]

/-- Completing a key adds its value if none is found yet. -/
lemma Inv.complete {key : ℕ} (h : c.Inv) (hk : c.Asked key) (value : V) :
    c.Extends (c.complete key value) fun k => if k = key then some value else none := by
  have hsome := h.isSome_found_iff hk
  rw [RangeQueryCtx.complete]
  split
  · rename_i hdone
    refine Extends.refl h fun k _ hnone => ?_
    rw [if_neg]
    rintro rfl
    cases (congrArg isSome hnone).symm.trans (hsome.mpr hdone)
  · rename_i hopen
    have hnone : c.found key = none := by
      rw [← not_isSome_iff_eq_none, hsome]
      exact hopen
    have hnth : key - c.start < c.completeTable.length := by
      rw [h.length]
      have h1 := hk.1
      have h2 := hk.2
      omega
    have hfound : ∀ k, lookup k (c.res ++ [(key, value)]) =
        (c.found k).or (if k = key then some value else none) := by
      intro k
      rw [lookup_append, lookup_cons]
      by_cases heq : k = key
      · simp [heq, found]
      · rw [if_neg heq, beq_eq_false_iff_ne.mpr heq]
        rfl
    refine ⟨⟨length_set.trans h.length, ?_, fun i hi => ?_, fun r hr => ?_, ?_⟩, rfl, rfl,
      fun k _ => hfound k⟩
    · have hset := h.slots.set hnth
      rw [h.length] at hset
      exact hset
    · change (c.completeTable.set (key - c.start) true)[i]? =
        some (lookup (c.start + i) (c.res ++ [(key, value)])).isSome
      have h1 := hk.1
      rw [getElem?_set_true hnth, hfound]
      by_cases heq : key - c.start = i
      · rw [if_pos heq, if_pos (by omega)]
        simp
      · rw [if_neg heq, if_neg (by omega), or_none]
        exact h.slot i hi
    · rcases mem_append.mp hr with hr | hr
      · exact h.asked r hr
      · rw [mem_singleton.mp hr]
        exact hk
    · change ((c.res ++ [(key, value)]).map Prod.fst).Nodup
      rw [map_append, nodup_append]
      refine ⟨h.nodup, nodup_singleton _, fun a ha b hb => ?_⟩
      obtain ⟨r, hr, rfl⟩ := mem_map.mp ha
      rw [mem_singleton.mp hb]
      exact lookup_eq_none_iff_forall.mp hnone r hr

lemma Inv.foldl_complete (h : c.Inv) (rs : List (Record V)) (hrs : ∀ r ∈ rs, c.Asked r.1) :
    c.Extends (rs.foldl (fun c r => c.complete r.1 r.2.get) c)
      fun key => (rs.lookup key).map ValueEx.get := by
  induction rs generalizing c with
  | nil => exact Extends.refl h fun _ _ _ => rfl
  | cons r rs ih =>
    obtain ⟨hr, hrs⟩ := forall_mem_cons.mp hrs
    have hext := h.complete hr r.2.get
    refine (hext.trans (ih hext.inv fun x hx => hext.asked_iff.mpr (hrs x hx))).congr fun key _ _ =>
      ?_
    rw [lookup_cons]
    by_cases heq : key = r.1
    · simp [heq]
    · rw [if_neg heq, beq_eq_false_iff_ne.mpr heq, none_or]

lemma lookup_filter_fst (rs : List (Record V)) (p : ℕ → Bool) (key : ℕ) :
    (rs.filter fun r => p r.1).lookup key = if p key then rs.lookup key else none := by
  induction rs with
  | nil => simp
  | cons r rs ih =>
    obtain ⟨k, v⟩ := r
    rw [filter_cons, lookup_cons]
    by_cases heq : key = k
    · subst heq
      cases hp : p key <;> simp [hp, ih]
    · cases p k <;> simp [lookup_cons, beq_eq_false_iff_ne.mpr heq, ih]

/-- Completing the keys of a range in which all open keys lie. -/
lemma Inv.completeAll {lo hi : ℕ} (h : c.Inv) (ho : c.OpenIn lo hi) (rs : List (Record V)) :
    c.Extends (c.completeAll lo hi rs) fun key => (rs.lookup key).map ValueEx.get := by
  refine (h.foldl_complete (rs.filter fun r => lo ≤ r.1 && decide (r.1 ≤ hi)) ?_).congr ?_
  · intro r hr
    have hr' := (mem_filter.mp hr).2
    rw [and_eq_true, decide_eq_true_eq, decide_eq_true_eq] at hr'
    exact ho.asked r.1 hr'.1 hr'.2
  · intro key hk hnone
    rw [lookup_filter_fst _ fun key => lo ≤ key && decide (key ≤ hi), if_pos]
    simpa using ho.mem hk hnone

lemma OpenIn.extends {lo hi : ℕ} (h : c.OpenIn lo hi) (hext : c.Extends c' f) :
    c'.OpenIn lo hi where
  asked key h1 h2 := hext.asked_iff.mpr (h.asked key h1 h2)
  found key hk hout := by
    have hk' := hext.asked_iff.mp hk
    obtain ⟨v, hv⟩ := isSome_iff_exists.mp (h.found key hk' hout)
    rw [hext.found_eq key hk', hv]
    rfl

/-- A completed context is not changed by further tables. -/
lemma Extends.of_isCompleted (h : c.Extends c' f) (hc : c'.isCompleted = true) (g : ℕ → Option V) :
    c.Extends c' fun key => (f key).or (g key) := by
  refine h.congr fun key hk hnone => ?_
  have hsome := (h.inv.isCompleted_iff.mp hc) key (h.asked_iff.mpr hk)
  rw [h.found_eq key hk, hnone, none_or] at hsome
  obtain ⟨v, hv⟩ := isSome_iff_exists.mp hsome
  rw [hv]
  rfl

/-- The blocks of a table complete what they have. -/
lemma Inv.foldl_completeAll {lo hi : ℕ} (h : c.Inv) (ho : c.OpenIn lo hi)
    (blocks : List (RecordBlock V)) :
    c.Extends (blocks.foldl (fun c b => c.completeAll lo hi b.records) c)
      fun key => ((blocks.flatMap RecordBlock.records).lookup key).map ValueEx.get := by
  induction blocks generalizing c with
  | nil => exact Extends.refl h fun _ _ _ => rfl
  | cons b blocks ih =>
    have hb := h.completeAll ho b.records
    refine (hb.trans (ih hb.inv (ho.extends hb))).congr fun key _ _ => ?_
    rw [flatMap_cons, lookup_append, map_or]

lemma lookup_filter_blocks {lo key hi : ℕ} {blocks : List (RecordBlock V)}
    (hasc : ∀ b ∈ blocks, Ascending b.records) (h1 : lo ≤ key) (h2 : key ≤ hi) :
    ((blocks.filter fun b => !(decide (b.last < lo) || decide (hi < b.first))).flatMap
      RecordBlock.records).lookup key = (blocks.flatMap RecordBlock.records).lookup key := by
  induction blocks with
  | nil => rfl
  | cons b blocks ih =>
    obtain ⟨hb, hasc⟩ := forall_mem_cons.mp hasc
    rw [filter_cons, flatMap_cons, lookup_append]
    split
    · rw [flatMap_cons, lookup_append, ih hasc]
    · rename_i hout
      have hout' : b.last < lo ∨ hi < b.first := by
        rw [not_eq_true, not_eq_false', or_eq_true, decide_eq_true_eq,
          decide_eq_true_eq] at hout
        exact hout
      have hnone : b.records.lookup key = none := by
        rw [lookup_eq_none_iff_forall]
        rintro r hr rfl
        have hfirst := hb.head_le b.nonempty hr
        have hlast := hb.le_getLast b.nonempty hr
        change b.first ≤ r.1 at hfirst
        change r.1 ≤ b.last at hlast
        omega
      rw [hnone, none_or, ih hasc]

end RangeQueryCtx

open RangeQueryCtx

variable {c : RangeQueryCtx V}

/-- A memory table adds its values to a query that is not completed. -/
lemma MemTable.getRange_spec (m : MemTable V) (h : c.Inv) (hc : c.isCompleted = false) :
    ∃ c', m.getRange c = some c' ∧ c.Extends c' m.get := by
  obtain ⟨lo, hi, hrange, ho⟩ := h.exists_rangeUncompleted hc
  refine ⟨c.completeAll lo hi m.table.entries, by rw [getRange, hrange]; rfl, ?_⟩
  refine (h.completeAll ho m.table.entries).congr fun key _ _ => ?_
  rw [MemTable.get, lookup_entries]

/-- The memory tables add their values, the newer ones first. -/
lemma MemTableManager.getRange_spec (m : MemTableManager V) (h : c.Inv)
    (hc : c.isCompleted = false) : ∃ c', m.getRange c = some c' ∧ c.Extends c' m.get := by
  obtain ⟨c₁, h1, hext1⟩ := m.mutable.getRange_spec h hc
  rw [getRange, h1, bind_some]
  cases hc1 : c₁.isCompleted with
  | true => exact ⟨c₁, rfl, hext1.of_isCompleted hc1 m.immutable.get⟩
  | false =>
    obtain ⟨c₂, h2, hext2⟩ := m.immutable.getRange_spec hext1.inv hc1
    exact ⟨c₂, h2, hext1.trans hext2⟩

lemma SSTable.accessRange_spec {t : SSTable V} (ht : Ascending t.records) (h : c.Inv)
    (hc : c.isCompleted = false) : ∃ c', t.accessRange c = some c' ∧ c.Extends c' t.search := by
  obtain ⟨lo, hi, hrange, ho⟩ := h.exists_rangeUncompleted hc
  refine ⟨_, by rw [accessRange, hrange]; rfl, ?_⟩
  refine (h.foldl_completeAll ho _).congr fun key hk hnone => ?_
  obtain ⟨hlo, hhi⟩ := ho.mem hk hnone
  rw [lookup_filter_blocks (fun b hb => (pairwise_flatMap.mp ht).1 b hb) hlo hhi,
    SSTable.search_eq_lookup ht, SSTable.records]

/-- The sorted tables add their values, the newer ones first. -/
lemma readRange_spec {ts : List (SSTable V)} (hts : ∀ t ∈ ts, Ascending t.records) (h : c.Inv)
    (hc : c.isCompleted = false) :
    ∃ c', readRange ts c = some (c'.isCompleted, c') ∧
      c.Extends c' fun key => ts.findSome? (·.search key) := by
  induction ts generalizing c with
  | nil => exact ⟨c, by rw [readRange, hc], Extends.refl h fun _ _ _ => rfl⟩
  | cons t ts ih =>
    obtain ⟨ht, hts⟩ := forall_mem_cons.mp hts
    obtain ⟨lo, hi, hrange, ho⟩ := h.exists_rangeUncompleted hc
    have hcons : ∀ key, (t :: ts).findSome? (·.search key) =
        (t.search key).or (ts.findSome? (·.search key)) := by
      intro key
      rw [findSome?_cons]
      cases t.search key <;> rfl
    simp only [hcons]
    rw [readRange, hrange, bind_some]
    dsimp only
    split
    · -- no open key is in the range of the table
      rename_i hout
      have hapart : t.stop < lo ∨ hi < t.start := by
        simpa [SSTable.overlapWith] using hout
      have hskip : c.Extends c t.search := by
        refine Extends.refl h fun key hk hnone => ?_
        rw [SSTable.search, if_neg]
        intro hin
        have hin' : t.start ≤ key ∧ key ≤ t.stop := by
          simpa [SSTable.isWithinRange] using hin
        have := ho.mem hk hnone
        omega
      obtain ⟨c', hc', hext⟩ := ih hts h hc
      exact ⟨c', hc', hskip.trans hext⟩
    · obtain ⟨c₁, h1, hext1⟩ := SSTable.accessRange_spec ht h hc
      rw [h1, bind_some]
      cases hc1 : c₁.isCompleted with
      | true => exact ⟨c₁, by rw [if_pos rfl, hc1], hext1.of_isCompleted hc1 _⟩
      | false =>
        obtain ⟨c₂, h2, hext2⟩ := ih hts hext1.inv hc1
        exact ⟨c₂, h2, hext1.trans hext2⟩

end Asterinas.Mlsdisk
