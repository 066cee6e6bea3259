import Asterinas.Mlsdisk.SsTable

/-!
# The versions in a memory table

Over any calls of `put` and `sync`, a memory table has the latest value of every key, and every
value that was put is stored or has been reported to `on_drop_record`, once.
-/

namespace Asterinas.Mlsdisk

open Framework List OrderedMap

variable {V : Type}

/-- A call on a table, whose keys are words. -/
inductive TableCall (V : Type)
  | put (key : UInt64) (value : V)
  | sync (syncId : ℕ)

/-- The record that a call puts. -/
def TableCall.record? : TableCall V → Option (ℕ × V)
  | .put key value => some (key.toNat, value)
  | .sync _ => none

/-- The key that is put has a successor among the words. -/
def TableCall.Bounded : TableCall V → Prop
  | .put key _ => key.toNat + 1 < UInt64.size
  | .sync _ => True

instance (c : TableCall V) : Decidable c.Bounded :=
  match c with
  | .put key _ => inferInstanceAs (Decidable (key.toNat + 1 < UInt64.size))
  | .sync _ => inferInstanceAs (Decidable True)

namespace ValueEx

lemma put_versions (value : V) (v : ValueEx V) :
    (value :: v.versions).Perm ((v.put value).1.versions ++ (v.put value).2.toList) := by
  cases v with
  | synced v => exact .swap _ _ _
  | unsynced v => exact .refl _
  | syncedAndUnsynced sv usv => exact .swap _ _ _

lemma sync_versions (v : ValueEx V) : v.versions.Perm (v.sync.1.versions ++ v.sync.2.toList) := by
  cases v with
  | synced v | unsynced v => exact .refl _
  | syncedAndUnsynced sv usv => exact .swap _ _ _

end ValueEx

namespace MemTable

/-- A call: the table, and the records that `on_drop_record` is called with.  `none` is the panic of
`BTreeMap::range_mut` on a range that ends before it starts. -/
def call (m : MemTable V) : TableCall V → Option (MemTable V × List (ℕ × V))
  | .put key value =>
    some ((m.putWord key value).1, (m.putWord key value).2.toList.map (key.toNat, ·))
  | .sync syncId =>
    if m.syncId ≠ syncId ∧ m.unsyncedRange.any (fun range => range.2 < range.1) then none
    else some (m.sync syncId)

/-- The calls in their order: the table, and all records that were dropped. -/
def run (m : MemTable V) : List (TableCall V) → Option (MemTable V × List (ℕ × V))
  | [] => some (m, [])
  | c :: rest => do
    let (m, dropped) ← m.call c
    let (m, dropped') ← m.run rest
    return (m, dropped ++ dropped')

/-! ### One call -/

/-- What is split off goes behind what follows. -/
lemma perm_append_append {xs ys ds : List (ℕ × V)} (h : xs.Perm (ys ++ ds)) (es : List (ℕ × V)) :
    (xs ++ es).Perm (ys ++ (es ++ ds)) := by
  refine (h.append_right es).trans ?_
  rw [append_assoc]
  exact perm_append_comm.append_left ys

variable {m : MemTable V}

/-- A put stores one more version, or replaces the one that it drops. -/
lemma put_versions (key : ℕ) (value : V) :
    ((key, value) :: versionsOf m.table.entries).Perm
        (versionsOf (m.put key value).1.table.entries ++ (m.put key value).2.toList.map (key, ·)) ∧
      m.size + 1 = (m.put key value).1.size + (m.put key value).2.toList.length := by
  have hnew := (m.table.entries_insert_perm_erase key (m.putValue key value)).flatMap_right
    Record.versions
  rw [put_table, put, putNext]
  refine ⟨.trans ?_ (hnew.symm.append_right _), ?_⟩
  · rw [putValue]
    cases hold : m.table.get? key with
    | none =>
      have hself : m.table.erase key = m.table := erase_eq_self fun e he heq => by
        rw [← heq, get?_eq_some.mpr he] at hold
        cases hold
      rw [hself, Option.toList_none, map_nil, append_nil]
      rfl
    | some old =>
      have herase := (entries_erase_perm (get?_eq_some.mp hold)).flatMap_right Record.versions
      have hvalue := (old.put_versions value).map (key, ·)
      rw [map_append] at hvalue
      refine (herase.cons _).trans ?_
      have hsplit := perm_append_append hvalue ((m.table.erase key).entries.flatMap Record.versions)
      rwa [← append_assoc] at hsplit
  · cases m.table.get? key with
    | none => rfl
    | some old => cases old <;> rfl

/-- A sync keeps every version that it does not drop. -/
lemma Inv.sync_versions (h : m.Inv) (syncId : ℕ) :
    (versionsOf m.table.entries).Perm
      (versionsOf (m.sync syncId).1.table.entries ++ (m.sync syncId).2) := by
  by_cases heq : m.syncId = syncId
  · rw [MemTable.sync, if_pos heq, append_nil]
  · have hdropped : (m.sync syncId).2 =
        m.table.entries.flatMap fun e => e.2.sync.2.toList.map (e.1, ·) := by
      rw [MemTable.sync, if_neg heq]
      refine (filterMap_eq_flatMap_toList _ _).trans (flatMap_congr ?_)
      rintro ⟨key, v⟩ he
      cases hun : v.containsUnsynced with
      | true => simp [h.range key v (get?_eq_some.mpr he) hun, hun, Option.toList_map]
      | false => simp [hun, ValueEx.sync_of_not_containsUnsynced hun]
    rw [sync_table h heq, hdropped, versionsOf, versionsOf, mapValues, flatMap_map]
    refine .trans (.flatMap_left _ fun e _ => ?_) (flatMap_append_perm _ _ _).symm
    have hvalue := e.2.sync_versions.map (e.1, ·)
    rwa [map_append] at hvalue

/-! ### All calls -/

/-- The table has the versions of the records that were put, from newer to older, but for those that
were dropped. -/
structure Holds (m : MemTable V) (records dropped : List (ℕ × V)) : Prop extends m.Inv where
  latest : ∀ key, m.get key = records.lookup key
  size_eq : m.size = (versionsOf m.table.entries).length
  versions : records.Perm (versionsOf m.table.entries ++ dropped)
  ordered : ∀ range ∈ m.unsyncedRange, range.1 ≤ range.2

section

variable {records dropped : List (ℕ × V)} (h : m.Holds records dropped)
include h

lemma Holds.put (key : ℕ) (value : V) :
    (m.put key value).1.Holds ((key, value) :: records)
      (dropped ++ (m.put key value).2.toList.map (key, ·)) where
  toInv := h.toInv.put key value
  latest k := by
    rw [get, put_table, get?_insert, lookup_cons, ← h.latest, get]
    by_cases hk : k = key
    · rw [if_pos hk, beq_iff_eq.mpr hk, putValue]
      cases m.table.get? key with
      | none => rfl
      | some old => exact congrArg some (old.get_put value)
    · rw [if_neg hk, beq_eq_false_iff_ne.mpr hk]
  size_eq := by
    obtain ⟨hperm, hsize⟩ := m.put_versions key value
    have hlen := hperm.length_eq
    have heq := h.size_eq
    simp only [length_cons, length_append, length_map] at hlen
    omega
  versions := (h.versions.cons _).trans (perm_append_append (m.put_versions key value).1 _)
  ordered := by
    rw [put_unsyncedRange]
    intro range hrange
    obtain ⟨⟨start, stop⟩, hold, rfl⟩ := Option.map_eq_some_iff.mp hrange
    have hle := h.ordered _ hold
    unfold extendRange
    dsimp only at hle ⊢
    split <;> dsimp only <;> omega

lemma Holds.sync (syncId : ℕ) :
    (m.sync syncId).1.Holds records (dropped ++ (m.sync syncId).2) where
  toInv := h.toInv.sync syncId
  latest k := by
    rw [← h.latest]
    by_cases heq : m.syncId = syncId
    · rw [MemTable.sync, if_pos heq]
    · simp [get, sync_table h.toInv heq, Option.map_map, Function.comp_def]
  size_eq := by
    have hlen := (h.sync_versions syncId).length_eq
    rw [length_append, ← h.size_eq] at hlen
    have hsize : (m.sync syncId).1.size = m.size - (m.sync syncId).2.length := by
      rw [MemTable.sync]
      split <;> rfl
    omega
  versions := h.versions.trans (perm_append_append (h.sync_versions syncId) _)
  ordered := by
    rw [MemTable.sync]
    split
    · exact h.ordered
    · rintro _ ⟨⟩
      cases hrange : m.unsyncedRange with
      | none => rfl
      | some range => exact h.ordered range hrange

/-- A sync does not panic. -/
lemma Holds.call_sync (syncId : ℕ) : m.call (.sync syncId) = some (m.sync syncId) := by
  refine if_neg fun hif => ?_
  have hpanic := hif.2
  cases hrange : m.unsyncedRange with
  | none => simp [hrange] at hpanic
  | some range =>
    have hle := h.ordered range hrange
    simp only [hrange, Option.any_some, decide_eq_true_eq] at hpanic
    omega

lemma Holds.call {c : TableCall V} (hc : c.Bounded) :
    ∃ m' dropped', m.call c = some (m', dropped') ∧ m'.Holds (c.record?.toList ++ records)
    (dropped ++ dropped') := by
  cases c with
  | put key value =>
    have hnext : (key + 1).toNat = key.toNat + 1 := by
      rw [UInt64.toNat_add]
      exact Nat.mod_eq_of_lt hc
    have hput : m.putWord key value = m.put key.toNat value := by rw [putWord, hnext, MemTable.put]
    refine ⟨_, _, rfl, ?_⟩
    rw [hput]
    exact h.put key.toNat value
  | sync syncId => exact ⟨_, _, h.call_sync syncId, h.sync syncId⟩

lemma Holds.run {calls : List (TableCall V)} (hcalls : ∀ c ∈ calls, c.Bounded) :
    ∃ m' dropped', m.run calls = some (m', dropped') ∧
      m'.Holds ((calls.filterMap TableCall.record?).reverse ++ records) (dropped ++ dropped') := by
  induction calls generalizing m records dropped with
  | nil => exact ⟨m, [], rfl, by simpa using h⟩
  | cons c rest ih =>
    obtain ⟨hc, hrest⟩ := forall_mem_cons.mp hcalls
    obtain ⟨m₁, dropped₁, hcall, h₁⟩ := h.call hc
    obtain ⟨m₂, dropped₂, hrun, h₂⟩ := ih h₁ hrest
    refine ⟨m₂, dropped₁ ++ dropped₂, by simp [MemTable.run, hcall, hrun], ?_⟩
    have hrecords : (filterMap TableCall.record? (c :: rest)).reverse =
        (filterMap TableCall.record? rest).reverse ++ c.record?.toList := by
      cases c <;> simp [filterMap_cons, TableCall.record?]
    rwa [hrecords, append_assoc, ← append_assoc dropped]

end

end MemTable

end Asterinas.Mlsdisk
