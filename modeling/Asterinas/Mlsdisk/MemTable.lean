import Asterinas.Framework.OrderedMap

/-!
# Memory tables

The in-memory tables of the transactional LSM tree (`4-lsm/mem_table.rs`).  A key has at most one
synced and one unsynced value at a time; a table is tagged with the ID of the last sync it has seen.

The keys of the tree are logical block addresses: the trait that they implement asks for an order,
for the addition of a number and for differences, and they are natural numbers here.  What `put`
does with a key whose successor does not fit into a word is in `putNext` and `putWord`.
-/

namespace Asterinas.Mlsdisk

open Framework OrderedMap List Option

/-- `ValueEx`: a value with its state of synchronisation. -/
inductive ValueEx (V : Type)
  | synced (v : V)
  | unsynced (v : V)
  | syncedAndUnsynced (sv usv : V)
  deriving DecidableEq

namespace ValueEx

variable {V : Type}

/-- `ValueEx::get`: the most recent value. -/
def get : ValueEx V → V
  | synced v => v
  | unsynced v => v
  | syncedAndUnsynced _ v => v

/-- `ValueEx::put`: the new value, and the value that it replaces. -/
def put (value : V) : ValueEx V → ValueEx V × Option V
  | synced v => (syncedAndUnsynced v value, none)
  | unsynced v => (unsynced value, some v)
  | syncedAndUnsynced sv usv => (syncedAndUnsynced sv value, some usv)

/-- `ValueEx::contains_unsynced`: there is a value that no sync covers. -/
def containsUnsynced : ValueEx V → Bool
  | synced _ => false
  | unsynced _ => true
  | syncedAndUnsynced _ _ => true

/-- `ValueEx::sync`: the value after a sync, and the value that it replaces.  It is only called on
values with an unsynced part. -/
def sync : ValueEx V → ValueEx V × Option V
  | synced v => (synced v, none)
  | unsynced v => (synced v, none)
  | syncedAndUnsynced sv usv => (synced usv, some sv)

/-- The synced value, if there is one. -/
def syncedPart : ValueEx V → Option V
  | synced v => some v
  | unsynced _ => none
  | syncedAndUnsynced sv _ => some sv

/-- All values, each of which is a version of the record. -/
def versions : ValueEx V → List V
  | synced v => [v]
  | unsynced v => [v]
  | syncedAndUnsynced sv usv => [sv, usv]

/-- `a` may be newer than `b` for the same key: once a version is synced, all older versions
are. -/
def Newer (a b : ValueEx V) : Prop := a.syncedPart.isSome → b.containsUnsynced = false

@[simp] lemma get_put (value : V) (v : ValueEx V) : (v.put value).1.get = value := by
  cases v <;> rfl

@[simp] lemma syncedPart_put (value : V) (v : ValueEx V) :
    (v.put value).1.syncedPart = v.syncedPart := by
  cases v <;> rfl

@[simp] lemma get_sync (v : ValueEx V) : v.sync.1.get = v.get := by
  cases v <;> rfl

@[simp] lemma containsUnsynced_sync (v : ValueEx V) : v.sync.1.containsUnsynced = false := by
  cases v <;> rfl

lemma sync_of_not_containsUnsynced {v : ValueEx V} (h : v.containsUnsynced = false) :
    v.sync = (v, none) := by
  cases v <;> first | rfl | cases h

end ValueEx

/-- `MemTable`: the values by their keys, with the number of them and the ID of the last sync. -/
structure MemTable (V : Type) where
  table : OrderedMap ℕ (ValueEx V)
  size : ℕ
  cap : ℕ
  syncId : ℕ
  /-- Where unsynced values can be, from the first sync on. -/
  unsyncedRange : Option (ℕ × ℕ)

namespace MemTable

variable {V : Type}

/-- `MemTable::new`: no values. -/
def new (cap syncId : ℕ) : MemTable V := ⟨empty, 0, cap, syncId, none⟩

/-- `MemTable::get`: the newest value of a key. -/
def get (m : MemTable V) (key : ℕ) : Option V := (m.table.get? key).map ValueEx.get

/-- How `MemTable::put` extends the range of the unsynced keys; `next` is what `key + 1` is in the
type of the keys. -/
def extendRange (next key : ℕ) : ℕ × ℕ → ℕ × ℕ
  | (start, stop) => if stop ≤ start then (key, next) else (min key start, max next stop)

section

variable (m : MemTable V)

/-- `MemTable::put`: the table, and the value that was dropped. -/
def putNext (next key : ℕ) (value : V) : MemTable V × Option V :=
  let (valueEx, dropped, size) := match m.table.get? key with
    | some old =>
      let (valueEx, dropped) := old.put value
      (valueEx, dropped, if dropped.isSome then m.size else m.size + 1)
    | none => (.unsynced value, none, m.size + 1)
  ({ m with
      table := m.table.insert key valueEx
      size
      unsyncedRange := m.unsyncedRange.map (extendRange next key) }, dropped)

/-- `MemTable::put` for keys whose successors are keys. -/
def put (key : ℕ) (value : V) : MemTable V × Option V := m.putNext (key + 1) key value

/-- `MemTable::put` for keys that are words, whose addition wraps around. -/
def putWord (key : UInt64) (value : V) : MemTable V × Option V :=
  m.putNext (key + 1).toNat key.toNat value

/-- The key is looked at when the table is synced. -/
def inUnsyncedRange (key : ℕ) : Bool :=
  match m.unsyncedRange with
  | none => true
  | some (start, stop) => start ≤ key && decide (key < stop)

/-- `MemTable::sync`: the table, and the values that were dropped with their keys. -/
def sync (syncId : ℕ) : MemTable V × List (ℕ × V) :=
  if m.syncId = syncId then (m, [])
  else
    let dropped := m.table.entries.filterMap fun (key, v) =>
      if m.inUnsyncedRange key && v.containsUnsynced then v.sync.2.map (key, ·) else none
    ({ m with
        table := m.table.mapValues fun key v =>
          if m.inUnsyncedRange key && v.containsUnsynced then v.sync.1 else v
        size := m.size - dropped.length
        syncId
        unsyncedRange := some (m.unsyncedRange.getD (0, 0)) }, dropped)

/-- `MemTable::at_capacity`: no further value fits. -/
def atCapacity : Bool := m.cap ≤ m.size

/-- `MemTable::clear`: the values go, while the capacity and the sync ID stay. -/
def clear : MemTable V :=
  { m with table := empty, size := 0, unsyncedRange := none }

end

end MemTable

/-- `MemTableManager`: the table that is written and the one that is compacted. -/
structure MemTableManager (V : Type) where
  mutable : MemTable V
  immutable : MemTable V
  isFull : Bool

namespace MemTableManager

variable {V : Type}

/-- `MemTableManager::new`: two empty tables. -/
def new (syncId capacity : ℕ) : MemTableManager V :=
  ⟨MemTable.new capacity syncId, MemTable.new capacity syncId, false⟩

section

variable (m : MemTableManager V)

/-- `MemTableManager::get`: the newest value of a key, which the mutable table has if it has any. -/
def get (key : ℕ) : Option V :=
  (m.mutable.get key).or (m.immutable.get key)

/-- `MemTableManager::put`, which waits while the mutable table is full. -/
def put (key : ℕ) (value : V) : MemTableManager V × Option V :=
  let (mutable, dropped) := m.mutable.put key value
  ({ m with mutable, isFull := mutable.atCapacity }, dropped)

/-- `MemTableManager::sync`: the values of the mutable table become synced. -/
def sync (syncId : ℕ) : MemTableManager V × List (ℕ × V) :=
  let (mutable, dropped) := m.mutable.sync syncId
  ({ m with mutable }, dropped)

/-- `MemTableManager::switch`.  `none` is the assertion that the table is at its capacity. -/
def switch : Option (MemTableManager V) :=
  if m.mutable.atCapacity then
    some ⟨(m.immutable.clear.sync m.mutable.syncId).1, m.mutable, false⟩
  else none

end

end MemTableManager

/-! ### What the operations on a table do -/

namespace MemTable

variable {V : Type} {m : MemTable V}

/-- The invariant of a memory table: the unsynced values lie in the range that a sync looks at, and
a table with a positive size is not empty. -/
structure Inv (m : MemTable V) : Prop where
  range : ∀ key v, m.table.get? key = some v → v.containsUnsynced = true →
    m.inUnsyncedRange key = true
  size : m.table.entries = [] → m.size = 0

/-- The value of the key that is put. -/
def putValue (m : MemTable V) (key : ℕ) (value : V) : ValueEx V :=
  match m.table.get? key with
  | some old => (old.put value).1
  | none => .unsynced value

section

variable (key : ℕ) (value : V)

lemma putNext_table (next : ℕ) :
    (m.putNext next key value).1.table = m.table.insert key (m.putValue key value) := by
  rw [putNext, putValue]
  cases m.table.get? key <;> rfl

lemma put_table : (m.put key value).1.table = m.table.insert key (m.putValue key value) :=
  putNext_table key value _

@[simp] lemma put_cap : (m.put key value).1.cap = m.cap := rfl

lemma put_unsyncedRange :
    (m.put key value).1.unsyncedRange = m.unsyncedRange.map (extendRange (key + 1) key) := rfl

end

/-- Putting a new key adds one unsynced record at its place. -/
lemma put_between {key : ℕ} (below above : List (ℕ × ValueEx V))
    (h : m.table.entries = below ++ above) (hb : ∀ e ∈ below, e.1 < key)
    (ha : ∀ e ∈ above, key < e.1) (value : V) :
    (m.put key value).1.table.entries = below ++ (key, .unsynced value) :: above ∧
      (m.put key value).1.size = m.size + 1 := by
  have hnone : m.table.get? key = none := by
    refine eq_none_iff_forall_ne_some.mpr fun v hv => ?_
    rcases mem_append.mp (h ▸ get?_eq_some.mp hv) with hmem | hmem
    · exact lt_irrefl _ (hb _ hmem)
    · exact lt_irrefl _ (ha _ hmem)
  constructor
  · have hbelow : (below ++ above).filter (·.1 < key) = below := by
      rw [filter_append, filter_eq_self.mpr fun e he => decide_eq_true (hb e he),
        filter_eq_nil_iff.mpr fun e he => by simpa using (ha e he).le, append_nil]
    have habove : (below ++ above).filter (key < ·.1) = above := by
      rw [filter_append, filter_eq_self.mpr fun e he => decide_eq_true (ha e he),
        filter_eq_nil_iff.mpr fun e he => by simpa using (hb e he).le, nil_append]
    rw [put_table, putValue, hnone]
    change m.table.entries.filter _ ++ _ :: m.table.entries.filter _ = _
    rw [h, hbelow, habove]
  · rw [put, putNext, hnone]

lemma inUnsyncedRange_put {k : ℕ} (key : ℕ) (value : V) (h : k = key ∨ m.inUnsyncedRange k = true) :
    (m.put key value).1.inUnsyncedRange k = true := by
  rw [inUnsyncedRange, put_unsyncedRange]
  rw [inUnsyncedRange] at h
  cases hr : m.unsyncedRange with
  | none => rfl
  | some r =>
    obtain ⟨start, stop⟩ := r
    rw [hr] at h
    simp only [map_some, extendRange, Bool.and_eq_true, decide_eq_true_eq] at h ⊢
    split <;> dsimp only <;> omega

lemma Inv.put (h : m.Inv) (key : ℕ) (value : V) : (m.put key value).1.Inv where
  range k v hv hun := by
    refine inUnsyncedRange_put key value ?_
    rw [put_table, get?_insert] at hv
    by_cases hk : k = key
    · exact .inl hk
    · rw [if_neg hk] at hv
      exact .inr (h.range k v hv hun)
  size hnil := by
    rw [put_table] at hnil
    simp [OrderedMap.insert] at hnil

/-- The table after a sync: the values that it looks at are synced. -/
lemma sync_table (h : m.Inv) {syncId : ℕ} (hne : m.syncId ≠ syncId) :
    (m.sync syncId).1.table = m.table.mapValues fun _ v => v.sync.1 := by
  rw [sync, if_neg hne]
  refine OrderedMap.ext (map_congr_left fun e he => ?_)
  by_cases hun : e.2.containsUnsynced = true
  · have hin := h.range e.1 e.2 (get?_eq_some.mpr he) hun
    simp only [hin, hun, Bool.and_self, if_true]
  · have hun : e.2.containsUnsynced = false := Bool.not_eq_true _ ▸ hun
    simp only [hun, Bool.and_false, ValueEx.sync_of_not_containsUnsynced hun]
    simp

@[simp] lemma sync_syncId (syncId : ℕ) : (m.sync syncId).1.syncId = syncId := by
  rw [sync]
  split
  · assumption
  · rfl

@[simp] lemma sync_cap (syncId : ℕ) : (m.sync syncId).1.cap = m.cap := by
  rw [sync]
  split <;> rfl

lemma Inv.sync (h : m.Inv) (syncId : ℕ) : (m.sync syncId).1.Inv := by
  by_cases heq : m.syncId = syncId
  · rw [MemTable.sync, if_pos heq]
    exact h
  · refine ⟨fun k v hv hun => ?_, fun hnil => ?_⟩
    · -- no value is unsynced
      rw [sync_table h heq, get?_mapValues] at hv
      obtain ⟨w, -, rfl⟩ := map_eq_some_iff.mp hv
      rw [ValueEx.containsUnsynced_sync] at hun
      cases hun
    · rw [sync_table h heq] at hnil
      have hnil : m.table.entries = [] := by simpa [mapValues] using hnil
      simp [MemTable.sync, heq, h.size hnil]

lemma clear_inv (m : MemTable V) : m.clear.Inv := by
  refine ⟨fun k v hv => ?_, fun _ => rfl⟩
  simp [clear] at hv

lemma entries_sync_clear (m : MemTable V) (syncId : ℕ) :
    (m.clear.sync syncId).1.table.entries = [] := by
  rw [sync]
  split <;> rfl

lemma size_sync_clear (m : MemTable V) (syncId : ℕ) : (m.clear.sync syncId).1.size = 0 := by
  rw [sync]
  split <;> rfl

end MemTable

end Asterinas.Mlsdisk
