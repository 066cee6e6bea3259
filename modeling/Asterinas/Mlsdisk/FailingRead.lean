import Asterinas.Framework.LruCache
import Asterinas.Mlsdisk.Recovery

/-!
# Reads of tables that fail

The point query (`SSTable::access_point`, `TreeInner::do_read_tx`) over a log store that may fail.
The loop of `do_read_tx` takes the next table whenever a table has not given a value, whatever the
error was.  So a read returns the value of the newest table that holds the key and can be read, and
this is the newest value only if the tables that are passed over hold the same one.

A table with more blocks than its cache has room for is needed for a query to read a log at all: a
block is put into the cache of its table when the table is built, and when it is loaded from its
log.
-/

namespace Asterinas.Mlsdisk

open Framework Exec List TreeInner Option

variable {V : Type}

/-! ### The cache of a table -/

/-- `SSTable::CACHE_CAP`. -/
def cacheCap : ℕ := 1024

/-- The cache of a table of `n` blocks.  It is filled when the table is built or loaded, and never
loses a block but for another one. -/
structure BlockCache (n : ℕ) extends LruCache (Fin n) cacheCap where
  full : keys.length = min cacheCap n

namespace BlockCache

variable {n : ℕ}

lemma keys_foldl_use_finRange (c : LruCache (Fin n) cacheCap) :
    ((finRange n).foldl LruCache.use c).keys = (finRange n).reverse.take cacheCap := by
  rw [c.keys_foldl_use (nodup_finRange n), filter_eq_nil_iff.mpr (by simp), append_nil]

/-- The cache that `SSTable::build` and `SSTable::from_log` leave, which put the blocks one by
one. -/
def built (n : ℕ) : BlockCache n where
  toLruCache := (finRange n).foldl LruCache.use LruCache.empty
  full := by rw [keys_foldl_use_finRange, length_take, length_reverse, length_finRange]

/-- A small table is in its cache as a whole. -/
lemma mem_keys_of_le (c : BlockCache n) (h : n ≤ cacheCap) (nth : Fin n) : nth ∈ c.keys := by
  have huniv : c.keys.toFinset = Finset.univ := Finset.eq_univ_of_card _ (by
    rw [toFinset_card_of_nodup c.nodup, c.full, min_eq_right h, Fintype.card_fin])
  exact mem_toFinset.mp (huniv ▸ Finset.mem_univ nth)

/-- `target_record_block` of a block: it is the most recently used one. -/
def access (c : BlockCache n) (nth : Fin n) : BlockCache n where
  toLruCache := c.use nth
  full := by
    rw [LruCache.keys_use, length_take, length_cons]
    have hfull := c.full
    by_cases hmem : nth ∈ c.keys
    · have hpos := length_pos_of_mem hmem
      rw [length_erase_of_mem hmem]
      omega
    · have hlt : cacheCap < n := not_le.mp fun h => hmem (c.mem_keys_of_le h nth)
      rw [erase_of_not_mem hmem]
      omega

/-- The cache after all blocks have been read in their order, as a compaction does. -/
def scanned (c : BlockCache n) : BlockCache n := (finRange n).foldl access c

lemma keys_scanned (c : BlockCache n) : c.scanned.keys = (finRange n).reverse.take cacheCap := by
  have hfold : ∀ (l : List (Fin n)) (c : BlockCache n),
      (l.foldl access c).toLruCache = l.foldl LruCache.use c.toLruCache := by
    intro l
    induction l with
    | nil => exact fun _ => rfl
    | cons nth l ih => exact fun c => ih (c.access nth)
  rw [scanned, hfold, keys_foldl_use_finRange]

/-- Of a table that has more blocks than there is room for, the last ones are in the cache. -/
lemma mem_take_reverse_finRange {nth : Fin n} :
    nth ∈ (finRange n).reverse.take cacheCap ↔ n ≤ nth + cacheCap := by
  rw [take_reverse, mem_reverse, length_finRange, mem_drop_iff_getElem]
  simp only [getElem_finRange, Fin.ext_iff, length_finRange]
  constructor
  · rintro ⟨i, hi, h⟩
    simp only [Fin.val_cast] at h
    omega
  · intro h
    exact ⟨nth - (n - cacheCap), by omega, by simp only [Fin.val_cast]; omega⟩

end BlockCache

/-- What a query meets outside of the tables: the caches, and what the log store answers when the
log of a table is opened and when the block at a position is read and authenticated. -/
structure LogReads (V : Type) where
  cache : ∀ t : SSTable V, BlockCache t.blocks.length
  openLog : ℕ → Except Error Unit
  read : ℕ → ℕ → Except Error Unit

namespace SSTable

section

variable (t : SSTable V) (reads : LogReads V)

/-- `SSTable::target_record_block`.  A query looks at a table once, so that what it leaves in the
cache does not matter to it. -/
def targetRecordBlock (nth : Fin t.blocks.length) : Except Error (RecordBlock V) :=
  if nth ∈ (reads.cache t).keys then return t.blocks.get nth
  else do
    reads.openLog t.id
    reads.read t.id nth
    return t.blocks.get nth

/-- `SSTable::access_point`, with its errors. -/
def tryAccessPoint (key : ℕ) : Except Error V :=
  match t.blocks.findFinIdx? (RecordBlock.isWithinRange · key) with
  | none => .error ⟨.notFound, "target key not found in sst"⟩
  | some nth => do
    let b ← t.targetRecordBlock reads nth
    match b.records.findSome? fun r => if r.1 = key then some r.2.get else none with
    | none => .error ⟨.notFound, "target value not found in SST"⟩
    | some value => return value

/-- The block in which the table has the key, if there is one, can be read. -/
def readable (key : ℕ) : Bool :=
  (t.blocks.findFinIdx? (RecordBlock.isWithinRange · key)).all fun nth =>
    (t.targetRecordBlock reads nth).isOk

end

end SSTable

/-- The loop of `TreeInner::do_read_tx`. -/
def readTables (reads : LogReads V) (key : ℕ) : List (SSTable V) → Except Error V
  | [] => throw ⟨.notFound, "target sst not found"⟩
  | sst :: rest =>
    if sst.isWithinRange key then
      match sst.tryAccessPoint reads key with
      | .ok value => return value
      | .error _ => readTables reads key rest
    else readTables reads key rest

namespace TreeInner

/-- `TreeInner::do_read_tx`, over a store that may fail. -/
def tryReadTx (reads : LogReads V) (key : ℕ) : Prog V V := do
  newTx
  context
  let s ← Exec.get
  match readTables reads key s.tree.sstManager.tables with
  | .ok value => do
    commitTx
    return value
  | .error e =>
    if e.errno = .notFound then do
      commitTx
      Exec.throw e
    else do
      abortTx
      Exec.throw ⟨.txAborted, "read TX failed"⟩

/-- `TreeInner::get`, over a store that may fail. -/
def tryGet (reads : LogReads V) (key : ℕ) : Prog V V := do
  let s ← Exec.get
  match s.tree.memtables.get key with
  | some value => return value
  | none => tryReadTx reads key

end TreeInner

/-! ### What a query finds -/

section Query

variable (reads : LogReads V) (key : ℕ)

namespace SSTable

lemma targetRecordBlock_eq (t : SSTable V) (nth : Fin t.blocks.length) :
    t.targetRecordBlock reads nth = .ok (t.blocks.get nth) ∨
      ∃ e, t.targetRecordBlock reads nth = .error e := by
  rw [targetRecordBlock]
  split
  · exact .inl rfl
  · cases reads.openLog t.id with
    | error e => exact .inr ⟨e, rfl⟩
    | ok _ =>
      cases reads.read t.id nth with
      | error e => exact .inr ⟨e, rfl⟩
      | ok _ => exact .inl rfl

/-- A query gives the value of the key if the block can be read, and an error otherwise. -/
lemma tryAccessPoint_toOption (t : SSTable V) :
    (t.tryAccessPoint reads key).toOption =
      if t.readable reads key then t.accessPoint key else none := by
  rw [tryAccessPoint, readable, accessPoint, find?_eq_map_findFinIdx?_getElem]
  cases t.blocks.findFinIdx? (RecordBlock.isWithinRange · key) with
  | none => rfl
  | some nth =>
    obtain hread | ⟨e, hread⟩ := t.targetRecordBlock_eq reads nth
    · simp only [all_some, hread, map_some, bind_some, bind, Except.bind, get_eq_getElem]
      cases t.blocks[nth].records.findSome? fun r => if r.1 =
        key then some r.2.get else none <;> rfl
    · simp only [all_some, hread]
      rfl

/-- A table that is in its cache as a whole can be read. -/
lemma readable_of_le {t : SSTable V} (h : t.blocks.length ≤ cacheCap) :
    t.readable reads key = true := by
  rw [readable]
  cases t.blocks.findFinIdx? (RecordBlock.isWithinRange · key) with
  | none => rfl
  | some nth =>
    rw [all_some, targetRecordBlock, if_pos ((reads.cache t).mem_keys_of_le h nth)]
    rfl

end SSTable

/-- The newest value of the key in the tables that can be read. -/
def searchReadable (tables : List (SSTable V)) : Option V :=
  tables.findSome? fun t => if t.readable reads key then t.search key else none

lemma readTables_eq (tables : List (SSTable V)) :
    readTables reads key tables = (searchReadable reads key tables).elim
      (.error ⟨.notFound, "target sst not found"⟩) .ok := by
  induction tables with
  | nil => rfl
  | cons sst rest ih =>
    have haccess := sst.tryAccessPoint_toOption reads key
    rw [readTables, ih, searchReadable, searchReadable, findSome?_cons, SSTable.search]
    by_cases hin : sst.isWithinRange key = true
    · rw [if_pos hin, if_pos hin, ← haccess]
      cases sst.tryAccessPoint reads key <;> rfl
    · rw [if_neg hin, if_neg hin, ite_self]

/-- The tables that are passed over do not matter: if the newest table with the key cannot be read,
then the next one that has the key and can be read has the same value, and there is one. -/
def PassedOverAgree (tables : List (SSTable V)) : Prop :=
  ∀ newer t older value, tables = newer ++ t :: older → (∀ u ∈ newer, u.search key = none) →
    t.search key = some value → t.readable reads key = false →
    ∃ between u rest, older = between ++ u :: rest ∧
      (∀ w ∈ between, w.search key = none ∨ w.readable reads key = false) ∧
      u.readable reads key = true ∧ u.search key = some value

lemma search_eq_searchReadable_iff (tables : List (SSTable V)) :
    tables.findSome? (·.search key) = searchReadable reads key tables ↔
      PassedOverAgree reads key tables := by
  have hnone : ∀ w : SSTable V, (if w.readable reads key then w.search key else none) = none ↔
      w.search key = none ∨ w.readable reads key = false := by
    intro w
    cases w.readable reads key <;> simp
  -- up to the newest table that has the key, the two searches meet nothing
  have hskip : ∀ newer t older, (∀ u ∈ newer, u.search key = none) →
      t.readable reads key = false →
      searchReadable reads key (newer ++ t :: older) = searchReadable reads key older := by
    intro newer t older hnewer ht
    rw [searchReadable, findSome?_append,
      findSome?_eq_none_iff.mpr fun u hu => (hnone u).mpr (.inl (hnewer u hu)), none_or,
      findSome?_cons, (hnone t).mpr (.inr ht)]
    rfl
  constructor
  · rintro heq newer t older value rfl hnewer hvalue ht
    rw [hskip newer t older hnewer ht, findSome?_append, findSome?_eq_none_iff.mpr hnewer, none_or,
      findSome?_cons, hvalue] at heq
    obtain ⟨between, u, rest, rfl, hu, hbetween⟩ := findSome?_eq_some_iff.mp heq.symm
    obtain ⟨hread, hu⟩ := ite_none_right_eq_some.mp hu
    exact ⟨between, u, rest, rfl, fun w hw => (hnone w).mp (hbetween w hw), hread, hu⟩
  · intro hpass
    cases hfind : tables.findSome? (·.search key) with
    | none =>
      exact (findSome?_eq_none_iff.mpr fun u hu =>
        (hnone u).mpr (.inl (findSome?_eq_none_iff.mp hfind u hu))).symm
    | some value =>
      obtain ⟨newer, t, older, rfl, hvalue, hnewer⟩ := findSome?_eq_some_iff.mp hfind
      cases ht : t.readable reads key with
      | true =>
        rw [searchReadable, findSome?_append,
          findSome?_eq_none_iff.mpr fun u hu => (hnone u).mpr (.inl (hnewer u hu)), none_or,
          findSome?_cons, if_pos ht, hvalue]
      | false =>
        obtain ⟨between, u, rest, rfl, hbetween, hread, hu⟩ :=
          hpass newer t older value rfl hnewer hvalue ht
        rw [hskip newer t _ hnewer ht]
        exact (findSome?_eq_some_iff.mpr ⟨between, u, rest, rfl, by rw [if_pos hread, hu],
          fun w hw => (hnone w).mpr (hbetween w hw)⟩).symm

end Query

/-- A read ends the transaction of the thread, so that it is committed before anything is
returned. -/
lemma twp_tryReadTx (reads : LogReads V) (key : ℕ) (s : TreeInner V) (Q : Option V → Prop) :
    twp (tryReadTx reads key) (fun value _ => Q (some value))
        (fun e _ => e.errno = .notFound → Q none) s ↔
      (s.tx.getD []).rootless = false ∧
        Q (searchReadable reads key s.tree.sstManager.tables) := by
  simp only [tryReadTx, newTx, context, twp_bind, twp_modify, twp_get, twp_require, isSome_some,
    true_and, readTables_eq]
  cases searchReadable reads key s.tree.sstManager.tables with
  | some value => simp [commitTx]
  | none => simp [commitTx]

/-- **Reads.** For every store and every state, a read returns the newest value or an error that
does not say that the key is absent if and only if a memory table has the key, or the transaction of
the thread can be committed and the tables that are passed over do not matter. -/
theorem get_newest_iff (reads : LogReads V) (s : TreeInner V) (key : ℕ) :
    twp (tryGet reads key) (fun value _ => s.visible key = some value)
        (fun e _ => e.errno = .notFound → s.visible key = none) s ↔
      (s.tree.memtables.get key = none → (s.tx.getD []).rootless = false ∧
        PassedOverAgree reads key s.tree.sstManager.tables) := by
  rw [tryGet, twp_bind, twp_get, visible, ← search_eq_searchReadable_iff, findSome?_tables]
  cases s.tree.memtables.get key with
  | some value => simp
  | none =>
    rw [none_or, twp_tryReadTx reads key s fun found => _ = found]
    exact ⟨fun h _ => h, fun h => h rfl⟩

/-! ### A table that is larger than its cache -/

/-- `SSTABLE_CAPACITY` records with one value. -/
def filled (value : ValueEx V) : List (Record V) :=
  (List.range sstableCapacity).map fun key => (key, value)

lemma length_filled (value : ValueEx V) : (filled value).length = sstableCapacity := by
  rw [filled, length_map, length_range]

lemma filled_eq_cons (value : ValueEx V) : ∃ rest, filled value = (0, value) :: rest := by
  rw [filled, show sstableCapacity = 2097151 + 1 from rfl, range_succ_eq_map, map_cons]
  exact ⟨_, rfl⟩

lemma filled_ne_nil (value : ValueEx V) : filled value ≠ [] := by
  obtain ⟨rest, hrest⟩ := filled_eq_cons value
  rw [hrest]
  exact cons_ne_nil _ _

lemma ascending_filled (value : ValueEx V) : Ascending (filled value) := by
  rw [Ascending, filled, pairwise_map]
  exact pairwise_lt_range

lemma chunks_filled (value : ValueEx V) : chunks (filled value) = [filled value] := by
  rw [chunks_of_ne_nil (filled_ne_nil value), take_of_length_le (length_filled value).le,
    drop_of_length_le (length_filled value).le, chunks_nil]

lemma map_asOf_filled (allSynced : Bool) (value : ValueEx V) :
    (filled value).map (fun r => (r.1, r.2.asOf allSynced)) = filled (value.asOf allSynced) := by
  rw [filled, filled, List.map_map]
  exact map_congr_left fun _ _ => rfl

lemma lookup_filled (value : ValueEx V) : (filled value).lookup 0 = some value := by
  obtain ⟨rest, hrest⟩ := filled_eq_cons value
  rw [hrest, lookup_cons_self]

namespace SSTable

variable {t : SSTable V} {value : ValueEx V}

lemma start_of_filled (h : t.records = filled value) : t.start = 0 := by
  obtain ⟨rest, hrest⟩ := filled_eq_cons value
  exact start_of_cons (h.trans hrest)

lemma search_of_filled (h : t.records = filled value) : t.search 0 = some value.get := by
  have hasc : Ascending t.records := h ▸ ascending_filled value
  rw [search, accessPoint_eq hasc, h, lookup_filled, isWithinRange, start_of_filled h]
  simp

/-- The first block of a table that is larger than its cache cannot be read if the log cannot. -/
lemma readable_of_filled (h : t.records = filled value) (reads : LogReads V)
    (hcache : (reads.cache t).keys = (finRange t.blocks.length).reverse.take cacheCap)
    (hlarge : cacheCap < t.blocks.length)
    (hfail : ∀ nth, (do reads.openLog t.id; reads.read t.id nth).isOk = false) :
    t.readable reads 0 = false := by
  have hpos : 0 < t.blocks.length := length_pos_of_ne_nil t.nonempty
  have hfirst : (t.blocks.get ⟨0, hpos⟩).isWithinRange 0 = true := by
    have hstart := start_of_filled h
    rw [start, head_eq_getElem] at hstart
    simp [RecordBlock.isWithinRange, hstart]
  have hfind : t.blocks.findFinIdx? (RecordBlock.isWithinRange · 0) = some ⟨0, hpos⟩ := by
    rw [findFinIdx?_eq_some_iff]
    exact ⟨hfirst, fun j hj => absurd hj (Nat.not_lt_zero _)⟩
  have hmiss : (⟨0, hpos⟩ : Fin t.blocks.length) ∉ (reads.cache t).keys := by
    rw [hcache, BlockCache.mem_take_reverse_finRange]
    simpa using hlarge
  rw [readable, hfind, all_some, targetRecordBlock, if_neg hmiss]
  have hzero := hfail 0
  cases hopen : reads.openLog t.id with
  | error e => rfl
  | ok _ =>
    rw [hopen] at hzero
    cases hread : reads.read t.id 0 with
    | error e => rfl
    | ok _ =>
      rw [hread] at hzero
      cases hzero

end SSTable

/-- The compaction of unsynced values over synced ones keeps both. -/
lemma compactRecords_map (keys : List ℕ) (new old : V) :
    compactRecords (keys.map fun key => (key, .unsynced new))
        (keys.map fun key => (key, .synced old)) =
      some (keys.map fun key => (key, .syncedAndUnsynced old new), []) := by
  induction keys with
  | nil => simp [compactRecords]
  | cons key keys ih => simp [compactRecords, compactValueEx, ih]

/-- The compaction of two tables whose records make one table. -/
lemma SstManager.mergeSsts_singleton (m : SstManager V) {upper lower sst : SSTable V}
    {records : List (Record V)} {fromLevel toLevel : LsmLevel} {masterSyncId nextId : ℕ}
    (hcompact : compactRecords (upper.iter masterSyncId false).1 (lower.iter masterSyncId false).1 =
      some (records, []))
    (hbuild : buildSsts masterSyncId (chunks records) nextId = some [sst]) :
    m.mergeSsts upper [lower] fromLevel toLevel masterSyncId nextId =
      some ⟨m.updateSstManager [(sst, toLevel)] [(upper.id, fromLevel), (lower.id, toLevel)],
        nextId + 1, (upper.iter masterSyncId false).2 ++ (lower.iter masterSyncId false).2⟩ := by
  simp [SstManager.mergeSsts, hcompact, hbuild]

/-- A table with an old value of one key. -/
def olderTable (key : ℕ) : SSTable ℕ := ⟨0, 0, [⟨[(key, .synced 9)], by simp⟩], by simp⟩

/-- The tables before a compaction into the second level. -/
def threeLevels (upper lower : SSTable ℕ) (key : ℕ) : SstManager ℕ :=
  ((SstManager.new.insert (olderTable key) .l2).insert lower .l1).insert upper .l0

/-- The compaction of a full table of unsynced records with one of synced records for the same keys
makes one table of records of two values. -/
lemma majorCompaction_threeLevels {upper lower large : SSTable ℕ} (key : ℕ)
    (hupper : SSTable.build (filled (.unsynced 11)) 1 2 = some upper)
    (hlower : SSTable.build (filled (.synced 10)) 0 1 = some lower)
    (hlarge : SSTable.build (filled (.syncedAndUnsynced 10 11)) 1 3 = some large) :
    ∃ c, (threeLevels upper lower key).majorCompaction .l1 1 3 = some c ∧
      c.manager.tables = [large, olderTable key] := by
  obtain ⟨hid, hsync, hrecords⟩ := SSTable.build_spec hupper
  obtain ⟨hid', hsync', hrecords'⟩ := SSTable.build_spec hlower
  obtain ⟨hid'', -, -⟩ := SSTable.build_spec hlarge
  have hl1 : (threeLevels upper lower key).lowerSsts upper .l1 = [lower] := by
    have hlevel : (threeLevels upper lower key).listLevel .l1 = [lower] := rfl
    have hover : lower.overlapWith upper.start upper.stop = true := by
      simp [SSTable.overlapWith, SSTable.start_of_filled hrecords,
        SSTable.start_of_filled hrecords']
    rw [SstManager.lowerSsts, SstManager.findOverlappedSsts, hlevel, filter_singleton, hover]
    exact mergeSort_singleton _
  have hscan : (upper.iter 1 false).1 = filled (.unsynced 11) := by
    rw [SSTable.iter_false, scanRecords_fst, hrecords, hsync, map_asOf_filled]
    rfl
  have hscan' : (lower.iter 1 false).1 = filled (.synced 10) := by
    rw [SSTable.iter_false, scanRecords_fst, hrecords', hsync', map_asOf_filled]
    rfl
  have hcompact : compactRecords (upper.iter 1 false).1 (lower.iter 1 false).1 =
      some (filled (.syncedAndUnsynced 10 11), []) := by
    rw [hscan, hscan']
    exact compactRecords_map _ _ _
  have hbuild : buildSsts 1 (chunks (filled (.syncedAndUnsynced 10 11))) 3 = some [large] := by
    rw [chunks_filled, buildSsts, hlarge]
    rfl
  have hl0 : (threeLevels upper lower key).listLevel .l0 = [upper] := rfl
  refine ⟨⟨(threeLevels upper lower key).updateSstManager [(large, .l1)]
    [(upper.id, .l0), (lower.id, .l1)], 4, (upper.iter 1 false).2 ++ (lower.iter 1 false).2⟩, ?_,
    ?_⟩
  · rw [SstManager.majorCompaction, LsmLevel.upperLevel, bind_some, hl0, getLast?_singleton,
      bind_some, hl1]
    exact SstManager.mergeSsts_singleton _ hcompact hbuild
  · obtain ⟨_, _, _, _⟩ := upper
    obtain ⟨_, _, _, _⟩ := lower
    obtain ⟨_, _, _, _⟩ := large
    subst hid hid' hid''
    rfl

/-- The block of a large table that was not used last is damaged. -/
def damaged : LogReads ℕ where
  cache t := BlockCache.built t.blocks.length
  openLog _ := .ok ()
  read id _ := if id = 3 then .error ⟨.decryptFailed, "aes-128-gcm decryption failed"⟩ else .ok ()

/-- A compaction has read all tables and has been committed, which has deleted their logs. -/
def deleted : LogReads ℕ where
  cache t := (BlockCache.built t.blocks.length).scanned
  openLog _ := .error ⟨.notFound, "log has been deleted"⟩
  read _ _ := .ok ()

/-- A tree with the tables that a compaction has left. -/
def withTables (m : SstManager ℕ) : TreeInner ℕ :=
  { format with tree := ⟨MemTableManager.new 1 memtableCapacity, false, m, 1, 4⟩ }

lemma tryGet_withTables (reads : LogReads ℕ) (m : SstManager ℕ) (key : ℕ) :
    tryGet reads key (withTables m) = (searchReadable reads key m.tables).elim
      (.err ⟨.notFound, "target sst not found"⟩ (withTables m)) (.ok · (withTables m)) := by
  have hmem : (withTables m).tree.memtables.get key = none := rfl
  have hbegin : (newTx : Prog ℕ Unit) (withTables m) = .ok () { withTables m with tx := some [] } :=
    rfl
  have hcontext : (context : Prog ℕ Unit) { withTables m with tx := some [] } =
    .ok () { withTables m with tx := some [] } := rfl
  rw [tryGet, Exec.bind_apply]
  simp only [Exec.get, hmem]
  rw [tryReadTx, Exec.bind_of_ok hbegin, Exec.bind_of_ok hcontext, Exec.bind_apply]
  simp only [Exec.get, readTables_eq, show (withTables m).tree.sstManager = m from rfl]
  cases searchReadable reads key m.tables <;> rfl

/-- A compaction of unsynced values over synced ones makes a table that is larger than its cache.
While its first block cannot be read, a key there is found with an older value, or it is absent if
no older table has it. -/
theorem get_older_value :
    ∃ upper lower large : SSTable ℕ,
      SSTable.build (filled (.unsynced 11)) 1 2 = some upper ∧
      SSTable.build (filled (.synced 10)) 0 1 = some lower ∧ cacheCap < large.blocks.length ∧
      ∀ key, ∃ c, (threeLevels upper lower key).majorCompaction .l1 1 3 = some c ∧
        c.manager.tables = [large, olderTable key] ∧
        (withTables c.manager).visible 0 = some 11 ∧
        ∀ reads ∈ [damaged, deleted], tryGet reads 0 (withTables c.manager) =
          if key = 0 then .ok 9 (withTables c.manager)
          else .err ⟨.notFound, "target sst not found"⟩ (withTables c.manager) := by
  have hsingle : ∀ v : ValueEx ℕ, v.isTwo = false → ∀ syncId id,
      ∃ t, SSTable.build (filled v) syncId id = some t := by
    intro v hv syncId id
    refine isSome_iff_exists.mp ((SSTable.build_isSome (filled_ne_nil v) syncId id).trans ?_)
    refine layoutFits_of_single (by decide) fun two htwo => ?_
    obtain ⟨r, hr, rfl⟩ := List.mem_map.mp htwo
    obtain ⟨key, -, rfl⟩ := List.mem_map.mp hr
    exact hv
  obtain ⟨upper, hupper⟩ := hsingle (.unsynced 11) rfl 1 2
  obtain ⟨lower, hlower⟩ := hsingle (.synced 10) rfl 0 1
  obtain ⟨large, hlarge, hlen⟩ := SSTable.exists_build_of_two
    (filled_ne_nil (.syncedAndUnsynced 10 11)) (by simp [filled, ValueEx.isTwo]) 1 3
  obtain ⟨hid, -, hrecords⟩ := SSTable.build_spec hlarge
  have hsize : cacheCap < large.blocks.length := by
    rw [length_filled, sstableCapacity, memtableCapacity, twoPerBlock] at hlen
    rw [cacheCap]
    omega
  refine ⟨upper, lower, large, hupper, hlower, hsize, fun key => ?_⟩
  obtain ⟨c, hc, htables⟩ := majorCompaction_threeLevels key hupper hlower hlarge
  refine ⟨c, hc, htables, ?_, fun reads hreads => ?_⟩
  · change c.manager.search 0 = _
    rw [← findSome?_tables, htables, findSome?_cons, SSTable.search_of_filled hrecords]
    rfl
  · have hunread : large.readable reads 0 = false := by
      simp only [mem_cons, not_mem_nil, or_false] at hreads
      rcases hreads with rfl | rfl
      · exact SSTable.readable_of_filled hrecords _ (BlockCache.keys_foldl_use_finRange _) hsize
          fun nth => by rw [hid]; rfl
      · exact SSTable.readable_of_filled hrecords _ (BlockCache.keys_scanned _) hsize
          fun nth => rfl
    have holder : (olderTable key).readable reads 0 = true :=
      SSTable.readable_of_le reads 0 (Nat.succ_le_succ (Nat.zero_le _))
    rw [tryGet_withTables, htables, searchReadable, findSome?_cons, hunread, findSome?_cons, holder]
    cases key <;> rfl

end Asterinas.Mlsdisk
