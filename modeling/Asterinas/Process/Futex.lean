import Asterinas.Basic

/-!
# Futexes

The futex table of `process/posix_thread/futex.rs`: hash buckets of waiting items, and the calls
that add, wake, move and take out items while they hold the locks of the buckets they work on.

The identity of a futex word is left abstract, and so is the hash that picks its bucket: the calls
take the identity that `FutexKey::new` derives from the address and the caller's mappings.  A waker
is named by a number; its flag `has_woken` is written without a lock by the timer, by signals and
by the waiting thread itself.
-/

namespace Asterinas.Futex

open Function Bool

/-- `FUTEX_BITSET_MATCH_ANY`. -/
def bitsetMatchAny : BitVec 32 := BitVec.allOnes 32

/-- `FutexKey`, without the hash that its identity determines. -/
structure FutexKey (ι : Type) where
  identity : ι
  bitset : BitVec 32
  deriving DecidableEq

/-- `FutexItem`: the key that is waited on and the waker of the waiting thread. -/
structure FutexItem (ι : Type) where
  key : FutexKey ι
  waker : ℕ
  deriving DecidableEq

section Items

variable {ι : Type} [DecidableEq ι]

/-- `FutexKey::new`, given the identity of the word. -/
def FutexKey.new (addr : ℕ) (bitset : BitVec 32) (identity : ι) : Except Error (FutexKey ι) :=
  if addr % 4 ≠ 0 then
    .error (.withMessage .einval "the futex word is not aligned on a four-byte boundary")
  else .ok ⟨identity, bitset⟩

/-- `FutexKey::match_up`: the keys are of one word and have a bit in common. -/
def FutexKey.matchUp (key another : FutexKey ι) : Bool :=
  key.identity = another.identity && key.bitset &&& another.bitset != 0

/-- `Waker::wake_up`: whether the waiter is woken by this call. -/
def wakeUp (hasWoken : ℕ → Bool) (waker : ℕ) : Bool × (ℕ → Bool) :=
  (!hasWoken waker, update hasWoken waker true)

/-- What a scan that wakes items leaves: the items kept, the count that it returns, the wakers of
the items it has removed, and the flags. -/
structure Wakes (ι : Type) where
  items : List (FutexItem ι)
  count : ℕ
  woken : List ℕ
  hasWoken : ℕ → Bool

/-- The loop of `remove_and_wake_items`; `count` items have been woken so far. -/
def removeAndWakeFrom (key : FutexKey ι) (maxCount count : ℕ) (hasWoken : ℕ → Bool) :
    List (FutexItem ι) → Wakes ι
  | [] => ⟨[], count, [], hasWoken⟩
  | item :: rest =>
    if item.key.matchUp key && decide (count < maxCount) then
      let (woke, hasWoken) := wakeUp hasWoken item.waker
      if woke then
        let r := removeAndWakeFrom key maxCount (count + 1) hasWoken rest
        { r with woken := item.waker :: r.woken }
      else
        let r := removeAndWakeFrom key maxCount count hasWoken rest
        { r with items := item :: r.items }
    else
      let r := removeAndWakeFrom key maxCount count hasWoken rest
      { r with items := item :: r.items }

/-- The wakers of the waiters that match the key and can be woken. -/
def wakeable (key : FutexKey ι) (hasWoken : ℕ → Bool) (items : List (FutexItem ι)) : Finset ℕ :=
  ((items.filter fun item => item.key.matchUp key && !hasWoken item.waker).map
    FutexItem.waker).toFinset

open List in
lemma mem_wakeable {key : FutexKey ι} {hasWoken : ℕ → Bool} {items : List (FutexItem ι)} {w : ℕ} :
    w ∈ wakeable key hasWoken items ↔
      hasWoken w = false ∧ ∃ item ∈ items, item.key.matchUp key = true ∧ item.waker = w := by
  simp only [wakeable, mem_toFinset, mem_map, mem_filter, and_eq_true, not_eq_true']
  constructor
  · rintro ⟨item, ⟨hmem, hmatch, hnot⟩, rfl⟩
    exact ⟨hnot, item, hmem, hmatch, rfl⟩
  · rintro ⟨hnot, item, hmem, hmatch, rfl⟩
    exact ⟨item, ⟨hmem, hmatch, hnot⟩, rfl⟩

section

variable {key : FutexKey ι} {hasWoken : ℕ → Bool} {item : FutexItem ι} (rest : List (FutexItem ι))
  (hmatch : item.key.matchUp key = true) (hw : hasWoken item.waker = false)
include hmatch hw

open List in
lemma wakeable_cons : wakeable key hasWoken (item :: rest) =
    insert item.waker (wakeable key (update hasWoken item.waker true) rest) := by
  ext w
  rw [Finset.mem_insert, mem_wakeable, mem_wakeable, exists_mem_cons_iff]
  by_cases heq : w = item.waker
  · simp [heq, hw, hmatch]
  · simp [heq, Ne.symm heq]

lemma card_wakeable_cons : (wakeable key hasWoken (item :: rest)).card =
    (wakeable key (update hasWoken item.waker true) rest).card + 1 := by
  rw [wakeable_cons rest hmatch hw, Finset.card_insert_of_notMem]
  simp [mem_wakeable]

end

open List in

/-- The loop wakes waiters that match the key and can be woken, as many as it may and there are, and
keeps the others. -/
lemma removeAndWakeFrom_spec (key : FutexKey ι) (maxCount count : ℕ) (hasWoken : ℕ → Bool)
    (items : List (FutexItem ι)) :
    let r := removeAndWakeFrom key maxCount count hasWoken items
    r.count = count + min (maxCount - count) (wakeable key hasWoken items).card ∧
      ∃ woken, r.woken = woken.map FutexItem.waker ∧ r.count = count + woken.length ∧
        items.Perm (woken ++ r.items) ∧
        (∀ item ∈ woken, item.key.matchUp key = true ∧ hasWoken item.waker = false) ∧
        ∀ w, r.hasWoken w = (hasWoken w || decide (w ∈ woken.map FutexItem.waker)) := by
  induction items generalizing count hasWoken with
  | nil => exact ⟨by simp [removeAndWakeFrom, wakeable], [], by simp [removeAndWakeFrom]⟩
  | cons item rest ih =>
    rw [removeAndWakeFrom]
    split
    · rename_i hif
      obtain ⟨hmatch, hlt⟩ : item.key.matchUp key = true ∧ count < maxCount := by simpa using hif
      dsimp only [wakeUp]
      cases hw : hasWoken item.waker with
      | false =>
        obtain ⟨hcount, woken, hwakers, hlen, hperm, hwoken, hflags⟩ :=
          ih (count + 1) (update hasWoken item.waker true)
        have hcard := card_wakeable_cons rest hmatch hw
        simp only [Bool.not_false, if_true]
        refine ⟨by omega, item :: woken, by rw [hwakers, map_cons], by rw [length_cons]; omega,
          hperm.cons item, forall_mem_cons.mpr ⟨⟨hmatch, hw⟩, fun other hother => ?_⟩, fun w => ?_⟩
        · obtain ⟨hm, hnot⟩ := hwoken other hother
          refine ⟨hm, ?_⟩
          rwa [update_of_ne] at hnot
          intro heq
          simp [heq] at hnot
        · rw [hflags, map_cons, update_apply]
          by_cases hw : w = item.waker <;> simp [hw]
      | true =>
        rw [show update hasWoken item.waker true = hasWoken by rw [← hw, update_eq_self]]
        obtain ⟨hcount, woken, hwakers, hlen, hperm, hrest⟩ := ih count hasWoken
        exact ⟨by simpa [wakeable, hw] using hcount, woken, hwakers, hlen,
          (hperm.cons item).trans perm_middle.symm, hrest⟩
    · rename_i hif
      obtain ⟨hcount, woken, hwakers, hlen, hperm, hrest⟩ := ih count hasWoken
      refine ⟨?_, woken, hwakers, hlen, (hperm.cons item).trans perm_middle.symm, hrest⟩
      by_cases hmatch : item.key.matchUp key = true
      · have hge : ¬ count < maxCount := fun hlt => hif (by simp [hmatch, hlt])
        dsimp only
        omega
      · simpa [wakeable, hmatch] using hcount

/-- `FutexBucket::remove_and_wake_items`: the matching items are woken, from the front, up to a
bound. -/
def removeAndWakeItems (key : FutexKey ι) (maxCount : ℕ) (hasWoken : ℕ → Bool)
    (items : List (FutexItem ι)) : Wakes ι :=
  removeAndWakeFrom key maxCount 0 hasWoken items

/-- The loop of `update_item_keys`; the bound is only tested after an item was looked at. -/
def updateItemKeysFrom (key newKey : FutexKey ι) (maxCount count : ℕ) :
    List (FutexItem ι) → List (FutexItem ι)
  | [] => []
  | item :: rest =>
    let (item, count) :=
      if item.key.matchUp key then ({ item with key := newKey }, count + 1) else (item, count)
    if count ≥ maxCount then item :: rest
    else item :: updateItemKeysFrom key newKey maxCount count rest

/-- `FutexBucket::update_item_keys`: the matching items get another key, up to a bound. -/
def updateItemKeys (key newKey : FutexKey ι) (maxCount : ℕ) (items : List (FutexItem ι)) :
    List (FutexItem ι) :=
  updateItemKeysFrom key newKey maxCount 0 items

/-- The loop of `requeue_items_to_another_bucket`: the items kept and the items extracted. -/
def extractFrom (key : FutexKey ι) (maxNrequeues count : ℕ) :
    List (FutexItem ι) → List (FutexItem ι) × List (FutexItem ι)
  | [] => ([], [])
  | item :: rest =>
    if item.key.matchUp key && decide (count < maxNrequeues) then
      let (kept, extracted) := extractFrom key maxNrequeues (count + 1) rest
      (kept, item :: extracted)
    else
      let (kept, extracted) := extractFrom key maxNrequeues count rest
      (item :: kept, extracted)

open List in

/-- The items that the loop takes out. -/
lemma extractFrom_spec (key : FutexKey ι) (maxNrequeues count : ℕ) (items : List (FutexItem ι)) :
    (extractFrom key maxNrequeues count items).2 =
      (items.filter fun item => item.key.matchUp key).take (maxNrequeues - count) ∧
    items.Perm ((extractFrom key maxNrequeues count items).2 ++
      (extractFrom key maxNrequeues count items).1) := by
  induction items generalizing count with
  | nil => simp [extractFrom]
  | cons item items ih =>
    rw [extractFrom]
    split
    · rename_i hif
      obtain ⟨hmatch, hlt⟩ : item.key.matchUp key = true ∧ count < maxNrequeues := by
        simpa using hif
      obtain ⟨heq, hperm⟩ := ih (count + 1)
      refine ⟨?_, hperm.cons item⟩
      rw [show maxNrequeues - count = maxNrequeues - (count + 1) + 1 by omega]
      simp only [filter_cons, hmatch, if_true, take_succ_cons, ← heq]
    · rename_i hif
      obtain ⟨heq, hperm⟩ := ih count
      refine ⟨?_, (hperm.cons item).trans perm_middle.symm⟩
      by_cases hmatch : item.key.matchUp key = true
      · have hge : ¬ count < maxNrequeues := fun hlt => hif (by simp [hmatch, hlt])
        simp only [heq, show maxNrequeues - count = 0 by omega, take_zero]
      · simp only [filter_cons, hmatch, if_false, false_eq_true, ← heq]

/-- `FutexBucket::requeue_items_to_another_bucket`: the two buckets afterwards. -/
def requeueItemsToAnotherBucket (key newKey : FutexKey ι) (maxNrequeues : ℕ)
    (items another : List (FutexItem ι)) : List (FutexItem ι) × List (FutexItem ι) :=
  let (kept, extracted) := extractFrom key maxNrequeues 0 items
  (kept, another ++ extracted.map fun item => { item with key := newKey })

/-- `Vec::swap_remove`: the last element takes the place of the removed one. -/
def swapRemove {α : Type} (l : List α) (i : ℕ) : List α :=
  match (l.drop (i + 1)).getLast? with
  | none => l.take i
  | some last => l.take i ++ last :: (l.drop (i + 1)).dropLast

/-- `FutexBucket::remove_by_waker`: whether an item was found, and the bucket afterwards. -/
def removeByWaker (waker : ℕ) (items : List (FutexItem ι)) : Bool × List (FutexItem ι) :=
  match items.findIdx? (fun item => item.waker = waker) with
  | none => (false, items)
  | some i => (true, swapRemove items i)

end Items

/-! ### The operation of `FUTEX_WAKE_OP` -/

/-- `FutexWakeOp`: how the second word is changed. -/
inductive FutexWakeOp
  | set
  | add
  | or
  | andn
  | xor
  deriving DecidableEq

/-- `FutexWakeCmp`: how its old value is compared. -/
inductive FutexWakeCmp
  | eq
  | ne
  | lt
  | le
  | gt
  | ge
  deriving DecidableEq

/-- `FutexWakeOpEncode`: the operation and the comparison with their arguments. -/
structure FutexWakeOpEncode where
  op : FutexWakeOp
  isOpargShift : Bool
  cmp : FutexWakeCmp
  oparg : BitVec 32
  cmparg : BitVec 32

/-- `FutexWakeOp::try_from`: the operation of a number. -/
def FutexWakeOp.tryFrom (bits : ℕ) : Except Error FutexWakeOp :=
  match bits with
  | 0 => .ok .set
  | 1 => .ok .add
  | 2 => .ok .or
  | 3 => .ok .andn
  | 4 => .ok .xor
  | _ => .error (.new .einval)

/-- `FutexWakeCmp::try_from`: the comparison of a number. -/
def FutexWakeCmp.tryFrom (bits : ℕ) : Except Error FutexWakeCmp :=
  match bits with
  | 0 => .ok .eq
  | 1 => .ok .ne
  | 2 => .ok .lt
  | 3 => .ok .le
  | 4 => .ok .gt
  | 5 => .ok .ge
  | _ => .error (.new .einval)

/-- `FutexWakeOpEncode::from_u32`: the fields of the word that the call passes. -/
def FutexWakeOpEncode.fromU32 (bits : BitVec 32) : Except Error FutexWakeOpEncode := do
  let op ← FutexWakeOp.tryFrom ((bits >>> 28) &&& 0x7).toNat
  let cmp ← FutexWakeCmp.tryFrom ((bits >>> 24) &&& 0xf).toNat
  return { op, isOpargShift := bits.getLsbD 31, cmp
           oparg := (bits >>> 12) &&& 0xfff, cmparg := bits &&& 0xfff }

section

variable (e : FutexWakeOpEncode) (oldVal : BitVec 32)

/-- `FutexWakeOpEncode::calculate_new_val`: the new value of the second word. -/
def FutexWakeOpEncode.calculateNewVal : BitVec 32 :=
  let oparg := if e.isOpargShift then (1 : BitVec 32) <<< (e.oparg &&& 31).toNat else e.oparg
  match e.op with
  | .set => oparg
  | .add => oparg + oldVal
  | .or => oparg ||| oldVal
  | .andn => ~~~oparg &&& oldVal
  | .xor => oparg ^^^ oldVal

/-- `FutexWakeOpEncode::should_wake`: the old value compares as asked. -/
def FutexWakeOpEncode.shouldWake : Bool :=
  match e.cmp with
  | .eq => oldVal == e.cmparg
  | .ne => oldVal != e.cmparg
  | .lt => oldVal.ult e.cmparg
  | .le => oldVal.ule e.cmparg
  | .gt => e.cmparg.ult oldVal
  | .ge => e.cmparg.ule oldVal

end

/-! ### The calls -/

/-- How far a call of `futex_wait_bitset` has got; the wait is named by its waker. -/
inductive Phase (ι : Type)
  /-- The waker has not been made. -/
  | unused
  /-- The item is in the bucket of `key` and the thread pauses. -/
  | paused (key : FutexKey ι)
  /-- `pause_timeout` has returned. -/
  | stopped (key : FutexKey ι) (result : Except Error Unit)
  /-- The item was looked for in the bucket of `key`; the waiter is not dropped yet. -/
  | dequeued (result : Except Error Unit)
  /-- The call has returned. -/
  | returned (result : Except Error Unit)

/-- The futex table with the wakers' flags, the users' memory and the waits.  `counted` lists the
wakers that wake operations have counted, and `reported` is the sum of the counts they returned. -/
structure System (ι : Type) where
  buckets : ℕ → List (FutexItem ι)
  hasWoken : ℕ → Bool
  mem : ℕ → Option (BitVec 32)
  waits : ℕ → Phase ι
  counted : List ℕ
  reported : ℕ

section Calls

variable {ι : Type} [DecidableEq ι] (bucketOf : ι → ℕ)

/-- No thread waits. -/
def System.init (mem : ℕ → Option (BitVec 32)) : System ι where
  buckets := fun _ => []
  hasWoken := fun _ => false
  mem := mem
  waits := fun _ => .unused
  counted := []
  reported := 0

/-- The wait named `w` gets to a new phase. -/
def System.setWait (s : System ι) (w : ℕ) (phase : Phase ι) : System ι :=
  { s with waits := update s.waits w phase }

/-- `remove_and_wake_items` on bucket `b`. -/
def System.wakeBucket (s : System ι) (b : ℕ) (key : FutexKey ι) (maxCount : ℕ) : ℕ × System ι :=
  let r := removeAndWakeItems key maxCount s.hasWoken (s.buckets b)
  (r.count, { s with
    buckets := update s.buckets b r.items
    hasWoken := r.hasWoken
    counted := s.counted ++ r.woken })

/-- The checks of `futex_wait_bitset` before the item is added, the last two under the lock of the
bucket: the key to wait on. -/
def checkWait (mem : ℕ → Option (BitVec 32)) (addr : ℕ) (val bitset : BitVec 32) (identity : ι) :
    Except Error (FutexKey ι) := do
  if bitset = 0 then
    throw (.withMessage .einval "at least one bit should be set")
  let key ← FutexKey.new addr bitset identity
  match mem addr with
  | none => throw (.withMessage .efault "the page fault of the futex word cannot be resolved")
  | some word =>
    if word ≠ val then
      throw (.withMessage .eagain "the futex word does not contain the expected value")
    else return key

/-- `futex_wait_bitset` up to the point where the thread pauses. -/
def beginWait (w addr : ℕ) (val bitset : BitVec 32) (identity : ι) (s : System ι) : System ι :=
  match checkWait s.mem addr val bitset identity with
  | .error e => s.setWait w (.returned (.error e))
  | .ok key =>
    let b := bucketOf key.identity
    { s.setWait w (.paused key) with
      buckets := update s.buckets b (s.buckets b ++ [⟨key, w⟩])
      hasWoken := update s.hasWoken w false }

/-- The end of `futex_wait_bitset`, under the lock of the bucket that the item was put in. -/
def dequeue (w : ℕ) (key : FutexKey ι) (result : Except Error Unit) (s : System ι) : System ι :=
  let b := bucketOf key.identity
  let (found, items) := removeByWaker w (s.buckets b)
  let result := if ¬ found then .ok () else
    match result with
    | .error e => .error e
    | .ok () => .error (.withMessage .eintr "the current thread is interrupted by a signal")
  { s.setWait w (.dequeued result) with buckets := update s.buckets b items }

/-- The waiter is dropped, which closes its waker, and the call returns. -/
def dropWaiter (w : ℕ) (result : Except Error Unit) (s : System ι) : System ι :=
  { s.setWait w (.returned result) with hasWoken := update s.hasWoken w true }

/-- `futex_wake_bitset`: the waiters of a word with a bit of the set are woken, up to a bound. -/
def futexWakeBitset (addr maxCount : ℕ) (bitset : BitVec 32) (identity : ι) (s : System ι) :
    Except Error ℕ × System ι :=
  if bitset = 0 then (.error (.withMessage .einval "at least one bit should be set"), s)
  else
    match FutexKey.new addr bitset identity with
    | .error e => (.error e, s)
    | .ok key =>
      let (count, s) := s.wakeBucket (bucketOf key.identity) key maxCount
      (.ok count, s)

/-- `futex_wake`: the waiters of a word are woken, whatever their bits are. -/
def futexWake (addr maxCount : ℕ) (identity : ι) (s : System ι) : Except Error ℕ × System ι :=
  futexWakeBitset bucketOf addr maxCount bitsetMatchAny identity s

/-- The checks of `futex_wake_op` before it takes the locks. -/
def checkWakeOp (addr₁ addr₂ : ℕ) (identity₁ identity₂ : ι) (wakeOpBits : BitVec 32) :
    Except Error (FutexWakeOpEncode × FutexKey ι × FutexKey ι) := do
  let wakeOp ← FutexWakeOpEncode.fromU32 wakeOpBits
  let key₁ ← FutexKey.new addr₁ bitsetMatchAny identity₁
  let key₂ ← FutexKey.new addr₂ bitsetMatchAny identity₂
  return (wakeOp, key₁, key₂)

/-- `futex_wake_op`.  When both keys have one bucket, `lock_bucket_pairs` locks it once and it
stands for the second one too. -/
def futexWakeOp (addr₁ addr₂ maxCount₁ maxCount₂ : ℕ) (identity₁ identity₂ : ι)
    (wakeOpBits : BitVec 32) (s : System ι) : Except Error ℕ × System ι :=
  match checkWakeOp addr₁ addr₂ identity₁ identity₂ wakeOpBits with
  | .error e => (.error e, s)
  | .ok (wakeOp, key₁, key₂) =>
    match s.mem addr₂ with
    | none =>
      (.error (.withMessage .efault "the page fault of the futex word cannot be resolved"), s)
    | some oldVal =>
      let s := { s with
        mem := update s.mem addr₂ (some (wakeOp.calculateNewVal oldVal)) }
      let (count₁, s) := s.wakeBucket (bucketOf key₁.identity) key₁ maxCount₁
      if wakeOp.shouldWake oldVal then
        let (count₂, s) := s.wakeBucket (bucketOf key₂.identity) key₂ maxCount₂
        (.ok (count₁ + count₂), s)
      else (.ok count₁, s)

/-- The move of `futex_requeue` after the wake-ups, from the bucket of `key` to that of
`newKey`. -/
def System.requeueItems (s : System ι) (key newKey : FutexKey ι) (maxNrequeues : ℕ) : System ι :=
  let b := bucketOf key.identity
  let b' := bucketOf newKey.identity
  if b ≠ b' then
    let (items, another) :=
      requeueItemsToAnotherBucket key newKey maxNrequeues (s.buckets b) (s.buckets b')
    { s with buckets := update (update s.buckets b items) b' another }
  else
    { s with
      buckets := update s.buckets b (updateItemKeys key newKey maxNrequeues (s.buckets b)) }

/-- `futex_requeue`: some waiters are woken and some of the others wait for another word from then
on. -/
def futexRequeue (addr maxNwakes maxNrequeues newAddr : ℕ) (identity newIdentity : ι)
    (s : System ι) : Except Error ℕ × System ι :=
  if newAddr = addr then futexWake bucketOf addr maxNwakes identity s
  else
    match FutexKey.new addr bitsetMatchAny identity, FutexKey.new newAddr bitsetMatchAny newIdentity
      with
    | .ok key, .ok newKey =>
      let (nwakes, s) := s.wakeBucket (bucketOf key.identity) key maxNwakes
      (.ok nwakes, s.requeueItems bucketOf key newKey maxNrequeues)
    | .error e, _ => (.error e, s)
    | .ok _, .error e => (.error e, s)

/-! ### Interleavings -/

/-- What can happen next, each at once. -/
inductive Action (ι : Type)
  /-- A user program stores to its memory, or its mappings change. -/
  | store (addr : ℕ) (val : Option (BitVec 32))
  | beginWait (w addr : ℕ) (val bitset : BitVec 32) (identity : ι)
  /-- The timer of the wait or a signal calls `wake_up` on its waker. -/
  | interrupt (w : ℕ)
  /-- `pause_timeout` returns, without having waited or having taken the flag of its waker. -/
  | stop (w : ℕ) (waited : Bool) (result : Except Error Unit)
  | dequeue (w : ℕ)
  | dropWaiter (w : ℕ)
  | wakeBitset (addr maxCount : ℕ) (bitset : BitVec 32) (identity : ι)
  | wakeOp (addr₁ addr₂ maxCount₁ maxCount₂ : ℕ) (identity₁ identity₂ : ι) (wakeOpBits : BitVec 32)
  | requeue (addr maxNwakes maxNrequeues newAddr : ℕ) (identity newIdentity : ι)

/-- The count that a wake operation returns is added up. -/
def report (r : Except Error ℕ × System ι) : System ι :=
  match r.1 with
  | .ok count => { r.2 with reported := r.2.reported + count }
  | .error _ => r.2

/-- One action; `none` when it is not possible. -/
def System.step (s : System ι) : Action ι → Option (System ι)
  | .store addr val => some { s with mem := update s.mem addr val }
  | .beginWait w addr val bitset identity =>
    match s.waits w with
    | .unused => some (beginWait bucketOf w addr val bitset identity s)
    | _ => none
  | .interrupt w => some { s with hasWoken := (wakeUp s.hasWoken w).2 }
  | .stop w waited result =>
    match s.waits w with
    | .paused key =>
      if waited then
        -- the pause goes on until the flag is set, and takes it
        if s.hasWoken w then
          some { s.setWait w (.stopped key result) with
                 hasWoken := update s.hasWoken w false }
        else none
      else some (s.setWait w (.stopped key result))
    | _ => none
  | .dequeue w =>
    match s.waits w with
    | .stopped key result => some (dequeue bucketOf w key result s)
    | _ => none
  | .dropWaiter w =>
    match s.waits w with
    | .dequeued result => some (dropWaiter w result s)
    | _ => none
  | .wakeBitset addr maxCount bitset identity =>
    some (report (futexWakeBitset bucketOf addr maxCount bitset identity s))
  | .wakeOp addr₁ addr₂ maxCount₁ maxCount₂ identity₁ identity₂ wakeOpBits =>
    some (report (futexWakeOp bucketOf addr₁ addr₂ maxCount₁ maxCount₂ identity₁ identity₂
      wakeOpBits s))
  | .requeue addr maxNwakes maxNrequeues newAddr identity newIdentity =>
    some (report (futexRequeue bucketOf addr maxNwakes maxNrequeues newAddr identity newIdentity s))

end Calls

end Asterinas.Futex
