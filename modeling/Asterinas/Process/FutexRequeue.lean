import Asterinas.Process.Futex

/-!
# What `futex_requeue` wakes and moves

The wake-ups are exact.  The move is exact for the waiters that wait for every bit, as the key that
they are given is that of the call, with all bits set.  There are two loops for the move, one for
each relation of the buckets, and they part when no waiter is to be moved: the loop for one bucket
tests its bound only after it has looked at an item.
-/

namespace Asterinas.Futex

open Function List

section Requeue

variable {ι : Type} [DecidableEq ι] (key newKey : FutexKey ι)

/-- The waiter waits on another word, with the bitset that it has. -/
def FutexItem.moveTo (identity : ι) (item : FutexItem ι) : FutexItem ι :=
  { item with key := { item.key with identity } }

/-- `items` become `left` by waking `n` waiters that match the key, and no other. -/
def WakesExactly (n : ℕ) (hasWoken hasWoken' : ℕ → Bool) (items left : List (FutexItem ι)) : Prop :=
  ∃ woken, items.Perm (woken ++ left) ∧ woken.length = n ∧
    (∀ item ∈ woken, item.key.matchUp key = true ∧ hasWoken item.waker = false) ∧
    ∀ w, hasWoken' w = (hasWoken w || decide (w ∈ woken.map FutexItem.waker))

/-- `items` become `items'` by moving `n` waiters that match the key to another word. -/
def MovesExactly (n : ℕ) (identity : ι) (items items' : List (FutexItem ι)) : Prop :=
  ∃ moved rest, items.Perm (moved ++ rest) ∧ items'.Perm (moved.map (.moveTo identity) ++ rest) ∧
    (∀ item ∈ moved, item.key.matchUp key = true) ∧ moved.length = n

/-- `n` waiters that match the key leave the first bucket and enter the second, on another word. -/
def MovesAcross (n : ℕ) (identity : ι) (items another items' another' : List (FutexItem ι)) :
    Prop :=
  ∃ moved, items.Perm (moved ++ items') ∧ another'.Perm (another ++ moved.map (.moveTo identity)) ∧
    (∀ item ∈ moved, item.key.matchUp key = true) ∧ moved.length = n

section

variable (n : ℕ) (hasWoken : ℕ → Bool) (items : List (FutexItem ι))

/-- The waiter at the index is one of the first `n` that can be woken; a waker counts once. -/
def WokenAt (item : FutexItem ι) (i : ℕ) : Prop :=
  item.key.matchUp key = true ∧ hasWoken item.waker = false ∧
    item.waker ∉ wakeable key hasWoken (items.take i) ∧
    (wakeable key hasWoken (items.take i)).card < n

instance (item : FutexItem ι) (i : ℕ) : Decidable (WokenAt key n hasWoken items item i) :=
  inferInstanceAs (Decidable (_ ∧ _))

/-- The waiters that are left when the first `n` are woken that can be. -/
def leftAfterWakes : List (FutexItem ι) :=
  (items.zipIdx.filter fun p => ¬ WokenAt key n hasWoken items p.1 p.2).map Prod.fst

end

/-! ### The wake-ups -/

section

variable {key : FutexKey ι} {n i : ℕ} {hasWoken : ℕ → Bool} {item other : FutexItem ι}
  {rest : List (FutexItem ι)}

lemma wokenAt_cons_succ :
    WokenAt key n hasWoken (item :: rest) other (i + 1) ↔
      if item.key.matchUp key = true ∧ hasWoken item.waker = false ∧ 0 < n then
        WokenAt key (n - 1) (update hasWoken item.waker true) rest other i
      else WokenAt key n hasWoken rest other i := by
  unfold WokenAt
  rw [take_succ_cons]
  split
  · rename_i h
    obtain ⟨hmatch, hw, hpos⟩ := h
    rw [card_wakeable_cons _ hmatch hw, wakeable_cons _ hmatch hw, Finset.mem_insert, update_apply]
    by_cases heq : other.waker = item.waker
    · simp [heq]
    · simp only [heq, false_or, if_false, Nat.add_lt_iff_lt_sub_right]
  · rename_i h
    by_cases hpos : 0 < n
    · have hskip : (item.key.matchUp key && !hasWoken item.waker) = false := by grind
      simp only [wakeable, filter_cons, hskip, Bool.false_eq_true, if_false]
    · simp [show n = 0 by omega]

lemma leftAfterWakes_cons : leftAfterWakes key n hasWoken (item :: rest) =
    if item.key.matchUp key = true ∧ hasWoken item.waker = false ∧ 0 < n then
      leftAfterWakes key (n - 1) (update hasWoken item.waker true) rest
    else item :: leftAfterWakes key n hasWoken rest := by
  have hfirst : WokenAt key n hasWoken (item :: rest) item 0 ↔
      item.key.matchUp key = true ∧ hasWoken item.waker = false ∧ 0 < n := by
    simp [WokenAt, wakeable]
  have hidx : rest.zipIdx 1 = rest.zipIdx.map (Prod.map id (· + 1)) := by
    simp [map_snd_add_zipIdx_eq_zipIdx]
  have hfst : Prod.fst ∘ Prod.map id (· + 1) = (Prod.fst : FutexItem ι × ℕ → FutexItem ι) := rfl
  simp only [leftAfterWakes, zipIdx_cons, filter_cons, hfirst, zero_add, hidx, filter_map]
  simp only [comp_def, Prod.map, id, wokenAt_cons_succ]
  by_cases h : item.key.matchUp key = true ∧ hasWoken item.waker = false ∧ 0 < n
  · simp [h, hfst]
  · simp [h, hfst]

end

/-- The loop keeps the waiters that are left. -/
lemma removeAndWakeFrom_items (key : FutexKey ι) (maxCount count : ℕ) (hasWoken : ℕ → Bool)
    (items : List (FutexItem ι)) :
    (removeAndWakeFrom key maxCount count hasWoken items).items =
      leftAfterWakes key (maxCount - count) hasWoken items := by
  induction items generalizing count hasWoken with
  | nil => rfl
  | cons item rest ih =>
    rw [removeAndWakeFrom, leftAfterWakes_cons]
    by_cases hlt : item.key.matchUp key = true ∧ count < maxCount
    · cases hw : hasWoken item.waker with
      | false => simp [wakeUp, hlt, hw, ih, Nat.sub_add_eq]
      | true =>
        have hsame : update hasWoken item.waker true = hasWoken := by rw [← hw, update_eq_self]
        simp [wakeUp, hlt, hw, ih, hsame]
    · have hskip : ¬ (item.key.matchUp key = true ∧ hasWoken item.waker = false ∧
          0 < maxCount - count) := fun h => hlt ⟨h.1, by omega⟩
      rw [if_neg (by simpa using hlt), if_neg hskip, ← ih]

/-! ### The move -/

variable {key} {items : List (FutexItem ι)} {n : ℕ}

/-- The loop for one bucket does the same to the items, from a point where it has not moved
enough. -/
lemma updateItemKeysFrom_perm (key newKey : FutexKey ι) {maxCount count : ℕ}
    (hlt : count < maxCount) (items : List (FutexItem ι)) :
    (updateItemKeysFrom key newKey maxCount count items).Perm
      ((extractFrom key maxCount count items).2.map ({ · with key := newKey }) ++
        (extractFrom key maxCount count items).1) := by
  induction items generalizing count with
  | nil => exact .refl _
  | cons item items ih =>
    rw [updateItemKeysFrom, extractFrom]
    by_cases hmatch : item.key.matchUp key = true
    · simp only [hmatch, hlt, decide_true, Bool.and_true, if_true]
      split
      · obtain ⟨heq, hperm⟩ := extractFrom_spec key maxCount (count + 1) items
        rw [show maxCount - (count + 1) = 0 by omega, take_zero] at heq
        simpa [heq] using hperm
      · exact (ih (by omega)).cons _
    · simp only [hmatch, Bool.false_and, Bool.false_eq_true, if_false, if_neg hlt.not_ge]
      exact ((ih hlt).cons item).trans perm_middle.symm

variable {newKey : FutexKey ι} {items' : List (FutexItem ι)}

lemma movesExactly_zero {identity : ι} : MovesExactly key 0 identity items items' ↔
    items'.Perm items := by
  constructor
  · rintro ⟨moved, rest, hperm, hperm', -, hlen⟩
    obtain rfl := length_eq_zero_iff.mp hlen
    exact hperm'.trans hperm.symm
  · exact fun h => ⟨[], items, .refl _, h, by simp, rfl⟩

omit [DecidableEq ι] in
lemma map_moveTo {moved : List (FutexItem ι)}
    (hbits : ∀ item ∈ moved, item.key.bitset = newKey.bitset) :
    moved.map (.moveTo newKey.identity) = moved.map ({ · with key := newKey }) := by
  refine map_congr_left fun item hitem => ?_
  simp only [FutexItem.moveTo, hbits item hitem]

/-- Moving waiters is exact when each keeps its bitset. -/
lemma movesExactly_iff {moved rest : List (FutexItem ι)}
    (hmatch : ∀ item ∈ moved, item.key.matchUp key = true) (hperm : items.Perm (moved ++ rest))
    (hperm' : items'.Perm (moved.map ({ · with key := newKey }) ++ rest))
    (hlen : moved.length = n) :
    MovesExactly key n newKey.identity items items' ↔
      ∀ item ∈ moved, item.key.bitset = newKey.bitset := by
  constructor
  · rintro ⟨moved', rest', hitems, hitems', -, -⟩
    -- counted by their bitsets, no waiter has changed
    have hbits := (hperm.symm.trans hitems).countP_eq fun item => item.key.bitset = newKey.bitset
    have hbits' := (hperm'.symm.trans hitems').countP_eq fun item => item.key.bitset = newKey.bitset
    have hkept : (moved'.map (FutexItem.moveTo newKey.identity)).countP
        (fun item => item.key.bitset = newKey.bitset) =
        moved'.countP fun item => item.key.bitset = newKey.bitset := by
      rw [countP_map]
      rfl
    simp only [countP_append, hkept] at hbits hbits'
    simp only [countP_map, comp_def, decide_true, countP_true] at hbits'
    have hall : moved.countP (fun item => item.key.bitset = newKey.bitset) =
      moved.length := by omega
    exact fun item hitem => of_decide_eq_true (countP_eq_length.mp hall item hitem)
  · intro hbits
    exact ⟨moved, rest, hperm, by rwa [map_moveTo hbits], hmatch, hlen⟩

lemma movesAcross_iff {moved rest another : List (FutexItem ι)}
    (hmatch : ∀ item ∈ moved, item.key.matchUp key = true) (hperm : items.Perm (moved ++ rest))
    (hlen : moved.length = n) :
    MovesAcross key n newKey.identity items another rest
        (another ++ moved.map ({ · with key := newKey })) ↔
      ∀ item ∈ moved, item.key.bitset = newKey.bitset := by
  constructor
  · rintro ⟨moved', hitems, hanother, hmatch', hlen'⟩
    refine (movesExactly_iff hmatch hperm (.refl _) hlen).mp
      ⟨moved', rest, hitems, ?_, hmatch', hlen'⟩
    exact ((perm_append_left_iff another).mp hanother).append_right rest
  · intro hbits
    exact ⟨moved, hperm, by rw [map_moveTo hbits], hmatch, hlen⟩

section

variable (bucketOf : ι → ℕ) (s : System ι)

/-- `n` of the waiters have moved, within a bucket or from one to another, and the others are as
they were. -/
def System.Requeues (s s' : System ι) (b b' : ℕ) (key : FutexKey ι) (n : ℕ) (identity : ι)
    (items : List (FutexItem ι)) : Prop :=
  if b = b' then MovesExactly key n identity items (s'.buckets b)
  else MovesAcross key n identity items (s.buckets b') (s'.buckets b) (s'.buckets b')

/-- The move is exact unless a waiter waits for some bits only or a bound of zero is tested too
late. -/
lemma requeueItems_exact_iff (maxNrequeues : ℕ) (hne : newKey.identity ≠ key.identity) :
    let items := s.buckets (bucketOf key.identity)
    let b := bucketOf key.identity
    let b' := bucketOf newKey.identity
    s.Requeues (s.requeueItems bucketOf key newKey maxNrequeues) b b' key
        (min maxNrequeues (items.countP fun item => item.key.matchUp key)) newKey.identity items ↔
      (∀ item ∈ (items.filter fun item => item.key.matchUp key).take maxNrequeues,
        item.key.bitset = newKey.bitset) ∧
      (b = b' → maxNrequeues = 0 → ∀ item ∈ items.head?, item.key.matchUp key = false) := by
  obtain ⟨heq, hperm⟩ := extractFrom_spec key maxNrequeues 0 (s.buckets (bucketOf key.identity))
  rw [Nat.sub_zero] at heq
  have hmatch : ∀ item ∈ (extractFrom key maxNrequeues 0 (s.buckets (bucketOf key.identity))).2,
      item.key.matchUp key = true := by
    intro item hitem
    rw [heq] at hitem
    exact (mem_filter.mp (mem_of_mem_take hitem)).2
  have hlen := congrArg length heq
  rw [length_take, ← countP_eq_length_filter] at hlen
  unfold System.requeueItems System.Requeues
  by_cases hb : bucketOf key.identity = bucketOf newKey.identity
  · simp only [hb, ne_eq, not_true_eq_false, if_false, if_true, update_self, updateItemKeys] at *
    by_cases hzero : maxNrequeues = 0
    · subst hzero
      rw [Nat.zero_min, movesExactly_zero]
      cases s.buckets (bucketOf newKey.identity) with
      | nil => simp [updateItemKeysFrom]
      | cons item items =>
        cases hmatch : item.key.matchUp key with
        | false => simp [updateItemKeysFrom, hmatch]
        | true =>
          -- the first item has left its word
          have hword : item.key.identity = key.identity :=
            of_decide_eq_true (Bool.and_eq_true_iff.mp hmatch).1
          have hmoved :
              ¬ (updateItemKeysFrom key newKey 0 0 (item :: items)).Perm (item :: items) := by
            intro hperm
            have := hperm.countP_eq fun item => item.key.identity = key.identity
            simp [updateItemKeysFrom, hmatch, hword, hne] at this
          simp [hmoved, hmatch]
    · rw [movesExactly_iff hmatch hperm
        (updateItemKeysFrom_perm key newKey (pos_of_ne_zero hzero) _) hlen, heq]
      simp [hzero]
  · simp only [hb, ne_eq, not_false_eq_true, if_false, if_true, requeueItemsToAnotherBucket,
      update_self, update_of_ne hb]
    rw [movesAcross_iff hmatch hperm hlen, heq]
    simp

lemma requeueItems_frame (key newKey : FutexKey ι) (maxNrequeues : ℕ) :
    (s.requeueItems bucketOf key newKey maxNrequeues).hasWoken = s.hasWoken ∧
      ∀ c, c ≠ bucketOf key.identity → c ≠ bucketOf newKey.identity →
        (s.requeueItems bucketOf key newKey maxNrequeues).buckets c = s.buckets c := by
  unfold System.requeueItems
  dsimp only
  split
  · exact ⟨rfl, fun c hc hc' => (update_of_ne hc' _ _).trans (update_of_ne hc _ _)⟩
  · exact ⟨rfl, fun c hc _ => update_of_ne hc _ _⟩

/-- The call has woken as many waiters of the first word as it may and there are, has moved as many
of the others to the second word as it may and there are, and has changed no other waiter. -/
def RequeueExact (maxNwakes maxNrequeues : ℕ) (key newKey : FutexKey ι)
    (result : Except Error ℕ × System ι) : Prop :=
  let b := bucketOf key.identity
  let b' := bucketOf newKey.identity
  let left := leftAfterWakes key maxNwakes s.hasWoken (s.buckets b)
  let nwakes := min maxNwakes (wakeable key s.hasWoken (s.buckets b)).card
  result.1 = .ok nwakes ∧
    WakesExactly key nwakes s.hasWoken result.2.hasWoken (s.buckets b) left ∧
    s.Requeues result.2 b b' key (min maxNrequeues (left.countP fun item => item.key.matchUp key))
      newKey.identity left ∧
    ∀ c, c ≠ b → c ≠ b' → result.2.buckets c = s.buckets c

end

/-- `futex_requeue` is exact, whatever the buckets hold, when the waiters that it moves wait for
every bit and, for words of one bucket and a bound of zero, the first waiter left in the bucket does
not match. -/
theorem futex_requeue_exact_iff (bucketOf : ι → ℕ) (s : System ι) (maxNwakes maxNrequeues : ℕ)
    {addr newAddr : ℕ} {identity newIdentity : ι} (hne : newAddr ≠ addr)
    (hkey : FutexKey.new addr bitsetMatchAny identity = .ok key)
    (hnewKey : FutexKey.new newAddr bitsetMatchAny newIdentity = .ok newKey)
    (hword : newKey.identity ≠ key.identity) :
    RequeueExact bucketOf s maxNwakes maxNrequeues key newKey
        (futexRequeue bucketOf addr maxNwakes maxNrequeues newAddr identity newIdentity s) ↔
      let b := bucketOf key.identity
      let items := leftAfterWakes key maxNwakes s.hasWoken (s.buckets b)
      (∀ item ∈ (items.filter fun item => item.key.matchUp key).take maxNrequeues,
        item.key.bitset = newKey.bitset) ∧
      (b = bucketOf newKey.identity → maxNrequeues = 0 →
        ∀ item ∈ items.head?, item.key.matchUp key = false) := by
  obtain ⟨hcount, woken, -, hlen, hperm, hwoken, hflags⟩ :=
    removeAndWakeFrom_spec key maxNwakes 0 s.hasWoken (s.buckets (bucketOf key.identity))
  rw [zero_add, Nat.sub_zero] at hcount
  rw [zero_add, hcount] at hlen
  have hleft : (s.wakeBucket (bucketOf key.identity) key maxNwakes).2.buckets
      (bucketOf key.identity) =
      leftAfterWakes key maxNwakes s.hasWoken (s.buckets (bucketOf key.identity)) :=
    (update_self ..).trans (removeAndWakeFrom_items ..)
  have hiff :=
    requeueItems_exact_iff bucketOf (s.wakeBucket (bucketOf key.identity) key maxNwakes).2
    maxNrequeues hword
  have hframe := requeueItems_frame bucketOf (s.wakeBucket (bucketOf key.identity) key maxNwakes).2
    key
    newKey maxNrequeues
  -- the wake-ups leave the second bucket as it is, if it is another one
  have hsecond : ∀ s' n identity items,
      (s.wakeBucket (bucketOf key.identity) key maxNwakes).2.Requeues s' (bucketOf key.identity)
        (bucketOf newKey.identity) key n identity items ↔
      s.Requeues s' (bucketOf key.identity) (bucketOf newKey.identity) key n identity items := by
    intro s' n identity items
    unfold System.Requeues
    split
    · exact .rfl
    · rename_i hb
      rw [show (s.wakeBucket (bucketOf key.identity) key maxNwakes).2.buckets
        (bucketOf newKey.identity) = _ from update_of_ne (Ne.symm hb) _ _]
  simp only [hleft, hsecond] at hiff
  simp only [futexRequeue, if_neg hne, hkey, hnewKey]
  refine ⟨fun h => hiff.mp h.2.2.1, fun h =>
    ⟨congrArg _ hcount, ?_, hiff.mpr h, fun c hc hc' => ?_⟩⟩
  · rw [hframe.1]
    refine ⟨woken, ?_, hlen.symm, hwoken, hflags⟩
    rwa [removeAndWakeFrom_items] at hperm
  · exact (hframe.2 c hc hc').trans (update_of_ne hc _ _)

/-- One waiter on word 0, for the given bits. -/
def oneWaiter (bitset : BitVec 32) : System ℕ :=
  { System.init fun _ => none with buckets := update (fun _ => []) 0 [⟨⟨0, bitset⟩, 7⟩] }

/-- Four waiters on word 0, of which the first cannot be woken any more, and one on each of the
words 1 and 2, which has the bucket of word 0. -/
def sixWaiters : System ℕ :=
  { System.init fun _ => none with
    hasWoken := fun w => w = 7
    buckets := update (update (fun _ => []) 1 [⟨⟨1, 1⟩, 20⟩]) 0
      [⟨⟨0, bitsetMatchAny⟩, 7⟩, ⟨⟨2, 1⟩, 30⟩, ⟨⟨0, 1⟩, 8⟩, ⟨⟨0, bitsetMatchAny⟩, 9⟩,
        ⟨⟨0, 1⟩, 10⟩] }

/-- One waiter is woken, and the two that are moved wait for every bit; the words 0 and 1 have two
buckets first and then, with all others, one. -/
theorem futex_requeue_exact_of_any :
    (RequeueExact (· % 2) sixWaiters 1 2 ⟨0, bitsetMatchAny⟩ ⟨1, bitsetMatchAny⟩
        (futexRequeue (· % 2) 0 1 2 4 0 1 sixWaiters) ∧
      (futexRequeue (· % 2) 0 1 2 4 0 1 sixWaiters).2.buckets 1 =
        [⟨⟨1, 1⟩, 20⟩, ⟨⟨1, bitsetMatchAny⟩, 7⟩, ⟨⟨1, bitsetMatchAny⟩, 9⟩]) ∧
    RequeueExact (fun _ => 0) sixWaiters 1 2 ⟨0, bitsetMatchAny⟩ ⟨1, bitsetMatchAny⟩
      (futexRequeue (fun _ => 0) 0 1 2 4 0 1 sixWaiters) :=
  ⟨⟨(futex_requeue_exact_iff _ _ 1 2 (by decide) rfl rfl (by decide)).mpr (by decide), by decide⟩,
    (futex_requeue_exact_iff _ _ 1 2 (by decide) rfl rfl (by decide)).mpr (by decide)⟩

/-- A waiter for one bit is moved as one for all bits, and with a bound of zero it is moved if the
words have one bucket and not if they have two. -/
theorem futex_requeue_changes_bitset :
    (futexRequeue id 0 0 1 4 0 1 (oneWaiter 1)).2.buckets 1 = [⟨⟨1, bitsetMatchAny⟩, 7⟩] ∧
    (futexRequeue (fun _ => 0) 0 0 0 4 0 1 (oneWaiter 1)).2.buckets 0 = [⟨⟨1, bitsetMatchAny⟩, 7⟩] ∧
    (futexRequeue id 0 0 0 4 0 1 (oneWaiter 1)).2.buckets 1 = [] := by
  decide

end Requeue

end Asterinas.Futex
