import Asterinas.Process.Futex

/-!
# Futex wait and wake over every interleaving

A waiter finds out whether it was woken by looking for its item in the bucket that it put the item
in.  As long as every item stays in that bucket, the answer is right: `Inv` ties the items in the
buckets, the wakers counted by wake operations and the phases of the waits together, and every
action keeps it.  A requeue that moves an item to another bucket breaks the tie, and the waiter
then takes itself for woken and leaves its item behind.
-/

namespace Asterinas.Futex

open Function List FutexItem

section Waits

variable {ι : Type} (bucketOf : ι → ℕ)

/-- The wakers of the items in bucket `b`. -/
def System.wakers (s : System ι) (b : ℕ) : List ℕ := (s.buckets b).map waker

/-- The key of a wait whose item has been added and not been looked for yet. -/
def Phase.queuedKey : Phase ι → Option (FutexKey ι)
  | .paused key => some key
  | .stopped key _ => some key
  | _ => none

/-- The result of a wait that has looked for its item, or never had one. -/
def Phase.result : Phase ι → Option (Except Error Unit)
  | .dequeued result => some result
  | .returned result => some result
  | _ => none

/-- What holds between calls; `pending` wakers are counted and not yet reported. -/
structure Inv (s : System ι) (pending : ℕ) : Prop where
  home : ∀ b, ∀ w ∈ s.wakers b,
    ∃ key, (s.waits w).queuedKey = some key ∧ bucketOf key.identity = b ∧ w ∉ s.counted
  single : ∀ b, (s.wakers b).Nodup
  queued : ∀ w key, (s.waits w).queuedKey = some key →
    w ∈ s.counted ∨ w ∈ s.wakers (bucketOf key.identity)
  once : s.counted.Nodup
  used : ∀ w ∈ s.counted, s.waits w ≠ .unused
  reported : s.reported + pending = s.counted.length
  outcome : ∀ w result, (s.waits w).result = some result → (result = .ok () ↔ w ∈ s.counted)

/-! ### The buckets -/

variable {key : FutexKey ι}

lemma perm_swapRemove {i : ℕ} {α : Type} {l : List α} (hi : i < l.length) :
    (l[i] :: swapRemove l i).Perm l := by
  have hl : l.take i ++ l[i] :: l.drop (i + 1) = l := by
    rw [cons_getElem_drop_succ, take_append_drop]
  refine List.Perm.trans ?_ (List.Perm.of_eq hl)
  unfold swapRemove
  generalize l.take i = front
  generalize l.drop (i + 1) = back
  cases hlast : back.getLast? with
  | none =>
    rw [getLast?_eq_none_iff.mp hlast]
    exact (perm_append_singleton _ _).symm
  | some last =>
    -- the last element goes back to the end
    have hback : back.dropLast ++ [last] = back := dropLast_append_getLast? last hlast
    have hperm : (last :: back.dropLast).Perm back := by
      nth_rewrite 2 [← hback]
      exact (perm_append_singleton _ _).symm
    exact ((hperm.append_left front).cons _).trans perm_middle.symm

/-- `remove_by_waker` takes out the item of the waker, if there is one. -/
lemma removeByWaker_spec (w : ℕ) (items : List (FutexItem ι)) :
    (removeByWaker w items = (false, items) ∧ w ∉ items.map waker) ∨
      ∃ items', removeByWaker w items = (true, items') ∧
        (w :: items'.map waker).Perm (items.map waker) := by
  unfold removeByWaker
  cases hfind : items.findIdx? (fun item => item.waker = w) with
  | none =>
    refine .inl ⟨rfl, ?_⟩
    simpa using hfind
  | some i =>
    obtain ⟨hi, hw, -⟩ := findIdx?_eq_some_iff_getElem.mp hfind
    refine .inr ⟨_, rfl, ?_⟩
    have hperm := (perm_swapRemove hi).map waker
    have hwaker : items[i].waker = w := by simpa using hw
    rwa [map_cons, hwaker] at hperm

lemma Phase.result_eq_none {phase : Phase ι} (h : phase.queuedKey = some key) :
    phase.result = none := by
  cases phase <;> first | rfl | cases h

/-! ### What keeps the invariant -/

lemma Inv.init (mem : ℕ → Option (BitVec 32)) : Inv bucketOf (System.init mem) 0 where
  home := by simp [System.init, System.wakers]
  single := by simp [System.init, System.wakers]
  queued := by simp [System.init, Phase.queuedKey]
  once := nodup_nil
  used := by simp [System.init]
  reported := rfl
  outcome := by simp [System.init, Phase.result]

variable {bucketOf} {s : System ι} {n : ℕ}

lemma map_waker_update {b b' : ℕ} (items : List (FutexItem ι)) :
    (update s.buckets b items b').map waker = if b' = b then items.map waker else s.wakers b' := by
  by_cases h : b' = b
  · subst h
    rw [update_self, if_pos rfl]
  · rw [update_of_ne h, if_neg h]
    rfl

section

variable (h : Inv bucketOf s n)

include h

/-- The counts that were pending are reported. -/
lemma Inv.report : Inv bucketOf (Futex.report (.ok n, s)) 0 :=
  ⟨h.home, h.single, h.queued, h.once, h.used, h.reported, h.outcome⟩

/-- The users' memory is not part of the invariant. -/
lemma Inv.setMem (mem : ℕ → Option (BitVec 32)) : Inv bucketOf { s with mem } n :=
  ⟨h.home, h.single, h.queued, h.once, h.used, h.reported, h.outcome⟩

/-- Nor are the flags of the wakers. -/
lemma Inv.setWoken (hasWoken : ℕ → Bool) : Inv bucketOf { s with hasWoken } n :=
  ⟨h.home, h.single, h.queued, h.once, h.used, h.reported, h.outcome⟩

/-- A change of the buckets that keeps the wakers of each. -/
lemma Inv.setBuckets {buckets : ℕ → List (FutexItem ι)}
    (hb : ∀ b, ({ s with buckets } : System ι).wakers b = s.wakers b) :
    Inv bucketOf { s with buckets } n := by
  refine ⟨fun b w hw => ?_, fun b => ?_, fun w key hq => ?_, h.once, h.used, h.reported, h.outcome⟩
  · rw [hb] at hw
    exact h.home b w hw
  · rw [hb]
    exact h.single b
  · rw [hb]
    exact h.queued w key hq

end

lemma FutexKey.eq_of_new {addr : ℕ} {bitset : BitVec 32} {identity : ι}
    (h : FutexKey.new addr bitset identity = .ok key) : key = ⟨identity, bitset⟩ := by
  unfold FutexKey.new at h
  split at h
  · cases h
  · cases h
    rfl

section

variable (h : Inv bucketOf s n)

include h

/-- A wait gets to another phase, and its item into or out of a bucket; the other waits and their
items stay. -/
lemma Inv.setPhase {w : ℕ} (phase : Phase ι) (buckets : ℕ → List (FutexItem ι))
    (hothers : ∀ b, ∀ w' ≠ w, w' ∈ (buckets b).map waker ↔ w' ∈ s.wakers b)
    (hnd : ∀ b, ((buckets b).map waker).Nodup)
    (hhome : ∀ b, w ∈ (buckets b).map waker →
      ∃ key, phase.queuedKey = some key ∧ bucketOf key.identity = b ∧ w ∉ s.counted)
    (hqueued : ∀ key, phase.queuedKey = some key →
      w ∈ s.counted ∨ w ∈ (buckets (bucketOf key.identity)).map waker)
    (hused : phase ≠ .unused)
    (hres : ∀ result, phase.result = some result → (result = .ok () ↔ w ∈ s.counted)) :
    Inv bucketOf { s.setWait w phase with buckets } n := by
  refine ⟨fun b w' hw' => ?_, hnd, fun w' key hk => ?_, h.once, fun w' hw' => ?_, h.reported,
    fun w' r hr => ?_⟩ <;> rcases eq_or_ne w' w with rfl | hne
  · simpa [System.setWait] using hhome b hw'
  · simpa [System.setWait, hne] using h.home b w' ((hothers b w' hne).mp hw')
  · exact hqueued key (by simpa [System.setWait] using hk)
  · exact (h.queued w' key (by simpa [System.setWait, hne] using hk)).imp_right
      (hothers _ w' hne).mpr
  · simpa [System.setWait] using hused
  · simpa [System.setWait, hne] using h.used w' hw'
  · exact hres r (by simpa [System.setWait] using hr)
  · exact h.outcome w' r (by simpa [System.setWait, hne] using hr)

/-- A wait that gets to a phase with the same key and result. -/
lemma Inv.setWait (w : ℕ) (phase : Phase ι)
    (hq : phase.queuedKey = (s.waits w).queuedKey) (hr : phase.result = (s.waits w).result)
    (hused : phase ≠ .unused) : Inv bucketOf (s.setWait w phase) n := by
  refine h.setPhase _ s.buckets (fun _ _ _ => Iff.rfl) h.single (fun b hb => ?_)
    (fun key hk => h.queued w key (hq ▸ hk)) hused (fun r hres => h.outcome w r (hr ▸ hres))
  rw [hq]
  exact h.home b w hb

/-- A wait that is over no longer has an item, in the bucket `items` it was put in or elsewhere. -/
lemma Inv.leave {w : ℕ} {result : Except Error Unit} {items : List (FutexItem ι)}
    (hq : (s.waits w).queuedKey = some key) (hnd : (items.map waker).Nodup)
    (hmem : ∀ w', w' ∈ items.map waker ↔ w' ∈ s.wakers (bucketOf key.identity) ∧ w' ≠ w)
    (hres : result = .ok () ↔ w ∈ s.counted) : Inv bucketOf { s.setWait w (.dequeued result) with
      buckets := update s.buckets (bucketOf key.identity) items } n := by
  have hnone : ∀ b, w ∉ (update s.buckets (bucketOf key.identity) items b).map waker := by
    intro b hb
    rw [map_waker_update] at hb
    split at hb
    · exact ((hmem w).mp hb).2 rfl
    · rename_i hne
      obtain ⟨key', hk, hhome, -⟩ := h.home b w hb
      cases hq.symm.trans hk
      exact hne hhome.symm
  refine h.setPhase _ _ (fun b w' hne => ?_) (fun b => ?_) (fun b hb => absurd hb (hnone b)) nofun
    nofun fun r hr => ?_
  · rw [map_waker_update]
    split
    · rename_i hb
      rw [hmem, hb, and_iff_left hne]
    · rfl
  · rw [map_waker_update]
    split
    · exact hnd
    · exact h.single b
  · cases hr
    exact hres

/-- A waiter learns from its bucket whether it was counted. -/
lemma Inv.dequeue {w : ℕ} {result : Except Error Unit}
    (hw : s.waits w = .stopped key result) : Inv bucketOf (dequeue bucketOf w key result s) n := by
  have hq : (s.waits w).queuedKey = some key := by rw [hw]; rfl
  unfold Futex.dequeue
  rcases removeByWaker_spec w (s.buckets (bucketOf key.identity)) with
    ⟨heq, hnot⟩ | ⟨items, heq, hperm⟩
  · -- the item is gone, so a wake operation has counted the waiter
    have hcounted : w ∈ s.counted := (h.queued w key hq).resolve_right hnot
    simp only [heq]
    apply h.leave hq (h.single _)
    · exact fun w' => ⟨fun hin => ⟨hin, fun heq => hnot (heq ▸ hin)⟩, fun hin => hin.1⟩
    · simpa using hcounted
  · -- the item is still there, and the wait fails
    have hin : w ∈ s.wakers (bucketOf key.identity) := hperm.subset mem_cons_self
    have hnot : w ∉ s.counted := by
      obtain ⟨-, -, -, hnot⟩ := h.home _ w hin
      exact hnot
    have hnd := nodup_cons.mp (hperm.nodup_iff.mpr (h.single (bucketOf key.identity)))
    simp only [heq]
    apply h.leave hq hnd.2
    · intro w'
      have hiff := hperm.mem_iff (a := w')
      rw [mem_cons] at hiff
      constructor
      · exact fun hmem => ⟨hiff.mp (.inr hmem), fun heq => hnd.1 (heq ▸ hmem)⟩
      · exact fun hmem => (hiff.mpr hmem.1).resolve_left hmem.2
    · cases result <;> simpa using hnot

/-- A new wait has no item and is not counted. -/
lemma Inv.beginWait {w : ℕ} (hw : s.waits w = .unused) (addr : ℕ) (val bitset : BitVec 32)
    (identity : ι) : Inv bucketOf (beginWait bucketOf w addr val bitset identity s) n := by
  have hcounted : w ∉ s.counted := fun hmem => h.used w hmem hw
  have hnone : ∀ b, w ∉ s.wakers b := by
    intro b hmem
    obtain ⟨key, hq, -⟩ := h.home b w hmem
    rw [hw] at hq
    cases hq
  unfold Futex.beginWait
  split
  · refine h.setPhase _ s.buckets (fun _ _ _ => Iff.rfl) h.single (fun b hb => absurd hb (hnone b))
      nofun nofun fun r hr => ?_
    cases hr
    simpa using hcounted
  · rename_i key hkey
    -- the item joins its bucket
    set b := bucketOf key.identity
    refine (h.setPhase (.paused key) (update s.buckets b (s.buckets b ++ [⟨key, w⟩]))
      (fun b' w' hne => ?_) (fun b' => ?_) (fun b' hb => ⟨key, rfl, ?_, hcounted⟩)
      (fun key' hk => ?_) nofun nofun).setWoken _
    · rw [map_waker_update]
      split
      · rename_i hb
        simp [System.wakers, hb, hne]
      · rfl
    · rw [map_waker_update]
      split
      · rw [map_append]
        apply nodup_append.mpr
        refine ⟨h.single _, nodup_singleton _, fun x hx y hy heq => ?_⟩
        rw [map_cons, map_nil, mem_singleton] at hy
        exact hnone _ (hy ▸ heq ▸ hx)
      · exact h.single b'
    · by_contra hne
      rw [map_waker_update, if_neg (Ne.symm hne)] at hb
      exact hnone b' hb
    · cases hk
      exact .inr (by simp [b])

end

end Waits


/-! ### The calls keep the invariant -/

variable {ι : Type} [DecidableEq ι] (bucketOf : ι → ℕ)

lemma map_waker_updateItemKeysFrom (key newKey : FutexKey ι) (maxCount count : ℕ)
    (items : List (FutexItem ι)) :
    (updateItemKeysFrom key newKey maxCount count items).map waker = items.map waker := by
  induction items generalizing count with
  | nil => rfl
  | cons item rest ih =>
    rw [updateItemKeysFrom]
    cases item.key.matchUp key <;> simp only [Bool.false_eq_true, if_true, if_false] <;> split
    all_goals simp only [map_cons, ih]

variable {key : FutexKey ι} {maxNrequeues : ℕ} {items : List (FutexItem ι)}

lemma extractFrom_eq_self (h : maxNrequeues = 0 ∨ ∀ item ∈ items, item.key.matchUp key = false)
    (count : ℕ) :
    extractFrom key maxNrequeues count items = (items, []) := by
  induction items with
  | nil => rfl
  | cons item rest ih =>
    have hskip : ¬ (item.key.matchUp key && decide (count < maxNrequeues)) = true := by
      rcases h with rfl | h
      · simp
      · simp [h item mem_cons_self]
    rw [extractFrom, if_neg hskip,
      ih (h.imp_right fun h item hmem => h item (mem_cons_of_mem _ hmem))]

section Calls

variable {bucketOf} {s : System ι} {n : ℕ}

/-- Waking items of a bucket turns queued waits into counted ones. -/
lemma Inv.wakeBucket (h : Inv bucketOf s n) (b : ℕ) (key : FutexKey ι) (maxCount : ℕ) :
    Inv bucketOf (s.wakeBucket b key maxCount).2 (n + (s.wakeBucket b key maxCount).1) := by
  obtain ⟨-, woken, hwakers, hcount, hperm, -⟩ :=
    removeAndWakeFrom_spec key maxCount 0 s.hasWoken (s.buckets b)
  simp only [System.wakeBucket, removeAndWakeItems]
  set r := removeAndWakeFrom key maxCount 0 s.hasWoken (s.buckets b) with hr
  -- the wakers are kept or counted
  replace hperm : (r.items.map waker ++ r.woken).Perm (s.wakers b) := by
    rw [hwakers, ← map_append]
    exact (perm_append_comm.trans hperm.symm).map waker
  have hsplit := nodup_append.mp (hperm.nodup_iff.mpr (h.single b))
  -- a waker that is counted now was in this bucket
  have hwoken : ∀ w ∈ r.woken, ∃ key, (s.waits w).queuedKey = some key ∧
      bucketOf key.identity = b ∧ w ∉ s.counted := fun w hw =>
    h.home b w (hperm.subset (mem_append_right _ hw))
  refine ⟨?_, ?_, ?_, ?_, ?_, ?_, ?_⟩
  · intro b' w hw
    simp only [System.wakers, map_waker_update] at hw
    split at hw
    · rename_i hb
      obtain ⟨key', hq, hhome, hnot⟩ := h.home b w (hperm.subset (mem_append_left _ hw))
      refine ⟨key', hq, hhome.trans hb.symm, fun hmem => ?_⟩
      rcases mem_append.mp hmem with hmem | hmem
      · exact hnot hmem
      · exact hsplit.2.2 w hw w hmem rfl
    · rename_i hb
      obtain ⟨key', hq, hhome, hnot⟩ := h.home b' w hw
      refine ⟨key', hq, hhome, fun hmem => ?_⟩
      rcases mem_append.mp hmem with hmem | hmem
      · exact hnot hmem
      · obtain ⟨key'', hq', hhome', -⟩ := hwoken w hmem
        rw [hq] at hq'
        cases hq'
        exact hb (hhome.symm.trans hhome')
  · intro b'
    simp only [System.wakers, map_waker_update]
    split
    · exact hsplit.1
    · exact h.single b'
  · intro w key' hq
    rcases h.queued w key' hq with hmem | hmem
    · exact .inl (mem_append_left _ hmem)
    · simp only [System.wakers, map_waker_update]
      split
      · rename_i hb
        rw [hb] at hmem
        rcases mem_append.mp (hperm.symm.subset hmem) with hmem | hmem
        · exact .inr hmem
        · exact .inl (mem_append_right _ hmem)
      · exact .inr hmem
  · apply nodup_append.mpr
    refine ⟨h.once, hsplit.2.1, fun w hw w' hw' heq => ?_⟩
    obtain ⟨-, -, -, hnot⟩ := hwoken w' hw'
    exact hnot (heq ▸ hw)
  · intro w hw
    rcases mem_append.mp hw with hw | hw
    · exact h.used w hw
    · obtain ⟨key', hq, -⟩ := hwoken w hw
      intro hunused
      rw [show s.waits w = .unused from hunused] at hq
      cases hq
  · rw [length_append, ← h.reported, hcount, hwakers, length_map]
    show s.reported + (n + _) = _
    omega
  · intro w result hres
    rw [h.outcome w result hres, mem_append]
    constructor
    · exact .inl
    · rintro (hmem | hmem)
      · exact hmem
      · obtain ⟨key', hq, -⟩ := hwoken w hmem
        rw [show (s.waits w).result = none from Phase.result_eq_none hq] at hres
        cases hres

lemma Inv.wakeBitset (h : Inv bucketOf s 0) (addr maxCount : ℕ) (bitset : BitVec 32)
    (identity : ι) :
    Inv bucketOf (Futex.report (futexWakeBitset bucketOf addr maxCount bitset identity s)) 0 := by
  unfold futexWakeBitset
  split
  · exact h
  · split
    · exact h
    · rename_i key hkey
      have hi := h.wakeBucket (bucketOf key.identity) key maxCount
      rw [zero_add] at hi
      exact hi.report

lemma Inv.wakeOp (h : Inv bucketOf s 0) (addr₁ addr₂ maxCount₁ maxCount₂ : ℕ)
    (identity₁ identity₂ : ι) (wakeOpBits : BitVec 32) :
    Inv bucketOf (Futex.report (futexWakeOp bucketOf addr₁ addr₂ maxCount₁ maxCount₂ identity₁
      identity₂ wakeOpBits s)) 0 := by
  unfold futexWakeOp
  split
  · exact h
  · rename_i op key₁ key₂ hcheck
    split
    · exact h
    · rename_i oldVal hmem
      have h1 := (h.setMem (update s.mem addr₂ (some (op.calculateNewVal oldVal)))).wakeBucket
        (bucketOf key₁.identity) key₁ maxCount₁
      rw [zero_add] at h1
      split
      · exact (h1.wakeBucket (bucketOf key₂.identity) key₂ maxCount₂).report
      · exact h1.report

/-- The requeue moves no item to another bucket: it works within one bucket, it may move none, or
no item is left that matches after the wake-ups. -/
def StaysHome (bucketOf : ι → ℕ) (s : System ι) : Action ι → Prop
  | .requeue addr maxNwakes maxNrequeues newAddr identity newIdentity =>
    newAddr = addr ∨ bucketOf identity = bucketOf newIdentity ∨ maxNrequeues = 0 ∨
      ∀ item ∈ (removeAndWakeItems ⟨identity, bitsetMatchAny⟩ maxNwakes s.hasWoken
        (s.buckets (bucketOf identity))).items,
        item.key.matchUp ⟨identity, bitsetMatchAny⟩ = false
  | _ => True

lemma Inv.requeueItems {newKey : FutexKey ι} (h : Inv bucketOf s n)
    (hstay : bucketOf key.identity = bucketOf newKey.identity ∨ maxNrequeues = 0 ∨
      ∀ item ∈ s.buckets (bucketOf key.identity), item.key.matchUp key = false) :
    Inv bucketOf (s.requeueItems bucketOf key newKey maxNrequeues) n := by
  unfold System.requeueItems
  dsimp only
  split
  · rename_i hne
    have hself := extractFrom_eq_self (hstay.resolve_left hne) 0
    apply h.setBuckets
    intro b
    simp only [System.wakers, requeueItemsToAnotherBucket, hself, map_nil, append_nil,
      update_eq_self]
  · apply h.setBuckets
    intro b
    rw [System.wakers, map_waker_update, updateItemKeys, map_waker_updateItemKeysFrom]
    split
    · rename_i hb
      rw [hb]
      rfl
    · rfl

lemma Inv.requeue {addr maxNwakes newAddr : ℕ} {identity newIdentity : ι} (h : Inv bucketOf s 0)
    (hstay : StaysHome bucketOf s
      (.requeue addr maxNwakes maxNrequeues newAddr identity newIdentity)) :
    Inv bucketOf (Futex.report (futexRequeue bucketOf addr maxNwakes maxNrequeues newAddr identity
      newIdentity s)) 0 := by
  unfold futexRequeue
  split
  · exact h.wakeBitset addr maxNwakes bitsetMatchAny identity
  · rename_i haddr
    split
    · rename_i key newKey hkey hnew
      obtain rfl := FutexKey.eq_of_new hkey
      obtain rfl := FutexKey.eq_of_new hnew
      have hwake := h.wakeBucket (bucketOf identity) ⟨identity, bitsetMatchAny⟩ maxNwakes
      rw [zero_add] at hwake
      refine (hwake.requeueItems ?_).report
      refine (hstay.resolve_left haddr).imp_right (Or.imp_right fun hnone item hmem => ?_)
      apply hnone
      simpa [System.wakeBucket] using hmem
    · exact h
    · exact h

/-- Every action that moves no item to another bucket keeps the invariant. -/
lemma Inv.step {a : Action ι} {s' : System ι} (h : Inv bucketOf s 0)
    (hstay : StaysHome bucketOf s a) (hstep : s.step bucketOf a = some s') : Inv bucketOf s' 0 := by
  cases a with
  | store addr val =>
    cases hstep
    exact h.setMem _
  | beginWait w addr val bitset identity =>
    simp only [System.step] at hstep
    split at hstep
    · rename_i hw
      cases hstep
      exact h.beginWait hw addr val bitset identity
    · cases hstep
  | interrupt w =>
    cases hstep
    exact h.setWoken _
  | stop w waited result =>
    simp only [System.step] at hstep
    split at hstep
    · rename_i key hw
      have hset := h.setWait w (.stopped key result) (by rw [hw]; rfl) (by rw [hw]; rfl) (by simp)
      split at hstep
      · split at hstep
        · cases hstep
          exact hset.setWoken _
        · cases hstep
      · cases hstep
        exact hset
    · cases hstep
  | dequeue w =>
    simp only [System.step] at hstep
    split at hstep
    · rename_i key result hw
      cases hstep
      exact h.dequeue hw
    · cases hstep
  | dropWaiter w =>
    simp only [System.step] at hstep
    split at hstep
    · rename_i result hw
      cases hstep
      have hset := h.setWait w (.returned result) (by rw [hw]; rfl) (by rw [hw]; rfl) (by simp)
      exact hset.setWoken _
    · cases hstep
  | wakeBitset addr maxCount bitset identity =>
    cases hstep
    exact h.wakeBitset addr maxCount bitset identity
  | wakeOp addr₁ addr₂ maxCount₁ maxCount₂ identity₁ identity₂ wakeOpBits =>
    cases hstep
    exact h.wakeOp addr₁ addr₂ maxCount₁ maxCount₂ identity₁ identity₂ wakeOpBits
  | requeue addr maxNwakes maxNrequeues newAddr identity newIdentity =>
    cases hstep
    exact h.requeue hstay

end Calls

/-! ### Runs -/

/-- The states reached from `mem` and empty buckets by actions that move no item to another
bucket. -/
inductive Reachable (mem : ℕ → Option (BitVec 32)) : System ι → Prop
  | init : Reachable mem (System.init mem)
  | step {s s' : System ι} {a : Action ι} (h : Reachable mem s) (hstay : StaysHome bucketOf s a)
      (hstep : s.step bucketOf a = some s') : Reachable mem s'

lemma Inv.of_reachable {mem : ℕ → Option (BitVec 32)} {s : System ι}
    (h : Reachable bucketOf mem s) : Inv bucketOf s 0 := by
  induction h with
  | init => exact Inv.init bucketOf mem
  | step _ hstay hstep ih => exact ih.step hstay hstep

/-- In every interleaving whose requeues move no item to another bucket: a wait returns success
exactly when a wake operation has counted its waiter, the counts add up to the number of waiters
woken, and a wait that has returned has no item in any bucket. -/
theorem wait_and_wake_agree {mem : ℕ → Option (BitVec 32)} {s : System ι}
    (h : Reachable bucketOf mem s) :
    (∀ w, s.waits w = .returned (.ok ()) → w ∈ s.counted) ∧
    (∀ w ∈ s.counted, ∀ result, s.waits w = .returned result → result = .ok ()) ∧
    (s.counted.Nodup ∧ s.reported = s.counted.length) ∧
    ∀ w result, s.waits w = .returned result → ∀ b, ∀ item ∈ s.buckets b, item.waker ≠ w := by
  have hinv := Inv.of_reachable bucketOf h
  refine ⟨fun w hw => ?_, fun w hmem result hw => ?_, ⟨hinv.once, hinv.reported⟩,
    fun w result hw b item hitem heq => ?_⟩
  · exact (hinv.outcome w (.ok ()) (by rw [hw]; rfl)).mp rfl
  · exact (hinv.outcome w result (by rw [hw]; rfl)).mpr hmem
  · obtain ⟨key, hq, -⟩ := hinv.home b w (heq ▸ mem_map_of_mem hitem)
    rw [hw] at hq
    cases hq

lemma Reachable.foldlM {mem : ℕ → Option (BitVec 32)} {actions : List (Action ι)} {s s' : System ι}
    (h : Reachable bucketOf mem s) (hstay : ∀ a ∈ actions, ∀ s, StaysHome bucketOf s a)
    (hrun : actions.foldlM (System.step bucketOf) s = some s') : Reachable bucketOf mem s' := by
  induction actions generalizing s with
  | nil =>
    cases hrun
    exact h
  | cons a actions ih =>
    rw [foldlM_cons] at hrun
    obtain ⟨s₁, hstep, hrun⟩ := Option.bind_eq_some_iff.mp hrun
    rw [forall_mem_cons] at hstay
    exact ih (.step h (hstay.1 s) hstep) hstay.2 hrun

/-- Of two waits on word 0, one is woken by a requeue that moves the other to word 8 in the same
bucket, where its time runs out. -/
def requeuedWaits : List (Action ℕ) :=
  [.beginWait 0 0 7 bitsetMatchAny 0, .beginWait 1 0 7 bitsetMatchAny 0, .requeue 0 1 1 8 0 2,
    .stop 0 true (.ok ()), .dequeue 0, .dropWaiter 0, .interrupt 1,
    .stop 1 true (.error (.withMessage .etime "the time limit is reached")), .dequeue 1,
    .dropWaiter 1]

/-- The first is counted and returns success, the second is not and fails. -/
theorem wait_and_wake_agree_woken :
    ∃ s : System ℕ,
      requeuedWaits.foldlM (System.step (· % 2)) (System.init fun _ => some 7) = some s ∧
      (s.waits 0 = .returned (.ok ()) ∧ 0 ∈ s.counted) ∧
      (s.waits 1 = .returned (.error (.withMessage .etime "the time limit is reached")) ∧
        1 ∉ s.counted) ∧
      s.reported = 1 ∧ ∀ b, ∀ item ∈ s.buckets b, item.waker ≠ 1 := by
  obtain ⟨s, hrun, hwait, hwait', hcounted⟩ : ∃ s,
      requeuedWaits.foldlM (System.step (· % 2)) (System.init fun _ => some 7) = some s ∧
      s.waits 0 = .returned (.ok ()) ∧
      s.waits 1 = .returned (.error (.withMessage .etime "the time limit is reached")) ∧
      s.counted = [0] := ⟨_, rfl, rfl, rfl, rfl⟩
  obtain ⟨hok, -, ⟨-, hreported⟩, hgone⟩ := wait_and_wake_agree (· % 2)
    (Reachable.init.foldlM _ (by simp [requeuedWaits, StaysHome]) hrun)
  exact ⟨s, hrun, ⟨hwait, hok 0 hwait⟩, ⟨hwait', by simp [hcounted]⟩, by simp [hreported, hcounted],
    hgone 1 _ hwait'⟩

/-! ### A requeue to another bucket -/

/-- A wait on word 0 is requeued to word 4, whose bucket is another one, and then its time runs
out.  It returns success although nothing has woken it, and its item stays in the other bucket. -/
theorem wait_not_woken_after_requeue :
    ∃ s : System ℕ,
      ([.beginWait 0 0 7 bitsetMatchAny 0, .requeue 0 0 1 4 0 1, .interrupt 0,
        .stop 0 true (.error (.withMessage .etime "the time limit is reached")), .dequeue 0,
        .dropWaiter 0] : List (Action ℕ)).foldlM
        (System.step id) (System.init fun _ => some 7) = some s ∧
      s.waits 0 = .returned (.ok ()) ∧ s.counted = [] ∧ s.reported = 0 ∧
      s.buckets 1 = [⟨⟨1, bitsetMatchAny⟩, 0⟩] :=
  ⟨_, rfl, rfl, rfl, rfl, rfl⟩

end Asterinas.Futex
