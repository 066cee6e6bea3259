import Mathlib.Tactic

/-!
# The real-time run queue (`sched_class/real_time.rs`)

The threads wait in two arrays, which hold one queue for each priority.  A thread is picked from the
active array and enqueued in the inactive one, and the arrays change places when the active one is
empty.  So the priorities order the threads of one array only.
-/

namespace Asterinas.Sched

open Option Function Finset

/-- The levels of an array.  The lower number is the higher priority. -/
abbrev Prio := Fin 100

/-- `PrioArray`.  The priority of a thread is the one that `enqueue` loads. -/
structure PrioArray {α : Type} (prio : α → Prio) where
  map : Prio → Bool
  queue : Prio → List α
  mapped : ∀ p, map p = !(queue p).isEmpty
  level : ∀ p, ∀ t ∈ queue p, prio t = p

variable {α : Type} {prio : α → Prio} {t : α}

namespace PrioArray

variable {a a' : PrioArray prio}

/-- The array as `RealTimeClassRq::new` makes it. -/
def new : PrioArray prio := ⟨fun _ => false, fun _ => [], fun _ => rfl, nofun⟩

section

variable (a : PrioArray prio)

/-- The array with another queue at one level.  The bit of the level is written only if `write` is
set. -/
def setQueue (p : Prio) (q : List α) (write : Bool) (hq : ∀ t ∈ q, prio t = p)
    (hwrite : ¬ write → q.isEmpty = (a.queue p).isEmpty) : PrioArray prio where
  map := if write then update a.map p (!q.isEmpty) else a.map
  queue := update a.queue p q
  mapped r := by
    rcases eq_or_ne r p with rfl | hr <;> split_ifs with h
    · simp
    · rw [a.mapped, update_self, hwrite h]
    · simp [hr, a.mapped]
    · simp [hr, a.mapped]
  level r t ht := by
    rcases eq_or_ne r p with rfl | hr
    · exact hq t (by simpa using ht)
    · exact a.level r t (by simpa [hr] using ht)

/-- `PrioArray::enqueue`: the thread comes behind the others of its priority. -/
def enqueue (thread : α) : PrioArray prio :=
  let queue := a.queue (prio thread)
  a.setQueue (prio thread) (queue ++ [thread]) queue.isEmpty
    (by simpa [or_imp, forall_and] using a.level (prio thread))
    (fun h => by rw [eq_false_of_ne_true h]; simp)

/-- `PrioArray::peek_prio`: the first bit of the map that is set. -/
def peekPrio : Option Prio := Fin.find? a.map

/-- `PrioArray::pop`: the first thread of the most urgent priority. -/
def pop : Option (α × PrioArray prio) := do
  let p ← a.peekPrio
  match hq : a.queue p with
  | [] => none
  | thread :: queue =>
    some (thread, a.setQueue p queue queue.isEmpty
      (fun t ht => a.level p t (hq ▸ .tail _ ht)) (by simp [hq]))

/-- The number of threads of an array. -/
def len : ℕ := ∑ p, (a.queue p).length

end

lemma len_of_queue {p : Prio} {q : List α} (h : a'.queue = update a.queue p q) :
    a'.len + (a.queue p).length = a.len + q.length := by
  simp only [len, h]
  rw [← add_sum_erase _ _ (mem_univ p),
    ← add_sum_erase _ (fun r => (a.queue r).length) (mem_univ p),
    sum_congr rfl fun r hr => by rw [update_of_ne (ne_of_mem_erase hr)],
    update_self]
  omega

lemma len_enqueue : (a.enqueue t).len = a.len + 1 := by
  have h : (a.enqueue t).len + _ = _ := len_of_queue rfl
  rw [List.length_append, List.length_singleton] at h
  omega

/-- A thread waits in the array. -/
def Queued (a : PrioArray prio) (t : α) : Prop := ∃ p, t ∈ a.queue p

lemma len_eq_zero : a.len = 0 ↔ ∀ t, ¬ a.Queued t := by
  simp only [len, sum_eq_zero_iff, mem_univ, true_imp_iff, List.length_eq_zero_iff,
    List.eq_nil_iff_forall_not_mem, Queued, not_exists]
  exact forall_comm

lemma pop_eq_none (h : a.pop = none) : ∀ t, ¬ a.Queued t := by
  rintro t ⟨p, ht⟩
  cases hpeek : a.peekPrio with
  | none =>
    have hp := Fin.find?_eq_none_iff.mp hpeek p
    rw [a.mapped, Bool.not_eq_false', List.isEmpty_iff] at hp
    rw [hp] at ht
    cases ht
  | some q =>
    -- The bit of a level is set only if a thread waits there, so the pop cannot fail.
    have hq := (Fin.find?_eq_some_iff.mp hpeek).1
    simp only [pop, hpeek, bind_eq_bind, bind_some] at h
    split at h
    · rename_i hnil
      simp [a.mapped, hnil] at hq
    · cases h

/-- The first bit that is set belongs to the lowest number of a thread in the array. -/
lemma pop_eq_some (h : a.pop = some (t, a')) :
    a.Queued t ∧ (∀ t', a.Queued t' → prio t ≤ prio t') ∧ a.len = a'.len + 1 := by
  rw [pop, bind_eq_bind, bind_eq_some_iff] at h
  obtain ⟨p, hp, h⟩ := h
  split at h
  · cases h
  · rename_i thread queue hq
    simp only [Option.some.injEq, Prod.mk.injEq] at h
    obtain ⟨rfl, ha⟩ := h
    have hlevel := a.level p thread (hq ▸ .head _)
    refine ⟨⟨p, hq ▸ .head _⟩, fun t' ⟨r, hr⟩ => ?_, ?_⟩
    · rw [hlevel, a.level r t' hr]
      -- The bit of every level before the one that was found is clear.
      refine not_lt.mp fun hlt => ?_
      have := (Fin.find?_eq_some_iff.mp hp).2 r hlt
      simp_all [a.mapped]
    · have hlen := len_of_queue (congrArg PrioArray.queue ha).symm
      rw [hq, List.length_cons] at hlen
      omega

end PrioArray

/-- `RealTimeClassRq`: two arrays of queues, of which one is the active one. -/
structure RealTimeClassRq {α : Type} (prio : α → Prio) where
  index : Bool
  array : Bool → PrioArray prio
  nrRunning : ℕ
  counted : nrRunning = (array false).len + (array true).len

namespace RealTimeClassRq

variable {rq rq' : RealTimeClassRq prio}

/-- `RealTimeClassRq::new`: no thread. -/
def new : RealTimeClassRq prio := ⟨false, fun _ => .new, 0, by simp [PrioArray.len, PrioArray.new]⟩

section

variable (rq : RealTimeClassRq prio)

/-- `RealTimeClassRq::enqueue`: the thread comes to the array that is not active. -/
def enqueue (entity : α) : RealTimeClassRq prio where
  index := rq.index
  array := update rq.array (!rq.index) ((rq.array !rq.index).enqueue entity)
  nrRunning := rq.nrRunning + 1
  counted := by cases h : rq.index <;> simp [PrioArray.len_enqueue, rq.counted] <;> omega

/-- A thread is popped from one of the arrays, which becomes the active one. -/
def popFrom (i : Bool) : Option (α × RealTimeClassRq prio) :=
  match h : (rq.array i).pop with
  | none => none
  | some (thread, a) => some (thread, {
      index := i
      array := update rq.array i a
      nrRunning := rq.nrRunning - 1
      counted := by
        have hlen := (PrioArray.pop_eq_some h).2.2
        cases i <;> simp [rq.counted, hlen] })

/-- `RealTimeClassRq::pick_next`: a thread of the active array, or of the other one when it is
empty. -/
def pickNext : Option (α × RealTimeClassRq prio) :=
  if rq.nrRunning = 0 then none
  else (rq.popFrom rq.index).or (rq.popFrom !rq.index)

/-- A thread waits in one of the arrays. -/
def Queued (t : α) : Prop := ∃ i, (rq.array i).Queued t

end

lemma popFrom_eq_none {i : Bool} (h : rq.popFrom i = none) : ∀ t, ¬ (rq.array i).Queued t := by
  unfold popFrom at h
  split at h
  · rename_i hpop
    exact PrioArray.pop_eq_none hpop
  · cases h

lemma popFrom_eq_some {i : Bool} (h : rq.popFrom i = some (t, rq')) :
    (rq.array i).Queued t ∧ ∀ t', (rq.array i).Queued t' → prio t ≤ prio t' := by
  unfold popFrom at h
  split at h
  · cases h
  · rename_i hpop
    cases h
    exact ⟨(PrioArray.pop_eq_some hpop).1, (PrioArray.pop_eq_some hpop).2.1⟩

lemma pickNext_eq_none (h : rq.pickNext = none) (t : α) : ¬ rq.Queued t := by
  have hcounted := rq.counted
  rintro ⟨i, ht⟩
  unfold pickNext at h
  split_ifs at h with hzero
  · refine PrioArray.len_eq_zero.mp ?_ t ht
    cases i <;> omega
  · obtain ⟨hactive, hinactive⟩ := or_eq_none_iff.mp h
    rcases Bool.eq_or_eq_not i rq.index with rfl | rfl
    · exact popFrom_eq_none hactive t ht
    · exact popFrom_eq_none hinactive t ht

/-- What is picked comes before every other thread of the active array, and before every other
thread if the active array is empty.  Nothing is picked only if no thread waits. -/
theorem pickNext_respects (rq : RealTimeClassRq prio) :
    (rq.pickNext = none → ∀ t, ¬ rq.Queued t) ∧
    ∀ t rq', rq.pickNext = some (t, rq') → rq.Queued t ∧
      (∀ t', (rq.array rq.index).Queued t' → prio t ≤ prio t') ∧
      ((∀ t', ¬ (rq.array rq.index).Queued t') → ∀ t', rq.Queued t' → prio t ≤ prio t') := by
  refine ⟨pickNext_eq_none, fun t rq' h => ?_⟩
  unfold pickNext at h
  split_ifs at h
  rcases or_eq_some_iff.mp h with h | ⟨hnone, h⟩
  · obtain ⟨hmem, hle⟩ := popFrom_eq_some h
    exact ⟨⟨_, hmem⟩, hle, fun hempty => (hempty t hmem).elim⟩
  -- The arrays have been swapped, so no thread waited in the active one.
  · obtain ⟨hmem, hle⟩ := popFrom_eq_some h
    have hempty := popFrom_eq_none hnone
    refine ⟨⟨_, hmem⟩, fun t' ht' => (hempty t' ht').elim, fun _ t' ⟨i, ht'⟩ => ?_⟩
    rcases Bool.eq_or_eq_not i rq.index with rfl | rfl
    · exact (hempty t' ht').elim
    · exact hle t' ht'

set_option maxRecDepth 2000 in

/-- The thread of priority 1 is enqueued while the one of priority 3 waits in the active array, and
the latter is picked. -/
theorem pickNext_passes_over : ∃ rq rq' : RealTimeClassRq (id : Prio → Prio),
    ((new.enqueue 2).enqueue 3).pickNext = some (2, rq) ∧
      (rq.enqueue 1).pickNext = some (3, rq') ∧ (rq.enqueue 1).Queued 1 :=
  ⟨_, _, rfl, rfl, false, 1, .head _⟩

end RealTimeClassRq

end Asterinas.Sched
