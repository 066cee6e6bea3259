import Mathlib.Tactic

/-!
# The virtual time of the fair class (`sched_class/fair.rs` and `sched_class/mod.rs`)

A thread enters the queue with at least the minimal virtual runtime of the queue.  A thread whose
policy becomes fair while it runs, or while it waits in the queue of another class, runs in the fair
class without having entered the queue, so that its old virtual runtime may pull the minimum back.

Virtual times are the `u64` words of the source, whose sums wrap around.  The weight of a thread is
the last one that was set, which `fetch_weight` returns.  The queues of the other classes are left
out: any thread may be picked from them.
-/

namespace Asterinas.Sched

/-- The number of the values of a `u64`. -/
def u64Size : ℕ := 2 ^ 64

/-- The classes of threads. -/
inductive SchedPolicyKind
  | stop
  | realTime
  | fair
  | idle
deriving DecidableEq

/-- The parts of `SchedAttr` that the fair class uses. -/
structure SchedAttr where
  policy : SchedPolicyKind
  weight : ℕ
  vruntime : ℕ

/-- A thread that waits, with the virtual runtime that it entered the queue with. -/
structure FairQueueItem where
  task : ℕ
  vruntime : ℕ

/-- `PerCpuClassRqSet`, with its `FairClassRq`; the heap is a list in the order of the keys. -/
structure FairCpu where
  entities : List FairQueueItem
  minVruntime : ℕ
  attr : ℕ → SchedAttr
  current : Option ℕ

/-- The calls of a run queue, and the changes of a policy. -/
inductive SchedEvent
  | enqueue (task : ℕ) (spawn : Bool)
  | pickNext
  | pickOther (task : ℕ)
  | updateCurrent (delta : ℕ)
  | dequeueCurrent
  | setPolicy (task : ℕ) (policy : SchedPolicyKind) (weight : ℕ)

namespace FairCpu

/-- A CPU on which nothing runs yet. -/
def new (attr : ℕ → SchedAttr) : FairCpu := ⟨[], 0, attr, none⟩

section

variable (period : ℕ → ℕ) (s : FairCpu) (task : ℕ) (spawn : Bool)

/-- `FairClassRq::vtime_slice`, with the period for a number of threads. -/
def vtimeSlice : ℕ := period s.entities.length / (s.entities.length + 1)

/-- The least virtual runtime that a thread is given in `FairClassRq::enqueue`. -/
def entryVruntime : ℕ :=
  if spawn then (s.minVruntime + s.vtimeSlice period) % u64Size else s.minVruntime

/-- `FairClassRq::enqueue`. -/
def enqueue : FairCpu :=
  let vruntime := max (s.attr task).vruntime (s.entryVruntime period spawn)
  { s with
    attr := Function.update s.attr task { s.attr task with vruntime := vruntime }
    entities := s.entities.orderedInsert (·.vruntime ≤ ·.vruntime) ⟨task, vruntime⟩ }

/-- `PerCpuClassRqSet::enqueue_entity`. -/
def enqueueEntity : FairCpu :=
  if (s.attr task).policy = .fair then s.enqueue period task spawn else s

end

/-- What `FairAttr::update_vruntime` adds for a thread that has run for `delta`. -/
def vdelta (s : FairCpu) (task delta : ℕ) : ℕ := delta * 1024 % u64Size / (s.attr task).weight

/-- `FairClassRq::update_current` for a thread that has run for `delta`. -/
def updateCurrent (s : FairCpu) (task delta : ℕ) : FairCpu :=
  let vruntime := ((s.attr task).vruntime + s.vdelta task delta) % u64Size
  { s with
    attr := Function.update s.attr task { s.attr task with vruntime := vruntime }
    minVruntime := s.entities.head?.elim vruntime (min vruntime ·.vruntime) }

/-- `try_pick_next` once the next thread is known. -/
def replaceCurrent (period : ℕ → ℕ) (s : FairCpu) (next : ℕ) : FairCpu :=
  let s' := { s with current := some next }
  s.current.elim s' (s'.enqueueEntity period · false)

/-- The CPU after an event. -/
def step (period : ℕ → ℕ) (s : FairCpu) : SchedEvent → FairCpu
  | .enqueue task spawn => s.enqueueEntity period task spawn
  | .pickNext => match s.entities with
    | [] => s
    | item :: rest => { s with entities := rest }.replaceCurrent period item.task
  | .pickOther task => s.replaceCurrent period task
  | .updateCurrent delta => match s.current with
    | some task => if (s.attr task).policy = .fair then s.updateCurrent task delta else s
    | none => s
  | .dequeueCurrent => { s with current := none }
  | .setPolicy task policy weight =>
    let weight := if policy = .fair then weight else (s.attr task).weight
    { s with attr := Function.update s.attr task ⟨policy, weight, (s.attr task).vruntime⟩ }

/-- A thread that comes to run in the fair class without entering the queue is not behind it, and no
sum of virtual times wraps around. -/
def Permitted (period : ℕ → ℕ) (s : FairCpu) : SchedEvent → Prop
  | .enqueue task true =>
    (s.attr task).policy = .fair → s.minVruntime + s.vtimeSlice period < u64Size
  | .pickOther task => (s.attr task).policy = .fair → s.minVruntime ≤ (s.attr task).vruntime
  | .updateCurrent delta => ∀ task, s.current = some task → (s.attr task).policy = .fair →
    (s.attr task).vruntime + s.vdelta task delta < u64Size
  | .setPolicy task .fair _ => s.current = some task → s.minVruntime ≤ (s.attr task).vruntime
  | _ => True

/-- Neither the queue nor the thread that runs is behind the minimum. -/
structure Inv (s : FairCpu) : Prop where
  sorted : s.entities.Pairwise (·.vruntime ≤ ·.vruntime)
  queued : ∀ i ∈ s.entities, s.minVruntime ≤ i.vruntime ∧ i.vruntime ≤ (s.attr i.task).vruntime
  running : ∀ t, s.current = some t → (s.attr t).policy = .fair →
    s.minVruntime ≤ (s.attr t).vruntime

variable {s : FairCpu} {period : ℕ → ℕ} {next : ℕ}

/-- The virtual runtime of a thread grows. -/
lemma Inv.raise (h : s.Inv) (task v : ℕ) (hv : (s.attr task).vruntime ≤ v) :
    Inv { s with attr := Function.update s.attr task { s.attr task with vruntime := v } } := by
  have hraise (t : ℕ) : (s.attr t).vruntime ≤
      (Function.update s.attr task { s.attr task with vruntime := v } t).vruntime := by
    rcases eq_or_ne t task with rfl | ht
    · simpa using hv
    · simp [ht]
  refine ⟨h.sorted, fun i hi => (h.queued i hi).imp_right (·.trans (hraise _)),
    fun t ht hfair => ?_⟩
  refine (h.running t ht ?_).trans (hraise t)
  rcases eq_or_ne t task with rfl | hne
  · simpa using hfair
  · simpa [hne] using hfair

/-- A thread enters the queue, at the minimum or behind it. -/
lemma Inv.enqueueEntity (h : s.Inv) (task : ℕ) (spawn : Bool)
    (hentry : (s.attr task).policy = .fair → s.minVruntime ≤ s.entryVruntime period spawn) :
    (s.enqueueEntity period task spawn).Inv := by
  unfold FairCpu.enqueueEntity
  split_ifs with hfair
  · have hraise := h.raise task _ (le_max_left _ (s.entryVruntime period spawn))
    refine ⟨?_, fun i hi => ?_, hraise.running⟩
    · exact h.sorted.orderedInsert _ _
    · rcases (List.mem_orderedInsert _).mp hi with rfl | hi
      · exact ⟨le_max_of_le_right (hentry hfair), by simp [FairCpu.enqueue]⟩
      · exact hraise.queued i hi
  · exact h

lemma enqueueEntity_minVruntime (task : ℕ) (spawn : Bool) :
    (s.enqueueEntity period task spawn).minVruntime = s.minVruntime := by
  unfold FairCpu.enqueueEntity
  split_ifs <;> rfl

/-- Another thread runs, and the one that ran before enters the queue. -/
lemma Inv.replaceCurrent (h : s.Inv)
    (hnext : (s.attr next).policy = .fair → s.minVruntime ≤ (s.attr next).vruntime) :
    (s.replaceCurrent period next).Inv ∧
      (s.replaceCurrent period next).minVruntime = s.minVruntime := by
  have h' : Inv { s with current := some next } :=
    ⟨h.sorted, h.queued, fun t ht => Option.some.inj ht ▸ hnext⟩
  unfold FairCpu.replaceCurrent
  cases s.current with
  | none => exact ⟨h', rfl⟩
  | some old =>
    exact ⟨h'.enqueueEntity old false fun _ => le_rfl, enqueueEntity_minVruntime old false⟩

/-- The thread that runs has run for a while. -/
lemma Inv.updateCurrent (h : s.Inv) (task delta : ℕ) (hrun : s.current = some task)
    (hfair : (s.attr task).policy = .fair)
    (hlt : (s.attr task).vruntime + s.vdelta task delta < u64Size) :
    (s.updateCurrent task delta).Inv ∧
      s.minVruntime ≤ (s.updateCurrent task delta).minVruntime := by
  have hraise := h.raise task _ (Nat.le_add_right _ (s.vdelta task delta))
  have hold := h.running task hrun hfair
  have hmod := Nat.mod_eq_of_lt hlt
  -- The new minimum is not behind the old one, and neither the thread nor the queue is behind it.
  obtain ⟨hle, hqueued, hmono⟩ : (s.updateCurrent task delta).minVruntime ≤
        (s.attr task).vruntime + s.vdelta task delta ∧
      (∀ i ∈ s.entities, (s.updateCurrent task delta).minVruntime ≤ i.vruntime) ∧
      s.minVruntime ≤ (s.updateCurrent task delta).minVruntime := by
    simp only [FairCpu.updateCurrent, hmod]
    cases hs : s.entities with
    | nil => exact ⟨le_rfl, nofun, hold.trans le_self_add⟩
    | cons leftmost rest =>
      obtain ⟨hhead, -⟩ := List.pairwise_cons.mp (hs ▸ h.sorted)
      have hleft := (h.queued leftmost (hs ▸ .head _)).1
      refine ⟨min_le_left _ _, fun i hi => (min_le_right _ _).trans ?_, le_min ?_ hleft⟩
      · rcases List.mem_cons.mp hi with rfl | hi
        · exact le_rfl
        · exact hhead i hi
      · exact hold.trans le_self_add
  refine ⟨⟨h.sorted, fun i hi => ⟨hqueued i hi, ?_⟩, fun t ht _ => ?_⟩, hmono⟩
  · simpa only [FairCpu.updateCurrent, hmod] using (hraise.queued i hi).2
  · obtain rfl := Option.some.inj (hrun.symm.trans ht)
    simpa [FairCpu.updateCurrent, hmod] using hle

/-- The step lemma. -/
lemma Inv.step (h : s.Inv) (e : SchedEvent) (he : s.Permitted period e) :
    (s.step period e).Inv ∧ s.minVruntime ≤ (s.step period e).minVruntime := by
  cases e with
  | enqueue task spawn =>
    refine ⟨h.enqueueEntity task spawn fun hfair => ?_, (enqueueEntity_minVruntime task spawn).ge⟩
    cases spawn with
    | false => exact le_rfl
    | true => exact le_self_add.trans (Nat.mod_eq_of_lt (he hfair)).ge
  | pickNext =>
    rw [FairCpu.step]
    split
    · exact ⟨h, le_rfl⟩
    · rename_i item rest hs
      -- The time of a thread may have grown since its item was queued.
      have hitem := h.queued item (hs ▸ .head _)
      have hrest : Inv { s with entities := rest } :=
        ⟨(List.pairwise_cons.mp (hs ▸ h.sorted)).2, fun i hi => h.queued i (hs ▸ .tail _ hi),
          h.running⟩
      exact (hrest.replaceCurrent fun _ => hitem.1.trans hitem.2).imp_right Eq.ge
  | pickOther task => exact (h.replaceCurrent he).imp_right Eq.ge
  | updateCurrent delta =>
    rw [FairCpu.step]
    split
    · rename_i task hrun
      split_ifs with hfair
      · exact h.updateCurrent task delta hrun hfair (he task hrun hfair)
      · exact ⟨h, le_rfl⟩
    · exact ⟨h, le_rfl⟩
  | dequeueCurrent => exact ⟨⟨h.sorted, h.queued, by rintro _ ⟨⟩⟩, le_rfl⟩
  | setPolicy task policy weight =>
    have hsame (t : ℕ) : ((s.step period (.setPolicy task policy weight)).attr t).vruntime =
        (s.attr t).vruntime := by
      rcases eq_or_ne t task with rfl | ht
      · simp [FairCpu.step]
      · simp [FairCpu.step, ht]
    refine ⟨⟨h.sorted, fun i hi => ?_, fun t ht hfair => ?_⟩, le_rfl⟩
    · rw [hsame]
      exact h.queued i hi
    · rw [hsame]
      rcases eq_or_ne t task with rfl | hne
      · obtain rfl : policy = .fair := by simpa [FairCpu.step] using hfair
        exact he ht
      · exact h.running t ht (by simpa [FairCpu.step, hne] using hfair)

/-- The CPU after some events. -/
def run (period : ℕ → ℕ) (s : FairCpu) (es : List SchedEvent) : FairCpu :=
  es.foldl (step period) s

/-- Every step of the run is permitted. -/
def Meets (period : ℕ → ℕ) : FairCpu → List SchedEvent → Prop
  | _, [] => True
  | s, e :: es => s.Permitted period e ∧ Meets period (s.step period e) es

/-- The run lemma, for a state and a later one. -/
lemma Inv.run (h : s.Inv) (es es' : List SchedEvent) (hes : Meets period s (es ++ es')) :
    (s.run period (es ++ es')).Inv ∧
      (s.run period es).minVruntime ≤ (s.run period (es ++ es')).minVruntime := by
  -- First the steps up to the earlier of the two states, then those after it.
  induction es generalizing s with
  | cons e es ih => exact ih (h.step e hes.1).1 hes.2
  | nil =>
    change Inv _ ∧ s.minVruntime ≤ _
    induction es' generalizing s with
    | nil => exact ⟨h, le_rfl⟩
    | cons e es' ih =>
      obtain ⟨hinv, hle⟩ : (s.step period e).Inv ∧ _ := h.step e hes.1
      exact (ih hinv hes.2).imp_right hle.trans

/-- In every run of permitted steps the minimum never decreases, and the threads of the queue are
not behind it. -/
theorem minVruntime_monotone (attr : ℕ → SchedAttr) (es es' : List SchedEvent)
    (hes : Meets period (new attr) (es ++ es')) :
    ((new attr).run period es).minVruntime ≤ ((new attr).run period (es ++ es')).minVruntime ∧
    ∀ i ∈ ((new attr).run period (es ++ es')).entities,
      ((new attr).run period (es ++ es')).minVruntime ≤ i.vruntime := by
  obtain ⟨hinv, hle⟩ := Inv.run (s := new attr) ⟨.nil, nofun, nofun⟩ es es' hes
  exact ⟨hle, fun i hi => (hinv.queued i hi).1⟩

/-- Thread 0 is a real-time one, with a virtual runtime from before. -/
def twoThreads (vruntime task : ℕ) : SchedAttr :=
  if task = 0 then ⟨.realTime, 1024, vruntime⟩ else ⟨.fair, 1024, 0⟩

/-- The fair thread runs, and then the real-time one, which becomes fair. -/
def switching : List SchedEvent :=
  [.enqueue 1 true, .pickNext, .updateCurrent 10, .pickOther 0, .setPolicy 0 .fair 512]

/-- The thread that becomes fair is not behind the minimum, which stays where it is. -/
theorem minVruntime_monotone_switching :
    ((new (twoThreads 20)).run id switching).minVruntime = 10 ∧
    ((new (twoThreads 20)).run id switching).minVruntime ≤
      ((new (twoThreads 20)).run id (switching ++ [.updateCurrent 1])).minVruntime ∧
    ∀ item ∈ ((new (twoThreads 20)).run id (switching ++ [.updateCurrent 1])).entities,
      ((new (twoThreads 20)).run id (switching ++ [.updateCurrent 1])).minVruntime ≤
        item.vruntime := by
  refine ⟨by decide, minVruntime_monotone (twoThreads 20) switching [.updateCurrent 1] ?_⟩
  refine ⟨fun _ => by decide, trivial, ?_, fun h => absurd h (by decide), fun _ => by decide, ?_,
    trivial⟩ <;>
    · intro task hrun _
      obtain rfl := Option.some.inj hrun
      decide

/-- The thread that becomes fair is behind, and the next tick sets the minimum from it. -/
theorem minVruntime_decreases :
    ((new (twoThreads 0)).run id switching).minVruntime = 10 ∧
      ((new (twoThreads 0)).run id (switching ++ [.updateCurrent 1])).minVruntime = 2 :=
  ⟨rfl, rfl⟩

end FairCpu

end Asterinas.Sched
