import Asterinas.Epoll.ReadyList

/-!
# The loop of `pop_multi_ready`

One task at a time pops entries.  The entries that its limit allows are the ones that were in the
list when it began and that it has not popped: others are pushed behind them, so that it never finds
the list empty and never pops an entry twice.
-/

namespace Asterinas.Epoll

open Framework List Option

/-- What holds of the local state of `pop_multi_ready`, with the ready list. -/
structure Popper.Ok (popper : Popper) (ready : List ℕ) : Prop where
  limit_le : ∀ limit, popper.limit = some limit → limit ≤ ready.length
  fresh : ∀ limit, popper.limit = some limit → ∀ e ∈ ready.take limit, e ∉ popper.popped
  first : popper.limit = none → popper.popped = []
  popped_nodup : popper.popped.Nodup
  reported_subset : popper.reported ⊆ popper.popped
  reported_nodup : popper.reported.Nodup
  length_eq : popper.epEvents.length = popper.reported.length
  length_le : popper.epEvents.length ≤ popper.maxEvents

/-- What holds of a task, with the ready list. -/
def Task.PopOk (ready : List ℕ) : Task → Prop
  | popping popper stage => popper.Ok ready ∧ ∀ e, stage = .popped e →
      e ∈ popper.popped ∧ e ∉ popper.reported ∧ popper.epEvents.length < popper.maxEvents
  | returned popper => popper.reported.Nodup ∧ popper.epEvents.length = popper.reported.length ∧
      popper.epEvents.length ≤ popper.maxEvents
  | panicked => False
  | _ => True

/-- One task at a time pops, and it pops no entry twice. -/
structure PopOk (ready : List ℕ) (tasks : List Task) : Prop where
  unique : ∀ (i j : ℕ) (task task' : Task), tasks[i]? = some task → tasks[j]? = some task' →
    task.isPopping = true → task'.isPopping = true → i = j
  task : ∀ task ∈ tasks, task.PopOk ready

variable {popper : Popper}

lemma Popper.Ok.append {ready : List ℕ} (h : popper.Ok ready) (pushed : List ℕ) :
    popper.Ok (ready ++ pushed) := by
  refine ⟨fun limit hlimit => ?_, fun limit hlimit e he => ?_, h.first, h.popped_nodup,
    h.reported_subset, h.reported_nodup, h.length_eq, h.length_le⟩
  · have := h.limit_le limit hlimit
    rw [length_append]
    omega
  · rw [take_append_of_le_length (h.limit_le limit hlimit)] at he
    exact h.fresh limit hlimit e he

lemma Task.PopOk.append {ready : List ℕ} {task : Task} (h : task.PopOk ready) (pushed : List ℕ) :
    task.PopOk (ready ++ pushed) := by
  cases task with
  | popping popper stage => exact ⟨h.1.append pushed, h.2⟩
  | returned popper | panicked => exact h
  | _ => trivial

/-- Only the task that pops looks at the list. -/
lemma Task.PopOk.of_not_popping {ready ready' : List ℕ} {task : Task} (h : task.PopOk ready)
    (hpopping : task.isPopping = false) : task.PopOk ready' := by
  cases task with
  | popping popper stage => cases hpopping
  | returned popper | panicked => exact h
  | _ => trivial

namespace PopOk

variable {ready ready' : List ℕ} {tasks : List Task} {task task' : Task} {i : ℕ}

lemma append (h : PopOk ready tasks) (pushed : List ℕ) : PopOk (ready ++ pushed) tasks :=
  ⟨h.unique, fun task htask => (h.task task htask).append pushed⟩

lemma getElem?_set_task (hi : tasks[i]? = some task) (j : ℕ) :
    (tasks.set i task')[j]? = if j = i then some task' else tasks[j]? := by
  rw [getElem?_set]
  by_cases hj : j = i
  · subst hj
    rw [if_pos rfl, if_pos rfl, if_pos (List.getElem?_eq_some_iff.mp hi).1]
  · rw [if_neg (Ne.symm hj), if_neg hj]

section

variable (h : PopOk ready tasks) (hi : tasks[i]? = some task)

include h hi

/-- At most one task pops still, if a task that pops now is the only one that does. -/
lemma unique_set
    (hself : ∀ j t, tasks[j]? = some t → t.isPopping = true → task'.isPopping = true → j = i)
    (j k : ℕ) (t t' : Task) (hj : (tasks.set i task')[j]? = some t)
    (hk : (tasks.set i task')[k]? = some t') (ht : t.isPopping = true) (ht' : t'.isPopping = true) :
    j = k := by
  rw [getElem?_set_task hi] at hj hk
  split at hj
  · next hji =>
    split at hk
    · next hki => rw [hji, hki]
    · cases hj
      exact hji.trans (hself k t' hk ht' ht).symm
  · split at hk
    · next hki =>
      cases hk
      exact (hself j t hj ht ht').trans hki.symm
    · exact h.unique j k t t' hj hk ht ht'

/-- A task changes that does not pop now or then. -/
lemma set (hok : task'.PopOk ready) (hpopping : task'.isPopping = true →
      task.isPopping = true ∨ ∀ task ∈ tasks, task.isPopping = false) :
    PopOk ready (tasks.set i task') := by
  refine ⟨h.unique_set hi fun j t hj ht ht' => ?_, fun t ht => ?_⟩
  · rcases hpopping ht' with htask | hnone
    · exact h.unique j i t task hj hi ht htask
    · rw [hnone t (mem_of_getElem? hj)] at ht
      cases ht
  · rcases mem_or_eq_of_mem_set ht with ht | rfl
    · exact h.task t ht
    · exact hok

/-- The task that pops changes the list. -/
lemma set_popping (hpopping : task.isPopping = true)
    (hok : task'.PopOk ready') : PopOk ready' (tasks.set i task') := by
  have hother : ∀ (j : ℕ) (t : Task), j ≠ i → tasks[j]? = some t → t.isPopping = false := by
    intro j t hne hj
    by_contra ht
    exact hne (h.unique j i t task hj hi (by simpa using ht) hpopping)
  refine ⟨h.unique_set hi fun j t hj ht _ => h.unique j i t task hj hi ht hpopping, fun t ht => ?_⟩
  · obtain ⟨j, hj⟩ := mem_iff_getElem?.mp ht
    rw [getElem?_set_task hi] at hj
    split at hj
    · exact some.inj hj ▸ hok
    · next hji =>
      exact (h.task t (mem_of_getElem? hj)).of_not_popping (hother j t hji hj)

end

/-- A task starts that does not pop. -/
lemma spawn (h : PopOk ready tasks) (hok : task'.PopOk ready) (hpopping : task'.isPopping = false) :
    PopOk ready (tasks ++ [task']) := by
  have hold : ∀ (j : ℕ) (t : Task), (tasks ++ [task'])[j]? = some t → t.isPopping = true →
      tasks[j]? = some t := by
    intro j t hj ht
    rw [getElem?_append] at hj
    split at hj
    · exact hj
    · rw [mem_singleton.mp (mem_of_getElem? hj), hpopping] at ht
      cases ht
  refine ⟨fun j k t t' hj hk ht ht' => h.unique j k t t' (hold j t hj ht) (hold k t' hk ht') ht ht',
    fun t ht => ?_⟩
  rcases mem_append.mp ht with ht | ht
  · exact h.task t ht
  · exact mem_singleton.mp ht ▸ hok

end PopOk

/-- The next entry is one that the limit allows. -/
lemma Popper.Ok.pop {dropped ready : List ℕ} {e limit : ℕ}
    (h : popper.Ok (dropped ++ e :: ready)) (hnodup : (dropped ++ e :: ready).Nodup)
    (hlimit : dropped.length + 1 + limit = popper.limit.getD (dropped ++ e :: ready).length) :
    ({ popper with limit := some limit, popped := popper.popped ++ [e] } : Popper).Ok ready ∧
      e ∉ popper.popped := by
  have hle : dropped.length + 1 + limit ≤ (dropped ++ e :: ready).length := by
    cases hl : popper.limit with
    | none => rw [hlimit, hl, getD_none]
    | some l =>
      rw [hl, getD_some] at hlimit
      rw [hlimit]
      exact h.limit_le l hl
  -- What the limit allows now, and the entry, were allowed before, so they have not been popped.
  have hfresh : ∀ x ∈ e :: ready.take limit, x ∉ popper.popped := by
    intro x hx
    cases hl : popper.limit with
    | none => simp [h.first hl]
    | some l =>
      rw [hl, getD_some] at hlimit
      apply h.fresh l hl x
      rw [← hlimit, take_append, take_of_length_le (by omega),
        show dropped.length + 1 + limit - dropped.length = limit + 1 by omega, take_succ_cons]
      exact mem_append_right _ hx
  have hne : e ∉ ready := (nodup_cons.mp hnodup.of_append_right).1
  have he := hfresh e mem_cons_self
  refine ⟨⟨fun l hl => ?_, fun l hl x hx hmem => ?_, fun hnone => (by cases hnone), ?_, ?_,
    h.reported_nodup, h.length_eq, h.length_le⟩, he⟩
  · simp only [length_append, length_cons] at hle
    have := some.inj hl
    omega
  · cases hl
    rcases mem_append.mp hmem with hmem | hmem
    · exact hfresh x (mem_cons_of_mem e hx) hmem
    · exact hne (mem_singleton.mp hmem ▸ mem_of_mem_take hx)
  · rw [← concat_eq_append]
    exact h.popped_nodup.concat he
  · exact fun x hx => mem_append_left _ (h.reported_subset hx)

/-- An entry that was popped is reported. -/
lemma Popper.Ok.report {ready : List ℕ} {e : ℕ} {event : EpollEvent} (h : popper.Ok ready)
    (hpopped : e ∈ popper.popped) (hreported : e ∉ popper.reported)
    (hmax : popper.epEvents.length < popper.maxEvents) :
    ({ popper with
      epEvents := popper.epEvents ++ [event], reported := popper.reported ++ [e] } : Popper).Ok
          ready := by
  refine ⟨h.limit_le, h.fresh, h.first, h.popped_nodup, ?_, ?_, ?_, ?_⟩
  · intro x hx
    rcases mem_append.mp hx with hx | hx
    · exact h.reported_subset hx
    · exact mem_singleton.mp hx ▸ hpopped
  · change (popper.reported ++ [e]).Nodup
    rw [← concat_eq_append]
    exact h.reported_nodup.concat hreported
  · simp [h.length_eq]
  · simpa using hmax

namespace PopOk

variable {s s' : EpollFile} {task task' : Task} {i : ℕ}

section

variable (h : PopOk s.ready s.tasks)

include h

/-- A task pushes an entry. -/
lemma push (context : PushContext) (push : Push)
    (hi : s.tasks[i]? = some (context.task (some push))) :
    PopOk (s.push push).1.ready ((s.push push).1.tasks.set i (context.task (s.push push).2)) := by
  have htask := h.task _ (mem_of_getElem? hi)
  have hready : ∃ pushed, (s.push push).1.ready = s.ready ++ pushed ∧ (s.push push).1.tasks =
      s.tasks := by
    rcases EpollFile.push_fst (s := s) push with heq | heq
    · exact ⟨[], by simp [heq]⟩
    · exact ⟨[push.entry], by rw [heq], by rw [heq]; rfl⟩
  obtain ⟨pushed, hready, htasks⟩ := hready
  rw [hready, htasks]
  apply (h.append pushed).set hi
  · cases context with
    | control => cases (s.push push).2 <;> trivial
    | notifying todo => trivial
    | popping popper =>
      have hpopper := htask.1.append pushed
      cases (s.push push).2 <;> exact ⟨hpopper, fun e he => by cases he⟩
  · intro hpopping
    cases context with
    | control =>
      cases hpush : (s.push push).2 <;> simp [hpush, PushContext.task, Task.isPopping] at hpopping
    | notifying todo => cases hpopping
    | popping popper => exact .inl rfl

/-- The step of a task keeps the loop of the task that pops. -/
lemma taskCases (hlist : s.ListOk) (hi : s.tasks[i]? = some task)
    (hcases : s.TaskCases task s' task') : PopOk s'.ready (s'.tasks.set i task') := by
  have htask := h.task task (mem_of_getElem? hi)
  cases hcases with
  | push context push => exact h.push context push hi
  | notify file events todo htodo => exact h.set hi trivial fun hpopping => by cases hpopping
  | guard maxEvents hfree =>
    apply h.set hi _ fun _ => .inr hfree
    exact ⟨⟨fun _ hl => (by cases hl), fun _ hl => (by cases hl), fun _ => rfl, nodup_nil,
      nil_subset _, nodup_nil, rfl, zero_le⟩, fun e he => by cases he⟩
  | finish popper limit dropped ready hready hdead =>
    exact h.set_popping hi rfl ⟨htask.1.reported_nodup, htask.1.length_eq, htask.1.length_le⟩
  | pop popper dropped ready e limit hmax hready hdead hlive hlimit =>
    apply h.set_popping hi rfl
    have hpopper := htask.1
    have hnodup := hlist.nodup
    rw [hready] at hpopper hnodup hlimit
    obtain ⟨hok, hfresh⟩ := hpopper.pop hnodup hlimit
    refine ⟨hok, fun e' he' => ?_⟩
    cases he'
    exact ⟨mem_append_right _ (mem_singleton_self _),
      fun hmem => hfresh (hpopper.reported_subset hmem), hmax⟩
  | panic popper hlimit =>
    exfalso
    cases hl : popper.limit with
    | none => simp [hl] at hlimit
    | some l =>
      have := htask.1.limit_le l hl
      rw [hl, getD_some] at hlimit
      omega
  | dead popper e | disabled popper e | deleted popper e =>
    exact h.set_popping hi rfl ⟨htask.1, fun e he => by cases he⟩
  | poll popper e reported event henabled hreported =>
    obtain ⟨hpopped, hnew, hmax⟩ := htask.2 e rfl
    apply h.set_popping hi rfl
    refine ⟨?_, fun e' he' => ?_⟩
    · split
      · exact htask.1.report hpopped hnew hmax
      · exact htask.1
    · split at he' <;> cases he'
  | delete popper e s' hdel =>
    obtain ⟨e', -, rfl⟩ := EpollFile.delInterest_eq_ok hdel
    exact h.set_popping hi rfl ⟨htask.1, fun e he => by cases he⟩
  | stay => exact h.set hi htask fun hpopping => .inl hpopping

lemma pushIfReady (e : ℕ) (events : IoEvents) :
    PopOk (s.pushIfReady e events).ready (s.pushIfReady e events).tasks := by
  unfold EpollFile.pushIfReady
  split
  · exact h.spawn trivial rfl
  · exact h

/-- Every step keeps the loop of the task that pops. -/
lemma stepCases (hlist : s.ListOk) (hcases : s.StepCases s') : PopOk s'.ready s'.tasks := by
  cases hcases with
  | add fd file event flags hnone => exact pushIfReady (s := s.added fd file event flags) h _ _
  | mod fd file event flags e hsome =>
    exact pushIfReady (s := s.setEntry e ((s.entry e).updated event flags)) h _ _
  | arrive file events | wait maxEvents => exact h.spawn trivial rfl
  | task i task task' s' hi hcases => exact h.taskCases hlist hi hcases
  | deliver i e todo hi he => exact h.set hi trivial fun hpopping => by cases hpopping
  | _ => exact h

end

end PopOk

end Asterinas.Epoll
