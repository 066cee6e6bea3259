import Asterinas.Epoll.TaskSteps

/-!
# The ready list

The ready list holds every entry at most once, and it holds a live entry exactly when its flag is
set.  An entry that nobody holds any more may leave the list with its flag set, but it never comes
back.
-/

namespace Asterinas.Epoll

open Framework List Function Option

/-- The task knows the entry. -/
def Task.Mentions (e : ℕ) : Task → Prop
  | control push => push.entry = e
  | notifying now todo => (∃ push, now = some push ∧ push.entry = e) ∨ e ∈ todo
  | popping _ (.popped e') => e' = e
  | popping _ (.dead e') => e' = e
  | popping _ (.pushing push) => push.entry = e
  | _ => False

lemma Task.mentions_of_holds {e : ℕ} {task : Task} (h : task.holds e = true) : task.Mentions e := by
  cases task with
  | control push => simpa [holds, Mentions] using h
  | popping popper stage =>
    cases stage with
    | loop => simp [holds] at h
    | _ => simpa [holds, Mentions] using h
  | _ => simp [holds] at h

namespace EpollFile

variable {s s' : EpollFile} {task task' : Task} {e e' i fd file : ℕ}

lemma alive_congr (hinterest : s'.interest = s.interest) (htasks : s'.tasks = s.tasks) :
    s'.Alive e ↔ s.Alive e := by
  rw [Alive, Alive, hinterest, htasks]

/-- What a push leaves alone. -/
lemma pushLocked_frame : (s.pushLocked e).interest = s.interest ∧ (s.pushLocked e).tasks = s.tasks ∧
    (s.pushLocked e).next = s.next ∧ (s.pushLocked e).file = s.file := by
  unfold pushLocked
  split <;> exact ⟨rfl, rfl, rfl, rfl⟩

/-- A push reads the flag of an enabled entry, gives up, or locks the list. -/
lemma push_cases (push : Push) :
    (∃ e, push = .check e ∧ (s.entry e).isEnabled = true ∧ s.push push = (s, some (.lock e))) ∨
      (∃ e, push = .check e ∧ (s.entry e).isEnabled = false ∧ s.push push = (s, none)) ∨
      ∃ e, push = .lock e ∧ s.push push = (s.pushLocked e, none) := by
  cases push with
  | check e =>
    cases henabled : (s.entry e).isEnabled with
    | true => exact .inl ⟨e, rfl, henabled, by simp [EpollFile.push, henabled]⟩
    | false => exact .inr (.inl ⟨e, rfl, henabled, by simp [EpollFile.push, henabled]⟩)
  | lock e => exact .inr (.inr ⟨e, rfl, rfl⟩)

/-- A push changes nothing, or it sets the flag of the entry and puts it in the list. -/
lemma push_fst (push : Push) : (s.push push).1 = s ∨ (s.push push).1 =
    { s.setEntry push.entry { s.entry push.entry with isReady := true } with
      ready := s.ready ++ [push.entry] } := by
  cases push with
  | check e =>
    rw [EpollFile.push]
    split <;> exact .inl rfl
  | lock e =>
    change s.pushLocked e = s ∨ s.pushLocked e = _
    unfold pushLocked
    split
    · exact .inr rfl
    · exact .inl rfl

/-- A change of the flag in the list changes nothing else. -/
lemma update_isReady (flag : Bool) (e' : ℕ) :
    (Function.update s.entry e { s.entry e with isReady := flag } e').key = (s.entry e').key ∧
      (Function.update s.entry e { s.entry e with isReady := flag } e').isEnabled =
        (s.entry e').isEnabled :=
  (forall_update_iff (a := e) (b := { s.entry e with isReady := flag }) s.entry fun e' entry =>
    entry.key = (s.entry e').key ∧ entry.isEnabled = (s.entry e').isEnabled).mpr
      ⟨⟨rfl, rfl⟩, fun _ _ => ⟨rfl, rfl⟩⟩ e'

/-- The entries that a task holds are live, and those that it knows have been made. -/
structure Knows (s : EpollFile) (task : Task) : Prop where
  alive : ∀ e, task.holds e = true → s.Alive e
  lt : ∀ e, task.Mentions e → e < s.next

lemma Knows.of_idle (h : ∀ e, ¬ task.Mentions e) : s.Knows task :=
  ⟨fun e hholds => absurd (Task.mentions_of_holds hholds) (h e), fun e hmentions =>
    absurd hmentions (h e)⟩

/-- What holds of the ready list and of the interest list. -/
structure ListOk (s : EpollFile) : Prop where
  ready_lt : ∀ e ∈ s.ready, e < s.next
  interest_lt : ∀ key e, s.interest.get? key = some e → e < s.next
  task_lt : ∀ task ∈ s.tasks, ∀ e, task.Mentions e → e < s.next
  key : ∀ key e, s.interest.get? key = some e → (s.entry e).key = key
  enabled : ∀ e, (s.entry e).isEnabled = true → s.interest.get? (s.entry e).key = some e
  isReady : ∀ e ∈ s.ready, (s.entry e).isReady = true
  nodup : s.ready.Nodup
  mem_ready : ∀ e, s.Alive e → (s.entry e).isReady = true → e ∈ s.ready

namespace ListOk

section

variable (h : s.ListOk)

include h

lemma alive_of_enabled (he : (s.entry e).isEnabled = true) : s.Alive e :=
  .inl ⟨_, h.enabled e he⟩

lemma lt_of_alive (he : s.Alive e) : e < s.next := by
  rcases he with ⟨key, hkey⟩ | ⟨task, htask, hholds⟩
  · exact h.interest_lt key e hkey
  · exact h.task_lt task htask e (Task.mentions_of_holds hholds)

lemma setFile {f : ℕ} {file : File} : (s.setFile f file).ListOk :=
  ⟨h.ready_lt, h.interest_lt, h.task_lt, h.key, h.enabled, h.isReady, h.nodup, h.mem_ready⟩

lemma known (hmem : task ∈ s.tasks) : s.Knows task :=
  ⟨fun _ hholds => .inr ⟨task, hmem, hholds⟩, h.task_lt task hmem⟩

/-- Tasks come and go. -/
lemma setTasks {tasks : List Task} (htasks : ∀ task ∈ tasks, task ∈ s.tasks ∨ s.Knows task) :
    ListOk { s with tasks := tasks } := by
  have hknown : ∀ task ∈ tasks, s.Knows task := fun task hmem => (htasks task hmem).elim h.known id
  refine ⟨h.ready_lt, h.interest_lt, fun task hmem => (hknown task hmem).lt, h.key, h.enabled,
    h.isReady, h.nodup, fun e he hready => ?_⟩
  apply h.mem_ready e ?_ hready
  rcases he with hkey | ⟨task, htask, hholds⟩
  · exact .inl hkey
  · exact (hknown task htask).alive e hholds

/-- A task is replaced. -/
lemma setTask (hknows : s.Knows task') : ListOk { s with tasks := s.tasks.set i task' } := by
  apply h.setTasks
  intro task htask
  refine (mem_or_eq_of_mem_set htask).imp_right ?_
  rintro rfl
  exact hknows

/-- A task starts. -/
lemma spawn (hknows : s.Knows task') : (s.spawn task').ListOk := by
  apply h.setTasks
  intro task htask
  refine (mem_append.mp htask).imp_right fun hmem => ?_
  rwa [mem_singleton.mp hmem]

/-- Entries change, but not their keys and their flags in the list. -/
lemma setEntries {entry : ℕ → Entry} (hkey : ∀ e, (entry e).key = (s.entry e).key)
    (hready : ∀ e, (entry e).isReady = (s.entry e).isReady)
    (henabled : ∀ e, (entry e).isEnabled = true → s.interest.get? (s.entry e).key = some e) :
    ListOk { s with entry := entry } := by
  refine ⟨h.ready_lt, h.interest_lt, h.task_lt, fun key e hget => (hkey e).trans (h.key key e hget),
    fun e he => ?_, fun e he => (hready e).trans (h.isReady e he), h.nodup, fun e he hflag => ?_⟩
  · change s.interest.get? (entry e).key = some e
    rw [hkey e]
    exact henabled e he
  · exact h.mem_ready e he ((hready e).symm.trans hflag)

/-- One entry changes. -/
lemma setEntry {entry : Entry} (hkey : entry.key = (s.entry e).key)
    (hready : entry.isReady = (s.entry e).isReady)
    (henabled : entry.isEnabled = true → s.interest.get? (s.entry e).key = some e) :
    (s.setEntry e entry).ListOk := by
  apply h.setEntries
  · exact (forall_update_iff s.entry fun e' entry => entry.key = (s.entry e').key).mpr
      ⟨hkey, fun _ _ => rfl⟩
  · exact (forall_update_iff s.entry fun e' entry => entry.isReady = (s.entry e').isReady).mpr
      ⟨hready, fun _ _ => rfl⟩
  · exact (forall_update_iff s.entry fun e' entry => entry.isEnabled = true →
      s.interest.get? (s.entry e').key = some e').mpr ⟨henabled, fun e' _ => h.enabled e'⟩

/-- The flag of an entry changes, and it enters the list or leaves it. -/
lemma setReady {flag : Bool} {ready : List ℕ} (he : e < s.next) (hnodup : ready.Nodup)
    (hself : e ∈ ready ↔ flag = true) (hother : ∀ e' ≠ e, e' ∈ ready ↔ e' ∈ s.ready) :
    ListOk { s.setEntry e { s.entry e with isReady := flag } with ready := ready } := by
  have hentry := update_isReady (s := s) (e := e) flag
  refine ⟨fun e' he' => ?_, h.interest_lt, h.task_lt, fun key e' hget => (hentry e').1.trans
    (h.key key e' hget), fun e' he' => ?_, fun e' he' => ?_, hnodup, fun e' he' hready => ?_⟩
  · by_cases heq : e' = e
    · rwa [heq]
    · exact h.ready_lt e' ((hother e' heq).mp he')
  · change s.interest.get? (Function.update s.entry e _ e').key = some e'
    rw [(hentry e').1]
    exact h.enabled e' ((hentry e').2 ▸ he')
  · change (Function.update s.entry e _ e').isReady = true
    by_cases heq : e' = e
    · rw [heq, update_self]
      exact hself.mp (heq ▸ he')
    · rw [update_of_ne heq]
      exact h.isReady e' ((hother e' heq).mp he')
  · change (Function.update s.entry e _ e').isReady = true at hready
    by_cases heq : e' = e
    · rw [heq, update_self] at hready
      exact heq ▸ hself.mpr hready
    · rw [update_of_ne heq] at hready
      exact (hother e' heq).mpr (h.mem_ready e' he' hready)

/-- An entry is pushed. -/
lemma pushLocked (he : e < s.next) : (s.pushLocked e).ListOk := by
  unfold EpollFile.pushLocked
  split
  · next hflag =>
    have hmem : e ∉ s.ready := fun hmem => by simp [h.isReady e hmem] at hflag
    apply h.setReady he
    · rw [← concat_eq_append]
      exact h.nodup.concat hmem
    · simp
    · intro e' hne
      simp [hne]
  · exact h

/-- A pushed entry is in the list, when somebody holds it. -/
lemma mem_pushLocked (he : s.Alive e) : e ∈ (s.pushLocked e).ready := by
  unfold EpollFile.pushLocked
  split
  · exact mem_append_right _ (mem_singleton_self e)
  · next hflag => exact h.mem_ready e he (by simpa using hflag)

/-- The front of the list is dropped, when nobody holds what is in it. -/
lemma dropReady {dropped ready : List ℕ} (hready : s.ready = dropped ++ ready)
    (hdead : ∀ d ∈ dropped, ¬ s.Alive d) : ListOk { s with ready := ready } := by
  have hsub : ∀ e ∈ ready, e ∈ s.ready := fun e he => hready ▸ mem_append_right _ he
  refine ⟨fun e he => h.ready_lt e (hsub e he), h.interest_lt, h.task_lt, h.key, h.enabled,
    fun e he => h.isReady e (hsub e he), ?_, fun e he hflag => ?_⟩
  · have hnodup := h.nodup
    rw [hready] at hnodup
    exact hnodup.of_append_right
  · have hmem := h.mem_ready e he hflag
    rw [hready] at hmem
    exact (mem_append.mp hmem).resolve_left fun hdropped => hdead e hdropped he

/-- The entry at the front is popped. -/
lemma pop {ready : List ℕ} (hready : s.ready = e :: ready) :
    ListOk ({ s with ready := ready }.setEntry e { s.entry e with isReady := false }) := by
  have hnodup := h.nodup
  rw [hready, nodup_cons] at hnodup
  apply h.setReady (h.ready_lt e (hready ▸ mem_cons_self)) hnodup.2
  · simpa using hnodup.1
  · intro e' hne
    rw [hready, mem_cons, or_iff_right hne]

/-! ### Calls -/

lemma pushIfReady (he : s.Alive e) (events : IoEvents) : (s.pushIfReady e events).ListOk := by
  unfold EpollFile.pushIfReady
  split
  · apply h.spawn
    refine ⟨fun e' hholds => of_decide_eq_true hholds ▸ he, ?_⟩
    rintro e' rfl
    exact h.lt_of_alive he
  · exact h

/-- A new entry is made, which is in no list yet. -/
lemma added {event : EpollEvent} {flags : EpollFlags}
    (hnone : s.interest.get? (toLex (fd, file)) = none) : (s.added fd file event flags).ListOk := by
  have hself : (s.added fd file event flags).entry s.next =
      (Entry.new fd file).updated event flags :=
    update_self _ _ _
  have hother : ∀ e, e < s.next → (s.added fd file event flags).entry e = s.entry e :=
    fun e he => update_of_ne he.ne _ _
  have hget : ∀ key, (s.added fd file event flags).interest.get? key =
      if key = toLex (fd, file) then some s.next else s.interest.get? key :=
    fun key => OrderedMap.get?_insert key
  have halive : ∀ e, e ≠ s.next → (s.added fd file event flags).Alive e → s.Alive e := by
    rintro e hne (⟨key, hkey⟩ | htask)
    · rw [hget] at hkey
      split at hkey
      · exact absurd (some.inj hkey).symm hne
      · exact .inl ⟨key, hkey⟩
    · exact .inr htask
  refine ⟨fun e he => (h.ready_lt e he).trans (lt_add_one _), fun key e hkey => ?_,
    fun task htask e hmentions => (h.task_lt task htask e hmentions).trans (lt_add_one _),
    fun key e hkey => ?_, fun e he => ?_, fun e he => ?_, h.nodup, fun e he hflag => ?_⟩
  · change e < s.next + 1
    rw [hget] at hkey
    split at hkey
    · have := some.inj hkey
      omega
    · exact (h.interest_lt key e hkey).trans (lt_add_one _)
  · rw [hget] at hkey
    split at hkey
    · next hkey' =>
      rw [← some.inj hkey, hself, hkey']
      rfl
    · rw [hother e (h.interest_lt key e hkey)]
      exact h.key key e hkey
  · by_cases heq : e = s.next
    · rw [heq, hself, hget]
      exact if_pos rfl
    · have he' : (s.entry e).isEnabled = true := by
        rwa [show (s.added fd file event flags).entry e = s.entry e from update_of_ne heq _ _] at he
      have hkey := h.enabled e he'
      rw [hother e (h.interest_lt _ e hkey), hget, if_neg, hkey]
      intro hkey'
      rw [hkey', hnone] at hkey
      cases hkey
  · rw [hother e (h.ready_lt e he)]
    exact h.isReady e he
  · by_cases heq : e = s.next
    · rw [heq, hself] at hflag
      cases hflag
    · have hold := halive e heq he
      rw [hother e (h.lt_of_alive hold)] at hflag
      exact h.mem_ready e hold hflag

/-- An entry is updated that is in the interest list. -/
lemma updated {event : EpollEvent} {flags : EpollFlags}
    (hsome : s.interest.get? (toLex (fd, file)) = some e) :
    (s.setEntry e ((s.entry e).updated event flags)).ListOk :=
  h.setEntry rfl rfl fun _ => (h.key _ e hsome).symm ▸ hsome

/-- An entry leaves the interest list and is shut down. -/
lemma deleted (hsome : s.interest.get? (toLex (fd, file)) = some e) :
    ({ s with interest := s.interest.erase (toLex (fd, file)) }.shutdown e).ListOk := by
  have hdown := @setEntry s e h { s.entry e with isEnabled := false, filter := none } rfl rfl
    fun henabled => by cases henabled
  have hget : ∀ key, (s.interest.erase (toLex (fd, file))).get? key =
      if key = toLex (fd, file) then none else s.interest.get? key :=
        fun key => OrderedMap.get?_erase key
  have hsub : ∀ key e', (s.interest.erase (toLex (fd, file))).get? key = some e' →
      s.interest.get? key = some e' := by
    intro key e' hkey
    rw [hget] at hkey
    split at hkey
    · cases hkey
    · exact hkey
  refine ⟨h.ready_lt, fun key e' hkey => h.interest_lt key e' (hsub key e' hkey), h.task_lt,
    fun key e' hkey => hdown.key key e' (hsub key e' hkey), fun e' he' => ?_, hdown.isReady,
      h.nodup,
    fun e' he' hflag => hdown.mem_ready e' ?_ hflag⟩
  · have hne : e' ≠ e := by
      rintro rfl
      change (Function.update s.entry e' _ e').isEnabled = true at he'
      rw [update_self] at he'
      cases he'
    have hentry : ({ s with interest := s.interest.erase (toLex (fd, file)) }.shutdown e).entry e' =
      s.entry e' := update_of_ne hne _ _
    rw [hentry] at he' ⊢
    have hkey := h.enabled e' he'
    refine (hget _).trans ?_
    rw [if_neg, hkey]
    intro hkey'
    rw [hkey', hsome] at hkey
    exact hne (some.inj hkey).symm
  · rcases he' with ⟨key, hkey⟩ | htask
    · exact .inl ⟨key, hsub key e' hkey⟩
    · exact .inr htask

end

/-- What the task still knows when it has pushed, it knew before. -/
lemma knows_after {push' : Option Push} (context : PushContext) {push : Push}
    (hentry : ∀ p, push' = some p → p.entry = push.entry)
    (hknows : s.Knows (context.task (some push))) :
    s.Knows (context.task push') := by
  cases push' with
  | none =>
    cases context with
    | control | popping => exact .of_idle fun _ => id
    | notifying todo =>
      refine ⟨fun e hholds => (by cases hholds), fun e hmentions => hknows.lt e (.inr ?_)⟩
      rcases hmentions with ⟨p, hp, -⟩ | htodo
      · cases hp
      · exact htodo
  | some p =>
    have hp := hentry p rfl
    cases context with
    | notifying todo => exact ⟨fun e hholds => (by cases hholds), by
        simpa [PushContext.task, Task.Mentions, hp] using hknows.lt⟩
    | _ => exact ⟨by simpa [PushContext.task, Task.holds, hp] using hknows.alive, by
        simpa [PushContext.task, Task.Mentions, hp] using hknows.lt⟩

/-- A task pushes an entry. -/
lemma push (h : s.ListOk) (context : PushContext) (push : Push)
    (hmem : context.task (some push) ∈ s.tasks) :
    ListOk { (s.push push).1 with
      tasks := (s.push push).1.tasks.set i (context.task (s.push push).2) } := by
  have hknows := h.known hmem
  have hself : push.entry < s.next := by
    apply hknows.lt
    cases context with
    | control => rfl
    | notifying todo => exact .inl ⟨push, rfl, rfl⟩
    | popping popper => rfl
  rcases push_cases (s := s) push with ⟨e, rfl, -, heq⟩ | ⟨e, rfl, -, heq⟩ | ⟨e, rfl, heq⟩
  · rw [heq]
    exact h.setTask (knows_after context (by rintro p ⟨⟩; rfl) hknows)
  · rw [heq]
    exact h.setTask (knows_after context (by simp) hknows)
  · rw [heq]
    obtain ⟨hinterest, htasks, hnext, -⟩ := pushLocked_frame (s := s) (e := e)
    have hafter : s.Knows (context.task none) := knows_after context (by simp) hknows
    apply (h.pushLocked hself).setTask
    exact ⟨fun e' hholds => (alive_congr hinterest htasks).mpr (hafter.alive e' hholds),
      fun e' hmentions => hnext ▸ hafter.lt e' hmentions⟩

/-- The step of a task keeps the lists. -/
lemma taskCases (h : s.ListOk) (hmem : task ∈ s.tasks) (hcases : s.TaskCases task s' task') :
    ListOk { s' with tasks := s'.tasks.set i task' } := by
  have hknows := h.known hmem
  cases hcases with
  | push context push => exact h.push context push hmem
  | notify file events todo htodo =>
    apply h.setTask
    refine ⟨fun e hholds => (by cases hholds), ?_⟩
    rintro e (⟨push, hpush, -⟩ | he)
    · cases hpush
    · exact ((htodo e).mp he).1
  | guard | panic | disabled | deleted => exact h.setTask (.of_idle fun _ => id)
  | finish popper limit dropped ready hready hdead =>
    exact (h.dropReady hready hdead).setTask (.of_idle fun _ => id)
  | pop popper dropped ready e limit hmax hready hdead hlive hlimit =>
    have hdrop : ListOk { s with ready := e :: ready } := h.dropReady hready hdead
    apply (hdrop.pop rfl).setTask
    refine ⟨fun e' hholds => of_decide_eq_true hholds ▸ hlive, ?_⟩
    rintro e' rfl
    exact h.lt_of_alive hlive
  | dead popper e hfile => exact h.setTask ⟨hknows.alive, hknows.lt⟩
  | poll popper e reported event henabled hreported =>
    have hpoll : (s.setEntry e ((s.entry e).polled reported)).ListOk :=
      h.setEntry rfl rfl fun _ => h.enabled e henabled
    apply hpoll.setTask
    cases reported && (s.entry e).isLevel with
    | true => exact ⟨hknows.alive, hknows.lt⟩
    | false => exact .of_idle fun _ => id
  | delete popper e s' hdel =>
    obtain ⟨e', hsome, rfl⟩ := delInterest_eq_ok hdel
    exact (h.deleted hsome).setTask (.of_idle fun _ => id)
  | stay => exact h.setTask hknows

/-- Every step keeps the lists. -/
lemma stepCases (h : s.ListOk) (hcases : s.StepCases s') : s'.ListOk := by
  cases hcases with
  | add fd file event flags hnone =>
    refine (h.added hnone).pushIfReady (.inl ⟨toLex (fd, file), ?_⟩) _
    exact (OrderedMap.get?_insert _).trans (if_pos rfl)
  | mod fd file event flags e hsome =>
    exact (h.updated hsome).pushIfReady (.inl ⟨toLex (fd, file), hsome⟩) _
  | del fd file e hsome => exact h.deleted hsome
  | arrive file events =>
    have harrive : (s.arrive file events).ListOk :=
      h.setFile.setEntries (fun _ => rfl) (fun _ => rfl) h.enabled
    exact harrive.spawn (.of_idle fun _ => id)
  | consume file events | drop file => exact h.setFile
  | wait maxEvents => exact h.spawn (.of_idle fun _ => id)
  | task i task task' s' hi hcases => exact h.taskCases (mem_of_getElem? hi) hcases
  | deliver i e todo hi he =>
    have hlt := (h.known (mem_of_getElem? hi)).lt
    apply h.setTask
    refine ⟨fun e' hholds => (by cases hholds), ?_⟩
    rintro e' (⟨push, hpush, hentry⟩ | he')
    · cases hpush
      exact hlt e' (.inr (hentry ▸ he))
    · exact hlt e' (.inr (mem_of_mem_erase he'))
  | stay => exact h

end ListOk

end EpollFile

end Asterinas.Epoll
