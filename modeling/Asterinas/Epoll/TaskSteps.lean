import Asterinas.Epoll.EpollFile

/-!
# What a task does in one step

The tasks of an epoll file push an entry, pop entries, poll one or delete one; `TaskCases` lists
what a step can do.  The ready list holds every entry at most once, and holds a live entry exactly
when its flag is set.
-/

namespace Asterinas.Epoll

open Framework List

namespace Entry

section

variable (entry : Entry)

/-- The entry is level-triggered. -/
def isLevel : Bool := !intersects entry.flags (EpollFlags.edgeTrigger ||| EpollFlags.oneShot)

/-- The entry reports once. -/
def isOneShot : Bool := intersects entry.flags EpollFlags.oneShot

/-- The entry after an update. -/
def updated (event : EpollEvent) (flags : EpollFlags) : Entry :=
  { entry with
    event := event, flags := flags, isEnabled := true
    filter := some (event.events ||| .alwaysPoll)
    arrived := false, reports := 0 }

/-- The entry after a poll that has reported events or not. -/
def polled (reported : Bool) : Entry :=
  { entry with
    isEnabled := !(reported && entry.isOneShot), arrived := false
    reports := entry.reports + reported.toNat }

end

end Entry

/-- Where a task pushes an entry. -/
inductive PushContext
  | control
  | notifying (todo : List ℕ)
  | popping (popper : Popper)

/-- The task that pushes, and that has pushed. -/
def PushContext.task : PushContext → Option Push → Task
  | control, some push => .control push
  | control, none => .finished
  | notifying todo, push => .notifying push todo
  | popping popper, some push => .popping popper (.pushing push)
  | popping popper, none => .popping popper .loop

namespace EpollFile

variable {s s' : EpollFile} {task task' : Task} {e e' i fd file : ℕ}

/-- The epoll file with a new entry in the interest list. -/
def added (s : EpollFile) (fd file : ℕ) (event : EpollEvent) (flags : EpollFlags) : EpollFile :=
  { s with
    entry := Function.update s.entry s.next ((Entry.new fd file).updated event flags)
    next := s.next + 1
    interest := s.interest.insert (toLex (fd, file)) s.next }

/-! ### Live entries -/

/-- Somebody has a strong reference to the entry. -/
def Alive (s : EpollFile) (e : ℕ) : Prop :=
  (∃ key, s.interest.get? key = some e) ∨ ∃ task ∈ s.tasks, task.holds e = true

lemma isAlive_iff : s.isAlive e = true ↔ s.Alive e := by
  simp only [isAlive, Bool.or_eq_true, contains_iff_mem, OrderedMap.mem_values, any_eq_true,
    Alive, OrderedMap.get?_eq_some]

/-! ### Pops -/

/-- The front of the list is popped: dead entries are passed over, until a live one is found or the
limit is reached. -/
lemma popFront_spec {limit limit' : ℕ} {found : Option ℕ} {isAlive : ℕ → Bool}
    {ready ready' : List ℕ} (h : popFront isAlive limit ready = some (ready', limit', found)) :
    ∃ dropped, (∀ d ∈ dropped, isAlive d = false) ∧
      (found = none → ready = dropped ++ ready') ∧
      ∀ e, found = some e → ready = dropped ++ e :: ready' ∧ isAlive e = true ∧
        dropped.length + 1 + limit' = limit := by
  induction limit generalizing ready with
  | zero =>
    obtain ⟨rfl, -, rfl⟩ := h
    exact ⟨[], by simp, by simp, by simp⟩
  | succ limit ih =>
    cases ready with
    | nil => simp [popFront] at h
    | cons d ready =>
      rw [popFront] at h
      split at h
      · next halive =>
        obtain ⟨rfl, rfl, rfl⟩ := h
        refine ⟨[], by simp, by simp, fun e he => ?_⟩
        cases he
        simp [halive, add_comm]
      · next hdead =>
        obtain ⟨dropped, hdropped, hnone, hsome⟩ := ih h
        refine ⟨d :: dropped, ?_, fun hfound => by rw [hnone hfound]; rfl, fun e he => ?_⟩
        · intro x hx
          rcases mem_cons.mp hx with rfl | hx
          · simpa using hdead
          · exact hdropped x hx
        · obtain ⟨hready, halive, hlimit⟩ := hsome e he
          refine ⟨by rw [hready]; rfl, halive, ?_⟩
          simp only [length_cons]
          omega

lemma popFront_ne_none {limit : ℕ} {isAlive : ℕ → Bool} {ready : List ℕ}
    (h : limit ≤ ready.length) : popFront isAlive limit ready ≠ none := by
  induction limit generalizing ready with
  | zero => simp [popFront]
  | succ limit ih =>
    cases ready with
    | nil => simp at h
    | cons d ready =>
      rw [popFront]
      split
      · simp
      · exact ih (by simpa using h)

/-! ### Steps of a task -/

/-- What the step of a task can do. -/
inductive TaskCases (s : EpollFile) : Task → EpollFile → Task → Prop
  | push (context : PushContext) (push : Push) :
      TaskCases s (context.task (some push)) (s.push push).1 (context.task (s.push push).2)
  | notify (file : ℕ) (events : IoEvents) (todo : List ℕ)
      (htodo : ∀ e, e ∈ todo ↔ e < s.next ∧ (s.entry e).listens file events = true) :
      TaskCases s (.notify file events) s (.notifying none todo)
  | guard (maxEvents : ℕ) (hfree : ∀ task ∈ s.tasks, task.isPopping = false) :
      TaskCases s (.waiting maxEvents) s (.popping ⟨maxEvents, none, [], [], []⟩ .loop)
  | finish (popper : Popper) (limit : Option ℕ) (dropped ready : List ℕ)
      (hready : s.ready = dropped ++ ready)
      (hdead : ∀ d ∈ dropped, ¬ s.Alive d) :
      TaskCases s (.popping popper .loop) { s with ready := ready }
        (.returned { popper with limit := limit })
  | pop (popper : Popper) (dropped ready : List ℕ) (e limit : ℕ)
      (hmax : popper.epEvents.length < popper.maxEvents)
      (hready : s.ready = dropped ++ e :: ready) (hdead : ∀ d ∈ dropped, ¬ s.Alive d)
      (halive : s.Alive e)
      (hlimit : dropped.length + 1 + limit = popper.limit.getD s.ready.length) :
      TaskCases s (.popping popper .loop)
        ({ s with ready := ready }.setEntry e { s.entry e with isReady := false })
        (.popping { popper with limit := some limit, popped := popper.popped ++ [e] } (.popped e))
  | panic (popper : Popper) (hlimit : s.ready.length < popper.limit.getD s.ready.length) :
      TaskCases s (.popping popper .loop) s .panicked
  | dead (popper : Popper) (e : ℕ) (hfile : (s.file (s.entry e).file).isAlive = false) :
      TaskCases s (.popping popper (.popped e)) s (.popping popper (.dead e))
  | disabled (popper : Popper) (e : ℕ) (henabled : (s.entry e).isEnabled = false) :
      TaskCases s (.popping popper (.popped e)) s (.popping popper .loop)
  | poll (popper : Popper) (e : ℕ) (reported : Bool) (event : EpollEvent)
      (henabled : (s.entry e).isEnabled = true)
      (hreported : reported = ((s.file (s.entry e).file).poll (s.entry e).event.events != 0)) :
      TaskCases s (.popping popper (.popped e)) (s.setEntry e ((s.entry e).polled reported))
        (.popping
          (if reported then
            { popper with epEvents := popper.epEvents ++ [event], reported := popper.reported ++
              [e] }
          else popper)
          (if reported && (s.entry e).isLevel then .pushing (.check e) else .loop))
  | delete (popper : Popper) (e : ℕ) (s' : EpollFile)
    (hdel : s.delInterest (s.entry e).fd (s.entry e).file = .ok s') :
      TaskCases s (.popping popper (.dead e)) s' (.popping popper .loop)
  | deleted (popper : Popper) (e : ℕ) :
    TaskCases s (.popping popper (.dead e)) s (.popping popper .loop)
  | stay (task : Task) : TaskCases s task s task

lemma popNext_cases {popper : Popper} (hmax : popper.epEvents.length < popper.maxEvents) :
    TaskCases s (.popping popper .loop) (s.popNext popper).1 (s.popNext popper).2 := by
  unfold popNext
  split
  · exact .finish popper popper.limit [] s.ready rfl (by simp)
  · split
    · next hnone =>
      apply TaskCases.panic
      by_contra hle
      exact popFront_ne_none (not_lt.mp hle) hnone
    · next ready limit hfront =>
      obtain ⟨dropped, hdead, hready, -⟩ := popFront_spec hfront
      exact .finish popper none dropped ready (hready rfl) fun d hd =>
        (isAlive_iff (s := s)).not.mp (by simp [hdead d hd])
    · next ready limit e hfront =>
      obtain ⟨dropped, hdead, -, hfound⟩ := popFront_spec hfront
      obtain ⟨hready, halive, hlimit⟩ := hfound e rfl
      exact .pop popper dropped ready e limit hmax hready
        (fun d hd => (isAlive_iff (s := s)).not.mp (by simp [hdead d hd]))
          (isAlive_iff.mp halive) hlimit

lemma popPoll_cases {popper : Popper} :
    TaskCases s (.popping popper (.popped e)) (s.popPoll popper e).1 (s.popPoll popper e).2 := by
  unfold popPoll poll
  dsimp only
  by_cases hfile : (s.file (s.entry e).file).isAlive = true
  · by_cases henabled : (s.entry e).isEnabled = true
    · obtain ⟨reported, hreported⟩ :
          ∃ b, b = ((s.file (s.entry e).file).poll (s.entry e).event.events != 0) := ⟨_, rfl⟩
      have hcases := TaskCases.poll popper e reported
        ⟨(s.file (s.entry e).file).poll (s.entry e).event.events, (s.entry e).event.userData⟩
          henabled hreported
      rw [if_neg (by simp [hfile]), if_neg (by simp [henabled]), ← hreported]
      cases reported with
      | true | false => exact hcases
    · rw [if_neg (by simp [hfile]), if_pos (by simp [henabled])]
      exact .disabled popper e (by simpa using henabled)
  · rw [if_pos (by simp [hfile])]
    exact .dead popper e (by simpa using hfile)

/-- A step of a task does one of these things. -/
lemma taskStep_cases (task : Task) : TaskCases s task (s.taskStep task).1 (s.taskStep task).2 := by
  cases task with
  | control push =>
    have hcases := TaskCases.push (s := s) .control push
    rcases hpush : s.push push with ⟨s', _ | push'⟩ <;>
      simpa only [taskStep, hpush, PushContext.task] using hcases
  | notify file events =>
    refine .notify file events _ fun e => ?_
    rw [mem_filter, mem_range]
  | notifying now todo =>
    cases now with
    | none => exact .stay _
    | some push => exact .push (.notifying todo) push
  | waiting maxEvents =>
    unfold taskStep
    dsimp only
    split
    · exact .stay _
    · next hfree =>
      apply TaskCases.guard
      intro task htask
      by_contra hpopping
      exact hfree (any_eq_true.mpr ⟨task, htask, by simpa using hpopping⟩)
  | popping popper stage =>
    change TaskCases s _ (s.popStep popper stage).1 (s.popStep popper stage).2
    cases stage with
    | loop =>
      unfold popStep
      dsimp only
      split
      · exact .finish popper popper.limit [] s.ready rfl (by simp)
      · next hmax => exact popNext_cases (not_le.mp hmax)
    | popped e => exact popPoll_cases
    | dead e =>
      unfold popStep
      dsimp only
      split
      · next s' hdel => exact .delete popper e s' hdel
      · exact .deleted popper e
    | pushing push =>
      have hcases := TaskCases.push (s := s) (.popping popper) push
      rcases hpush : s.push push with ⟨s', _ | push'⟩ <;>
        simpa only [popStep, hpush, PushContext.task] using hcases
  | returned popper | finished | panicked => exact .stay _

/-! ### Calls and events -/

/-- `add_interest` makes a new entry. -/
lemma addInterest_eq_ok {event : EpollEvent} {flags : EpollFlags}
    (h : s.addInterest fd file event flags = .ok s') : s.interest.get? (toLex (fd, file)) = none ∧
      s' = (s.added fd file event flags).pushIfReady s.next ((s.file file).poll event.events) := by
  unfold addInterest at h
  split at h
  · cases h
  · next hnone =>
    refine ⟨hnone, ?_⟩
    rw [← Except.ok.inj h]
    simp only [added, setEntry, Function.update_self, Function.update_idem, Entry.new,
      Entry.updated]

lemma modInterest_eq_ok {event : EpollEvent} {flags : EpollFlags}
    (h : s.modInterest fd file event flags = .ok s') :
    ∃ e, s.interest.get? (toLex (fd, file)) = some e ∧
      s' = (s.setEntry e ((s.entry e).updated event flags)).pushIfReady e
        ((s.file (s.entry e).file).poll event.events) := by
  unfold modInterest at h
  split at h
  · next e hsome => exact ⟨e, hsome, (Except.ok.inj h).symm⟩
  · cases h

lemma delInterest_eq_ok (h : s.delInterest fd file = .ok s') :
    ∃ e, s.interest.get? (toLex (fd, file)) = some e ∧
      s' = { s with interest := s.interest.erase (toLex (fd, file)) }.shutdown e := by
  unfold delInterest at h
  split at h
  · next e hsome => exact ⟨e, hsome, (Except.ok.inj h).symm⟩
  · cases h

/-- What an event can do. -/
inductive StepCases (s : EpollFile) : EpollFile → Prop
  | add (fd file : ℕ) (event : EpollEvent) (flags : EpollFlags)
      (hnone : s.interest.get? (toLex (fd, file)) = none) :
      StepCases s
        ((s.added fd file event flags).pushIfReady s.next ((s.file file).poll event.events))
  | mod (fd file : ℕ) (event : EpollEvent) (flags : EpollFlags) (e : ℕ)
      (hsome : s.interest.get? (toLex (fd, file)) = some e) :
      StepCases s ((s.setEntry e ((s.entry e).updated event flags)).pushIfReady e
        ((s.file (s.entry e).file).poll event.events))
  | del (fd file e : ℕ) (hsome : s.interest.get? (toLex (fd, file)) = some e) :
      StepCases s ({ s with interest := s.interest.erase (toLex (fd, file)) }.shutdown e)
  | arrive (file : ℕ) (events : IoEvents) :
    StepCases s ((s.arrive file events).spawn (.notify file events))
  | consume (file : ℕ) (events : IoEvents) :
      StepCases s (s.setFile file { s.file file with events := (s.file file).events &&& ~~~events })
  | drop (file : ℕ) : StepCases s (s.setFile file { s.file file with isAlive := false })
  | wait (maxEvents : ℕ) : StepCases s (s.spawn (.waiting maxEvents))
  | task (i : ℕ) (task task' : Task) (s' : EpollFile) (hi : s.tasks[i]? = some task)
      (hcases : s.TaskCases task s' task') : StepCases s { s' with tasks := s'.tasks.set i task' }
  | deliver (i e : ℕ) (todo : List ℕ) (hi : s.tasks[i]? = some (.notifying none todo))
    (he : e ∈ todo) :
      StepCases s { s with tasks := s.tasks.set i (.notifying (some (.check e)) (todo.erase e)) }
  | stay : StepCases s s

/-- An event does one of these things. -/
lemma step_cases (s : EpollFile) (event : Event) : StepCases s (s.step event) := by
  cases event with
  | add fd file event flags =>
    unfold step
    dsimp only
    split
    · cases hadd : s.addInterest fd file event flags with
      | error error => exact .stay
      | ok s' =>
        obtain ⟨hnone, rfl⟩ := addInterest_eq_ok hadd
        exact .add fd file event flags hnone
    · exact .stay
  | mod fd file event flags =>
    unfold step
    dsimp only
    split
    · cases hmod : s.modInterest fd file event flags with
      | error error => exact .stay
      | ok s' =>
        obtain ⟨e, hsome, rfl⟩ := modInterest_eq_ok hmod
        exact .mod fd file event flags e hsome
    · exact .stay
  | del fd file =>
    unfold step
    dsimp only
    cases hdel : s.delInterest fd file with
    | error error => exact .stay
    | ok s' =>
      obtain ⟨e, hsome, rfl⟩ := delInterest_eq_ok hdel
      exact .del fd file e hsome
  | arrive file events => exact .arrive file events
  | consume file events => exact .consume file events
  | drop file => exact .drop file
  | wait maxEvents => exact .wait maxEvents
  | step i =>
    unfold step
    dsimp only
    split
    · next task hi => exact .task i task _ _ hi (taskStep_cases task)
    · exact .stay
  | deliver i e =>
    unfold step
    dsimp only
    split
    · next todo hi =>
      split
      · next he => exact .deliver i e todo hi he
      · exact .stay
    · exact .stay

end EpollFile

end Asterinas.Epoll
