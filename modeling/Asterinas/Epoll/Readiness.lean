import Asterinas.Epoll.PopLoop

/-!
# No readiness is lost

An enabled entry that has to be looked at is in the ready list, or some task is on its way to put it
there or to poll it: the task that pops, a task that updates the entry, or a task that notifies the
observers of the file.  An entry has to be looked at when it is level-triggered and its file has
events for it, and when an event has arrived since it was polled.
-/

namespace Asterinas.Epoll

open Framework List Function Option

/-! ### Entries -/

namespace Entry

/-- What holds of an entry. -/
structure Ok (entry : Entry) : Prop where
  filter : entry.isEnabled = true → entry.filter = some (entry.event.events ||| .alwaysPoll)
  oneShot : entry.isOneShot = true → (entry.isEnabled = true → entry.reports = 0) ∧
    entry.reports ≤ 1

lemma ok_updated (entry : Entry) (event : EpollEvent) (flags : EpollFlags) :
    (entry.updated event flags).Ok :=
  ⟨fun _ => rfl, fun _ => ⟨fun _ => rfl, zero_le⟩⟩

section

variable {entry : Entry} (h : entry.Ok)

include h

lemma Ok.polled (henabled : entry.isEnabled = true) (reported : Bool) :
    (entry.polled reported).Ok := by
  refine ⟨fun _ => h.filter henabled, fun hpolled => ?_⟩
  have hshot : entry.isOneShot = true := hpolled
  have hzero := (h.oneShot hshot).1 henabled
  cases reported with
  | true =>
    refine ⟨fun he => ?_, by simp [Entry.polled, hzero]⟩
    simp [Entry.polled, hshot] at he
  | false => exact ⟨fun _ => hzero, by simp [Entry.polled, hzero]⟩

lemma Ok.setReady (flag : Bool) :
    ({ entry with isReady := flag } : Entry).Ok := ⟨h.filter, h.oneShot⟩

lemma Ok.shutdown : ({ entry with isEnabled := false, filter := none } : Entry).Ok := by
  refine ⟨fun he => ?_, fun hshot => ⟨fun he => ?_, (h.oneShot hshot).2⟩⟩
  · cases he
  · cases he

end

end Entry

namespace EpollFile

variable {s s' : EpollFile} {task task' : Task} {e e' i : ℕ} {strict : Prop}

/-- What holds of one entry after a change holds of all. -/
lemma entriesOk_setEntry (h : ∀ e, (s.entry e).Ok) {entry : Entry} (hentry : entry.Ok) (e' : ℕ) :
    ((s.setEntry e entry).entry e').Ok := by
  change (Function.update s.entry e entry e').Ok
  by_cases heq : e' = e
  · rwa [heq, update_self]
  · rw [update_of_ne heq]
    exact h e'

lemma entriesOk_taskCases (h : ∀ e, (s.entry e).Ok) (hcases : s.TaskCases task s' task') (e' : ℕ) :
    (s'.entry e').Ok := by
  cases hcases with
  | push context push =>
    rcases push_fst (s := s) push with heq | heq
    · rw [heq]
      exact h e'
    · rw [heq]
      exact entriesOk_setEntry h ((h push.entry).setReady true) e'
  | pop popper dropped ready e limit hmax hready hdead hlive hlimit =>
    exact entriesOk_setEntry (s := { s with ready := ready }) h ((h e).setReady false) e'
  | poll popper e reported event henabled hreported =>
    exact entriesOk_setEntry h ((h e).polled henabled reported) e'
  | delete popper e s' hdel =>
    obtain ⟨e₁, -, rfl⟩ := delInterest_eq_ok hdel
    exact entriesOk_setEntry (s := { s with interest := s.interest.erase _ }) h (h e₁).shutdown e'
  | _ => exact h e'

lemma entry_pushIfReady (events : IoEvents) : (s.pushIfReady e events).entry = s.entry := by
  unfold pushIfReady
  split
  · rfl
  · rfl

/-- Every step keeps the entries. -/
lemma entriesOk_stepCases (h : ∀ e, (s.entry e).Ok) (hcases : s.StepCases s') (e' : ℕ) :
    (s'.entry e').Ok := by
  cases hcases with
  | add fd file event flags | mod fd file event flags =>
    rw [entry_pushIfReady]
    exact entriesOk_setEntry h (Entry.ok_updated _ event flags) e'
  | del fd file e hsome =>
    exact entriesOk_setEntry (s := { s with interest := s.interest.erase _ }) h (h e).shutdown e'
  | arrive file events => exact ⟨(h e').filter, (h e').oneShot⟩
  | task i task task' s' hi hcases => exact entriesOk_taskCases h hcases e'
  | _ => exact h e'

end EpollFile

/-! ### Coverage -/

/-- The task polls the entry next, or puts it in the list because of an event. -/
def Task.Delivers (s : EpollFile) (e : ℕ) : Task → Prop
  | notify file events => (s.entry e).listens file events = true
  | notifying now todo => (∃ push, now = some push ∧ push.entry = e) ∨ e ∈ todo
  | popping _ (.popped e') => e' = e
  | _ => False

/-- The task has polled the entry and puts it in the list. -/
def Task.Pushes (e : ℕ) : Task → Prop
  | control push => push.entry = e
  | popping _ (.pushing push) => push.entry = e
  | _ => False

/-- The task is on its way; when `strict` holds, because of an event or before its poll. -/
def Task.Brings (strict : Prop) (s : EpollFile) (e : ℕ) (task : Task) : Prop :=
  task.Delivers s e ∨ ¬ strict ∧ task.Pushes e

/-- The state of the call of `pop_multi_ready`, which may have returned. -/
def Task.popper : Task → Option Popper
  | popping popper _ => some popper
  | returned popper => some popper
  | _ => none

/-- The file of the entry has events that are not consumed and that the entry is interested in. -/
def EpollFile.Interesting (s : EpollFile) (e : ℕ) : Prop :=
  (s.file (s.entry e).file).poll (s.entry e).event.events ≠ 0

/-- The entry has to be looked at: an event has arrived since its last poll when `strict` holds, and
otherwise it is level-triggered and its file has events. -/
structure EpollFile.Owed (strict : Prop) (s : EpollFile) (e : ℕ) : Prop where
  enabled : (s.entry e).isEnabled = true
  isAlive : (s.file (s.entry e).file).isAlive = true
  arrived : strict → (s.entry e).arrived = true
  level : ¬ strict → (s.entry e).isLevel = true ∧ s.Interesting e

/-- The entry is in the ready list, or a task is on its way. -/
def EpollFile.Covered (strict : Prop) (s : EpollFile) (e : ℕ) : Prop :=
  e ∈ s.ready ∨ ∃ task ∈ s.tasks, task.Brings strict s e

namespace EpollFile

variable {s s' : EpollFile} {task task' : Task} {e e' i : ℕ} {strict : Prop}

lemma brings_congr (hentry : (s'.entry e).file = (s.entry e).file ∧ (s'.entry e).filter =
    (s.entry e).filter) (h : task.Brings strict s e) : task.Brings strict s' e := by
  rcases h with h | h
  · left
    cases task with
    | notify file events =>
      change (s'.entry e).listens file events = true
      rw [Entry.listens, hentry.1, hentry.2]
      exact h
    | popping popper stage => cases stage <;> exact h
    | _ => exact h
  · exact .inr h

/-- What matters of an entry has not changed. -/
structure SameFor (s s' : EpollFile) (e : ℕ) : Prop where
  file : (s'.entry e).file = (s.entry e).file
  filter : (s'.entry e).filter = (s.entry e).filter
  owed : ∀ strict, s'.Owed strict e → s.Owed strict e

/-- The flag in the list does not matter. -/
lemma sameFor_of_entry {flag : Bool} (hentry : s'.entry e = { s.entry e with isReady := flag })
    (hfile : s'.file = s.file) : s.SameFor s' e := by
  refine ⟨by rw [hentry], by rw [hentry], fun strict h =>
    ⟨?_, ?_, fun hstrict => ?_, fun hstrict => ?_⟩⟩
  · have := h.enabled
    rwa [hentry] at this
  · have := h.isAlive
    rwa [hfile, hentry] at this
  · have := h.arrived hstrict
    rwa [hentry] at this
  · have := h.level hstrict
    rwa [Interesting, hfile, hentry] at this

/-- The lists and the tasks do not matter. -/
lemma sameFor_lists (s : EpollFile) (ready : List ℕ) (tasks : List Task) (e : ℕ) :
    s.SameFor { s with ready := ready, tasks := tasks } e := sameFor_of_entry rfl rfl

/-- The flag in the list does not matter. -/
lemma sameFor_setReady (flag : Bool)
    (hentry : s'.entry = (s.setEntry e' { s.entry e' with isReady := flag }).entry)
    (hfile : s'.file = s.file) : s.SameFor s' e := by
  by_cases heq : e = e'
  · subst heq
    refine sameFor_of_entry (?_ : s'.entry e = { s.entry e with isReady := flag }) hfile
    rw [hentry]
    exact update_self _ _ _
  · refine sameFor_of_entry (?_ : s'.entry e = s.entry e) hfile
    rw [hentry]
    exact update_of_ne heq _ _

/-- A task is replaced, and takes care of what the other one would have done. -/
lemma Covered.set (h : s.Covered strict e) (hi : s.tasks[i]? = some task)
    (htasks : s'.tasks = s.tasks.set i task') (hsame : s.SameFor s' e)
    (hready : e ∈ s.ready → e ∈ s'.ready ∨ task'.Brings strict s' e)
    (htask : task.Brings strict s e → e ∈ s'.ready ∨ task'.Brings strict s' e) :
    s'.Covered strict e := by
  have hnew : task' ∈ s'.tasks := by
    rw [htasks]
    exact mem_set (List.getElem?_eq_some_iff.mp hi).1 task'
  have hdone : e ∈ s'.ready ∨ task'.Brings strict s' e → s'.Covered strict e := by
    rintro (hmem | hbrings)
    · exact .inl hmem
    · exact .inr ⟨task', hnew, hbrings⟩
  rcases h with hmem | ⟨t, ht, hbrings⟩
  · exact hdone (hready hmem)
  · obtain ⟨j, hj⟩ := mem_iff_getElem?.mp ht
    by_cases hji : j = i
    · subst hji
      rw [hi, Option.some.injEq] at hj
      exact hdone (htask (hj ▸ hbrings))
    · refine .inr ⟨t, ?_, brings_congr ⟨hsame.file, hsame.filter⟩ hbrings⟩
      rw [htasks]
      apply mem_of_getElem? (i := j)
      rwa [PopOk.getElem?_set_task hi, if_neg hji]

/-- A task starts. -/
lemma Covered.mono (h : s.Covered strict e) (hsame : s.SameFor s' e) (hready : s.ready ⊆ s'.ready)
    (htasks : s.tasks ⊆ s'.tasks) : s'.Covered strict e := by
  rcases h with hmem | ⟨t, ht, hbrings⟩
  · exact .inl (hready hmem)
  · exact .inr ⟨t, htasks ht, brings_congr ⟨hsame.file, hsame.filter⟩ hbrings⟩

/-- Every entry that has to be looked at is covered. -/
def AllCovered (s : EpollFile) : Prop := ∀ strict e, s.Owed strict e → s.Covered strict e

/-- What a task that pushes brings, besides what is left for later. -/
lemma brings_context {context : PushContext} {push : Push}
    (h : (context.task (some push)).Brings strict s e) (push' : Option Push) :
    push.entry = e ∨ (context.task push').Brings strict s' e := by
  cases context with
  | control | popping =>
    rcases h with h | ⟨-, h⟩
    · exact h.elim
    · exact .inl h
  | notifying todo =>
    rcases h with (⟨p, hp, hentry⟩ | htodo) | ⟨-, h⟩
    · exact .inl (some.inj hp ▸ hentry)
    · exact .inr (.inl (.inr htodo))
    · exact h.elim

lemma brings_lock {context : PushContext}
    (h : (context.task (some (.check e'))).Brings strict s e) :
    (context.task (some (.lock e'))).Brings strict s' e := by
  cases context with
  | control => exact h
  | notifying todo =>
    rcases h with (⟨p, hp, hentry⟩ | htodo) | h
    · cases hp
      exact .inl (.inl ⟨_, rfl, hentry⟩)
    · exact .inl (.inr htodo)
    · exact .inr h
  | popping popper => exact h

/-- A push puts an enabled entry in the list. -/
lemma AllCovered.push (h : s.AllCovered) (hlist : s.ListOk) (context : PushContext) (push : Push)
    (hi : s.tasks[i]? = some (context.task (some push))) :
    AllCovered { (s.push push).1 with
      tasks := (s.push push).1.tasks.set i (context.task (s.push push).2) } := by
  intro strict e howed
  rcases push_cases (s := s) push with ⟨e', rfl, -, heq⟩ | ⟨e', rfl, hdisabled, heq⟩
    | ⟨e', rfl, heq⟩
  · rw [heq] at howed ⊢
    have hsame := sameFor_lists s s.ready (s.tasks.set i (context.task (some (.lock e')))) e
    exact (h strict e (hsame.owed strict howed)).set hi rfl hsame .inl fun hbrings =>
      .inr (brings_lock hbrings)
  · rw [heq] at howed ⊢
    have hsame := sameFor_lists s s.ready (s.tasks.set i (context.task none)) e
    refine (h strict e (hsame.owed strict howed)).set hi rfl hsame .inl fun hbrings => ?_
    rcases brings_context hbrings none with hself | hlater
    · have henabled := howed.enabled
      rw [← show e' = e from hself] at henabled
      cases hdisabled.symm.trans henabled
    · exact .inr hlater
  · rw [heq] at howed ⊢
    obtain ⟨-, htasks, -, hfile⟩ := pushLocked_frame (s := s) (e := e')
    have hsame : s.SameFor { s.pushLocked e' with
        tasks := (s.pushLocked e').tasks.set i (context.task none) } e := by
      unfold pushLocked
      split
      · exact sameFor_setReady true rfl rfl
      · exact sameFor_of_entry rfl rfl
    have howed' := hsame.owed strict howed
    refine (h strict e howed').set hi (by rw [htasks]) hsame (fun hmem => .inl ?_) fun hbrings => ?_
    · change e ∈ (s.pushLocked e').ready
      unfold pushLocked
      split
      · exact mem_append_left _ hmem
      · exact hmem
    · rcases brings_context hbrings none with hself | hlater
      · left
        obtain rfl : e' = e := hself
        exact hlist.mem_pushLocked (hlist.alive_of_enabled howed'.enabled)
      · exact .inr hlater

/-- A task is replaced that does nothing to the entries. -/
lemma AllCovered.setTask (h : s.AllCovered) (hi : s.tasks[i]? = some task)
    (htask : ∀ strict e, s.Owed strict e → task.Brings strict s e → task'.Brings strict s e) :
    AllCovered { s with tasks := s.tasks.set i task' } := by
  intro strict e howed
  have hsame := sameFor_lists s s.ready (s.tasks.set i task') e
  have howed' := hsame.owed strict howed
  exact (h strict e howed').set hi rfl hsame .inl fun hbrings =>
    .inr (brings_congr ⟨rfl, rfl⟩ (htask strict e howed' hbrings))

/-- A task is replaced that was on its way to no entry. -/
lemma AllCovered.setIdle (h : s.AllCovered) (hi : s.tasks[i]? = some task)
    (hidle : ∀ strict e, ¬ task.Brings strict s e) :
    AllCovered { s with tasks := s.tasks.set i task' } :=
  h.setTask hi fun strict e _ hbrings => absurd hbrings (hidle strict e)

lemma not_brings (hdelivers : ¬ task.Delivers s e) (hpushes : ¬ task.Pushes e) :
    ¬ task.Brings strict s e :=
  fun h => h.elim hdelivers fun h => hpushes h.2

/-- The entry that has been popped does not have to be looked at. -/
lemma AllCovered.setPopped {popper : Popper} (h : s.AllCovered)
    (hi : s.tasks[i]? = some (.popping popper (.popped e'))) (hnot : ∀ strict, ¬ s.Owed strict e') :
    AllCovered { s with tasks := s.tasks.set i task' } := by
  apply h.setTask hi
  rintro strict e howed (hself | ⟨-, hpushes⟩)
  · obtain rfl : e' = e := hself
    exact absurd howed (hnot strict)
  · exact hpushes.elim

/-- An entry is shut down. -/
lemma AllCovered.deleted (h : s.AllCovered) (interest : OrderedMap (ℕ ×ₗ ℕ) ℕ) (e' : ℕ) :
    ({ s with interest := interest }.shutdown e').AllCovered := by
  intro strict e howed
  have hne : e ≠ e' := by
    rintro rfl
    have henabled := howed.enabled
    change (Function.update s.entry e _ e).isEnabled = true at henabled
    rw [update_self] at henabled
    cases henabled
  have hsame : s.SameFor ({ s with interest := interest }.shutdown e') e :=
    sameFor_of_entry (update_of_ne hne _ _) rfl
  exact (h strict e (hsame.owed strict howed)).mono hsame (List.Subset.refl _) (List.Subset.refl _)

/-- The step of a task leaves every entry covered. -/
lemma AllCovered.taskCases (h : s.AllCovered) (hlist : s.ListOk) (hi : s.tasks[i]? = some task)
    (hcases : s.TaskCases task s' task') :
    AllCovered { s' with tasks := s'.tasks.set i task' } := by
  cases hcases with
  | push context push => exact h.push hlist context push hi
  | notify file events todo htodo =>
    apply h.setTask hi
    intro strict e howed hbrings
    rcases hbrings with hlistens | ⟨-, hpushes⟩
    · exact .inl
        (.inr ((htodo e).mpr ⟨hlist.lt_of_alive (hlist.alive_of_enabled howed.enabled), hlistens⟩))
    · exact hpushes.elim
  | guard | panic | deleted => exact h.setIdle hi fun _ _ => not_brings id id
  | finish popper limit dropped ready hready hdead =>
    intro strict e howed
    have hsame := sameFor_lists s ready (s.tasks.set i (.returned { popper with limit := limit })) e
    have howed' := hsame.owed strict howed
    refine (h strict e howed').set hi rfl hsame (fun hmem => .inl ?_) fun hbrings =>
      absurd hbrings (not_brings id id)
    rw [hready] at hmem
    exact (mem_append.mp hmem).resolve_left fun hdropped =>
      hdead e hdropped (hlist.alive_of_enabled howed'.enabled)
  | pop popper dropped ready e' limit hmax hready hdead hlive hlimit =>
    intro strict e howed
    have hsame : ∀ tasks, s.SameFor { { s with ready := ready }.setEntry e'
        { s.entry e' with isReady := false } with tasks := tasks } e :=
      fun tasks => sameFor_setReady false rfl rfl
    have howed' := (hsame _).owed strict howed
    refine (h strict e howed').set hi rfl (hsame _) (fun hmem => ?_) fun hbrings =>
      absurd hbrings (not_brings id id)
    rw [hready] at hmem
    rcases mem_append.mp hmem with hdropped | hmem
    · exact absurd (hlist.alive_of_enabled howed'.enabled) (hdead e hdropped)
    · rcases mem_cons.mp hmem with rfl | hmem
      · exact .inr (.inl rfl)
      · exact .inl hmem
  | dead popper e' hfile =>
    exact h.setPopped hi fun _ howed => by cases hfile.symm.trans howed.isAlive
  | disabled popper e' hdisabled =>
    exact h.setPopped hi fun _ howed => by cases hdisabled.symm.trans howed.enabled
  | poll popper e' reported event henabled hreported =>
    intro strict e howed
    by_cases heq : e = e'
    · subst heq
      have hself : Function.update s.entry e ((s.entry e).polled reported) e =
          (s.entry e).polled reported :=
        update_self _ _ _
      -- The entry has just been polled, so it has to be looked at only when it is level-triggered.
      have hlevel : ¬ strict := by
        intro hstrict
        have harrived := howed.arrived hstrict
        change (Function.update s.entry e _ e).arrived = true at harrived
        rw [hself] at harrived
        cases harrived
      obtain ⟨hisLevel, hinteresting⟩ := howed.level hlevel
      change (Function.update s.entry e _ e).isLevel = true at hisLevel
      change (s.file (Function.update s.entry e _ e).file).poll
        (Function.update s.entry e _ e).event.events ≠ 0 at hinteresting
      rw [hself] at hisLevel hinteresting
      have hreported' : reported = true := by
        rw [hreported]
        simpa [Entry.polled] using hinteresting
      have hstill : (reported && (s.entry e).isLevel) = true := by
        rw [hreported', Bool.true_and]
        exact hisLevel
      refine .inr ⟨_, mem_set (List.getElem?_eq_some_iff.mp hi).1 _, .inr ⟨hlevel, ?_⟩⟩
      rw [if_pos hstill]
      rfl
    · have hsame :
          ∀ tasks, s.SameFor { s.setEntry e' ((s.entry e').polled reported) with tasks := tasks }
          e :=
        fun tasks => sameFor_of_entry (update_of_ne heq _ _) rfl
      refine (h strict e ((hsame _).owed strict howed)).set hi rfl (hsame _) .inl ?_
      rintro (hself | ⟨-, hpushes⟩)
      · exact absurd hself.symm heq
      · exact hpushes.elim
  | delete popper e' s' hdel =>
    obtain ⟨e₁, -, rfl⟩ := delInterest_eq_ok hdel
    exact (h.deleted _ e₁).setIdle hi fun _ _ => not_brings id id
  | stay => exact h.setTask hi fun _ _ _ hbrings => hbrings

/-! ### Calls and events -/

/-- An entry is updated: it is polled, and pushed when its file has events. -/
lemma AllCovered.pushIfReady {event : EpollEvent} {flags : EpollFlags} {entry : Entry}
    (hself : s'.entry e' = entry.updated event flags)
    (hother : ∀ strict e, e ≠ e' → s'.Owed strict e → s'.Covered strict e) :
    (s'.pushIfReady e' ((s'.file entry.file).poll event.events)).AllCovered := by
  intro strict e howed
  unfold EpollFile.pushIfReady at howed ⊢
  by_cases heq : e = e'
  · subst heq
    have howed' : s'.Owed strict e := by
      split at howed
      · exact (sameFor_lists s' s'.ready _ e).owed strict howed
      · exact howed
    have hlevel : ¬ strict := by
      intro hstrict
      have harrived := howed'.arrived hstrict
      rw [hself] at harrived
      cases harrived
    have hinteresting := (howed'.level hlevel).2
    rw [Interesting, hself] at hinteresting
    rw [if_pos (by simpa [Entry.updated] using hinteresting)]
    exact .inr ⟨_, mem_append_right _ (mem_singleton_self _), .inr ⟨hlevel, rfl⟩⟩
  · split at howed
    · next hevents =>
      have hsame := sameFor_lists s' s'.ready (s'.tasks ++ [.control (.check e')]) e
      rw [if_pos hevents]
      exact (hother strict e heq (hsame.owed strict howed)).mono hsame (List.Subset.refl _)
        (subset_append_left _ _)
    · next hevents =>
      rw [if_neg hevents]
      exact hother strict e heq howed

lemma AllCovered.spawn (h : s.AllCovered) (task : Task) : (s.spawn task).AllCovered := by
  intro strict e howed
  have hsame := sameFor_lists s s.ready (s.tasks ++ [task]) e
  exact (h strict e (hsame.owed strict howed)).mono hsame (List.Subset.refl _)
    (subset_append_left _ _)

variable {file : File}

/-- What a changed file says of the one before it. -/
lemma of_setFile {f' f : ℕ} {P : File → Prop} (hP : f' = f → P file → P (s.file f))
    (h : P ((s.setFile f file).file f')) : P (s.file f') := by
  change P (Function.update s.file f file f') at h
  by_cases heq : f' = f
  · subst heq
    rw [update_self] at h
    exact hP rfl h
  · rwa [update_of_ne heq] at h

/-- Events are consumed, or nobody holds the file any more. -/
lemma AllCovered.setFile (h : s.AllCovered) {f : ℕ}
    (halive : file.isAlive = true → (s.file f).isAlive = true)
    (hevents : ∀ mask, file.poll mask ≠ 0 → (s.file f).poll mask ≠ 0) :
    (s.setFile f file).AllCovered := by
  intro strict e howed
  have howed' : s.Owed strict e := by
    refine ⟨howed.enabled, of_setFile (P := fun f => f.isAlive = true) (fun _ => halive)
      howed.isAlive, howed.arrived, fun hstrict => ?_⟩
    exact (howed.level hstrict).imp_right
      (of_setFile (P := fun f => f.poll _ ≠ 0) fun _ => hevents _)
  rcases h strict e howed' with hmem | ⟨task, htask, hbrings⟩
  · exact .inl hmem
  · exact .inr ⟨task, htask, brings_congr ⟨rfl, rfl⟩ hbrings⟩

/-- What a file has after some events have arrived. -/
lemma poll_or {events mask : IoEvents}
    (h : ({ file with events := file.events ||| events } : File).poll mask ≠ 0) :
    file.poll mask ≠ 0 ∨ intersects (mask ||| IoEvents.alwaysPoll) events = true := by
  by_contra hnot
  push Not at hnot
  obtain ⟨hold, hnew⟩ := hnot
  have hold : (mask ||| IoEvents.alwaysPoll) &&& file.events = 0 := by
    rw [BitVec.and_comm]
    exact hold
  have hnew : (mask ||| IoEvents.alwaysPoll) &&& events = 0 := by simpa [intersects] using hnew
  apply h
  change (file.events ||| events) &&& (mask ||| IoEvents.alwaysPoll) = 0
  rw [BitVec.and_comm, BitVec.and_or_distrib_left, hold, hnew]
  rfl

lemma poll_and {events mask : IoEvents}
    (h : ({ file with events := file.events &&& events } : File).poll mask ≠ 0) :
    file.poll mask ≠ 0 := by
  intro hzero
  apply h
  change file.events &&& (mask ||| IoEvents.alwaysPoll) = 0 at hzero
  change (file.events &&& events) &&& (mask ||| IoEvents.alwaysPoll) = 0
  rw [BitVec.and_assoc, BitVec.and_comm events, ← BitVec.and_assoc, hzero]
  exact BitVec.zero_and

/-- Events arrive: the task that notifies the observers is on its way to every entry that
listens. -/
lemma AllCovered.arrive (h : s.AllCovered) (hentries : ∀ e, (s.entry e).Ok) (file : ℕ)
    (events : IoEvents) : ((s.arrive file events).spawn (.notify file events)).AllCovered := by
  intro strict e howed
  by_cases hlistens : (s.entry e).listens file events = true
  · exact .inr ⟨_, mem_append_right _ (mem_singleton_self _), .inl hlistens⟩
  -- Nothing is new for an entry that does not listen.
  have hnone : (s.entry e).file = file → (s.entry e).isEnabled = true →
      intersects ((s.entry e).event.events ||| IoEvents.alwaysPoll) events = false := by
    intro hfile henabled
    simpa [Entry.listens, hfile, (hentries e).filter henabled] using hlistens
  have howed' : s.Owed strict e := by
    refine ⟨howed.enabled, of_setFile (P := fun f => f.isAlive = true) (by exact fun _ => id)
      howed.isAlive, fun hstrict => ?_, fun hstrict => ?_⟩
    · have harrived := howed.arrived hstrict
      change ((s.entry e).arrived || (s.entry e).isEnabled && (s.entry e).listens file events) =
        true at harrived
      simpa [hlistens] using harrived
    · refine (howed.level hstrict).imp_right
        (of_setFile (P := fun f => f.poll _ ≠ 0) fun hfile hpoll => ?_)
      refine (poll_or hpoll).resolve_right fun hnew => ?_
      rw [hnone hfile howed.enabled] at hnew
      cases hnew
  rcases h strict e howed' with hmem | ⟨task, htask, hbrings⟩
  · exact .inl hmem
  · exact .inr ⟨task, mem_append_left _ htask, brings_congr ⟨rfl, rfl⟩ hbrings⟩

/-- An entry is updated, and the others are what they were. -/
lemma AllCovered.updated (h : s.AllCovered) {entry : Entry} {event : EpollEvent}
    {flags : EpollFlags}
    (hentry : s'.entry = Function.update s.entry e' (entry.updated event flags))
    (hfile : s'.file = s.file) (hready : s'.ready = s.ready) (htasks : s'.tasks = s.tasks) :
    (s'.pushIfReady e' ((s'.file entry.file).poll event.events)).AllCovered := by
  have hself : s'.entry e' = entry.updated event flags := by rw [hentry, update_self]
  apply AllCovered.pushIfReady hself
  intro strict e hne howed
  have hsame : s.SameFor s' e := sameFor_of_entry (by rw [hentry, update_of_ne hne]) hfile
  exact (h strict e (hsame.owed strict howed)).mono hsame (hready ▸ List.Subset.refl _)
    (htasks ▸ List.Subset.refl _)

/-- Every step leaves every entry covered. -/
lemma AllCovered.stepCases (h : s.AllCovered) (hlist : s.ListOk) (hentries : ∀ e, (s.entry e).Ok)
    (hcases : s.StepCases s') : s'.AllCovered := by
  cases hcases with
  | add fd file event flags hnone =>
    exact @AllCovered.updated s (s.added fd file event flags) _ h _ _ _ rfl rfl rfl rfl
  | mod fd file event flags e' hsome =>
    exact @AllCovered.updated s (s.setEntry e' ((s.entry e').updated event flags)) _ h _ _ _ rfl
      rfl rfl rfl
  | del fd file e' hsome => exact h.deleted _ e'
  | arrive file events => exact h.arrive hentries file events
  | consume file events => exact h.setFile id fun _ => poll_and
  | drop file => exact h.setFile (fun halive => (by cases halive)) fun _ => id
  | wait maxEvents => exact h.spawn _
  | task i task task' s' hi hcases => exact h.taskCases hlist hi hcases
  | deliver i e' todo hi he =>
    apply h.setTask hi
    rintro strict e - ((⟨push, hpush, -⟩ | htodo) | ⟨-, hpushes⟩)
    · cases hpush
    · by_cases heq : e = e'
      · exact .inl (.inl ⟨_, rfl, heq.symm⟩)
      · exact .inl (.inr ((mem_erase_of_ne heq).mpr htodo))
    · exact hpushes.elim
  | stay => exact h

/-! ### Runs -/

/-- All that holds of an epoll file. -/
structure Ok (s : EpollFile) : Prop where
  list : s.ListOk
  pop : PopOk s.ready s.tasks
  entries : ∀ e, (s.entry e).Ok
  covered : s.AllCovered

lemma ok_new : new.Ok := by
  refine ⟨⟨?_, ?_, ?_, ?_, ?_, ?_, nodup_nil, ?_⟩, ⟨?_, ?_⟩, fun e => ⟨?_, ?_⟩,
    fun strict e howed => ?_⟩
  · exact fun e he => absurd he not_mem_nil
  · exact fun key e hget => by cases hget
  · exact fun task htask => absurd htask not_mem_nil
  · exact fun key e hget => by cases hget
  · exact fun e he => by cases he
  · exact fun e he => absurd he not_mem_nil
  · exact fun e _ hflag => by cases hflag
  · exact fun i j task task' hi => by cases hi
  · exact fun task htask => absurd htask not_mem_nil
  · exact fun he => by cases he
  · exact fun _ => ⟨fun he => (by cases he), zero_le⟩
  · have henabled := howed.enabled
    cases henabled

lemma Reached.ok (h : Reached s) : s.Ok := by
  induction h with
  | new => exact ok_new
  | @step s event _ ih =>
    have hcases := s.step_cases event
    exact ⟨ih.list.stepCases hcases, ih.pop.stepCases ih.list hcases,
      entriesOk_stepCases ih.entries hcases, ih.covered.stepCases ih.list ih.entries hcases⟩

/-- In every epoll file that is reached: the flag of a live entry is set exactly when the ready list
holds the entry, and the list holds it once.  An enabled level-triggered entry whose file has events
for it is in the list, or a task has popped it, has polled it and will push it, or will push it
because of an event.  When an event has arrived at an enabled entry since its last poll, the entry
is in the list, or a task has popped it and not polled it yet, or will push it because of the event;
and such a push leaves it in the list.  A one-shot entry is reported once between two updates.  One
task pops at a time; one call reports an entry once and no more than it was asked for, and it never
finds the list empty. -/
theorem readiness_not_lost (h : Reached s) :
    (∀ e, s.Alive e → ((s.entry e).isReady = true ↔ e ∈ s.ready)) ∧ s.ready.Nodup ∧
    (∀ e, (s.entry e).isEnabled = true → (s.file (s.entry e).file).isAlive = true →
      (s.entry e).isLevel = true → s.Interesting e →
        e ∈ s.ready ∨ ∃ task ∈ s.tasks, task.Delivers s e ∨ task.Pushes e) ∧
    (∀ e, (s.entry e).isEnabled = true → (s.file (s.entry e).file).isAlive = true →
      (s.entry e).arrived = true → e ∈ s.ready ∨ ∃ task ∈ s.tasks, task.Delivers s e) ∧
    (∀ (i e : ℕ) todo, s.tasks[i]? = some (.notifying (some (.lock e)) todo) →
      (s.entry e).isEnabled = true → e ∈ (s.step (.step i)).ready) ∧
    (∀ e, (s.entry e).isOneShot = true → (s.entry e).reports ≤ 1) ∧
    (∀ (i j : ℕ) (task task' : Task), s.tasks[i]? = some task → s.tasks[j]? = some task' →
      task.isPopping = true → task'.isPopping = true → i = j) ∧
    (∀ task ∈ s.tasks, ∀ popper, task.popper = some popper → popper.reported.Nodup ∧
      popper.epEvents.length = popper.reported.length ∧ popper.epEvents.length ≤ popper.maxEvents) ∧
    .panicked ∉ s.tasks := by
  have hok := h.ok
  refine ⟨fun e he => ⟨hok.list.mem_ready e he, hok.list.isReady e⟩, hok.list.nodup,
    fun e henabled halive hlevel hinteresting => ?_, fun e henabled halive harrived => ?_,
    fun i e todo hi henabled => ?_, fun e hshot => ((hok.entries e).oneShot hshot).2,
      hok.pop.unique,
    fun task htask popper hpopper => ?_, hok.pop.task _⟩
  · have howed : s.Owed False e := ⟨henabled, halive, False.elim, fun _ => ⟨hlevel, hinteresting⟩⟩
    rcases hok.covered False e howed with hmem | ⟨task, htask, hdelivers | ⟨-, hpushes⟩⟩
    · exact .inl hmem
    · exact .inr ⟨task, htask, .inl hdelivers⟩
    · exact .inr ⟨task, htask, .inr hpushes⟩
  · have howed :
      s.Owed True e := ⟨henabled, halive, fun _ => harrived, fun hnot => absurd trivial hnot⟩
    rcases hok.covered True e howed with hmem | ⟨task, htask, hdelivers | ⟨hnot, -⟩⟩
    · exact .inl hmem
    · exact .inr ⟨task, htask, hdelivers⟩
    · exact absurd trivial hnot
  · unfold EpollFile.step
    dsimp only
    rw [hi]
    exact hok.list.mem_pushLocked (hok.list.alive_of_enabled henabled)
  · have htask := hok.pop.task task htask
    cases task with
    | popping p stage =>
      cases hpopper
      exact ⟨htask.1.reported_nodup, htask.1.length_eq, htask.1.length_le⟩
    | returned p =>
      cases hpopper
      exact htask
    | _ => cases hpopper

/-- The epoll file after some events. -/
def after (events : List Event) : EpollFile := events.foldl step new

lemma reached_after (events : List Event) : Reached (after events) := by
  induction events using reverseRecOn with
  | nil => exact .new
  | append_singleton events event ih =>
    rw [after, foldl_append]
    exact ih.step event

/-- A file that has an event already is added. -/
def addedReady : EpollFile := after [.arrive 0 .in, .add 5 0 ⟨.in, 0⟩ 0]

/-- The entry is not in the list yet, and nobody pops. -/
theorem added_ready_before_push :
    Reached addedReady ∧ (addedReady.entry 0).isEnabled = true ∧
      (addedReady.file (addedReady.entry 0).file).isAlive = true ∧ (addedReady.entry 0).isLevel =
        true ∧
      addedReady.Interesting 0 ∧ 0 ∉ addedReady.ready ∧
      ∀ task ∈ addedReady.tasks, task.isPopping = false := by
  refine ⟨reached_after _, by decide, by decide, by decide, ?_, by decide, by decide⟩
  unfold Interesting
  decide

/-- An event arrives at an entry, and the task that notifies it pushes it. -/
def notified : EpollFile :=
  after [.add 5 0 ⟨.in, 0⟩ 0, .arrive 0 .in, .step 0, .deliver 0 0, .step 0, .step 0]

theorem readiness_not_lost_of_notified : (notified.entry 0).isReady = true ∧
    0 ∈ notified.ready := by
  have hready : (notified.entry 0).isReady = true := by decide
  have halive : notified.Alive 0 := isAlive_iff.mp (by decide)
  exact ⟨hready, ((readiness_not_lost (reached_after _)).1 0 halive).mp hready⟩

end EpollFile

end Asterinas.Epoll
