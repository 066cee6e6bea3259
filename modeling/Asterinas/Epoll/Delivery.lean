import Asterinas.Epoll.EpollFile

/-!
# Events between epoll files

An epoll file can watch other epoll files.  `ReadySet::push` notifies the observers of its epoll
file while it has the lock of the ready list, and `notify_observers` calls the observers of a file
while it has their lock, so that an event is delivered by calls inside each other.  What a push
changes, the flag of an entry and a ready list, decides nothing about the calls.  `epoll_ctl`
accepts every file, so that an epoll file can come to watch itself, and then the calls ask for a
lock that one of them has.
-/

namespace Asterinas.Epoll

open Framework Relation List

/-- `EpollCtl`, with the file that the descriptor refers to. -/
inductive EpollCtl
  | add (fd file : ℕ) (event : EpollEvent) (flags : EpollFlags)
  | del (fd file : ℕ)
  | mod (fd file : ℕ) (event : EpollEvent) (flags : EpollFlags)

/-- `EpollFile::control`: the three commands of `epoll_ctl`. -/
def EpollFile.control (s : EpollFile) : EpollCtl → Except Error EpollFile
  | .add fd file event flags => s.addInterest fd file event flags
  | .del fd file => s.delInterest fd file
  | .mod fd file event flags => s.modInterest fd file event flags

/-- Some files, of which those in the list are epoll files. -/
structure EpollSystem where
  epolls : List ℕ
  epoll : ℕ → EpollFile

/-- The spin locks of a delivery. -/
inductive Lock
  /-- `SyncSubject::observers` of the pollee of a file. -/
  | observers (file : ℕ)
  /-- `ReadySet::entries` of an epoll file. -/
  | entries (epoll : ℕ)
  deriving DecidableEq

/-- Why a delivery does not end. -/
inductive Stop
  | outOfFuel
  /-- A call asks for a lock that an outer call holds. -/
  | held (lock : Lock)
  deriving DecidableEq

namespace EpollSystem

variable (s : EpollSystem)

/-- `sys_epoll_ctl`. -/
def epollCtl (epfd : ℕ) (cmd : EpollCtl) : Except Error EpollSystem :=
  if epfd ∈ s.epolls then
    ((s.epoll epfd).control cmd).map fun epoll =>
    { s with epoll := Function.update s.epoll epfd epoll }
  else
    .error (.withMessage .einval "not epoll file")

/-- The observers that are registered with a file, in the order of their numbers. -/
def observers (file : ℕ) : List (ℕ × ℕ) :=
  s.epolls.flatMap fun i => ((List.range (s.epoll i).next).filter fun e =>
    ((s.epoll i).entry e).file = file ∧ ((s.epoll i).entry e).filter.isSome).map (i, ·)

/-- `ReadySet::push`, with what `Pollee::notify` does.  The entries that are pushed are listed. -/
def push (notify : List Lock → ℕ → IoEvents → Except Stop (List (ℕ × ℕ))) (held : List Lock)
    (i e : ℕ) : Except Stop (List (ℕ × ℕ)) :=
  if !((s.epoll i).entry e).isEnabled then
    .ok []
  else if .entries i ∈ held then
    .error (.held (.entries i))
  else
    ((i, e) :: ·) <$> notify (.entries i :: held) i .in

/-- `Pollee::notify` and `SyncSubject::notify_observers`. -/
def notify : ℕ → List Lock → ℕ → IoEvents → Except Stop (List (ℕ × ℕ))
  | 0, _, _, _ => .error .outOfFuel
  | fuel + 1, held, file, events =>
    if (s.observers file).isEmpty then
      .ok []
    else if .observers file ∈ held then
      .error (.held (.observers file))
    else
      List.flatten <$>
        ((s.observers file).filter fun o => ((s.epoll o.1).entry o.2).listens file events).mapM
        fun o => s.push (notify fuel) (.observers file :: held) o.1 o.2

/-- The events of a file make an epoll file push an enabled entry. -/
def Passes (file : ℕ) (events : IoEvents) (i : ℕ) : Prop :=
  ∃ e, (i, e) ∈ s.observers file ∧ ((s.epoll i).entry e).listens file events = true ∧
    ((s.epoll i).entry e).isEnabled = true

/-- An epoll file is watched by another one, or by itself. -/
def Watched (i j : ℕ) : Prop := s.Passes i .in j

/-- No epoll file, of those that pass on what an epoll file has, watches itself through others. -/
def NoCycleFrom (i : ℕ) : Prop := ∀ j, ReflTransGen s.Watched i j → ¬ TransGen s.Watched j j

variable {s} {held : List Lock} {file i j e fuel : ℕ} {events : IoEvents}

lemma mem_epolls_of_mem_observers (h : (i, e) ∈ s.observers file) : i ∈ s.epolls := by
  simp only [observers, mem_flatMap, mem_map, Prod.mk.injEq] at h
  obtain ⟨i', hi', -, -, rfl, -⟩ := h
  exact hi'

lemma Passes.mem_epolls (h : s.Passes file events i) : i ∈ s.epolls :=
  mem_epolls_of_mem_observers h.choose_spec.1

/-- Calls in a row all return when each of them does. -/
lemma exists_mapM_eq_ok {α β : Type} {f : α → Except Stop β} {xs : List α} :
    (∃ ys, xs.mapM f = .ok ys) ↔ ∀ x ∈ xs, ∃ y, f x = .ok y := by
  induction xs with
  | nil => simp [pure, Except.pure]
  | cons x xs ih =>
    rw [forall_mem_cons, ← ih, mapM_cons]
    cases f x with
    | error stop => simp [bind, Except.bind]
    | ok y =>
      cases xs.mapM f with
      | error stop => simp [bind, Except.bind]
      | ok ys => simp [bind, Except.bind, pure, Except.pure]

lemma exists_map_eq_ok {α β : Type} {f : α → β} {r : Except Stop α} :
    (∃ y, f <$> r = .ok y) ↔ ∃ x, r = .ok x := by
  cases r <;> simp [Functor.map, Except.map]

lemma push_of_enabled (henabled : ((s.epoll i).entry e).isEnabled = true)
    (hheld : .entries i ∉ held) (notify : List Lock → ℕ → IoEvents → Except Stop (List (ℕ × ℕ))) :
    s.push notify held i e = ((i, e) :: ·) <$> notify (.entries i :: held) i .in := by
  rw [push, if_neg (by simp [henabled]), if_neg hheld]

/-! ### A delivery that ends -/

lemma NoCycleFrom.of_acc (h : Acc (fun j i => s.Watched i j) i) : s.NoCycleFrom i := by
  induction h with
  | intro i _ ih =>
    intro j hij hcycle
    rcases hij.cases_head with rfl | ⟨k, hik, hkj⟩
    · obtain ⟨k, hik, hki⟩ := TransGen.head'_iff.mp hcycle
      exact ih k hik i hki hcycle
    · exact ih k hik j hkj hcycle

/-- A call of `push` on an enabled entry that returns has called `notify`. -/
lemma exists_notify_of_push {notify : List Lock → ℕ → IoEvents → Except Stop (List (ℕ × ℕ))}
    (henabled : ((s.epoll i).entry e).isEnabled = true) (h : ∃ pushed, s.push notify held i e =
    .ok pushed) :
    ∃ pushed, notify (.entries i :: held) i .in = .ok pushed := by
  by_cases hheld : .entries i ∈ held
  · obtain ⟨pushed, h⟩ := h
    rw [push, if_neg (by simp [henabled]), if_pos hheld] at h
    cases h
  · rw [push_of_enabled henabled hheld] at h
    exact exists_map_eq_ok.mp h

/-- Every chain of watches from the file ends, since the calls along it have returned. -/
lemma acc_of_notify (h : ∃ pushed, s.notify fuel held file events = .ok pushed)
    (hi : s.Passes file events i) : Acc (fun j i => s.Watched i j) i := by
  induction fuel generalizing held file events i with
  | zero =>
    obtain ⟨pushed, h⟩ := h
    cases h
  | succ fuel ih =>
    obtain ⟨e, hmem, hlistens, henabled⟩ := hi
    rw [notify, if_neg (by simp [ne_nil_of_mem hmem])] at h
    split at h
    · obtain ⟨pushed, h⟩ := h
      cases h
    · have hpush := exists_mapM_eq_ok.mp (exists_map_eq_ok.mp h) (i, e)
        (mem_filter.mpr ⟨hmem, hlistens⟩)
      exact .intro i fun j hij => ih (exists_notify_of_push henabled hpush) hij

/-! ### A delivery without cycles -/

/-- The epoll files whose ready list is not locked. -/
def unlocked (s : EpollSystem) (held : List Lock) : Finset ℕ :=
  s.epolls.toFinset.filter (.entries · ∉ held)

lemma card_unlocked_cons (hi : i ∈ s.epolls) (hheld : .entries i ∉ held) :
    (s.unlocked (.entries i :: .observers file :: held)).card < (s.unlocked held).card := by
  apply Finset.card_lt_card
  rw [Finset.ssubset_iff_of_subset]
  · exact ⟨i, by simp [unlocked, hi, hheld], by simp [unlocked]⟩
  · intro j hj
    simp only [unlocked, Finset.mem_filter, mem_cons, not_or] at hj ⊢
    exact ⟨hj.1, hj.2.2.2⟩

/-- The locks that a call may ask for are free, of the file and of all that it passes events to. -/
structure Free (s : EpollSystem) (held : List Lock) (file : ℕ) (events : IoEvents) : Prop where
  raised : file ∉ s.epolls ∨ events = .in
  noCycle : ∀ i, s.Passes file events i → s.NoCycleFrom i
  own : .observers file ∉ held
  below : ∀ i, s.Passes file events i → ∀ j, ReflTransGen s.Watched i j →
    .entries j ∉ held ∧ .observers j ∉ held

section

variable (h : s.Free held file events)

include h

/-- The events do not come back to the file. -/
lemma Free.ne_file (hi : s.Passes file events i)
    (hij : ReflTransGen s.Watched i j) : j ≠ file := by
  rintro rfl
  rcases h.raised with hplain | rfl
  · rcases hij.cases_tail with rfl | ⟨k, -, hkj⟩
    · exact hplain hi.mem_epolls
    · exact hplain hkj.mem_epolls
  · exact h.noCycle i hi j hij (TransGen.head'_iff.mpr ⟨i, hi, hij⟩)

lemma Free.next (hi : s.Passes file events i) :
    s.Free (.entries i :: .observers file :: held) i .in := by
  refine ⟨.inr rfl, fun k hk j hkj => h.noCycle i hi j (.head hk hkj), ?_, fun k hk j hkj => ?_⟩
  · simp only [mem_cons, reduceCtorEq, Lock.observers.injEq, false_or, not_or]
    exact ⟨h.ne_file hi .refl, (h.below i hi i .refl).2⟩
  · have hij : ReflTransGen s.Watched i j := .head hk hkj
    have hne : j ≠ i := by
      rintro rfl
      exact h.noCycle j hi j .refl (TransGen.head'_iff.mpr ⟨k, hk, hkj⟩)
    simp only [mem_cons, Lock.entries.injEq, Lock.observers.injEq, reduceCtorEq, false_or, not_or]
    exact ⟨⟨hne, (h.below i hi j hij).1⟩, h.ne_file hi hij, (h.below i hi j hij).2⟩

/-- Each push locks another ready list, so that the calls return after as many pushes as there are
epoll files. -/
lemma exists_notify (hfuel : (s.unlocked held).card < fuel) :
    ∃ pushed, s.notify fuel held file events = .ok pushed := by
  induction fuel generalizing held file events with
  | zero => exact absurd hfuel not_lt_zero
  | succ fuel ih =>
    rw [notify]
    split
    · exact ⟨[], rfl⟩
    · rw [if_neg h.own]
      apply exists_map_eq_ok.mpr
      apply exists_mapM_eq_ok.mpr
      rintro ⟨i, e⟩ hmem
      obtain ⟨hmem, hlistens⟩ := mem_filter.mp hmem
      by_cases henabled : ((s.epoll i).entry e).isEnabled = true
      · have hi : s.Passes file events i := ⟨e, hmem, hlistens, henabled⟩
        have hheld := (h.below i hi i .refl).1
        rw [push_of_enabled henabled (by simp [hheld])]
        apply exists_map_eq_ok.mpr
        apply ih (h.next hi)
        exact lt_of_lt_of_le (card_unlocked_cons hi.mem_epolls hheld) (Nat.le_of_lt_succ hfuel)
      · exact ⟨[], by simp [push, henabled]⟩

end

/-- Events of a file, which are `IN` when it is an epoll file, are delivered by finitely many calls
none of which asks for a lock that an outer call holds, exactly when no epoll file that they reach
watches itself, directly or through others; and so is an entry that is pushed by `epoll_ctl` or by
`epoll_wait`. -/
theorem delivery_ends_iff (s : EpollSystem) :
    (∀ file events, file ∉ s.epolls ∨ events = .in →
      ((∃ fuel pushed, s.notify fuel [] file events = .ok pushed) ↔
        ∀ i, s.Passes file events i → s.NoCycleFrom i)) ∧
    ∀ i e, ((s.epoll i).entry e).isEnabled = true →
      ((∃ fuel pushed, s.push (s.notify fuel) [] i e = .ok pushed) ↔
        ∀ j, s.Watched i j → s.NoCycleFrom j) := by
  refine ⟨fun file events hraised => ⟨?_, fun h => ?_⟩, fun i e henabled => ⟨?_, fun h => ?_⟩⟩
  · rintro ⟨fuel, h⟩ i hi
    exact .of_acc (acc_of_notify h hi)
  · exact ⟨_, exists_notify ⟨hraised, h, not_mem_nil, fun _ _ _ _ =>
      ⟨not_mem_nil, not_mem_nil⟩⟩ (lt_add_one _)⟩
  · rintro ⟨fuel, h⟩ j hj
    exact .of_acc (acc_of_notify (exists_notify_of_push henabled h) hj)
  · refine ⟨(s.unlocked [.entries i]).card + 1, ?_⟩
    rw [push_of_enabled henabled not_mem_nil]
    apply exists_map_eq_ok.mpr
    refine exists_notify ⟨.inr rfl, h, by simp, fun j hj k hjk => ⟨?_, by simp⟩⟩ (lt_add_one _)
    rw [mem_singleton, Lock.entries.injEq]
    rintro rfl
    exact h j hj k hjk (TransGen.head'_iff.mpr ⟨j, hj, hjk⟩)

/-- New epoll files after some calls; one that is refused changes nothing. -/
def after (epolls : List ℕ) (calls : List (ℕ × EpollCtl)) : EpollSystem :=
  calls.foldl (fun s call => (s.epollCtl call.1 call.2).toOption.getD s) ⟨epolls, fun _ => .new⟩

/-- An epoll file watches a file, and another epoll file watches the first one. -/
def chained : EpollSystem := after [0, 1] [(0, .add 5 2 ⟨.in, 0⟩ 0), (1, .add 6 0 ⟨.in, 0⟩ 0)]

theorem delivery_ends_of_chained : chained.notify 3 [] 2 .in = .ok
    [(0, 0), (1, 0)] ∧ chained.NoCycleFrom 0 := by
  have hends : chained.notify 3 [] 2 .in = .ok [(0, 0), (1, 0)] := by decide
  have hpasses : chained.Passes 2 .in 0 := ⟨0, by decide⟩
  exact ⟨hends, ((delivery_ends_iff chained).1 2 .in (.inl (by decide))).mp ⟨3, _, hends⟩ 0 hpasses⟩

/-- An epoll file is told to watch itself, and to watch another file. -/
def selfWatching : EpollSystem := after [0] [(0, .add 5 0 ⟨.in, 0⟩ 0), (0, .add 6 1 ⟨.in, 0⟩ 0)]

/-- Both calls are accepted, and then an event of the other file makes a push ask for the ready list
that an outer push has locked. -/
theorem self_watching_deadlocks :
    (selfWatching.epoll 0).interest.get? (toLex (5, 0)) = some 0 ∧
    (selfWatching.epoll 0).interest.get? (toLex (6, 1)) = some 1 ∧
    selfWatching.notify 5 [] 1 .in = .error (.held (.entries 0)) := by
  decide

end EpollSystem

end Asterinas.Epoll
