import Asterinas.Basic
import Asterinas.Framework.OrderedMap

/-!
# Epoll files

`events/epoll/entry.rs` and `events/epoll/file.rs`.  A file has the events that are not consumed and
the observers that are registered for some of them.  One step is one section that a lock protects:
the interest list or the event mask of an entry, the ready list, or the observers of a file; the
flag `is_enabled` is read without a lock.

The entries, which are never used again, have numbers, and two fields of an entry are a record of
what has happened: whether an event has arrived since the last poll, and how often the entry has
been reported since the last update.
-/

namespace Asterinas.Epoll

open Framework

/-! ### Events and entries -/

/-- `IoEvents`, a set of events as a word of flags. -/
abbrev IoEvents := BitVec 32

/-- `IoEvents::IN`: there is something to read. -/
def IoEvents.in : IoEvents := 0x0001

/-- `IoEvents::ALWAYS_POLL`: the events `ERR` and `HUP`, which need not be asked for. -/
def IoEvents.alwaysPoll : IoEvents := 0x0008 ||| 0x0010

/-- `EpollFlags`, the flags of an entry, in the bits that no event uses. -/
abbrev EpollFlags := BitVec 32

/-- `EpollFlags::ONE_SHOT`: the entry is disabled when it has been reported. -/
def EpollFlags.oneShot : EpollFlags := 1 <<< 30

/-- `EpollFlags::EDGE_TRIGGER`: the entry is reported for new events only. -/
def EpollFlags.edgeTrigger : EpollFlags := 1 <<< 31

/-- The flags have a bit in common. -/
def intersects (a b : BitVec 32) : Bool := a &&& b != 0

/-- `EpollEvent`: the events that are asked for or reported, with a word of the user. -/
structure EpollEvent where
  events : IoEvents
  userData : BitVec 64
  deriving DecidableEq

/-- `Entry` and its `Observer`. -/
structure Entry where
  fd : ℕ
  file : ℕ
  event : EpollEvent
  flags : EpollFlags
  isEnabled : Bool
  isReady : Bool
  /-- What the observer is registered for with the file. -/
  filter : Option IoEvents
  /-- An event of the filter has arrived at the enabled entry since its last poll. -/
  arrived : Bool
  /-- How many events were reported since the last update. -/
  reports : ℕ
  deriving DecidableEq

namespace Entry

/-- `EntryKey`. -/
def key (entry : Entry) : ℕ ×ₗ ℕ := toLex (entry.fd, entry.file)

/-- `Entry::new`: an entry that is not enabled and observes nothing. -/
def new (fd file : ℕ) : Entry := ⟨fd, file, ⟨0, 0⟩, 0, false, false, none, false, 0⟩

/-- The observer is registered for one of the events of a file. -/
def listens (entry : Entry) (file : ℕ) (events : IoEvents) : Bool :=
  entry.file = file ∧ entry.filter.any (intersects · events)

end Entry

/-- A file: the events that are not consumed, and whether somebody holds the file. -/
structure File where
  events : IoEvents
  isAlive : Bool
  deriving DecidableEq

/-- `Pollable::poll`: the events of the file among those of the mask and the ones that are always
polled. -/
def File.poll (file : File) (mask : IoEvents) : IoEvents := file.events &&& (mask ||| .alwaysPoll)

/-! ### Calls -/

/-- `ReadySet::push`: the flag of the entry is read, then the list is locked. -/
inductive Push
  | check (e : ℕ)
  | lock (e : ℕ)
  deriving DecidableEq

/-- The entry that is pushed. -/
def Push.entry : Push → ℕ
  | check e | lock e => e

/-- The local state of `pop_multi_ready`, with the entries that it has popped and those that it has
reported. -/
structure Popper where
  maxEvents : ℕ
  limit : Option ℕ
  epEvents : List EpollEvent
  popped : List ℕ
  reported : List ℕ
  deriving DecidableEq

/-- Where the loop of `pop_multi_ready` stands. -/
inductive PopStage
  | loop
  /-- An entry has been popped, and is not polled yet. -/
  | popped (e : ℕ)
  /-- The file of an entry is dead. -/
  | dead (e : ℕ)
  | pushing (push : Push)
  deriving DecidableEq

/-- A task inside the epoll file. -/
inductive Task
  /-- `add_interest` or `mod_interest` with an entry that is ready. -/
  | control (push : Push)
  /-- `Pollee::notify` before it has locked the observers of the file. -/
  | notify (file : ℕ) (events : IoEvents)
  /-- `notify_observers`: the observer that it calls now, and those that are left. -/
  | notifying (now : Option Push) (todo : List ℕ)
  /-- `pop_multi_ready` before it has the guard. -/
  | waiting (maxEvents : ℕ)
  | popping (popper : Popper) (stage : PopStage)
  | returned (popper : Popper)
  | finished
  | panicked
  deriving DecidableEq

/-- The task has a strong reference to the entry. -/
def Task.holds (e : ℕ) : Task → Bool
  | control push => push.entry = e
  | popping _ (.popped e') => e' = e
  | popping _ (.dead e') => e' = e
  | popping _ (.pushing push) => push.entry = e
  | _ => false

/-- The task has the pop guard. -/
def Task.isPopping : Task → Bool
  | popping _ _ => true
  | _ => false

/-- An epoll file, the files it knows and the tasks inside it. -/
structure EpollFile where
  entry : ℕ → Entry
  /-- The number of the next entry. -/
  next : ℕ
  interest : OrderedMap (ℕ ×ₗ ℕ) ℕ
  ready : List ℕ
  file : ℕ → File
  tasks : List Task

namespace EpollFile

/-- `EpollFile::new`: no entry, an empty ready list and no task. -/
def new : EpollFile := ⟨fun _ => .new 0 0, 0, .empty, [], fun _ => ⟨0, true⟩, []⟩

variable (s : EpollFile)

/-- `Weak::upgrade` of an entry, as a test. -/
def isAlive (e : ℕ) : Bool := s.interest.values.contains e || s.tasks.any (·.holds e)

/-- An entry changes. -/
def setEntry (e : ℕ) (entry : Entry) : EpollFile :=
  { s with entry := Function.update s.entry e entry }

/-- A file changes. -/
def setFile (f : ℕ) (file : File) : EpollFile := { s with file := Function.update s.file f file }

/-- The section of `ReadySet::push` that has the lock of the list. -/
def pushLocked (e : ℕ) : EpollFile :=
  if !(s.entry e).isReady then
    { s.setEntry e { s.entry e with isReady := true } with ready := s.ready ++ [e] }
  else
    s

/-- A step of `ReadySet::push`. -/
def push : Push → EpollFile × Option Push
  | .check e => if !(s.entry e).isEnabled then (s, none) else (s, some (.lock e))
  | .lock e => (s.pushLocked e, none)

/-- `Entry::update`: the entry gets a new mask and is enabled, and the file is polled. -/
def update (e : ℕ) (event : EpollEvent) (flags : EpollFlags) : EpollFile × IoEvents :=
  let entry := { s.entry e with
    event := event, flags := flags, isEnabled := true
    filter := some (event.events ||| .alwaysPoll)
    arrived := false, reports := 0 }
  (s.setEntry e entry, (s.file entry.file).poll event.events)

/-- `Entry::shutdown`: the entry is disabled and observes nothing any more. -/
def shutdown (e : ℕ) : EpollFile :=
  s.setEntry e { s.entry e with isEnabled := false, filter := none }

/-- A task starts. -/
def spawn (task : Task) : EpollFile := { s with tasks := s.tasks ++ [task] }

/-- What `add_interest` and `mod_interest` do after an update. -/
def pushIfReady (e : ℕ) (events : IoEvents) : EpollFile :=
  if events != 0 then s.spawn (.control (.check e)) else s

/-- `EpollFile::add_interest`: a new entry, which is pushed when its file has events already. -/
def addInterest (fd file : ℕ) (event : EpollEvent) (flags : EpollFlags) : Except Error EpollFile :=
  match s.interest.get? (toLex (fd, file)) with
  | some _ => .error (.withMessage .eexist "the file is already in the interest list")
  | none =>
    let e := s.next
    let s := { s.setEntry e (.new fd file) with next := e + 1 }
    let (s, events) := s.update e event flags
    let s := { s with interest := s.interest.insert (toLex (fd, file)) e }
    .ok (s.pushIfReady e events)

/-- `EpollFile::del_interest`: the entry leaves the interest list and is disabled. -/
def delInterest (fd file : ℕ) : Except Error EpollFile :=
  match s.interest.get? (toLex (fd, file)) with
  | some e =>
    -- The holder of the entry is dropped.
    .ok ({ s with interest := s.interest.erase (toLex (fd, file)) }.shutdown e)
  | none => .error (.withMessage .enoent "the file is not in the interest list")

/-- `EpollFile::mod_interest`: the entry of the file is updated, and pushed when there are
events. -/
def modInterest (fd file : ℕ) (event : EpollEvent) (flags : EpollFlags) : Except Error EpollFile :=
  match s.interest.get? (toLex (fd, file)) with
  | some e =>
    let (s, events) := s.update e event flags
    .ok (s.pushIfReady e events)
  | none => .error (.withMessage .enoent "the file is not in the interest list")

/-- `Entry::poll`: the event to report, and whether the entry is still ready after that. -/
def poll (e : ℕ) : EpollFile × Option (Option EpollEvent × Bool) :=
  let entry := s.entry e
  let file := s.file entry.file
  if !file.isAlive then
    (s, none)
  else if !entry.isEnabled then
    (s, some (none, false))
  else
    let ioEvents := file.poll entry.event.events
    let epEvent := if ioEvents != 0 then some ⟨ioEvents, entry.event.userData⟩ else none
    let isStillReady := epEvent.isSome && !intersects entry.flags
      (EpollFlags.edgeTrigger ||| EpollFlags.oneShot)
    let isEnabled := !(epEvent.isSome && intersects entry.flags EpollFlags.oneShot)
    (s.setEntry e { entry with
      isEnabled := isEnabled, arrived := false, reports := entry.reports + epEvent.toList.length },
      some (epEvent, isStillReady))

/-! ### The loop of `pop_multi_ready` -/

/-- The loop of `ReadySetPopIter::next`: the list that is left, the limit and the entry, or nothing
when an entry is popped from an empty list. -/
def popFront (isAlive : ℕ → Bool) : ℕ → List ℕ → Option (List ℕ × ℕ × Option ℕ)
  | 0, ready => some (ready, 0, none)
  | _ + 1, [] => none
  | limit + 1, e :: ready =>
    if isAlive e then some (ready, limit, some e) else popFront isAlive limit ready

/-- `ReadySetPopIter::next` and what the loop does with its result. -/
def popNext (popper : Popper) : EpollFile × Task :=
  if popper.limit = some 0 then
    (s, .returned popper)
  else
    match popFront s.isAlive (popper.limit.getD s.ready.length) s.ready with
    | none => (s, .panicked)
    | some (ready, _, none) => ({ s with ready := ready }, .returned { popper with limit := none })
    | some (ready, limit, some e) =>
      ({ s with ready := ready }.setEntry e { s.entry e with isReady := false },
        .popping { popper with limit := some limit, popped := popper.popped ++ [e] } (.popped e))

/-- What the loop does with the events of an entry. -/
def popPoll (popper : Popper) (e : ℕ) : EpollFile × Task :=
  match s.poll e with
  | (s, none) => (s, .popping popper (.dead e))
  | (s, some (epEvent, isStillReady)) =>
    let popper := match epEvent with
      | some event =>
        { popper with epEvents := popper.epEvents ++ [event], reported := popper.reported ++ [e] }
      | none => popper
    (s, .popping popper (if isStillReady then .pushing (.check e) else .loop))

/-- A step of `pop_multi_ready`. -/
def popStep (popper : Popper) : PopStage → EpollFile × Task
  | .loop =>
    if popper.maxEvents ≤ popper.epEvents.length then (s, .returned popper) else s.popNext popper
  | .popped e => s.popPoll popper e
  | .dead e =>
    -- The error is ignored.
    match s.delInterest (s.entry e).fd (s.entry e).file with
    | .ok s => (s, .popping popper .loop)
    | .error _ => (s, .popping popper .loop)
  | .pushing push =>
    match s.push push with
    | (s, some push) => (s, .popping popper (.pushing push))
    | (s, none) => (s, .popping popper .loop)

/-- The step of a task. -/
def taskStep : Task → EpollFile × Task
  | .control push =>
    match s.push push with
    | (s, some push) => (s, .control push)
    | (s, none) => (s, .finished)
  | .notify file events =>
    (s, .notifying none ((List.range s.next).filter fun e => (s.entry e).listens file events))
  | .notifying (some push) todo =>
    match s.push push with
    | (s, push) => (s, .notifying push todo)
  | .waiting maxEvents =>
    if s.tasks.any (·.isPopping) then (s, .waiting maxEvents)
    else (s, .popping ⟨maxEvents, none, [], [], []⟩ .loop)
  | .popping popper stage => s.popStep popper stage
  | task => (s, task)

/-! ### Runs -/

/-- What happens next. -/
inductive Event
  | add (fd file : ℕ) (event : EpollEvent) (flags : EpollFlags)
  | mod (fd file : ℕ) (event : EpollEvent) (flags : EpollFlags)
  | del (fd file : ℕ)
  /-- Events of a file arrive, and a task is about to notify its observers. -/
  | arrive (file : ℕ) (events : IoEvents)
  /-- Events of a file are consumed. -/
  | consume (file : ℕ) (events : IoEvents)
  /-- Nobody holds the file any more. -/
  | drop (file : ℕ)
  | wait (maxEvents : ℕ)
  /-- A task makes its next step. -/
  | step (i : ℕ)
  /-- A task that notifies observers calls one of them; their order is not known. -/
  | deliver (i e : ℕ)

/-- Events of a file arrive. -/
def arrive (file : ℕ) (events : IoEvents) : EpollFile :=
  { s.setFile file { s.file file with events := (s.file file).events ||| events } with
    entry := fun e => { s.entry e with
      arrived := (s.entry e).arrived || (s.entry e).isEnabled && (s.entry e).listens file events } }

/-- The epoll file after an event.  A call on a file that nobody holds is not possible. -/
def step : Event → EpollFile
  | .add fd file event flags =>
    if (s.file file).isAlive then (s.addInterest fd file event flags).toOption.getD s else s
  | .mod fd file event flags =>
    if (s.file file).isAlive then (s.modInterest fd file event flags).toOption.getD s else s
  | .del fd file => (s.delInterest fd file).toOption.getD s
  | .arrive file events => (s.arrive file events).spawn (.notify file events)
  | .consume file events =>
    s.setFile file { s.file file with events := (s.file file).events &&& ~~~events }
  | .drop file => s.setFile file { s.file file with isAlive := false }
  | .wait maxEvents => s.spawn (.waiting maxEvents)
  | .step i =>
    match s.tasks[i]? with
    | some task =>
      let (s, task) := s.taskStep task
      { s with tasks := s.tasks.set i task }
    | none => s
  | .deliver i e =>
    match s.tasks[i]? with
    | some (.notifying none todo) =>
      if e ∈ todo then
        { s with tasks := s.tasks.set i (.notifying (some (.check e)) (todo.erase e)) }
      else s
    | _ => s

/-- The epoll files that are reached. -/
inductive Reached : EpollFile → Prop
  | new : Reached new
  | step {s : EpollFile} (e : Event) : Reached s → Reached (s.step e)

end EpollFile

end Asterinas.Epoll
