import Asterinas.Basic

/-!
# System V semaphore sets

The semaphore set of `ipc/semaphore/system_v`: the values, the two queues of pending operation
lists, and the calls that change them under the lock of the set.

A list of operations is pending on a status cell that it shares with the waiting thread (an
`Arc<AtomicStatus>` in the source).  The cells are kept in one table of the set, and a list names
its cell by a number that was fresh when the list was made.
-/

namespace Asterinas.SysvSem

open Function List Bool

/-- `SEMVMX`, the largest value of a semaphore. -/
def semvmx : ℤ := 32767

/-- `SemBuf`: one operation as the user passes it. -/
structure SemBuf where
  semNum : ℕ
  semOp : ℤ
  semFlags : BitVec 16
  deriving DecidableEq

/-- `SEM_UNDO` is set. -/
def SemBuf.undo (op : SemBuf) : Bool := op.semFlags.getLsbD 12

/-- `Status`: how far a list of operations has got. -/
inductive Status
  | normal
  | pending
  | removed
  | errWouldBlock
  | errValRange
  deriving DecidableEq, Repr

/-! ### The check for duplicates -/

/-- `check_dup_slow`: an operation that alters a semaphore is followed by one on the same
semaphore. -/
def checkDupSlow : List SemBuf → Bool
  | [] => false
  | op :: rest =>
    if op.semOp = 0 then checkDupSlow rest
    else rest.any (fun other => op.semNum = other.semNum) || checkDupSlow rest

/-- The loop of `check_dup_sops`: the mask has the bit of every semaphore altered so far, modulo
64, and a hit is checked again with the slow method. -/
def checkDupFrom (sops : List SemBuf) (mask : BitVec 64) : List SemBuf → Bool
  | [] => false
  | op :: rest =>
    let bit := BitVec.twoPow 64 (op.semNum % 64)
    if mask &&& bit ≠ 0 then checkDupSlow sops
    else checkDupFrom sops (if op.semOp ≠ 0 then mask ||| bit else mask) rest

/-- `check_dup_sops`: some operation follows one that alters the same semaphore. -/
def checkDupSops (sops : List SemBuf) : Bool := checkDupFrom sops 0 sops

/-- Every operation that alters a semaphore is the last one of the list on that semaphore. -/
def AltersLast {α κ : Type} (num : α → κ) (amount : α → ℤ) (sops : List α) : Prop :=
  sops.Pairwise fun a b => amount a ≠ 0 → num a ≠ num b

lemma checkDupSlow_eq_false {sops : List SemBuf} :
    checkDupSlow sops = false ↔ AltersLast SemBuf.semNum SemBuf.semOp sops := by
  induction sops with
  | nil => simp [checkDupSlow, AltersLast]
  | cons op rest ih =>
    unfold AltersLast at ih ⊢
    rw [pairwise_cons, ← ih, checkDupSlow]
    by_cases h0 : op.semOp = 0 <;> simp [h0]

/-- The mask has a bit in common with a power of two exactly when that bit is set. -/
lemma mask_hit {k : ℕ} {mask : BitVec 64} (hk : k < 64) :
    mask &&& BitVec.twoPow 64 k ≠ 0 ↔ mask.getLsbD k = true := by
  have hne : BitVec.twoPow 64 k ≠ 0 := by
    intro hz
    have := congrArg (fun bits => bits.getLsbD k) hz
    simp [hk] at this
  rw [BitVec.and_twoPow]
  cases mask.getLsbD k with
  | true => simpa using hne
  | false => simp

/-- The mask only saves work: a list that passes the loop has no duplicate. -/
lemma checkDupFrom_eq_false {sops rest : List SemBuf} {mask : BitVec 64}
    (h : checkDupFrom sops mask rest = false) : checkDupSlow sops = false ∨
      AltersLast SemBuf.semNum SemBuf.semOp rest ∧
        ∀ op ∈ rest, mask.getLsbD (op.semNum % 64) = false := by
  induction rest generalizing mask with
  | nil => exact .inr ⟨List.Pairwise.nil, by simp⟩
  | cons op rest ih =>
    have hlt : op.semNum % 64 < 64 := Nat.mod_lt _ (by decide)
    rw [checkDupFrom] at h
    split at h
    · -- a hit: what the loop returns is what the slow method says
      exact .inl h
    · rename_i hmiss
      rw [mask_hit hlt, not_eq_true] at hmiss
      rcases ih h with hslow | ⟨hrest, hmask⟩
      · exact .inl hslow
      refine .inr ⟨pairwise_cons.mpr ⟨fun other hmem h0 heq => ?_, hrest⟩, ?_⟩
      · have hset := hmask other hmem
        rw [if_pos h0, ← heq] at hset
        simp [hlt] at hset
      · intro other hmem
        rcases mem_cons.mp hmem with rfl | hmem
        · exact hmiss
        · have hset := hmask other hmem
          split at hset
          · rw [BitVec.getLsbD_or, or_eq_false_iff] at hset
            exact hset.1
          · exact hset

/-- What a list has that passes `check_dup_sops`. -/
lemma altersLast_of_checkDupSops {sops : List SemBuf} (h : checkDupSops sops = false) :
    AltersLast SemBuf.semNum SemBuf.semOp sops := by
  rcases checkDupFrom_eq_false h with hslow | ⟨hlast, -⟩
  · exact checkDupSlow_eq_false.mp hslow
  · exact hlast

/-! ### Lists of operations -/

section Lists

variable {n : ℕ}

/-- An operation on a semaphore of a set of size `n`. -/
structure Sop (n : ℕ) where
  semNum : Fin n
  semOp : ℤ
  semFlags : BitVec 16
  deriving DecidableEq

/-- `IPC_NOWAIT` is set. -/
def Sop.nowait (op : Sop n) : Bool := op.semFlags.getLsbD 11

/-- The loop of `PendingOp::new`: the bounds and the flags of every operation are checked. -/
def checkSops (n : ℕ) : List SemBuf → Except Error (List (Sop n))
  | [] => .ok []
  | op :: rest =>
    if h : op.semNum < n then
      if op.undo then .error (.withMessage .einval "SEM_UNDO is not supported yet")
      else (checkSops n rest).map (⟨⟨op.semNum, h⟩, op.semOp, op.semFlags⟩ :: ·)
    else .error (.withMessage .efbig "the semaphore number is out of bounds")

/-- The operation as the user passed it. -/
def Sop.toBuf (op : Sop n) : SemBuf := ⟨op.semNum, op.semOp, op.semFlags⟩

lemma map_toBuf_of_checkSops {sops : List SemBuf} {ops : List (Sop n)}
    (h : checkSops n sops = .ok ops) : ops.map Sop.toBuf = sops := by
  induction sops generalizing ops with
  | nil => cases h; rfl
  | cons op rest ih =>
    rw [checkSops] at h
    split at h
    · split at h
      · cases h
      · cases hrest : checkSops n rest with
        | error e => rw [hrest] at h; cases h
        | ok ops' =>
          rw [hrest] at h
          cases h
          rw [map_cons, ih hrest]
          rfl
    · cases h

/-- `PendingOp`: a list of operations of one caller, with the cell of its status.  The list has
passed the check for duplicates. -/
structure PendingOp (n : ℕ) where
  sops : List (Sop n)
  status : ℕ
  waker : Option ℕ
  pid : ℕ
  altersLast : AltersLast Sop.semNum Sop.semOp sops
  deriving DecidableEq

/-- `PendingOp::new`: the operations of a call, with the semaphores checked against the set. -/
def PendingOp.new (sops : List SemBuf) (hdup : checkDupSops sops = false) (pid status : ℕ) :
    Except Error (PendingOp n) :=
  match h : checkSops n sops with
  | .error e => .error e
  | .ok ops => .ok
    { sops := ops, status, waker := none, pid
      altersLast := by
        have hlast := altersLast_of_checkDupSops hdup
        rw [← map_toBuf_of_checkSops h, AltersLast, pairwise_map] at hlast
        exact hlast.imp fun hab h0 heq => hab h0 (congrArg Fin.val heq) }

/-- `Semaphore`: its value and the process that has changed it last. -/
structure Semaphore where
  val : ℤ
  latestModifiedPid : ℕ
  deriving DecidableEq

/-- `PendingBlocker`: the semaphore that a list of operations waits for, and for what. -/
inductive PendingBlocker (n : ℕ)
  | zero (semNum : Fin n)
  | decrease (semNum : Fin n)
  | notBlock
  deriving DecidableEq

/-- The loop of `PendingOp::blocker`. -/
def blockerFrom (sems : Fin n → Semaphore) : List (Sop n) → Except Status (PendingBlocker n)
  | [] => .ok .notBlock
  | op :: rest =>
    let val := (sems op.semNum).val
    if op.semOp = 0 ∧ val ≠ 0 then
      if op.nowait then .error .errWouldBlock else .ok (.zero op.semNum)
    else if op.semOp < -val then
      if op.nowait then .error .errWouldBlock else .ok (.decrease op.semNum)
    else if op.semOp > semvmx - val then .error .errValRange
    else blockerFrom sems rest

/-- `PendingOp::blocker`: what the list has to wait for, or why it fails. -/
def PendingOp.blocker (op : PendingOp n) (sems : Fin n → Semaphore) :
    Except Status (PendingBlocker n) :=
  blockerFrom sems op.sops

/-- The second loop of `perform_atomic_semop`: every operation takes effect. -/
def applySops (pid : ℕ) (sems : Fin n → Semaphore) (sops : List (Sop n)) : Fin n → Semaphore :=
  sops.foldl (fun sems op => update sems op.semNum
    { val := (sems op.semNum).val + op.semOp, latestModifiedPid := pid }) sems

/-- `perform_atomic_semop`: the status the list ends with, or `none` when it has to wait. -/
def performAtomicSemop (sems : Fin n → Semaphore) (op : PendingOp n) :
    (Fin n → Semaphore) × Option Status :=
  match op.blocker sems with
  | .ok .notBlock => (applySops op.pid sems op.sops, some .normal)
  | .ok _ => (sems, none)
  | .error status => (sems, some status)

end Lists

/-! ### The wake-up cascade -/

section Cascade

variable {n : ℕ}

/-- What the scans of the queues write: the semaphores, the status cells and the queue of the
lists that are over. -/
structure Scan (n : ℕ) where
  sems : Fin n → Semaphore
  status : ℕ → Status
  wakeQueue : List (PendingOp n)

/-- A list is over: its status is set and it goes to the wake queue. -/
def Scan.finish (s : Scan n) (op : PendingOp n) (status : Status) : Scan n :=
  { s with status := update s.status op.status status, wakeQueue := s.wakeQueue ++ [op] }

/-- `wake_const_ops`: the lists that stay pending, and whether one was completed. -/
def wakeConstOps (s : Scan n) : List (PendingOp n) → Scan n × List (PendingOp n) × Bool
  | [] => (s, [], false)
  | op :: rest =>
    match performAtomicSemop s.sems op with
    | (_, none) =>
      let (s', kept, completed) := wakeConstOps s rest
      (s', op :: kept, completed)
    | (sems, some status) =>
      let (s', kept, completed) := wakeConstOps ({ s with sems }.finish op status) rest
      (s', kept, decide (status = .normal) || completed)

/-- `do_smart_wakeup_zero`: the constant lists are looked at when a semaphore that `op` names is
zero. -/
def doSmartWakeupZero (s : Scan n) (pendingConst : List (PendingOp n)) (op : PendingOp n) :
    Scan n × List (PendingOp n) :=
  if op.sops.any (fun sop => (s.sems sop.semNum).val = 0) then
    let (s', kept, _) := wakeConstOps s pendingConst
    (s', kept)
  else (s, pendingConst)

/-- The loop of `update_pending_alter`.  The cursor stands between `front`, whose lists have to
wait, and the rest of the queue; a completed list sends it back to the beginning. -/
def updatePendingAlterFrom (s : Scan n) (pendingConst front : List (PendingOp n)) :
    List (PendingOp n) → Scan n × List (PendingOp n) × List (PendingOp n) × Bool
  | [] => (s, front, pendingConst, false)
  | op :: rest =>
    match performAtomicSemop s.sems op with
    | (_, none) => updatePendingAlterFrom s pendingConst (front ++ [op]) rest
    | (sems, some status) =>
      if status ≠ .normal then
        updatePendingAlterFrom ({ s with sems }.finish op status) pendingConst front rest
      else
        -- the cell is set first; the list joins the wake queue behind the lists it has woken
        let s := { s with sems, status := update s.status op.status status }
        let (s, pendingConst) := doSmartWakeupZero s pendingConst op
        let s := { s with wakeQueue := s.wakeQueue ++ [op] }
        let (s, alter, const, _) := updatePendingAlterFrom s pendingConst [] (front ++ rest)
        (s, alter, const, true)
termination_by rest => (front.length + rest.length, rest.length)
decreasing_by
  all_goals simp only [length_append, length_cons, length_nil, Prod.lex_def]
  all_goals omega

/-- `update_pending_alter`: the scan of the operations that alter, from the front of their queue. -/
def updatePendingAlter (s : Scan n) (pendingAlter pendingConst : List (PendingOp n)) :
    Scan n × List (PendingOp n) × List (PendingOp n) × Bool :=
  updatePendingAlterFrom s pendingConst [] pendingAlter

end Cascade

/-! ### The calls on a set -/

section Calls

variable {n : ℕ}

/-- `SemaphoreSet` with its `SemSetInner`, the table of the status cells and the wakers whose
`wake_up` has been called. -/
structure SemaphoreSet (n : ℕ) where
  sems : Fin n → Semaphore
  pendingAlter : List (PendingOp n)
  pendingConst : List (PendingOp n)
  status : ℕ → Status
  nextCell : ℕ
  wakeUps : List ℕ
  semOtime : ℕ
  semCtime : ℕ

/-- `SemaphoreSet::new`, made at time `now`. -/
def SemaphoreSet.new (n now : ℕ) : SemaphoreSet n where
  sems := fun _ => ⟨0, 0⟩
  pendingAlter := []
  pendingConst := []
  status := fun _ => .pending
  nextCell := 0
  wakeUps := []
  semOtime := 0
  semCtime := now

/-- The part of the set that the scans write. -/
def SemaphoreSet.scan (set : SemaphoreSet n) : Scan n := ⟨set.sems, set.status, []⟩

/-- The set after the scans, with the threads of the wake queue woken up. -/
def SemaphoreSet.commit (set : SemaphoreSet n) (s : Scan n) (alter const : List (PendingOp n)) :
    SemaphoreSet n :=
  { set with
    sems := s.sems
    status := s.status
    pendingAlter := alter
    pendingConst := const
    wakeUps := set.wakeUps ++ s.wakeQueue.filterMap PendingOp.waker }

/-- `do_smart_update`, on the two queues of the set. -/
def doSmartUpdate (s : Scan n) (pendingAlter pendingConst : List (PendingOp n))
    (op : PendingOp n) : Scan n × List (PendingOp n) × List (PendingOp n) :=
  let (s, const) :=
    if pendingConst.isEmpty then (s, pendingConst) else doSmartWakeupZero s pendingConst op
  if pendingAlter.isEmpty then (s, pendingAlter, const)
  else
    let (s, alter, const, _) := updatePendingAlter s pendingAlter const
    (s, alter, const)

/-- `SemOpResult`: the status of a list that is over, or the cell of one that waits. -/
inductive SemOpResult
  | completed (status : Status)
  | pending (status : ℕ)
  deriving DecidableEq

/-- `check_alter_sop`: some operation of the list changes a value. -/
def PendingOp.isAlter (op : PendingOp n) : Bool := op.sops.any (fun sop => sop.semOp ≠ 0)

/-- The part of `sem_op` that runs under the lock of the set: the result, the set and the wake
queue. -/
def semOpLocked (op : PendingOp n) (now : ℕ) (set : SemaphoreSet n) :
    SemOpResult × SemaphoreSet n × List (PendingOp n) :=
  match performAtomicSemop set.sems op with
  | (sems, some status) =>
    if status ≠ .normal then (.completed status, set, [])
    else
      let set := { set with sems }
      if op.isAlter then
        let (s, alter, const) := doSmartUpdate set.scan set.pendingAlter set.pendingConst op
        (.completed status, { set.commit s alter const with semOtime := now }, s.wakeQueue)
      else (.completed status, { set with semOtime := now }, [])
  | (_, none) =>
    -- the waiter and its waker are made together with the cell, so they share its number
    let waiting := { op with waker := some op.status }
    let set :=
      if op.isAlter then { set with pendingAlter := set.pendingAlter ++ [waiting] }
      else { set with pendingConst := set.pendingConst ++ [waiting] }
    (.pending op.status, set, [])

/-- The checks of `sem_op` before it takes the lock, and the list that it makes. -/
def prepare (sops : List SemBuf) (pid : ℕ) (set : SemaphoreSet n) : Except Error (PendingOp n) :=
  if hdup : checkDupSops sops = true then
    .error (.withMessage .eopnotsupp "multiple operations on the same semaphore are not supported")
  else PendingOp.new sops (eq_false_iff.mpr hdup) pid set.nextCell

/-- `sem_op` up to the point where the caller waits. -/
def semOp (sops : List SemBuf) (pid now : ℕ) (set : SemaphoreSet n) :
    Except Error SemOpResult × SemaphoreSet n × List (PendingOp n) :=
  match prepare sops pid set with
  | .error e => (.error e, set, [])
  | .ok op =>
    let (result, set, queue) := semOpLocked op now { set with nextCell := set.nextCell + 1 }
    (.ok result, set, queue)

/-- The end of `sem_op` for a caller that was not woken: its list is taken out of the queue it was
put in. -/
def cancelPending (isAlter : Bool) (cell : ℕ) (set : SemaphoreSet n) : SemaphoreSet n :=
  if isAlter then
    { set with pendingAlter := set.pendingAlter.filter (fun op => op.status ≠ cell) }
  else { set with pendingConst := set.pendingConst.filter (fun op => op.status ≠ cell) }

/-- `SemaphoreSet::setval`: the result, the set and the wake queue. -/
def setval (semNum : ℕ) (val : ℤ) (pid now : ℕ) (set : SemaphoreSet n) :
    Except Error Unit × SemaphoreSet n × List (PendingOp n) :=
  if ¬ (0 ≤ val ∧ val ≤ semvmx) then
    (.error (.withMessage .erange "the semaphore value exceeds SEMVMX"), set, [])
  else if h : semNum < n then
    let sems := update set.sems ⟨semNum, h⟩ ⟨val, pid⟩
    let s := { set.scan with sems }
    let (s, const, completedConst) :=
      if val = 0 then wakeConstOps s set.pendingConst else (s, set.pendingConst, false)
    let (s, alter, const, completedAlter) := updatePendingAlter s set.pendingAlter const
    let set := { set.commit s alter const with semCtime := now }
    let set := if completedConst || completedAlter then { set with semOtime := now } else set
    (.ok (), set, s.wakeQueue)
  else (.error (.withMessage .einval "the semaphore number is out of bounds"), set, [])

end Calls

end Asterinas.SysvSem
