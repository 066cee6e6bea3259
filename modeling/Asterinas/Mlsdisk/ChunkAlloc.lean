import Asterinas.Framework.Exec
import Asterinas.Framework.OrderedMap
import Asterinas.Mlsdisk.BitMap

/-!
# The chunk allocator

`3-log/chunk.rs`.  An allocation changes the shared map at once and is recorded in the edit table of
the transaction; a deallocation of another chunk than one of its own is only recorded, and takes
effect when the transaction commits.

An edit table is a hash map in the source.  It is applied in one pass in which the order does not
matter: an allocation is applied without regard to its chunk, and the deallocations are of different
chunks.
-/

namespace Asterinas.Mlsdisk

open Framework Exec

/-- `ChunkAllocState`: the map of the allocated chunks, with the number of free ones and where to
look next. -/
structure ChunkAllocState where
  allocMap : List Bool
  freeCount : ℕ
  nextFree : ℕ
  inJournal : Bool
  deriving DecidableEq

namespace ChunkAllocState

/-- `ChunkAllocState::new`: all chunks are free. -/
def new (capacity : ℕ) : ChunkAllocState := ⟨List.replicate capacity false, capacity, 0, false⟩

/-- `ChunkAllocState::new_in_journal`: the same, as the state that edits are applied to. -/
def newInJournal (capacity : ℕ) : ChunkAllocState :=
  ⟨List.replicate capacity false, capacity, 0, true⟩

section

variable (s : ChunkAllocState)

/-- `ChunkAllocState::alloc`.  `none` is a panic: there is no zero in the map, or no map. -/
def alloc : Option (Option ℕ × ChunkAllocState) :=
  let nextFree := if s.nextFree = s.allocMap.length then 0 else s.nextFree
  if nextFree < s.allocMap.length then
    ((firstZero s.allocMap nextFree).or (firstZero s.allocMap 0)).map fun id =>
      (some id, { s with
        allocMap := s.allocMap.set id true
        freeCount := s.freeCount - 1
        nextFree := id + 1 })
  else none

/-- `ChunkAllocState::dealloc`.  `none` is the panic on a chunk that is not allocated. -/
def dealloc (id : ℕ) : Option ChunkAllocState :=
  if s.allocMap[id]? = some true then
    some { s with allocMap := s.allocMap.set id false, freeCount := s.freeCount + 1 }
  else none

/-- Deallocate several chunks. -/
def deallocAll (ids : List ℕ) : Option ChunkAllocState :=
  ids.foldlM dealloc s

end

/-- The loop of `ChunkAlloc::alloc_batch`, with the chunks that it has so far. -/
def allocLoop : ℕ → ChunkAllocState → List ℕ → Option (Option (List ℕ) × ChunkAllocState)
  | 0, s, ids => some (some (ids.mergeSort fun a b => decide (a ≤ b)), s)
  | n + 1, s, ids =>
    s.alloc.bind fun
      | (some id, s) => allocLoop n s (ids ++ [id])
      | (none, s) => (s.deallocAll ids).map fun s => (none, s)

end ChunkAllocState

/-- `ChunkEdit`: what a transaction has done with a chunk. -/
inductive ChunkEdit
  | alloc
  | dealloc
  deriving DecidableEq

/-- `ChunkAllocEdit`: the edit table of a transaction. -/
abbrev ChunkAllocEdit := OrderedMap ℕ ChunkEdit

namespace ChunkAllocEdit

section

variable (e : ChunkAllocEdit)

/-- `ChunkAllocEdit::alloc`, with its assertion. -/
def alloc (id : ℕ) : Option ChunkAllocEdit :=
  if e.get? id = none then some (e.insert id .alloc) else none

/-- `ChunkAllocEdit::dealloc`: the table, and whether the chunk is to be deallocated now. -/
def dealloc (id : ℕ) : Option (ChunkAllocEdit × Bool) :=
  match e.get? id with
  | none => some (e.insert id .dealloc, false)
  | some .alloc => some (e.erase id, true)
  | some .dealloc => none

/-- The chunks with the given edit, as in `ChunkAllocEdit::iter_allocated_chunks`. -/
def chunks (edit : ChunkEdit) : List ℕ :=
  (e.entries.filter fun x => x.2 = edit).map Prod.fst

end

/-- Allocate as many chunks as there are allocations in the list, whatever chunks these are. -/
def allocEach (s : ChunkAllocState) (ids : List ℕ) : Option ChunkAllocState :=
  ids.foldlM (fun s _ => s.alloc.bind fun (id, s) => id.map fun _ => s) s

/-- `ChunkAllocEdit::apply_to`.  In the journal an allocation takes the next free chunk. -/
def applyTo (e : ChunkAllocEdit) (s : ChunkAllocState) : Option ChunkAllocState :=
  (if s.inJournal then allocEach s (chunks e .alloc) else some s).bind fun s =>
    s.deallocAll (chunks e .dealloc)

end ChunkAllocEdit

/-- `ChunkAlloc`, with the edit tables of the open transactions. -/
structure ChunkAlloc where
  state : ChunkAllocState
  txs : OrderedMap ℕ ChunkAllocEdit

namespace ChunkAlloc

/-- `ChunkAlloc::from_parts`: the allocator over a state that was recovered. -/
def fromParts (state : ChunkAllocState) : ChunkAlloc :=
  ⟨{ state with inJournal := false }, OrderedMap.empty⟩

/-- `ChunkAlloc::new`: the allocator of a store that is formatted. -/
def new (capacity : ℕ) : ChunkAlloc := fromParts (.new capacity)

/-- The methods as programs; they return no errors. -/
abbrev Prog (α : Type) := Exec Empty ChunkAlloc α

/-- `CurrentTx::data_with`, which panics without a transaction. -/
def data (tx : ℕ) : Prog ChunkAllocEdit := do
  let s ← Exec.get
  ofOption (s.txs.get? tx)

/-- The table of the transaction is another one now. -/
def setData (tx : ℕ) (e : ChunkAllocEdit) : Prog Unit :=
  Exec.modify fun s => { s with txs := s.txs.insert tx e }

/-- A computation on the shared state, whose `none` is a panic. -/
def onState {α : Type} (f : ChunkAllocState → Option (α × ChunkAllocState)) : Prog α := do
  let s ← Exec.get
  let (a, state) ← ofOption (f s.state)
  Exec.modify fun s => { s with state }
  return a

/-- A change of the shared state. -/
def changeState (f : ChunkAllocState → Option ChunkAllocState) : Prog Unit :=
  onState fun s => (f s).map fun s => ((), s)

/-- `ChunkAlloc::new_tx`: a transaction without edits. -/
def newTx (tx : ℕ) : Prog Unit :=
  Exec.modify fun s =>
    if (s.txs.get? tx).isSome then s else { s with txs := s.txs.insert tx OrderedMap.empty }

/-- Record the allocations in the edit table. -/
def recordAll (tx : ℕ) (ids : List ℕ) : Prog Unit := do
  let e ← data tx
  let e ← ofOption (ids.foldlM ChunkAllocEdit.alloc e)
  setData tx e

/-- `ChunkAlloc::alloc`: a chunk, with the allocation recorded in the transaction; none if all are
taken. -/
def alloc (tx : ℕ) : Prog (Option ℕ) := do
  match ← onState ChunkAllocState.alloc with
  | none => return none
  | some id => do
    recordAll tx [id]
    return some id

/-- `ChunkAlloc::alloc_batch`: as many chunks as asked for, sorted, or none. -/
def allocBatch (tx count : ℕ) : Prog (Option (List ℕ)) := do
  match ← onState fun s => s.allocLoop count [] with
  | none => return none
  | some ids => do
    recordAll tx ids
    return some ids

/-- `ChunkAlloc::dealloc`: a chunk of the transaction is free at once, another one when it
commits. -/
def dealloc (tx id : ℕ) : Prog Unit := do
  let e ← data tx
  let (e, now) ← ofOption (ChunkAllocEdit.dealloc e id)
  setData tx e
  if now then changeState (·.dealloc id) else return ()

/-- The loop of `ChunkAlloc::dealloc_batch`. -/
def deallocLoop (tx : ℕ) : List ℕ → Prog Unit
  | [] => return ()
  | id :: ids => do
    dealloc tx id
    deallocLoop tx ids

/-- `ChunkAlloc::dealloc_batch`: one chunk after the other. -/
def deallocBatch (tx : ℕ) (ids : List ℕ) : Prog Unit := do
  let _ ← data tx
  deallocLoop tx ids

/-- The transaction is over. -/
def removeTx (tx : ℕ) : Prog Unit := Exec.modify fun s => { s with txs := s.txs.erase tx }

/-- The commit handler. -/
def commit (tx : ℕ) : Prog Unit := do
  let e ← data tx
  if e.entries.isEmpty then pure () else changeState (ChunkAllocEdit.applyTo e)
  removeTx tx

/-- The abort handler. -/
def abort (tx : ℕ) : Prog Unit := do
  let e ← data tx
  changeState (·.deallocAll (ChunkAllocEdit.chunks e .alloc))
  removeTx tx

end ChunkAlloc

end Asterinas.Mlsdisk
