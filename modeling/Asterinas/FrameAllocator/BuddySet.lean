import Asterinas.Basic

/-!
# Sets of free buddy chunks (`set.rs` and `chunk.rs` of the frame allocator)

A free chunk is an address and an order, both kept in the metadata of its head frame.  The frames
that are heads of free chunks are in use for the frame system; all other frames of free chunks are
not, and `UniqueFrame::from_unused` panics when it meets a head.  A panic is `none`.
-/

namespace Asterinas.FrameAllocator

/-- `size_of_order`: the bytes of a chunk of an order. -/
def sizeOfOrder (order : ℕ) : ℕ := (1 <<< order) * pageSize

/-- `FreeChunk`: the address and the order, as the metadata of the head frame has them. -/
structure FreeChunk where
  addr : ℕ
  order : ℕ
deriving DecidableEq

/-- `FreeChunk::buddy`: the address of the other half of the chunk of the next order. -/
def FreeChunk.buddy (chunk : FreeChunk) : ℕ := chunk.addr ^^^ sizeOfOrder chunk.order

/-- `FreeChunk::merge_free`, with the assertions that the two chunks are buddies. -/
def FreeChunk.mergeFree (chunk buddy : FreeChunk) : Option FreeChunk :=
  let (left, right) := if chunk.addr > buddy.addr then (buddy, chunk) else (chunk, buddy)
  if left.order = right.order ∧ left.addr ^^^ sizeOfOrder left.order = right.addr then
    some { left with order := left.order + 1 }
  else none

/-- `BuddySet`, with the free chunks of each order below `maxOrder`. -/
structure BuddySet (maxOrder : ℕ) where
  totalSize : ℕ
  lists : ℕ → List FreeChunk

namespace BuddySet

variable {maxOrder : ℕ}

/-- `BuddySet::new_empty`: no free chunk of any order. -/
def newEmpty (maxOrder : ℕ) : BuddySet maxOrder := ⟨0, fun _ => []⟩

section

variable (set : BuddySet maxOrder)

/-- All free chunks. -/
def chunks : List FreeChunk := (List.range maxOrder).flatMap set.lists

/-- The frame is the head of a free chunk. -/
def isHead (paddr : ℕ) : Bool := set.chunks.any fun c => c.addr = paddr

/-- The list of one order is replaced. -/
def setList (order : ℕ) (list : List FreeChunk) : BuddySet maxOrder :=
  { set with lists := Function.update set.lists order list }

/-- `LinkedList::push_front` on the list of the order. -/
def pushFront (order : ℕ) (chunk : FreeChunk) : BuddySet maxOrder :=
  set.setList order (chunk :: set.lists order)

/-- `FreeChunk::from_unused`, with its assertion that no frame of the chunk is in use. -/
def fromUnused (addr order : ℕ) : Option FreeChunk :=
  if addr % sizeOfOrder order = 0 ∧
      ∀ k < 1 <<< order, set.isHead (addr + k * pageSize) = false then some ⟨addr, order⟩
  else none

end

/-- The loop of `insert_chunk`, with `n` lists left from the order `i` on: the chunk is merged with
its buddy as long as there is one. -/
def coalesce : ℕ → ℕ → BuddySet maxOrder → FreeChunk → Option (FreeChunk × BuddySet maxOrder)
  | 0, _, set, chunk => some (chunk, set)
  | n + 1, i, set, chunk =>
    if i + 1 ≥ maxOrder then some (chunk, set)
    else
      match (set.lists i).find? fun c => c.addr = chunk.buddy with
      | none => some (chunk, set)
      | some taken => do
        let chunk ← chunk.mergeFree taken
        coalesce n (i + 1) (set.setList i ((set.lists i).erase taken)) chunk

/-- `BuddySet::insert_chunk`: the chunk is merged with its buddy as long as that is free, and
inserted. -/
def insertChunk (set : BuddySet maxOrder) (addr order : ℕ) : Option (BuddySet maxOrder) := do
  guard (order < maxOrder)
  let chunk ← set.fromUnused addr order
  let (chunk, set) ← coalesce (maxOrder - chunk.order) chunk.order set chunk
  let set := set.pushFront chunk.order chunk
  some { set with totalSize := set.totalSize + sizeOfOrder order }

/-- `FreeChunk::split_free`: the head of the right half must not be in use. -/
def splitFree (set : BuddySet maxOrder) (chunk : FreeChunk) : Option (FreeChunk × FreeChunk) :=
  let right := chunk.addr ^^^ sizeOfOrder (chunk.order - 1)
  if set.isHead right = false then some (⟨chunk.addr, chunk.order - 1⟩, ⟨right, chunk.order - 1⟩)
  else none

/-- The second loop of `alloc_chunk`, with `n` splits to make: the right halves go back to the
set. -/
def splitDown (order : ℕ) : ℕ → BuddySet maxOrder → FreeChunk →
    Option (FreeChunk × BuddySet maxOrder)
  | 0, set, chunk => some (chunk, set)
  | n + 1, set, chunk => do
    let (left, right) ← set.splitFree chunk
    guard (right.order = order + n)
    splitDown order n (set.pushFront (order + n) right) left

/-- `BuddySet::alloc_chunk`: the address of the chunk, if there is one. -/
def allocChunk (set : BuddySet maxOrder) (order : ℕ) : Option (Option ℕ × BuddySet maxOrder) :=
  match (List.range' order (maxOrder - order)).find? fun i => !(set.lists i).isEmpty with
  | none => some (none, set)
  | some nonEmpty =>
    match set.lists nonEmpty with
    | [] => none
    | head :: rest => do
      guard (head.order = nonEmpty)
      let (chunk, set) ← splitDown order (nonEmpty - order) (set.setList nonEmpty rest) head
      guard (sizeOfOrder order ≤ set.totalSize)
      some (some chunk.addr, { set with totalSize := set.totalSize - sizeOfOrder order })

end BuddySet

end Asterinas.FrameAllocator
