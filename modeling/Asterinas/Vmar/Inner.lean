import Asterinas.Vmar.Mapping
import Asterinas.Framework.Exec

/-!
# The mappings of an address space (`vmar_impls/mod.rs`, `rmap.rs`)

`VmarInner` is what the lock of a VMAR protects: the set of its mappings and the running total of
their sizes.  Its methods also keep the reverse maps, which a VMO uses to find the mappings of its
pages, so they run over both.

A locked reverse map, which the source passes down as an `Option<&mut Rmap>`, is named here by the
VMO it belongs to.
-/

namespace Asterinas.Vmar

open Framework Exec

/-! ## Addresses -/

/-- `VMAR_LOWEST_ADDR`: nothing is mapped below. -/
def vmarLowestAddr : ℕ := 0x10000

/-- `VMAR_CAP_ADDR`, which is `MAX_USERSPACE_VADDR` with 48-bit addresses. -/
def vmarCapAddr : ℕ := 2 ^ 47 - pageSize

/-- `INIT_STACK_SIZE`: the size of the stack, which mappings leave free. -/
def initStackSize : ℕ := 8 * 1024 * 1024

/-- `MAP_32BIT_HIGH_LIMIT`: where the region of `MAP_32BIT` ends. -/
def map32BitHighLimit : ℕ := 0x80000000

/-- `is_userspace_vaddr_range`: the range is inside the part of the address space that users
have. -/
def isUserspaceVaddrRange (vaddr len : ℕ) : Bool :=
  decide (vmarLowestAddr ≤ vaddr ∧ vaddr ≤ vmarCapAddr ∧ len ≤ vmarCapAddr - vaddr)

/-! ## Reverse maps -/

/-- A VMAR, as its identity. -/
abbrev VmarId := ℕ

/-- `RmapEntry`: where a VMO is mapped, from which offset on and how much of it. -/
structure RmapEntry where
  vaddr : ℕ
  offset : ℕ
  size : ℕ
deriving DecidableEq

/-- `Rmap`: the entries of each VMAR.  A VMAR whose last entry goes is dropped from the map, which
is the same as having no entry. -/
structure Rmap where
  entries : VmarId → List RmapEntry

namespace Rmap

/-- `Rmap::new`: the VMO is mapped nowhere. -/
def new : Rmap := ⟨fun _ => []⟩

/-- `Rmap::insert`: another mapping of the VMO. -/
def insert (rmap : Rmap) (vmar : VmarId) (entry : RmapEntry) : Rmap :=
  ⟨Function.update rmap.entries vmar (rmap.entries vmar ++ [entry])⟩

/-- `Vec::swap_remove`: the last item takes the place of the removed one. -/
def swapRemove (entries : List RmapEntry) (index : ℕ) : List RmapEntry :=
  match entries.getLast? with
  | some last => (entries.set index last).dropLast
  | none => []

/-- `Rmap::remove`, which panics when there is no entry to remove. -/
def remove (rmap : Rmap) (vmar : VmarId) (vaddr : ℕ) : Option Rmap :=
  ((rmap.entries vmar).findIdx? (fun entry => entry.vaddr = vaddr)).map fun index =>
    ⟨Function.update rmap.entries vmar (swapRemove (rmap.entries vmar) index)⟩

end Rmap

/-! ## State -/

/-- `VmarInner`: the mappings, with their total size. -/
structure VmarInner where
  vmMappings : IntervalSet ℕ VmMapping
  totalVm : ℕ
deriving DecidableEq

/-- `VmarInner::new`: nothing is mapped. -/
def VmarInner.new : VmarInner := ⟨.new, 0⟩

/-- What a method of a VMAR changes: the VMAR's own mappings and the reverse maps of the VMOs. -/
structure VmarState where
  inner : VmarInner
  rmaps : VmoId → Rmap

/-- What a method reads from outside: `RLIMIT_AS` of the current process, if there is one, and the
VMOs whose writable mappings have been denied. -/
structure Context where
  rlimitAs : Option ℕ
  writableDenied : VmoId → Bool

/-- A method of a VMAR. -/
abbrev VmarM := Exec Error VmarState

namespace VmarM

/-- The mappings. -/
def getMappings : VmarM (IntervalSet ℕ VmMapping) := do return (← get).inner.vmMappings

/-- Change the mappings. -/
def modifyMappings (f : IntervalSet ℕ VmMapping → IntervalSet ℕ VmMapping) : VmarM Unit :=
  modify fun s => { s with inner := { s.inner with vmMappings := f s.inner.vmMappings } }

/-- Set the running total. -/
def setTotalVm (totalVm : ℕ) : VmarM Unit :=
  modify fun s => { s with inner := { s.inner with totalVm := totalVm } }

/-- Set the reverse map of a VMO. -/
def setRmap (vmo : VmoId) (rmap : Rmap) : VmarM Unit :=
  modify fun s => { s with rmaps := Function.update s.rmaps vmo rmap }

end VmarM

namespace VmarInner

open VmarM

/-- `check_extra_size_fits_rlimit`: the total may grow by a size. -/
def checkExtraSizeFitsRlimit (ctx : Context) (expandSize : ℕ) : VmarM Unit :=
  match ctx.rlimitAs with
  | none => pure ()
  | some rlimitAs => do
      let s ← get
      failIf (rlimitAs - s.inner.totalVm < expandSize)
        (.withMessage .enomem "the address space size limit is reached")

/-- `check_lies_in_single_mapping`: the start of the mapping in which the range lies. -/
def checkLiesInSingleMapping (addr size : ℕ) : VmarM ℕ := do
  let mappings ← getMappings
  match (mappings.findOne addr).filter (fun m => size ≤ m.mapEnd - addr) with
  | some m => return m.mapToAddr
  | none => throw (.withMessage .efault "the range must lie in a single mapping")

/-- `rmap.insert` of the entry of a mapping, when a reverse map is locked. -/
def insertRmapEntry (self : VmarId) (m : VmMapping) (rmap : Option VmoId) : VmarM Unit :=
  match rmap with
  | none => pure ()
  | some vmo => do
      let mapped ← ofOption m.vmo
      let s ← get
      setRmap vmo ((s.rmaps vmo).insert self ⟨m.mapToAddr, mapped.offset, m.mapSize⟩)

/-- `rmap.remove` of the entry at an address, when a reverse map is locked. -/
def removeRmapEntry (self : VmarId) (addr : ℕ) (rmap : Option VmoId) : VmarM Unit :=
  match rmap with
  | none => pure ()
  | some vmo => do
      let s ← get
      let rmap ← ofOption ((s.rmaps vmo).remove self addr)
      setRmap vmo rmap

/-- `self.total_vm += size`. -/
def addTotalVm (size : ℕ) : VmarM Unit := do
  let s ← get
  let totalVm ← ofOption (usizeAdd s.inner.totalVm size)
  setTotalVm totalVm

/-- `insert_without_try_merge`: a mapping is counted and inserted. -/
def insertWithoutTryMerge (self : VmarId) (m : VmMapping) (rmap : Option VmoId) : VmarM Unit := do
  addTotalVm m.mapSize
  insertRmapEntry self m rmap
  modifyMappings (·.insert m)

/-- One of the two merges of `insert_try_merge`, with the neighbour before or after the mapping. -/
def mergeNeighbour (self : VmarId) (rmap : Option VmoId) (m : VmMapping) :
    Option VmMapping → VmarM VmMapping
  | none => pure m
  | some neighbour => do
      let (newMapping, toRemove) ← ofOption (m.tryMergeWith neighbour)
      match toRemove with
      | some addr => do
          modifyMappings fun s => (s.remove addr).2
          removeRmapEntry self addr rmap
          return newMapping
      | none => return newMapping

/-- `insert_try_merge`: a mapping is counted, merged with its neighbours where they match, and
inserted. -/
def insertTryMerge (self : VmarId) (m : VmMapping) (rmap : Option VmoId) : VmarM Unit := do
  addTotalVm m.mapSize
  let addr := m.mapToAddr
  let mappings ← getMappings
  let m ← mergeNeighbour self rmap m (mappings.findPrev addr)
  let mappings ← getMappings
  let m ← mergeNeighbour self rmap m (mappings.findNext addr)
  insertRmapEntry self m rmap
  modifyMappings (·.insert m)

/-- `remove`: the removed mapping with the VMO whose reverse map names it (`RmapToRemove`). -/
def remove (key : ℕ) : VmarM (Option (VmMapping × Option VmoId)) := do
  let mappings ← getMappings
  match mappings.remove key with
  | (none, _) => return none
  | (some m, rest) => do
      modifyMappings fun _ => rest
      let s ← get
      require (m.mapSize ≤ s.inner.totalVm)
      setTotalVm (s.inner.totalVm - m.mapSize)
      return some (m, m.vmoForRmap)

/-- `remove(..).unwrap()` followed by `RmapToRemove::remove`, which locks the reverse map. -/
def removeWithRmap (self : VmarId) (key : ℕ) : VmarM (VmMapping × Option VmoId) := do
  let (m, rmap) ← ofOption (← remove key)
  removeRmapEntry self key rmap
  return (m, rmap)

/-- Take out the mapping at an address and insert it again, larger. -/
def enlargeMapping (self : VmarId) (addr extraSize : ℕ) : VmarM Unit := do
  let (m, rmap) ← removeWithRmap self addr
  insertTryMerge self (m.enlarge extraSize) rmap

/-- Insert a mapping that may be absent, without merging. -/
def insertRest (self : VmarId) (m : Option VmMapping) (rmap : Option VmoId) : VmarM Unit :=
  match m with
  | some m => insertWithoutTryMerge self m rmap
  | none => pure ()

/-- `count_overlap_size`: how much of a range is mapped. -/
def countOverlapSize (r : Range ℕ) : VmarM ℕ := do
  let mappings ← getMappings
  let intersected ← ofOption ((mappings.find r).mapM fun m => getIntersectedRange r (range m))
  return (intersected.map fun i => i.stop - i.start).sum

/-- `alloc_free_region_exact`: a region, if nothing is mapped there. -/
def allocFreeRegionExact (offset size : ℕ) : VmarM (Range ℕ) := do
  let stop ← ofOption (usizeAdd offset size)
  let mappings ← getMappings
  failIf (mappings.find ⟨offset, stop⟩ ≠ [])
    (.withMessage .eexist "the range contains pages that are already mapped")
  return ⟨offset, stop⟩

/-- The loop of `alloc_free_region_exact_truncate` over the mappings to remove. -/
def truncateLoop (self : VmarId) (r : Range ℕ) : List ℕ → VmarM Unit
  | [] => pure ()
  | addr :: rest => do
      let (m, rmap) ← removeWithRmap self addr
      let intersected ← ofOption (getIntersectedRange r (range m))
      let (left, _taken, right) ← ofOption (m.splitRange intersected)
      insertRest self left rmap
      insertRest self right rmap
      truncateLoop self r rest

/-- `alloc_free_region_exact_truncate`: a region, which is unmapped first. -/
def allocFreeRegionExactTruncate (self : VmarId) (offset size : ℕ) : VmarM (Range ℕ) := do
  let stop ← ofOption (usizeAdd offset size)
  let mappings ← getMappings
  truncateLoop self ⟨offset, stop⟩ ((mappings.find ⟨offset, stop⟩).map (·.mapToAddr))
  return ⟨offset, stop⟩

/-- `try_alloc_in_hole`: the highest aligned place in a hole. -/
def tryAllocInHole (holeStart holeEnd size align : ℕ) : Option (Range ℕ) :=
  if holeEnd < size then none
  else
    let start := alignDown (holeEnd - size) align
    if holeStart ≤ start then some ⟨start, start + size⟩ else none

/-- The part of `alloc_free_region_in_range` after its loop: the hole between `low_limit` and the
lowest mapping. -/
def lastHole (size align lowLimit highLimit prevStart : ℕ) : Option (Range ℕ) :=
  if lowLimit < prevStart then tryAllocInHole lowLimit (min prevStart highLimit) size align
  else none

/-- The loop of `alloc_free_region_in_range` over the mappings from high to low addresses. -/
def searchHoles (size align lowLimit highLimit : ℕ) : ℕ → List VmMapping → Option (Range ℕ)
  | prevStart, [] => lastHole size align lowLimit highLimit prevStart
  | prevStart, m :: rest =>
    match tryAllocInHole (max m.mapEnd lowLimit) (min prevStart highLimit) size align with
    | some region => some region
    | none =>
      if m.mapToAddr ≤ lowLimit then lastHole size align lowLimit highLimit m.mapToAddr
      else searchHoles size align lowLimit highLimit m.mapToAddr rest

/-- `alloc_free_region_in_range`: a place in the highest hole that has one. -/
def allocFreeRegionInRange (size align lowLimit highLimit : ℕ) : VmarM (Range ℕ) := do
  let mappings ← getMappings
  match searchHoles size align lowLimit highLimit highLimit mappings.iter.reverse with
  | some region => return region
  | none => throw (.withMessage .enomem "no free region for mapping can be found")

/-- `alloc_free_region`: a place below the stack. -/
def allocFreeRegion (size align : ℕ) : VmarM (Range ℕ) :=
  allocFreeRegionInRange size align vmarLowestAddr (vmarCapAddr - initStackSize - pageSize * 2048)

/-- `alloc_free_region_below_2gib`: a place for `MAP_32BIT`. -/
def allocFreeRegionBelow2Gib (size align : ℕ) : VmarM (Range ℕ) :=
  allocFreeRegionInRange size align vmarLowestAddr (min map32BitHighLimit vmarCapAddr)

/-- `VmarInner::resize_mapping` after its checks of the sizes, when the mapping shrinks. -/
def shrinkMapping (self : VmarId) (mapAddr oldSize newSize : ℕ) : VmarM Unit := do
  failIf (usizeModulus ≤ mapAddr + oldSize) (.withMessage .einval "the address range overflows")
  let _ ← allocFreeRegionExactTruncate self (mapAddr + newSize) (oldSize - newSize)
  return ()

section

variable (ctx : Context) (self : VmarId) (mapAddr oldSize newSize : ℕ)

/-- `VmarInner::resize_mapping` after its checks of the sizes, when the mapping expands. -/
def expandMapping : VmarM Unit := do
  let oldMapEnd := mapAddr + oldSize
  match ← attempt (allocFreeRegionExact oldMapEnd (newSize - oldSize)) with
  | .error _ =>
    throw (.withMessage .enomem "the range contains pages that are already mapped")
  | .ok _ => do
      let mappings ← getMappings
      require (0 < oldMapEnd)
      let lastMapping ← ofOption (mappings.findOne (oldMapEnd - 1))
      require (lastMapping.mapEnd = oldMapEnd)
      failIf (!lastMapping.canExpand) (.withMessage .efault "device mappings cannot be expanded")
      checkExtraSizeFitsRlimit ctx (newSize - oldSize)
      enlargeMapping self lastMapping.mapToAddr (newSize - oldSize)

/-- `VmarInner::resize_mapping`: the range is cut at its end, or grows into free addresses. -/
def resizeMapping : VmarM Unit := do
  require (pageSize ∣ mapAddr ∧ pageSize ∣ oldSize ∧ pageSize ∣ newSize)
  failIf (newSize = 0) (.withMessage .einval "resizing a mapping to zero is invalid")
  if newSize = oldSize then
    return ()
  else do
    failIf (!isUserspaceVaddrRange mapAddr newSize)
      (.withMessage .einval "the address range is not in userspace")
    if newSize < oldSize then
      shrinkMapping self mapAddr oldSize newSize
    else
      expandMapping ctx self mapAddr oldSize newSize

end

end VmarInner

end Asterinas.Vmar
