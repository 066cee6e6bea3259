import Asterinas.Vmar.Inner

/-!
# The operations on an address space (`map.rs`, `unmap.rs`, `protect.rs`, `remap.rs`, `fork.rs`)

The public methods of `Vmar`, and the system of all VMARs that they act on.  A method that returns
an error keeps what it did before, as in the source; a method that panics does not return.
-/

namespace Asterinas.Vmar

open Framework VmarM VmarInner
open Exec hiding wp

/-! ## Mapping -/

/-- `VmarMapOffset`: what is asked of the address of a mapping. -/
inductive VmarMapOffset
  | fixedReplace (offset : ℕ)
  | fixedNoReplace (offset : ℕ)
  | hint (offset : ℕ)
  | map32Bit (addrHint : Option ℕ)
  | any
deriving DecidableEq

/-- The address that an offset names. -/
def VmarMapOffset.addr : VmarMapOffset → Option ℕ
  | fixedReplace offset | fixedNoReplace offset | hint offset => some offset
  | map32Bit addrHint => addrHint
  | any => none

/-- `MappableObject`.  A device is given by what its `Mappable::map` returns. -/
inductive MappableObject
  | vmo (vmo : VmoId)
  | device (map : Except Error MappedObject)

/-- `VmarMapOptions`: a mapping that is to be made. -/
structure VmarMapOptions where
  mappable : Option MappableObject
  file : Option FileLike
  perms : VmPerms
  mayPerms : VmPerms
  vmoOffset : ℕ
  size : ℕ
  offset : VmarMapOffset
  align : ℕ
  mapMode : MmapMode
  handlePageFaultsAround : Bool

/-- `VmarMapOptions::new`: an anonymous private mapping anywhere. -/
def VmarMapOptions.new (size : ℕ) (perms : VmPerms) : VmarMapOptions where
  mappable := none
  file := none
  perms := perms
  mayPerms := .allMayPerms
  vmoOffset := 0
  size := size
  offset := .any
  align := pageSize
  mapMode := .priv
  handlePageFaultsAround := false

namespace VmarMapOptions

section

variable (opts : VmarMapOptions)

/-- The assertion of `check_options` on a value that must be a multiple of the alignment, and the
error after it, which builds without assertions return. -/
def checkMultiple (value : ℕ) (msg : String) : VmarM Unit := do
  require (opts.align ∣ value)
  failIf (¬ opts.align ∣ value) (.withMessage .einval msg)

/-- `check_perms`: the permissions are known ones, and none of them is one that cannot be had. -/
def checkPerms : VmarM Unit := do
  failIf (!VmPerms.allMayPerms.contains opts.mayPerms || !VmPerms.allPerms.contains opts.perms)
    (.withMessage .eacces "invalid perms")
  ofExcept (opts.perms ||| opts.mayPerms).check

/-- The part of `check_options` about the offset. -/
def checkOffset : VmarM Unit :=
  match opts.offset.addr with
  | some offset => opts.checkMultiple offset "invalid offset"
  | none => pure ()

/-- `check_options`: the alignment, the size, the offsets and the permissions are valid. -/
def checkOptions : VmarM Unit := do
  require (pageSize ∣ opts.align)
  require (isPowerOfTwo opts.align)
  failIf (¬ pageSize ∣ opts.align ∨ !isPowerOfTwo opts.align) (.withMessage .einval "invalid align")
  opts.checkMultiple opts.size "invalid mapping size"
  opts.checkMultiple opts.vmoOffset "invalid VMO offset"
  opts.checkOffset
  opts.checkPerms

end

/-- The address-space limit in `build`.  A fixed mapping that replaces others is measured again
without the parts it replaces. -/
def checkFitsRlimit (ctx : Context) (opts : VmarMapOptions) : VmarM Unit := do
  match ← attempt (checkExtraSizeFitsRlimit ctx opts.size) with
  | .ok _ => return ()
  | .error err =>
    match opts.offset with
    | .fixedReplace mapToAddr => do
        let stop ← ofOption (usizeAdd mapToAddr opts.size)
        let overlap ← countOverlapSize ⟨mapToAddr, stop⟩
        require (overlap ≤ opts.size)
        checkExtraSizeFitsRlimit ctx (opts.size - overlap)
    | _ => Exec.throw err

/-- The free region of `build`. -/
def allocRegion (self : VmarId) (opts : VmarMapOptions) : VmarM ℕ :=
  match opts.offset with
  | .fixedReplace mapToAddr => do
      let _ ← allocFreeRegionExactTruncate self mapToAddr opts.size
      return mapToAddr
  | .fixedNoReplace mapToAddr => do
      let _ ← allocFreeRegionExact mapToAddr opts.size
      return mapToAddr
  | .hint mapToAddr => do
      match ← attempt (allocFreeRegionExact mapToAddr opts.size) with
      | .ok _ => return mapToAddr
      | .error _ => return (← allocFreeRegion opts.size opts.align).start
  | .map32Bit addrHint => do
      -- the hint is tried only when the whole region lies in the first 2 GiB
      match addrHint.filter (fun addr => (vmarLowestAddr ≤ addr ∧ addr < map32BitHighLimit) ∧
          opts.size ≤ map32BitHighLimit - addr) with
      | some addr => do
          match ← attempt (allocFreeRegionExact addr opts.size) with
          | .ok _ => return addr
          | .error _ => return (← allocFreeRegionBelow2Gib opts.size opts.align).start
      | none => return (← allocFreeRegionBelow2Gib opts.size opts.align).start
  | .any => return (← allocFreeRegion opts.size opts.align).start

/-- `MemfdInode::check_writable`: the `MAY_*` permissions it leaves. -/
def checkWritable (isSealed : Bool) (perms mayPerms : VmPerms) : Except Error VmPerms :=
  if isSealed then
    if perms.contains .write then
      .error (.withMessage .eperm "the file is sealed against writing")
    else .ok (mayPerms.remove .mayWrite)
  else .ok mayPerms

/-- The seal of the memfd whose writable mappings are tracked: shared mappings that may be
written. -/
def trackedSeal (opts : VmarMapOptions) : Option Bool :=
  if opts.mapMode.isShared && opts.mayPerms.contains .mayWrite then
    opts.file.bind (·.memfdSealed)
  else none

/-- `MappedVmo::new`. -/
def newMappedVmo (ctx : Context) (vmo : VmoId) (offset : ℕ) (isWritableTracked : Bool) :
    Except Error MappedVmo :=
  if isWritableTracked && ctx.writableDenied vmo then
    .error (.withMessage .eperm "writable mappings have been denied")
  else .ok ⟨vmo, offset, isWritableTracked⟩

/-- The `MappedMemory` of `build`, the `MAY_*` permissions that remain, and the device to populate
the mapping from. -/
def prepareMappedMemory (ctx : Context) (opts : VmarMapOptions) :
    VmarM (MappedMemory × VmPerms × Option (Except Error MappedObject)) :=
  match opts.mappable with
  | some (.vmo vmo) => do
      require (∀ file ∈ opts.file, file.pageCache = some vmo)
      match opts.trackedSeal with
      | some isSealed => do
          let mayPerms ← ofExcept (checkWritable isSealed opts.perms opts.mayPerms)
          let mapped ← ofExcept (newMappedVmo ctx vmo opts.vmoOffset true)
          return (.vmo mapped, mayPerms, none)
      | none => do
          let mapped ← ofExcept (newMappedVmo ctx vmo opts.vmoOffset false)
          return (.vmo mapped, opts.mayPerms, none)
  | some (.device map) => do
      failIf (!opts.mapMode.isShared)
        (.withMessage .einval "private device mappings are not yet supported")
      return (.anonymous, opts.mayPerms, some map)
  | none => return (.anonymous, opts.mayPerms, none)

/-- `VmMapping::new` with the `NonZeroUsize::new(map_size).unwrap()` of its caller. -/
def newMapping (opts : VmarMapOptions) (mapToAddr : ℕ) (mappedMem : MappedMemory)
    (mayPerms : VmPerms) : Option VmMapping :=
  if h : 0 < opts.size then
    some
      { mapSize := opts.size
        mapToAddr := mapToAddr
        mappedMem := mappedMem
        file := opts.file
        mapMode := opts.mapMode
        handlePageFaultsAround := opts.handlePageFaultsAround
        perms := opts.perms ||| mayPerms
        mapSize_pos := h }
  else none

/-- `VmMapping::populate_device`: the device is asked for its memory, and may refuse. -/
def populateDevice (m : VmMapping) (device : Option (Except Error MappedObject)) :
    VmarM VmMapping :=
  match device with
  | none => return m
  | some map => do
      let mapped ← ofExcept map
      return { m with mappedMem := .device mapped }

/-- `VmarMapOptions::build`: the options are checked, a region is found and the mapping is
inserted. -/
def build (ctx : Context) (self : VmarId) (opts : VmarMapOptions) : VmarM ℕ := do
  opts.checkOptions
  opts.checkFitsRlimit ctx
  let mapToAddr ← opts.allocRegion self
  let (mappedMem, mayPerms, device) ← opts.prepareMappedMemory ctx
  let m ← ofOption (opts.newMapping mapToAddr mappedMem mayPerms)
  let rmap := m.vmoForRmap
  let m ← populateDevice m device
  insertTryMerge self m rmap
  return mapToAddr

end VmarMapOptions

/-! ## Unmapping and protecting -/

/-- `Vmar::remove_mapping`: what is mapped in a range is unmapped. -/
def removeMapping (self : VmarId) (r : Range ℕ) : VmarM Unit := do
  require (pageSize ∣ r.start ∧ pageSize ∣ r.stop)
  let _ ← allocFreeRegionExactTruncate self r.start (r.stop - r.start)
  return ()

/-- The loop of `Vmar::clear`, which drops the mappings from the reverse maps. -/
def clearLoop (self : VmarId) : List VmMapping → VmarM Unit
  | [] => pure ()
  | m :: rest => do
      removeRmapEntry self m.mapToAddr m.vmoForRmap
      clearLoop self rest

/-- `Vmar::clear`.  It does not touch `total_vm`. -/
def clear (self : VmarId) : VmarM Unit := do
  let mappings ← getMappings
  clearLoop self mappings.iter
  modifyMappings fun _ => .new

/-- What `Vmar::protect` does with a mapping it has taken out: the part inside the range gets the
new permissions, and everything is put back. -/
def protectPart (self : VmarId) (r : Range ℕ) (newPerms : VmPerms) (m : VmMapping)
    (rmap : Option VmoId) : VmarM Unit := do
  let intersected ← ofOption (getIntersectedRange r (range m))
  let (left, taken, right) ← ofOption (m.splitRange intersected)
  insertRest self left rmap
  insertRest self right rmap
  insertTryMerge self (taken.protect newPerms) rmap

/-- The loop of `Vmar::protect` over the ranges and permissions of the mappings it met, which
returns the end of the last one. -/
def protectLoop (self : VmarId) (perms : VmPerms) (r : Range ℕ) :
    ℕ → List (Range ℕ × VmPerms) → VmarM ℕ
  | lastMappingEnd, [] => return lastMappingEnd
  | lastMappingEnd, (mappingRange, mappingPerms) :: rest => do
      failIf (lastMappingEnd < mappingRange.start)
        (.withMessage .enomem "the range contains pages that are not mapped")
      if perms = mappingPerms &&& .allPerms then
        protectLoop self perms r mappingRange.stop rest
      else do
        let newPerms := perms ||| (mappingPerms &&& .allMayPerms)
        ofExcept newPerms.check
        match ← remove mappingRange.start with
        | none => protectLoop self perms r mappingRange.stop rest
        | some (m, rmap) => do
            removeRmapEntry self mappingRange.start rmap
            protectPart self r newPerms m rmap
            protectLoop self perms r mappingRange.stop rest

/-- `Vmar::protect`: the permissions in a range change, up to the first address that is not
mapped. -/
def protect (self : VmarId) (perms : VmPerms) (r : Range ℕ) : VmarM Unit := do
  require (pageSize ∣ r.start ∧ pageSize ∣ r.stop)
  let mappings ← getMappings
  let lastMappingEnd ← protectLoop self perms r r.start
    ((mappings.find r).map fun m => (range m, m.perms))
  failIf (lastMappingEnd < r.stop)
    (.withMessage .enomem "the range contains pages that are not mapped")

/-! ## Resizing and moving -/

/-- `Vmar::resize_mapping`: a range of one mapping, or of several, is resized. -/
def resizeMapping (ctx : Context) (self : VmarId) (mapAddr oldSize newSize : ℕ)
    (checkSingleMapping : Bool) : VmarM Unit := do
  if checkSingleMapping then
    let _ ← checkLiesInSingleMapping mapAddr oldSize
    VmarInner.resizeMapping ctx self mapAddr oldSize newSize
  else
    let mappings ← getMappings
    failIf (mappings.findOne mapAddr = none)
      (.withMessage .efault "there is no mapping at the old address")
    VmarInner.resizeMapping ctx self mapAddr oldSize newSize

/-- `RemapOldMappingAction`: what becomes of the range that is moved. -/
inductive RemapOldMappingAction
  | unmap
  | keep
deriving DecidableEq

/-- The checks of the new range in `Vmar::remap`. -/
def checkNewRange (oldAddr oldSize : ℕ) (newAddr : Option ℕ) (newSize : ℕ) : VmarM Unit :=
  match newAddr with
  | none => pure ()
  | some newAddr => do
      failIf (¬ pageSize ∣ newAddr ∨ !isUserspaceVaddrRange newAddr newSize)
        (.withMessage .einval "remap: the new range is not aligned or not in userspace")
      failIf (isIntersected ⟨oldAddr, min (oldAddr + oldSize) (usizeModulus - 1)⟩
          ⟨newAddr, newAddr + newSize⟩)
        (.withMessage .einval "remap: the new range overlaps with the old one")

/-- The check of the file offset in `Vmar::remap`, for a mapping that grows. -/
def checkFileOffset (oldMapping : VmMapping) (oldAddr newSize : ℕ) : VmarM Unit :=
  match oldMapping.vmo with
  | none => pure ()
  | some vmo => do
      let offset ← ofOption (usizeAdd vmo.offset (oldAddr - oldMapping.mapToAddr))
      failIf (usizeAdd offset newSize = none)
        (.withMessage .einval "remap: the file offset overflows")

/-- The checks of the old mapping in `Vmar::remap`. -/
def checkOldMapping (ctx : Context) (oldAddr oldSize newSize : ℕ) : VmarM Unit := do
  let mappings ← getMappings
  match mappings.findOne oldAddr with
  | none => Exec.throw (.withMessage .efault "remap: there is no mapping at the old address")
  | some oldMapping =>
    if oldSize < newSize then do
      failIf (!oldMapping.canExpand)
        (.withMessage .efault "remap: device mappings cannot be expanded")
      checkFileOffset oldMapping oldAddr newSize
      checkExtraSizeFitsRlimit ctx (newSize - oldSize)
    else pure ()

section

variable (self : VmarId)

/-- The fast path of `Vmar::remap`: the old mapping grows in place. -/
def expandInPlace (oldAddr oldSize newSize : ℕ) : VmarM ℕ := do
  let oldMappingAddr ← checkLiesInSingleMapping oldAddr oldSize
  enlargeMapping self oldMappingAddr (newSize - oldSize)
  return oldAddr

/-- The last part of `Vmar::remap`: the mapping of the old range is moved, or copied, to the new
range. -/
def moveMapping (oldAddr oldSize newStart newSize : ℕ)
    (action : RemapOldMappingAction) : VmarM ℕ := do
  let oldMappingAddr ← checkLiesInSingleMapping oldAddr oldSize
  match action with
  | .unmap => do
      let (m, rmap) ← removeWithRmap self oldMappingAddr
      let (left, oldMapping, right) ← ofOption (m.splitRange ⟨oldAddr, oldAddr + oldSize⟩)
      insertRest self left rmap
      insertRest self right rmap
      let newMapping := oldMapping.cloneForRemapAt newStart
      insertTryMerge self (newMapping.enlarge (newSize - oldSize)) rmap
      return newStart
  | .keep => do
      let mappings ← getMappings
      let oldMapping ← ofOption (mappings.findOne oldMappingAddr)
      let newMapping ← ofOption
        (oldMapping.cloneRangeForRemapAt ⟨oldAddr, oldAddr + oldSize⟩ newStart)
      insertTryMerge self (newMapping.enlarge (newSize - oldSize)) oldMapping.vmoForRmap
      return newStart

/-- The part of `Vmar::remap` that shrinks the old range first; the old size that remains. -/
def shrinkOldRange (oldAddr oldSize newSize : ℕ) : VmarM ℕ := do
  failIf (usizeModulus ≤ oldAddr + oldSize)
    (.withMessage .einval "remap: the address range overflows")
  if newSize < oldSize then do
    let _ ← allocFreeRegionExactTruncate self (oldAddr + newSize) (oldSize - newSize)
    return newSize
  else return oldSize

/-- The search for a new place in `Vmar::remap`, and the move to it. -/
def moveAnywhere (oldAddr oldSize newSize : ℕ) (action : RemapOldMappingAction) :
    VmarM ℕ := do
  let newRange ← allocFreeRegion newSize pageSize
  moveMapping self oldAddr oldSize newRange.start newSize action

end

/-- `Vmar::remap`: a range is resized in place or moved. -/
def remap (ctx : Context) (self : VmarId) (oldAddr oldSize : ℕ) (newAddr : Option ℕ)
    (newSize : ℕ) (action : RemapOldMappingAction) : VmarM ℕ := do
  require (pageSize ∣ oldAddr ∧ pageSize ∣ oldSize ∧ pageSize ∣ newSize)
  checkNewRange oldAddr oldSize newAddr newSize
  checkOldMapping ctx oldAddr oldSize newSize
  let oldSize ← shrinkOldRange self oldAddr oldSize newSize
  match newAddr with
  | some newAddr => do
      let newRange ← allocFreeRegionExactTruncate self newAddr newSize
      moveMapping self oldAddr oldSize newRange.start newSize action
  | none =>
    if action = .unmap ∧ isUserspaceVaddrRange oldAddr newSize then do
      match ← attempt (allocFreeRegionExact (oldAddr + oldSize) (newSize - oldSize)) with
      | .ok _ => expandInPlace self oldAddr oldSize newSize
      | .error _ => moveAnywhere self oldAddr oldSize newSize action
    else moveAnywhere self oldAddr oldSize newSize action

/-! ## Forking -/

/-- The loop of `Vmar::fork_from`, which inserts the clone of each mapping into the new VMAR. -/
def forkLoop (newVmar : VmarId) : List VmMapping → VmarM Unit
  | [] => pure ()
  | m :: rest => do
      insertWithoutTryMerge newVmar m.newFork m.vmoForRmap
      forkLoop newVmar rest

/-- `Vmar::fork_from`, run in the new and still empty VMAR. -/
def forkFrom (newVmar : VmarId) (inner : VmarInner) : VmarM Unit :=
  forkLoop newVmar inner.vmMappings.iter

end Asterinas.Vmar
