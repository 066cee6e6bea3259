import Asterinas.Vmar.IntervalSet

/-!
# Memory mappings (`vm_mapping.rs`, `perms.rs`, `util.rs`)

`VmMapping` with the operations that make one mapping out of another: enlarging, splitting,
merging and cloning.  `Option` stands for the assertions on the way, `none` being a panic: a failed
`debug_assert!`, an `unwrap` of `None`, or an addition that leaves `usize`.

Page tables, resident-set counters and the counters of tracked writable mappings are not part of
this model; the operations on them never decide what happens to a mapping.
-/

namespace Asterinas.Vmar

open Option

/-- The number of values of `usize`. -/
def usizeModulus : ℕ := 2 ^ 64

/-- `+` on `usize`, which panics when the sum is not a `usize`. -/
def usizeAdd (a b : ℕ) : Option ℕ := if a + b < usizeModulus then some (a + b) else none

lemma usizeAdd_eq_some {a b c : ℕ} : usizeAdd a b = some c ↔ a + b < usizeModulus ∧ c = a + b := by
  unfold usizeAdd
  split <;> simp [*, eq_comm]

/-! ## Ranges of addresses -/

/-- `is_intersected`: the ranges have an address in common. -/
def isIntersected (range1 range2 : Range ℕ) : Bool :=
  decide (max range1.start range2.start < min range1.stop range2.stop)

/-- `get_intersected_range`: what the ranges have in common, if anything. -/
def getIntersectedRange (range1 range2 : Range ℕ) : Option (Range ℕ) :=
  if isIntersected range1 range2 then
    some ⟨max range1.start range2.start, min range1.stop range2.stop⟩
  else none

/-! ## Permissions -/

/-- `VmPerms`: `READ`, `WRITE` and `EXEC` from bit 0 up, then the `MAY_*` bit of each. -/
structure VmPerms where
  bits : BitVec 6
deriving DecidableEq

namespace VmPerms

/-- `VmPerms::READ`: loads are permitted. -/
def read : VmPerms := ⟨1⟩

/-- `VmPerms::WRITE`: stores are permitted. -/
def write : VmPerms := ⟨2⟩

/-- `VmPerms::EXEC`: instructions may be fetched. -/
def exec : VmPerms := ⟨4⟩

/-- `VmPerms::MAY_WRITE`: stores can become permitted. -/
def mayWrite : VmPerms := ⟨16⟩

/-- `VmPerms::ALL_PERMS`: what is permitted. -/
def allPerms : VmPerms := ⟨7⟩

/-- `VmPerms::ALL_MAY_PERMS`: what can become permitted. -/
def allMayPerms : VmPerms := ⟨56⟩

instance : OrOp VmPerms := ⟨fun a b => ⟨a.bits ||| b.bits⟩⟩

instance : AndOp VmPerms := ⟨fun a b => ⟨a.bits &&& b.bits⟩⟩

/-- `contains` of the `bitflags` crate. -/
def contains (a b : VmPerms) : Bool := a &&& b == b

/-- `remove` of the `bitflags` crate. -/
def remove (a b : VmPerms) : VmPerms := ⟨a.bits &&& ~~~ b.bits⟩

/-- `VmPerms::check`: every requested permission is allowed by its `MAY_*` bit. -/
def check (p : VmPerms) : Except Error Unit :=
  let requested := p &&& allPerms
  let allowed : VmPerms := ⟨(p &&& allMayPerms).bits >>> 3⟩
  if allowed.contains requested then .ok () else .error (.withMessage .eacces "permission denied")

end VmPerms

/-! ## What a mapping maps -/

/-- A VMO, as its identity (`Arc<Vmo>` compared with `Arc::ptr_eq`). -/
abbrev VmoId := ℕ

/-- `MappedVmo`: a VMO and where the mapping starts in it. -/
structure MappedVmo where
  vmo : VmoId
  offset : ℕ
  isWritableTracked : Bool
deriving DecidableEq

/-- The implementations of `MappedObject`: GEM objects in shared memory, with the offset inside
the object, and the framebuffer, which keeps none. -/
inductive MappedObject
  | gemShmem (backend objectOffset : ℕ)
  | framebuffer
deriving DecidableEq

/-- `MappedObject::dup_at_offset`: the object, from a later offset on. -/
def MappedObject.dupAtOffset : MappedObject → ℕ → Option MappedObject
  | gemShmem backend objectOffset, offset => (usizeAdd objectOffset offset).map (gemShmem backend)
  | framebuffer, _ => some framebuffer

/-- `MappedMemory`: what is behind a mapping. -/
inductive MappedMemory
  | anonymous
  | vmo (mapped : MappedVmo)
  | device (mapped : MappedObject)
deriving DecidableEq

/-- `MappedMemory::dup_at_offset`: what is behind the rest of a mapping; `none` is a panic. -/
def MappedMemory.dupAtOffset (mem : MappedMemory) (offset : ℕ) : Option MappedMemory :=
  if pageSize ∣ offset then
    match mem with
    | anonymous => some anonymous
    | vmo mapped => (usizeAdd offset mapped.offset).map fun newOffset =>
      vmo { mapped with offset := newOffset }
    | device mapped => (mapped.dupAtOffset offset).map device
  else none

/-- A file that backs mappings: its identity, its page cache, and for a memfd whether it is sealed
against writing (`F_SEAL_WRITE` or `F_SEAL_FUTURE_WRITE`). -/
structure FileLike where
  id : ℕ
  pageCache : Option VmoId
  memfdSealed : Option Bool
deriving DecidableEq

/-- `MmapMode`: whether stores are seen by others. -/
inductive MmapMode
  | priv
  | shared
deriving DecidableEq

/-- `MmapMode::is_shared`. -/
def MmapMode.isShared (mode : MmapMode) : Bool := mode == shared

/-! ## Mappings -/

/-- `VmMapping`.  Its size is a `NonZeroUsize`. -/
structure VmMapping where
  mapSize : ℕ
  mapToAddr : ℕ
  mappedMem : MappedMemory
  file : Option FileLike
  mapMode : MmapMode
  handlePageFaultsAround : Bool
  perms : VmPerms
  mapSize_pos : 0 < mapSize
deriving DecidableEq

namespace VmMapping

section

variable (m : VmMapping)

/-- `VmMapping::map_end`: where the mapping ends. -/
def mapEnd : ℕ := m.mapToAddr + m.mapSize

instance : Interval ℕ VmMapping where
  range m := ⟨m.mapToAddr, m.mapEnd⟩

@[simp] lemma range_start : (range m).start = m.mapToAddr := rfl

@[simp] lemma range_stop : (range m).stop = m.mapEnd := rfl

lemma mapToAddr_lt_mapEnd : m.mapToAddr < m.mapEnd := by
  have := m.mapSize_pos
  unfold mapEnd
  omega

/-- `VmMapping::vmo`: the VMO that is mapped, if one is. -/
def vmo : Option MappedVmo :=
  match m.mappedMem with
  | .vmo mapped => some mapped
  | _ => none

/-- `VmMapping::vmo_for_rmap`: the VMO of a shared mapping. -/
def vmoForRmap : Option VmoId :=
  match m.mappedMem with
  | .vmo mapped => if m.mapMode.isShared then some mapped.vmo else none
  | _ => none

/-- `VmMapping::can_expand`: device mappings cannot be expanded. -/
def canExpand : Bool :=
  match m.mappedMem with
  | .device _ => false
  | _ => true

/-- `VmMapping::new_fork`: the mapping in the child, which is the same. -/
def newFork : VmMapping := m

/-- `VmMapping::clone_for_remap_at`: the mapping at another address. -/
def cloneForRemapAt (va : ℕ) : VmMapping := { m.newFork with mapToAddr := va }

/-- `VmMapping::clone_range_for_remap_at`: a part of the mapping at another address; `none` is a
panic. -/
def cloneRangeForRemapAt (r : Range ℕ) (va : ℕ) : Option VmMapping :=
  if h : m.mapToAddr ≤ r.start ∧ r.start < r.stop then
    (m.mappedMem.dupAtOffset (r.start - m.mapToAddr)).map fun mappedMem =>
      { m with
        mapSize := r.stop - r.start
        mapToAddr := va
        mappedMem := mappedMem
        mapSize_pos := by omega }
  else none

/-- `VmMapping::enlarge`: the mapping ends later. -/
def enlarge (extraSize : ℕ) : VmMapping :=
  { m with mapSize := m.mapSize + extraSize, mapSize_pos := by have := m.mapSize_pos; omega }

/-- The part of `VmMapping::protect` outside the page table. -/
def protect (perms : VmPerms) : VmMapping := { m with perms := perms }

/-- `VmMapping::split`: the two parts of a mapping; `none` is a panic. -/
def split (addr : ℕ) : Option (VmMapping × VmMapping) :=
  if h : (m.mapToAddr < addr ∧ addr < m.mapEnd) ∧ pageSize ∣ addr then
    (m.mappedMem.dupAtOffset (addr - m.mapToAddr)).map fun rMappedMem =>
      ({ m with
          mapSize := addr - m.mapToAddr
          mapSize_pos := by omega },
        { m with
          mapSize := m.mapSize - (addr - m.mapToAddr)
          mapToAddr := addr
          mappedMem := rMappedMem
          mapSize_pos := by unfold mapEnd at h; omega })
  else none

/-- `VmMapping::split_range`: the parts before, inside and after the range. -/
def splitRange (r : Range ℕ) : Option (Option VmMapping × VmMapping × Option VmMapping) :=
  if r.start ≤ m.mapToAddr ∧ m.mapEnd ≤ r.stop then
    some (none, m, none)
  else if m.mapToAddr < r.start then do
    let (left, within) ← m.split r.start
    if r.stop < m.mapEnd then
      let (within, right) ← within.split r.stop
      return (some left, within, some right)
    else
      return (some left, within, none)
  else if m.mapToAddr ≤ r.stop ∧ r.stop < m.mapEnd then do
    let (within, right) ← m.split r.stop
    return (none, within, some right)
  else none

end

/-- The memory of two mappings that lie side by side in a VMO or are both anonymous, in
`try_merge`: `some none` when they do not fit together. -/
def mergedMem (left right : VmMapping) : Option (Option MappedMemory) :=
  match left.mappedMem, right.mappedMem with
  | .anonymous, .anonymous => some (some .anonymous)
  | .vmo l, .vmo r =>
    if l.vmo = r.vmo then
      (usizeAdd l.offset left.mapSize).map fun lEnd =>
        if lEnd = r.offset then some (.vmo l) else none
    else some none
  | _, _ => some none

/-- `try_merge`: `some none` when the two cannot be merged. -/
def tryMerge (left right : VmMapping) : Option (Option VmMapping) :=
  let isAdjacent := left.mapEnd = right.mapToAddr
  let isTypeEqual := left.mapMode = right.mapMode ∧
    left.handlePageFaultsAround = right.handlePageFaultsAround ∧ left.perms = right.perms ∧
    left.file.map (·.id) = right.file.map (·.id)
  if isAdjacent ∧ isTypeEqual then
    (mergedMem left right).map fun mem => mem.map fun mappedMem =>
      { left with
        mapSize := left.mapSize + right.mapSize
        mappedMem := mappedMem
        mapSize_pos := by have := left.mapSize_pos; omega }
  else some none

/-- `VmMapping::try_merge_with`: the merged mapping and the address of the mapping it replaces, or
the mapping itself. -/
def tryMergeWith (m other : VmMapping) : Option (VmMapping × Option ℕ) :=
  if isIntersected (range m) (range other) then none
  else
    (if m.mapToAddr < other.mapToAddr then tryMerge m other else tryMerge other m).map
      fun
      | some merged => (merged, some other.mapToAddr)
      | none => (m, none)

/-! ### What the operations do to the range of a mapping -/

section

variable (m : VmMapping)

/-- A mapping that starts and ends at a page boundary. -/
def Aligned : Prop := pageSize ∣ m.mapToAddr ∧ pageSize ∣ m.mapEnd

instance (m : VmMapping) : Decidable m.Aligned := inferInstanceAs (Decidable (_ ∧ _))

lemma mapSize_eq : m.mapSize = m.mapEnd - m.mapToAddr := by
  unfold mapEnd
  omega

@[simp] lemma enlarge_mapToAddr (n : ℕ) : (m.enlarge n).mapToAddr = m.mapToAddr := rfl

@[simp] lemma enlarge_mapSize (n : ℕ) : (m.enlarge n).mapSize = m.mapSize + n := rfl

@[simp] lemma enlarge_mapEnd (n : ℕ) : (m.enlarge n).mapEnd = m.mapEnd + n := by
  simp [mapEnd, add_assoc]

@[simp] lemma enlarge_vmoForRmap (n : ℕ) : (m.enlarge n).vmoForRmap = m.vmoForRmap := rfl

end

/-- Another part of the same memory belongs to the same reverse map. -/
lemma vmoForRmap_of_dup {offset : ℕ} {m m' : VmMapping} (hmode : m'.mapMode = m.mapMode)
    (h : m.mappedMem.dupAtOffset offset = some m'.mappedMem) : m'.vmoForRmap = m.vmoForRmap := by
  unfold MappedMemory.dupAtOffset at h
  unfold vmoForRmap
  split_ifs at h
  cases hmem : m.mappedMem with
  | anonymous =>
    rw [hmem] at h
    rw [← some.inj h]
  | vmo mapped =>
    rw [hmem] at h
    obtain ⟨newOffset, -, heq⟩ := map_eq_some_iff.mp h
    rw [← heq, hmode]
  | device mapped =>
    rw [hmem] at h
    obtain ⟨dup, -, heq⟩ := map_eq_some_iff.mp h
    rw [← heq]

@[simp] lemma cloneForRemapAt_mapSize (m : VmMapping) (va : ℕ) :
    (m.cloneForRemapAt va).mapSize = m.mapSize := rfl

lemma cloneRangeForRemapAt_eq_some {r : Range ℕ} {va : ℕ} {m c : VmMapping}
    (h : m.cloneRangeForRemapAt r va = some c) :
    r.start < r.stop ∧ c.mapToAddr = va ∧ c.mapSize = r.stop - r.start ∧
      c.vmoForRmap = m.vmoForRmap := by
  unfold cloneRangeForRemapAt at h
  split at h
  · rename_i hr
    obtain ⟨mem, hmem, rfl⟩ := map_eq_some_iff.mp h
    exact ⟨hr.2, rfl, rfl, vmoForRmap_of_dup rfl hmem⟩
  · cases h

lemma split_eq_some {addr : ℕ} {m left right : VmMapping} (h : m.split addr = some (left, right)) :
    (m.mapToAddr < addr ∧ addr < m.mapEnd) ∧ pageSize ∣ addr ∧
      left.mapToAddr = m.mapToAddr ∧ left.mapEnd = addr ∧
      right.mapToAddr = addr ∧ right.mapEnd = m.mapEnd ∧
      left.vmoForRmap = m.vmoForRmap ∧ right.vmoForRmap = m.vmoForRmap := by
  unfold split at h
  split at h
  · rename_i hc
    obtain ⟨mem, hmem, heq⟩ := map_eq_some_iff.mp h
    obtain ⟨rfl, rfl⟩ := Prod.mk.injEq .. ▸ heq
    refine ⟨hc.1, hc.2, rfl, ?_, rfl, ?_, rfl, vmoForRmap_of_dup rfl hmem⟩
    · simp only [mapEnd]
      omega
    · unfold mapEnd at hc ⊢
      simp only
      omega
  · cases h

/-- The parts that `split_range` makes of a mapping around a range inside it. -/
structure SplitOf (m : VmMapping) (r : Range ℕ) (left : Option VmMapping) (taken : VmMapping)
    (right : Option VmMapping) : Prop where
  taken_start : taken.mapToAddr = r.start
  taken_end : taken.mapEnd = r.stop
  left_some : ∀ x ∈ left, x.mapToAddr = m.mapToAddr ∧ x.mapEnd = r.start
  left_none : left = none → r.start = m.mapToAddr
  right_some : ∀ x ∈ right, x.mapToAddr = r.stop ∧ x.mapEnd = m.mapEnd
  right_none : right = none → r.stop = m.mapEnd
  aligned : m.Aligned → pageSize ∣ r.start ∧ pageSize ∣ r.stop
  taken_rmap : taken.vmoForRmap = m.vmoForRmap
  left_rmap : ∀ x ∈ left, x.vmoForRmap = m.vmoForRmap
  right_rmap : ∀ x ∈ right, x.vmoForRmap = m.vmoForRmap

lemma splitRange_eq_some {r : Range ℕ} {left right : Option VmMapping} {m taken : VmMapping}
    (hstart : m.mapToAddr ≤ r.start) (hstop : r.stop ≤ m.mapEnd)
    (h : m.splitRange r = some (left, taken, right)) : m.SplitOf r left taken right := by
  unfold splitRange at h
  split_ifs at h with hall hbefore hlt hafter <;> simp only [bind_eq_bind, bind_eq_some_iff,
    Prod.exists, pure_def, some.injEq, Prod.mk.injEq] at h
  · obtain ⟨rfl, rfl, rfl⟩ := h
    have hs : r.start = m.mapToAddr := by omega
    have he : r.stop = m.mapEnd := by omega
    exact ⟨hs.symm, he.symm, by simp, fun _ => hs, by simp, fun _ => he,
      fun ha => hs.symm ▸ he.symm ▸ ha, rfl, by simp, by simp⟩
  · obtain ⟨l, within, hsplit, w, rt, hsplit', rfl, rfl, rfl⟩ := h
    obtain ⟨-, hdvd, hls, hle, hws, hwe, hlm, hwm⟩ := split_eq_some hsplit
    obtain ⟨-, hdvd', hws', hwe', hrs, hre, hwm', hrm⟩ := split_eq_some hsplit'
    refine ⟨hws'.trans hws, hwe', ?_, by simp, ?_, by simp, fun _ => ⟨hdvd, hdvd'⟩,
      hwm'.trans hwm, by simp [hlm], by simp [hrm, hwm]⟩
    · rintro x ⟨⟩
      exact ⟨hls, hle⟩
    · rintro x ⟨⟩
      exact ⟨hrs, hre.trans hwe⟩
  · obtain ⟨l, within, hsplit, rfl, rfl, rfl⟩ := h
    obtain ⟨-, hdvd, hls, hle, hws, hwe, hlm, hwm⟩ := split_eq_some hsplit
    have he : r.stop = m.mapEnd := by omega
    refine ⟨hws, hwe.trans he.symm, ?_, by simp, by simp, fun _ => he,
      fun ha => ⟨hdvd, he ▸ ha.2⟩, hwm, by simp [hlm], by simp⟩
    rintro x ⟨⟩
    exact ⟨hls, hle⟩
  · obtain ⟨within, rt, hsplit, rfl, rfl, rfl⟩ := h
    obtain ⟨-, hdvd, hws, hwe, hrs, hre, hwm, hrm⟩ := split_eq_some hsplit
    have hs : r.start = m.mapToAddr := by omega
    refine ⟨hws.trans hs.symm, hwe, by simp, fun _ => hs, ?_, by simp,
      fun ha => ⟨hs ▸ ha.1, hdvd⟩, hwm, by simp, by simp [hrm]⟩
    rintro x ⟨⟩
    exact ⟨hrs, hre⟩

/-- Mappings that are merged belong to the same reverse map. -/
lemma vmoForRmap_of_mergedMem {left right : VmMapping} {mem : MappedMemory}
    (hmode : left.mapMode = right.mapMode) (h : mergedMem left right = some (some mem)) :
    VmMapping.vmoForRmap { left with mappedMem := mem } = left.vmoForRmap ∧
      right.vmoForRmap = left.vmoForRmap := by
  unfold mergedMem at h
  unfold vmoForRmap
  split at h
  · simp_all
  · rename_i hl hr
    split_ifs at h with hvmo
    · obtain ⟨lEnd, -, heq⟩ := map_eq_some_iff.mp h
      split_ifs at heq
      simp [← some.inj heq, hl, hr, hmode, hvmo]
    · cases h
  · cases h

lemma tryMerge_eq_some {left right merged : VmMapping}
    (h : tryMerge left right = some (some merged)) :
    left.mapEnd = right.mapToAddr ∧ merged.mapToAddr = left.mapToAddr ∧
      merged.mapSize = left.mapSize + right.mapSize ∧
      merged.vmoForRmap = left.vmoForRmap ∧ right.vmoForRmap = left.vmoForRmap := by
  unfold tryMerge at h
  simp only at h
  split_ifs at h with hc
  · obtain ⟨mem, hmerged, hmem⟩ := map_eq_some_iff.mp h
    obtain ⟨mappedMem, rfl, rfl⟩ := map_eq_some_iff.mp hmem
    exact ⟨hc.1, rfl, rfl, vmoForRmap_of_mergedMem hc.2.1 hmerged⟩
  · cases h

/-- A merge joins a mapping with one that ends where it starts or starts where it ends. -/
lemma tryMergeWith_eq_some {toRemove : Option ℕ} {m other merged : VmMapping}
    (h : m.tryMergeWith other = some (merged, toRemove)) :
    (toRemove = none ∧ merged = m) ∨
      (toRemove = some other.mapToAddr ∧ merged.mapSize = m.mapSize + other.mapSize ∧
        (merged.vmoForRmap = m.vmoForRmap ∧ other.vmoForRmap = m.vmoForRmap) ∧
        (m.mapEnd = other.mapToAddr ∧ merged.mapToAddr = m.mapToAddr ∨
          other.mapEnd = m.mapToAddr ∧ merged.mapToAddr = other.mapToAddr)) := by
  unfold tryMergeWith at h
  split_ifs at h with _ hlt
  all_goals
    obtain ⟨o, ho, heq⟩ := map_eq_some_iff.mp h
    cases o with
    | none =>
      obtain ⟨rfl, rfl⟩ := Prod.mk.injEq .. ▸ heq
      exact .inl ⟨rfl, rfl⟩
    | some x =>
      obtain ⟨rfl, rfl⟩ := Prod.mk.injEq .. ▸ heq
      obtain ⟨hadj, haddr, hsize, hmerged, hright⟩ := tryMerge_eq_some ho
      refine .inr ⟨rfl, by omega, by simp [hmerged, hright], ?_⟩
      first
      | exact .inl ⟨hadj, haddr⟩
      | exact .inr ⟨hadj, haddr⟩

end VmMapping

/-! ## What the pages of a mapping show -/

/-- The object behind a page, with the offset in it.  Anonymous memory has neither, and a mapping
of the framebuffer, whose I/O memory is in the page table from the start, keeps no offset. -/
inductive Backing
  | anonymous
  | vmo (vmo : VmoId) (offset : ℕ)
  | gemShmem (backend offset : ℕ)
  | framebuffer
deriving DecidableEq

/-- What lies `offset` bytes behind the start of a memory. -/
def MappedMemory.backingAt : MappedMemory → ℕ → Backing
  | anonymous, _ => .anonymous
  | vmo mapped, offset => .vmo mapped.vmo (mapped.offset + offset)
  | device (.gemShmem backend objectOffset), offset => .gemShmem backend (objectOffset + offset)
  | device .framebuffer, _ => .framebuffer

/-- What is mapped at a page: the object with the offset in it, the permissions, the sharing mode
and the identity of the file. -/
structure Page where
  backing : Backing
  perms : VmPerms
  mapMode : MmapMode
  file : Option ℕ
deriving DecidableEq

lemma MappedMemory.backingAt_of_dup {offset : ℕ} {mem mem' : MappedMemory}
    (h : mem.dupAtOffset offset = some mem') (n : ℕ) :
    mem'.backingAt n = mem.backingAt (offset + n) := by
  unfold dupAtOffset at h
  split_ifs at h
  match mem, h with
  | anonymous, rfl => rfl
  | vmo mapped, h =>
    obtain ⟨newOffset, hadd, rfl⟩ := map_eq_some_iff.mp h
    obtain ⟨-, rfl⟩ := usizeAdd_eq_some.mp hadd
    simp only [backingAt]
    congr 1
    omega
  | device .framebuffer, rfl => rfl
  | device (.gemShmem backend objectOffset), h =>
    obtain ⟨dup, hdup, rfl⟩ := map_eq_some_iff.mp h
    obtain ⟨newOffset, hadd, rfl⟩ := map_eq_some_iff.mp hdup
    obtain ⟨-, rfl⟩ := usizeAdd_eq_some.mp hadd
    simp only [backingAt, add_assoc]

namespace VmMapping

/-- The page of a mapping at an address. -/
def pageAt (m : VmMapping) (addr : ℕ) : Page :=
  ⟨m.mappedMem.backingAt (addr - m.mapToAddr), m.perms, m.mapMode, m.file.map (·.id)⟩

/-- The mapping has the page `page` at `addr`. -/
def Shows (m : VmMapping) (addr : ℕ) (page : Page) : Prop :=
  (m.mapToAddr ≤ addr ∧ addr < m.mapEnd) ∧ m.pageAt addr = page

/-- The two parts of a split mapping show what it showed. -/
lemma split_shows {addr a : ℕ} {page : Page} {m left right : VmMapping}
    (h : m.split addr = some (left, right)) :
    m.Shows a page ↔ left.Shows a page ∨ right.Shows a page := by
  unfold split at h
  split at h
  · rename_i hc
    obtain ⟨mem, hmem, heq⟩ := map_eq_some_iff.mp h
    obtain ⟨rfl, rfl⟩ := Prod.mk.injEq .. ▸ heq
    have hright : addr ≤ a → mem.backingAt (a - addr) =
        m.mappedMem.backingAt (a - m.mapToAddr) := by
      intro ha
      rw [MappedMemory.backingAt_of_dup hmem]
      congr 1
      omega
    simp only [Shows, pageAt, mapEnd] at hc ⊢
    by_cases ha : addr ≤ a
    · rw [hright ha]
      grind
    · grind
  · cases h

lemma splitRange_shows {r : Range ℕ} {left right : Option VmMapping} {a : ℕ} {page : Page}
    {m taken : VmMapping} (h : m.splitRange r = some (left, taken, right)) : m.Shows a page ↔
      (∃ x ∈ left, x.Shows a page) ∨ taken.Shows a page ∨ ∃ x ∈ right, x.Shows a page := by
  unfold splitRange at h
  split_ifs at h
  all_goals simp only [bind_eq_bind, bind_eq_some_iff, Prod.exists, pure_def, some.injEq,
    Prod.mk.injEq] at h
  · obtain ⟨rfl, rfl, rfl⟩ := h
    simp
  · obtain ⟨l, within, hsplit, w, rt, hsplit', rfl, rfl, rfl⟩ := h
    simp [split_shows hsplit, split_shows hsplit']
  · obtain ⟨l, within, hsplit, rfl, rfl, rfl⟩ := h
    simp [split_shows hsplit]
  · obtain ⟨within, rt, hsplit, rfl, rfl, rfl⟩ := h
    simp [split_shows hsplit]

/-- Memory that continues another is the other further on. -/
lemma mergedMem_backingAt {left right : VmMapping} {mem : MappedMemory}
    (h : mergedMem left right = some (some mem)) (n : ℕ) :
    mem.backingAt n = left.mappedMem.backingAt n ∧
      right.mappedMem.backingAt n = left.mappedMem.backingAt (left.mapSize + n) := by
  unfold mergedMem at h
  split at h
  · rename_i hl hr
    simp only [some.injEq] at h
    rw [hl, hr, ← h]
    exact ⟨rfl, rfl⟩
  · rename_i l r hl hr
    split_ifs at h with hvmo
    · obtain ⟨lEnd, hadd, heq⟩ := map_eq_some_iff.mp h
      obtain ⟨-, rfl⟩ := usizeAdd_eq_some.mp hadd
      split_ifs at heq with hoff
      rw [hl, hr, ← some.inj heq]
      simp only [MappedMemory.backingAt, hvmo, ← hoff, add_assoc, and_self]
    · cases h
  · cases h

lemma tryMerge_shows {left right merged : VmMapping} {a : ℕ} {page : Page}
    (h : tryMerge left right = some (some merged)) :
    merged.Shows a page ↔ left.Shows a page ∨ right.Shows a page := by
  unfold tryMerge at h
  simp only at h
  split_ifs at h with hc
  · obtain ⟨mem, hmerged, hmem⟩ := map_eq_some_iff.mp h
    obtain ⟨mappedMem, rfl, rfl⟩ := map_eq_some_iff.mp hmem
    obtain ⟨hadj, hmode, -, hperms, hfile⟩ := hc
    have hleft := (mergedMem_backingAt hmerged (a - left.mapToAddr)).1
    have hright := (mergedMem_backingAt hmerged (a - right.mapToAddr)).2
    simp only [Shows, pageAt, mapEnd, hleft, hright, ← hmode, ← hperms, ← hfile] at hadj ⊢
    by_cases ha : right.mapToAddr ≤ a
    · rw [show left.mapSize + (a - right.mapToAddr) = a - left.mapToAddr by omega]
      grind
    · grind
  · cases h

/-- A merged mapping shows what the two showed. -/
lemma tryMergeWith_shows {merged : VmMapping} {addr a : ℕ} {page : Page} {m other : VmMapping}
    (h : m.tryMergeWith other = some (merged, some addr)) :
    merged.Shows a page ↔ m.Shows a page ∨ other.Shows a page := by
  unfold tryMergeWith at h
  split_ifs at h
  all_goals
    obtain ⟨_ | x, ho, heq⟩ := map_eq_some_iff.mp h
    · cases heq
    · obtain ⟨rfl, -⟩ := Prod.mk.injEq .. ▸ heq
      simp only [tryMerge_shows ho, or_comm]

end VmMapping

end Asterinas.Vmar
