import Asterinas.Basic

/-!
# Virtual memory objects and their cached pages

A `Vmo` is a page-aligned size, a sparse array of cache pages, and, for a file's page cache,
the backend the pages are read from and written to.  A page is a state together with its
bytes; a byte that was never initialised is `none`, so that a page which is only partly
initialised is a value of the model and not an assumption away from it.

The functions here are the ones that bring pages into the cache and take them out of it:
`commitOnInternal`, `tryCommitWithCursor`, `collectPages` and `evictUpToDatePages`.
-/

namespace Asterinas.PageCache

/-! ## Pages -/

/-- The state of a page in the page cache. -/
inductive PageState
  /-- Newly allocated, content not initialised. -/
  | uninit
  /-- Content consistent with the disk. -/
  | upToDate
  /-- Content updated and not written back. -/
  | dirty
  /-- Taken out of the cache. -/
  | evicted
  deriving DecidableEq, Repr

/-- A cached page: its state and its bytes, `none` where nothing was ever stored. -/
structure CachePage where
  /-- `CachePageMeta::state`. -/
  state : PageState
  /-- The bytes of the frame, by offset below `pageSize`. -/
  bytes : ℕ → Option UInt8

namespace CachePage

/-- `CachePage::alloc_uninit`: a page with no content. -/
def allocUninit : CachePage := ⟨.uninit, fun _ => none⟩

/-- `CachePage::alloc_zero`: the page an anonymous VMO commits. -/
def allocZero : CachePage := ⟨.upToDate, fun _ => some 0⟩

/-- `set_dirty`: the page has content that is not written back. -/
def setDirty (page : CachePage) : CachePage := { page with state := .dirty }

/-- Every byte of the page holds a value. -/
def Full (page : CachePage) : Prop := ∀ off < pageSize, (page.bytes off).isSome

end CachePage

/-! ## Backends and VMOs -/

/-- The read side of a `PageCacheBackend`: the bytes of every page on the device, and the
pages the device fails to read. -/
structure Backend where
  /-- The byte at an offset of a page, as stored on the device. -/
  disk : ℕ → ℕ → UInt8
  /-- The error `read_page` ends with, for the pages it cannot read. -/
  readError : ℕ → Option Error
  /-- The pages for which no frame can be allocated. -/
  allocError : ℕ → Option Error

/-- A device that reads every page, with a frame for every page. -/
structure Backend.Reliable (backend : Backend) : Prop where
  /-- No read fails. -/
  readError : ∀ idx, backend.readError idx = none
  /-- No frame allocation fails. -/
  allocError : ∀ idx, backend.allocError idx = none

/-- The same device with other failures. -/
def Backend.withFaults (backend : Backend) (readError allocError : ℕ → Option Error) : Backend :=
  { backend with readError := readError, allocError := allocError }

/-- **A cached page that is consistent with its backend.**  An `UpToDate` page holds what the
device holds, and the page is not marked `Evicted` (such a page is removed from the `XArray`
before its lock is released). -/
structure CachePage.Consistent (page : CachePage) (backend : Backend) (idx : ℕ) : Prop where
  upToDate : page.state = .upToDate → ∀ off < pageSize, page.bytes off = some (backend.disk idx off)
  not_evicted : page.state ≠ .evicted

/-- A virtual memory object. -/
structure Vmo where
  /-- The backend; `none` for an anonymous VMO. -/
  backend : Option Backend
  /-- The size in bytes. -/
  size : ℕ
  /-- The pages present in the `XArray`. -/
  pages : ℕ → Option CachePage
  /-- `Vmo::size` is a page-aligned capacity. -/
  size_aligned : pageSize ∣ size

/-- How a page is committed. -/
inductive CommitMode
  | read
  | overwrite
  deriving DecidableEq, Repr

/-- `CommitMode::skips_backend_read`: the page is going to be overwritten, so it is not read. -/
def CommitMode.skipsBackendRead : CommitMode → Bool
  | .read => false
  | .overwrite => true

/-- Why a page could not be committed without blocking. -/
inductive VmoCommitError
  /-- A plain error. -/
  | err (e : Error)
  /-- The page is not present and has to be read. -/
  | needIo (index : ℕ)
  /-- The page is present but not initialised yet. -/
  | waitUntilInit (index : ℕ)

namespace Vmo

variable (vmo : Vmo)

/-- Replaces the entry of the `XArray` at an index. -/
def setEntry (idx : ℕ) (entry : Option CachePage) : Vmo :=
  { vmo with pages := Function.update vmo.pages idx entry }

/-- Stores a page at an index (`cursor.store`, or a write through a page handle). -/
def setPage (idx : ℕ) (page : CachePage) : Vmo := vmo.setEntry idx (some page)

/-- The same VMO on a device with other failures. -/
def withFaults (readError allocError : ℕ → Option Error) : Vmo :=
  { vmo with backend := vmo.backend.map fun backend => backend.withFaults readError allocError }

/-- `has_backend`: there is a file system behind the pages. -/
def hasBackend : Bool := vmo.backend.isSome

/-! ## Committing pages -/

/-- The `ensure_init` of a page of a VMO with a backend: an uninitialised page is read from
the device, and stays uninitialised when the read fails. -/
def ensureInit (backend : Backend) (idx : ℕ) (page : CachePage) : Except Error Unit × Vmo :=
  match page.state with
  | .uninit =>
    match backend.readError idx with
    | some e => (.error e, vmo)
    | none => (.ok (), vmo.setPage idx ⟨.upToDate, fun off => some (backend.disk idx off)⟩)
  | _ => (.ok (), vmo)

/-- `BackedVmo::commit_on_internal`. -/
def commitOnBacked (backend : Backend) (idx : ℕ) (mode : CommitMode) : Except Error Unit × Vmo :=
  if divCeil vmo.size pageSize ≤ idx then
    (.error (.withMessage .einval "the offset is outside the VMO"), vmo)
  else
    match vmo.pages idx with
    | some page => if mode.skipsBackendRead then (.ok (), vmo) else vmo.ensureInit backend idx page
    | none =>
      match backend.allocError idx with
      | some e => (.error e, vmo)
      | none =>
        let stored := vmo.setPage idx .allocUninit
        if mode.skipsBackendRead then (.ok (), stored)
        else stored.ensureInit backend idx .allocUninit

/-- `Vmo::commit_on_anonymous`: a missing page is zeroed. -/
def commitOnAnonymous (idx : ℕ) : Except Error Unit × Vmo :=
  if divCeil vmo.size pageSize ≤ idx then
    (.error (.withMessage .einval "the offset is outside the VMO"), vmo)
  else
    match vmo.pages idx with
    | some _ => (.ok (), vmo)
    | none => (.ok (), vmo.setPage idx .allocZero)

/-- `BackedVmo::try_commit_with_cursor`: succeeds on a page that is present and, unless it is
about to be overwritten, initialised. -/
def tryCommitWithCursor (idx : ℕ) (mode : CommitMode) : Except VmoCommitError Unit :=
  match vmo.pages idx with
  | none => .error (.needIo idx)
  | some page =>
    if !mode.skipsBackendRead && page.state = .uninit then .error (.waitUntilInit idx)
    else .ok ()

/-- `Vmo::handle_commit_error` of a VMO with a backend. -/
def handleCommitError (backend : Backend) (mode : CommitMode) :
    VmoCommitError → Except Error Unit × Vmo
  | .err e => (.error e, vmo)
  | .needIo idx => vmo.commitOnBacked backend idx mode
  | .waitUntilInit idx => vmo.ensureInit backend idx ((vmo.pages idx).getD .allocUninit)

/-- One round of the loop of `collect_pages`: commit the page at `idx`, doing the I/O that a
commit error asks for. -/
def commitPage (idx : ℕ) (mode : CommitMode) : Except Error Unit × Vmo :=
  match vmo.backend with
  | none => vmo.commitOnAnonymous idx
  | some backend =>
    match vmo.tryCommitWithCursor idx mode with
    | .ok () => (.ok (), vmo)
    | .error e => vmo.handleCommitError backend mode e

/-- Commits `n` pages from `idx` on, up to the first failure. -/
def commitRange (mode : CommitMode) : ℕ → ℕ → Vmo → Except Error Unit × Vmo
  | _, 0, vmo => (.ok (), vmo)
  | idx, n + 1, vmo =>
    match vmo.commitPage idx mode with
    | (.error e, vmo) => (.error e, vmo)
    | (.ok (), vmo) => commitRange mode (idx + 1) n vmo

/-- `Vmo::collect_pages` with a batch of the given capacity.  The batch holds handles of the
pages, which are named by their indices. -/
def collectPages (startIdx endIdx : ℕ) (mode : CommitMode) (capacity : ℕ) :
    Except Error (List ℕ) × Vmo :=
  let endIdx := min endIdx (startIdx + capacity)
  if vmo.size < endIdx * pageSize then
    (.error (.withMessage .einval "the range to operate exceeds the VMO size"), vmo)
  else
    match commitRange mode startIdx (endIdx - startIdx) vmo with
    | (.error e, vmo) => (.error e, vmo)
    | (.ok (), vmo) => (.ok (List.range' startIdx (endIdx - startIdx)), vmo)

/-! ## Eviction -/

/-- The effect of `evict_up_to_date_pages` on the pages its range covers: those that are
`UpToDate` are marked `Evicted` and removed from the `XArray`, the others stay.  A handle of
a removed page is a handle of an evicted page from then on. -/
def evictUpToDatePages (covered : List ℕ) : Vmo :=
  { vmo with
    pages := fun idx =>
      match vmo.pages idx with
      | some page => if idx ∈ covered ∧ page.state = .upToDate then none else some page
      | none => none }

/-! ## What a VMO stores -/

/-- The byte behind the cache: the device's, or zero for an anonymous VMO. -/
def backing (addr : ℕ) : Option UInt8 :=
  match vmo.backend with
  | some backend => some (backend.disk (addr / pageSize) (addr % pageSize))
  | none => some 0

/-- The byte at an offset of an entry of the `XArray`, with `behind` the byte behind the cache. -/
def entryByte (behind : Option UInt8) (off : ℕ) : Option CachePage → Option UInt8
  | some page => if page.state = .uninit then behind else page.bytes off
  | none => behind

/-- The byte stored at a position: the cached one where an initialised page is present, the
one behind the cache elsewhere. -/
def content (addr : ℕ) : Option UInt8 :=
  entryByte (vmo.backing addr) (addr % pageSize) (vmo.pages (addr / pageSize))

/-- **A VMO whose cache is consistent with its backend.** -/
structure Backed (backend : Backend) : Prop where
  backend_eq : vmo.backend = some backend
  consistent : ∀ {idx page}, vmo.pages idx = some page → page.Consistent backend idx

/-- No page is `Dirty` or `UpToDate` with only a part of its bytes initialised. -/
def Initialized : Prop :=
  ∀ idx page, vmo.pages idx = some page → page.state ≠ .uninit → page.Full

end Vmo

end Asterinas.PageCache
