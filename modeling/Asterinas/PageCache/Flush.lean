import Asterinas.PageCache.Vmo

/-!
# Flushing dirty pages

`flush_dirty_pages` marks every dirty page of a range as clean, cuts the pages into runs of
consecutive indices, and hands the runs to the backend one after the other.  What can go wrong
is on the side of the backend, so the backends are modelled with all their failure points: the
block adapter with its default submission page by page, the submission of a run in
device-sized pieces that `ext2` uses, and the chunked submission of `virtiofs`.

A page that is given to a backend ends up in one of four ways (`Submitted`): its contents were
accepted for writing, the backend rolled it back to `Dirty`, the backend let go of it without
a rollback, or it was not taken from the run at all.
-/

namespace Asterinas.PageCache

/-! ## What happens to the pages of a run -/

/-- The outcome of a submission to a backend. -/
structure Submitted where
  /-- What the call returns. -/
  result : Except Error Unit
  /-- Pages whose contents were accepted for writing. -/
  handed : List ℕ
  /-- Pages that were marked `Dirty` again. -/
  redirtied : List ℕ
  /-- Pages that were taken and unlocked as they were. -/
  dropped : List ℕ
  /-- Pages still in the iterator of the run. -/
  rest : List ℕ

namespace Submitted

/-- Nothing was taken from the run. -/
def none (result : Except Error Unit) (pages : List ℕ) : Submitted := ⟨result, [], [], [], pages⟩

/-- A piece taken from the front of a run and submitted as one request: accepted, or rolled
back to `Dirty` by the code that submitted it. -/
def piece (result : Except Error Unit) (pages rest : List ℕ) : Submitted :=
  match result with
  | .ok () => ⟨.ok (), pages, [], [], rest⟩
  | .error e => ⟨.error e, [], pages, [], rest⟩

/-- Goes on with the rest of the run unless the submission failed (`?`). -/
def andThen (s : Submitted) (next : List ℕ → Submitted) : Submitted :=
  match s.result with
  | .error _ => s
  | .ok () => { next s.rest with handed := s.handed ++ (next s.rest).handed }

end Submitted

/-! ## The block adapter -/

/-- A block device of which the pieces that are submitted may be refused.  No page is
submitted twice during a flush, so a piece is named by its first page. -/
structure BlockDevice where
  /-- `max_nr_segments_per_bio`. -/
  maxNrSegmentsPerBio : ℕ
  /-- `write_blocks_async`. -/
  writeBlocksAsync : ℕ → Except Error Unit

/-- The loop of `submit_contiguous_write_pages`. -/
def submitPieces (device : BlockDevice) : ℕ → ℕ → List ℕ → Submitted
  | 0, _, pages => .none (.ok ()) pages
  | fuel + 1, remainingPages, pages =>
    if remainingPages = 0 then .none (.ok ()) pages
    else
      let nrPages := min (max device.maxNrSegmentsPerBio 1) remainingPages
      let piece := pages.take nrPages
      (Submitted.piece (device.writeBlocksAsync (piece.headD 0)) piece (pages.drop nrPages)).andThen
        (submitPieces device fuel (remainingPages - nrPages))

/-- `PageRun::submit_contiguous_write_pages`; every piece has at least one page. -/
def submitContiguousWritePages (device : BlockDevice) (pages : List ℕ) (len : ℕ) : Submitted :=
  if pages.length < len then
    .none (.error (.withMessage .einval "page run is shorter than len")) pages
  else submitPieces device len len pages

/-- How a block backend cuts a run into physically contiguous ranges: their lengths, and the
error that ends the enumeration if it does not reach the end of the run. -/
structure RunLayout where
  /-- The lengths of the ranges of the run with the given start and length. -/
  ranges : ℕ → ℕ → List ℕ × Option Error
  /-- Without an error the ranges cover the run. -/
  covers : ∀ start len, (ranges start len).2 = Option.none → (ranges start len).1.sum = len

/-- The loop of `ext2`'s `submit_write_page_run` over the ranges of a run.  The inode table has
a single range. -/
def submitRanges (device : BlockDevice) : List ℕ → Option Error → List ℕ → Submitted
  | [], .none, pages => .none (.ok ()) pages
  | [], some e, pages => .none (.error e) pages
  | len :: ranges, err, pages =>
    (submitContiguousWritePages device pages len).andThen (submitRanges device ranges err)

/-- The default `submit_write_page_run`: every page on its own, rolled back if refused. -/
def submitWritePageRun (submitWriteBio : ℕ → Except Error Unit) : List ℕ → Submitted
  | [] => .none (.ok ()) []
  | idx :: pages =>
    (Submitted.piece (submitWriteBio idx) [idx] pages).andThen fun _ =>
      submitWritePageRun submitWriteBio pages

/-! ## The `virtiofs` backend -/

/-- The failure points of the `virtiofs` backend. -/
structure VirtioFsInode where
  /-- `validate_page_range` and `writable_page_handle`, for a start and a length. -/
  openRange : ℕ → ℕ → Except Error Unit
  /-- `prepare_write_page`. -/
  prepareWritePage : ℕ → Except Error Unit
  /-- `submit_write_chunk`, for the first page of a chunk. -/
  submitWriteChunk : ℕ → Except Error Unit
  /-- The number of pages of a request. -/
  maxChunkLen : ℕ

namespace VirtioFsInode

variable (inode : VirtioFsInode)

/-- Prepares the pages of a chunk: the error and the number of pages taken until then. -/
def prepareChunk : List ℕ → Option (Error × ℕ)
  | [] => none
  | idx :: pages =>
    match inode.prepareWritePage idx with
    | .error e => some (e, 1)
    | .ok () => (prepareChunk pages).map fun (e, n) => (e, n + 1)

/-- `submit_write_chunk`, which rolls its pages back if the request is refused. -/
def submitChunk (chunk rest : List ℕ) : Submitted :=
  .piece (inode.submitWriteChunk (chunk.headD 0)) chunk rest

/-- The loop of `write_pages_async`.  Pages of a chunk whose preparation fails are unlocked
without a rollback. -/
def writeChunks : ℕ → List ℕ → Submitted
  | 0, pages => .none (.ok ()) pages
  | fuel + 1, pages =>
    if pages.length = 0 then .none (.ok ()) pages
    else
      let chunkLen := min pages.length (max inode.maxChunkLen 1)
      let chunk := pages.take chunkLen
      match inode.prepareChunk chunk with
      | some (e, n) => ⟨.error e, [], [], chunk.take n, chunk.drop n ++ pages.drop chunkLen⟩
      | none => (inode.submitChunk chunk (pages.drop chunkLen)).andThen (writeChunks fuel)

/-- `VirtioFsInode::write_pages_async`: the writes of a run of pages, in chunks. -/
def writePagesAsync (pages : List ℕ) : Submitted :=
  match inode.openRange (pages.headD 0) pages.length with
  | .error e => .none (.error e) pages
  | .ok () => inode.writeChunks pages.length pages

/-- `VirtioFsInode::write_page_async`: the page is dropped when the range, the handle or the
preparation fails. -/
def writePageAsync (idx : ℕ) : Submitted :=
  match inode.openRange idx 1 with
  | .error e => ⟨.error e, [], [], [idx], []⟩
  | .ok () =>
    match inode.prepareWritePage idx with
    | .error e => ⟨.error e, [], [], [idx], []⟩
    | .ok () => inode.submitChunk [idx] []

end VirtioFsInode

/-! ## Backends -/

/-- The write side of a `PageCacheBackend`. -/
inductive WriteBackend
  /-- A block backend with the default `submit_write_page_run`. -/
  | block (submitWriteBio : ℕ → Except Error Unit)
  /-- A block backend that submits runs as contiguous ranges. -/
  | blockRun (submitWriteBio : ℕ → Except Error Unit) (layout : RunLayout) (device : BlockDevice)
  /-- The `virtiofs` backend. -/
  | virtiofs (inode : VirtioFsInode)

namespace WriteBackend

/-- `PageCacheBackend::write_page_async`; the block adapter rolls the page back if it is
refused. -/
def writePageAsync : WriteBackend → ℕ → Submitted
  | .block submitWriteBio, idx => .piece (submitWriteBio idx) [idx] []
  | .blockRun submitWriteBio _ _, idx => .piece (submitWriteBio idx) [idx] []
  | .virtiofs inode, idx => inode.writePageAsync idx

/-- `PageCacheBackend::write_pages_async`, of the three kinds of file systems. -/
def writePagesAsync : WriteBackend → List ℕ → Submitted
  | .block submitWriteBio, pages => submitWritePageRun submitWriteBio pages
  | .blockRun _ layout device, pages =>
    let (ranges, err) := layout.ranges (pages.headD 0) pages.length
    submitRanges device ranges err pages
  | .virtiofs inode, pages => inode.writePagesAsync pages

end WriteBackend

/-! ## `flush_dirty_pages` -/

/-- Sets the state of the listed pages. -/
def Vmo.setStates (vmo : Vmo) (idxs : List ℕ) (state : PageState) : Vmo :=
  { vmo with
    pages := fun idx =>
      if idx ∈ idxs then (vmo.pages idx).map fun page => { page with state := state }
      else vmo.pages idx }

/-- The page is in the cache and `Dirty`. -/
def Vmo.isDirty (vmo : Vmo) (idx : ℕ) : Bool :=
  match vmo.pages idx with
  | some page => page.state = .dirty
  | none => false

/-- The dirty pages that `collect_pages_if` finds in a byte range, in order. -/
def Vmo.dirtyPages (vmo : Vmo) (start stop : ℕ) : List ℕ :=
  let startIdx := alignDown start pageSize / pageSize
  let endIdx := alignUp stop pageSize / pageSize
  (List.range' startIdx (endIdx - startIdx)).filter vmo.isDirty

/-- The runs of consecutive pages (`chunk_by_mut`). -/
def pageRuns (pages : List ℕ) : List (List ℕ) := pages.splitBy fun idx next => idx + 1 == next

/-- A flush in progress: the VMO, and the pages handed to the backend so far. -/
structure FlushState where
  /-- The VMO. -/
  vmo : Vmo
  /-- The pages whose contents the backend accepted, in order. -/
  handed : List ℕ

/-- One round of the loop of `flush_dirty_pages`.  The error of a run with several pages
re-dirties the pages the backend has not taken; that of a single page is passed on by `?`. -/
def WriteBackend.submitRun (backend : WriteBackend) (run : List ℕ) : Submitted :=
  match run with
  | [idx] => backend.writePageAsync idx
  | _ =>
    let s := backend.writePagesAsync run
    match s.result with
    | .ok () => s
    | .error _ => { s with redirtied := s.redirtied ++ s.rest, rest := [] }

/-- The loop of `flush_dirty_pages` over the runs. -/
def flushRuns (backend : WriteBackend) :
    List (List ℕ) → FlushState → Except Error Unit × FlushState
  | [], s => (.ok (), s)
  | run :: runs, s =>
    let sub := backend.submitRun run
    let s' := ⟨s.vmo.setStates sub.redirtied .dirty, s.handed ++ sub.handed⟩
    match sub.result with
    | .error e => (.error e, s')
    | .ok () => flushRuns backend runs s'

/-- `BackedVmo::flush_dirty_pages` on a byte range; `waitAll` is what waiting for the submitted
I/O returns. -/
def Vmo.flushDirtyPages (vmo : Vmo) (backend : WriteBackend) (start stop : ℕ)
    (waitAll : Except Error Unit) : Except Error Unit × FlushState :=
  if vmo.size ≤ start then (.ok (), ⟨vmo, []⟩)
  else
    let dirty := vmo.dirtyPages start stop
    -- every page is marked clean before the first one is submitted
    match flushRuns backend (pageRuns dirty) ⟨vmo.setStates dirty .upToDate, []⟩ with
    | (.error e, s) => (.error e, s)
    | (.ok (), s) => (waitAll, s)

end Asterinas.PageCache
