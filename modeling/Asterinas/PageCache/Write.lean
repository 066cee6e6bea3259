import Asterinas.PageCache.Vmo

/-!
# Writing to a VMO

`Vmo::write` copies a source into the pages of a VMO, batch by batch.  Between the moment a
batch of pages is collected and the moment each of its pages is locked, pages may be evicted
by somebody else; the batch then holds the handle of a page that is no longer in the cache.
The evictions are an input of the model: one list of page indices for every batch, in the
order in which the batches are collected.

The source is a `VmReader` with a single cursor, shared by all pages of all batches, which is
why the order in which pages take bytes from it decides where the bytes go.
-/

namespace Asterinas.PageCache

/-! ## The source -/

/-- A fallible reader: the bytes it reads, the cursor, what remains, and the position (if any)
at which a read faults. -/
structure VmReader where
  /-- The bytes of the source, by position. -/
  src : ℕ → UInt8
  /-- The cursor. -/
  pos : ℕ
  /-- The number of bytes left. -/
  remain : ℕ
  /-- The position of the first byte that cannot be read. -/
  faultAt : Option ℕ

namespace VmReader

variable (reader : VmReader)

/-- How many bytes `write_fallible` copies into a writer with `avail` bytes left, and whether
it ends with a page fault. -/
def copied (avail : ℕ) : ℕ × Bool :=
  let len := min avail reader.remain
  match reader.faultAt with
  | some fault =>
    if reader.pos ≤ fault ∧ fault < reader.pos + len then (fault - reader.pos, true)
    else (len, false)
  | none => (len, false)

/-- Moves the cursor over `n` bytes. -/
def advance (n : ℕ) : VmReader :=
  { reader with pos := reader.pos + n, remain := reader.remain - n }

end VmReader

/-- The page after `n` bytes of the reader have been copied to offset `pageOffset`. -/
def CachePage.copyIn (page : CachePage) (pageOffset n : ℕ) (reader : VmReader) : CachePage :=
  { page with
    bytes := fun off =>
      if pageOffset ≤ off ∧ off < pageOffset + n then
        some (reader.src (reader.pos + (off - pageOffset)))
      else page.bytes off }

/-! ## The loops -/

/-- The state that a write threads through its loops. -/
structure WriteState where
  /-- The VMO written to. -/
  vmo : Vmo
  /-- The source. -/
  reader : VmReader
  /-- The offset in the next page (`page_offset`). -/
  pageOffset : ℕ
  /-- The pages covered by evictions, for every batch still to be collected. -/
  evictions : List (List ℕ)

/-- The state in which the pages of a batch are locked: the batch was collected in `vmo`, and
the evictions meant for it have happened. -/
def WriteState.afterEviction (s : WriteState) (vmo : Vmo) : WriteState :=
  { s with
    vmo := vmo.evictUpToDatePages (s.evictions.headD [])
    evictions := s.evictions.tail }

/-- A page fault while copying (`ostd::Error::PageFault`). -/
def pageFault : Error := .new .efault

/-- A page of a batch after `written` bytes were copied to it without a fault. -/
def WriteState.storePage (s : WriteState) (idx : ℕ) (page : CachePage) (written : ℕ) : WriteState :=
  let copied := page.copyIn s.pageOffset written s.reader
  { s with
    vmo := s.vmo.setPage idx (if 0 < written then copied.setDirty else copied)
    reader := s.reader.advance written
    pageOffset := 0 }

/-- The loop of `write_pages_with_backend` over the pages of one batch.  A handle whose page
is no longer in the cache belongs to an evicted page. -/
def writeBatch : List ℕ → ℕ → WriteState → Except Error ℕ × WriteState
  | [], nextIdx, s => (.ok nextIdx, s)
  | idx :: batch, nextIdx, s =>
    match s.vmo.pages idx with
    -- `next_idx = idx; continue`: the loop goes on with the later pages of the batch
    | none => writeBatch batch idx s
    | some page =>
      match s.reader.copied (pageSize - s.pageOffset) with
      | (written, true) =>
        let copied := page.copyIn s.pageOffset written s.reader
        let page' := if 0 < written ∧ page.state = .upToDate then copied.setDirty else copied
        (.error pageFault,
          { s with vmo := s.vmo.setPage idx page', reader := s.reader.advance written })
      | (written, false) => writeBatch batch nextIdx (s.storePage idx page written)

/-- The outer loop of `write_pages_with_backend`, from page `current_idx` to `end_idx`. -/
def writePagesLoop (endIdx : ℕ) (mode : CommitMode) (capacity : ℕ) :
    ℕ → ℕ → WriteState → Except Error Unit × WriteState
  | 0, _, s => (.ok (), s)
  | fuel + 1, currentIdx, s =>
    if currentIdx < endIdx then
      match s.vmo.collectPages currentIdx endIdx mode capacity with
      | (.error e, vmo) => (.error e, { s with vmo := vmo })
      | (.ok batch, vmo) =>
        match writeBatch batch (batch.getLastD 0 + 1) (s.afterEviction vmo) with
        | (.error e, s) => (.error e, s)
        | (.ok nextIdx, s) => writePagesLoop endIdx mode capacity fuel nextIdx s
    else (.ok (), s)

/-- A range of pages that `Vmo::write` writes in one commit mode. -/
structure Segment where
  /-- The first page. -/
  startIdx : ℕ
  /-- The page after the last. -/
  endIdx : ℕ
  /-- How its pages are committed. -/
  mode : CommitMode

/-- The pages that contain a byte range (`get_page_idx_range`), to be written in a mode. -/
def Segment.ofRange (start stop : ℕ) (mode : CommitMode) : Segment :=
  ⟨alignDown start pageSize / pageSize, alignUp stop pageSize / pageSize, mode⟩

/-- `write_pages_with_backend`.  Every round either moves on to a later page or uses up one
entry of the eviction list, and the fuel counts both. -/
def writePagesWithBackend (seg : Segment) (capacity : ℕ) (s : WriteState) :
    Except Error Unit × WriteState :=
  writePagesLoop seg.endIdx seg.mode capacity
    (s.evictions.length + (seg.endIdx - seg.startIdx)) seg.startIdx s

/-- The calls of `write_pages_with_backend` that `Vmo::write` makes, in order: everything at
once for a range shorter than a page, otherwise head, middle and tail where not empty. -/
def writeSegments (offset writeEnd : ℕ) : List Segment :=
  if writeEnd - offset < pageSize then [.ofRange offset writeEnd .read]
  else
    let upAlignStart := alignUp offset pageSize
    let downAlignEnd := alignDown writeEnd pageSize
    (if offset ≠ upAlignStart then [.ofRange offset upAlignStart .read] else []) ++
    (if upAlignStart ≠ downAlignEnd then [.ofRange upAlignStart downAlignEnd .overwrite] else []) ++
    (if downAlignEnd ≠ writeEnd then [.ofRange downAlignEnd writeEnd .read] else [])

/-- Writes the segments in order, up to the first failure. -/
def writeAll (capacity : ℕ) : List Segment → WriteState → Except Error Unit × WriteState
  | [], s => (.ok (), s)
  | seg :: segs, s =>
    match writePagesWithBackend seg capacity s with
    | (.error e, s) => (.error e, s)
    | (.ok (), s) => writeAll capacity segs s

/-! ## Anonymous VMOs -/

/-- The loop of `write_anonymous_pages` over one batch: no page lock, no dirty tracking. -/
def writeAnonymousBatch : List ℕ → WriteState → Except Error Unit × WriteState
  | [], s => (.ok (), s)
  | idx :: batch, s =>
    let page := (s.vmo.pages idx).getD .allocZero
    match s.reader.copied (pageSize - s.pageOffset) with
    | (written, fault) =>
      let s' := { s with
        vmo := s.vmo.setPage idx (page.copyIn s.pageOffset written s.reader)
        reader := s.reader.advance written }
      if fault then (.error pageFault, s')
      else writeAnonymousBatch batch { s' with pageOffset := 0 }

/-- `write_anonymous_pages`; every round moves on by at least one page. -/
def writeAnonymousPages (endIdx capacity : ℕ) :
    ℕ → ℕ → WriteState → Except Error Unit × WriteState
  | 0, _, s => (.ok (), s)
  | fuel + 1, currentIdx, s =>
    if currentIdx < endIdx then
      match s.vmo.collectPages currentIdx endIdx .read capacity with
      | (.error e, vmo) => (.error e, { s with vmo := vmo })
      | (.ok batch, vmo) =>
        match writeAnonymousBatch batch { s with vmo := vmo } with
        | (.error e, s) => (.error e, s)
        | (.ok (), s) => writeAnonymousPages endIdx capacity fuel (batch.getLastD 0 + 1) s
    else (.ok (), s)

/-! ## `Vmo::write` -/

/-- `Vmo::PAGE_BATCH_CAPACITY`: the pages of a batch on the stack. -/
def pageBatchCapacity : ℕ := 32

/-- The capacity of the batch vector.  `Vec::with_capacity` may give more than was asked for;
`slack` is the excess. -/
def batchCapacity (writeLen slack : ℕ) : ℕ :=
  min (divCeil writeLen pageSize) pageBatchCapacity + slack

/-- `Vmo::write`, with the evictions that run during it. -/
def Vmo.write (vmo : Vmo) (offset : ℕ) (reader : VmReader) (slack : ℕ)
    (evictions : List (List ℕ)) : Except Error Unit × WriteState :=
  let writeLen := min reader.remain (vmo.size - offset)
  let s : WriteState := ⟨vmo, reader, offset % pageSize, evictions⟩
  if writeLen = 0 then (.ok (), s)
  else
    let writeEnd := offset + writeLen
    let capacity := batchCapacity writeLen slack
    if vmo.hasBackend then writeAll capacity (writeSegments offset writeEnd) s
    else
      let seg := Segment.ofRange offset writeEnd .read
      writeAnonymousPages seg.endIdx capacity (seg.endIdx - seg.startIdx) seg.startIdx s

end Asterinas.PageCache
