import Asterinas.PageCache.Cache
import Asterinas.PageCache.Write

/-!
# When a write stores what it was given

The reader of `Vmo::write` has one cursor for all pages, so a write is right as long as the
cursor and the page index move together.  `Progress` is that invariant.  A page of a batch
that was evicted before it is locked is skipped without moving the cursor, while the loop goes
on with the later pages of the batch; the invariant survives only if there is no later page.

`Harmless` says of a list of evictions that no batch loses a page other than its last one.
Under it every write that returns `Ok` is right, and for a device without errors it is also
necessary: any other list of evictions makes some source end up in the wrong place.
-/

namespace Asterinas.PageCache

open Vmo List WriteState

/-! ## Harmless evictions -/

/-- Whether the evictions during the outer loop spare all pages of every batch but the last
one, and `rest` holds of what is left after it.  The loop is followed without its data: only
the presence of pages matters, and a page that was passed is never looked at again. -/
def harmlessLoop (endIdx : ℕ) (mode : CommitMode) (capacity : ℕ)
    (rest : Vmo → List (List ℕ) → Bool) : ℕ → ℕ → Vmo → List (List ℕ) → Bool
  | 0, _, vmo, evictions => rest vmo evictions
  | fuel + 1, currentIdx, vmo, evictions =>
    if currentIdx < endIdx then
      match vmo.collectPages currentIdx endIdx mode capacity with
      | (.error _, _) => true
      | (.ok batch, vmo) =>
        let vmo' := vmo.evictUpToDatePages (evictions.headD [])
        let lastIdx := batch.getLastD 0
        batch.dropLast.all (fun idx => (vmo'.pages idx).isSome) &&
          harmlessLoop endIdx mode capacity rest fuel
            (if (vmo'.pages lastIdx).isSome then lastIdx + 1 else lastIdx) vmo' evictions.tail
    else rest vmo evictions

/-- `harmlessLoop` for the segments of a write, one after the other. -/
def harmlessAll (capacity : ℕ) : List Segment → Vmo → List (List ℕ) → Bool
  | [], _, _ => true
  | seg :: segs, vmo, evictions =>
    harmlessLoop seg.endIdx seg.mode capacity (harmlessAll capacity segs)
      (evictions.length + (seg.endIdx - seg.startIdx)) seg.startIdx vmo evictions

/-- **Harmless evictions.**  During a write of `len` bytes at `offset`, every batch meets all
its pages but possibly the last one. -/
def Vmo.Harmless (vmo : Vmo) (offset len slack : ℕ) (evictions : List (List ℕ)) : Prop :=
  len = 0 ∨
    harmlessAll (batchCapacity len slack) (writeSegments offset (offset + len)) vmo evictions

instance (vmo : Vmo) (offset len slack : ℕ) (evictions : List (List ℕ)) :
    Decidable (vmo.Harmless offset len slack evictions) :=
  inferInstanceAs (Decidable (_ ∨ _))

/-! ## The invariant -/

/-- A write to be made: a source that fits into a VMO with a consistent cache. -/
structure WriteJob where
  vmo : Vmo
  backend : Backend
  offset : ℕ
  len : ℕ
  src : ℕ → UInt8
  faultAt : Option ℕ
  backed : vmo.Backed backend
  initialized : vmo.Initialized
  len_pos : 0 < len
  fits : offset + len ≤ vmo.size

/-- **The cursor and the page index move together.**  The bytes before the cursor are stored,
nothing else has changed, and the next byte belongs to page `idx`. -/
structure Progress (job : WriteJob) (s : WriteState) (idx : ℕ) : Prop where
  backed : s.vmo.Backed job.backend
  initialized : s.vmo.Initialized
  size_eq : s.vmo.size = job.vmo.size
  src_eq : s.reader.src = job.src
  fault_eq : s.reader.faultAt = job.faultAt
  remain : s.reader.pos + s.reader.remain = job.len
  pageOffset_lt : s.pageOffset < pageSize
  /-- Only the first page is entered in the middle. -/
  pageOffset : s.pageOffset = 0 ∨ idx * pageSize + s.pageOffset = job.offset
  pos : job.offset + s.reader.pos = min (job.offset + job.len) (idx * pageSize + s.pageOffset)
  stored : ∀ i < s.reader.pos, s.vmo.content (job.offset + i) = some (job.src i)
  frame : ∀ addr, addr < job.offset ∨ job.offset + s.reader.pos ≤ addr →
    s.vmo.content addr = job.vmo.content addr

section Step

variable {job : WriteJob} {s : WriteState} {idx : ℕ} {page : CachePage} {written : ℕ}

lemma VmReader.copied_false {avail n : ℕ} {reader : VmReader}
    (h : reader.copied avail = (n, false)) : n = min avail reader.remain := by
  simp only [VmReader.copied] at h
  split at h
  · split_ifs at h
    · simp at h
    · simpa [eq_comm] using h
  · simpa [eq_comm] using h

/-- Replacing the VMO by one with other pages in the cache keeps the invariant. -/
lemma Progress.recached {vmo' : Vmo} (h : Progress job s idx)
    (hvmo : Recached job.backend s.vmo vmo') (evictions : List (List ℕ)) :
    Progress job { s with vmo := vmo', evictions := evictions } idx where
  backed := hvmo.backed
  initialized := hvmo.initialized h.initialized
  size_eq := hvmo.size_eq.trans h.size_eq
  src_eq := h.src_eq
  fault_eq := h.fault_eq
  remain := h.remain
  pageOffset_lt := h.pageOffset_lt
  pageOffset := h.pageOffset
  pos := h.pos
  stored i hi := (hvmo.content_eq _).trans (h.stored i hi)
  frame addr haddr := (hvmo.content_eq _).trans (h.frame addr haddr)

/-- The bytes of a page after `written` bytes have been copied to it. -/
lemma content_storePage_self {addr : ℕ} (hpos : 0 < written) (haddr : addr / pageSize = idx) :
    (s.storePage idx page written).vmo.content addr =
      if s.pageOffset ≤ addr % pageSize ∧ addr % pageSize < s.pageOffset + written then
        some (s.reader.src (s.reader.pos + (addr % pageSize - s.pageOffset)))
      else page.bytes (addr % pageSize) := by
  simp only [storePage, setPage, content_setEntry_self haddr, if_pos hpos, entryByte,
    CachePage.setDirty, CachePage.copyIn]
  rfl

lemma content_storePage_of_ne {addr : ℕ} (haddr : addr / pageSize ≠ idx) :
    (s.storePage idx page written).vmo.content addr = s.vmo.content addr :=
  content_setEntry_of_ne haddr _

lemma Vmo.Backed.storePage {backend : Backend} (hb : s.vmo.Backed backend)
    (hpage : s.vmo.pages idx = some page) (written : ℕ) :
    (s.storePage idx page written).vmo.Backed backend := by
  refine hb.setEntry fun page' hpage' => ?_
  rw [← Option.some.inj hpage']
  split_ifs with hpos
  · exact ⟨fun hstate => by simp [CachePage.setDirty] at hstate, by simp [CachePage.setDirty]⟩
  · obtain rfl : written = 0 := by omega
    refine ⟨fun hstate off hoff => ?_, (hb.consistent hpage).not_evicted⟩
    simp only [CachePage.copyIn]
    rw [if_neg (by omega)]
    exact (hb.consistent hpage).upToDate hstate off hoff

section

variable (h : Progress job s idx) (hidx : idx * pageSize < job.offset + job.len)

include h hidx

/-- The first byte that a page takes, and how many it takes. -/
lemma Progress.written_eq (hcopied : s.reader.copied (pageSize - s.pageOffset) = (written, false)) :
    job.offset + s.reader.pos = idx * pageSize + s.pageOffset ∧ 0 < written ∧
      job.offset + s.reader.pos + written = min (job.offset + job.len) ((idx + 1) * pageSize) := by
  have hwritten := VmReader.copied_false hcopied
  have hpos := h.pos
  have hrem := h.remain
  have hlt := h.pageOffset_lt
  have hoff := h.pageOffset
  have hlen := job.len_pos
  rw [Nat.succ_mul]
  omega

/-- **The page step.**  A page that is initialised, or that is overwritten as a whole, takes the
bytes that belong to it. -/
lemma Progress.storePage (hpage : s.vmo.pages idx = some page)
    (hcopied : s.reader.copied (pageSize - s.pageOffset) = (written, false))
    (hfull : page.state ≠ .uninit ∨
      s.pageOffset = 0 ∧ (idx + 1) * pageSize ≤ job.offset + job.len) :
    Progress job (s.storePage idx page written) (idx + 1) := by
  obtain ⟨hstart, hpos, hend⟩ := h.written_eq hidx hcopied
  have hremain : written ≤ s.reader.remain :=
    (VmReader.copied_false hcopied).trans_le (min_le_right _ _)
  have hsucc : (idx + 1) * pageSize = idx * pageSize + pageSize := Nat.succ_mul _ _
  -- outside the copied window the page is initialised and keeps its bytes
  have hinit : ∀ off < pageSize, ¬(s.pageOffset ≤ off ∧ off < s.pageOffset + written) →
      page.state ≠ .uninit := by
    intro off hoff hout
    rcases hfull with hinit | ⟨hzero, hall⟩
    · exact hinit
    · omega
  have hold : ∀ addr, addr / pageSize = idx →
      ¬(s.pageOffset ≤ addr % pageSize ∧ addr % pageSize < s.pageOffset + written) →
      page.bytes (addr % pageSize) = s.vmo.content addr := by
    intro addr haddr hout
    have := hinit _ (Nat.mod_lt addr pageSize_pos) hout
    simp [content, haddr, hpage, entryByte, this]
  have hsplit : ∀ addr, addr / pageSize = idx → addr = idx * pageSize + addr % pageSize := by
    rintro addr rfl
    exact (Nat.div_add_mod' addr pageSize).symm
  refine ⟨h.backed.storePage hpage written, ?_, h.size_eq, h.src_eq, h.fault_eq, ?_, pageSize_pos,
    .inl rfl, ?_, fun i hi => ?_, fun addr haddr => ?_⟩
  · refine h.initialized.setEntry fun page' hpage' _ off hoff => ?_
    rw [← Option.some.inj hpage', if_pos hpos]
    simp only [CachePage.setDirty, CachePage.copyIn]
    split_ifs with hwin
    · rfl
    · exact h.initialized idx page hpage (hinit off hoff hwin) off hoff
  · have := h.remain
    simp only [WriteState.storePage, VmReader.advance]
    omega
  · simp only [WriteState.storePage, VmReader.advance]
    omega
  · simp only [WriteState.storePage, VmReader.advance] at hi
    by_cases hdiv : (job.offset + i) / pageSize = idx
    · have hmod := hsplit _ hdiv
      rw [content_storePage_self hpos hdiv]
      split_ifs with hwin
      · rw [h.src_eq]
        congr 2
        omega
      · rw [hold _ hdiv hwin]
        exact h.stored i (by omega)
    · rw [content_storePage_of_ne hdiv]
      refine h.stored i ?_
      by_contra hle
      exact hdiv (Nat.div_eq_of_lt_le (by omega) (by omega))
  · simp only [WriteState.storePage, VmReader.advance] at haddr
    by_cases hdiv : addr / pageSize = idx
    · have hmod := hsplit _ hdiv
      rw [content_storePage_self hpos hdiv, if_neg (by omega), hold _ hdiv (by omega)]
      exact h.frame addr (by omega)
    · rw [content_storePage_of_ne hdiv]
      exact h.frame addr (by omega)

end

end Step

/-! ## One batch -/

section Batch

variable {job : WriteJob}

/-- The pages from `lo` to `hi` that are present can take their bytes: they are initialised,
or the write covers them as a whole. -/
structure Ready (job : WriteJob) (vmo : Vmo) (lo hi : ℕ) : Prop where
  inside : ∀ idx, lo ≤ idx → idx < hi → idx * pageSize < job.offset + job.len
  whole : ∀ idx page, lo ≤ idx → idx < hi → vmo.pages idx = some page → page.state = .uninit →
    job.offset ≤ idx * pageSize ∧ (idx + 1) * pageSize ≤ job.offset + job.len

lemma Ready.of_agree {v w : Vmo} {lo hi lo' hi' : ℕ} (h : Ready job v lo hi) (hlo : lo ≤ lo')
    (hhi : hi' ≤ hi) (hagree : AgreeFrom lo' w v) : Ready job w lo' hi' where
  inside idx hidx hidx' := h.inside idx (hlo.trans hidx) (hidx'.trans_le hhi)
  whole idx page hidx hidx' hpage :=
    h.whole idx page (hlo.trans hidx) (hidx'.trans_le hhi) (hagree.pages_eq idx hidx ▸ hpage)

section

variable (vmo : Vmo) (lastIdx : ℕ)

/-- Where the outer loop goes on after a batch of which only the last page may be missing. -/
def afterBatch : ℕ :=
  if (vmo.pages lastIdx).isSome then lastIdx + 1 else lastIdx

lemma le_afterBatch : lastIdx ≤ afterBatch vmo lastIdx := by
  unfold afterBatch
  split_ifs <;> omega

lemma afterBatch_le : afterBatch vmo lastIdx ≤ lastIdx + 1 := by
  unfold afterBatch
  split_ifs <;> omega

end

lemma VmReader.copied_true {avail n : ℕ} {reader : VmReader}
    (h : reader.copied avail = (n, true)) : reader.faultAt ≠ none := by
  intro hnone
  simp [VmReader.copied, hnone] at h

lemma Progress.ready_storePage {s : WriteState} {idx hi written : ℕ} {page : CachePage}
    (h : Progress job s idx) (hready : Ready job s.vmo idx hi) (hhi : idx < hi)
    (hpage : s.vmo.pages idx = some page)
    (hcopied : s.reader.copied (pageSize - s.pageOffset) = (written, false)) :
    Progress job (s.storePage idx page written) (idx + 1) := by
  refine h.storePage (hready.inside idx le_rfl hhi) hpage hcopied ?_
  by_cases huninit : page.state = .uninit
  · obtain ⟨hlo, hwhole⟩ := hready.whole idx page le_rfl hhi hpage huninit
    have := h.pageOffset
    exact .inr ⟨by omega, hwhole⟩
  · exact .inl huninit

/-- **The batch loop.**  When only the last page of a batch may have been evicted, the batch
leaves the cursor at the page with which the outer loop goes on. -/
lemma writeBatch_progress : ∀ (n idx next : ℕ) {s : WriteState}, Progress job s idx →
    Ready job s.vmo idx (idx + n + 1) →
    (∀ j, idx ≤ j → j < idx + n → (s.vmo.pages j).isSome) →
    (job.faultAt ≠ none ∧ ∃ e s', writeBatch (range' idx (n + 1)) next s = (.error e, s')) ∨
    ∃ s', writeBatch (range' idx (n + 1)) next s =
        (.ok (if (s.vmo.pages (idx + n)).isSome then next else idx + n), s') ∧
      Progress job s' (afterBatch s.vmo (idx + n)) ∧ s'.evictions = s.evictions ∧
      AgreeFrom (afterBatch s.vmo (idx + n)) s'.vmo s.vmo
  | n, idx, next, s, h, hready, hpresent => by
    rw [range'_succ, writeBatch]
    cases hpage : s.vmo.pages idx with
    | none =>
      -- only the last page may be missing, so the batch ends here
      obtain rfl : n = 0 := by
        by_contra hn
        have := hpresent idx le_rfl (by omega)
        simp [hpage] at this
      have hafter : afterBatch s.vmo (idx + 0) = idx := by simp [afterBatch, hpage]
      rw [hafter]
      exact .inr ⟨s, by simp [writeBatch, hpage], h, rfl, AgreeFrom.refl _ _⟩
    | some page =>
      rcases hcopied : s.reader.copied (pageSize - s.pageOffset) with ⟨written, _ | _⟩
      swap
      · exact .inl ⟨h.fault_eq ▸ VmReader.copied_true hcopied, _, _, rfl⟩
      have hstep := h.ready_storePage hready (by omega) hpage hcopied
      have hagree : AgreeFrom (idx + 1) (s.storePage idx page written).vmo s.vmo :=
        (AgreeFrom.refl _ _).setEntry_left (by omega) _
      cases n with
      | zero =>
        have hafter : afterBatch s.vmo (idx + 0) = idx + 1 := by simp [afterBatch, hpage]
        rw [hafter]
        exact .inr ⟨_, by simp [writeBatch, hpage], hstep, rfl, hagree⟩
      | succ n =>
        have hpages := hagree.pages_eq (idx + 1 + n) (by omega)
        have hafter : afterBatch s.vmo (idx + (n + 1)) =
            afterBatch (s.storePage idx page written).vmo (idx + 1 + n) := by
          simp only [afterBatch, hpages]
          rw [show idx + (n + 1) = idx + 1 + n by omega]
        have ih := writeBatch_progress n (idx + 1) next hstep
          (hready.of_agree (by omega) (by omega) hagree) fun j hlo hhi => by
            rw [hagree.pages_eq j hlo]
            exact hpresent j (by omega) (by omega)
        rw [hpages] at ih
        rw [hafter, show idx + (n + 1) = idx + 1 + n by omega]
        rcases ih with ⟨hfault, e, s', herr⟩ | ⟨s', hok, hprog, hev, hag⟩
        · exact .inl ⟨hfault, e, s', herr⟩
        · refine .inr ⟨s', hok, hprog, hev, hag.trans (hagree.mono ?_)⟩
          exact le_trans (by omega) (le_afterBatch _ _)

end Batch

/-! ## The outer loop -/

section Loop

variable {job : WriteJob} {capacity : ℕ}

lemma getLastD_range' (idx m : ℕ) : (range' idx (m + 1)).getLastD 0 = idx + m := by
  simp [range'_concat]

lemma dropLast_range' (idx m : ℕ) : (range' idx (m + 1)).dropLast = range' idx m := by
  simp [range'_concat]

/-- A segment of the write: its pages are touched by the write, those committed without a read
are covered by it. -/
structure Segment.Fits (job : WriteJob) (seg : Segment) : Prop where
  le : seg.startIdx ≤ seg.endIdx
  inside : ∀ idx < seg.endIdx, idx * pageSize < job.offset + job.len
  whole : seg.mode = .overwrite → ∀ idx, seg.startIdx ≤ idx → idx < seg.endIdx →
    job.offset ≤ idx * pageSize ∧ (idx + 1) * pageSize ≤ job.offset + job.len

variable {seg : Segment}

/-- A page is inside the VMO as soon as the write touches it, since sizes are aligned. -/
lemma Segment.Fits.endIdx_le (h : seg.Fits job) :
    seg.endIdx * pageSize ≤ job.vmo.size := by
  rcases eq_zero_or_pos seg.endIdx with hzero | hpos
  · simp [hzero]
  obtain ⟨q, hq⟩ := job.vmo.size_aligned
  have hlast := h.inside (seg.endIdx - 1) (by omega)
  have hlt : (seg.endIdx - 1) * pageSize < q * pageSize := by
    have := job.fits
    rw [mul_comm q]
    omega
  rw [hq, mul_comm pageSize]
  exact Nat.mul_le_mul_right _ (by have := Nat.lt_of_mul_lt_mul_right hlt; omega)

/-- A batch of a segment after it was collected and pages were evicted: its extent, and that
the pages still present can take their bytes. -/
lemma Progress.collected {s : WriteState} {idx : ℕ} {vmo' : Vmo} {batch : List ℕ}
    (hfits : seg.Fits job) (hcap : 0 < capacity) (h : Progress job s idx)
    (hstart : seg.startIdx ≤ idx) (hend : idx < seg.endIdx)
    (hcollect : s.vmo.collectPages idx seg.endIdx seg.mode capacity = (.ok batch, vmo')) :
    ∃ m, batch = range' idx (m + 1) ∧ idx + m < seg.endIdx ∧
      Progress job (s.afterEviction vmo') idx ∧
      Ready job (s.afterEviction vmo').vmo idx (idx + m + 1) ∧
      (s.evictions = [] → ∀ j, idx ≤ j → j ≤ idx + m →
        ((s.afterEviction vmo').vmo.pages j).isSome) := by
  obtain ⟨hbatch, hpresent, -⟩ := collectPages_ok h.backed hcollect
  have hrecached := collectPages_recached h.backed idx seg.endIdx seg.mode capacity
  rw [hcollect] at hrecached
  obtain ⟨m, hm, hlast⟩ := exists_batchLen_eq hcap hend
  rw [hm] at hbatch
  have hmem : ∀ j, idx ≤ j → j < idx + m + 1 → j ∈ batch := fun j hlo hhi => by
    rw [hbatch, mem_range'_1]
    omega
  have hprog := h.recached (hrecached.trans (evictUpToDatePages_recached hrecached.backed
    (s.evictions.headD []))) s.evictions.tail
  refine ⟨m, hbatch, hlast, hprog, ⟨fun j hlo hhi => hfits.inside j (by omega), ?_⟩, ?_⟩
  · intro j page hlo hhi hpage huninit
    obtain ⟨page', hpage', hinit⟩ := hpresent j (hmem j hlo hhi)
    rw [evictUpToDatePages_pages _ hpage, Option.some.injEq] at hpage'
    subst hpage'
    refine hfits.whole ?_ j (by omega) (by omega)
    cases hmode : seg.mode with
    | overwrite => rfl
    | read => exact absurd huninit (hinit hmode)
  · intro hnil j hlo hhi
    obtain ⟨page, hpage, -⟩ := hpresent j (hmem j hlo (by omega))
    simp [afterEviction, hnil, evictUpToDatePages, hpage]

/-- **The outer loop under harmless evictions.**  It fails, or it leaves the cursor at the end
of the segment with what is left of the evictions. -/
lemma writePagesLoop_progress {rest : Vmo → List (List ℕ) → Bool} (hfits : seg.Fits job)
    (hcap : 0 < capacity) :
    ∀ (fuel idx : ℕ) {s : WriteState} {w : Vmo}, Progress job s idx → AgreeFrom idx s.vmo w →
      seg.startIdx ≤ idx → idx ≤ seg.endIdx → s.evictions.length + (seg.endIdx - idx) ≤ fuel →
      harmlessLoop seg.endIdx seg.mode capacity rest fuel idx w s.evictions = true →
      (∃ e s', writePagesLoop seg.endIdx seg.mode capacity fuel idx s = (.error e, s')) ∨
      ∃ s' w', writePagesLoop seg.endIdx seg.mode capacity fuel idx s = (.ok (), s') ∧
        Progress job s' seg.endIdx ∧ AgreeFrom seg.endIdx s'.vmo w' ∧
        rest w' s'.evictions = true
  | 0, idx, s, w, h, hagree, _, hend, hfuel, hharmless => by
    obtain rfl : idx = seg.endIdx := by omega
    exact .inr ⟨s, w, rfl, h, hagree, hharmless⟩
  | fuel + 1, idx, s, w, h, hagree, hstart, hend, hfuel, hharmless => by
    rw [harmlessLoop] at hharmless
    rw [writePagesLoop]
    by_cases hlt : idx < seg.endIdx
    swap
    · obtain rfl : idx = seg.endIdx := by omega
      rw [if_neg hlt] at hharmless ⊢
      exact .inr ⟨s, w, rfl, h, hagree, hharmless⟩
    rw [if_pos hlt] at hharmless ⊢
    rcases hcollect : s.vmo.collectPages idx seg.endIdx seg.mode capacity with ⟨_ | batch, vmo'⟩
    · exact .inl ⟨_, _, rfl⟩
    obtain ⟨w', hcollect', hagree'⟩ :=
      hagree.collectPages h.backed.backend_eq le_rfl hcollect
    obtain ⟨m, rfl, hlast, hprog, hready, hnil⟩ := h.collected hfits hcap hstart hlt hcollect
    have hevict : AgreeFrom idx (s.afterEviction vmo').vmo _ :=
      hagree'.evictUpToDatePages (s.evictions.headD [])
    have htail : (s.afterEviction vmo').evictions = s.evictions.tail := rfl
    simp only [hcollect', getLastD_range', dropLast_range', Bool.and_eq_true, all_eq_true,
      mem_range'_1] at hharmless
    obtain ⟨hpresent, hnext⟩ := hharmless
    -- the presence of the pages of the batch is the same in the run and in its skeleton
    rw [← hevict.pages_eq (idx + m) (by omega), ← htail] at hnext
    simp only [getLastD_range']
    generalize s.afterEviction vmo' = s₁ at hprog hready hnil hevict htail hnext ⊢
    have hle := afterBatch_le s₁.vmo (idx + m)
    have hge := le_afterBatch s₁.vmo (idx + m)
    rcases writeBatch_progress m idx (idx + m + 1) hprog hready (fun j hlo hhi => by
      rw [hevict.pages_eq j hlo]
      exact hpresent j ⟨hlo, hhi⟩) with ⟨-, e, s', herr⟩ | ⟨s', hok, hprog', hev, hag⟩
    · rw [herr]
      exact .inl ⟨e, s', rfl⟩
    rw [hok]
    -- a round without evictions moves on, any other one uses up an entry of the list
    have hfuel' : s'.evictions.length + (seg.endIdx - afterBatch s₁.vmo (idx + m)) ≤ fuel := by
      rw [hev, htail, length_tail]
      rcases eq_zero_or_pos s.evictions.length with hzero | hpos
      · have := hnil (length_eq_zero_iff.mp hzero) (idx + m) (by omega) le_rfl
        simp only [afterBatch, this, if_true]
        omega
      · omega
    exact writePagesLoop_progress hfits hcap fuel (afterBatch s₁.vmo (idx + m)) hprog'
      (hag.trans (hevict.mono (by omega)))
      (by omega) (by omega) hfuel' (hev ▸ hnext)

end Loop

/-! ## The segments of a write -/

section Segments

variable {job : WriteJob} {capacity : ℕ}

/-- Segments that follow each other from page `idx` on, up to the end of the write. -/
def Chained (job : WriteJob) : ℕ → List Segment → Prop
  | idx, [] => job.offset + job.len ≤ idx * pageSize
  | idx, seg :: segs => seg.startIdx = idx ∧ seg.Fits job ∧ Chained job seg.endIdx segs

lemma ofRange_startIdx (start stop : ℕ) (mode : CommitMode) :
    (Segment.ofRange start stop mode).startIdx = start / pageSize := by
  simp [Segment.ofRange, alignDown, Nat.mul_div_cancel _ pageSize_pos]

lemma ofRange_endIdx (start stop : ℕ) (mode : CommitMode) :
    (Segment.ofRange start stop mode).endIdx = divCeil stop pageSize := by
  simp [Segment.ofRange, alignUp, Nat.mul_div_cancel _ pageSize_pos]

lemma Segment.fits_read {start stop : ℕ} (hle : start ≤ stop)
    (hstop : stop ≤ job.offset + job.len) : (Segment.ofRange start stop .read).Fits job := by
  refine ⟨?_, fun idx hidx => ?_, fun hmode => by simp [Segment.ofRange] at hmode⟩
  all_goals
    simp only [ofRange_startIdx, ofRange_endIdx, divCeil, pageSize] at *
    omega

lemma Segment.fits_overwrite {start stop : ℕ} (hoff : job.offset ≤ start) (hle : start ≤ stop)
    (hstop : stop ≤ job.offset + job.len) (hstart_al : pageSize ∣ start)
    (hstop_al : pageSize ∣ stop) : (Segment.ofRange start stop .overwrite).Fits job := by
  obtain ⟨a, rfl⟩ := hstart_al
  obtain ⟨b, rfl⟩ := hstop_al
  refine ⟨?_, fun idx hidx => ?_, fun _ idx hlo hhi => ?_⟩
  all_goals
    simp only [ofRange_startIdx, ofRange_endIdx, divCeil, pageSize] at *
    omega

/-- A range in front of chained segments, left out when it is empty. -/
lemma Chained.range_append {start stop idx : ℕ} {mode : CommitMode} {segs : List Segment}
    (hfits : (Segment.ofRange start stop mode).Fits job) (hstop : divCeil stop pageSize = idx)
    (hempty : start = stop → idx = start / pageSize) (hrest : Chained job idx segs) :
    Chained job (start / pageSize)
      ((if start ≠ stop then [.ofRange start stop mode] else []) ++ segs) := by
  subst hstop
  split_ifs with h
  · exact ⟨ofRange_startIdx _ _ _, hfits, ofRange_endIdx start stop mode ▸ hrest⟩
  · exact hempty (not_not.mp h) ▸ hrest

lemma divCeil_mul (a : ℕ) : divCeil (pageSize * a) pageSize = a := by
  simp only [divCeil, pageSize]
  omega

/-- Head, middle and tail cover the pages of the write, in this order. -/
lemma chained_writeSegments (job : WriteJob) :
    Chained job (job.offset / pageSize) (writeSegments job.offset (job.offset + job.len)) := by
  have hend : Chained job (divCeil (job.offset + job.len) pageSize) [] := by
    simp only [Chained, divCeil, pageSize]
    omega
  unfold writeSegments
  by_cases hshort : job.offset + job.len - job.offset < pageSize
  · rw [if_pos hshort]
    exact ⟨ofRange_startIdx _ _ _, Segment.fits_read (by omega) le_rfl, ofRange_endIdx _ _ _ ▸ hend⟩
  rw [if_neg hshort]
  -- the aligned part, from page `a` to page `b`, lies inside the write
  obtain ⟨a, ha⟩ : pageSize ∣ alignUp job.offset pageSize := Dvd.intro_left _ rfl
  obtain ⟨b, hb⟩ : pageSize ∣ alignDown (job.offset + job.len) pageSize := Dvd.intro_left _ rfl
  have hup : job.offset ≤ pageSize * a := by
    rw [← ha]
    simp only [alignUp, divCeil, pageSize]
    omega
  have hmid : pageSize * a ≤ pageSize * b := by
    rw [← ha, ← hb]
    simp only [alignUp, alignDown, divCeil, pageSize] at hshort ⊢
    omega
  have hdown : pageSize * b ≤ job.offset + job.len := by
    rw [← hb]
    exact Nat.div_mul_le_self _ _
  have hdiv : ∀ c, pageSize * c / pageSize = c := fun c => Nat.mul_div_cancel_left c pageSize_pos
  have htail := Chained.range_append (Segment.fits_read hdown le_rfl) rfl
    (fun h => by rw [← h, divCeil_mul, hdiv]) hend
  have hbody := Chained.range_append (Segment.fits_overwrite hup hmid hdown ⟨a, rfl⟩ ⟨b, rfl⟩)
    (by rw [divCeil_mul, hdiv]) (fun h => by rw [h]) htail
  simp only [ha, hb, append_assoc]
  rw [append_nil] at hbody
  exact Chained.range_append (Segment.fits_read hup (hmid.trans hdown))
    (by rw [divCeil_mul, hdiv]) (fun h => by rw [h]) hbody

/-- **All segments under harmless evictions.** -/
lemma writeAll_progress (hcap : 0 < capacity) :
    ∀ (segs : List Segment) (idx : ℕ) {s : WriteState} {w : Vmo}, Chained job idx segs →
      Progress job s idx → AgreeFrom idx s.vmo w →
      harmlessAll capacity segs w s.evictions = true →
      ∀ s', writeAll capacity segs s = (.ok (), s') →
        ∃ idx', job.offset + job.len ≤ idx' * pageSize ∧ Progress job s' idx'
  | [], idx, s, w, hchain, h, _, _, s', hok => by
    obtain rfl : s = s' := by simpa [writeAll] using hok
    exact ⟨idx, hchain, h⟩
  | seg :: segs, idx, s, w, hchain, h, hagree, hharmless, s', hok => by
    obtain ⟨rfl, hfits, hchain⟩ := hchain
    rw [writeAll, writePagesWithBackend] at hok
    rcases writePagesLoop_progress hfits hcap _ _ h hagree le_rfl hfits.le le_rfl hharmless with
      ⟨e, s₁, herr⟩ | ⟨s₁, w₁, hok1, h1, hagree1, hharmless1⟩
    · simp [herr] at hok
    · rw [hok1] at hok
      exact writeAll_progress hcap segs seg.endIdx hchain h1 hagree1 hharmless1 s' hok

end Segments

end Asterinas.PageCache
