import Asterinas.PageCache.WriteCorrectness

/-!
# Evictions that misplace bytes

The converse of the previous file.  Suppose a batch loses a page that is not its last one.
The byte that should have gone to the first position of the missing page is still the next
one under the cursor, and the loop goes on with a later page.  If some later page of the
batch is present it takes that byte; if none is, the outer loop goes on past the missing page.
Either way the byte is not stored where it belongs, for the rest of the write (`Lost`).

To see it in the result, the byte is given a value that occurs nowhere else in the source and
that the VMO does not hold at the position (`Vmo.Lacks`).
-/

namespace Asterinas.PageCache

open Vmo List Option Nat

/-! ## A value that a position does not hold -/

/-- Neither the device nor the cached page, whatever its state, holds `x` at `addr`. -/
structure Vmo.Lacks (vmo : Vmo) (addr : ℕ) (x : UInt8) : Prop where
  backing : vmo.backing addr ≠ some x
  page : ∀ page, vmo.pages (addr / pageSize) = some page → page.bytes (addr % pageSize) ≠ some x

section Lacks

variable {vmo : Vmo} {backend : Backend} {addr : ℕ} {x : UInt8}

lemma Vmo.Lacks.content_ne (h : vmo.Lacks addr x) : vmo.content addr ≠ some x := by
  unfold content
  cases hpage : vmo.pages (addr / pageSize) with
  | none => exact h.backing
  | some page =>
    simp only [entryByte]
    split_ifs
    · exact h.backing
    · exact h.page page hpage

variable {idx : ℕ}

lemma Vmo.Lacks.setEntry {entry : Option CachePage} (h : vmo.Lacks addr x)
    (hentry : idx = addr / pageSize → ∀ page, entry = some page →
      page.bytes (addr % pageSize) ≠ some x) : (vmo.setEntry idx entry).Lacks addr x := by
  refine ⟨h.backing, fun page hpage => ?_⟩
  rcases of_setEntry_pages hpage with ⟨hidx, hnew⟩ | hold
  · exact hentry hidx.symm page hnew
  · exact h.page page hold

lemma Vmo.Lacks.commitPage (h : vmo.Lacks addr x) (hb : vmo.Backed backend) (idx : ℕ)
    (mode : CommitMode) : (vmo.commitPage idx mode).2.Lacks addr x := by
  have hbacking := h.backing
  rw [hb.backing_eq] at hbacking
  rw [commitPage_eq hb.backend_eq]
  refine h.setEntry fun hidx page hpage => ?_
  rcases commitEntry_cases backend vmo.size idx mode (vmo.pages idx) with
    heq | ⟨-, heq⟩ | ⟨-, heq⟩ <;> rw [heq] at hpage
  · exact h.page page (hidx ▸ hpage)
  · rw [← some.inj hpage]
    simp [CachePage.allocUninit]
  · rw [← some.inj hpage, hidx]
    exact hbacking

lemma Vmo.Lacks.commitRange (mode : CommitMode) : ∀ (n idx : ℕ) {vmo : Vmo},
    vmo.Lacks addr x → vmo.Backed backend → (Vmo.commitRange mode idx n vmo).2.Lacks addr x
  | 0, _, _, h, _ => h
  | n + 1, idx, vmo, h, hb => by
    have hpage := h.commitPage hb idx mode
    have hrecached := commitPage_recached hb idx mode
    rw [Vmo.commitRange]
    rcases hres : vmo.commitPage idx mode with ⟨_ | _, vmo'⟩ <;> rw [hres] at hpage hrecached
    · exact hpage
    · exact Vmo.Lacks.commitRange mode n (idx + 1) hpage hrecached.backed

lemma Vmo.Lacks.collectPages (h : vmo.Lacks addr x) (hb : vmo.Backed backend)
    (startIdx endIdx : ℕ) (mode : CommitMode) (capacity : ℕ) :
    (vmo.collectPages startIdx endIdx mode capacity).2.Lacks addr x := by
  rw [collectPages_eq]
  split_ifs
  · exact h
  · exact h.commitRange mode _ startIdx hb

lemma Vmo.Lacks.evictUpToDatePages (h : vmo.Lacks addr x) (covered : List ℕ) :
    (vmo.evictUpToDatePages covered).Lacks addr x :=
  ⟨h.backing, fun page hpage => h.page page (evictUpToDatePages_pages covered hpage)⟩

lemma Vmo.Lacks.of_agree {lo : ℕ} {vmo' : Vmo} (h : vmo.Lacks addr x)
    (hagree : AgreeFrom lo vmo' vmo) (hlo : lo ≤ addr / pageSize) : vmo'.Lacks addr x := by
  refine ⟨?_, fun page hpage => h.page page (hagree.pages_eq _ hlo ▸ hpage)⟩
  have := h.backing
  rwa [Vmo.backing, ← hagree.backend_eq] at this

end Lacks

/-! ## After the byte is lost -/

/-- **The byte of `addr` is lost.**  The position does not hold `x`, and it never will: the
cursor is past the only `x` of the source, or the page of `addr` has been passed. -/
structure Lost (job : WriteJob) (addr : ℕ) (x : UInt8) (s : WriteState) (idx : ℕ) : Prop where
  backed : s.vmo.Backed job.backend
  size_eq : s.vmo.size = job.vmo.size
  src_eq : s.reader.src = job.src
  fault_eq : s.reader.faultAt = none
  lacks : s.vmo.Lacks addr x
  late : addr < job.offset + s.reader.pos ∨ addr / pageSize < idx

section Lost

variable {job : WriteJob} {addr : ℕ} {x : UInt8}

variable {s : WriteState}

lemma Lost.mono {idx idx' : ℕ} (h : Lost job addr x s idx) (hle : idx ≤ idx') :
    Lost job addr x s idx' :=
  ⟨h.backed, h.size_eq, h.src_eq, h.fault_eq, h.lacks, h.late.imp_right fun hlt => by omega⟩

lemma VmReader.copied_of_no_fault {reader : VmReader} (h : reader.faultAt = none) (avail : ℕ) :
    reader.copied avail = (min avail reader.remain, false) := by
  simp [VmReader.copied, h]

variable (hsrc : ∀ i, job.src i = x → job.offset + i = addr)

include hsrc

/-- Storing a page at or after `idx` does not bring the byte back. -/
lemma Lost.storePage {idx k : ℕ} {page : CachePage} (h : Lost job addr x s idx) (hk : idx ≤ k)
    (hpage : s.vmo.pages k = some page) (written : ℕ) :
    Lost job addr x (s.storePage k page written) idx where
  backed := h.backed.storePage hpage written
  size_eq := h.size_eq
  src_eq := h.src_eq
  fault_eq := h.fault_eq
  lacks := by
    refine h.lacks.setEntry fun hidx page' hpage' => ?_
    have hbytes : page'.bytes = (page.copyIn s.pageOffset written s.reader).bytes := by
      rw [← some.inj hpage']
      split_ifs <;> rfl
    rw [hbytes]
    simp only [CachePage.copyIn]
    split_ifs with hwin
    · -- the page of `addr` is only written once the cursor is past the one `x` of the source
      intro hx
      have := hsrc _ (h.src_eq ▸ some.inj hx)
      have := h.late
      omega
    · exact h.lacks.page page (hidx ▸ hpage)
  late := by
    have := h.late
    simp only [WriteState.storePage, VmReader.advance]
    omega

lemma Lost.writeBatch :
    ∀ (batch : List ℕ) (next lo hi : ℕ) {s : WriteState}, Lost job addr x s lo →
      (∀ k ∈ batch, lo ≤ k ∧ k ≤ hi) → lo ≤ next → next ≤ hi →
      ∃ next' s', writeBatch batch next s = (.ok next', s') ∧ Lost job addr x s' next' ∧
        lo ≤ next' ∧ next' ≤ hi
  | [], next, _, _, s, h, _, hlo, hhi => ⟨next, s, rfl, h.mono hlo, hlo, hhi⟩
  | k :: batch, next, lo, hi, s, h, hbatch, hlo, hhi => by
    obtain ⟨⟨hk, hk'⟩, hrest⟩ := forall_mem_cons.mp hbatch
    rw [PageCache.writeBatch]
    cases hpage : s.vmo.pages k with
    | none => exact Lost.writeBatch batch k lo hi h hrest hk hk'
    | some page =>
      rw [VmReader.copied_of_no_fault h.fault_eq]
      exact Lost.writeBatch batch next lo hi (h.storePage hsrc hk hpage _) hrest hlo hhi

/-- The outer loop does not bring the byte back. -/
lemma Lost.writePagesLoop {endIdx capacity : ℕ} (hrel : job.backend.Reliable)
    (hend : endIdx * pageSize ≤ job.vmo.size) (mode : CommitMode) (hcap : 0 < capacity) :
    ∀ (fuel idx : ℕ) {s : WriteState}, Lost job addr x s idx → idx ≤ endIdx →
      ∃ s', writePagesLoop endIdx mode capacity fuel idx s = (.ok (), s') ∧
        Lost job addr x s' endIdx
  | 0, idx, s, h, hle => ⟨s, rfl, h.mono hle⟩
  | fuel + 1, idx, s, h, hle => by
    rw [PageCache.writePagesLoop]
    by_cases hlt : idx < endIdx
    swap
    · rw [if_neg hlt]
      exact ⟨s, rfl, h.mono hle⟩
    rw [if_pos hlt]
    have hok := collectPages_reliable h.backed hrel hle (h.size_eq ▸ hend) mode capacity
    have hrecached := collectPages_recached h.backed idx endIdx mode capacity
    have hlacks := h.lacks.collectPages h.backed idx endIdx mode capacity
    rcases hcollect : s.vmo.collectPages idx endIdx mode capacity with ⟨_ | batch, vmo'⟩ <;>
      rw [hcollect] at hok hrecached hlacks
    · simp at hok
    obtain rfl : batch = range' idx (batchLen idx endIdx capacity) := by simpa using hok
    have hevict := hrecached.trans (evictUpToDatePages_recached hrecached.backed
      (s.evictions.headD []))
    have h' : Lost job addr x (s.afterEviction vmo') idx :=
      ⟨hevict.backed, hevict.size_eq.trans h.size_eq, h.src_eq, h.fault_eq,
        hlacks.evictUpToDatePages _, h.late⟩
    obtain ⟨m, hm, hlast⟩ := exists_batchLen_eq hcap hlt
    rw [hm]
    obtain ⟨next', s', hres, hlost, -, hnext⟩ := h'.writeBatch hsrc (range' idx (m + 1))
      (idx + m + 1) idx endIdx (fun k hk => by rw [mem_range'_1] at hk; omega)
      (by omega) (by omega)
    simp only [getLastD_range']
    rw [hres]
    exact Lost.writePagesLoop hrel hend mode hcap fuel next' hlost hnext

lemma Lost.writeAll {capacity : ℕ} (hrel : job.backend.Reliable) (hcap : 0 < capacity) :
    ∀ (segs : List Segment) (idx : ℕ) {s : WriteState}, Chained job idx segs →
      Lost job addr x s idx →
      ∃ s' idx', writeAll capacity segs s = (.ok (), s') ∧ Lost job addr x s' idx'
  | [], idx, s, _, h => ⟨s, idx, rfl, h⟩
  | seg :: segs, idx, s, hchain, h => by
    obtain ⟨rfl, hfits, hchain⟩ := hchain
    rw [PageCache.writeAll, writePagesWithBackend]
    obtain ⟨s₁, hok, h1⟩ := h.writePagesLoop hsrc hrel hfits.endIdx_le seg.mode hcap
      (s.evictions.length + (seg.endIdx - seg.startIdx)) seg.startIdx hfits.le
    rw [hok]
    exact Lost.writeAll hrel hcap segs seg.endIdx hchain h1

end Lost

/-! ## The batch that loses it -/

section Losing

variable {job : WriteJob} {addr : ℕ} {x : UInt8}

lemma writeBatch_append : ∀ (l₁ l₂ : List ℕ) (next : ℕ) (s : WriteState),
    writeBatch (l₁ ++ l₂) next s =
      match writeBatch l₁ next s with
      | (.error e, s') => (.error e, s')
      | (.ok next', s') => writeBatch l₂ next' s'
  | [], _, _, _ => rfl
  | idx :: l₁, l₂, next, s => by
    rw [cons_append, writeBatch, writeBatch]
    cases s.vmo.pages idx with
    | none => exact writeBatch_append l₁ l₂ idx s
    | some page =>
      rcases s.reader.copied (pageSize - s.pageOffset) with ⟨written, _ | _⟩
      · exact writeBatch_append l₁ l₂ next _
      · rfl

/-- The position at which a write enters page `idx`. -/
def WriteJob.entry (job : WriteJob) (idx : ℕ) : ℕ := max job.offset (idx * pageSize)

lemma Progress.entry_div {s : WriteState} {idx j : ℕ} (h : Progress job s idx) (hle : idx ≤ j) :
    job.entry j / pageSize = j := by
  have hpos := h.pos
  have hlt := h.pageOffset_lt
  have hmul : idx * pageSize ≤ j * pageSize := Nat.mul_le_mul_right _ hle
  refine Nat.div_eq_of_lt_le (le_max_right _ _) ?_
  rw [WriteJob.entry, succ_mul]
  omega

lemma Progress.entry_eq {s : WriteState} {idx : ℕ} (h : Progress job s idx)
    (hidx : idx * pageSize < job.offset + job.len) :
    job.offset + s.reader.pos = job.entry idx ∧ 0 < s.reader.remain := by
  have hpos := h.pos
  have hoff := h.pageOffset
  have hrem := h.remain
  have hlen := job.len_pos
  rw [WriteJob.entry]
  omega

/-- The pages after a missing page take its byte, or the missing page is passed. -/
lemma writeBatch_after_missing {s : WriteState} (hsrc : ∀ i, job.src i = x → job.offset + i = addr)
    (hfault : job.faultAt = none) {j n : ℕ} (h : Progress job s j)
    (hlacks : s.vmo.Lacks addr x) (haddr : addr = job.offset + s.reader.pos)
    (hdiv : addr / pageSize = j) (hremain : 0 < s.reader.remain) :
    ∃ next' s', writeBatch (range' (j + 1) (n + 1)) j s = (.ok next', s') ∧
      Lost job addr x s' next' ∧ j ≤ next' ∧ next' ≤ j + n + 1 := by
  have hnofault := h.fault_eq.trans hfault
  have hrange : ∀ k ∈ range' (j + 1 + 1) n, j + 1 ≤ k ∧ k ≤ j + n + 1 := fun k hk => by
    rw [mem_range'_1] at hk
    omega
  rw [range'_succ, writeBatch]
  cases hpage : s.vmo.pages (j + 1) with
  | none =>
    have hlost : Lost job addr x s (j + 1) :=
      ⟨h.backed, h.size_eq, h.src_eq, hnofault, hlacks, .inr (by omega)⟩
    obtain ⟨next', s', hres, hlost', hlo, hhi⟩ := hlost.writeBatch hsrc
      (range' (j + 1 + 1) n) (j + 1) (j + 1) (j + n + 1) hrange le_rfl (by omega)
    exact ⟨next', s', hres, hlost', by omega, hhi⟩
  | some page =>
    rw [VmReader.copied_of_no_fault hnofault]
    set written := min (pageSize - s.pageOffset) s.reader.remain with hwritten
    have hpos : 0 < written := by
      have := h.pageOffset_lt
      omega
    have hlost : Lost job addr x (s.storePage (j + 1) page written) j := by
      refine ⟨h.backed.storePage hpage written, h.size_eq, h.src_eq, hnofault, ?_, .inl ?_⟩
      · exact hlacks.setEntry fun hidx => by omega
      · simp only [WriteState.storePage, VmReader.advance]
        omega
    exact hlost.writeBatch hsrc (range' (j + 1 + 1) n) j j (j + n + 1)
      (fun k hk => ⟨by have := hrange k hk; omega, (hrange k hk).2⟩) le_rfl (by omega)

/-- **The losing batch.**  Page `j` is the first missing page of a batch, and not its last
page; then the byte with which the write would have entered page `j` is lost. -/
lemma writeBatch_lost {s : WriteState} {idx m j : ℕ} (next : ℕ)
    (hsrc : ∀ i, job.src i = x → job.offset + i = addr) (hfault : job.faultAt = none)
    (h : Progress job s idx) (hready : Ready job s.vmo idx (idx + m + 1)) (hlo : idx ≤ j)
    (hhi : j < idx + m) (hmissing : s.vmo.pages j = none)
    (hfirst : ∀ k, idx ≤ k → k < j → (s.vmo.pages k).isSome) (haddr : addr = job.entry j)
    (hlacks : s.vmo.Lacks addr x) :
    ∃ next' s', writeBatch (range' idx (m + 1)) next s = (.ok next', s') ∧
      Lost job addr x s' next' ∧ idx ≤ next' ∧ next' ≤ idx + m := by
  obtain ⟨a, rfl⟩ : ∃ a, j = idx + a := ⟨j - idx, by omega⟩
  obtain ⟨n, rfl⟩ : ∃ n, m = a + n + 1 := ⟨m - a - 1, by omega⟩
  have hsplit : range' idx (a + n + 1 + 1) =
      range' idx (a + 1) ++ range' (idx + a + 1) (n + 1) := by
    have := @List.range'_append idx (a + 1) (n + 1) 1
    rw [one_mul] at this
    rw [show a + n + 1 + 1 = a + 1 + (n + 1) by omega, ← this]
    rfl
  have hafter : afterBatch s.vmo (idx + a) = idx + a := by simp [afterBatch, hmissing]
  rw [hsplit, writeBatch_append]
  rcases writeBatch_progress a idx next h
    (hready.of_agree le_rfl (by omega) (AgreeFrom.refl _ _)) hfirst with
    ⟨hne, -⟩ | ⟨s₁, hok, hprog, -, hagree⟩
  · exact absurd hfault hne
  rw [hafter] at hprog hagree
  rw [hok, hmissing]
  obtain ⟨hentry, hremain⟩ := hprog.entry_eq (hready.inside _ hlo (by omega))
  have haddr_div : addr / pageSize = idx + a := haddr ▸ hprog.entry_div le_rfl
  obtain ⟨next', s', hres, hlost, hlo', hhi'⟩ := writeBatch_after_missing (n := n) hsrc hfault hprog
    (hlacks.of_agree hagree haddr_div.ge) (haddr.trans hentry.symm) haddr_div hremain
  exact ⟨next', s', hres, hlost, by omega, by omega⟩

end Losing

/-! ## Harmful evictions -/

section Harmful

variable {job : WriteJob} {capacity : ℕ}

/-- The same write with another source. -/
def WriteJob.withSrc (job : WriteJob) (src : ℕ → UInt8) : WriteJob := { job with src := src }

variable {seg : Segment}

lemma Segment.Fits.withSrc (h : seg.Fits job) (src : ℕ → UInt8) :
    seg.Fits (job.withSrc src) := ⟨h.le, h.inside, h.whole⟩

lemma Chained.withSrc (src : ℕ → UInt8) : ∀ (segs : List Segment) {idx : ℕ},
    Chained job idx segs → Chained (job.withSrc src) idx segs
  | [], _, h => h
  | _ :: segs, _, ⟨hstart, hfits, h⟩ => ⟨hstart, hfits.withSrc src, Chained.withSrc src segs h⟩

section

variable (job : WriteJob) (run : WriteState → Except Error Unit × WriteState) (idx : ℕ) (w : Vmo)
    (ev : List (List ℕ))

/-- A run that follows its skeleton: whatever the source, it gets from page `idx` of a VMO that
looks like `w` to page `idx'` of one that looks like `w'`. -/
def Follows (idx' : ℕ) (w' : Vmo) (ev' : List (List ℕ)) : Prop :=
  ∀ src s, Progress (job.withSrc src) s idx → AgreeFrom idx s.vmo w → s.evictions = ev →
    ∃ s', run s = (.ok (), s') ∧ Progress (job.withSrc src) s' idx' ∧ AgreeFrom idx' s'.vmo w' ∧
      s'.evictions = ev'

/-- A run that loses the byte with which it should have entered page `j`, whenever the source
makes that visible. -/
def Loses (idx' j : ℕ) : Prop :=
  ∀ src x s, (∀ i, src i = x → job.offset + i = job.entry j) → w.Lacks (job.entry j) x →
    Progress (job.withSrc src) s idx → AgreeFrom idx s.vmo w → s.evictions = ev →
    ∃ s', run s = (.ok (), s') ∧ Lost (job.withSrc src) (job.entry j) x s' idx'

end

section Round

variable {s : WriteState} {idx m : ℕ} {w w₀ : Vmo} (hfits : seg.Fits job) (hcap : 0 < capacity)
    (h : Progress job s idx)
  (hagree : AgreeFrom idx s.vmo w) (hstart : seg.startIdx ≤ idx) (hlt : idx < seg.endIdx)
  (hcollect : w.collectPages idx seg.endIdx seg.mode capacity = (.ok (range' idx (m + 1)), w₀))

include hfits hcap h hagree hstart hlt hcollect

/-- A round of the loop collects the same batch in the run as in the skeleton. -/
lemma Progress.round :
    ∃ vmo', s.vmo.collectPages idx seg.endIdx seg.mode capacity =
        (.ok (range' idx (m + 1)), vmo') ∧
      Progress job (s.afterEviction vmo') idx ∧
      Ready job (s.afterEviction vmo').vmo idx (idx + m + 1) ∧
      AgreeFrom idx (s.afterEviction vmo').vmo (w₀.evictUpToDatePages (s.evictions.headD [])) := by
  obtain ⟨vmo', hrun, hagree'⟩ := hagree.symm.collectPages
    (hagree.backend_eq ▸ h.backed.backend_eq) le_rfl hcollect
  obtain ⟨m', hbatch, -, hprog, hready, -⟩ := h.collected hfits hcap hstart hlt hrun
  obtain rfl : m = m' := by simpa using congrArg length hbatch
  exact ⟨vmo', hrun, hprog, hready, hagree'.symm.evictUpToDatePages _⟩

/-- A round that loses at most the last page of its batch. -/
lemma Progress.harmless_round {w₁ : Vmo} (fuel : ℕ) (hfault : job.faultAt = none)
    (hw1 : w₀.evictUpToDatePages (s.evictions.headD []) = w₁)
    (hpresent : ∀ k, idx ≤ k → k < idx + m → (w₁.pages k).isSome) :
    ∃ s', writePagesLoop seg.endIdx seg.mode capacity (fuel + 1) idx s =
        writePagesLoop seg.endIdx seg.mode capacity fuel (afterBatch w₁ (idx + m)) s' ∧
      Progress job s' (afterBatch w₁ (idx + m)) ∧
      AgreeFrom (afterBatch w₁ (idx + m)) s'.vmo w₁ ∧ s'.evictions = s.evictions.tail := by
  obtain ⟨vmo', hrun, hprog, hready, hagree'⟩ := h.round hfits hcap hagree hstart hlt hcollect
  rw [hw1] at hagree'
  have hafter : afterBatch (s.afterEviction vmo').vmo (idx + m) = afterBatch w₁ (idx + m) := by
    simp only [afterBatch, hagree'.pages_eq (idx + m) (by omega)]
  rcases writeBatch_progress m idx (idx + m + 1) hprog hready (fun j hlo hhi => by
    rw [hagree'.pages_eq j hlo]
    exact hpresent j hlo hhi) with ⟨hne, -⟩ | ⟨s', hok, hprog', hev, hag⟩
  · exact absurd hfault hne
  rw [hafter] at hprog' hag
  refine ⟨s', ?_, hprog', hag.trans (hagree'.mono ?_), hev⟩
  · rw [writePagesLoop, if_pos hlt, hrun]
    simp only [getLastD_range', hok]
    congr 1
  · exact le_trans (by omega) (le_afterBatch w₁ (idx + m))

/-- A round that loses a page other than the last one of its batch. -/
lemma Progress.harmful_round {w₁ : Vmo} {j : ℕ} {x : UInt8} (fuel : ℕ) (hrel : job.backend.Reliable)
    (hfault : job.faultAt = none) (hlast : idx + m < seg.endIdx)
    (hw1 : w₀.evictUpToDatePages (s.evictions.headD []) = w₁)
    (hlo : idx ≤ j) (hhi : j < idx + m) (hmissing : w₁.pages j = none)
    (hfirst : ∀ k, idx ≤ k → k < j → (w₁.pages k).isSome)
    (hsrc : ∀ i, job.src i = x → job.offset + i = job.entry j)
    (hlacks : w₁.Lacks (job.entry j) x) :
    ∃ s', writePagesLoop seg.endIdx seg.mode capacity (fuel + 1) idx s = (.ok (), s') ∧
      Lost job (job.entry j) x s' seg.endIdx := by
  obtain ⟨vmo', hrun, hprog, hready, hagree'⟩ := h.round hfits hcap hagree hstart hlt hcollect
  rw [hw1] at hagree'
  obtain ⟨next', s₁, hres, hlost, -, hnext⟩ := writeBatch_lost (idx + m + 1) hsrc hfault hprog
    hready hlo hhi ((hagree'.pages_eq j hlo).trans hmissing)
    (fun k hk hk' => by rw [hagree'.pages_eq k hk]; exact hfirst k hk hk') rfl
    (hlacks.of_agree hagree' (by rw [h.entry_div hlo]; exact hlo))
  obtain ⟨s', hok, hlost'⟩ := hlost.writePagesLoop hsrc hrel hfits.endIdx_le seg.mode hcap fuel
    next' (by omega)
  refine ⟨s', ?_, hlost'⟩
  rw [writePagesLoop, if_pos hlt, hrun]
  simp only [getLastD_range', hres]
  exact hok

end Round

/-- The first page of a range that is missing. -/
lemma exists_first_missing {lo n : ℕ} {vmo : Vmo}
    (h : ¬ ∀ k, lo ≤ k → k < lo + n → (vmo.pages k).isSome) :
    ∃ j, lo ≤ j ∧ j < lo + n ∧ vmo.pages j = none ∧ ∀ k, lo ≤ k → k < j → (vmo.pages k).isSome := by
  push Not at h
  obtain ⟨hlo, hhi, hnone⟩ := Nat.find_spec h
  refine ⟨Nat.find h, hlo, hhi, by simpa using hnone, fun k hk hlt => ?_⟩
  by_contra hk'
  exact Nat.find_min h hlt ⟨hk, by omega, hk'⟩

section

variable (hrel : job.backend.Reliable) (hfault : job.faultAt = none)

include hrel hfault

/-- **A loop whose evictions are not harmless** either follows its skeleton to its end, where
what remains is not harmless, or loses a byte. -/
lemma writePagesLoop_harmful (hfits : seg.Fits job) (hcap : 0 < capacity)
    {rest : Vmo → List (List ℕ) → Bool} :
    ∀ (fuel idx : ℕ) {w : Vmo} {ev : List (List ℕ)}, seg.startIdx ≤ idx → idx ≤ seg.endIdx →
      ev.length + (seg.endIdx - idx) ≤ fuel → w.Backed job.backend → w.size = job.vmo.size →
      harmlessLoop seg.endIdx seg.mode capacity rest fuel idx w ev = false →
      (∃ w' ev', rest w' ev' = false ∧ Recached job.backend w w' ∧
        (∀ addr x, w.Lacks addr x → w'.Lacks addr x) ∧
        Follows job (writePagesLoop seg.endIdx seg.mode capacity fuel idx) idx w ev
          seg.endIdx w' ev') ∨
      ∃ j, seg.startIdx ≤ j ∧ j < seg.endIdx ∧
        Loses job (writePagesLoop seg.endIdx seg.mode capacity fuel idx) idx w ev seg.endIdx j
  | 0, idx, w, ev, _, hle, hfuel, hw, _, hharm => by
    obtain rfl : idx = seg.endIdx := by omega
    exact .inl ⟨w, ev, hharm, Recached.refl hw, fun _ _ h => h,
      fun src s hprog hagree hev => ⟨s, rfl, hprog, hagree, hev⟩⟩
  | fuel + 1, idx, w, ev, hstart, hle, hfuel, hw, hsize, hharm => by
    rw [harmlessLoop] at hharm
    by_cases hlt : idx < seg.endIdx
    swap
    · obtain rfl : idx = seg.endIdx := by omega
      rw [if_neg hlt] at hharm
      refine .inl ⟨w, ev, hharm, Recached.refl hw, fun _ _ h => h,
        fun src s hprog hagree hev => ⟨s, ?_, hprog, hagree, hev⟩⟩
      rw [writePagesLoop, if_neg hlt]
    rw [if_pos hlt] at hharm
    -- the skeleton's batch, with the evictions meant for it
    have hok := collectPages_reliable hw hrel hle (hsize ▸ hfits.endIdx_le) seg.mode capacity
    have hrecached := collectPages_recached hw idx seg.endIdx seg.mode capacity
    have hlacks := fun addr x (h : w.Lacks addr x) =>
      h.collectPages hw idx seg.endIdx seg.mode capacity
    rcases hcollect : w.collectPages idx seg.endIdx seg.mode capacity with ⟨_ | batch, w₀⟩ <;>
      rw [hcollect] at hok hrecached hlacks hharm
    · simp at hok
    obtain ⟨m, hm, hlast⟩ := exists_batchLen_eq hcap hlt
    obtain rfl : batch = range' idx (m + 1) := by simpa [hm] using hok
    have hevicted := hrecached.trans (evictUpToDatePages_recached hrecached.backed (ev.headD []))
    have hevicted_lacks := fun addr x h => (hlacks addr x h).evictUpToDatePages (ev.headD [])
    have hnil : ev = [] → ((w₀.evictUpToDatePages (ev.headD [])).pages (idx + m)).isSome := by
      intro hev
      obtain ⟨page, hpage, -⟩ := (collectPages_ok hw hcollect).2.1 (idx + m)
        (by rw [mem_range'_1]; omega)
      simp [hev, evictUpToDatePages, hpage]
    simp only [getLastD_range', dropLast_range'] at hharm
    generalize hw1 : w₀.evictUpToDatePages (ev.headD []) = w₁
      at hevicted hevicted_lacks hnil hharm
    by_cases hall : ∀ k, idx ≤ k → k < idx + m → (w₁.pages k).isSome
    swap
    · obtain ⟨j, hlo, hhi, hmissing, hfirst⟩ := exists_first_missing hall
      refine .inr ⟨j, by omega, by omega, fun src x s hsrc hlack hprog hagree hev => ?_⟩
      have hrel' : (job.withSrc src).backend.Reliable := hrel
      exact hprog.harmful_round (hfits.withSrc src) hcap hagree hstart hlt hcollect fuel hrel'
        hfault hlast (hev ▸ hw1) hlo hhi hmissing hfirst hsrc (hevicted_lacks _ _ hlack)
    have hround : ∀ src s, Progress (job.withSrc src) s idx → AgreeFrom idx s.vmo w →
        s.evictions = ev → _ := fun src s hprog hagree hev =>
      have hfault' : (job.withSrc src).faultAt = none := hfault
      hprog.harmless_round (hfits.withSrc src) hcap hagree hstart hlt hcollect fuel hfault'
        (hev ▸ hw1) hall
    rw [all_eq_true.mpr fun k hk => by
      rw [mem_range'_1] at hk
      exact hall k hk.1 hk.2, Bool.true_and] at hharm
    have hle' := afterBatch_le w₁ (idx + m)
    have hge' := le_afterBatch w₁ (idx + m)
    have hfuel' : ev.tail.length + (seg.endIdx - afterBatch w₁ (idx + m)) ≤ fuel := by
      rw [length_tail]
      rcases Nat.eq_zero_or_pos ev.length with hzero | hpos
      · have := hnil (length_eq_zero_iff.mp hzero)
        simp only [afterBatch, this, if_true]
        omega
      · omega
    rcases writePagesLoop_harmful hfits hcap fuel (afterBatch w₁ (idx + m))
      (by omega) (by omega) hfuel' hevicted.backed (hevicted.size_eq.trans hsize) hharm with
      ⟨w', ev', hrest, hrec, hlack, hfollows⟩ | ⟨j, hlo, hhi, hloses⟩
    · refine .inl ⟨w', ev', hrest, hevicted.trans hrec,
        fun addr x h => hlack addr x (hevicted_lacks addr x h), fun src s hprog hagree hev => ?_⟩
      obtain ⟨s₁, heq, hprog1, hagree1, hev1⟩ := hround src s hprog hagree hev
      rw [heq]
      exact hfollows src s₁ hprog1 hagree1 (hev ▸ hev1)
    · refine .inr ⟨j, hlo, hhi, fun src x s hsrc hlack hprog hagree hev => ?_⟩
      obtain ⟨s₁, heq, hprog1, hagree1, hev1⟩ := hround src s hprog hagree hev
      rw [heq]
      exact hloses src x s₁ hsrc (hevicted_lacks _ _ hlack) hprog1 hagree1 (hev ▸ hev1)

/-- A write whose evictions are not harmless loses the byte with which it should have entered
some page. -/
lemma writeAll_harmful (hcap : 0 < capacity) :
    ∀ (segs : List Segment) (idx : ℕ) {w : Vmo} {ev : List (List ℕ)}, Chained job idx segs →
      w.Backed job.backend → w.size = job.vmo.size → harmlessAll capacity segs w ev = false →
      ∃ j, idx ≤ j ∧ j * pageSize < job.offset + job.len ∧
        ∀ src x s, (∀ i, src i = x → job.offset + i = job.entry j) → w.Lacks (job.entry j) x →
          Progress (job.withSrc src) s idx → AgreeFrom idx s.vmo w → s.evictions = ev →
          ∃ s' idx', writeAll capacity segs s = (.ok (), s') ∧
            Lost (job.withSrc src) (job.entry j) x s' idx'
  | [], _, _, _, _, _, _, hharm => by simp [harmlessAll] at hharm
  | seg :: segs, idx, w, ev, hchain, hw, hsize, hharm => by
    obtain ⟨rfl, hfits, hchain⟩ := hchain
    have hle := hfits.le
    rw [harmlessAll] at hharm
    rcases writePagesLoop_harmful hrel hfault hfits hcap _ _ le_rfl hle le_rfl hw hsize hharm with
      ⟨w', ev', hrest, hrec, hlack, hfollows⟩ | ⟨j, hlo, hhi, hloses⟩
    · obtain ⟨j, hj, hinside, hlost⟩ := writeAll_harmful hcap segs seg.endIdx hchain
        hrec.backed (hrec.size_eq.trans hsize) hrest
      refine ⟨j, by omega, hinside, fun src x s hsrc hlacks hprog hagree hev => ?_⟩
      obtain ⟨s₁, hok, hprog1, hagree1, hev1⟩ := hfollows src s hprog hagree hev
      rw [writeAll, writePagesWithBackend, hev, hok]
      exact hlost src x s₁ hsrc (hlack _ _ hlacks) hprog1 hagree1 hev1
    · refine ⟨j, hlo, hfits.inside j hhi, fun src x s hsrc hlacks hprog hagree hev => ?_⟩
      obtain ⟨s₁, hok, hlost⟩ := hloses src x s hsrc hlacks hprog hagree hev
      have hrel' : (job.withSrc src).backend.Reliable := hrel
      rw [writeAll, writePagesWithBackend, hev, hok]
      exact hlost.writeAll hsrc hrel' hcap segs seg.endIdx (hchain.withSrc src segs)

end

end Harmful

/-! ## Main result -/

section Main

variable {vmo : Vmo} {backend : Backend} {offset len slack : ℕ} {evictions : List (List ℕ)}

/-- **A write did what it should.**  The source is stored from `offset` on, every other byte is
as before, and no page is left partly initialised. -/
structure Stored (vmo vmo' : Vmo) (offset len : ℕ) (src : ℕ → UInt8) : Prop where
  inside : ∀ i < len, vmo'.content (offset + i) = some (src i)
  outside : ∀ addr, addr < offset ∨ offset + len ≤ addr → vmo'.content addr = vmo.content addr
  initialized : vmo'.Initialized

/-- The write of a job, unfolded to its segments. -/
lemma WriteJob.write_eq (job : WriteJob) (slack : ℕ) (evictions : List (List ℕ)) :
    job.vmo.write job.offset ⟨job.src, 0, job.len, job.faultAt⟩ slack evictions =
      writeAll (batchCapacity job.len slack) (writeSegments job.offset (job.offset + job.len))
        ⟨job.vmo, ⟨job.src, 0, job.len, job.faultAt⟩, job.offset % pageSize, evictions⟩ := by
  have hlen : min job.len (job.vmo.size - job.offset) = job.len := by
    have := job.fits
    omega
  have hbackend : job.vmo.hasBackend = true := by simp [hasBackend, job.backed.backend_eq]
  simp only [write, hlen, hbackend, if_neg job.len_pos.ne', if_true]

lemma WriteJob.progress_start (job : WriteJob) (evictions : List (List ℕ)) :
    Progress job ⟨job.vmo, ⟨job.src, 0, job.len, job.faultAt⟩, job.offset % pageSize, evictions⟩
      (job.offset / pageSize) where
  backed := job.backed
  initialized := job.initialized
  size_eq := rfl
  src_eq := rfl
  fault_eq := rfl
  remain := Nat.zero_add _
  pageOffset_lt := mod_lt _ pageSize_pos
  pageOffset := .inr (div_add_mod' _ _)
  pos := by
    simp only [div_add_mod']
    omega
  stored i hi := absurd hi (Nat.not_lt_zero i)
  frame _ _ := rfl

lemma batchCapacity_pos (hlen : 0 < len) (slack : ℕ) : 0 < batchCapacity len slack := by
  have : 0 < divCeil len pageSize := Nat.div_pos (by omega) pageSize_pos
  simp only [batchCapacity, pageBatchCapacity]
  omega

/-- Under harmless evictions every write that returns `Ok` did what it should. -/
lemma WriteJob.stored_of_harmless {s' : WriteState} (job : WriteJob)
    (h : job.vmo.Harmless job.offset job.len slack evictions)
    (hok : job.vmo.write job.offset ⟨job.src, 0, job.len, job.faultAt⟩ slack evictions =
      (.ok (), s')) : Stored job.vmo s'.vmo job.offset job.len job.src := by
  rw [job.write_eq] at hok
  have hharmless := h.resolve_left job.len_pos.ne'
  obtain ⟨idx, hend, hprog⟩ := writeAll_progress (batchCapacity_pos job.len_pos slack) _ _
    (chained_writeSegments job) (job.progress_start evictions) (AgreeFrom.refl _ _) hharmless s' hok
  have hpos : s'.reader.pos = job.len := by
    have := hprog.pos
    omega
  exact ⟨hpos ▸ hprog.stored, hpos ▸ hprog.frame, hprog.initialized⟩

/-- A value that differs from two given ones, if they are there at all. -/
lemma exists_byte_ne (a b : Option UInt8) : ∃ x y : UInt8, a ≠ some x ∧ b ≠ some x ∧ y ≠ x := by
  rcases a with _ | a <;> rcases b with _ | b
  · exact ⟨0, 1, by simp, by simp, by decide⟩
  · exact ⟨b + 1, b, by simp, by simp, by simp⟩
  · exact ⟨a + 1, a, by simp, by simp, by simp⟩
  · by_cases h : b = a + 1
    · exact ⟨a + 2, a, by simp, by subst h; simp, by simp⟩
    · exact ⟨a + 1, a, by simp, by simpa using h, by simp⟩

section

variable (readError allocError : ℕ → Option Error) (hrel : backend.Reliable)

include hrel

/-- A device that fails only makes a write stop earlier. -/
lemma harmlessLoop_withFaults {rest rest' : Vmo → List (List ℕ) → Bool} {endIdx capacity : ℕ}
    {mode : CommitMode} (hrest : ∀ vmo ev, vmo.Backed backend → rest vmo ev = true →
      rest' (vmo.withFaults readError allocError) ev = true) :
    ∀ (fuel idx : ℕ) {vmo : Vmo} {ev : List (List ℕ)}, vmo.Backed backend →
      harmlessLoop endIdx mode capacity rest fuel idx vmo ev = true →
      harmlessLoop endIdx mode capacity rest' fuel idx (vmo.withFaults readError allocError) ev =
        true
  | 0, _, vmo, ev, hb, h => hrest vmo ev hb h
  | fuel + 1, idx, vmo, ev, hb, h => by
    rw [harmlessLoop] at h ⊢
    by_cases hlt : idx < endIdx
    swap
    · rw [if_neg hlt] at h ⊢
      exact hrest vmo ev hb h
    rw [if_pos hlt] at h ⊢
    rcases hcollect : (vmo.withFaults readError allocError).collectPages idx endIdx mode
      capacity with ⟨_ | batch, vmo'⟩
    · rfl
    obtain ⟨vmo'', hcollect', rfl⟩ :=
      collectPages_withFaults readError allocError hrel hb hcollect
    have hrecached := collectPages_recached hb idx endIdx mode capacity
    rw [hcollect'] at hrecached h
    simp only [Bool.and_eq_true] at h ⊢
    exact ⟨h.1, harmlessLoop_withFaults hrest fuel _
      (evictUpToDatePages_recached hrecached.backed _).backed h.2⟩

lemma harmlessAll_withFaults {capacity : ℕ} :
    ∀ (segs : List Segment) {vmo : Vmo} {ev : List (List ℕ)},
      vmo.Backed backend → harmlessAll capacity segs vmo ev = true →
      harmlessAll capacity segs (vmo.withFaults readError allocError) ev = true
  | [], _, _, _, _ => rfl
  | _ :: segs, _, _, hb, h =>
    harmlessLoop_withFaults readError allocError hrel
      (fun _ _ hb' h' => harmlessAll_withFaults segs hb' h') _ _ hb h

end

/-- With other evictions, some source is not stored although the write returns `Ok`. -/
lemma WriteJob.exists_not_stored (job : WriteJob) (hrel : job.backend.Reliable)
    (hfault : job.faultAt = none) (h : ¬ job.vmo.Harmless job.offset job.len slack evictions) :
    ∃ src s', job.vmo.write job.offset ⟨src, 0, job.len, none⟩ slack evictions = (.ok (), s') ∧
      ¬ Stored job.vmo s'.vmo job.offset job.len src := by
  obtain ⟨j, -, hinside, hlost⟩ := writeAll_harmful hrel hfault
    (batchCapacity_pos job.len_pos slack) _ _ (chained_writeSegments job) job.backed rfl
    (Bool.eq_false_of_not_eq_true fun htrue => h (.inr htrue))
  have hentry : job.offset + (job.entry j - job.offset) = job.entry j :=
    Nat.add_sub_cancel' (le_max_left _ _)
  have hlt : job.entry j < job.offset + job.len := by
    have := job.len_pos
    rw [WriteJob.entry]
    omega
  -- mark the byte that is lost with a value that occurs nowhere else
  obtain ⟨x, y, hbacking, hpage, hne⟩ := exists_byte_ne (job.vmo.backing (job.entry j))
    ((job.vmo.pages (job.entry j / pageSize)).bind fun page => page.bytes (job.entry j % pageSize))
  let src : ℕ → UInt8 := fun i => if job.offset + i = job.entry j then x else y
  have hsrc : ∀ i, src i = x → job.offset + i = job.entry j := by
    intro i hi
    by_contra hne'
    exact hne (by simpa [src, hne'] using hi)
  have hlacks : job.vmo.Lacks (job.entry j) x := by
    refine ⟨hbacking, fun page hp => ?_⟩
    rwa [hp] at hpage
  obtain ⟨s', idx', hok, hs'⟩ := hlost src x _ hsrc hlacks
    ((job.withSrc src).progress_start evictions) (AgreeFrom.refl _ _) rfl
  have hwrite := (job.withSrc src).write_eq slack evictions
  refine ⟨src, s', ?_, fun hstored => hs'.lacks.content_ne ?_⟩
  · rw [← hfault]
    exact hwrite.trans hok
  · have hbyte := hstored.inside (job.entry j - job.offset) (by omega)
    rw [hentry] at hbyte
    rw [hbyte]
    simp only [src, hentry, if_true]

/-- **Writes are right exactly under harmless evictions.**  Fix a VMO with a consistent cache,
the place of a write, and the pages that are evicted while its batches are waiting for page
locks.  Then every write there that returns `Ok`, whatever its source and whatever the device
and the source fail on, stores its source, changes no other byte and leaves no page partly
initialised, if and only if no batch loses a page other than its last one. -/
theorem write_stored_iff_harmless (hb : vmo.Backed backend) (hrel : backend.Reliable)
    (hinit : vmo.Initialized) (hfits : offset + len ≤ vmo.size) :
    (∀ readError allocError src faultAt s',
      (vmo.withFaults readError allocError).write offset ⟨src, 0, len, faultAt⟩ slack evictions =
        (.ok (), s') → Stored vmo s'.vmo offset len src) ↔
    vmo.Harmless offset len slack evictions := by
  rcases Nat.eq_zero_or_pos len with rfl | hlen
  · refine ⟨fun _ => .inl rfl, fun _ readError allocError src faultAt s' hok => ?_⟩
    obtain rfl : _ = s' := by simpa [write] using hok
    exact ⟨fun i hi => absurd hi (Nat.not_lt_zero i),
      fun addr _ => content_withFaults readError allocError vmo addr, hinit⟩
  constructor
  · intro h
    by_contra hharmful
    obtain ⟨src, s', hok, hnot⟩ := WriteJob.exists_not_stored
      ⟨vmo, backend, offset, len, fun _ => 0, none, hb, hinit, hlen, hfits⟩ hrel rfl hharmful
    refine hnot (h backend.readError backend.allocError src none s' ?_)
    rwa [vmo.withFaults_self hb]
  · intro hharmless readError allocError src faultAt s' hok
    have hfaulty := harmlessAll_withFaults readError allocError hrel _ hb
      (hharmless.resolve_left hlen.ne')
    have hstored := WriteJob.stored_of_harmless
      ⟨_, _, offset, len, src, faultAt, hb.withFaults readError allocError, hinit, hlen, hfits⟩
      (.inr hfaulty) hok
    exact ⟨hstored.inside, fun addr haddr => (hstored.outside addr haddr).trans
      (content_withFaults readError allocError vmo addr), hstored.initialized⟩

/-- Two cached pages, both clean and zero. -/
def twoPages : Vmo where
  backend := some ⟨fun _ _ => 0, fun _ => none, fun _ => none⟩
  size := 8192
  pages idx := if idx < 2 then some ⟨.upToDate, fun _ => some 0⟩ else none
  size_aligned := ⟨2, rfl⟩

lemma twoPages_backed : twoPages.Backed ⟨fun _ _ => 0, fun _ => none, fun _ => none⟩ := by
  refine ⟨rfl, fun {idx page} hpage => ?_⟩
  simp only [twoPages] at hpage
  split_ifs at hpage
  rw [← some.inj hpage]
  exact ⟨fun _ _ _ => rfl, by simp⟩

lemma twoPages_initialized : twoPages.Initialized := by
  intro idx page hpage _ off _
  simp only [twoPages] at hpage
  split_ifs at hpage
  rw [← some.inj hpage]
  rfl

/-- Losing the last page of a batch does no harm: it is collected again. -/
theorem twoPages_write_last_evicted :
    twoPages.Harmless 0 8192 0 [[1]] ∧ ∀ readError allocError src faultAt s',
      (twoPages.withFaults readError allocError).write 0 ⟨src, 0, 8192, faultAt⟩ 0 [[1]] =
        (.ok (), s') → Stored twoPages s'.vmo 0 8192 src :=
  ⟨by decide, (write_stored_iff_harmless twoPages_backed ⟨fun _ => rfl, fun _ => rfl⟩
    twoPages_initialized (by decide)).mpr (by decide)⟩

/-- Losing the first page of the batch swaps the two halves of the source: the write returns
`Ok`, but page 0 holds a byte of the second half and page 1 one of the first half. -/
theorem twoPages_write_first_evicted :
    ∃ s', twoPages.write 0 ⟨fun i => if i < 4096 then 1 else 2, 0, 8192, none⟩ 0 [[0]] =
        (.ok (), s') ∧
      s'.vmo.content 0 = some 2 ∧ s'.vmo.content 4096 = some 1 :=
  ⟨_, rfl, by decide, by decide⟩

end Main

end Asterinas.PageCache
