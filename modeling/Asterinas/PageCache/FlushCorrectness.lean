import Mathlib.Data.List.SplitBy
import Asterinas.PageCache.Flush

/-!
# When a failed flush keeps its dirty pages

All dirty pages of a flushed range are marked clean before the first run is submitted.  The
backend, and the caller for a run of several pages, roll the pages of the *failing* run back;
nobody rolls back the runs that come after it.  So a failed flush forgets pages unless the
failing run is the last one, and this is the only way in which a block backend forgets them;
the `virtiofs` backend also forgets pages of the failing run when it drops them.
-/

namespace Asterinas.PageCache

open List

/-! ## Every page of a run is accounted for -/

/-- The outcome of a submission accounts for the pages of the run, in order; a submission that
succeeds accepts all the pages it takes. -/
structure Submitted.Accounts (s : Submitted) (pages : List ℕ) : Prop where
  eq : s.handed ++ (s.redirtied ++ (s.dropped ++ s.rest)) = pages
  ok : s.result = .ok () → s.redirtied = [] ∧ s.dropped = []

/-- Moreover, a submission that succeeds takes the first `n` pages of the run. -/
structure Submitted.Takes (s : Submitted) (n : ℕ) (pages : List ℕ) : Prop
    extends s.Accounts pages where
  rest : s.result = .ok () → s.rest = pages.drop n

namespace Submitted

variable {s : Submitted} {pages : List ℕ}

lemma takes_zero (pages : List ℕ) : (none (.ok ()) pages).Takes 0 pages :=
  ⟨⟨rfl, fun _ => ⟨rfl, rfl⟩⟩, fun _ => rfl⟩

lemma takes_of_error {e : Error} {n : ℕ}
    (heq : s.handed ++ (s.redirtied ++ (s.dropped ++ s.rest)) = pages)
    (herr : s.result = .error e) : s.Takes n pages :=
  ⟨⟨heq, fun h => by simp [herr] at h⟩, fun h => by simp [herr] at h⟩

@[simp] lemma piece_rest (result : Except Error Unit) (pages rest : List ℕ) :
    (piece result pages rest).rest = rest := by
  cases result <;> rfl

lemma takes_piece (result : Except Error Unit) (n : ℕ) (pages : List ℕ) :
    (piece result (pages.take n) (pages.drop n)).Takes n pages := by
  cases result with
  | ok => exact ⟨⟨take_append_drop n pages, fun _ => ⟨rfl, rfl⟩⟩, fun _ => rfl⟩
  | error e => exact takes_of_error (take_append_drop n pages) rfl

lemma Takes.andThen {n m k : ℕ} (h : s.Takes n pages) {next : List ℕ → Submitted}
    (hnext : (next s.rest).Takes m s.rest) (hk : n + m = k) : (s.andThen next).Takes k pages := by
  subst hk
  unfold Submitted.andThen
  split <;> rename_i hres
  · exact takes_of_error h.eq hres
  · refine ⟨⟨?_, hnext.ok⟩, fun hok => ?_⟩
    · have heq := h.eq
      rw [(h.ok hres).1, (h.ok hres).2] at heq
      simpa only [append_assoc, hnext.eq, nil_append] using heq
    · rw [← drop_drop, ← h.rest hres]
      exact hnext.rest hok

end Submitted

open Submitted (takes_zero takes_piece takes_of_error piece_rest)

section Backends

variable {device : BlockDevice}

lemma submitPieces_takes : ∀ (fuel remaining : ℕ) (pages : List ℕ), remaining ≤ fuel →
    (submitPieces device fuel remaining pages).Takes remaining pages
  | 0, _, pages, hfuel => (Nat.le_zero.mp hfuel).symm ▸ takes_zero pages
  | fuel + 1, remaining, pages, hfuel => by
    rw [submitPieces]
    split_ifs with hzero
    · exact hzero ▸ takes_zero pages
    · exact (takes_piece _ _ pages).andThen (submitPieces_takes fuel _ _ (by omega))
        (by omega)

lemma submitContiguousWritePages_takes (pages : List ℕ) (len : ℕ) :
    (submitContiguousWritePages device pages len).Takes len pages := by
  unfold submitContiguousWritePages
  split_ifs
  · exact takes_of_error rfl rfl
  · exact submitPieces_takes len len pages le_rfl

lemma submitRanges_takes : ∀ (ranges : List ℕ) (err : Option Error) (pages : List ℕ),
    (submitRanges device ranges err pages).Takes ranges.sum pages
  | [], none, pages => takes_zero pages
  | [], some _, _ => takes_of_error rfl rfl
  | len :: ranges, err, pages =>
    (submitContiguousWritePages_takes pages len).andThen (submitRanges_takes ranges err _)
      sum_cons.symm

lemma submitRanges_ok : ∀ (ranges : List ℕ) (err : Option Error) (pages : List ℕ),
    (submitRanges device ranges err pages).result = .ok () → err = none
  | [], none, _, _ => rfl
  | [], some _, _, hok => by simp [submitRanges, Submitted.none] at hok
  | len :: ranges, err, pages, hok => by
    rw [submitRanges, Submitted.andThen] at hok
    split at hok <;> rename_i hres
    · simp [hres] at hok
    · exact submitRanges_ok ranges err _ hok

lemma submitWritePageRun_takes (submitWriteBio : ℕ → Except Error Unit) :
    ∀ pages : List ℕ, (submitWritePageRun submitWriteBio pages).Takes pages.length pages
  | [] => takes_zero []
  | idx :: pages =>
    (takes_piece (submitWriteBio idx) 1 (idx :: pages)).andThen (by
      rw [piece_rest]
      exact submitWritePageRun_takes submitWriteBio pages) (add_comm 1 _)

lemma VirtioFsInode.writeChunks_takes (inode : VirtioFsInode) :
    ∀ (fuel : ℕ) (pages : List ℕ), pages.length ≤ fuel →
      (inode.writeChunks fuel pages).Takes pages.length pages
  | 0, pages, hfuel => (Nat.le_zero.mp hfuel).symm ▸ takes_zero pages
  | fuel + 1, pages, hfuel => by
    rw [VirtioFsInode.writeChunks]
    split_ifs with hempty
    · exact hempty ▸ takes_zero pages
    dsimp only
    split
    · refine takes_of_error ?_ rfl
      simp only [nil_append, ← append_assoc, take_append_drop]
    · refine (takes_piece _ _ pages).andThen (writeChunks_takes inode fuel _ ?_) ?_ <;>
        rw [piece_rest, length_drop] <;> omega

end Backends

/-! ## One run -/

namespace WriteBackend

variable (backend : WriteBackend)

/-- A run that is accepted is taken as a whole. -/
lemma writePagesAsync_takes (pages : List ℕ) :
    (backend.writePagesAsync pages).Takes pages.length pages := by
  cases backend with
  | block submitWriteBio => exact submitWritePageRun_takes submitWriteBio pages
  | blockRun _ layout device =>
    have h := @submitRanges_takes device (layout.ranges (pages.headD 0) pages.length).1
      (layout.ranges (pages.headD 0) pages.length).2 pages
    exact ⟨h.toAccounts, fun hok => layout.covers _ _ (submitRanges_ok _ _ pages hok) ▸ h.rest hok⟩
  | virtiofs inode =>
    simp only [writePagesAsync, VirtioFsInode.writePagesAsync]
    split
    · exact takes_of_error rfl rfl
    · exact inode.writeChunks_takes _ pages le_rfl

lemma writePageAsync_accounts (idx : ℕ) :
    (backend.writePageAsync idx).Accounts [idx] ∧ (backend.writePageAsync idx).rest = [] := by
  cases backend with
  | virtiofs inode =>
    simp only [writePageAsync, VirtioFsInode.writePageAsync]
    split
    · exact ⟨⟨rfl, fun h => by simp at h⟩, rfl⟩
    split
    · exact ⟨⟨rfl, fun h => by simp at h⟩, rfl⟩
    · exact ⟨(takes_piece _ 1 [idx]).toAccounts, piece_rest _ _ _⟩
  | _ => exact ⟨(takes_piece _ 1 [idx]).toAccounts, piece_rest _ _ _⟩

/-- **The fate of a run.**  Every page of a run is handed over, dirty again, or dropped, and
exactly one of these; a run that is accepted is handed over as a whole. -/
lemma submitRun_spec (run : List ℕ) :
    ((backend.submitRun run).handed ++ ((backend.submitRun run).redirtied ++
      (backend.submitRun run).dropped)).Perm run ∧
    ((backend.submitRun run).result = .ok () →
      (backend.submitRun run).redirtied = [] ∧ (backend.submitRun run).dropped = []) := by
  unfold submitRun
  split
  · rename_i idx
    obtain ⟨h, hrest⟩ := backend.writePageAsync_accounts idx
    have heq := h.eq
    rw [hrest, append_nil] at heq
    exact ⟨.of_eq heq, h.ok⟩
  · have h := backend.writePagesAsync_takes run
    dsimp only
    split <;> rename_i hres
    · have heq := h.eq
      rw [h.rest hres, drop_length, append_nil] at heq
      exact ⟨.of_eq heq, h.ok⟩
    · refine ⟨?_, fun hok => by simp [hres] at hok⟩
      rw [append_assoc]
      refine Perm.trans (Perm.append_left _ (Perm.append_left _ ?_)) (.of_eq h.eq)
      exact perm_append_comm

end WriteBackend

/-! ## The loop over the runs -/

section Runs

variable {backend : WriteBackend}

/-- The backend takes the run as a whole. -/
def WriteBackend.Accepts (backend : WriteBackend) (run : List ℕ) : Prop :=
  (backend.submitRun run).result = .ok ()

instance (backend : WriteBackend) (run : List ℕ) : Decidable (backend.Accepts run) :=
  match h : (backend.submitRun run).result with
  | .ok () => isTrue h
  | .error _ => isFalse fun h' => by simp [WriteBackend.Accepts, h] at h'

lemma Vmo.setStates_nil (vmo : Vmo) (state : PageState) : vmo.setStates [] state = vmo := by
  simp [Vmo.setStates]

/-- While runs are accepted, they are handed over and no page changes its state. -/
lemma flushRuns_append : ∀ (pre post : List (List ℕ)) (s : FlushState),
    (∀ run ∈ pre, backend.Accepts run) →
    ∃ handed, handed.Perm pre.flatten ∧
      flushRuns backend (pre ++ post) s = flushRuns backend post ⟨s.vmo, s.handed ++ handed⟩
  | [], post, s, _ => ⟨[], .nil, by simp⟩
  | run :: pre, post, s, hacc => by
    obtain ⟨hrun, hpre⟩ := forall_mem_cons.mp hacc
    obtain ⟨hperm, hok⟩ := backend.submitRun_spec run
    rw [(hok hrun).1, (hok hrun).2] at hperm
    obtain ⟨handed, hperm', heq⟩ := flushRuns_append pre post
      ⟨s.vmo, s.handed ++ (backend.submitRun run).handed⟩ hpre
    refine ⟨(backend.submitRun run).handed ++ handed, ?_, ?_⟩
    · rw [flatten_cons]
      exact Perm.append (by simpa using hperm) hperm'
    · rw [cons_append, flushRuns]
      simp only [(hok hrun).1, Vmo.setStates_nil, show (backend.submitRun run).result = .ok ()
        from hrun, heq, append_assoc]

/-- The run at which the loop stops. -/
lemma flushRuns_cons_error {run : List ℕ} {e : Error}
    (herr : (backend.submitRun run).result = .error e) (post : List (List ℕ)) (s : FlushState) :
    flushRuns backend (run :: post) s =
      (.error e, ⟨s.vmo.setStates (backend.submitRun run).redirtied .dirty,
        s.handed ++ (backend.submitRun run).handed⟩) := by
  rw [flushRuns]
  simp only [herr]

/-- The runs up to the first one that is not accepted, if there is one. -/
lemma accepts_all_or_first_error (runs : List (List ℕ)) :
    (∀ run ∈ runs, backend.Accepts run) ∨
    ∃ pre run post e, runs = pre ++ run :: post ∧ (∀ r ∈ pre, backend.Accepts r) ∧
      (backend.submitRun run).result = .error e := by
  induction runs with
  | nil => exact .inl fun _ h => absurd h not_mem_nil
  | cons run runs ih =>
    cases hres : (backend.submitRun run).result with
    | error e => exact .inr ⟨[], run, runs, e, rfl, fun _ h => absurd h not_mem_nil, hres⟩
    | ok =>
      rcases ih with hall | ⟨pre, bad, post, e, rfl, hpre, herr⟩
      · exact .inl (forall_mem_cons.mpr ⟨hres, hall⟩)
      · exact .inr ⟨run :: pre, bad, post, e, rfl, forall_mem_cons.mpr ⟨hres, hpre⟩, herr⟩

end Runs

/-! ## Page states and the pages of a range -/

section States

variable {vmo : Vmo} {idxs : List ℕ} {idx : ℕ}

lemma Vmo.isDirty_setStates_of_notMem (h : idx ∉ idxs) (state : PageState) :
    (vmo.setStates idxs state).isDirty idx = vmo.isDirty idx := by
  simp [Vmo.isDirty, Vmo.setStates, h]

lemma Vmo.isDirty_setStates_dirty (h : idx ∈ idxs) (hpage : (vmo.pages idx).isSome) :
    (vmo.setStates idxs .dirty).isDirty idx := by
  obtain ⟨page, hpage⟩ := Option.isSome_iff_exists.mp hpage
  simp [Vmo.isDirty, Vmo.setStates, h, hpage]

lemma Vmo.isDirty_setStates_upToDate (h : idx ∈ idxs) :
    (vmo.setStates idxs .upToDate).isDirty idx = false := by
  cases hpage : vmo.pages idx <;> simp [Vmo.isDirty, Vmo.setStates, h, hpage]

lemma Vmo.isSome_setStates (state : PageState) :
    ((vmo.setStates idxs state).pages idx).isSome = (vmo.pages idx).isSome := by
  simp only [Vmo.setStates]
  split_ifs <;> simp

lemma Vmo.isSome_of_isDirty (h : vmo.isDirty idx) : (vmo.pages idx).isSome := by
  cases hpage : vmo.pages idx with
  | none => simp [Vmo.isDirty, hpage] at h
  | some page => rfl

lemma Vmo.mem_dirtyPages {start stop : ℕ} :
    idx ∈ vmo.dirtyPages start stop ↔
      vmo.isDirty idx ∧ start / pageSize ≤ idx ∧ idx < divCeil stop pageSize := by
  simp only [Vmo.dirtyPages, alignDown, alignUp, Nat.mul_div_cancel _ pageSize_pos,
    mem_filter, mem_range'_1]
  constructor
  · rintro ⟨⟨hlo, hhi⟩, hdirty⟩
    exact ⟨hdirty, hlo, by omega⟩
  · rintro ⟨hdirty, hlo, hhi⟩
    exact ⟨⟨hlo, by omega⟩, hdirty⟩

lemma Vmo.nodup_dirtyPages (vmo : Vmo) (start stop : ℕ) : (vmo.dirtyPages start stop).Nodup :=
  List.Nodup.filter _ nodup_range'

/-- Pages are cached only inside the VMO. -/
def Vmo.InSize (vmo : Vmo) : Prop := ∀ idx, (vmo.pages idx).isSome → idx * pageSize < vmo.size

/-- A range that starts past the end has no dirty page. -/
lemma Vmo.InSize.dirtyPages_eq_nil {start : ℕ} (h : vmo.InSize) (hstart : vmo.size ≤ start)
    (stop : ℕ) : vmo.dirtyPages start stop = [] := by
  rw [eq_nil_iff_forall_not_mem]
  intro idx hidx
  obtain ⟨hdirty, hlo, -⟩ := Vmo.mem_dirtyPages.mp hidx
  have hin := h idx (Vmo.isSome_of_isDirty hdirty)
  obtain ⟨q, hq⟩ := vmo.size_aligned
  rw [hq] at hin hstart
  have hq_le : q ≤ start / pageSize := by
    rw [Nat.le_div_iff_mul_le pageSize_pos, mul_comm]
    exact hstart
  have : pageSize * q ≤ idx * pageSize := by
    rw [mul_comm]
    exact Nat.mul_le_mul_right _ (hq_le.trans hlo)
  omega

end States

/-! ## Main result -/

section Main

variable {vmo : Vmo} {backend : WriteBackend} {start stop : ℕ} {waitAll : Except Error Unit}

/-- **No dirty data is forgotten.**  After a flush that fails, a page that was dirty and was not
handed to the backend is still dirty; after one that succeeds, every dirty page of the range
was handed over exactly once. -/
structure Vmo.FlushSafe (vmo : Vmo) (backend : WriteBackend) (start stop : ℕ)
    (waitAll : Except Error Unit) : Prop where
  err : ∀ e s, vmo.flushDirtyPages backend start stop waitAll = (.error e, s) →
    ∀ idx, vmo.isDirty idx → idx ∉ s.handed → s.vmo.isDirty idx
  ok : ∀ s, vmo.flushDirtyPages backend start stop waitAll = (.ok (), s) →
    ∀ idx, vmo.isDirty idx → start / pageSize ≤ idx → idx < divCeil stop pageSize →
      s.handed.count idx = 1

/-- A flush of which the backend accepts every run. -/
lemma Vmo.flushDirtyPages_accepted (waitAll : Except Error Unit) (hstart : ¬ vmo.size ≤ start)
    (hall : ∀ run ∈ pageRuns (vmo.dirtyPages start stop), backend.Accepts run) :
    ∃ handed, handed.Perm (vmo.dirtyPages start stop) ∧
      vmo.flushDirtyPages backend start stop waitAll =
        (waitAll, ⟨vmo.setStates (vmo.dirtyPages start stop) .upToDate, handed⟩) := by
  obtain ⟨handed, hperm, heq⟩ := flushRuns_append _ []
    ⟨vmo.setStates (vmo.dirtyPages start stop) .upToDate, []⟩ hall
  rw [pageRuns, flatten_splitBy] at hperm
  refine ⟨handed, hperm, ?_⟩
  simp only [Vmo.flushDirtyPages, if_neg hstart]
  rw [append_nil] at heq
  rw [heq]
  rfl

variable {run : List ℕ}

/-- A flush that stops at a run. -/
lemma Vmo.flushDirtyPages_stopped {pre post : List (List ℕ)} (waitAll : Except Error Unit)
    (hstart : ¬ vmo.size ≤ start) {e : Error}
    (hruns : pageRuns (vmo.dirtyPages start stop) = pre ++ run :: post)
    (hpre : ∀ r ∈ pre, backend.Accepts r) (herr : (backend.submitRun run).result = .error e) :
    ∃ handed, handed.Perm pre.flatten ∧
      vmo.flushDirtyPages backend start stop waitAll =
        (.error e, ⟨(vmo.setStates (vmo.dirtyPages start stop) .upToDate).setStates
            (backend.submitRun run).redirtied .dirty,
          handed ++ (backend.submitRun run).handed⟩) := by
  obtain ⟨handed, hperm, heq⟩ := flushRuns_append pre (run :: post)
    ⟨vmo.setStates (vmo.dirtyPages start stop) .upToDate, []⟩ hpre
  refine ⟨handed, hperm, ?_⟩
  simp only [Vmo.flushDirtyPages, if_neg hstart, hruns]
  rw [heq, flushRuns_cons_error herr]
  rfl

/-- The runs cover the dirty pages without overlap: a page of one run is in no other run. -/
lemma notMem_of_mem_run {pages : List ℕ} (hnodup : pages.Nodup) {pre post : List (List ℕ)}
    (hruns : pageRuns pages = pre ++ run :: post) (idx : ℕ) :
    (idx ∈ run → idx ∉ pre.flatten) ∧ (idx ∈ post.flatten → idx ∉ pre.flatten ∧ idx ∉ run) ∧
      run.Nodup := by
  have hflat : pre.flatten ++ (run ++ post.flatten) = pages := by
    rw [← flatten_cons, ← flatten_append, ← hruns, pageRuns, flatten_splitBy]
  rw [← hflat, nodup_append', nodup_append'] at hnodup
  obtain ⟨-, ⟨hrun, -, hdisj⟩, hdisj'⟩ := hnodup
  refine ⟨fun hmem hpre => hdisj' hpre (mem_append_left _ hmem), fun hmem => ?_, hrun⟩
  exact ⟨fun hpre => hdisj' hpre (mem_append_right _ hmem), fun hrun' => hdisj hrun' hmem⟩

/-- A flush that stops at a run forgets the runs after it and the pages dropped by it. -/
lemma Vmo.flushSafe_stopped_iff {pre post : List (List ℕ)} (hstart : ¬ vmo.size ≤ start) {e : Error}
    (hruns : pageRuns (vmo.dirtyPages start stop) = pre ++ run :: post)
    (hpre : ∀ r ∈ pre, backend.Accepts r) (herr : (backend.submitRun run).result = .error e) :
    vmo.FlushSafe backend start stop waitAll ↔
      post = [] ∧ (backend.submitRun run).dropped = [] := by
  obtain ⟨handed, hperm, hflush⟩ := Vmo.flushDirtyPages_stopped waitAll hstart hruns hpre herr
  have hrun := (backend.submitRun_spec run).1
  have hdisj := notMem_of_mem_run (vmo.nodup_dirtyPages start stop) hruns
  have hflat : pre.flatten ++ (run ++ post.flatten) = vmo.dirtyPages start stop := by
    rw [← flatten_cons, ← flatten_append, ← hruns, pageRuns, flatten_splitBy]
  constructor
  · intro h
    have hforgotten : ∀ idx ∈ vmo.dirtyPages start stop, idx ∉ pre.flatten →
        idx ∉ (backend.submitRun run).handed → idx ∈ (backend.submitRun run).redirtied := by
      intro idx hmem hnotpre hnothanded
      by_contra hnotred
      have hdirty := h.err e _ hflush idx (Vmo.mem_dirtyPages.mp hmem).1 (by
        rw [mem_append, hperm.mem_iff]
        exact fun hor => hor.elim hnotpre hnothanded)
      rw [Vmo.isDirty_setStates_of_notMem hnotred, Vmo.isDirty_setStates_upToDate hmem] at hdirty
      exact absurd hdirty (by decide)
    constructor
    · by_contra hpost
      obtain ⟨next, post', rfl⟩ := exists_cons_of_ne_nil hpost
      have hne : next ≠ [] := ne_nil_of_mem_splitBy (r := fun idx next => idx + 1 == next)
        (l := vmo.dirtyPages start stop) (by rw [← pageRuns, hruns]; simp)
      obtain ⟨idx, rest, rfl⟩ := exists_cons_of_ne_nil hne
      obtain ⟨hnotpre, hnotrun⟩ := (hdisj idx).2.1 (by simp)
      refine hnotrun (hrun.mem_iff.mp ?_)
      have := hforgotten idx (by rw [← hflat]; simp) hnotpre fun hhanded =>
        hnotrun (hrun.mem_iff.mp (mem_append_left _ hhanded))
      simp [this]
    · by_contra hdropped
      obtain ⟨idx, rest, hidx⟩ := exists_cons_of_ne_nil hdropped
      have hmem : idx ∈ run := hrun.mem_iff.mp (by simp [hidx])
      have hnodup := hrun.nodup_iff.mpr (hdisj idx).2.2
      rw [nodup_append', nodup_append', hidx] at hnodup
      have := hforgotten idx (by rw [← hflat]; simp [hmem]) ((hdisj idx).1 hmem)
        fun hhanded => hnodup.2.2 hhanded (by simp)
      exact hnodup.2.1.2.2 this (by simp)
  · rintro ⟨rfl, hdropped⟩
    rw [hdropped, append_nil] at hrun
    refine ⟨fun e' s h idx hdirty hnot => ?_, fun s h => by simp [hflush] at h⟩
    obtain ⟨-, rfl⟩ := Prod.mk.injEq .. ▸ hflush.symm.trans h
    by_cases hred : idx ∈ (backend.submitRun run).redirtied
    · exact Vmo.isDirty_setStates_dirty hred
        (by rw [Vmo.isSome_setStates]; exact Vmo.isSome_of_isDirty hdirty)
    · rw [Vmo.isDirty_setStates_of_notMem hred, Vmo.isDirty_setStates_of_notMem, hdirty]
      intro hmem
      rw [mem_append, hperm.mem_iff] at hnot
      rw [← hflat, flatten_nil, append_nil, mem_append] at hmem
      rcases hmem with hmem | hmem
      · exact hnot (.inl hmem)
      · exact (mem_append.mp (hrun.mem_iff.mpr hmem)).elim (fun hh => hnot (.inr hh)) hred

/-- **A flush forgets nothing exactly when only its last run can fail.**  More precisely, every
run but the last is accepted, and the last one, should it fail, is not dropped. -/
theorem flush_safe_iff_last_run (hsize : vmo.InSize) :
    vmo.FlushSafe backend start stop waitAll ↔
      (∀ run ∈ (pageRuns (vmo.dirtyPages start stop)).dropLast, backend.Accepts run) ∧
      ∀ run ∈ (pageRuns (vmo.dirtyPages start stop)).getLast?,
        (backend.submitRun run).dropped = [] := by
  by_cases hstart : vmo.size ≤ start
  · have hnil := hsize.dirtyPages_eq_nil hstart stop
    have hflush : vmo.flushDirtyPages backend start stop waitAll = (.ok (), ⟨vmo, []⟩) := by
      rw [Vmo.flushDirtyPages, if_pos hstart]
    refine ⟨fun _ => by simp [hnil, pageRuns], fun _ => ⟨fun e s h => by simp [hflush] at h, ?_⟩⟩
    intro s h idx hdirty hlo hhi
    have hmem : idx ∈ vmo.dirtyPages start stop := Vmo.mem_dirtyPages.mpr ⟨hdirty, hlo, hhi⟩
    simp [hnil] at hmem
  have hnodup := vmo.nodup_dirtyPages start stop
  rcases accepts_all_or_first_error (pageRuns (vmo.dirtyPages start stop)) with
    hall | ⟨pre, run, post, e, hruns, hpre, herr⟩
  · -- everything was handed over
    obtain ⟨handed, hperm, hflush⟩ := Vmo.flushDirtyPages_accepted waitAll hstart hall
    refine ⟨fun _ => ⟨fun run hrun => hall run (mem_of_mem_dropLast hrun),
      fun run hrun => ?_⟩, fun _ => ⟨fun e s h idx hdirty hnot => ?_,
      fun s h idx hdirty hlo hhi => ?_⟩⟩
    · exact ((backend.submitRun_spec run).2 (hall run (mem_of_mem_getLast? hrun))).2
    · obtain ⟨-, rfl⟩ := Prod.mk.injEq .. ▸ hflush.symm.trans h
      rwa [Vmo.isDirty_setStates_of_notMem fun hmem => hnot (hperm.mem_iff.mpr hmem)]
    · obtain ⟨-, rfl⟩ := Prod.mk.injEq .. ▸ hflush.symm.trans h
      rw [hperm.count_eq]
      exact count_eq_one_of_mem hnodup (Vmo.mem_dirtyPages.mpr ⟨hdirty, hlo, hhi⟩)
  · rw [Vmo.flushSafe_stopped_iff hstart hruns hpre herr, hruns]
    constructor
    · rintro ⟨rfl, hdropped⟩
      rw [dropLast_concat, getLast?_concat]
      exact ⟨hpre, fun r hr => Option.some.inj hr ▸ hdropped⟩
    · rintro ⟨haccepts, hlast⟩
      have hpost : post = [] := by
        by_contra hne
        -- a failing run before the last one is not accepted
        have hmem : run ∈ (pre ++ run :: post).dropLast := by
          rw [dropLast_append_of_ne_nil (by simp), dropLast_cons_of_ne_nil hne]
          simp
        have := haccepts run hmem
        rw [WriteBackend.Accepts, herr] at this
        exact absurd this (by simp)
      subst hpost
      exact ⟨rfl, hlast run (by simp)⟩

/-- Three cached pages of which the first and the last are dirty: two runs. -/
def twoRuns : Vmo where
  backend := some ⟨fun _ _ => 0, fun _ => none, fun _ => none⟩
  size := 12288
  pages idx := if idx < 3 then some ⟨if idx = 1 then .upToDate else .dirty, fun _ => some 0⟩
    else none
  size_aligned := ⟨3, rfl⟩

lemma twoRuns_inSize : twoRuns.InSize := by
  intro idx hidx
  by_cases hlt : idx < 3
  · simp only [twoRuns, pageSize]
    omega
  · simp [twoRuns, hlt] at hidx

/-- The second run may be refused: its page stays dirty. -/
theorem twoRuns_flush_last_refused :
    twoRuns.isDirty 2 ∧ twoRuns.FlushSafe
      (.block fun idx => if idx = 2 then .error (.new .eio) else .ok ()) 0 12288 (.ok ()) :=
  ⟨by decide, (flush_safe_iff_last_run twoRuns_inSize).mpr ⟨by decide, by decide⟩⟩

/-- When the first run is refused, the page of the second run is neither handed over nor dirty
any more, although the flush returns an error. -/
theorem twoRuns_flush_first_refused :
    ∃ s, twoRuns.flushDirtyPages (.block fun idx => if idx = 0 then .error (.new .eio) else .ok ())
        0 12288 (.ok ()) = (.error (.new .eio), s) ∧
      twoRuns.isDirty 2 ∧ 2 ∉ s.handed ∧ ¬ s.vmo.isDirty 2 :=
  ⟨_, rfl, by decide, by decide, by decide⟩

end Main

end Asterinas.PageCache
