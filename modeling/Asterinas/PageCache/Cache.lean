import Asterinas.PageCache.Vmo

/-!
# Moving pages in and out of the cache

Committing and evicting pages changes which pages are present, never which bytes a VMO
stores.  `Vmo.Recached` says so of two VMOs, and the commit and evict operations are shown to
give it; `Vmo.AgreeFrom` says that two VMOs look alike from some page on, which is all that
an operation on later pages can see.
-/

namespace Asterinas.PageCache

/-! ## Lemmas on single entries -/

lemma CachePage.consistent_allocUninit (backend : Backend) (idx : ℕ) :
    CachePage.allocUninit.Consistent backend idx := by
  constructor <;> simp [CachePage.allocUninit]

lemma CachePage.consistent_readIn (backend : Backend) (idx : ℕ) :
    CachePage.Consistent ⟨.upToDate, fun off => some (backend.disk idx off)⟩ backend idx := by
  constructor <;> simp

namespace Vmo

variable {vmo : Vmo} {backend : Backend}

section

variable (idx : ℕ) (entry : Option CachePage)

@[simp] lemma setEntry_backend : (vmo.setEntry idx entry).backend = vmo.backend := rfl

@[simp] lemma setEntry_pages_self : (vmo.setEntry idx entry).pages idx = entry := by
  simp [setEntry]

end

variable {idx : ℕ}

lemma setEntry_pages_of_ne {j : ℕ} (hj : j ≠ idx) (entry : Option CachePage) :
    (vmo.setEntry idx entry).pages j = vmo.pages j := by
  simp [setEntry, hj]

variable {entry : Option CachePage}

lemma setEntry_self (h : vmo.pages idx = entry) : vmo.setEntry idx entry = vmo := by
  subst h
  simp [setEntry]

@[simp] lemma setEntry_setEntry (idx : ℕ) (entry entry' : Option CachePage) :
    (vmo.setEntry idx entry).setEntry idx entry' = vmo.setEntry idx entry' := by
  simp [setEntry]

lemma of_setEntry_pages {j : ℕ} {page : CachePage}
    (h : (vmo.setEntry idx entry).pages j = some page) :
    (j = idx ∧ entry = some page) ∨ vmo.pages j = some page := by
  by_cases hj : j = idx
  · subst hj
    exact .inl ⟨rfl, setEntry_pages_self j entry ▸ h⟩
  · exact .inr (setEntry_pages_of_ne hj entry ▸ h)

/-- Replacing an entry keeps the cache consistent when the new page is consistent. -/
lemma Backed.setEntry (hb : vmo.Backed backend)
    (hentry : ∀ page, entry = some page → page.Consistent backend idx) :
    (vmo.setEntry idx entry).Backed backend := by
  refine ⟨hb.backend_eq, fun {j page} hpage => ?_⟩
  rcases of_setEntry_pages hpage with ⟨rfl, hnew⟩ | hold
  · exact hentry page hnew
  · exact hb.consistent hold

lemma Initialized.setEntry (hi : vmo.Initialized)
    (hentry : ∀ page, entry = some page → page.state ≠ .uninit → page.Full) :
    (vmo.setEntry idx entry).Initialized := by
  intro j page hpage
  rcases of_setEntry_pages hpage with ⟨rfl, hnew⟩ | hold
  · exact hentry page hnew
  · exact hi j page hold

lemma Backed.backing_eq (hb : vmo.Backed backend) (addr : ℕ) :
    vmo.backing addr = some (backend.disk (addr / pageSize) (addr % pageSize)) := by
  simp only [backing, hb.backend_eq]

lemma content_setEntry_of_ne {addr : ℕ} (h : addr / pageSize ≠ idx)
    (entry : Option CachePage) : (vmo.setEntry idx entry).content addr = vmo.content addr := by
  simp only [content, setEntry_pages_of_ne h, backing, setEntry_backend]

lemma content_setEntry_self {addr : ℕ} (h : addr / pageSize = idx) (entry : Option CachePage) :
    (vmo.setEntry idx entry).content addr =
      entryByte (vmo.backing addr) (addr % pageSize) entry := by
  simp only [content, h, setEntry_pages_self, backing, setEntry_backend]

/-- Replacing an entry by one with the same bytes changes no byte of the VMO. -/
lemma content_setEntry_of_entryByte (h : ∀ addr, addr / pageSize = idx →
      entryByte (vmo.backing addr) (addr % pageSize) entry = vmo.content addr) (addr : ℕ) :
    (vmo.setEntry idx entry).content addr = vmo.content addr := by
  by_cases hidx : addr / pageSize = idx
  · rw [content_setEntry_self hidx, h addr hidx]
  · exact content_setEntry_of_ne hidx entry

/-! ## Committing a page -/

/-- What committing a page does to the entry of its index: the result, and the new entry. -/
def commitEntry (backend : Backend) (size idx : ℕ) (mode : CommitMode) :
    Option CachePage → Except Error Unit × Option CachePage
  | some page =>
    if mode = .overwrite ∨ page.state ≠ .uninit then (.ok (), some page)
    else readEntry page
  | none =>
    if divCeil size pageSize ≤ idx then
      (.error (.withMessage .einval "the offset is outside the VMO"), none)
    else
      match backend.allocError idx with
      | some e => (.error e, none)
      | none => if mode = .overwrite then (.ok (), some .allocUninit) else readEntry .allocUninit
where
  /-- The entry after a read of the page from the device. -/
  readEntry (page : CachePage) : Except Error Unit × Option CachePage :=
    match backend.readError idx with
    | some e => (.error e, some page)
    | none => (.ok (), some ⟨.upToDate, fun off => some (backend.disk idx off)⟩)

/-- `commitPage` touches the entry of its index only, and reads nothing else. -/
lemma commitPage_eq (hb : vmo.backend = some backend) (idx : ℕ) (mode : CommitMode) :
    vmo.commitPage idx mode =
      ((commitEntry backend vmo.size idx mode (vmo.pages idx)).1,
        vmo.setEntry idx (commitEntry backend vmo.size idx mode (vmo.pages idx)).2) := by
  simp only [commitPage, hb, tryCommitWithCursor]
  cases hpage : vmo.pages idx with
  | none =>
    simp only [handleCommitError, commitOnBacked, hpage, commitEntry, commitEntry.readEntry]
    by_cases hidx : divCeil vmo.size pageSize ≤ idx
    · simp [hidx, setEntry_self hpage]
    · cases halloc : backend.allocError idx with
      | some e => simp [hidx, setEntry_self hpage]
      | none =>
        cases mode <;> cases hread : backend.readError idx <;>
          simp [hidx, CommitMode.skipsBackendRead, ensureInit, CachePage.allocUninit, hread,
            setPage]
  | some page =>
    cases mode <;> cases hstate : page.state <;> cases hread : backend.readError idx <;>
      simp [CommitMode.skipsBackendRead, hstate, commitEntry, commitEntry.readEntry,
        handleCommitError, ensureInit, hpage, hread, setPage, setEntry_self hpage]

/-- The entry after a commit is the old one, a fresh `Uninit` page for an absent one, or the
page as the device has it in place of an absent or `Uninit` one. -/
lemma commitEntry_cases (backend : Backend) (size idx : ℕ) (mode : CommitMode)
    (entry : Option CachePage) : (commitEntry backend size idx mode entry).2 = entry ∨
    (entry = none ∧ (commitEntry backend size idx mode entry).2 = some .allocUninit) ∨
    ((∀ page, entry = some page → page.state = .uninit) ∧
      (commitEntry backend size idx mode entry).2 =
        some ⟨.upToDate, fun off => some (backend.disk idx off)⟩) := by
  cases entry with
  | none =>
    simp only [commitEntry, commitEntry.readEntry]
    split_ifs with h
    · simp
    all_goals cases backend.allocError idx <;> cases backend.readError idx <;> simp
  | some page =>
    simp only [commitEntry, commitEntry.readEntry]
    split_ifs with h
    · simp
    · push Not at h
      cases backend.readError idx <;> simp [h.2]

variable {mode : CommitMode}

/-- A page that was committed is present, and initialised unless it is to be overwritten. -/
lemma commitEntry_ok {size : ℕ} (h : (commitEntry backend size idx mode entry).1 = .ok ()) :
    ∃ page, (commitEntry backend size idx mode entry).2 = some page ∧
      (mode = .read → page.state ≠ .uninit) := by
  cases entry with
  | none =>
    simp only [commitEntry, commitEntry.readEntry] at h ⊢
    by_cases hidx : divCeil size pageSize ≤ idx
    · simp [hidx] at h
    rw [if_neg hidx] at h ⊢
    cases halloc : backend.allocError idx with
    | some e => simp [halloc] at h
    | none =>
      cases mode with
      | overwrite => simp
      | read => cases hread : backend.readError idx <;> simp_all
  | some page =>
    simp only [commitEntry, commitEntry.readEntry] at h ⊢
    split_ifs at h ⊢ with hpage
    · refine ⟨page, rfl, fun hmode => ?_⟩
      simpa [hmode] using hpage
    · cases hread : backend.readError idx <;> simp_all

lemma commitEntry_reliable (hrel : backend.Reliable) {size : ℕ}
    (hidx : idx < divCeil size pageSize) (mode : CommitMode) (entry : Option CachePage) :
    (commitEntry backend size idx mode entry).1 = .ok () := by
  cases entry with
  | none =>
    simp only [commitEntry, commitEntry.readEntry, hrel.allocError, hrel.readError,
      if_neg hidx.not_ge]
    split_ifs <;> rfl
  | some page =>
    simp only [commitEntry, commitEntry.readEntry, hrel.readError]
    split_ifs <;> rfl

/-! ## Moving pages in and out of the cache -/

/-- **Only the cache has changed.**  The VMO `w` is consistent with the backend and stores the
same bytes as `v`, though other pages may be present. -/
structure Recached (backend : Backend) (v w : Vmo) : Prop where
  backed : w.Backed backend
  size_eq : w.size = v.size
  content_eq : ∀ addr, w.content addr = v.content addr
  initialized : v.Initialized → w.Initialized

lemma Recached.refl (hb : vmo.Backed backend) : Recached backend vmo vmo :=
  ⟨hb, rfl, fun _ => rfl, id⟩

variable {v w : Vmo}

lemma Recached.trans {u : Vmo} (huv : Recached backend u v) (hvw : Recached backend v w) :
    Recached backend u w where
  backed := hvw.backed
  size_eq := hvw.size_eq.trans huv.size_eq
  content_eq addr := (hvw.content_eq addr).trans (huv.content_eq addr)
  initialized := hvw.initialized ∘ huv.initialized

/-- Bringing in a page with the bytes the VMO already has at its place. -/
lemma Recached.setPage {page : CachePage} (hb : vmo.Backed backend)
    (hpage : page.Consistent backend idx) (hfull : page.state ≠ .uninit → page.Full)
    (hbyte : ∀ addr, addr / pageSize = idx →
      entryByte (vmo.backing addr) (addr % pageSize) (some page) = vmo.content addr) :
    Recached backend vmo (vmo.setEntry idx (some page)) where
  backed := hb.setEntry fun _ h => Option.some.inj h ▸ hpage
  size_eq := rfl
  content_eq := content_setEntry_of_entryByte hbyte
  initialized hi := hi.setEntry fun _ h => Option.some.inj h ▸ hfull

lemma commitPage_recached (hb : vmo.Backed backend) (idx : ℕ) (mode : CommitMode) :
    Recached backend vmo (vmo.commitPage idx mode).2 := by
  rw [commitPage_eq hb.backend_eq]
  rcases commitEntry_cases backend vmo.size idx mode (vmo.pages idx) with
    h | ⟨hnone, h⟩ | ⟨huninit, h⟩ <;> rw [h]
  · rw [setEntry_self rfl]
    exact Recached.refl hb
  · refine Recached.setPage hb (CachePage.consistent_allocUninit backend idx)
      (fun h => absurd rfl h) fun addr haddr => ?_
    simp [content, haddr, hnone, entryByte, CachePage.allocUninit]
  · refine Recached.setPage hb (CachePage.consistent_readIn backend idx)
      (fun _ off _ => rfl) fun addr haddr => ?_
    cases hpage : vmo.pages idx with
    | none => simp [content, haddr, hpage, entryByte, hb.backing_eq]
    | some page => simp [content, haddr, hpage, entryByte, hb.backing_eq, huninit page hpage]

/-! ## Committing a range of pages -/

/-- Committing a range leaves the pages outside it alone; when there was no error all its pages are
present, and initialised unless they are to be overwritten. -/
lemma commitRange_spec (mode : CommitMode) :
    ∀ (n idx : ℕ) {vmo : Vmo}, vmo.Backed backend →
      Recached backend vmo (commitRange mode idx n vmo).2 ∧
      (∀ j, j < idx ∨ idx + n ≤ j → (commitRange mode idx n vmo).2.pages j = vmo.pages j) ∧
      ((commitRange mode idx n vmo).1 = .ok () → ∀ j, idx ≤ j → j < idx + n →
        ∃ page, (commitRange mode idx n vmo).2.pages j = some page ∧
          (mode = .read → page.state ≠ .uninit))
  | 0, _, _, hb => ⟨.refl hb, fun _ _ => rfl, fun _ _ _ _ => by omega⟩
  | n + 1, idx, vmo, hb => by
    have hpage := commitPage_recached hb idx mode
    simp only [commitRange, commitPage_eq hb.backend_eq] at hpage ⊢
    cases hentry : commitEntry backend vmo.size idx mode (vmo.pages idx) with
    | mk result entry =>
      rw [hentry] at hpage
      have hother : ∀ j, j < idx ∨ idx + (n + 1) ≤ j →
          (vmo.setEntry idx entry).pages j = vmo.pages j :=
        fun j hj => setEntry_pages_of_ne (by omega) entry
      cases result with
      | error e => exact ⟨hpage, hother, fun hok => by cases hok⟩
      | ok =>
        obtain ⟨hrange, hframe, hpresent⟩ := commitRange_spec mode n (idx + 1) hpage.backed
        refine ⟨hpage.trans hrange, fun j hj => ?_, fun hok j hlo hhi => ?_⟩
        · exact (hframe j (by omega)).trans (hother j hj)
        by_cases hj : j = idx
        · subst hj
          obtain ⟨page, hsome, hinit⟩ := commitEntry_ok (congrArg Prod.fst hentry)
          rw [hentry] at hsome
          exact ⟨page, by rw [← hsome, hframe j (by omega), setEntry_pages_self], hinit⟩
        · exact hpresent hok j (by omega) (by omega)

/-- With a reliable backend, pages inside the VMO are committed without error. -/
lemma commitRange_reliable (hrel : backend.Reliable) (mode : CommitMode) :
    ∀ (n idx : ℕ) {vmo : Vmo}, vmo.Backed backend → idx + n ≤ divCeil vmo.size pageSize →
      (commitRange mode idx n vmo).1 = .ok ()
  | 0, _, _, _, _ => rfl
  | n + 1, idx, vmo, hb, hfit => by
    have hpage := commitPage_recached hb idx mode
    have hentry := commitPage_eq hb.backend_eq idx mode
    rw [commitRange]
    rw [commitEntry_reliable hrel (by omega)] at hentry
    rw [hentry] at hpage ⊢
    exact commitRange_reliable hrel mode n (idx + 1) hpage.backed (by rw [hpage.size_eq]; omega)

/-! ## Collecting a batch -/

/-- The number of pages a call of `collect_pages` commits. -/
def batchLen (startIdx endIdx capacity : ℕ) : ℕ := min endIdx (startIdx + capacity) - startIdx

variable {startIdx endIdx capacity : ℕ}

lemma exists_batchLen_eq (hcap : 0 < capacity) (hlt : startIdx < endIdx) :
    ∃ m, batchLen startIdx endIdx capacity = m + 1 ∧ startIdx + m < endIdx := by
  refine ⟨batchLen startIdx endIdx capacity - 1, ?_⟩
  rw [batchLen]
  omega

/-- A batch inside the VMO is the range that it covers, committed. -/
lemma collectPages_eq (vmo : Vmo) (startIdx endIdx : ℕ) (mode : CommitMode) (capacity : ℕ) :
    vmo.collectPages startIdx endIdx mode capacity =
      if vmo.size < min endIdx (startIdx + capacity) * pageSize then
        (.error (.withMessage .einval "the range to operate exceeds the VMO size"), vmo)
      else
        ((commitRange mode startIdx (batchLen startIdx endIdx capacity) vmo).1.map fun _ =>
          List.range' startIdx (batchLen startIdx endIdx capacity),
        (commitRange mode startIdx (batchLen startIdx endIdx capacity) vmo).2) := by
  simp only [collectPages, batchLen]
  split_ifs
  · rfl
  · split <;> rename_i hres <;> rw [hres] <;> rfl

lemma collectPages_recached (hb : vmo.Backed backend) (startIdx endIdx : ℕ) (mode : CommitMode)
    (capacity : ℕ) :
    Recached backend vmo (vmo.collectPages startIdx endIdx mode capacity).2 := by
  rw [collectPages_eq]
  split_ifs
  · exact .refl hb
  · exact (commitRange_spec mode _ startIdx hb).1

/-- A batch that was collected is a range of the VMO that was committed without error. -/
lemma collectPages_eq_ok {vmo' : Vmo} {batch : List ℕ}
    (h : vmo.collectPages startIdx endIdx mode capacity = (.ok batch, vmo')) :
    min endIdx (startIdx + capacity) * pageSize ≤ vmo.size ∧ batch =
    List.range' startIdx (batchLen startIdx endIdx capacity) ∧
    commitRange mode startIdx (batchLen startIdx endIdx capacity) vmo = (.ok (), vmo') := by
  rw [collectPages_eq] at h
  split_ifs at h with hsize
  · cases h
  cases hres : commitRange mode startIdx (batchLen startIdx endIdx capacity) vmo with
  | mk result w =>
    rw [hres] at h
    cases result with
    | error e => cases h
    | ok =>
      cases h
      exact ⟨not_lt.mp hsize, rfl, rfl⟩

/-- A batch that was collected holds the pages from `startIdx` on, all of them present, and
initialised unless they are to be overwritten; no other page was touched. -/
lemma collectPages_ok {vmo' : Vmo} {batch : List ℕ} (hb : vmo.Backed backend)
    (h : vmo.collectPages startIdx endIdx mode capacity = (.ok batch, vmo')) :
    batch = List.range' startIdx (batchLen startIdx endIdx capacity) ∧
    (∀ idx ∈ batch, ∃ page, vmo'.pages idx = some page ∧ (mode = .read → page.state ≠ .uninit)) ∧
    ∀ idx ∉ batch, vmo'.pages idx = vmo.pages idx := by
  obtain ⟨-, rfl, hres⟩ := collectPages_eq_ok h
  obtain ⟨-, hframe, hpresent⟩ :=
    hres ▸ commitRange_spec mode (batchLen startIdx endIdx capacity) startIdx hb
  refine ⟨rfl, fun idx hidx => ?_, fun idx hidx => ?_⟩
  · rw [List.mem_range'_1] at hidx
    exact hpresent rfl idx hidx.1 hidx.2
  · rw [List.mem_range'_1] at hidx
    exact hframe idx (by omega)

/-- With a reliable backend, a batch inside the VMO is collected without error. -/
lemma collectPages_reliable (hb : vmo.Backed backend) (hrel : backend.Reliable)
    (hstart : startIdx ≤ endIdx) (hend : endIdx * pageSize ≤ vmo.size)
    (mode : CommitMode) (capacity : ℕ) :
    (vmo.collectPages startIdx endIdx mode capacity).1 =
      .ok (List.range' startIdx (batchLen startIdx endIdx capacity)) := by
  have hle : min endIdx (startIdx + capacity) * pageSize ≤ endIdx * pageSize :=
    Nat.mul_le_mul_right _ (min_le_left _ _)
  have hceil : endIdx ≤ divCeil vmo.size pageSize := by
    rw [divCeil, Nat.le_div_iff_mul_le pageSize_pos]
    have := pageSize_pos
    omega
  have hok := commitRange_reliable hrel mode (batchLen startIdx endIdx capacity) startIdx hb
    (by rw [batchLen]; omega)
  rw [collectPages_eq, if_neg (by omega), hok]
  rfl

/-! ## Evicting pages -/

/-- Eviction removes a page or leaves it as it is. -/
lemma evictUpToDatePages_pages {page : CachePage} (covered : List ℕ)
    (h : (vmo.evictUpToDatePages covered).pages idx = some page) :
    vmo.pages idx = some page := by
  simp only [evictUpToDatePages] at h
  split at h <;> rename_i hpage
  · split_ifs at h
    rw [hpage, h]
  · simp at h

/-- Evicted pages are clean, so nothing is lost with them. -/
lemma evictUpToDatePages_recached (hb : vmo.Backed backend) (covered : List ℕ) :
    Recached backend vmo (vmo.evictUpToDatePages covered) := by
  refine ⟨⟨hb.backend_eq, fun h => hb.consistent (evictUpToDatePages_pages covered h)⟩, rfl,
    fun addr => ?_, fun hi idx page h => hi idx page (evictUpToDatePages_pages covered h)⟩
  have hbacking : (vmo.evictUpToDatePages covered).backing addr = vmo.backing addr := rfl
  simp only [content, hbacking]
  cases hpage : vmo.pages (addr / pageSize) with
  | none => simp [evictUpToDatePages, hpage]
  | some page =>
    by_cases hevict : addr / pageSize ∈ covered ∧ page.state = .upToDate
    · have hbyte := (hb.consistent hpage).upToDate hevict.2 (addr % pageSize)
        (Nat.mod_lt _ pageSize_pos)
      simp [evictUpToDatePages, hpage, hevict, entryByte, hbyte, hb.backing_eq]
    · simp [evictUpToDatePages, hpage, hevict]

/-! ## What later pages can see -/

/-- Two VMOs that cannot be told apart by looking at the pages from `lo` on. -/
structure AgreeFrom (lo : ℕ) (v w : Vmo) : Prop where
  backend_eq : v.backend = w.backend
  size_eq : v.size = w.size
  pages_eq : ∀ idx, lo ≤ idx → v.pages idx = w.pages idx

lemma AgreeFrom.refl (lo : ℕ) (v : Vmo) : AgreeFrom lo v v := ⟨rfl, rfl, fun _ _ => rfl⟩

variable {lo : ℕ}

lemma AgreeFrom.symm (h : AgreeFrom lo v w) : AgreeFrom lo w v :=
  ⟨h.backend_eq.symm, h.size_eq.symm, fun idx hidx => (h.pages_eq idx hidx).symm⟩

lemma AgreeFrom.trans {u : Vmo} (huv : AgreeFrom lo u v) (hvw : AgreeFrom lo v w) :
    AgreeFrom lo u w :=
  ⟨huv.backend_eq.trans hvw.backend_eq, huv.size_eq.trans hvw.size_eq,
    fun idx hidx => (huv.pages_eq idx hidx).trans (hvw.pages_eq idx hidx)⟩

section

variable (h : AgreeFrom lo v w)

include h

lemma AgreeFrom.mono {hi : ℕ} (hle : lo ≤ hi) : AgreeFrom hi v w :=
  ⟨h.backend_eq, h.size_eq, fun idx hidx => h.pages_eq idx (hle.trans hidx)⟩

lemma AgreeFrom.setEntry
    (entry : Option CachePage) : AgreeFrom lo (v.setEntry idx entry) (w.setEntry idx entry) := by
  refine ⟨h.backend_eq, h.size_eq, fun j hj => ?_⟩
  by_cases hidx : j = idx
  · rw [hidx, setEntry_pages_self, setEntry_pages_self]
  · rw [setEntry_pages_of_ne hidx, setEntry_pages_of_ne hidx, h.pages_eq j hj]

/-- A write to an earlier page is not seen. -/
lemma AgreeFrom.setEntry_left (hidx : idx < lo)
    (entry : Option CachePage) : AgreeFrom lo (v.setEntry idx entry) w := by
  refine ⟨h.backend_eq, h.size_eq, fun j hj => ?_⟩
  rw [setEntry_pages_of_ne (by omega), h.pages_eq j hj]

lemma AgreeFrom.evictUpToDatePages (covered : List ℕ) :
    AgreeFrom lo (v.evictUpToDatePages covered) (w.evictUpToDatePages covered) := by
  refine ⟨h.backend_eq, h.size_eq, fun j hj => ?_⟩
  simp only [Vmo.evictUpToDatePages, h.pages_eq j hj]

end

lemma AgreeFrom.commitRange (mode : CommitMode) :
    ∀ (n idx : ℕ) {v w : Vmo}, AgreeFrom lo v w → v.backend = some backend → lo ≤ idx →
      (Vmo.commitRange mode idx n v).1 = (Vmo.commitRange mode idx n w).1 ∧
      AgreeFrom lo (Vmo.commitRange mode idx n v).2 (Vmo.commitRange mode idx n w).2
  | 0, _, _, _, h, _, _ => ⟨rfl, h⟩
  | n + 1, idx, v, w, h, hb, hlo => by
    have hw : w.backend = some backend := h.backend_eq ▸ hb
    rw [Vmo.commitRange, Vmo.commitRange, commitPage_eq hb, commitPage_eq hw,
      h.size_eq, h.pages_eq idx hlo]
    have hset : AgreeFrom lo (v.setEntry idx _) (w.setEntry idx _) :=
      h.setEntry (commitEntry backend w.size idx mode (w.pages idx)).2
    cases (commitEntry backend w.size idx mode (w.pages idx)).1 with
    | error e => exact ⟨rfl, hset⟩
    | ok => exact AgreeFrom.commitRange mode n (idx + 1) hset hb (by omega)

/-- Two VMOs that agree from some page on give the same batch from there on. -/
lemma AgreeFrom.collectPages {result : Except Error (List ℕ)} {v' : Vmo} (h : AgreeFrom lo v w)
    (hb : v.backend = some backend) (hlo : lo ≤ startIdx)
    (hv : v.collectPages startIdx endIdx mode capacity = (result, v')) :
    ∃ w', w.collectPages startIdx endIdx mode capacity = (result, w') ∧ AgreeFrom lo v' w' := by
  obtain ⟨hres, hagree⟩ := AgreeFrom.commitRange mode (batchLen startIdx endIdx capacity) startIdx h
    hb hlo
  rw [collectPages_eq] at hv
  rw [collectPages_eq, ← h.size_eq, ← hres]
  split_ifs at hv ⊢ with hsize
  · cases hv
    exact ⟨w, rfl, h⟩
  · cases hv
    exact ⟨_, rfl, hagree⟩

/-! ## Failures of the device -/

section Faults

variable (readError allocError : ℕ → Option Error)

lemma Backed.withFaults (hb : vmo.Backed backend) :
    (vmo.withFaults readError allocError).Backed (backend.withFaults readError allocError) := by
  refine ⟨by simp [Vmo.withFaults, hb.backend_eq], fun hpage => ?_⟩
  have h := hb.consistent hpage
  exact ⟨h.upToDate, h.not_evicted⟩

lemma withFaults_self (vmo : Vmo) (hb : vmo.Backed backend) :
    vmo.withFaults backend.readError backend.allocError = vmo := by
  obtain ⟨b, size, pages, haligned⟩ := vmo
  obtain rfl : b = some backend := hb.backend_eq
  rfl

lemma content_withFaults (vmo : Vmo) (addr : ℕ) :
    (vmo.withFaults readError allocError).content addr = vmo.content addr := by
  have hbacking : (vmo.withFaults readError allocError).backing addr = vmo.backing addr := by
    cases hb : vmo.backend <;> simp [backing, Vmo.withFaults, hb, Backend.withFaults]
  simp only [content, hbacking]
  rfl

/-- A commit that meets no failure does what it does on a device without failures. -/
lemma commitEntry_withFaults (hrel : backend.Reliable) {size : ℕ}
    (hok : (commitEntry (backend.withFaults readError allocError) size idx mode entry).1 = .ok ()) :
    commitEntry (backend.withFaults readError allocError) size idx mode entry =
      commitEntry backend size idx mode entry := by
  have hread : ∀ page, (commitEntry.readEntry (backend.withFaults readError allocError) idx
      page).1 = .ok () → commitEntry.readEntry (backend.withFaults readError allocError) idx page =
        commitEntry.readEntry backend idx page := by
    intro page h
    simp only [commitEntry.readEntry, Backend.withFaults, hrel.readError] at h ⊢
    cases hr : readError idx with
    | none => rfl
    | some e => simp [hr] at h
  cases entry with
  | some page =>
    simp only [commitEntry] at hok ⊢
    split_ifs at hok ⊢
    · rfl
    · exact hread page hok
  | none =>
    simp only [commitEntry, hrel.allocError] at hok ⊢
    by_cases hidx : divCeil size pageSize ≤ idx
    · simp [hidx]
    rw [if_neg hidx] at hok ⊢
    rw [if_neg hidx]
    simp only [show (backend.withFaults readError allocError).allocError = allocError from rfl]
      at hok ⊢
    cases ha : allocError idx with
    | some e => simp [ha] at hok
    | none =>
      rw [ha] at hok
      split_ifs at hok ⊢
      · rfl
      · exact hread _ hok

lemma commitRange_withFaults (hrel : backend.Reliable) (mode : CommitMode) :
    ∀ (n idx : ℕ) {vmo : Vmo}, vmo.Backed backend →
      (commitRange mode idx n (vmo.withFaults readError allocError)).1 = .ok () →
      (commitRange mode idx n vmo).1 = .ok () ∧
      (commitRange mode idx n (vmo.withFaults readError allocError)).2 =
        (commitRange mode idx n vmo).2.withFaults readError allocError
  | 0, _, _, _, _ => ⟨rfl, rfl⟩
  | n + 1, idx, vmo, hb, hok => by
    have hpage := commitPage_recached hb idx mode
    have hfaulty := commitPage_eq (hb.withFaults readError allocError).backend_eq idx mode
    rw [show (vmo.withFaults readError allocError).pages = vmo.pages from rfl,
      show (vmo.withFaults readError allocError).size = vmo.size from rfl] at hfaulty
    rw [commitPage_eq hb.backend_eq] at hpage
    simp only [commitRange, hfaulty, commitPage_eq hb.backend_eq] at hok ⊢
    cases hres : (commitEntry (backend.withFaults readError allocError) vmo.size idx mode
        (vmo.pages idx)).1 with
    | error e => simp [hres] at hok
    | ok =>
      have heq := commitEntry_withFaults readError allocError hrel hres
      rw [heq] at hres hok ⊢
      rw [hres] at hok ⊢
      exact commitRange_withFaults hrel mode n (idx + 1) hpage.backed hok

/-- A batch that is collected in spite of failures is the one a device without failures gives. -/
lemma collectPages_withFaults {vmo' : Vmo} {batch : List ℕ} (hrel : backend.Reliable)
    (hb : vmo.Backed backend)
    (hok : (vmo.withFaults readError allocError).collectPages startIdx endIdx mode capacity =
      (.ok batch, vmo')) :
    ∃ vmo'', vmo.collectPages startIdx endIdx mode capacity = (.ok batch, vmo'') ∧
      vmo' = vmo''.withFaults readError allocError := by
  obtain ⟨hsize, rfl, hres⟩ := collectPages_eq_ok hok
  obtain ⟨hok', hvmo'⟩ := commitRange_withFaults readError allocError hrel mode
    (batchLen startIdx endIdx capacity) startIdx hb (congrArg Prod.fst hres)
  rw [hres] at hvmo'
  rw [collectPages_eq, if_neg (show ¬ vmo.size < _ from hsize.not_gt), hok']
  exact ⟨_, rfl, hvmo'⟩

end Faults

end Vmo

end Asterinas.PageCache
