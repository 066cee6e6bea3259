import Asterinas.Vmar.InnerSpec
import Asterinas.Vmar.Ops

/-!
# What the operations on an address space guarantee

Each operation, started in a sound state, leaves a sound one when it returns, with or without an
error.  When it succeeds, the lemmas also say what became of the total.
-/

namespace Asterinas.Vmar

open Framework VmarM VmarInner VmMapping List Option
open Exec hiding wp

variable {self : VmarId} {k : ℕ} {o : VmoId → VmarId → List RmapEntry} {s : VmarState}
    {ctx : Context} {E : Error → VmarState → Prop}

/-! ## Mapping -/

variable {v : VmarInner} {r : Range ℕ}

namespace VmarInner

/-- The overlaps that `count_overlap_size` adds up are all there are. -/
lemma coverage_eq_sum_find (h : v.Sound k) (hr : r.start < r.stop) :
    v.coverage r = ((v.vmMappings.find r).map fun m => overlap r (range m)).sum := by
  have hnodup : v.mappings.Nodup :=
    h.intervals.iter_pairwise.imp fun {a b} hle heq => by
      have := a.mapToAddr_lt_mapEnd
      simp only [heq, range_start, range_stop] at hle this
      omega
  have hfind : (v.vmMappings.find r).Nodup :=
    (h.intervals.find_pairwise r).imp fun hlt heq => by simp [heq] at hlt
  have hperm : (v.vmMappings.find r).Perm (v.mappings.filter fun m => ¬ (range m).Apart r) := by
    refine (perm_ext_iff_of_nodup hfind (hnodup.filter _)).mpr fun m => ?_
    rw [h.intervals.mem_find hr, mem_filter]
    simp [mappings]
  rw [(hperm.map _).sum_eq]
  -- the mappings that are left out have nothing in common with the range
  unfold coverage
  induction v.mappings with
  | nil => rfl
  | cons m rest ih =>
    by_cases hap : (range m).Apart r
    · simp [hap, overlap_eq_zero hap, ih]
    · simp [hap, ih]

lemma countOverlapSize_spec (h : s.inner.Sound k) (r : Range ℕ) :
    wp (countOverlapSize r)
      (fun n s' => s' = s ∧ (r.start < r.stop → n = s.inner.coverage r)) E s := by
  simp only [countOverlapSize, wp_getMappings_bind, rwp_ofOption_bind, rwp_pure]
  intro intersected hmap
  refine ⟨trivial, fun hr => ?_⟩
  rw [coverage_eq_sum_find h hr]
  generalize s.inner.vmMappings.find r = ms at hmap ⊢
  induction ms generalizing intersected with
  | nil =>
    obtain rfl : [] = intersected := by simpa using hmap
    rfl
  | cons m rest ih =>
    simp only [mapM_cons, bind_eq_bind, bind_eq_some_iff, Option.pure_def, some.injEq] at hmap
    obtain ⟨i, hi, is, his, rfl⟩ := hmap
    obtain ⟨rfl, -⟩ := getIntersectedRange_eq_some hi
    simp only [map_cons, sum_cons, ih is his]
    rfl

end VmarInner

namespace VmarMapOptions

variable {opts : VmarMapOptions}

/-- The address that the offset names, if it names one, is a multiple of the alignment. -/
def OffsetAligned (opts : VmarMapOptions) : Prop := ∀ offset ∈ opts.offset.addr, opts.align ∣ offset

lemma checkMultiple_spec (value : ℕ) (msg : String) :
    checks (opts.checkMultiple value msg) (fun _ => opts.align ∣ value) s := by
  simp only [checkMultiple, rwp_require_bind, rwp_failIf]
  exact fun h => ⟨fun _ => trivial, fun _ => ⟨trivial, h⟩⟩

lemma checkPerms_spec : wp opts.checkPerms (fun _ s' => s' = s) (fun _ s' => s' = s) s := by
  simp only [checkPerms, rwp_failIf_bind, rwp_ofExcept]
  exact ⟨fun _ => trivial, fun _ => ⟨fun _ _ => trivial, fun _ _ => trivial⟩⟩

lemma checkOffset_spec : checks opts.checkOffset (fun _ => opts.OffsetAligned) s := by
  unfold checkOffset
  split
  · rename_i offset haddr
    refine (checkMultiple_spec _ _).imp fun _ s' h' => ⟨h'.1, ?_⟩
    intro o ho
    obtain rfl : offset = o := by rw [haddr] at ho; exact some.inj ho
    exact h'.2
  · rename_i haddr
    exact .pure ⟨rfl, fun o ho => by rw [haddr] at ho; cases ho⟩

lemma checkOptions_spec :
    checks opts.checkOptions
      (fun _ => pageSize ∣ opts.align ∧ opts.align ∣ opts.size ∧ opts.OffsetAligned) s := by
  simp only [checkOptions, rwp_require_bind, rwp_failIf_bind]
  intro halign _
  refine ⟨fun _ => trivial, fun _ => ?_⟩
  refine (checkMultiple_spec _ _).bind (fun _ => rfl) fun _ hsize => ?_
  refine (checkMultiple_spec _ _).bind (fun _ => rfl) fun _ _ => ?_
  refine checkOffset_spec.bind (fun _ => rfl) fun _ hoffset => ?_
  exact checkPerms_spec.imp fun _ _ h' => ⟨h', halign, hsize, hoffset⟩

lemma checkFitsRlimit_spec (h : s.inner.Sound k) :
    checks (opts.checkFitsRlimit ctx)
      (fun _ => (FitsRlimit ctx s.inner opts.size ∨
        ∃ a n, opts.offset = .fixedReplace a ∧ FitsRlimit ctx s.inner (opts.size - n) ∧
          (0 < opts.size → n = s.inner.coverage ⟨a, a + opts.size⟩))) s := by
  refine (checkExtraSizeFitsRlimit_spec ctx opts.size).attempt_then
    (fun _ s₁ h1 => .pure ⟨h1.1, .inl h1.2⟩) fun err s₁ h1 => ?_
  obtain rfl := h1
  simp only
  split
  · rename_i a hoffset
    refine .ofOption_bind fun stop hstop => ?_
    obtain ⟨-, rfl⟩ := usizeAdd_eq_some.mp hstop
    refine (countOverlapSize_spec h _).then fun n s₂ h2 => ?_
    obtain ⟨rfl, hn⟩ := h2
    refine .require_bind fun _ => ?_
    refine (checkExtraSizeFitsRlimit_spec ctx _).imp fun _ s₃ h3 => ?_
    exact ⟨h3.1, .inr ⟨a, n, hoffset, h3.2, fun hpos => hn (by simp only; omega)⟩⟩
  · exact .throw rfl

/-- Where `build` puts the mapping: the region is free once conflicting mappings are gone. -/
structure Placed (opts : VmarMapOptions) (v : VmarInner) (addr : ℕ) (v' : VmarInner) : Prop where
  aligned : pageSize ∣ addr
  bounded : addr + opts.size < usizeModulus
  free : v'.vmMappings.Free ⟨addr, addr + opts.size⟩
  total : v'.totalVm ≤ v.totalVm
  replaced : ∀ a, opts.offset = .fixedReplace a →
    v'.totalVm + v.coverage ⟨a, a + opts.size⟩ = v.totalVm

/-- A region that was found free without changing anything. -/
lemma Placed.of_free {addr : ℕ} (haligned : pageSize ∣ addr)
    (hbounded : addr + opts.size < usizeModulus)
    (hfree : v.vmMappings.Free ⟨addr, addr + opts.size⟩)
    (hoffset : ∀ a, opts.offset ≠ .fixedReplace a) : opts.Placed v addr v :=
  ⟨haligned, hbounded, hfree, le_rfl, fun a ha => absurd ha (hoffset a)⟩

lemma Placed.of_region (halign : pageSize ∣ opts.align)
    (hregion : Region opts.size opts.align vmarCapAddr r)
    (hfree : v.vmMappings.Free r) (hoffset : ∀ a, opts.offset ≠ .fixedReplace a) :
    opts.Placed v r.start v := by
  have hcap := vmarCapAddr_lt
  have hr : r = ⟨r.start, r.start + opts.size⟩ := by rw [← hregion.size]
  refine .of_free (halign.trans hregion.aligned) ?_ (hr ▸ hfree) hoffset
  have := hregion.bounded
  rw [hregion.size] at this
  omega

lemma allocRegion_spec (h : s.Sound self k o) (halign : pageSize ∣ opts.align)
    (hoffset : opts.OffsetAligned) :
    wp (opts.allocRegion self)
      (fun addr s' => s'.Sound self k o ∧ opts.Placed s.inner addr s'.inner)
      (fun _ s' => s' = s) s := by
  have haddr : ∀ a, opts.offset.addr = some a → pageSize ∣ a :=
    fun a ha => halign.trans (hoffset a ha)
  -- the searches used as a last resort
  have hsearch :
    ∀ {search : VmarM (Range ℕ)},
    checks search (fun r => Region opts.size opts.align vmarCapAddr r ∧
      s.inner.vmMappings.Free r) s → (∀ a, opts.offset ≠ .fixedReplace a) →
      wp (do return (← search).start)
        (fun addr s' => s'.Sound self k o ∧ opts.Placed s.inner addr s'.inner)
        (fun _ s' => s' = s) s := fun hspec hne =>
    hspec.bind (fun _ => rfl) fun r ⟨hregion, hfree⟩ =>
      .pure ⟨h, .of_region halign hregion hfree hne⟩
  have hany := hsearch (allocFreeRegion_spec h.toSound opts.size opts.align)
  have hlow := hsearch (allocFreeRegionBelow2Gib_spec h.toSound opts.size opts.align)
  -- the region that the caller names
  have hexact : ∀ {a : ℕ} {r : Range ℕ} {s' : VmarState}, opts.offset.addr = some a →
      (∀ a, opts.offset ≠ .fixedReplace a) → (s' = s ∧ r = ⟨a, a + opts.size⟩ ∧
        a + opts.size < usizeModulus ∧ s.inner.vmMappings.Free r) →
      wp (pure a) (fun addr s' => s'.Sound self k o ∧ opts.Placed s.inner addr s'.inner)
        (fun _ s' => s' = s) s' := by
    rintro a r s' ha hne ⟨rfl, rfl, hbounded, hfree⟩
    exact .pure ⟨h, .of_free (haddr a ha) hbounded hfree hne⟩
  unfold allocRegion
  split
  · rename_i a heq
    refine (allocFreeRegionExactTruncate_spec h a opts.size).then fun r s' h' => ?_
    obtain ⟨rfl, hbounded, hsound, htr⟩ := h'
    refine .pure ⟨hsound, haddr a (by rw [heq]; rfl), hbounded, htr.free, ?_, fun a' ha' => ?_⟩
    · have := htr.total
      omega
    · obtain rfl := VmarMapOffset.fixedReplace.inj (heq.symm.trans ha')
      exact htr.total
  · rename_i a heq
    exact (allocFreeRegionExact_spec h.toSound a opts.size).then fun r s' h' =>
      hexact (by rw [heq]; rfl) (by simp [heq]) h'
  · rename_i a heq
    refine (allocFreeRegionExact_spec h.toSound a opts.size).attempt_then
      (fun r s' h' => hexact (by rw [heq]; rfl) (by simp [heq]) h') ?_
    rintro e s' rfl
    exact hany (by simp [heq])
  · rename_i addrHint heq
    split
    · rename_i a hhint
      have hsome : addrHint = some a := (filter_eq_some_iff.mp hhint).1
      refine (allocFreeRegionExact_spec h.toSound a opts.size).attempt_then
        (fun r s' h' => hexact (by rw [heq]; exact hsome) (by simp [heq]) h') ?_
      rintro e s' rfl
      exact hlow (by simp [heq])
    · exact hlow (by simp [heq])
  · rename_i heq
    exact hany (by simp [heq])

lemma prepareMappedMemory_spec :
    checks (opts.prepareMappedMemory ctx)
      (fun prepared => (prepared.2.2 = none ∨ prepared.1 = .anonymous)) s := by
  unfold prepareMappedMemory
  split
  · refine .require_bind fun _ => ?_
    split <;> simp
  · simp
  · simp

lemma newMapping_eq_some {addr : ℕ} {mem : MappedMemory} {m : VmMapping} {mayPerms : VmPerms}
    (h : opts.newMapping addr mem mayPerms = some m) :
    0 < opts.size ∧ m.mapToAddr = addr ∧ m.mapSize = opts.size ∧ m.mappedMem = mem := by
  unfold newMapping at h
  split at h
  · cases h
    exact ⟨‹_›, rfl, rfl, rfl⟩
  · cases h

/-- A device is populated where nothing was mapped, so it belongs to no reverse map. -/
lemma populateDevice_spec (m : VmMapping) (device : Option (Except Error MappedObject))
    (hmem : device = none ∨ m.mappedMem = .anonymous) :
    checks (populateDevice m device) (fun m' => m'.mapToAddr = m.mapToAddr ∧ m'.mapSize =
      m.mapSize ∧
      m'.vmoForRmap = m.vmoForRmap) s := by
  cases device with
  | none => simp [populateDevice]
  | some map =>
    have hmem := hmem.resolve_left (by simp)
    simp [populateDevice, vmoForRmap, hmem]

/-- `build`: a mapping is placed in a free region, and counted against the limit. -/
lemma build_spec (h : s.Sound self k o) :
    keeps self k o (opts.build ctx self) (fun _ s' => WithinRlimit ctx s.inner s'.inner) s := by
  refine checkOptions_spec.bind (fun _ => h) fun _ ⟨halign, hsize, hoffset⟩ => ?_
  refine (checkFitsRlimit_spec h.toSound).bind (fun _ => h) fun _ hfits => ?_
  refine (allocRegion_spec h halign hoffset).seq (fun _ _ he => he ▸ h) ?_
  rintro addr s₅ ⟨hsound, h3⟩
  refine prepareMappedMemory_spec.bind (fun _ => hsound) ?_
  rintro ⟨mem, mayPerms, device⟩ hdevice
  refine .ofOption_bind fun m hm => ?_
  obtain ⟨hpos, hstart, hmsize, rfl⟩ := newMapping_eq_some hm
  refine (populateDevice_spec m device hdevice).bind (fun _ => hsound)
    fun m' ⟨hstart', hsize', hrmap⟩ => ?_
  have hend : m'.mapEnd = addr + opts.size := by
    rw [mapEnd, hstart', hsize', hstart, hmsize]
  have hins : s₅.inner.Insertable m' := .of_ends (hstart'.trans hstart) hend h3.aligned
    (dvd_add h3.aligned (halign.trans hsize)) h3.bounded h3.free
  refine (insertTryMerge_spec hsound hins hrmap).then fun _ s₆ h6 =>
    .pure ⟨h6.1, ?_⟩
  have hle := h3.total
  rcases hfits with hfits | ⟨a, n, heq, hfits, hn⟩
  · exact hfits.within (by omega)
  · have hreplaced := h3.replaced a heq
    exact hfits.within (by omega)

end VmarMapOptions

/-! ## Unmapping and protecting -/

lemma removeMapping_spec (h : s.Sound self k o) (r : Range ℕ) :
    wp (removeMapping self r)
      (fun _ s' => s'.Sound self k o ∧ s'.inner.totalVm ≤ s.inner.totalVm) E s := by
  refine .require_bind fun _ => ?_
  refine (allocFreeRegionExactTruncate_spec h _ _).then fun _ s' ⟨_, _, h', htr⟩ =>
    .pure ⟨h', ?_⟩
  have := htr.total
  omega

/-- One round of `protect`: the common part of a mapping with the range is cut out and inserted
again with other permissions. -/
lemma protectPart_spec {m : VmMapping} {perms : VmPerms}
    (h : v.Sound k) (hm : m ∈ v.mappings) (hs : s.inner = v.removed m.mapToAddr m.mapSize)
    (hsound : s.Sound self k o) :
    wp (protectPart self r perms m m.vmoForRmap)
      (fun _ s' => s'.Sound self k o ∧ s'.inner.totalVm = v.totalVm) E s := by
  simp only [protectPart, rwp_ofOption_bind]
  rintro i hi ⟨left, taken, right⟩ hsplit
  obtain ⟨hof, hin⟩ := splitOf_getIntersectedRange hi hsplit
  refine cutOut_spec h hm hs hsound hof hin fun s₂ h2 hcarved _ => ?_
  obtain ⟨rfl, hlt⟩ := getIntersectedRange_eq_some hi
  have hstart := hof.taken_start
  have hend := hof.taken_end
  have hbounded := h.bounded m hm
  have halign := hof.aligned (h.aligned m hm)
  have hins : s₂.inner.Insertable (taken.protect perms) := .of_ends hstart hend halign.1 halign.2
    (lt_of_le_of_lt (min_le_right _ _) hbounded) hcarved.free
  refine (insertTryMerge_spec h2 hins hof.taken_rmap).imp fun _ s₃ h3 => ⟨h3.1, ?_⟩
  have hsize : (taken.protect perms).mapSize = taken.mapEnd - taken.mapToAddr := taken.mapSize_eq
  have htotal := hcarved.total
  rw [h3.2, hsize, hstart, hend]
  exact htotal

lemma protectLoop_spec {perms : VmPerms} (met : List (Range ℕ × VmPerms))
    (last : ℕ) (h : s.Sound self k o) :
    keeps self k o (protectLoop self perms r last met)
      (fun _ s' => s'.inner.totalVm = s.inner.totalVm) s := by
  induction met generalizing s last with
  | nil => exact .pure ⟨h, rfl⟩
  | cons head rest ih =>
    obtain ⟨mr, mp⟩ := head
    refine .failIf_bind ⟨fun _ => h, fun _ => ?_⟩
    split_ifs with heq
    · exact ih mr.stop h
    · refine rwp_ofExcept_bind.mpr ⟨fun _ _ => ?_, fun _ _ => h⟩
      refine (remove_spec h.toSound mr.start).then fun removed s₁ h1 => ?_
      rcases h1 with ⟨rfl, rfl⟩ | ⟨m, rfl, hm, hkey, hinner, hrmaps⟩
      · exact ih mr.stop h
      · simp only [← hkey] at hinner ⊢
        refine (removeRmapEntry_spec h.toSound hm (by rw [hinner]; rfl) (hrmaps ▸ h.names)).then
          fun _ s₂ h2 => ?_
        have hinner2 := h2.1.trans hinner
        refine (protectPart_spec h.toSound hm hinner2
          ⟨hinner2 ▸ h.toSound.removed hm, h2.2⟩).then fun _ s₃ h3 => ?_
        exact (ih mr.stop h3.1).imp fun _ s₄ h4 => ⟨h4.1, h4.2.trans h3.2⟩

lemma protect_spec (h : s.Sound self k o) (perms : VmPerms) (r : Range ℕ) :
    keeps self k o (protect self perms r) (fun _ s' => s'.inner.totalVm = s.inner.totalVm) s := by
  simp only [protect, rwp_require_bind, wp_getMappings_bind]
  intro _
  exact (protectLoop_spec _ _ h).then fun _ s' h' =>
    rwp_failIf.mpr ⟨fun _ => h'.1, fun _ => h'⟩

/-! ## Resizing and moving -/

lemma vmar_resizeMapping_spec (h : s.Sound self k o) (mapAddr oldSize newSize : ℕ)
    (checkSingleMapping : Bool) :
    keeps self k o (resizeMapping ctx self mapAddr oldSize newSize checkSingleMapping)
      (fun _ s' => WithinRlimit ctx s.inner s'.inner) s := by
  unfold resizeMapping
  split_ifs
  · exact (checkLiesInSingleMapping_spec h.toSound _ _).bind (fun _ => h) fun _ _ =>
      resizeMapping_spec h _ _ _
  · simp only [wp_getMappings_bind, rwp_failIf_bind]
    exact ⟨fun _ => h, fun _ => resizeMapping_spec h _ _ _⟩

lemma checkNewRange_spec (oldAddr oldSize : ℕ) (newAddr : Option ℕ) (newSize : ℕ) :
    checks (checkNewRange oldAddr oldSize newAddr newSize)
      (fun _ => ∀ a ∈ newAddr, pageSize ∣ a ∧ a + newSize ≤ vmarCapAddr ∧
        (oldAddr + oldSize < usizeModulus → 0 < oldSize → 0 < newSize →
          (⟨a, a + newSize⟩ : Range ℕ).Apart ⟨oldAddr, oldAddr + oldSize⟩)) s := by
  cases newAddr with
  | none => simp [checkNewRange]
  | some a =>
    simp only [checkNewRange, rwp_failIf_bind, rwp_failIf]
    refine ⟨fun _ => trivial, fun hok => ⟨fun _ => trivial, fun hint => ⟨trivial, ?_⟩⟩⟩
    rintro _ ⟨⟩
    push Not at hok
    obtain ⟨haligned, huser⟩ := hok
    have huser := isUserspaceVaddrRange_iff.mp (by simpa using huser)
    refine ⟨haligned, by omega, fun hbound hold hnew => ?_⟩
    simp only [isIntersected, decide_eq_true_eq] at hint
    simp only [Range.Apart]
    omega

lemma checkFileOffset_spec (m : VmMapping) (oldAddr newSize : ℕ) :
    wp (checkFileOffset m oldAddr newSize) (fun _ s' => s' = s) (fun _ s' => s' = s) s := by
  unfold checkFileOffset
  split <;> simp

lemma checkOldMapping_spec (oldAddr oldSize newSize : ℕ) :
    checks (checkOldMapping ctx oldAddr oldSize newSize)
      (fun _ => FitsRlimit ctx s.inner (newSize - oldSize)) s := by
  refine (wp_getMappings_bind _).mpr ?_
  split
  · exact .throw rfl
  · rename_i m hm
    split_ifs with hlt
    · refine .failIf_bind ⟨fun _ => rfl, fun _ => ?_⟩
      refine (checkFileOffset_spec m oldAddr newSize).then ?_
      rintro _ s₁ rfl
      exact checkExtraSizeFitsRlimit_spec ctx _
    · refine .pure ⟨rfl, fun limit _ => ?_⟩
      omega

lemma expandInPlace_spec {newSize oldSize oldAddr : ℕ} (h : s.Sound self k o)
    (hn : pageSize ∣ newSize - oldSize)
    (hbounded : oldAddr + oldSize + (newSize - oldSize) < usizeModulus)
    (hfree : s.inner.vmMappings.Free
      ⟨oldAddr + oldSize, oldAddr + oldSize + (newSize - oldSize)⟩) :
    keeps self k o (expandInPlace self oldAddr oldSize newSize)
      (fun _ s' =>
        s'.inner.totalVm = s.inner.totalVm + (newSize - oldSize)) s := by
  refine (checkLiesInSingleMapping_spec h.toSound _ _).bind (fun _ => h) ?_
  rintro _ ⟨m, hm, rfl, hstart, hend⟩
  have hm' := hfree m hm
  simp only [Range.Apart, range_start, range_stop] at hm'
  have hroom : m.mapEnd + (newSize - oldSize) < usizeModulus ∧
      s.inner.vmMappings.Free ⟨m.mapEnd, m.mapEnd + (newSize - oldSize)⟩ := by
    by_cases hn0 : newSize - oldSize = 0
    · rw [hn0]
      refine ⟨h.bounded m hm, fun x hx => ?_⟩
      rcases h.intervals.eq_or_apart hx hm with rfl | hap
      · exact .inl le_rfl
      · have := x.mapToAddr_lt_mapEnd
        simp only [Range.Apart, range_start, range_stop] at hap ⊢
        omega
    · have heq : m.mapEnd = oldAddr + oldSize := by omega
      rw [heq]
      exact ⟨hbounded, hfree⟩
  exact (enlargeMapping_spec h hm hn hroom.1 hroom.2).then fun _ s₂ h2 => .pure h2

/-- The last part of `remap`, when the new range is free. -/
lemma moveMapping_spec {newStart newSize oldSize oldAddr : ℕ} (action : RemapOldMappingAction)
    (h : s.Sound self k o) (hfree : s.inner.vmMappings.Free ⟨newStart, newStart + newSize⟩)
    (hstart : pageSize ∣ newStart) (hnew : pageSize ∣ newSize)
    (hbounded : newStart + newSize < usizeModulus) (hle : oldSize ≤ newSize) :
    keeps self k o (moveMapping self oldAddr oldSize newStart newSize action)
      (fun _ s' =>
        match action with
        | .unmap => s'.inner.totalVm + oldSize = s.inner.totalVm + newSize
        | .keep => s'.inner.totalVm = s.inner.totalVm + newSize ∧ 0 < oldSize) s := by
  have insertable : ∀ {v : VmarInner} {m : VmMapping}, m.mapToAddr = newStart →
      m.mapSize = newSize → v.vmMappings.Free ⟨newStart, newStart + newSize⟩ → v.Insertable m := by
    intro v m hm hsize hvfree
    exact .of_ends hm (by rw [mapEnd, hm, hsize]) hstart (dvd_add hstart hnew) hbounded hvfree
  refine (checkLiesInSingleMapping_spec h.toSound _ _).bind (fun _ => h) ?_
  rintro _ ⟨m, hm, rfl, hlo, hhi⟩
  cases action with
  | unmap =>
    refine (removeWithRmap_spec h m.mapToAddr).then ?_
    rintro _ s₂ ⟨m', hm', rfl, hkey, hinner, h2⟩
    obtain rfl : m' = m := h.toSound.eq_of_mapToAddr_eq hm' hm hkey
    refine .ofOption_bind ?_
    rintro ⟨left, taken, right⟩ hsplit
    have hof := splitRange_eq_some hlo hhi hsplit
    refine cutOut_spec h.toSound hm hinner h2 hof ⟨hlo, hhi⟩ fun s₄ h4 hcarved _ => ?_
    have hsize : taken.mapSize = oldSize := by
      rw [taken.mapSize_eq, hof.taken_start, hof.taken_end]
      simp only
      omega
    have hins := insertable (m := (taken.cloneForRemapAt newStart).enlarge (newSize - oldSize))
      rfl (by simp only [enlarge_mapSize, cloneForRemapAt_mapSize]; omega)
      (hcarved.free_of_free hm hfree)
    refine (insertTryMerge_spec h4 hins hof.taken_rmap).then fun _ s₅ h5 =>
      .pure ⟨h5.1, ?_⟩
    have htotal := hcarved.total
    have := h5.2
    simp only [enlarge_mapSize, cloneForRemapAt_mapSize] at this htotal ⊢
    omega
  | keep =>
    simp only [wp_getMappings_bind, rwp_ofOption_bind]
    intro old _ clone hclone
    obtain ⟨hlt, hcs, hcsize, hrmap⟩ := cloneRangeForRemapAt_eq_some hclone
    simp only at hlt hcsize
    have hins := insertable (m := clone.enlarge (newSize - oldSize)) hcs
      (by rw [enlarge_mapSize]; omega) hfree
    refine (insertTryMerge_spec h hins hrmap).then fun _ s₂ h2 =>
      .pure ⟨h2.1, ?_, by omega⟩
    have := h2.2
    rw [enlarge_mapSize] at this
    omega

lemma shrinkOldRange_spec (h : s.Sound self k o) (oldAddr oldSize newSize : ℕ) :
    wp (shrinkOldRange self oldAddr oldSize newSize)
      (fun n s' => n = min oldSize newSize ∧ oldAddr + oldSize < usizeModulus ∧
        s'.Sound self k o ∧
        s'.inner.totalVm + s.inner.coverage ⟨oldAddr + newSize, oldAddr + oldSize⟩ =
          s.inner.totalVm ∧
        ∀ q : Range ℕ, q.Apart ⟨oldAddr, oldAddr + oldSize⟩ →
          s'.inner.coverage q = s.inner.coverage q)
      (fun _ s' => s'.Sound self k o) s := by
  refine .failIf_bind ⟨fun _ => h, fun hbound => ?_⟩
  split_ifs with hlt
  · refine (allocFreeRegionExactTruncate_spec h _ _).then fun r s' h' => ?_
    obtain ⟨rfl, -, hsound, htr⟩ := h'
    have hend : oldAddr + newSize + (oldSize - newSize) = oldAddr + oldSize := by omega
    rw [hend] at htr
    refine .pure ⟨by omega, by omega, hsound, htr.total, fun q hq => htr.coverage q ?_⟩
    exact (hq.symm.mono (q := ⟨oldAddr + newSize, oldAddr + oldSize⟩)
      (show oldAddr ≤ oldAddr + newSize by omega) le_rfl).symm
  · refine .pure ⟨by omega, by omega, h, ?_, fun _ _ => rfl⟩
    have : s.inner.coverage ⟨oldAddr + newSize, oldAddr + oldSize⟩ = 0 := by
      refine sum_eq_zero fun n hn => ?_
      obtain ⟨m, -, rfl⟩ := mem_map.mp hn
      simp only [overlap]
      omega
    omega

/-- The bytes that `remap` unmaps on its way: the tail of an old range that shrinks, and what the
given new range held. -/
def remapReplaced (v : VmarInner) (oldAddr oldSize : ℕ) (newAddr : Option ℕ) (newSize : ℕ) : ℕ :=
  v.coverage ⟨oldAddr + newSize, oldAddr + oldSize⟩ +
    (newAddr.map fun a => v.coverage ⟨a, a + newSize⟩).getD 0

/-- What a successful `remap` does to the total. -/
def RemapTotal (ctx : Context) (oldAddr oldSize : ℕ) (newAddr : Option ℕ) (newSize : ℕ)
    (action : RemapOldMappingAction) (v v' : VmarInner) : Prop :=
  match action with
  | .unmap => WithinRlimit ctx v v'
  | .keep => v'.totalVm + remapReplaced v oldAddr oldSize newAddr newSize = v.totalVm + newSize

lemma moveAnywhere_spec {newSize oldSize oldAddr : ℕ} (action : RemapOldMappingAction)
    (h : s.Sound self k o) (hnew : pageSize ∣ newSize) (hle : oldSize ≤ newSize) :
    keeps self k o (moveAnywhere self oldAddr oldSize newSize action)
      (fun _ s' =>
        match action with
        | .unmap => s'.inner.totalVm + oldSize = s.inner.totalVm + newSize
        | .keep => s'.inner.totalVm = s.inner.totalVm + newSize ∧ 0 < oldSize) s := by
  refine (allocFreeRegion_spec h.toSound _ _).bind (fun _ => h) fun r ⟨hregion, hfree⟩ => ?_
  have hr : r = ⟨r.start, r.start + newSize⟩ := by rw [← hregion.size]
  have hbounded := hregion.bounded
  rw [hregion.size] at hbounded
  have hcap := vmarCapAddr_lt
  exact moveMapping_spec action h (hr ▸ hfree) hregion.aligned hnew (by omega) hle

/-- `remap`: only the copy that keeps the old mapping can leave the limit. -/
lemma remap_spec (h : s.Sound self k o) (oldAddr oldSize : ℕ) (newAddr : Option ℕ)
    (newSize : ℕ) (action : RemapOldMappingAction) :
    keeps self k o (remap ctx self oldAddr oldSize newAddr newSize action)
      (fun _ s' =>
        RemapTotal ctx oldAddr oldSize newAddr newSize action s.inner s'.inner) s := by
  refine .require_bind ?_
  rintro ⟨-, hold, hnew⟩
  refine (checkNewRange_spec _ _ _ _).bind (fun _ => h) fun _ hrange => ?_
  refine (checkOldMapping_spec _ _ _).bind (fun _ => h) fun _ hfits => ?_
  refine (shrinkOldRange_spec h _ _ _).then fun n s₃ h3 => ?_
  obtain ⟨rfl, hbound, hwf, htotal, hcov⟩ := h3
  have hle : min oldSize newSize ≤ newSize := min_le_right _ _
  -- how the total of the last step translates back to the start, when nothing else is unmapped
  have back : ∀ {t : ℕ} {s' : VmarState}, t ≤ s₃.inner.totalVm →
      (0 < min oldSize newSize → newAddr.isSome →
        t + (newAddr.map fun a => s.inner.coverage ⟨a, a + newSize⟩).getD 0 = s₃.inner.totalVm) →
      (newAddr = none → t = s₃.inner.totalVm) →
      (match action with
        | .unmap => s'.inner.totalVm + min oldSize newSize = t + newSize
        | .keep => s'.inner.totalVm = t + newSize ∧ 0 < min oldSize newSize) →
      RemapTotal ctx oldAddr oldSize newAddr newSize action s.inner s'.inner := by
    intro t s' ht hsome hnone hmove
    cases action with
    | unmap => exact hfits.within (by simp only at hmove; omega)
    | keep =>
      obtain ⟨hmove, hpos⟩ := hmove
      simp only [RemapTotal, remapReplaced]
      cases newAddr with
      | none =>
        have := hnone rfl
        simp only [map_none, getD_none]
        omega
      | some a =>
        have := hsome hpos rfl
        omega
  have anywhere : newAddr = none →
      keeps self k o (moveAnywhere self oldAddr (min oldSize newSize) newSize action)
        (fun _ s' =>
          RemapTotal ctx oldAddr oldSize newAddr newSize action s.inner s'.inner) s₃ := fun hnone =>
    (moveAnywhere_spec action hwf hnew hle).imp fun _ s' h' =>
      ⟨h'.1, back le_rfl (fun _ hs => by simp [hnone] at hs) (fun _ => rfl) h'.2⟩
  cases newAddr with
  | some a =>
    obtain ⟨haligned, hcap, hapart⟩ := hrange a rfl
    refine (allocFreeRegionExactTruncate_spec hwf a newSize).then fun r s₄ h4 => ?_
    obtain ⟨rfl, hbounded, hsound, htr⟩ := h4
    have htr' := htr.total
    refine (moveMapping_spec action hsound htr.free haligned hnew hbounded hle).imp
      fun _ s₅ h5 => ⟨h5.1, back (t := s₄.inner.totalVm) (by omega) (fun hpos _ => ?_)
        (fun hn => by cases hn) h5.2⟩
    rw [hcov _ (hapart hbound (by omega) (by omega))] at htr'
    exact htr'
  | none =>
    split_ifs with hfast
    · refine (allocFreeRegionExact_spec hwf.toSound _ _).attempt_then (fun r s₄ h4 => ?_)
        fun e s₄ h4 => h4 ▸ anywhere rfl
      obtain ⟨rfl, rfl, hend, hfree⟩ := h4
      have hdvd : pageSize ∣ newSize - min oldSize newSize := by
        rcases le_total oldSize newSize with hle' | hle'
        · rw [min_eq_left hle']
          exact Nat.dvd_sub hnew hold
        · simp [min_eq_right hle']
      refine (expandInPlace_spec hwf hdvd hend hfree).imp fun _ s₅ h5 => ⟨h5.1, ?_⟩
      rw [hfast.1]
      exact hfits.within (by have := h5.2; omega)
    · exact anywhere rfl

/-! ## Forking -/

lemma forkLoop_spec (ms : List VmMapping) (h : s.Sound self k o)
    (haligned : ∀ m ∈ ms, m.Aligned) (hbounded : ∀ m ∈ ms, m.mapEnd < usizeModulus)
    (hapart : ms.Pairwise (fun a b => (range a).stop ≤ (range b).start))
    (hfree : ∀ m ∈ ms, s.inner.vmMappings.Free (range m)) :
    wp (forkLoop self ms) (fun _ s' => s'.Sound self k o) E s := by
  induction ms generalizing s with
  | nil => exact .pure h
  | cons m rest ih =>
    obtain ⟨hhead, hrest⟩ := pairwise_cons.mp hapart
    have hins : s.inner.Insertable m :=
      ⟨haligned m mem_cons_self, hbounded m mem_cons_self, hfree m mem_cons_self⟩
    have hperm := inserted_perm h.toSound hins
    refine (insertWithoutTryMerge_spec (m := m) h.names).then fun _ s₁ ⟨h1, hnames⟩ => ?_
    refine ih ⟨h1 ▸ h.toSound.inserted hins, h1 ▸ hnames.perm hperm.symm⟩
      (fun x hx => haligned x (.tail _ hx)) (fun x hx => hbounded x (.tail _ hx)) hrest
      fun x hx y hy => ?_
    rw [h1] at hy
    rcases mem_cons.mp (hperm.mem_iff.mp hy) with rfl | hy
    · exact .inl (hhead x hx)
    · exact hfree x (.tail _ hx) y hy

/-- The clones of the mappings of a sound address space make a sound one. -/
lemma forkFrom_spec {extra : ℕ} (h : v.Sound extra) (hs : s.inner = .new)
    (hn : Names self o [] s.rmaps) : wp (forkFrom self v) (fun _ s' => s'.Sound self 0 o) E s :=
  forkLoop_spec _ ⟨hs ▸ sound_new, hs ▸ hn⟩ h.aligned h.bounded h.intervals.iter_pairwise
    (fun m _ x hx => by rw [hs] at hx; cases hx)

end Asterinas.Vmar
