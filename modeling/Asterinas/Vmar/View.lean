import Asterinas.Vmar.InnerSpec

/-!
# The view of an address space

The view says what is mapped at each page, and nothing about how the pages are grouped into
mappings.  Truncating a range clears the view there and nowhere else; splitting mappings and merging
them leave it alone.
-/

namespace Asterinas.Vmar

open Framework VmarM VmMapping

namespace VmarInner

/-- What is mapped at an address. -/
def view (v : VmarInner) (addr : ℕ) : Option Page :=
  (v.vmMappings.findOne addr).map (·.pageAt addr)

section

variable {k : ℕ} {v v' : VmarInner} {m left right : VmMapping}

lemma view_eq_some {addr : ℕ} {page : Page} (h : v.Sound k) :
    v.view addr = some page ↔ Shown v.mappings addr page := by
  simp only [view, Option.map_eq_some_iff, h.intervals.findOne_eq_some, Shown, Shows, and_assoc]
  rfl

/-- The view depends on what the mappings show only. -/
lemma view_congr {addr : ℕ} (h : v.Sound k) (h' : v'.Sound k)
    (hshown : ∀ page, Shown v'.mappings addr page ↔ Shown v.mappings addr page) :
    v'.view addr = v.view addr := by
  refine Option.ext fun page => ?_
  rw [view_eq_some h', view_eq_some h, hshown]

/-- Nothing is mapped in a free range. -/
lemma view_eq_none {r : Range ℕ} {addr : ℕ} (h : v.Sound k) (hfree : v.vmMappings.Free r)
    (hstart : r.start ≤ addr) (hstop : addr < r.stop) : v.view addr = none := by
  refine Option.eq_none_iff_forall_ne_some.mpr fun page hpage => ?_
  obtain ⟨m, hm, ⟨hlo, hhi⟩, -⟩ := (view_eq_some h).mp hpage
  have hap := hfree m hm
  simp only [Range.Apart, range_start, range_stop] at hap
  omega

/-- The address space in which the parts of a mapping stand in its place. -/
def splitAt (v : VmarInner) (m left right : VmMapping) : VmarInner :=
  ((v.removed m.mapToAddr m.mapSize).inserted left).inserted right

lemma view_splitAt {addr : ℕ} (h : v.Sound k) (hm : m ∈ v.mappings)
    (hsplit : m.split addr = some (left, right)) : (v.splitAt m left right).view = v.view := by
  obtain ⟨hin, hdvd, hls, hle, hrs, hre, -, -⟩ := split_eq_some hsplit
  have hfree := free_removed h hm m.mapSize
  have hbd := h.bounded m hm
  have hl : (v.removed m.mapToAddr m.mapSize).Insertable left := by
    refine .of_ends hls hle (h.aligned m hm).1 hdvd (by omega) fun x hx => ?_
    exact ((hfree x hx).symm.mono (q := ⟨m.mapToAddr, addr⟩) le_rfl hin.2.le).symm
  have hleft := inserted_perm (h.removed hm) hl
  have hr : ((v.removed m.mapToAddr m.mapSize).inserted left).Insertable right := by
    refine .of_ends hrs hre hdvd (h.aligned m hm).2 hbd fun x hx => ?_
    rcases List.mem_cons.mp (hleft.mem_iff.mp hx) with rfl | hx
    · exact .inl hle.le
    · exact ((hfree x hx).symm.mono (q := ⟨addr, m.mapEnd⟩) hin.1.le le_rfl).symm
  have hsound := (h.removed hm).inserted hl
  refine funext fun a => view_congr h (hsound.inserted hr) fun page => ?_
  rw [splitAt, shown_of_perm (inserted_perm hsound hr), shown_cons, shown_of_perm hleft, shown_cons,
    shown_of_perm (removed_perm h hm m.mapSize), shown_cons, split_shows hsplit, or_left_comm,
    or_assoc]

end

variable {s s' : VmarState}

/-- In every well-formed address space, truncating a range leaves nothing mapped in it and the
view outside as it was; splitting a mapping leaves the view as it was; and inserting a mapping with
the merges that the merge test accepts gives the view of inserting it without merging. -/
theorem view_truncate_split_merge (h : s.inner.WellFormed) (self : VmarId) :
    (∀ offset size r s', allocFreeRegionExactTruncate self offset size s = .ok r s' →
      ∀ addr, s'.inner.view addr =
        if offset ≤ addr ∧ addr < offset + size then none else s.inner.view addr) ∧
    (∀ m ∈ s.inner.mappings, ∀ addr left right, m.split addr = some (left, right) →
      (s.inner.splitAt m left right).view = s.inner.view) ∧
    ∀ m s', s.inner.Insertable m → insertTryMerge self m m.vmoForRmap s = .ok () s' →
      s'.inner.view = (s.inner.inserted m).view := by
  have hsound := wellFormed_iff.mp h
  refine ⟨fun offset size r s' hrun addr => ?_, fun m hm addr left right => view_splitAt hsound hm,
    fun m s' hm hrun => funext fun addr => ?_⟩
  · refine (wp_inner (Q := fun _ v => v.view addr = if offset ≤ addr ∧ addr <
      offset + size then none
      else s.inner.view addr) (E := fun _ => False) self h fun hs => ?_).of_ok hrun
    refine (allocFreeRegionExactTruncate_spec hs offset size).imp ?_
    rintro _ s₁ ⟨rfl, -, h1, hcleared⟩
    split_ifs with hin
    · exact view_eq_none h1.toSound hcleared.free hin.1 hin.2
    · exact view_congr hsound h1.toSound fun page => hcleared.shown addr page hin
  · refine (wp_inner (Q := fun _ v => v.view addr = (s.inner.inserted m).view addr)
      (E := fun _ => False) self h fun hs => ?_).of_ok hrun
    refine (insertTryMerge_shown hs hm rfl).imp fun _ s₁ h1 => ?_
    refine view_congr (hsound.inserted hm) h1.1.toSound fun page => ?_
    rw [h1.2.2, shown_of_perm (inserted_perm hsound hm)]

/-- Three pages of a VMO from its sixth page on. -/
def threePages : VmMapping :=
  ⟨0x3000, 0x10000, .vmo ⟨7, 0x5000, false⟩, none, .priv, false, .read, by decide⟩

/-- The middle page is truncated away; the page behind it stays the eighth of the VMO. -/
theorem view_truncate_middle :
    ∃ s', allocFreeRegionExactTruncate 0 0x11000 0x1000 ⟨new.inserted threePages, fun _ => .new⟩ =
        .ok ⟨0x11000, 0x12000⟩ s' ∧
      s'.inner.view 0x12000 = some ⟨.vmo 7 0x7000, .read, .priv, none⟩ ∧
      ∀ addr, s'.inner.view addr = if 0x11000 ≤ addr ∧ addr < 0x11000 + 0x1000 then none
        else (new.inserted threePages).view addr := by
  have hins : new.Insertable threePages :=
    ⟨by decide, show 0x13000 < 2 ^ 64 by decide, nofun⟩
  have hrun : allocFreeRegionExactTruncate 0 0x11000 0x1000
    ⟨new.inserted threePages, fun _ => .new⟩ = .ok _ _ := rfl
  exact ⟨_, hrun, rfl, (view_truncate_split_merge
    (wellFormed_iff.mpr (sound_new.inserted hins)) 0).1 _ _ _ _ hrun⟩

end VmarInner

end Asterinas.Vmar
