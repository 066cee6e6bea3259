import Asterinas.Vmar.Inner

/-!
# What the reverse maps hold (`rmap.rs`)

The reverse map of a VMO is to hold one entry for each shared mapping of the VMO.  `Names` says so
of the mappings of one VMAR.  They are given as a list, since in the middle of an operation the
mappings that have an entry are not those of the set: a mapping leaves the set before its entry
goes, and enters it after its entry was made.

The entry of a mapping is found by its address alone, and it is the right one because no other
mapping of the VMAR starts there.
-/

namespace Asterinas.Vmar

open Framework Exec VmarM VmarInner List

namespace VmMapping

/-- The entry of a mapping in the reverse map of a VMO: its start address, its offset in the VMO and
its size, if it is a shared mapping of the VMO. -/
def rmapEntry (vmo : VmoId) (m : VmMapping) : Option RmapEntry :=
  (m.vmo.filter fun mapped => m.mapMode.isShared ∧ mapped.vmo = vmo).map fun mapped =>
    ⟨m.mapToAddr, mapped.offset, m.mapSize⟩

/-- A mapping has an entry in the reverse map that `vmo_for_rmap` names, and in no other. -/
lemma rmapEntry_cases (m : VmMapping) :
    (m.vmoForRmap = none ∧ ∀ vmo, m.rmapEntry vmo = none) ∨
      ∃ mapped, m.vmo = some mapped ∧ m.vmoForRmap = some mapped.vmo ∧
        ∀ vmo, m.rmapEntry vmo =
          if mapped.vmo = vmo then some ⟨m.mapToAddr, mapped.offset, m.mapSize⟩ else none := by
  unfold rmapEntry vmoForRmap vmo
  cases m.mappedMem with
  | anonymous | device mapped => simp
  | vmo mapped =>
    cases m.mapMode.isShared with
    | false => simp
    | true =>
      refine .inr ⟨mapped, rfl, rfl, fun vmo => ?_⟩
      by_cases hvmo : mapped.vmo = vmo <;> simp [hvmo]

lemma vaddr_of_rmapEntry {entry : RmapEntry} {m : VmMapping} {vmo : VmoId}
    (h : m.rmapEntry vmo = some entry) : entry.vaddr = m.mapToAddr := by
  obtain ⟨mapped, -, rfl⟩ := Option.map_eq_some_iff.mp h
  rfl

end VmMapping

/-- The item that `swap_remove` takes out of a list, and what it leaves. -/
lemma Rmap.swapRemove_perm {index : ℕ} {entries : List RmapEntry} (h : index < entries.length) :
    entries.Perm (entries[index] :: swapRemove entries index) := by
  induction entries using List.reverseRecOn with
  | nil => simp at h
  | append_singleton init last _ =>
    have hlast : (init ++ [last]).getLast? = some last := by simp
    simp only [swapRemove, hlast]
    rcases lt_or_ge index init.length with hlt | hge
    · rw [getElem_append_left hlt, set_append_left _ _ hlt, dropLast_concat]
      calc (init ++ [last]).Perm (last :: init) := perm_append_singleton _ _
        _ |>.Perm (last :: init[index] :: init.eraseIdx index) :=
          ((getElem_cons_eraseIdx_perm hlt).symm).cons _
        _ |>.Perm (init[index] :: last :: init.eraseIdx index) := .swap _ _ _
        _ |>.Perm (init[index] :: init.set index last) :=
          ((set_perm_cons_eraseIdx hlt last).symm).cons _
    · obtain rfl : index = init.length := by simp at h; omega
      simp

/-- The reverse maps hold an entry for each of the mappings `ms` and no other entry of the VMAR
`vmar`, and the entries of the other VMARs are `others`. -/
structure Names (vmar : VmarId) (others : VmoId → VmarId → List RmapEntry) (ms : List VmMapping)
    (rmaps : VmoId → Rmap) : Prop where
  own : ∀ vmo, ((rmaps vmo).entries vmar).Perm (ms.filterMap (·.rmapEntry vmo))
  rest : ∀ vmo i, i ≠ vmar → (rmaps vmo).entries i = others vmo i

namespace Names

variable {self : VmarId} {others : VmoId → VmarId → List RmapEntry} {ms ms' : List VmMapping}
  {rmaps : VmoId → Rmap} {m : VmMapping} {s : VmarState}

lemma perm (h : Names self others ms rmaps) (hms : ms.Perm ms') : Names self others ms' rmaps :=
  ⟨fun vmo => (h.own vmo).trans (hms.filterMap _), h.rest⟩

/-- There are reverse maps for every list of mappings. -/
lemma exists_names (self : VmarId) (ms : List VmMapping) :
    ∃ others rmaps, Names self others ms rmaps :=
  ⟨_, fun vmo => ⟨fun _ => ms.filterMap (·.rmapEntry vmo)⟩, fun _ => .refl _, fun _ _ _ => rfl⟩

/-- A mapping without an entry does not count. -/
lemma cons_iff (hm : ∀ vmo, m.rmapEntry vmo = none) :
    Names self others (m :: ms) rmaps ↔ Names self others ms rmaps := by
  constructor <;> exact fun h => ⟨fun vmo => by simpa [hm vmo] using h.own vmo, h.rest⟩

/-- New entries of the VMAR in one reverse map. -/
lemma update {vmo : VmoId} {entries : List RmapEntry} (h : Names self others ms rmaps)
    (hvmo : entries.Perm (ms'.filterMap (·.rmapEntry vmo)))
    (hne : ∀ v, v ≠ vmo → ms'.filterMap (·.rmapEntry v) = ms.filterMap (·.rmapEntry v)) :
    Names self others ms' (Function.update rmaps vmo
      ⟨Function.update (rmaps vmo).entries self entries⟩) := by
  refine ⟨fun v => ?_, fun v i hi => ?_⟩
  · by_cases hv : v = vmo
    · subst hv
      simpa using hvmo
    · simpa [hv, hne v hv] using h.own v
  · by_cases hv : v = vmo
    · subst hv
      simpa [hi] using h.rest v i hi
    · simpa [hv] using h.rest v i hi

/-- `Rmap::remove` finds the entry of a mapping that has one, when no other starts where it does. -/
lemma exists_remove (h : Names self others (m :: ms) rmaps) {vmo : VmoId} {entry : RmapEntry}
    (hm : m.rmapEntry vmo = some entry) (hne : ∀ x ∈ ms, x.mapToAddr ≠ m.mapToAddr) :
    ∃ entries, (rmaps vmo).remove self m.mapToAddr =
        some ⟨Function.update (rmaps vmo).entries self entries⟩ ∧
      entries.Perm (ms.filterMap (·.rmapEntry vmo)) := by
  have hown := h.own vmo
  rw [filterMap_cons_some hm] at hown
  have hvaddr := VmMapping.vaddr_of_rmapEntry hm
  have hfound : ((rmaps vmo).entries self).findIdx? (fun e => e.vaddr = m.mapToAddr) ≠ none := by
    rw [ne_eq, findIdx?_eq_none_iff]
    exact fun hno => by simpa [hvaddr] using hno entry (hown.mem_iff.mpr mem_cons_self)
  obtain ⟨index, hindex⟩ := Option.ne_none_iff_exists'.mp hfound
  refine ⟨_, by rw [Rmap.remove, hindex]; rfl, ?_⟩
  obtain ⟨hlt, hat, -⟩ := findIdx?_eq_some_iff_getElem.mp hindex
  -- the entry that was found is that of the mapping, since the others have other addresses
  have heq : ((rmaps vmo).entries self)[index] = entry := by
    rcases mem_cons.mp (hown.mem_iff.mp (getElem_mem hlt)) with heq | hmem
    · exact heq
    · obtain ⟨x, hx, hxe⟩ := mem_filterMap.mp hmem
      refine absurd ?_ (hne x hx)
      rw [← VmMapping.vaddr_of_rmapEntry hxe]
      simpa using hat
  have hswap := Rmap.swapRemove_perm hlt
  rw [heq] at hswap
  exact (hswap.symm.trans hown).cons_inv

/-! ### The methods that change a reverse map -/

lemma insertRmapEntry_spec (h : Names self others ms s.rmaps) :
    yields (insertRmapEntry self m m.vmoForRmap)
      (fun _ s' => s'.inner = s.inner ∧ Names self others (m :: ms) s'.rmaps) s := by
  rcases m.rmapEntry_cases with ⟨hnone, hentry⟩ | ⟨mapped, hvmo, hsome, hentry⟩
  · rw [hnone]
    exact ⟨rfl, (cons_iff hentry).mpr h⟩
  · simp only [hsome, insertRmapEntry, hvmo, twp_bind, twp_ofOption, twp_get, setRmap, twp_modify]
    refine ⟨mapped, rfl, trivial, h.update ?_ fun v hv => ?_⟩
    · rw [filterMap_cons_some ((hentry _).trans (if_pos rfl))]
      exact (perm_append_singleton _ _).trans ((h.own _).cons _)
    · exact filterMap_cons_none ((hentry v).trans (if_neg hv.symm))

/-- The entry of a mapping is there to be removed. -/
lemma removeRmapEntry_spec (h : Names self others (m :: ms) s.rmaps)
    (hne : ∀ x ∈ ms, x.mapToAddr ≠ m.mapToAddr) :
    yields (removeRmapEntry self m.mapToAddr m.vmoForRmap)
      (fun _ s' => s'.inner = s.inner ∧ Names self others ms s'.rmaps) s := by
  rcases m.rmapEntry_cases with ⟨hnone, hentry⟩ | ⟨mapped, hvmo, hsome, hentry⟩
  · rw [hnone]
    exact ⟨rfl, (cons_iff hentry).mp h⟩
  · obtain ⟨entries, hremove, hperm⟩ := h.exists_remove ((hentry _).trans (if_pos rfl)) hne
    simp only [hsome, removeRmapEntry, hremove, twp_bind, twp_ofOption, twp_get,
      setRmap, twp_modify]
    refine ⟨_, rfl, trivial, h.update hperm fun v hv => ?_⟩
    exact (filterMap_cons_none ((hentry v).trans (if_neg hv.symm))).symm

end Names

lemma insertRmapEntry_inner (self : VmarId) (m : VmMapping) (rmap : Option VmoId) (s : VmarState) :
    wp (insertRmapEntry self m rmap) (fun _ s' => s'.inner = s.inner) (fun _ _ => False) s := by
  cases rmap <;> simp [insertRmapEntry, setRmap]

lemma removeRmapEntry_inner (self : VmarId) (addr : ℕ) (rmap : Option VmoId) (s : VmarState) :
    wp (removeRmapEntry self addr rmap) (fun _ s' => s'.inner = s.inner) (fun _ _ => False) s := by
  cases rmap <;> simp [removeRmapEntry, setRmap]

end Asterinas.Vmar
