import Asterinas.Vmar.Rmap

/-!
# What the methods of `VmarInner` guarantee

`VmarInner.WellFormed` is the invariant of an address space: an interval set of page-aligned
mappings with their exact total size.  `VmarState.Sound` is what the methods keep: the total may be
ahead of the sum by a fixed amount, since `clear` drops the mappings and leaves the total, and the
reverse maps name the mappings of the address space.  Each lemma `f_spec` below says what one
method does to a sound state, in terms of the mappings, of the total, and of how much of a range is
mapped (`coverage`); later proofs cite these and never look inside the methods again.

The guarantees are those of `Exec.rwp` for the address space without the reverse maps: these decide
neither what a method returns nor whether it panics.  Methods that can only panic, and never return
an error, meet their guarantee for every condition `E` on errors.
-/

namespace Asterinas.Vmar

open Framework VmMapping List Set
open Exec hiding wp

namespace VmarM

/-- What a method guarantees, whatever the reverse maps are. -/
abbrev wp {α : Type} (m : VmarM α) (Q : α → VmarState → Prop) (E : Error → VmarState → Prop)
    (s : VmarState) : Prop := rwp VmarState.inner m Q E s

/-- What a call guarantees that only looks: it leaves the address space alone, error or not. -/
abbrev checks {α : Type} (m : VmarM α) (Q : α → Prop) (s : VmarState) : Prop :=
  wp m (fun a s' => s' = s ∧ Q a) (fun _ s' => s' = s) s

variable {α : Type} {Q : α → VmarState → Prop} {E : Error → VmarState → Prop} {s : VmarState}

@[simp] lemma wp_getMappings_bind (f : IntervalSet ℕ VmMapping → VmarM α) :
    wp (getMappings >>= f) Q E s ↔ wp (f s.inner.vmMappings) Q E s :=
  rwp_get_bind (f := fun s => f s.inner.vmMappings) fun t ht => by rw [ht]

/-- Sequencing after a call that only looks. -/
lemma checks.bind {β : Type} {m : VmarM β} {P : β → Prop} {f : β → VmarM α} (h : checks m P s)
    (hE : ∀ e, E e s) (hf : ∀ a, P a → wp (f a) Q E s) : wp (m >>= f) Q E s :=
  h.seq (fun e _ he => he ▸ hE e) fun a _ ⟨heq, ha⟩ => heq ▸ hf a ha

lemma modifyMappings_spec (f : IntervalSet ℕ VmMapping → IntervalSet ℕ VmMapping) :
    wp (modifyMappings f) (fun _ s' =>
      s' = { s with inner := { s.inner with vmMappings := f s.inner.vmMappings } }) E s :=
  rwp_modify fun t ht => by simp only [ht]

lemma setTotalVm_spec (totalVm : ℕ) :
    wp (setTotalVm totalVm)
      (fun _ s' => s' = { s with inner := { s.inner with totalVm := totalVm } }) E s :=
  rwp_modify fun t ht => by simp only [ht]

end VmarM

/-! ## The invariant -/

namespace VmarInner

/-- The mappings of an address space. -/
def mappings (v : VmarInner) : List VmMapping := v.vmMappings.iter

/-- The sum of the sizes of the mappings. -/
def mappedSize (v : VmarInner) : ℕ := (v.mappings.map (·.mapSize)).sum

/-- The mappings are stored under their start addresses, do not overlap, are page-aligned and end
below the end of the address space, and `total_vm` is the sum of their sizes. -/
structure WellFormed (v : VmarInner) : Prop where
  intervals : v.vmMappings.WellFormed
  aligned : ∀ m ∈ v.mappings, m.Aligned
  bounded : ∀ m ∈ v.mappings, m.mapEnd < usizeModulus
  total : v.totalVm = v.mappedSize

/-- The same with `total_vm` ahead of the sum of the sizes by `extra`. -/
structure Sound (extra : ℕ) (v : VmarInner) : Prop where
  intervals : v.vmMappings.WellFormed
  aligned : ∀ m ∈ v.mappings, m.Aligned
  bounded : ∀ m ∈ v.mappings, m.mapEnd < usizeModulus
  total : v.totalVm = v.mappedSize + extra

variable {v : VmarInner}

lemma wellFormed_iff : v.WellFormed ↔ v.Sound 0 :=
  ⟨fun h => ⟨h.1, h.2, h.3, h.4⟩, fun h => ⟨h.1, h.2, h.3, h.4⟩⟩

/-- The length of the common part of two ranges. -/
def overlap (r r' : Range ℕ) : ℕ := min r.stop r'.stop - max r.start r'.start

/-- How much of a range is mapped. -/
def coverage (v : VmarInner) (r : Range ℕ) : ℕ :=
  (v.mappings.map fun m => overlap r (range m)).sum

lemma sound_new : VmarInner.new.Sound 0 where
  intervals := IntervalSet.wellFormed_new
  aligned := by simp [VmarInner.new, mappings]
  bounded := by simp [VmarInner.new, mappings]
  total := rfl

lemma wellFormed_new : VmarInner.new.WellFormed := wellFormed_iff.mpr sound_new

lemma overlap_append {a b c : ℕ} {r : Range ℕ} (hab : a ≤ b) (hbc : b ≤ c) :
    overlap r ⟨a, c⟩ = overlap r ⟨a, b⟩ + overlap r ⟨b, c⟩ := by
  simp only [overlap]
  omega

lemma overlap_eq_zero {r r' : Range ℕ} (h : r'.Apart r) : overlap r r' = 0 := by
  unfold overlap
  rcases h with h | h <;> omega

lemma coverage_eq_zero {r : Range ℕ} (h : v.vmMappings.Free r) :
    v.coverage r = 0 := by
  refine sum_eq_zero fun n hn => ?_
  obtain ⟨m, hm, rfl⟩ := mem_map.mp hn
  exact overlap_eq_zero (h m hm)

/-- One of the mappings has the page `page` at `addr`. -/
def Shown (ms : List VmMapping) (addr : ℕ) (page : Page) : Prop := ∃ m ∈ ms, m.Shows addr page

lemma shown_of_perm {ms ms' : List VmMapping} {addr : ℕ} {page : Page} (h : ms.Perm ms') :
    Shown ms addr page ↔ Shown ms' addr page :=
  exists_congr fun _ => and_congr_left' h.mem_iff

@[simp] lemma shown_cons {m : VmMapping} {ms : List VmMapping} {addr : ℕ} {page : Page} :
    Shown (m :: ms) addr page ↔ m.Shows addr page ∨ Shown ms addr page := by
  simp [Shown]

@[simp] lemma shown_append {ms ms' : List VmMapping} {addr : ℕ} {page : Page} :
    Shown (ms ++ ms') addr page ↔ Shown ms addr page ∨ Shown ms' addr page := by
  simp [Shown, or_and_right, exists_or]

@[simp] lemma shown_toList {addr : ℕ} {page : Page} {o : Option VmMapping} :
    Shown o.toList addr page ↔ ∃ m ∈ o, m.Shows addr page := by
  simp [Shown]

/-- The address space with one more mapping. -/
def inserted (v : VmarInner) (m : VmMapping) : VmarInner :=
  ⟨v.vmMappings.insert m, v.totalVm + m.mapSize⟩

/-- The address space without the mapping at an address, of the given size. -/
def removed (v : VmarInner) (addr size : ℕ) : VmarInner :=
  ⟨(v.vmMappings.remove addr).2, v.totalVm - size⟩

/-- A mapping that can be added to the address space. -/
structure Insertable (v : VmarInner) (m : VmMapping) : Prop where
  aligned : m.Aligned
  bounded : m.mapEnd < usizeModulus
  free : v.vmMappings.Free (range m)

lemma Insertable.of_ends {a b : ℕ} {m : VmMapping} (hstart : m.mapToAddr = a) (hend : m.mapEnd = b)
    (ha : pageSize ∣ a) (hb : pageSize ∣ b) (hlt : b < usizeModulus)
    (hfree : v.vmMappings.Free ⟨a, b⟩) : v.Insertable m := by
  subst hstart hend
  exact ⟨⟨ha, hb⟩, hlt, hfree⟩

section Update

variable {k : ℕ} {v : VmarInner} {m : VmMapping} {r : Range ℕ}

section

variable (h : v.Sound k)

include h

lemma inserted_perm (hm : v.Insertable m) : (v.inserted m).mappings.Perm (m :: v.mappings) :=
  h.intervals.iter_insert_perm m.mapToAddr_lt_mapEnd hm.free

lemma removed_perm (hm : m ∈ v.mappings) (n : ℕ) :
    v.mappings.Perm (m :: (v.removed m.mapToAddr n).mappings) :=
  h.intervals.iter_remove_perm hm

lemma mem_removed {addr n : ℕ} :
    m ∈ (v.removed addr n).mappings ↔ m ∈ v.mappings ∧ m.mapToAddr ≠ addr :=
  h.intervals.mem_iter_remove

lemma Sound.inserted (hm : v.Insertable m) : (v.inserted m).Sound k where
  intervals := h.intervals.insert m.mapToAddr_lt_mapEnd hm.free
  aligned := by
    intro x hx
    rcases mem_cons.mp ((inserted_perm h hm).mem_iff.mp hx) with rfl | hx
    · exact hm.aligned
    · exact h.aligned x hx
  bounded := by
    intro x hx
    rcases mem_cons.mp ((inserted_perm h hm).mem_iff.mp hx) with rfl | hx
    · exact hm.bounded
    · exact h.bounded x hx
  total := by
    have := ((inserted_perm h hm).map (·.mapSize)).sum_eq
    rw [map_cons, sum_cons, ← mappedSize, ← mappedSize] at this
    have := h.total
    show v.totalVm + m.mapSize = _
    omega

lemma Sound.removed (hm : m ∈ v.mappings) : (v.removed m.mapToAddr m.mapSize).Sound k where
  intervals := h.intervals.remove _
  aligned := fun x hx => h.aligned x ((mem_removed h).mp hx).1
  bounded := fun x hx => h.bounded x ((mem_removed h).mp hx).1
  total := by
    have := ((removed_perm h hm m.mapSize).map (·.mapSize)).sum_eq
    rw [← mappedSize, map_cons, sum_cons, ← mappedSize] at this
    have := h.total
    show v.totalVm - m.mapSize = _
    omega

lemma Sound.eq_of_mapToAddr_eq {m' : VmMapping} (hm' : m' ∈ v.mappings)
    (hm : m ∈ v.mappings) (heq : m'.mapToAddr = m.mapToAddr) : m' = m := by
  rcases h.intervals.eq_or_apart hm' hm with hsame | hap
  · exact hsame
  · have h1 := m'.mapToAddr_lt_mapEnd
    have h2 := m.mapToAddr_lt_mapEnd
    simp only [Range.Apart, range_start, range_stop] at hap
    omega

lemma mapSize_le_totalVm (hm : m ∈ v.mappings) : m.mapSize ≤ v.totalVm := by
  rw [h.total]
  exact le_add_right (le_sum_of_mem (mem_map_of_mem hm))

lemma coverage_inserted (hm : v.Insertable m) :
    (v.inserted m).coverage r = overlap r (range m) + v.coverage r := by
  rw [coverage, ((inserted_perm h hm).map _).sum_eq, map_cons, sum_cons]
  rfl

lemma coverage_removed (hm : m ∈ v.mappings) (n : ℕ) :
    overlap r (range m) + (v.removed m.mapToAddr n).coverage r = v.coverage r := by
  have := ((removed_perm h hm n).map fun m => overlap r (range m)).sum_eq
  rw [map_cons, sum_cons] at this
  exact this.symm

/-- A removed mapping leaves its range free. -/
lemma free_removed (hm : m ∈ v.mappings) (n : ℕ) :
    (v.removed m.mapToAddr n).vmMappings.Free (range m) := by
  intro x hx
  obtain ⟨hxv, hne⟩ := (mem_removed h).mp hx
  rcases h.intervals.eq_or_apart hxv hm with rfl | hap
  · exact absurd rfl hne
  · exact hap

/-- The address space with a mapping that may be absent. -/
def insertedOpt (v : VmarInner) : Option VmMapping → VmarInner
  | none => v
  | some m => v.inserted m

/-- What inserting a mapping over the range `q`, or nothing when `q` is empty, does. -/
structure Extended (k : ℕ) (v : VmarInner) (q : Range ℕ) (v' : VmarInner) : Prop where
  wf : v'.Sound k
  total : v'.totalVm = v.totalVm + (q.stop - q.start)
  mem : ∀ x ∈ v'.mappings, x ∈ v.mappings ∨ x.mapToAddr = q.start ∧ x.mapEnd = q.stop
  coverage : ∀ r, v'.coverage r = overlap r q + v.coverage r

lemma Sound.insertedOpt {o : Option VmMapping} {q : Range ℕ}
    (hsome : ∀ x ∈ o, x.mapToAddr = q.start ∧ x.mapEnd = q.stop)
    (hnone : o = none → q.start = q.stop) (haligned : pageSize ∣ q.start ∧ pageSize ∣ q.stop)
    (hbounded : q.stop < usizeModulus) (hfree : v.vmMappings.Free q) :
    Extended k v q (v.insertedOpt o) ∧
      (v.insertedOpt o).mappings.Perm (o.toList ++ v.mappings) := by
  cases o with
  | none =>
    have hq := hnone rfl
    refine ⟨⟨h, ?_, fun x hx => .inl hx, fun r => ?_⟩, .refl _⟩
    · show v.totalVm = _
      omega
    · have : overlap r q = 0 := by
        unfold overlap
        omega
      rw [this, zero_add]
      rfl
  | some x =>
    obtain ⟨hstart, hstop⟩ := hsome x rfl
    have hrange : range x = q := by
      show (⟨x.mapToAddr, x.mapEnd⟩ : Range ℕ) = q
      rw [hstart, hstop]
    have hins : v.Insertable x := .of_ends hstart hstop haligned.1 haligned.2 hbounded hfree
    refine ⟨⟨h.inserted hins, ?_, fun y hy => ?_, fun r => ?_⟩, inserted_perm h hins⟩
    · show v.totalVm + x.mapSize = _
      rw [x.mapSize_eq, hstart, hstop]
    · rcases mem_cons.mp ((inserted_perm h hins).mem_iff.mp hy) with rfl | hy
      · exact .inr ⟨hstart, hstop⟩
      · exact .inl hy
    · exact hrange ▸ coverage_inserted h hins

end

/-- What is left of an address space `v` when the part `i` is cut out of its mapping `m`. -/
structure Carved (k : ℕ) (v : VmarInner) (m : VmMapping) (i : Range ℕ) (v' : VmarInner) :
    Prop where
  wf : v'.Sound k
  total : v'.totalVm + (i.stop - i.start) = v.totalVm
  mem : ∀ x ∈ v'.mappings, (x ∈ v.mappings ∧ x.mapToAddr ≠ m.mapToAddr) ∨
    (range x).Apart i ∧ m.mapToAddr ≤ x.mapToAddr ∧ x.mapEnd ≤ m.mapEnd
  free : v'.vmMappings.Free i
  coverage : ∀ r, v'.coverage r + overlap r i = v.coverage r

variable {i : Range ℕ}

/-- What was free stays free when something is cut out. -/
lemma Carved.free_of_free {v' : VmarInner} {q : Range ℕ} (h : Carved k v m i v')
    (hm : m ∈ v.mappings) (hfree : v.vmMappings.Free q) : v'.vmMappings.Free q := by
  intro x hx
  rcases h.mem x hx with ⟨hxv, -⟩ | ⟨-, hlo, hhi⟩
  · exact hfree x hxv
  · exact (hfree m hm).mono hlo hhi

variable {right left : Option VmMapping} {taken : VmMapping}

/-- Removing a mapping and putting back the parts before and after `i` cuts out `i`. -/
lemma Sound.carved (h : v.Sound k) (hm : m ∈ v.mappings) (hsplit : m.SplitOf i left taken right)
    (hin : m.mapToAddr ≤ i.start ∧ i.stop ≤ m.mapEnd) :
    let v' := ((v.removed m.mapToAddr m.mapSize).insertedOpt left).insertedOpt right
    Carved k v m i v' ∧ v'.mappings.Perm
      (right.toList ++ (left.toList ++ (v.removed m.mapToAddr m.mapSize).mappings)) := by
  have hi : i.start < i.stop := hsplit.taken_start ▸ hsplit.taken_end ▸ taken.mapToAddr_lt_mapEnd
  have hal := h.aligned m hm
  have hbd := h.bounded m hm
  have hial := hsplit.aligned hal
  have hfree := free_removed h hm m.mapSize
  obtain ⟨hleft, hleftPerm⟩ := (h.removed hm).insertedOpt (q := ⟨m.mapToAddr, i.start⟩)
    hsplit.left_some
    (fun hn => (hsplit.left_none hn).symm) ⟨hal.1, hial.1⟩
    (show i.start < usizeModulus by omega)
    (fun x hx => ((hfree x hx).symm.mono (q := ⟨m.mapToAddr, i.start⟩) le_rfl
      (show i.start ≤ m.mapEnd by omega)).symm)
  obtain ⟨hright, hrightPerm⟩ := hleft.wf.insertedOpt (q := ⟨i.stop, m.mapEnd⟩) hsplit.right_some
    hsplit.right_none ⟨hial.2, hal.2⟩ hbd (by
      intro x hx
      rcases hleft.mem x hx with hx | hx
      · exact ((hfree x hx).symm.mono (q := ⟨i.stop, m.mapEnd⟩)
          (show m.mapToAddr ≤ i.stop by omega) le_rfl).symm
      · exact .inl (show x.mapEnd ≤ i.stop by have := hx.2; simp only at this; omega))
  have hmem :
    ∀ x ∈ (((v.removed m.mapToAddr m.mapSize).insertedOpt left).insertedOpt right).mappings,
      (x ∈ v.mappings ∧ x.mapToAddr ≠ m.mapToAddr) ∨
        (range x).Apart i ∧ m.mapToAddr ≤ x.mapToAddr ∧ x.mapEnd ≤ m.mapEnd := by
    intro x hx
    rcases hright.mem x hx with hx | ⟨h1, h2⟩
    · rcases hleft.mem x hx with hx | ⟨h1, h2⟩
      · exact .inl ((mem_removed h).mp hx)
      · simp only at h1 h2
        exact .inr ⟨.inl h2.le, h1.ge, by omega⟩
    · simp only at h1 h2
      exact .inr ⟨.inr h1.ge, by omega, h2.le⟩
  refine ⟨⟨hright.wf, ?_, hmem, fun x hx => ?_, fun r => ?_⟩,
    hrightPerm.trans (hleftPerm.append_left _)⟩
  · have h0 : (v.removed m.mapToAddr m.mapSize).totalVm = v.totalVm - m.mapSize := rfl
    have h1 := hleft.total
    have h2 := hright.total
    have h3 := mapSize_le_totalVm h hm
    have h4 := m.mapSize_eq
    simp only at h1 h2
    omega
  · rcases hmem x hx with ⟨hxv, hne⟩ | ⟨hap, -, -⟩
    · have hxm := hfree x ((mem_removed h).mpr ⟨hxv, hne⟩)
      exact (hxm.symm.mono hin.1 hin.2).symm
    · exact hap
  · have h1 := hleft.coverage r
    have h2 := hright.coverage r
    have h3 := coverage_removed h hm (r := r) m.mapSize
    have h4 : overlap r (range m) =
        overlap r ⟨m.mapToAddr, i.start⟩ + overlap r i + overlap r ⟨i.stop, m.mapEnd⟩ := by
      rw [← overlap_append hin.1 hi.le]
      exact overlap_append (hin.1.trans hi.le) hin.2
    omega

end Update

end VmarInner

/-- A sound address space whose mappings the reverse maps name. -/
structure VmarState.Sound (vmar : VmarId) (extra : ℕ) (others : VmoId → VmarId → List RmapEntry)
    (s : VmarState) : Prop extends s.inner.Sound extra where
  names : Names vmar others s.inner.mappings s.rmaps

/-- What a call guarantees that keeps the address space sound, error or not. -/
abbrev VmarM.keeps {α : Type} (self : VmarId) (k : ℕ) (o : VmoId → VmarId → List RmapEntry)
    (m : VmarM α) (Q : α → VmarState → Prop) (s : VmarState) : Prop :=
  wp m (fun a s' => s'.Sound self k o ∧ Q a s') (fun _ s' => s'.Sound self k o) s

/-- What is guaranteed of the address space alone needs no reverse maps. -/
lemma VmarM.wp_inner {s : VmarState} {α : Type} {m : VmarM α} {Q : α → VmarInner → Prop}
    {E : VmarInner → Prop} (self : VmarId) (hs : s.inner.WellFormed)
    (h : ∀ {o R}, VmarState.Sound self 0 o ⟨s.inner, R⟩ →
      wp m (fun a s' => Q a s'.inner) (fun _ s' => E s'.inner) ⟨s.inner, R⟩) :
    Exec.wp m (fun a s' => Q a s'.inner) (fun _ s' => E s'.inner) s := by
  obtain ⟨o, rmaps, hn⟩ := Names.exists_names self s.inner.mappings
  refine (h (R := rmaps) ⟨VmarInner.wellFormed_iff.mp hs, hn⟩ s rfl).mono ?_ ?_
  · rintro a s' ⟨t, -, ht, hq⟩
    rwa [ht]
  · rintro e s' ⟨t, -, ht, he⟩
    rwa [ht]

namespace VmarInner

/-! ## Inserting and removing -/

section Spec

open VmarM

variable {self : VmarId} {k : ℕ} {o : VmoId → VmarId → List RmapEntry}
  {E : Error → VmarState → Prop} {s : VmarState} {m : VmMapping} {ms : List VmMapping}
  {rmap : Option VmoId}

lemma addTotalVm_spec (size : ℕ) :
    wp (addTotalVm size) (fun _ s' => s'.inner = ⟨s.inner.vmMappings, s.inner.totalVm + size⟩ ∧
      s'.rmaps = s.rmaps) E s := by
  refine (rwp_get_bind fun t ht => by rw [ht]).mpr ?_
  refine .ofOption_bind fun totalVm h => (setTotalVm_spec totalVm).imp ?_
  rintro _ s' rfl
  rw [(usizeAdd_eq_some.mp h).2]
  exact ⟨rfl, rfl⟩

lemma insertWithoutTryMerge_spec (hn : Names self o ms s.rmaps) :
    wp (insertWithoutTryMerge self m m.vmoForRmap)
      (fun _ s' => s'.inner = s.inner.inserted m ∧ Names self o (m :: ms) s'.rmaps) E s := by
  refine (addTotalVm_spec m.mapSize).then fun _ s₁ h1 => ?_
  have hn1 : Names self o ms s₁.rmaps := h1.2 ▸ hn
  refine (hn1.insertRmapEntry_spec.rwp (insertRmapEntry_inner _ _ _)).then fun _ s₂ h2 => ?_
  refine (modifyMappings_spec _).imp ?_
  rintro _ s₃ rfl
  exact ⟨by rw [h2.1, h1.1]; rfl, h2.2⟩

/-- A removal that returns `None` finds nothing and does nothing. -/
lemma remove_spec (h : s.inner.Sound k) (key : ℕ) :
    wp (remove key)
      (fun r s' => (r = none ∧ s' = s) ∨ ∃ m, r = some (m, m.vmoForRmap) ∧ m ∈ s.inner.mappings ∧
        m.mapToAddr = key ∧ s'.inner = s.inner.removed key m.mapSize ∧ s'.rmaps = s.rmaps) E s := by
  refine (wp_getMappings_bind _).mpr ?_
  split
  · exact .pure (.inl ⟨rfl, rfl⟩)
  · rename_i m rest heq
    have hm : (s.inner.vmMappings.remove key).1 = some m := by rw [heq]
    obtain ⟨hmem, hkey⟩ := h.intervals.remove_eq_some.mp hm
    refine (modifyMappings_spec _).then ?_
    rintro _ s₁ rfl
    refine (rwp_get_bind fun t ht => by rw [ht]).mpr ?_
    refine .require_bind fun _ => (setTotalVm_spec _).then ?_
    rintro _ s₂ rfl
    refine .pure (.inr ⟨m, rfl, hmem, hkey, ?_, rfl⟩)
    simp only [removed, heq]

/-- The entry of a mapping that has been taken out goes too. -/
lemma removeRmapEntry_spec {v : VmarInner} (h : v.Sound k) (hm : m ∈ v.mappings)
    (hs : s.inner.vmMappings = (v.vmMappings.remove m.mapToAddr).2)
    (hn : Names self o v.mappings s.rmaps) :
    wp (removeRmapEntry self m.mapToAddr m.vmoForRmap)
      (fun _ s' => s'.inner = s.inner ∧ Names self o s'.inner.mappings s'.rmaps) E s := by
  have hspec := (hn.perm (removed_perm h hm 0)).removeRmapEntry_spec
    fun x hx => ((mem_removed h).mp hx).2
  refine (hspec.rwp (removeRmapEntry_inner _ _ _)).imp fun _ s' h' => ⟨h'.1, ?_⟩
  rw [h'.1, mappings, hs]
  exact h'.2

lemma removeWithRmap_spec (h : s.Sound self k o) (key : ℕ) :
    wp (removeWithRmap self key)
      (fun r s' => ∃ m ∈ s.inner.mappings, r = (m, m.vmoForRmap) ∧ m.mapToAddr = key ∧
        s'.inner = s.inner.removed key m.mapSize ∧ s'.Sound self k o) E s := by
  refine (remove_spec h.toSound key).then fun r s₁ h1 => ?_
  refine .ofOption_bind ?_
  rintro ⟨m, rmap⟩ rfl
  rcases h1 with ⟨hr, -⟩ | ⟨m', hr, hm, rfl, hinner, hrmaps⟩
  · cases hr
  · obtain ⟨rfl, rfl⟩ := Prod.mk.injEq .. ▸ Option.some.inj hr
    refine (removeRmapEntry_spec h.toSound hm (by rw [hinner]; rfl) (hrmaps ▸ h.names)).then
      fun _ s₂ h2 => ?_
    have hinner2 := h2.1.trans hinner
    exact .pure ⟨m, hm, rfl, rfl, hinner2, hinner2 ▸ h.toSound.removed hm, h2.2⟩

/-! ## Merging -/

/-- A mapping on its way into the address space: counted in the total, and not yet in the set. -/
structure Pending (k : ℕ) (v : VmarInner) (m : VmMapping) : Prop where
  rest : VmarInner.Sound k ⟨v.vmMappings, v.totalVm - m.mapSize⟩
  counted : m.mapSize ≤ v.totalVm
  insertable : v.Insertable m

/-- Joining a pending mapping with one of the set keeps it pending. -/
lemma Pending.merge {v : VmarInner} {n merged : VmMapping} (h : Pending k v m)
    (hn : n ∈ v.mappings) (hsize : merged.mapSize = m.mapSize + n.mapSize)
    (hadj : m.mapEnd = n.mapToAddr ∧ merged.mapToAddr = m.mapToAddr ∨
      n.mapEnd = m.mapToAddr ∧ merged.mapToAddr = n.mapToAddr) :
    Pending k ⟨(v.vmMappings.remove n.mapToAddr).2, v.totalVm⟩ merged := by
  have hwf := h.rest.removed hn
  have hle := mapSize_le_totalVm h.rest hn
  have hnAligned := h.rest.aligned n hn
  have hnBounded := h.rest.bounded n hn
  have hmAligned := h.insertable.aligned
  have hmBounded := h.insertable.bounded
  have hends : merged.mapToAddr = m.mapToAddr ∧ merged.mapEnd = n.mapEnd ∨
      merged.mapToAddr = n.mapToAddr ∧ merged.mapEnd = m.mapEnd := by
    simp only [VmMapping.mapEnd] at hadj ⊢
    omega
  refine ⟨?_, ?_, ?_, ?_, ?_⟩
  · have : v.totalVm - m.mapSize - n.mapSize = v.totalVm - merged.mapSize := by omega
    simpa only [removed, this] using hwf
  · have := h.counted
    show merged.mapSize ≤ v.totalVm
    simp only at hle
    omega
  · unfold VmMapping.Aligned at hnAligned hmAligned ⊢
    rcases hends with ⟨h1, h2⟩ | ⟨h1, h2⟩ <;> rw [h1, h2]
    · exact ⟨hmAligned.1, hnAligned.2⟩
    · exact ⟨hnAligned.1, hmAligned.2⟩
  · rcases hends with ⟨-, h2⟩ | ⟨-, h2⟩ <;> rw [h2]
    · exact hnBounded
    · exact hmBounded
  · -- a mapping apart from both parts is apart from the whole, since it is nonempty
    intro x hx
    obtain ⟨hxv, -⟩ := h.rest.intervals.mem_iter_remove.mp hx
    have hxm := h.insertable.free x hxv
    have hxn := free_removed h.rest hn 0 x hx
    have hpos := x.mapToAddr_lt_mapEnd
    simp only [Range.Apart, range_start, range_stop] at hxm hxn ⊢
    omega

lemma mergeNeighbour_spec {neighbour : Option VmMapping} (h : Pending k s.inner m)
    (hnames : Names self o s.inner.mappings s.rmaps) (hr : m.vmoForRmap = rmap)
    (hn : ∀ n ∈ neighbour, n ∈ s.inner.mappings) :
    wp (mergeNeighbour self rmap m neighbour)
      (fun m' s' => Pending k s'.inner m' ∧ s'.inner.totalVm = s.inner.totalVm ∧
        m'.vmoForRmap = rmap ∧ Names self o s'.inner.mappings s'.rmaps ∧
        ∀ addr page, Shown (m' :: s'.inner.mappings) addr page ↔
          Shown (m :: s.inner.mappings) addr page) E s := by
  cases neighbour with
  | none => exact .pure ⟨h, rfl, hr, hnames, fun _ _ => .rfl⟩
  | some n =>
    refine .ofOption_bind ?_
    rintro ⟨merged, toRemove⟩ hmerge
    rcases tryMergeWith_eq_some hmerge with ⟨rfl, rfl⟩ | ⟨rfl, hsize, hrmap, hadj⟩
    · exact .pure ⟨h, rfl, hr, hnames, fun _ _ => .rfl⟩
    · refine (modifyMappings_spec _).then fun _ s₁ h1 => ?_
      have hinner1 : s₁.inner = ⟨(s.inner.vmMappings.remove n.mapToAddr).2, s.inner.totalVm⟩ := by
        rw [h1]
      rw [← hr, ← hrmap.2]
      have hnames1 : Names self o s.inner.mappings s₁.rmaps := h1 ▸ hnames
      refine (removeRmapEntry_spec h.rest (hn n rfl) (by rw [hinner1]) hnames1).then
        fun _ s₂ h2 => .pure ?_
      have hinner2 := h2.1.trans hinner1
      refine ⟨hinner2 ▸ h.merge (hn n rfl) hsize hadj, by rw [hinner2],
        hrmap.1.trans hrmap.2.symm, h2.2, fun addr page => ?_⟩
      rw [hinner2, shown_cons, shown_cons, tryMergeWith_shows hmerge, or_assoc]
      exact or_congr_right
        ((shown_of_perm (removed_perm h.rest (hn n rfl) 0)).trans shown_cons).symm

section

variable (h : s.Sound self k o) (hm : s.inner.Insertable m) (hr : m.vmoForRmap = rmap)

include h hm hr

/-- Inserting a mapping with merges keeps the address space sound, adds the size of the mapping
to the total, and adds its pages to those shown, whatever it was merged with. -/
lemma insertTryMerge_shown :
    wp (insertTryMerge self m rmap)
      (fun _ s' => s'.Sound self k o ∧ s'.inner.totalVm = s.inner.totalVm + m.mapSize ∧
        ∀ addr page, Shown s'.inner.mappings addr page ↔
          Shown (m :: s.inner.mappings) addr page) E s := by
  refine (addTotalVm_spec m.mapSize).then fun _ s₁ ⟨h1, hrmaps⟩ => ?_
  have hpending : Pending k s₁.inner m := by
    rw [h1]
    exact ⟨by simpa using h.toSound, by simp, hm.aligned, hm.bounded, hm.free⟩
  have hnames : Names self o s₁.inner.mappings s₁.rmaps := by
    rw [h1, hrmaps]
    exact h.names
  refine (wp_getMappings_bind _).mpr ?_
  refine (mergeNeighbour_spec hpending hnames hr fun n hn =>
    (hpending.rest.intervals.findPrev_eq_some hn).1).then fun m₂ s₂ h2 => ?_
  refine (wp_getMappings_bind _).mpr ?_
  refine (mergeNeighbour_spec h2.1 h2.2.2.2.1 h2.2.2.1 fun n hn =>
    (h2.1.rest.intervals.findNext_eq_some hn).1).then
      fun m₃ s₃ ⟨h3, htotal3, hr3, hnames3, hshown3⟩ => ?_
  rw [← hr3]
  refine (hnames3.insertRmapEntry_spec.rwp (insertRmapEntry_inner _ _ _)).then fun _ s₄ h4 => ?_
  refine (modifyMappings_spec _).imp ?_
  rintro _ s₅ rfl
  have hins : VmarInner.Insertable ⟨s₃.inner.vmMappings, s₃.inner.totalVm - m₃.mapSize⟩ m₃ :=
    ⟨h3.insertable.aligned, h3.insertable.bounded, h3.insertable.free⟩
  have hwf := h3.rest.inserted hins
  have htotal : s₃.inner.totalVm - m₃.mapSize + m₃.mapSize = s₃.inner.totalVm :=
    Nat.sub_add_cancel h3.counted
  simp only [inserted, htotal] at hwf
  rw [← h4.1] at hwf
  have hperm := inserted_perm h3.rest hins
  refine ⟨⟨hwf, h4.2.perm (by rw [h4.1]; exact hperm.symm)⟩, ?_, fun addr page => ?_⟩
  · rw [h4.1, htotal3, h2.2.1, h1]
  · have hshown2 := h2.2.2.2.2 addr page
    rw [h1] at hshown2
    rw [h4.1]
    exact (shown_of_perm hperm).trans ((hshown3 addr page).trans hshown2)

/-- Inserting a mapping with merges keeps the address space sound and adds the size of the mapping
to the total, whatever it was merged with. -/
lemma insertTryMerge_spec :
    wp (insertTryMerge self m rmap)
      (fun _ s' => s'.Sound self k o ∧ s'.inner.totalVm = s.inner.totalVm + m.mapSize) E s :=
  (insertTryMerge_shown h hm hr).imp fun _ _ h' => ⟨h'.1, h'.2.1⟩

end

/-! ## Cutting out a range -/

lemma insertRest_spec {x : Option VmMapping} (hr : ∀ y ∈ x, y.vmoForRmap = rmap)
    (hn : Names self o ms s.rmaps) : wp (insertRest self x rmap)
      (fun _ s' => s'.inner = s.inner.insertedOpt x ∧ Names self o (x.toList ++ ms) s'.rmaps)
          E s := by
  cases x with
  | none => exact .pure ⟨rfl, hn⟩
  | some y =>
    rw [← hr y rfl]
    exact insertWithoutTryMerge_spec hn

/-- Putting the parts of a mapping around `i` back, after it was taken out: `i` is cut out. -/
lemma cutOut_spec {i : Range ℕ} {left right : Option VmMapping} {taken : VmMapping} {v : VmarInner}
    {α : Type} {Q : α → VmarState → Prop} {f : VmarM α} (h : v.Sound k) (hm : m ∈ v.mappings)
    (hs : s.inner = v.removed m.mapToAddr m.mapSize) (hsound : s.Sound self k o)
    (hof : m.SplitOf i left taken right) (hin : m.mapToAddr ≤ i.start ∧ i.stop ≤ m.mapEnd)
    (hf : ∀ s', s'.Sound self k o → Carved k v m i s'.inner → s'.inner.mappings.Perm
        (right.toList ++ (left.toList ++ (v.removed m.mapToAddr m.mapSize).mappings)) →
      wp f Q E s') :
    wp (do
      insertRest self left m.vmoForRmap
      insertRest self right m.vmoForRmap
      f) Q E s := by
  refine (insertRest_spec hof.left_rmap hsound.names).then fun _ s₁ h1 => ?_
  refine (insertRest_spec hof.right_rmap h1.2).then fun _ s₂ h2 => ?_
  obtain ⟨hcarved, hperm⟩ := h.carved hm hof hin
  have hinner := h2.1
  rw [h1.1, hs] at hinner
  have hnames := h2.2
  rw [hs] at hnames
  rw [← hinner] at hcarved hperm
  exact hf s₂ ⟨hcarved.wf, hnames.perm hperm.symm⟩ hcarved hperm

lemma getIntersectedRange_eq_some {r r' i : Range ℕ} (h : getIntersectedRange r r' = some i) :
    i = ⟨max r.start r'.start, min r.stop r'.stop⟩ ∧ i.start < i.stop := by
  unfold getIntersectedRange at h
  split at h
  · rename_i hint
    cases h
    exact ⟨rfl, by simpa [isIntersected] using hint⟩
  · cases h

/-- The common part of a mapping with a range lies inside the mapping. -/
lemma splitOf_getIntersectedRange {r i : Range ℕ} {left right : Option VmMapping}
    {taken : VmMapping} (hi : getIntersectedRange r (range m) = some i)
    (hsplit : m.splitRange i = some (left, taken, right)) :
    m.SplitOf i left taken right ∧ m.mapToAddr ≤ i.start ∧ i.stop ≤ m.mapEnd := by
  obtain ⟨rfl, -⟩ := getIntersectedRange_eq_some hi
  have hin : m.mapToAddr ≤ max r.start m.mapToAddr ∧ min r.stop m.mapEnd ≤ m.mapEnd :=
    ⟨le_max_right _ _, min_le_right _ _⟩
  exact ⟨splitRange_eq_some hin.1 hin.2 hsplit, hin⟩

/-- What an address space becomes when everything in a range is unmapped. -/
structure Truncated (v : VmarInner) (r : Range ℕ) (v' : VmarInner) : Prop where
  free : v'.vmMappings.Free r
  total : v'.totalVm + v.coverage r = v.totalVm
  coverage : ∀ q : Range ℕ, q.Apart r → v'.coverage q = v.coverage q

/-- The same with what the pages show: those outside the range are left alone. -/
structure Cleared (v : VmarInner) (r : Range ℕ) (v' : VmarInner) :
    Prop extends v.Truncated r v' where
  shown : ∀ addr page, ¬ (r.start ≤ addr ∧ addr < r.stop) →
    (Shown v'.mappings addr page ↔ Shown v.mappings addr page)

/-- The loop of `alloc_free_region_exact_truncate`.  Every mapping that reaches into the range is
still on the list, so none does at the end. -/
lemma truncateLoop_spec {r : Range ℕ} (addrs : List ℕ) (h : s.Sound self k o)
    (hlist : ∀ m ∈ s.inner.mappings, ¬ (range m).Apart r → m.mapToAddr ∈ addrs) :
    wp (truncateLoop self r addrs)
      (fun _ s' => s'.Sound self k o ∧ s.inner.Cleared r s'.inner) E s := by
  induction addrs generalizing s with
  | nil =>
    have hfree : s.inner.vmMappings.Free r := by
      intro m hm
      by_contra hap
      exact absurd (hlist m hm hap) (by simp)
    refine .pure ⟨h, ⟨hfree, ?_, fun _ _ => rfl⟩, fun _ _ _ => .rfl⟩
    rw [coverage_eq_zero hfree, add_zero]
  | cons addr rest ih =>
    refine (removeWithRmap_spec h addr).then ?_
    rintro _ s₁ ⟨m, hm, rfl, rfl, hinner1, h1⟩
    simp only [rwp_ofOption_bind]
    rintro i hi ⟨left, taken, right⟩ hsplit
    obtain ⟨hof, hin⟩ := splitOf_getIntersectedRange hi hsplit
    refine cutOut_spec h.toSound hm hinner1 h1 hof hin fun s₃ h3 hcarved hperm => ?_
    obtain ⟨rfl, hlt⟩ := getIntersectedRange_eq_some hi
    refine (ih h3 ?_).imp fun _ s₄ h4 => ⟨h4.1, ?_⟩
    · -- what was put back does not reach into the range
      intro x hx hap
      rcases hcarved.mem x hx with ⟨hxv, hne⟩ | ⟨hxi, hlo, hhi⟩
      · exact (mem_cons.mp (hlist x hxv hap)).resolve_left hne
      · refine absurd ?_ hap
        have := x.mapToAddr_lt_mapEnd
        simp only [Range.Apart, range_start, range_stop] at hxi hlo hhi hlt ⊢
        omega
    · refine ⟨⟨h4.2.free, ?_, fun q hq => ?_⟩, fun a page ha => (h4.2.shown a page ha).trans ?_⟩
      · have hcov := hcarved.coverage r
        have htot := hcarved.total
        have hov : overlap r ⟨max r.start m.mapToAddr, min r.stop m.mapEnd⟩ =
            min r.stop m.mapEnd - max r.start m.mapToAddr := by
          simp only [overlap]
          omega
        have := h4.2.total
        simp only [range_start, range_stop] at hcov htot
        omega
      · have hcov := hcarved.coverage q
        have hzero : overlap q ⟨max r.start m.mapToAddr, min r.stop m.mapEnd⟩ = 0 :=
          overlap_eq_zero (hq.symm.mono (le_max_left _ _) (min_le_left _ _))
        rw [h4.2.coverage q hq]
        simp only [range_start, range_stop] at hcov
        omega
      · -- the part that is taken lies inside the range
        have htaken : ¬ taken.Shows a page := by
          rintro ⟨hin, -⟩
          rw [hof.taken_start, hof.taken_end] at hin
          exact ha ⟨le_of_max_le_left hin.1, lt_min_iff.mp hin.2 |>.1⟩
        rw [shown_of_perm hperm, shown_of_perm (removed_perm h.toSound hm m.mapSize)]
        simp only [shown_cons, shown_append, shown_toList, splitRange_shows hsplit, htaken,
          false_or]
        rw [or_left_comm, or_assoc]

lemma allocFreeRegionExactTruncate_spec (h : s.Sound self k o) (offset size : ℕ) :
    wp (allocFreeRegionExactTruncate self offset size)
      (fun r s' => r = ⟨offset, offset + size⟩ ∧ offset + size < usizeModulus ∧
        s'.Sound self k o ∧ s.inner.Cleared r s'.inner) E s := by
  simp only [allocFreeRegionExactTruncate, rwp_ofOption_bind, wp_getMappings_bind]
  intro stop hstop
  obtain ⟨hlt, rfl⟩ := usizeAdd_eq_some.mp hstop
  refine (truncateLoop_spec _ h fun m hm hap => ?_).then fun _ s' h' =>
    .pure ⟨rfl, hlt, h'⟩
  exact mem_map_of_mem (h.intervals.mem_find_of_not_apart hm hap)

/-! ## Finding room -/

/-- `alloc_free_region_exact` changes nothing and succeeds only on a free region. -/
lemma allocFreeRegionExact_spec (h : s.inner.Sound k) (offset size : ℕ) :
    checks (allocFreeRegionExact offset size)
      (fun r => r = ⟨offset, offset + size⟩ ∧ offset + size < usizeModulus ∧
        s.inner.vmMappings.Free r) s := by
  simp only [allocFreeRegionExact, rwp_ofOption_bind, wp_getMappings_bind,
    rwp_failIf_bind, rwp_pure]
  intro stop hstop
  obtain ⟨hlt, rfl⟩ := usizeAdd_eq_some.mp hstop
  refine ⟨fun _ => trivial, fun hnil => ⟨trivial, rfl, hlt, ?_⟩⟩
  exact h.intervals.free_of_find_eq_nil (not_not.mp hnil)

/-- A region that the search returns. -/
structure Region (size align highLimit : ℕ) (r : Range ℕ) : Prop where
  size : r.stop = r.start + size
  aligned : align ∣ r.start
  bounded : r.stop ≤ highLimit

/-- Where a region of a size may start: at a multiple of the alignment, so that it lies in the
window and meets none of the mappings. -/
def regionStarts (size align lowLimit highLimit : ℕ) (ms : List VmMapping) : Set ℕ :=
  {start | align ∣ start ∧ lowLimit ≤ start ∧ start + size ≤ highLimit ∧
    ∀ m ∈ ms, (range m).Apart ⟨start, start + size⟩}

/-- The search returns the region that starts highest, or nothing if there is none. -/
def Highest (size : ℕ) (starts : Set ℕ) : Option (Range ℕ) → Prop
  | some r => r.stop = r.start + size ∧ IsGreatest starts r.start
  | none => starts = ∅

lemma tryAllocInHole_highest (holeStart holeEnd size align : ℕ) :
    Highest size (regionStarts size align holeStart holeEnd [])
      (tryAllocInHole holeStart holeEnd size align) := by
  have hle : alignDown (holeEnd - size) align ≤ holeEnd - size := Nat.div_mul_le_self _ _
  have hmax : ∀ start ∈ regionStarts size align holeStart holeEnd [],
      start ≤ alignDown (holeEnd - size) align := by
    rintro start ⟨halign, -, hstop, -⟩
    rw [← Nat.div_mul_cancel halign]
    exact Nat.mul_le_mul_right _ (Nat.div_le_div_right (by omega))
  unfold tryAllocInHole
  split_ifs with hsize
  · refine eq_empty_of_forall_notMem fun start hstart => ?_
    have := hstart.2.2.1
    omega
  · simp only
    split_ifs with hstart
    · exact ⟨rfl, ⟨Nat.dvd_mul_left _ _, hstart, by simp only; omega, forall_mem_nil _⟩, hmax⟩
    · refine eq_empty_of_forall_notMem fun start h => hstart ?_
      exact h.2.1.trans (hmax start h)

/-- A region lies in the hole above the next mapping or below that mapping. -/
lemma regionStarts_cons {highLimit prevStart size align lowLimit : ℕ} {rest : List VmMapping}
    (hhead : ∀ x ∈ rest, x.mapEnd ≤ m.mapToAddr) (hprev : min m.mapToAddr highLimit ≤ prevStart) :
    regionStarts size align lowLimit (min prevStart highLimit) (m :: rest) =
      regionStarts size align (max m.mapEnd lowLimit) (min prevStart highLimit) [] ∪
        regionStarts size align lowLimit (min m.mapToAddr highLimit) rest := by
  have hpos := m.mapToAddr_lt_mapEnd
  ext start
  simp only [regionStarts, mem_union, mem_ofPred_eq, forall_mem_cons, Range.Apart,
    range_start, range_stop]
  constructor
  · rintro ⟨halign, hlow, hstop, hm | hm, hrest⟩
    · exact .inl ⟨halign, by omega, hstop, forall_mem_nil _⟩
    · exact .inr ⟨halign, hlow, by omega, hrest⟩
  · rintro (⟨halign, hlow, hstop, -⟩ | ⟨halign, hlow, hstop, hrest⟩)
    · refine ⟨halign, by omega, hstop, .inl (by omega), fun x hx => .inl ?_⟩
      have := hhead x hx
      omega
    · exact ⟨halign, hlow, by omega, .inr (by omega), hrest⟩

/-- The search goes down through the mappings, so what it finds in a hole lies above all that it
has not reached.  An empty region at the low limit is the only one that it can miss. -/
lemma searchHoles_highest {highLimit : ℕ} (size align lowLimit : ℕ) (ms : List VmMapping)
    (prevStart : ℕ) (hms : ms.Pairwise (fun a b => b.mapEnd ≤ a.mapToAddr))
    (hprev : ∀ m ∈ ms, min m.mapToAddr highLimit ≤ prevStart) :
    size = 0 ∧ searchHoles size align lowLimit highLimit prevStart ms = none ∨
      Highest size (regionStarts size align lowLimit (min prevStart highLimit) ms)
        (searchHoles size align lowLimit highLimit prevStart ms) := by
  have hlast (p : ℕ) (ms) (hp : p ≤ lowLimit) (hsize : 0 < size) :
      regionStarts size align lowLimit (min p highLimit) ms = ∅ := by
    refine eq_empty_of_forall_notMem fun start hstart => ?_
    have := hstart.2
    omega
  induction ms generalizing prevStart with
  | nil =>
    simp only [searchHoles, lastHole]
    split_ifs with hlow
    · exact .inr (tryAllocInHole_highest _ _ _ _)
    · exact size.eq_zero_or_pos.imp (⟨·, rfl⟩) (hlast _ _ (by omega))
  | cons m rest ih =>
    obtain ⟨hhead, hrest⟩ := pairwise_cons.mp hms
    have hpos := m.mapToAddr_lt_mapEnd
    have hhole := tryAllocInHole_highest (max m.mapEnd lowLimit) (min prevStart highLimit)
      size align
    rw [regionStarts_cons hhead (hprev m mem_cons_self), searchHoles]
    split
    · rename_i region hregion
      rw [hregion] at hhole
      refine .inr ⟨hhole.1, .inl hhole.2.1, fun start hstart => hstart.elim (hhole.2.2 ·) ?_⟩
      rintro ⟨-, -, hstop, -⟩
      have := hhole.2.1.2.1
      omega
    · rename_i hnone
      rw [hnone] at hhole
      rw [show regionStarts _ _ _ _ [] = ∅ from hhole, empty_union]
      split_ifs with hlow
      · rw [lastHole, if_neg (by omega)]
        exact size.eq_zero_or_pos.imp (⟨·, rfl⟩) (hlast _ _ hlow)
      · refine ih _ hrest fun x hx => ?_
        have := hhead x hx
        have := x.mapToAddr_lt_mapEnd
        omega

lemma searchHoles_iter {v : VmarInner} (h : v.vmMappings.WellFormed)
    (size align lowLimit highLimit : ℕ) :
    size = 0 ∧ searchHoles size align lowLimit highLimit highLimit v.vmMappings.iter.reverse =
      none ∨
      Highest size (regionStarts size align lowLimit highLimit v.mappings)
        (searchHoles size align lowLimit highLimit highLimit v.vmMappings.iter.reverse) := by
  have hsearch := searchHoles_highest size align lowLimit _ highLimit
    (pairwise_reverse.mpr h.iter_pairwise) fun _ _ => min_le_right _ _
  simpa only [regionStarts, min_self, mem_reverse, mappings] using hsearch

lemma allocFreeRegionInRange_spec (h : s.inner.Sound k) (size align lowLimit highLimit : ℕ) :
    checks (allocFreeRegionInRange size align lowLimit highLimit)
      (fun r => Region size align highLimit r ∧ s.inner.vmMappings.Free r) s := by
  refine (wp_getMappings_bind _).mpr ?_
  split
  · rename_i region hsearch
    obtain ⟨-, hnone⟩ | ⟨hsize, ⟨halign, -, hstop, hapart⟩, -⟩ :=
      hsearch ▸ searchHoles_iter h.intervals size align lowLimit highLimit
    · cases hnone
    · rw [← hsize] at hstop hapart
      exact .pure ⟨rfl, ⟨hsize, halign, hstop⟩, hapart⟩
  · exact .throw rfl

/-- The search for a free region returns the one that starts highest, and fails only if there is
none. -/
theorem allocFreeRegionInRange_highest {size : ℕ} (h : s.inner.vmMappings.WellFormed)
    (hsize : 0 < size) (align lowLimit highLimit : ℕ) :
    ((regionStarts size align lowLimit highLimit s.inner.mappings).Nonempty →
      ∃ start, IsGreatest (regionStarts size align lowLimit highLimit s.inner.mappings) start ∧
        allocFreeRegionInRange size align lowLimit highLimit s = .ok ⟨start, start + size⟩ s) ∧
    (¬ (regionStarts size align lowLimit highLimit s.inner.mappings).Nonempty →
      allocFreeRegionInRange size align lowLimit highLimit s =
        .err (.withMessage .enomem "no free region for mapping can be found") s) := by
  have hrun : allocFreeRegionInRange size align lowLimit highLimit s =
    (match searchHoles size align lowLimit highLimit highLimit s.inner.vmMappings.iter.reverse with
      | some region => pure region
      | none => throw _ : VmarM _) s := rfl
  obtain ⟨rfl, -⟩ | hsearch := searchHoles_iter h size align lowLimit highLimit
  · cases hsize
  · cases hr : searchHoles size align lowLimit highLimit highLimit s.inner.vmMappings.iter.reverse
      with
    | some r =>
      rw [hr] at hrun hsearch
      obtain ⟨hstop, hgreatest⟩ := hsearch
      refine ⟨fun _ => ⟨_, hgreatest, ?_⟩, fun hempty => (hempty hgreatest.nonempty).elim⟩
      rw [hrun, ← hstop]
      rfl
    | none =>
      rw [hr] at hrun hsearch
      exact ⟨fun hne => (hne.ne_empty hsearch).elim, fun _ => hrun⟩

/-- One page is mapped at `0x12000`, and one at `0x15000`. -/
def twoMapped : VmarState where
  inner :=
    (new.inserted ⟨pageSize, 0x12000, .anonymous, none, .priv, false, .read, pageSize_pos⟩).inserted
      ⟨pageSize, 0x15000, .anonymous, none, .priv, false, .read, pageSize_pos⟩
  rmaps _ := .new

/-- The window ends inside the upper mapping.  The gap between the mappings has no region with a
large alignment, but the one that the window cuts below them has; three pages fit nowhere. -/
theorem allocFreeRegionInRange_twoMapped :
    (IsGreatest (regionStarts 0x2000 0x2000 0x10000 0x15800 twoMapped.inner.mappings) 0x10000 ∧
      allocFreeRegionInRange 0x2000 0x2000 0x10000 0x15800 twoMapped =
        .ok ⟨0x10000, 0x12000⟩ twoMapped) ∧
    ¬ (regionStarts 0x3000 0x1000 0x10000 0x15800 twoMapped.inner.mappings).Nonempty ∧
    allocFreeRegionInRange 0x3000 0x1000 0x10000 0x15800 twoMapped =
      .err (.withMessage .enomem "no free region for mapping can be found") twoMapped := by
  have hwf : twoMapped.inner.vmMappings.WellFormed := ⟨by decide, by decide, by decide⟩
  constructor
  · have hrun : allocFreeRegionInRange 0x2000 0x2000 0x10000 0x15800 twoMapped =
      .ok ⟨0x10000, 0x12000⟩ twoMapped := rfl
    obtain ⟨start, hgreatest, hok⟩ := (allocFreeRegionInRange_highest hwf
      (show 0 < 0x2000 by decide) 0x2000 0x10000 0x15800).1
        ⟨0x10000, by decide, by decide, by decide, by decide⟩
    cases hrun.symm.trans hok
    exact ⟨hgreatest, hrun⟩
  · obtain ⟨hsome, hnone⟩ := allocFreeRegionInRange_highest hwf
      (show 0 < 0x3000 by decide) 0x1000 0x10000 0x15800
    have hempty : ¬ (regionStarts 0x3000 0x1000 0x10000 0x15800
        twoMapped.inner.mappings).Nonempty := by
      intro hne
      obtain ⟨start, -, hok⟩ := hsome hne
      have hrun : allocFreeRegionInRange 0x3000 0x1000 0x10000 0x15800 twoMapped = .err _ _ := rfl
      cases hrun.symm.trans hok
    exact ⟨hempty, hnone hempty⟩

/-- `alloc_free_region` changes nothing and returns a free region that ends below the address
space limit. -/
lemma allocFreeRegion_spec (h : s.inner.Sound k) (size align : ℕ) :
    checks (allocFreeRegion size align)
      (fun r => Region size align vmarCapAddr r ∧ s.inner.vmMappings.Free r) s := by
  refine (allocFreeRegionInRange_spec h size align _ _).imp fun r s' h' => ?_
  refine ⟨h'.1, ⟨h'.2.1.size, h'.2.1.aligned, h'.2.1.bounded.trans ?_⟩, h'.2.2⟩
  omega

lemma allocFreeRegionBelow2Gib_spec (h : s.inner.Sound k) (size align : ℕ) :
    checks (allocFreeRegionBelow2Gib size align)
      (fun r => Region size align vmarCapAddr r ∧ s.inner.vmMappings.Free r) s := by
  refine (allocFreeRegionInRange_spec h size align _ _).imp fun r s' h' => ?_
  exact ⟨h'.1, ⟨h'.2.1.size, h'.2.1.aligned, h'.2.1.bounded.trans (min_le_right _ _)⟩, h'.2.2⟩

/-! ## Checks -/

/-- Whether the total may grow by a number of bytes under a limit. -/
def FitsRlimit (ctx : Context) (v : VmarInner) (n : ℕ) : Prop :=
  ∀ limit ∈ ctx.rlimitAs, n ≤ limit - v.totalVm

lemma checkExtraSizeFitsRlimit_spec (ctx : Context) (n : ℕ) :
    checks (checkExtraSizeFitsRlimit ctx n) (fun _ => FitsRlimit ctx s.inner n) s := by
  unfold checkExtraSizeFitsRlimit
  split
  · rename_i hctx
    exact .pure ⟨rfl, by simp [FitsRlimit, hctx]⟩
  · rename_i limit hctx
    refine (rwp_get_bind fun t ht => by rw [ht]).mpr ?_
    refine rwp_failIf.mpr ⟨fun _ => rfl, fun hlt => ⟨rfl, ?_⟩⟩
    rintro l hl
    obtain rfl : limit = l := by rw [hctx] at hl; exact Option.some.inj hl
    omega

lemma checkLiesInSingleMapping_spec (h : s.inner.Sound k) (addr size : ℕ) :
    checks (checkLiesInSingleMapping addr size)
      (fun a => ∃ m ∈ s.inner.mappings, m.mapToAddr = a ∧ a ≤ addr ∧ addr + size ≤ m.mapEnd) s := by
  refine (wp_getMappings_bind _).mpr ?_
  split
  · rename_i m hfind
    obtain ⟨hone, hsize⟩ := Option.filter_eq_some_iff.mp hfind
    obtain ⟨hm, hstart, hstop⟩ := h.intervals.findOne_eq_some.mp hone
    simp only [decide_eq_true_eq, range_start, range_stop] at hsize hstart hstop
    exact .pure ⟨rfl, m, hm, rfl, hstart, by omega⟩
  · exact .throw rfl

/-! ## Resizing -/

/-- If the total grew, it is still within `RLIMIT_AS`. -/
def WithinRlimit (ctx : Context) (v v' : VmarInner) : Prop :=
  ∀ limit ∈ ctx.rlimitAs, v.totalVm < v'.totalVm → v'.totalVm ≤ limit

variable {ctx : Context}

lemma FitsRlimit.within {v v' : VmarInner} {n : ℕ} (h : FitsRlimit ctx v n)
    (hle : v'.totalVm ≤ v.totalVm + n) : WithinRlimit ctx v v' := by
  intro limit hlimit hlt
  have := h limit hlimit
  omega

lemma WithinRlimit.of_le {v v' : VmarInner} (hle : v'.totalVm ≤ v.totalVm) :
    WithinRlimit ctx v v' :=
  fun _ _ hlt => absurd hle (not_le.mpr hlt)

/-- A mapping with free room behind it may be put back larger. -/
lemma Sound.insertable_enlarge {n : ℕ} {v : VmarInner} (h : v.Sound k) (hm : m ∈ v.mappings)
    (hn : pageSize ∣ n) (hbounded : m.mapEnd + n < usizeModulus)
    (hfree : v.vmMappings.Free ⟨m.mapEnd, m.mapEnd + n⟩) :
    (v.removed m.mapToAddr m.mapSize).Insertable (m.enlarge n) where
  aligned := ⟨(h.aligned m hm).1, by
    rw [enlarge_mapEnd]
    exact dvd_add (h.aligned m hm).2 hn⟩
  bounded := by rwa [enlarge_mapEnd]
  free := by
    intro x hx
    have hxm := free_removed h hm m.mapSize x hx
    have hxr := hfree x ((mem_removed h).mp hx).1
    have hpos := x.mapToAddr_lt_mapEnd
    simp only [Range.Apart, range_start, range_stop, enlarge_mapToAddr, enlarge_mapEnd] at hxm hxr ⊢
    omega

/-- A mapping with free room behind it is made larger. -/
lemma enlargeMapping_spec (h : s.Sound self k o) (hm : m ∈ s.inner.mappings) {n : ℕ}
    (hn : pageSize ∣ n) (hbounded : m.mapEnd + n < usizeModulus)
    (hfree : s.inner.vmMappings.Free ⟨m.mapEnd, m.mapEnd + n⟩) :
    wp (enlargeMapping self m.mapToAddr n)
      (fun _ s' => s'.Sound self k o ∧ s'.inner.totalVm = s.inner.totalVm + n) E s := by
  refine (removeWithRmap_spec h m.mapToAddr).then ?_
  rintro _ s₁ ⟨m', hm', rfl, hstart, hinner, h1⟩
  obtain rfl : m' = m := h.toSound.eq_of_mapToAddr_eq hm' hm hstart
  have hins : s₁.inner.Insertable (m'.enlarge n) :=
    hinner ▸ h.toSound.insertable_enlarge hm hn hbounded hfree
  refine (insertTryMerge_spec h1 hins (enlarge_vmoForRmap _ _)).imp fun _ s₂ h2 => ⟨h2.1, ?_⟩
  have hle := mapSize_le_totalVm h.toSound hm
  have htotal : s₁.inner.totalVm = s.inner.totalVm - m'.mapSize := by rw [hinner]; rfl
  have := h2.2
  rw [enlarge_mapSize] at this
  omega

lemma isUserspaceVaddrRange_iff {vaddr len : ℕ} :
    isUserspaceVaddrRange vaddr len = true ↔
      vmarLowestAddr ≤ vaddr ∧ vaddr ≤ vmarCapAddr ∧ len ≤ vmarCapAddr - vaddr := by
  simp [isUserspaceVaddrRange]

lemma vmarCapAddr_lt : vmarCapAddr < usizeModulus := by decide

lemma shrinkMapping_spec (h : s.Sound self k o) (mapAddr oldSize newSize : ℕ) :
    keeps self k o (shrinkMapping self mapAddr oldSize newSize)
      (fun _ s' => s'.inner.totalVm ≤ s.inner.totalVm) s := by
  refine .failIf_bind ⟨fun _ => h, fun _ => ?_⟩
  refine (allocFreeRegionExactTruncate_spec h _ _).then fun r s' ⟨_, _, h', htr⟩ =>
    .pure ⟨h', ?_⟩
  have := htr.total
  omega

lemma expandMapping_spec {oldSize newSize mapAddr : ℕ} (h : s.Sound self k o)
    (hold : pageSize ∣ oldSize) (hnew : pageSize ∣ newSize) :
    keeps self k o (expandMapping ctx self mapAddr oldSize newSize)
      (fun _ s' => WithinRlimit ctx s.inner s'.inner) s := by
  refine (allocFreeRegionExact_spec h.toSound _ _).attempt_then ?_ fun e s₁ h1 => .throw (h1 ▸ h)
  rintro r s₁ ⟨rfl, rfl, hend, hfree⟩
  simp only [wp_getMappings_bind, rwp_require_bind, rwp_ofOption_bind, rwp_failIf_bind]
  intro hpos last hlast hlastEnd
  refine ⟨fun _ => h, fun _ => ?_⟩
  obtain ⟨hm, -, -⟩ := h.intervals.findOne_eq_some.mp hlast
  refine (checkExtraSizeFitsRlimit_spec ctx _).bind (fun _ => h) fun _ hfits => ?_
  refine (enlargeMapping_spec h hm (Nat.dvd_sub hnew hold) ?_ ?_).imp
    fun _ s₃ h3 => ⟨h3.1, hfits.within h3.2.le⟩
  · omega
  · rw [hlastEnd]
    exact hfree

lemma resizeMapping_spec (h : s.Sound self k o) (mapAddr oldSize newSize : ℕ) :
    keeps self k o (resizeMapping ctx self mapAddr oldSize newSize)
      (fun _ s' => WithinRlimit ctx s.inner s'.inner) s := by
  simp only [resizeMapping, rwp_require_bind, rwp_failIf_bind]
  rintro ⟨-, hold, hnew⟩
  refine ⟨fun _ => h, fun _ => ?_⟩
  split_ifs with heq hlt
  · exact .pure ⟨h, .of_le le_rfl⟩
  · refine .failIf_bind ⟨fun _ => h, fun _ => ?_⟩
    exact (shrinkMapping_spec h _ _ _).imp fun _ _ h' => ⟨h'.1, .of_le h'.2⟩
  · exact .failIf_bind ⟨fun _ => h, fun _ => expandMapping_spec h hold hnew⟩

end Spec

end VmarInner

end Asterinas.Vmar
