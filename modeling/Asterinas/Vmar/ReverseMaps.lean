import Asterinas.Vmar.System

/-!
# Reverse maps and mappings

The operations of a VMAR make and drop entries of the reverse maps with every mapping that they
split, merge, shrink or move.  In every state that can be reached, also when VMARs are cleared, the
entries are exactly those of the shared mappings.  So `Rmap::remove`, which panics when there is
nothing to remove, always finds its entry: an operation that panics would do so with any other
reverse maps.
-/

namespace Asterinas.Vmar

open Framework VmarM VmarInner List
open Exec hiding wp

/-! ## Clearing -/

lemma clearLoop_spec {self : VmarId} {o : VmoId → VmarId → List RmapEntry} {s : VmarState}
    (ms : List VmMapping) (hn : Names self o ms s.rmaps)
    (hne : ms.Pairwise fun a b => b.mapToAddr ≠ a.mapToAddr) :
    yields (clearLoop self ms) (fun _ s' => s'.inner = s.inner ∧ Names self o [] s'.rmaps) s := by
  induction ms generalizing s with
  | nil => exact ⟨rfl, hn⟩
  | cons m rest ih =>
    obtain ⟨hhead, hrest⟩ := pairwise_cons.mp hne
    refine (hn.removeRmapEntry_spec hhead).then fun _ s₁ h1 => ?_
    exact (ih h1.2 hrest).imp fun _ s₂ h2 => ⟨h2.1.trans h1.1, h2.2⟩

/-- `clear` returns; the whole total is ahead of the mappings then. -/
lemma clear_spec {self : VmarId} {o : VmoId → VmarId → List RmapEntry} {s : VmarState} {k : ℕ}
    (h : s.Sound self k o) :
    yields (clear self) (fun _ s' => s'.Sound self s.inner.totalVm o) s := by
  have hne : s.inner.mappings.Pairwise fun a b => b.mapToAddr ≠ a.mapToAddr :=
    h.intervals.iter_pairwise.imp fun {a b} hle heq => by
      have := a.mapToAddr_lt_mapEnd
      simp only [VmMapping.range_start, VmMapping.range_stop] at hle
      omega
  refine (clearLoop_spec _ h.names hne).then fun _ s₁ h1 => ?_
  refine ⟨⟨IntervalSet.wellFormed_new, by simp [mappings], by simp [mappings], ?_⟩, h1.2⟩
  show s₁.inner.totalVm = 0 + s.inner.totalVm
  rw [h1.1, zero_add]

/-! ## The system with `clear` -/

/-- One operation that returns, `clear` among them. -/
inductive ClearingStep : System → System → Prop
  | op {s s' : System} (step : Step s s') : ClearingStep s s'
  | clear {s : System} (i : ℕ) {v : VmarInner} {s' : VmarState} (hv : s.vmars[i]? = some v)
      (hrun : clear i ⟨v, s.rmaps⟩ = .ok () s') : ClearingStep s ⟨s.vmars.set i s'.inner, s'.rmaps⟩

namespace System

/-- The mappings of a VMAR. -/
def mappings (s : System) (i : VmarId) : List VmMapping :=
  (s.vmars[i]?.map VmarInner.mappings).getD []

/-- The reverse map of each VMO holds one entry for each shared mapping of the VMO, with the VMAR,
the start address, the offset in the VMO and the size of the mapping, and no other entry. -/
def RmapsAgree (s : System) : Prop :=
  ∀ vmo i, ((s.rmaps vmo).entries i).Perm ((s.mappings i).filterMap (·.rmapEntry vmo))

/-- Every VMAR is sound but for what `clear` left in its total, and the reverse maps agree. -/
structure Sound (s : System) : Prop where
  inner : ∀ {i : ℕ} {v : VmarInner}, s.vmars[i]? = some v → ∃ k, v.Sound k
  agree : s.RmapsAgree

variable {s : System} {i : ℕ} {v : VmarInner}

/-- The entries of all VMARs. -/
def entries (s : System) (vmo : VmoId) (i : VmarId) : List RmapEntry := (s.rmaps vmo).entries i

section

variable (h : s.Sound)

include h

lemma Sound.names (i : VmarId) : Names i s.entries (s.mappings i) s.rmaps :=
  ⟨fun vmo => h.agree vmo i, fun _ _ _ => rfl⟩

lemma Sound.vmar (hv : s.vmars[i]? = some v) : ∃ k, VmarState.Sound i k s.entries ⟨v, s.rmaps⟩ := by
  obtain ⟨k, hk⟩ := h.inner hv
  have hnames := h.names i
  rw [mappings, hv] at hnames
  exact ⟨k, hk, hnames⟩

/-- One VMAR changes, or is new. -/
lemma Sound.change {k : ℕ} {s' : VmarState} (hs' : s'.Sound i k s.entries)
    {vmars : List VmarInner} (hi : vmars[i]? = some s'.inner)
    (hne : ∀ j, j ≠ i → vmars[j]? = s.vmars[j]?) : System.Sound ⟨vmars, s'.rmaps⟩ where
  inner := by
    intro j w hw
    by_cases hj : j = i
    · subst hj
      obtain rfl := Option.some.inj (hi.symm.trans hw)
      exact ⟨k, hs'.toSound⟩
    · exact h.inner ((hne j hj).symm.trans hw)
  agree := by
    intro vmo j
    by_cases hj : j = i
    · subst hj
      simpa [mappings, hi] using hs'.names.own vmo
    · have := h.agree vmo j
      rw [mappings] at this ⊢
      rwa [hne j hj, hs'.names.rest vmo j hj]

lemma Sound.set {k : ℕ} (hv : s.vmars[i]? = some v) {s' : VmarState}
    (hs' : s'.Sound i k s.entries) : System.Sound ⟨s.vmars.set i s'.inner, s'.rmaps⟩ :=
  h.change hs' (getElem?_set_self (List.getElem?_eq_some_iff.mp hv).1)
    fun _ hj => getElem?_set_ne hj.symm

lemma Sound.append {k : ℕ} {v : VmarState} (hv : v.Sound s.vmars.length k s.entries) :
    System.Sound ⟨s.vmars ++ [v.inner], v.rmaps⟩ := by
  refine h.change hv (by simp) fun j hj => ?_
  rcases lt_or_gt_of_ne hj with hlt | hgt
  · exact getElem?_append_left hlt
  · rw [getElem?_eq_none (by simp; omega), getElem?_eq_none (by omega)]

/-- A VMAR that is to be created has no entry. -/
lemma Sound.names_new : Names s.vmars.length s.entries [] s.rmaps := by
  have := h.names s.vmars.length
  rwa [mappings, getElem?_eq_none le_rfl] at this

end

end System

/-- One operation keeps the reverse maps in agreement. -/
lemma ClearingStep.sound {s s' : System} (h : s.Sound) (step : ClearingStep s s') : s'.Sound := by
  cases step with
  | clear i hv hrun =>
    obtain ⟨k, hs⟩ := h.vmar hv
    exact h.set hv ((clear_spec hs).of_ok hrun)
  | op step =>
    cases step with
    | create => exact h.append (v := ⟨.new, s.rmaps⟩) ⟨sound_new, h.names_new⟩
    | succeed i ctx op hv hrun =>
      obtain ⟨k, hs⟩ := h.vmar hv
      exact h.set hv ((VmarOp.run_sound hs ctx op).wp.of_ok hrun)
    | fail i ctx op hv hrun =>
      obtain ⟨k, hs⟩ := h.vmar hv
      exact h.set hv ((VmarOp.run_sound hs ctx op).wp.of_err hrun)
    | fork i hv hrun =>
      obtain ⟨k, hk⟩ := h.inner hv
      exact h.append ((forkFrom_spec (E := fun _ _ => True) hk rfl h.names_new).wp.of_ok hrun)

lemma sound_of_reachable {s : System} (h : Relation.ReflTransGen ClearingStep .init s) :
    s.Sound := by
  induction h with
  | refl => exact ⟨by simp [System.init], fun vmo i => .refl _⟩
  | tail _ step ih => exact step.sound ih

/-- After every sequence of operations, the reverse maps hold exactly the entries of the shared
mappings.  So the entry of a mapping is found when it is to be removed; no operation panics that
would not panic with every other reverse maps, and `clear` does not panic at all. -/
theorem rmaps_agree_with_mappings {s : System} (h : Relation.ReflTransGen ClearingStep .init s) :
    s.RmapsAgree ∧
      (∀ i, ∀ m ∈ s.mappings i, ∀ vmo, m.vmoForRmap = some vmo →
        ((s.rmaps vmo).remove i m.mapToAddr).isSome) ∧
      ∀ i v, s.vmars[i]? = some v → clear i ⟨v, s.rmaps⟩ ≠ .panic ∧
        ∀ (ctx : Context) (op : VmarOp), op.run ctx i ⟨v, s.rmaps⟩ = .panic →
          ∀ rmaps, op.run ctx i ⟨v, rmaps⟩ = .panic := by
  have hsound := sound_of_reachable h
  refine ⟨hsound.agree, fun i m hm vmo hvmo => ?_, fun i v hv => ?_⟩
  · obtain ⟨mapped, -, hsome, hentry⟩ := m.rmapEntry_cases.resolve_left (by simp [hvmo])
    obtain rfl := Option.some.inj (hsome.symm.trans hvmo)
    have hmem : _ ∈ (s.rmaps mapped.vmo).entries i :=
      (hsound.agree mapped.vmo i).mem_iff.mpr
        (mem_filterMap.mpr ⟨m, hm, (hentry mapped.vmo).trans (if_pos rfl)⟩)
    simpa [Rmap.remove, findIdx?_isSome] using ⟨_, hmem, rfl⟩
  · obtain ⟨k, hs⟩ := hsound.vmar hv
    refine ⟨fun hpanic => ?_, fun ctx op hpanic rmaps => ?_⟩
    · obtain ⟨_, _, hok, -⟩ | ⟨_, _, hrun, -⟩ := (clear_spec hs).returns
      · simp [hok] at hpanic
      · simp [hrun] at hpanic
    · exact (VmarOp.run_sound hs ctx op).panics hpanic rfl

/-- Two pages of the VMO 0, shared, at a fixed address. -/
def sharedPagesAt (addr : ℕ) : VmarMapOptions :=
  { twoPagesAt addr with mappable := some (.vmo 0), mapMode := .shared }

/-- Two shared pages are mapped, the VMAR is forked, and the first page of the fork is protected,
which splits its mapping. -/
theorem rmaps_agree_forked_and_split :
    ∃ s, Relation.ReflTransGen ClearingStep .init s ∧
      (s.rmaps 0).entries 0 = [⟨0x10000, 0, 8192⟩] ∧
      (s.rmaps 0).entries 1 = [⟨0x11000, 4096, 4096⟩, ⟨0x10000, 0, 4096⟩] ∧ s.RmapsAgree := by
  have created := Relation.ReflTransGen.single (ClearingStep.op (Step.create .init))
  have mapped := created.tail
    (.op (Step.succeed 0 .unlimited (.map (sharedPagesAt 0x10000)) rfl rfl))
  have forked := mapped.tail (.op (Step.fork 0 rfl rfl))
  have split := forked.tail
    (.op (Step.succeed 1 .unlimited (.protect .exec ⟨0x10000, 0x11000⟩) rfl rfl))
  exact ⟨_, split, rfl, rfl, (rmaps_agree_with_mappings split).1⟩

end Asterinas.Vmar
