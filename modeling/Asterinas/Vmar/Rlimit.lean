import Asterinas.Vmar.System

/-!
# Growth and the address-space limit

Operations that add to `total_vm` are to stay within `RLIMIT_AS`.  All of them ask
`check_extra_size_fits_rlimit` about the bytes they add, except a `remap` that keeps the old
mapping (`MREMAP_DONTUNMAP`): it asks only about the difference of the new and the old size, as if
the old mapping went away, and then adds the whole new size.
-/

namespace Asterinas.Vmar

open Framework VmarM VmarInner

/-- Whether the limit has room for what an operation adds.  Only a `remap` that keeps the old
mapping needs this: beyond the bytes it unmaps, all of the new size has to fit. -/
def VmarOp.HasRoom (v : VmarInner) (limit : ℕ) : VmarOp → Prop
  | remap oldAddr oldSize newAddr newSize .keep =>
    newSize ≤ remapReplaced v oldAddr oldSize newAddr newSize ∨
      v.totalVm + newSize ≤ limit + remapReplaced v oldAddr oldSize newAddr newSize
  | _ => True

/-- The operations other than a `remap` that keeps the old mapping stay within the limit. -/
lemma VmarOp.run_within {s : VmarState} (h : s.inner.WellFormed) (ctx : Context) (self : VmarId)
    (op : VmarOp) (hop : ∀ oldAddr oldSize newAddr newSize,
      op ≠ .remap oldAddr oldSize newAddr newSize .keep) :
    Exec.wp (op.run ctx self) (fun _ s' => WithinRlimit ctx s.inner s'.inner)
      (fun _ s' => s'.inner.WellFormed) s := by
  refine wp_inner (Q := fun _ v' => WithinRlimit ctx s.inner v') self h fun {o rmaps} hs => ?_
  suffices hwithin : wp (op.run ctx self) (fun _ s' => WithinRlimit ctx s.inner s'.inner)
      (fun _ s' => s'.Sound self 0 o) ⟨s.inner, rmaps⟩ from
    hwithin.mono (fun _ _ h' => h') fun _ _ h' => wellFormed_iff.mpr h'.toSound
  cases op with
  | map opts => exact (opts.build_spec hs).then fun _ _ h' => .pure h'.2
  | removeMapping r =>
    exact (removeMapping_spec hs r).then fun _ _ h' => .pure (.of_le h'.2)
  | protect perms r =>
    exact (protect_spec hs perms r).then fun _ _ h' => .pure (.of_le h'.2.le)
  | resizeMapping mapAddr oldSize newSize check =>
    exact (vmar_resizeMapping_spec hs mapAddr oldSize newSize check).then fun _ _ h' =>
      .pure h'.2
  | remap oldAddr oldSize newAddr newSize action =>
    cases action with
    | unmap =>
      exact (remap_spec hs oldAddr oldSize newAddr newSize .unmap).then fun _ _ h' =>
        .pure h'.2
    | keep => exact absurd rfl (hop oldAddr oldSize newAddr newSize)

/-- A `remap` that keeps the old mapping adds the whole new size. -/
lemma VmarOp.run_keep {s : VmarState} (h : s.inner.WellFormed) (ctx : Context) (self : VmarId)
    (oldAddr oldSize : ℕ) (newAddr : Option ℕ) (newSize : ℕ) :
    Exec.wp ((VmarOp.remap oldAddr oldSize newAddr newSize .keep).run ctx self)
      (fun _ s' => s'.inner.totalVm + remapReplaced s.inner oldAddr oldSize newAddr newSize =
        s.inner.totalVm + newSize)
      (fun _ s' => s'.inner.WellFormed) s :=
  wp_inner (Q := fun _ v' => v'.totalVm + remapReplaced s.inner oldAddr oldSize newAddr newSize =
    s.inner.totalVm + newSize) self h fun hs =>
      ((remap_spec hs oldAddr oldSize newAddr newSize .keep).mono (fun _ _ h' => h'.2)
        fun _ _ h' => wellFormed_iff.mpr h'.toSound).then fun _ _ h' => .pure h'

/-- A successful operation that makes the total grow keeps it within `RLIMIT_AS` exactly when the
limit has room for it, which is a question only for a `remap` that keeps the old mapping. -/
theorem growth_within_rlimit_iff (ctx : Context) (self : VmarId) (op : VmarOp) {s s' : VmarState}
    {r : Option ℕ} {limit : ℕ} (h : s.inner.WellFormed) (hlimit : ctx.rlimitAs = some limit)
    (hrun : op.run ctx self s = .ok r s') :
    (s.inner.totalVm < s'.inner.totalVm → s'.inner.totalVm ≤ limit) ↔ op.HasRoom s.inner limit := by
  by_cases hop : ∃ oldAddr oldSize newAddr newSize,
      op = .remap oldAddr oldSize newAddr newSize .keep
  · obtain ⟨oldAddr, oldSize, newAddr, newSize, rfl⟩ := hop
    have htotal := (VmarOp.run_keep h ctx self oldAddr oldSize newAddr newSize).of_ok hrun
    simp only [VmarOp.HasRoom]
    omega
  · push Not at hop
    have hwithin := (VmarOp.run_within h ctx self op hop).of_ok hrun limit hlimit
    refine ⟨fun _ => ?_, fun _ => hwithin⟩
    unfold VmarOp.HasRoom
    split
    · exact absurd rfl (hop _ _ _ _)
    · trivial

/-- A process whose `RLIMIT_AS` is `limit`. -/
def Context.limited (limit : ℕ) : Context := ⟨some limit, fun _ => false⟩

/-- One anonymous page at a fixed address. -/
def pageAt (addr : ℕ) : VmarOp :=
  .map { VmarMapOptions.new pageSize .read with offset := .fixedNoReplace addr }

/-- A copy of the page at `addr`, which stays mapped, to a place that the kernel chooses. -/
def keepPage (addr : ℕ) : VmarOp := .remap addr pageSize none pageSize .keep

/-- With a limit of two pages, one page may be copied. -/
theorem growth_of_kept_page_with_room :
    ∃ r₁ s₁ r₂ s₂, (pageAt 0x10000).run (.limited 8192) 0 ⟨.new, fun _ => .new⟩ = .ok r₁ s₁ ∧
      (keepPage 0x10000).run (.limited 8192) 0 s₁ = .ok r₂ s₂ ∧
      s₁.inner.totalVm < s₂.inner.totalVm ∧ s₂.inner.totalVm ≤ 8192 := by
  have hwf := VmarOp.run_spec (s := ⟨.new, fun _ => .new⟩) wellFormed_new (.limited 8192) 0
    (pageAt 0x10000)
  refine ⟨_, _, _, _, rfl, rfl, by decide, ?_⟩
  exact (growth_within_rlimit_iff (.limited 8192) 0 (keepPage 0x10000) (hwf.of_ok rfl) rfl rfl).mpr
    (Or.inr (by decide)) (by decide)

/-- With a limit of one page, which is mapped, a copy of the page leaves the limit. -/
theorem growth_of_kept_page_unchecked :
    ∃ r₁ s₁ r₂ s₂, (pageAt 0x10000).run (.limited 4096) 0 ⟨.new, fun _ => .new⟩ = .ok r₁ s₁ ∧
      (keepPage 0x10000).run (.limited 4096) 0 s₁ = .ok r₂ s₂ ∧
      s₁.inner.totalVm < s₂.inner.totalVm ∧ ¬ s₂.inner.totalVm ≤ 4096 :=
  ⟨_, _, _, _, rfl, rfl, by decide, by decide⟩

end Asterinas.Vmar
