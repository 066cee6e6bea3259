import Asterinas.Vmar.OpsSpec

/-!
# Runs of operations on address spaces

The system of all VMARs: any operation may be made on any of them, with any arguments, limit and
state of the VMOs, and VMARs may be created and forked.  `wellFormed_of_reachable` says that every
address space is well-formed in every state that can be reached.
-/

namespace Asterinas.Vmar

open Framework VmarM VmarInner List

/-- An operation on a VMAR with its arguments. -/
inductive VmarOp
  | map (opts : VmarMapOptions)
  | removeMapping (range : Range ℕ)
  | protect (perms : VmPerms) (range : Range ℕ)
  | resizeMapping (mapAddr oldSize newSize : ℕ) (checkSingleMapping : Bool)
  | remap (oldAddr oldSize : ℕ) (newAddr : Option ℕ) (newSize : ℕ) (action : RemapOldMappingAction)

/-- Make an operation on the VMAR `self`; the result is the address that `map` and `remap`
return. -/
def VmarOp.run (ctx : Context) (self : VmarId) : VmarOp → VmarM (Option ℕ)
  | map opts => do return some (← opts.build ctx self)
  | removeMapping r => do
      Vmar.removeMapping self r
      return none
  | protect perms r => do
      Vmar.protect self perms r
      return none
  | resizeMapping mapAddr oldSize newSize checkSingleMapping => do
      Vmar.resizeMapping ctx self mapAddr oldSize newSize checkSingleMapping
      return none
  | remap oldAddr oldSize newAddr newSize action => do
      return some (← Vmar.remap ctx self oldAddr oldSize newAddr newSize action)

/-- Every operation that returns leaves a sound state. -/
lemma VmarOp.run_sound {self : VmarId} {k : ℕ} {o : VmoId → VmarId → List RmapEntry} {s : VmarState}
    (h : s.Sound self k o) (ctx : Context) (op : VmarOp) :
    wp (op.run ctx self) (fun _ s' => s'.Sound self k o) (fun _ s' => s'.Sound self k o) s := by
  cases op with
  | map opts => exact opts.build_spec h |>.then fun _ _ h' => .pure h'.1
  | removeMapping r => exact (removeMapping_spec h r).then fun _ _ h' => .pure h'.1
  | protect perms r => exact (protect_spec h perms r).then fun _ _ h' => .pure h'.1
  | resizeMapping mapAddr oldSize newSize check =>
    exact (vmar_resizeMapping_spec h mapAddr oldSize newSize check).then fun _ _ h' =>
      .pure h'.1
  | remap oldAddr oldSize newAddr newSize action =>
    exact (remap_spec h oldAddr oldSize newAddr newSize action).then fun _ _ h' =>
      .pure h'.1

/-- Every operation that returns leaves the address space well-formed. -/
lemma VmarOp.run_spec {s : VmarState} (h : s.inner.WellFormed) (ctx : Context) (self : VmarId)
    (op : VmarOp) : Exec.wp (op.run ctx self) (fun _ s' => s'.inner.WellFormed)
      (fun _ s' => s'.inner.WellFormed) s :=
  wp_inner self h fun hs => (run_sound hs ctx op).mono
    (fun _ _ h' => wellFormed_iff.mpr h'.toSound) (fun _ _ h' => wellFormed_iff.mpr h'.toSound)

/-- The clones of the mappings of a well-formed address space make a well-formed one. -/
lemma forkFrom_wellFormed {v : VmarInner} (h : v.WellFormed) (self : VmarId)
    (rmaps : VmoId → Rmap) :
    Exec.wp (forkFrom self v) (fun _ s' => s'.inner.WellFormed) (fun _ _ => True) ⟨.new, rmaps⟩ :=
  wp_inner (E := fun _ => True) self wellFormed_new fun hs =>
    (forkFrom_spec (wellFormed_iff.mp h) rfl hs.names).imp fun _ _ h' =>
      wellFormed_iff.mpr h'.toSound

/-- All VMARs, each named by its place in the list, and the reverse maps of the VMOs. -/
structure System where
  vmars : List VmarInner
  rmaps : VmoId → Rmap

/-- The system before the first VMAR. -/
def System.init : System := ⟨[], fun _ => .new⟩

/-- One operation that returns.  After a panic there is no next state. -/
inductive Step : System → System → Prop
  | create (s : System) : Step s ⟨s.vmars ++ [.new], s.rmaps⟩
  | succeed {s : System} (i : ℕ) (ctx : Context) (op : VmarOp) {v : VmarInner} {r : Option ℕ}
      {s' : VmarState} (hv : s.vmars[i]? = some v)
      (hrun : op.run ctx i ⟨v, s.rmaps⟩ = .ok r s') : Step s ⟨s.vmars.set i s'.inner, s'.rmaps⟩
  | fail {s : System} (i : ℕ) (ctx : Context) (op : VmarOp) {v : VmarInner} {e : Error}
      {s' : VmarState} (hv : s.vmars[i]? = some v)
      (hrun : op.run ctx i ⟨v, s.rmaps⟩ = .err e s') : Step s ⟨s.vmars.set i s'.inner, s'.rmaps⟩
  | fork {s : System} (i : ℕ) {v : VmarInner} {s' : VmarState} (hv : s.vmars[i]? = some v)
      (hrun : forkFrom s.vmars.length v ⟨.new, s.rmaps⟩ = .ok () s') :
      Step s ⟨s.vmars ++ [s'.inner], s'.rmaps⟩

/-- Every VMAR is well-formed. -/
def System.WellFormed (s : System) : Prop := ∀ v ∈ s.vmars, v.WellFormed

lemma System.WellFormed.set {i : ℕ} {v : VmarInner} {s : System} (h : s.WellFormed)
    (hv : v.WellFormed) (rmaps : VmoId → Rmap) : System.WellFormed ⟨s.vmars.set i v, rmaps⟩ := by
  intro w hw
  rcases mem_or_eq_of_mem_set hw with hw | rfl
  · exact h w hw
  · exact hv

lemma System.WellFormed.append {v : VmarInner} {s : System} (h : s.WellFormed) (hv : v.WellFormed)
    (rmaps : VmoId → Rmap) : System.WellFormed ⟨s.vmars ++ [v], rmaps⟩ := by
  intro w hw
  rcases mem_append.mp hw with hw | hw
  · exact h w hw
  · rwa [mem_singleton.mp hw]

/-- One operation keeps every VMAR well-formed. -/
lemma Step.wellFormed {s s' : System} (h : s.WellFormed) (step : Step s s') : s'.WellFormed := by
  cases step with
  | create => exact h.append wellFormed_new _
  | succeed i ctx op hv hrun =>
    exact h.set ((VmarOp.run_spec (h _ (mem_of_getElem? hv)) _ _ _).of_ok hrun) _
  | fail i ctx op hv hrun =>
    exact h.set ((VmarOp.run_spec (h _ (mem_of_getElem? hv)) _ _ _).of_err hrun) _
  | fork i hv hrun =>
    exact h.append ((forkFrom_wellFormed (h _ (mem_of_getElem? hv)) _ _).of_ok hrun) _

/-- After every finite sequence of operations, successful or failed, the mappings of each VMAR are
pairwise disjoint, nonempty, page-aligned and stored under their start addresses, and `total_vm`
is the sum of their sizes. -/
theorem wellFormed_of_reachable {s : System} (h : Relation.ReflTransGen Step .init s) :
    s.WellFormed := by
  induction h with
  | refl =>
    intro v hv
    cases hv
  | tail _ step ih => exact step.wellFormed ih

/-- A context without a limit and without denied VMOs. -/
def Context.unlimited : Context := ⟨none, fun _ => false⟩

/-- Two anonymous pages at a fixed address. -/
def twoPagesAt (addr : ℕ) : VmarMapOptions :=
  { VmarMapOptions.new (2 * pageSize) .read with offset := .fixedNoReplace addr }

/-- Two pages are mapped, the first of them is protected, which splits the mapping, and the VMAR
is forked. -/
theorem wellFormed_split_and_forked :
    ∃ s, Relation.ReflTransGen Step .init s ∧
      s.vmars.map (fun v => (v.mappings.length, v.totalVm)) = [(2, 8192), (2, 8192)] ∧
      s.WellFormed := by
  have created := Relation.ReflTransGen.single (Step.create .init)
  have mapped := created.tail (Step.succeed 0 .unlimited (.map (twoPagesAt 0x10000)) rfl rfl)
  have split := mapped.tail (Step.succeed 0 .unlimited (.protect .exec ⟨0x10000, 0x11000⟩) rfl rfl)
  have forked := split.tail (Step.fork 0 rfl rfl)
  exact ⟨_, forked, rfl, wellFormed_of_reachable forked⟩

end Asterinas.Vmar
