import Asterinas.Vfs.RenameSteps

/-!
# The cache and the maps of names

The cache agrees with one map of names for each directory.  Every change is a patch of a few places,
each a directory and a name, in the cache and in the maps alike.

A directory has one name, so that it has one dentry: no map changes behind the back of the dentry
whose cache shows it.
-/

namespace Asterinas.Vfs

open Framework Option List

/-- The maps of names: what each directory has under each name. -/
abbrev Maps := Inode → List Byte → Option Inode

/-- The maps with another inode, or none, under one name of a directory. -/
def Maps.set (maps : Maps) (dir : Inode) (name : List Byte) (value : Option Inode) : Maps :=
  fun dir' name' => if dir' = dir ∧ name' = name then value else maps dir' name'

namespace Tree

/-- The entry of the cache at a place. -/
def entry (t : Tree) (d : ℕ) (name : Name) : Option CachedDentry := (t.children d).find name

/-- The cache agrees with the maps, and every directory has one name and one dentry. -/
structure Agrees (t : Tree) (maps : Maps) (made : Set Inode) : Prop where
  policy : ∀ d, t.revalidationPolicy d = ⟨false, false⟩
  entry_isDir : ∀ d n entry, t.entry d n = some entry → t.isDir d
  positive : ∀ d n c, t.entry d n = some (.positive c) → maps (t.inode d) n.1 = some (t.inode c)
  negative : ∀ d n, t.entry d n = some .negative → maps (t.inode d) n.1 = none
  unique : ∀ d d', t.isDir d → t.isDir d' → t.inode d = t.inode d' → d = d'
  once : ∀ dir dir' n n' inode, inode.type = .dir → maps dir n = some inode →
    maps dir' n' = some inode → dir = dir' ∧ n = n'
  known : ∀ d dir n, t.isDir d → maps dir n = some (t.inode d) →
    ∃ p name, t.inode p = dir ∧ name.1 = n ∧ t.entry p name = some (.positive d)
  dentry_made : ∀ d, t.isDir d → t.inode d ∈ made
  entry_made : ∀ dir n inode, inode.type = .dir → maps dir n = some inode → inode ∈ made

/-- What is put at a place: nothing is said, no dentry, or a dentry. -/
abbrev Patch := ℕ → Name → Option (Option ℕ)

/-- A place of the maps that is patched. -/
def Patch.At (patch : Patch) (t : Tree) (dir : Inode) (bytes : List Byte) : Prop :=
  ∃ d n, patch d n ≠ none ∧ t.inode d = dir ∧ n.1 = bytes

/-- The cache and the maps change at the same places.  A directory that is put somewhere has no
other name than the ones that are patched, and there is at most one new dentry, which is put
somewhere. -/
structure Patches (t : Tree) (maps : Maps) (made : Set Inode) (patch : Patch) (t' : Tree)
    (maps' : Maps) (made' : Set Inode) : Prop where
  policy : ∀ d, t'.revalidationPolicy d = ⟨false, false⟩
  inode : ∀ d < t.dentries.length, t'.inode d = t.inode d
  fresh : ∀ d, t.dentries.length ≤ d → t'.isDir d → d = t.dentries.length ∧
    (∀ c, t.isDir c → t.inode c ≠ t'.inode d) ∧ ∃ p n, patch p n = some (some d)
  isDir : ∀ d n, patch d n ≠ none → t.isDir d
  entry_same : ∀ d n, patch d n = none → t'.entry d n = t.entry d n
  entry_none : ∀ d n, patch d n = some none → t'.entry d n = none ∨ t'.entry d n = some .negative
  entry_some : ∀ d n c, patch d n = some (some c) → t'.entry d n = some (.positive c)
  maps_patch : ∀ d n x, patch d n = some x → maps' (t.inode d) n.1 = x.map t'.inode
  maps_same : ∀ dir bytes, ¬ patch.At t dir bytes → maps' dir bytes = maps dir bytes
  moved : ∀ d n c, patch d n = some (some c) → t'.isDir c → ∀ dir bytes,
    maps dir bytes = some (t'.inode c) → patch.At t dir bytes
  differ : ∀ d n c d' n' c', patch d n = some (some c) → patch d' n' = some (some c') → t'.isDir c →
    t'.inode c = t'.inode c' → d = d' ∧ n = n'
  made : made ⊆ made'
  put_made : ∀ d n c, patch d n = some (some c) → t'.isDir c → t'.inode c ∈ made'

section Patches

variable {t t' : Tree} {maps maps' : Maps} {made made' : Set Inode} {patch : Patch}

lemma isDir_iff {d : ℕ} : t.isDir d = true ↔ (t.inode d).type = .dir := beq_iff_eq

section

variable (h : Patches t maps made patch t' maps' made')

include h

lemma Patches.isDir_old {d : ℕ} (hd : d < t.dentries.length) : t'.isDir d = t.isDir d := by
  rw [Tree.isDir, Tree.isDir, h.inode d hd]

/-- A place of the cache is patched when the place of the maps is that it shows. -/
lemma Patches.patch_of_at {n : Name} (hagrees : t.Agrees maps made)
    {d : ℕ} (hd : t.isDir d) (hat : patch.At t (t.inode d) n.1) : patch d n ≠ none := by
  obtain ⟨d', n', hne, hdir, hname⟩ := hat
  obtain rfl := hagrees.unique d' d (h.isDir d' n' hne) hd hdir
  obtain rfl : n' = n := Subtype.ext hname
  exact hne

/-- Every directory still has one dentry. -/
lemma Patches.unique (hagrees : t.Agrees maps made)
    {d d' : ℕ} (hd : t'.isDir d) (hd' : t'.isDir d') (heq : t'.inode d = t'.inode d') : d = d' := by
  by_cases hold : d < t.dentries.length
  · have hdir : t.isDir d := h.isDir_old hold ▸ hd
    by_cases hold' : d' < t.dentries.length
    · rw [h.inode d hold, h.inode d' hold'] at heq
      exact hagrees.unique d d' hdir (h.isDir_old hold' ▸ hd') heq
    · obtain ⟨-, hne, -⟩ := h.fresh d' (not_lt.mp hold') hd'
      exact absurd (h.inode d hold ▸ heq) (hne d hdir)
  · obtain ⟨heq1, hne, -⟩ := h.fresh d (not_lt.mp hold) hd
    by_cases hold' : d' < t.dentries.length
    · have hdir : t.isDir d' := h.isDir_old hold' ▸ hd'
      exact absurd (h.inode d' hold' ▸ heq.symm) (hne d' hdir)
    · exact heq1.trans (h.fresh d' (not_lt.mp hold') hd').1.symm

/-- What the maps have after a patch: what was put there, or what was there. -/
lemma Patches.maps_eq {bytes : List Byte} {dir inode : Inode}
    (hmaps : maps' dir bytes = some inode) :
    (∃ d n c, patch d n = some (some c) ∧ t.inode d = dir ∧ n.1 = bytes ∧ t'.inode c = inode) ∨
      ¬ patch.At t dir bytes ∧ maps dir bytes = some inode := by
  by_cases hat : patch.At t dir bytes
  · obtain ⟨d, n, hne, rfl, rfl⟩ := hat
    obtain ⟨x, hx⟩ := ne_none_iff_exists'.mp hne
    rw [h.maps_patch d n x hx] at hmaps
    obtain ⟨c, rfl, hc⟩ := map_eq_some_iff.mp hmaps
    exact .inl ⟨d, n, c, hx, rfl, rfl, hc⟩
  · exact .inr ⟨hat, h.maps_same dir bytes hat ▸ hmaps⟩

end

lemma Agrees.of_patches (hagrees : t.Agrees maps made) (hok : t.Ok True)
    (h : Patches t maps made patch t' maps' made') : t'.Agrees maps' made' := by
  have hold : ∀ d, t.isDir d → t'.inode d = t.inode d := fun d hd => h.inode d (lt_of_isDir hd)
  refine ⟨h.policy, fun d n entry hentry => ?_, fun d n c hentry => ?_, fun d n hentry => ?_,
    fun d d' hd hd' => h.unique hagrees hd hd', fun dir dir' n n' inode htype hmaps hmaps' => ?_,
    fun d dir n hd hmaps => ?_, fun d hd => ?_, fun dir n inode htype hmaps => ?_⟩
  · have hdir : t.isDir d := by
      by_cases hpatch : patch d n = none
      · exact hagrees.entry_isDir d n entry (h.entry_same d n hpatch ▸ hentry)
      · exact h.isDir d n hpatch
    exact (h.isDir_old (lt_of_isDir hdir)).trans hdir
  · cases hpatch : patch d n with
    | none =>
      rw [h.entry_same d n hpatch] at hentry
      have hdir := hagrees.entry_isDir d n _ hentry
      rw [hold d hdir, h.inode c (lt_of_named (hok.cached d n c hentry)),
        h.maps_same _ _ fun hat => h.patch_of_at hagrees hdir hat hpatch]
      exact hagrees.positive d n c hentry
    | some x =>
      rw [hold d (h.isDir d n (ne_none_of_eq_some hpatch)), h.maps_patch d n x hpatch]
      cases x with
      | none =>
        rcases h.entry_none d n hpatch with hnone | hneg
        · rw [hnone] at hentry
          cases hentry
        · rw [hneg] at hentry
          cases hentry
      | some c' =>
        rw [h.entry_some d n c' hpatch, some.injEq, CachedDentry.positive.injEq] at hentry
        rw [hentry]
        rfl
  · cases hpatch : patch d n with
    | none =>
      rw [h.entry_same d n hpatch] at hentry
      have hdir := hagrees.entry_isDir d n _ hentry
      rw [hold d hdir, h.maps_same _ _ fun hat => h.patch_of_at hagrees hdir hat hpatch]
      exact hagrees.negative d n hentry
    | some x =>
      rw [hold d (h.isDir d n (ne_none_of_eq_some hpatch)), h.maps_patch d n x hpatch]
      cases x with
      | none => rfl
      | some c' =>
        rw [h.entry_some d n c' hpatch] at hentry
        cases hentry
  · have hdir : ∀ c, t'.inode c = inode → t'.isDir c := fun c hc => isDir_iff.mpr (hc ▸ htype)
    rcases h.maps_eq hmaps with ⟨d, m, c, hput, rfl, rfl, hc⟩ | ⟨hat, hbefore⟩
    · rcases h.maps_eq hmaps' with ⟨d', m', c', hput', rfl, rfl, hc'⟩ | ⟨hat', hbefore'⟩
      · obtain ⟨rfl, rfl⟩ := h.differ d m c d' m' c' hput hput' (hdir c hc) (hc.trans hc'.symm)
        exact ⟨rfl, rfl⟩
      · exact absurd (h.moved d m c hput (hdir c hc) dir' n' (hc ▸ hbefore')) hat'
    · rcases h.maps_eq hmaps' with ⟨d', m', c', hput', rfl, rfl, hc'⟩ | ⟨hat', hbefore'⟩
      · exact absurd (h.moved d' m' c' hput' (hdir c' hc') dir n (hc' ▸ hbefore)) hat
      · exact hagrees.once dir dir' n n' inode htype hbefore hbefore'
  · rcases h.maps_eq hmaps with ⟨p, m, c, hput, rfl, rfl, hc⟩ | ⟨hat, hbefore⟩
    · have hdir : t'.isDir c := isDir_iff.mpr (hc ▸ isDir_iff.mp hd)
      obtain rfl := h.unique hagrees hdir hd hc
      exact ⟨p, m, hold p (h.isDir p m (ne_none_of_eq_some hput)), rfl, h.entry_some p m c hput⟩
    · by_cases hlen : d < t.dentries.length
      · rw [h.inode d hlen] at hbefore
        obtain ⟨p, name, rfl, rfl, hentry⟩ :=
          hagrees.known d dir n (h.isDir_old hlen ▸ hd) hbefore
        have hpatch : patch p name = none := by
          by_contra hne
          exact hat ⟨p, name, hne, rfl, rfl⟩
        exact ⟨p, name, hold p (hagrees.entry_isDir p name _ hentry), rfl,
          (h.entry_same p name hpatch).trans hentry⟩
      · obtain ⟨-, -, p, m, hput⟩ := h.fresh d (not_lt.mp hlen) hd
        exact absurd (h.moved p m d hput hd dir n hbefore) hat
  · by_cases hlen : d < t.dentries.length
    · rw [h.inode d hlen]
      exact h.made (hagrees.dentry_made d (h.isDir_old hlen ▸ hd))
    · obtain ⟨-, -, p, m, hput⟩ := h.fresh d (not_lt.mp hlen) hd
      exact h.put_made p m d hput hd
  · rcases h.maps_eq hmaps with ⟨d, m, c, hput, -, -, rfl⟩ | ⟨-, hbefore⟩
    · exact h.put_made d m c hput (isDir_iff.mpr htype)
    · exact h.made (hagrees.entry_made dir n inode htype hbefore)

end Patches

/-! ### Entries -/

section Entries

variable {σ : Type} {env : Env σ} {fs : σ} {t t' : Tree} {maps maps' : Maps}
    {made made' : Set Inode}
  {d dir c : ℕ} {n name : Name}

lemma entry_setChildren (hdir : t.isDir dir) (children : DentryChildren) :
    (t.setChildren dir children).entry d n = if d = dir then children.find n else t.entry d n := by
  rw [entry, children_setChildren (lt_of_isDir hdir)]
  split
  · rfl
  · rfl

lemma revalidationPolicy_setChildren (children : DentryChildren) :
    (t.setChildren dir children).revalidationPolicy d = t.revalidationPolicy d :=
  elim_modify _ fun _ => rfl

section

variable (hpolicy : ∀ d, t.revalidationPolicy d = ⟨false, false⟩)

include hpolicy

/-- Without a policy nothing is dropped from the cache. -/
lemma insertPositiveChild_eq :
    t.insertPositiveChild env fs dir name c =
      t.setChildren dir ((t.children dir).insertPositive name c) := by
  rw [insertPositiveChild, revalidatePositiveChildrenIfNeeded, hpolicy]
  rfl

lemma findValid_eq : t.findValid env fs dir name = (t, t.entry dir name) := by
  unfold findValid
  rw [entry]
  split
  · next entry hentry =>
    have hvalid : t.revalidateCachedEntry env fs dir name entry = true := by
      unfold revalidateCachedEntry
      rw [hpolicy]
      cases entry with
      | positive c | negative => rfl
    rw [if_pos hvalid, hentry]
  · next hentry => rw [hentry]

lemma entry_insertPositiveChild (hdir : t.isDir dir) :
    (t.insertPositiveChild env fs dir name c).entry d n =
      if d = dir ∧ n = name then some (.positive c) else t.entry d n := by
  rw [insertPositiveChild_eq hpolicy, entry_setChildren hdir]
  by_cases hd : d = dir
  · rw [if_pos hd, DentryChildren.find_insertPositive, hd]
    by_cases hn : n = name
    · rw [if_pos hn, if_pos ⟨rfl, hn⟩]
    · rw [if_neg hn, if_neg fun h => hn h.2]
      rfl
  · rw [if_neg hd, if_neg fun h => hd h.1]

end

lemma revalidationPolicy_insertPositiveChild :
    (t.insertPositiveChild env fs dir name c).revalidationPolicy d = t.revalidationPolicy d :=
  revalidationPolicy_setChildren _

/-- What a new dentry changes. -/
lemma newNamed_spec (hpolicy : ∀ d, t.revalidationPolicy d = ⟨false, false⟩)
    (henv : ∀ inode, env.revalidationPolicy inode = ⟨false, false⟩) (inode : Inode) :
    (∀ d, (t.newNamed env inode name dir).revalidationPolicy d = ⟨false, false⟩) ∧
      (∀ d < t.dentries.length, (t.newNamed env inode name dir).inode d = t.inode d) ∧
      (t.newNamed env inode name dir).inode t.dentries.length = inode ∧
      (∀ d, t.dentries.length < d → ¬ (t.newNamed env inode name dir).isDir d) ∧
      ∀ d n, (t.newNamed env inode name dir).entry d n = t.entry d n := by
  have hnew := @getElem?_newNamed_self σ env t dir name inode
  have hold : ∀ d < t.dentries.length, (t.newNamed env inode name dir).dentries[d]? =
      t.dentries[d]? :=
    fun d hd => getElem?_newNamed inode hd
  have hout : ∀ d, t.dentries.length < d → (t.newNamed env inode name dir).dentries[d]? = none :=
    fun d hd => getElem?_eq_none (by rw [length_newNamed]; omega)
  refine ⟨fun d => ?_, fun d hd => ?_, ?_, fun d hd hdir => ?_, fun d n => ?_⟩
  · rcases lt_trichotomy d t.dentries.length with hd | rfl | hd
    · have := hpolicy d
      rw [revalidationPolicy] at this ⊢
      rw [hold d hd]
      exact this
    · rw [revalidationPolicy, hnew]
      exact henv inode
    · rw [revalidationPolicy, hout d hd]
      rfl
  · rw [Tree.inode, Tree.inode, hold d hd]
  · rw [Tree.inode, hnew]
    rfl
  · have hlt := lt_of_isDir hdir
    rw [length_newNamed] at hlt
    omega
  · rw [entry, entry, Tree.children, Tree.children]
    rcases lt_trichotomy d t.dentries.length with hd | rfl | hd
    · rw [hold d hd]
    · rw [hnew, getElem?_eq_none le_rfl]
      rfl
    · rw [hout d hd, getElem?_eq_none hd.le]

/-! ### One place -/

/-- A dentry, or none, is put at one place. -/
def patchAt (dir : ℕ) (name : Name) (value : Option ℕ) : Patch := fun d n =>
  if d = dir ∧ n = name then some value else none

lemma patchAt_ne_none {value : Option ℕ} :
    patchAt dir name value d n ≠ none ↔ d = dir ∧ n = name := by
  unfold patchAt
  split
  · next h => exact ⟨fun _ => h, fun _ => some_ne_none _⟩
  · next h => exact ⟨fun hne => absurd rfl hne, fun heq => absurd heq h⟩

lemma patchAt_eq_some {value x : Option ℕ} :
    patchAt dir name value d n = some x ↔ (d = dir ∧ n = name) ∧ value = x := by
  unfold patchAt
  split
  · next h => rw [some.injEq, and_iff_right h]
  · next h =>
    refine ⟨fun heq => ?_, fun heq => absurd heq.1 h⟩
    cases heq

lemma patchAt_at {value : Option ℕ} {i : Inode} {bytes : List Byte} :
    (patchAt dir name value).At t i bytes ↔ i = t.inode dir ∧ bytes = name.1 := by
  constructor
  · rintro ⟨d, n, hne, rfl, rfl⟩
    obtain ⟨rfl, rfl⟩ := patchAt_ne_none.mp hne
    exact ⟨rfl, rfl⟩
  · rintro ⟨rfl, rfl⟩
    exact ⟨dir, name, patchAt_ne_none.mpr ⟨rfl, rfl⟩, rfl, rfl⟩

section

variable (hagrees : t.Agrees maps made) (hok : t.Ok True) (hdir : t.isDir dir)

include hagrees hok hdir

/-- A new dentry is put at a place, for an inode that no dentry has and that has no other name. -/
lemma Agrees.insertNewChild
    (henv : ∀ inode, env.revalidationPolicy inode = ⟨false, false⟩) {inode : Inode}
    (hdentry : inode.type = .dir → ∀ c, t.isDir c → t.inode c ≠ inode)
    (hplace : inode.type = .dir → ∀ i bytes, maps i bytes = some inode → i = t.inode dir ∧
    bytes = name.1) (hmade : made ⊆ made') (hin : inode.type = .dir → inode ∈ made') :
    (t.insertNewChild env fs dir name inode).Agrees (maps.set (t.inode dir) name.1 (some inode))
    made' := by
  obtain ⟨hpolicy, hinode, hself, hout, hentry⟩ :=
    @newNamed_spec σ env t dir name hagrees.policy henv inode
  have hdir' : (t.newNamed env inode name dir).isDir dir := by
    rw [Tree.isDir, hinode dir (lt_of_isDir hdir)]
    exact hdir
  have hinode' : ∀ d, (t.insertNewChild env fs dir name inode).inode d =
      (t.newNamed env inode name dir).inode d := fun d => inode_insertPositiveChild
  have hisDir : ∀ d, (t.insertNewChild env fs dir name inode).isDir d =
      (t.newNamed env inode name dir).isDir d := fun d => by rw [Tree.isDir, Tree.isDir, hinode']
  have hentry' : ∀ d n, (t.insertNewChild env fs dir name inode).entry d n =
      if d = dir ∧ n = name then some (.positive t.dentries.length) else t.entry d n :=
        fun d n => by
    rw [Tree.insertNewChild, entry_insertPositiveChild hpolicy hdir', hentry]
  have htype : (t.insertNewChild env fs dir name inode).isDir t.dentries.length → inode.type =
      .dir := by
    rw [hisDir, isDir_iff, hself]
    exact id
  have hpatches : Patches t maps made (patchAt dir name (some t.dentries.length))
      (t.insertNewChild env fs dir name inode) (maps.set (t.inode dir) name.1 (some inode))
          made' := by
    refine ⟨fun d => ?_, fun d hd => (hinode' d).trans (hinode d hd), fun d hge hd => ?_,
      fun d n hne => ?_, fun d n hnone => ?_, fun d n hput => ?_, fun d n c hput => ?_,
      fun d n x hput => ?_, fun i bytes hat => ?_, fun d n c hput hd i bytes hmaps => ?_,
      fun d n c d' n' c' hput hput' _ _ => ?_, hmade, fun d n c hput hd => ?_⟩
    · exact revalidationPolicy_insertPositiveChild.trans (hpolicy d)
    · have heq : d = t.dentries.length := by
        by_contra hne
        exact hout d (lt_of_le_of_ne hge (Ne.symm hne)) (hisDir d ▸ hd)
      subst heq
      refine ⟨rfl, fun c hc => ?_, dir, name, patchAt_eq_some.mpr ⟨⟨rfl, rfl⟩, rfl⟩⟩
      rw [hinode', hself]
      exact hdentry (htype hd) c hc
    · exact (patchAt_ne_none.mp hne).1 ▸ hdir
    · rw [hentry', if_neg fun hat => patchAt_ne_none.mpr hat hnone]
    · cases (patchAt_eq_some.mp hput).2
    · obtain ⟨hat, hc⟩ := patchAt_eq_some.mp hput
      rw [hentry', if_pos hat, some.inj hc]
    · obtain ⟨⟨rfl, rfl⟩, rfl⟩ := patchAt_eq_some.mp hput
      rw [Maps.set, if_pos ⟨rfl, rfl⟩, map_some, hinode', hself]
    · rw [Maps.set, if_neg fun heq => hat (patchAt_at.mpr heq)]
    · obtain ⟨-, hc⟩ := patchAt_eq_some.mp hput
      cases hc
      rw [hinode', hself] at hmaps
      exact patchAt_at.mpr (hplace (htype hd) i bytes hmaps)
    · obtain ⟨⟨rfl, rfl⟩, -⟩ := patchAt_eq_some.mp hput
      obtain ⟨⟨rfl, rfl⟩, -⟩ := patchAt_eq_some.mp hput'
      exact ⟨rfl, rfl⟩
    · obtain ⟨-, hc⟩ := patchAt_eq_some.mp hput
      cases hc
      rw [hinode', hself]
      exact hin (htype hd)
  exact hagrees.of_patches hok hpatches

/-- A name of a directory is gone from the maps, and not positive in the cache. -/
lemma Agrees.setNone
    {children : DentryChildren} (hsame : ∀ n, n ≠ name → children.find n = t.entry dir n)
    (hnone : children.find name = none ∨ children.find name = some .negative) :
    (t.setChildren dir children).Agrees (maps.set (t.inode dir) name.1 none) made := by
  have hpatches : Patches t maps made (patchAt dir name none) (t.setChildren dir children)
      (maps.set (t.inode dir) name.1 none) made := by
    refine ⟨fun d => ?_, fun d _ => inode_setChildren _, fun d hge hd => ?_, fun d n hne => ?_,
      fun d n hpatch => ?_, fun d n hput => ?_, fun d n c hput => ?_, fun d n x hput => ?_,
      fun i bytes hat => ?_, fun d n c hput => ?_, fun d n c d' n' c' hput => ?_, le_rfl,
      fun d n c hput => ?_⟩
    · exact (revalidationPolicy_setChildren _).trans (hagrees.policy d)
    · have hlt := lt_of_isDir hd
      rw [length_setChildren] at hlt
      exact absurd hlt (not_lt.mpr hge)
    · exact (patchAt_ne_none.mp hne).1 ▸ hdir
    · rw [entry_setChildren hdir]
      split
      · next hd =>
        subst hd
        exact hsame n fun hn => patchAt_ne_none.mpr ⟨rfl, hn⟩ hpatch
      · rfl
    · obtain ⟨⟨rfl, rfl⟩, -⟩ := patchAt_eq_some.mp hput
      rw [entry_setChildren hdir, if_pos rfl]
      exact hnone
    · cases (patchAt_eq_some.mp hput).2
    · obtain ⟨⟨rfl, rfl⟩, rfl⟩ := patchAt_eq_some.mp hput
      rw [Maps.set, if_pos ⟨rfl, rfl⟩]
      rfl
    · rw [Maps.set, if_neg fun heq => hat (patchAt_at.mpr heq)]
    all_goals cases (patchAt_eq_some.mp hput).2
  exact hagrees.of_patches hok hpatches

end

/-! ### Two places -/

variable {r : Rename} {old : ℕ} {other : Option ℕ}

/-- The old dentry is put at the new place of a rename, and another one or none at the old place. -/
def patchRename (r : Rename) (old : ℕ) (other : Option ℕ) : Patch := fun d n =>
  if d = r.newDir ∧ n = r.newName then some (some old)
  else if d = r.oldDir ∧ n = r.oldName then some other
  else none

lemma patchRename_eq_some {x : Option ℕ} (h : patchRename r old other d n = some x) :
    (d = r.newDir ∧ n = r.newName) ∧ x = some old ∨
      ¬ (d = r.newDir ∧ n = r.newName) ∧ (d = r.oldDir ∧ n = r.oldName) ∧ x = other := by
  unfold patchRename at h
  split at h
  · next hat => exact .inl ⟨hat, (some.inj h).symm⟩
  · next hnot =>
    split at h
    · next hat => exact .inr ⟨hnot, hat, (some.inj h).symm⟩
    · cases h

lemma patchRename_at {i : Inode} {bytes : List Byte} :
    (patchRename r old other).At t i bytes ↔
      (i = t.inode r.newDir ∧ bytes = r.newName.1) ∨
          (i = t.inode r.oldDir ∧ bytes = r.oldName.1) := by
  constructor
  · rintro ⟨d, n, hne, rfl, rfl⟩
    obtain ⟨x, hx⟩ := ne_none_iff_exists'.mp hne
    rcases patchRename_eq_some hx with ⟨⟨rfl, rfl⟩, -⟩ | ⟨-, ⟨rfl, rfl⟩, -⟩
    · exact .inl ⟨rfl, rfl⟩
    · exact .inr ⟨rfl, rfl⟩
  · rintro (⟨rfl, rfl⟩ | ⟨rfl, rfl⟩)
    · refine ⟨r.newDir, r.newName, ?_, rfl, rfl⟩
      rw [patchRename, if_pos ⟨rfl, rfl⟩]
      exact some_ne_none _
    · refine ⟨r.oldDir, r.oldName, ?_, rfl, rfl⟩
      unfold patchRename
      split
      · exact some_ne_none _
      · rw [if_pos ⟨rfl, rfl⟩]
        exact some_ne_none _

/-- Two dentries that are cached change their places. -/
lemma Agrees.rename {moved : List ℕ} (hagrees : t.Agrees maps made) (hok : t.Ok True)
    (hmoves : t.Moves t' moved) (hpolicy : ∀ d, t'.revalidationPolicy d = ⟨false, false⟩)
    (holdDir : t.isDir r.oldDir) (hnewDir : t.isDir r.newDir)
    (hdiffer : ¬ (r.oldDir = r.newDir ∧ r.oldName = r.newName))
    (hold : t.entry r.oldDir r.oldName = some (.positive old))
    (hother : ∀ c, other = some c → t.entry r.newDir r.newName = some (.positive c) ∧
      t.inode old ≠ t.inode c)
    (hentry : ∀ d n, patchRename r old other d n = none → t'.entry d n = t.entry d n)
    (hentryNew : t'.entry r.newDir r.newName = some (.positive old))
    (hentryOld : other.elim
      (t'.entry r.oldDir r.oldName = none ∨ t'.entry r.oldDir r.oldName = some .negative)
      fun c => t'.entry r.oldDir r.oldName = some (.positive c)) :
    t'.Agrees ((maps.set (t.inode r.oldDir) r.oldName.1 (other.map t.inode)).set (t.inode r.newDir)
      r.newName.1 (some (t.inode old))) made := by
  have hplaces : ¬ (t.inode r.oldDir = t.inode r.newDir ∧ r.oldName.1 = r.newName.1) := fun heq =>
    hdiffer ⟨hagrees.unique _ _ holdDir hnewDir heq.1, Subtype.ext heq.2⟩
  -- The dentries that are put somewhere were at the two places.
  have hput : ∀ d n c, patchRename r old other d n = some (some c) →
      ∃ i bytes, maps i bytes = some (t.inode c) ∧ (patchRename r old other).At t i bytes := by
    intro d n c hc
    rcases patchRename_eq_some hc with ⟨-, heq⟩ | ⟨-, -, heq⟩
    · cases heq
      exact ⟨_, _, hagrees.positive _ _ _ hold, patchRename_at.mpr (.inr ⟨rfl, rfl⟩)⟩
    · exact ⟨_, _, hagrees.positive _ _ _ (hother c heq.symm).1,
        patchRename_at.mpr (.inl ⟨rfl, rfl⟩)⟩
  have hpatches : Patches t maps made (patchRename r old other) t'
      ((maps.set (t.inode r.oldDir) r.oldName.1 (other.map t.inode)).set (t.inode r.newDir)
        r.newName.1 (some (t.inode old))) made := by
    refine ⟨hpolicy, fun d _ => hmoves.inode d, fun d hge hd => ?_, fun d n hne => ?_, hentry,
      fun d n hnone => ?_, fun d n c hc => ?_, fun d n x hx => ?_, fun i bytes hat => ?_,
      fun d n c hc hd i bytes hmaps => ?_, fun d n c d' n' c' hc hc' hd heq => ?_, le_rfl,
      fun d n c hc hd => ?_⟩
    · have hlen := lt_of_isDir hd
      rw [hmoves.length] at hlen
      exact absurd hlen (not_lt.mpr hge)
    · obtain ⟨x, hx⟩ := ne_none_iff_exists'.mp hne
      rcases patchRename_eq_some hx with ⟨⟨rfl, rfl⟩, -⟩ | ⟨-, ⟨rfl, rfl⟩, -⟩
      · exact hnewDir
      · exact holdDir
    · rcases patchRename_eq_some hnone with ⟨-, hc⟩ | ⟨-, ⟨rfl, rfl⟩, rfl⟩
      · cases hc
      · exact hentryOld
    · rcases patchRename_eq_some hc with ⟨⟨rfl, rfl⟩, heq⟩ | ⟨-, ⟨rfl, rfl⟩, rfl⟩
      · exact some.inj heq ▸ hentryNew
      · exact hentryOld
    · rcases patchRename_eq_some hx with ⟨⟨rfl, rfl⟩, rfl⟩ | ⟨-, ⟨rfl, rfl⟩, rfl⟩
      · rw [Maps.set, if_pos ⟨rfl, rfl⟩, map_some, hmoves.inode]
      · rw [Maps.set, if_neg hplaces, Maps.set, if_pos ⟨rfl, rfl⟩]
        congr 1
        exact (funext hmoves.inode).symm
    · have hnot := mt patchRename_at.mpr hat
      rw [Maps.set, if_neg fun heq => hnot (.inl heq), Maps.set, if_neg fun heq => hnot (.inr heq)]
    · obtain ⟨i', bytes', hmaps', hat⟩ := hput d n c hc
      rw [hmoves.inode] at hmaps
      have htype : (t.inode c).type = .dir := isDir_iff.mp (hmoves.isDir ▸ hd)
      obtain ⟨rfl, rfl⟩ := hagrees.once i i' bytes bytes' _ htype hmaps hmaps'
      exact hat
    · rw [hmoves.inode, hmoves.inode] at heq
      rcases patchRename_eq_some hc with ⟨⟨rfl, rfl⟩, hold'⟩ | ⟨-, ⟨rfl, rfl⟩, rfl⟩
      · rcases patchRename_eq_some hc' with ⟨⟨rfl, rfl⟩, -⟩ | ⟨-, -, hother'⟩
        · exact ⟨rfl, rfl⟩
        · cases hold'
          exact absurd heq (hother c' hother'.symm).2
      · rcases patchRename_eq_some hc' with ⟨-, hold'⟩ | ⟨-, ⟨rfl, rfl⟩, -⟩
        · cases hold'
          exact absurd heq.symm (hother c rfl).2
        · exact ⟨rfl, rfl⟩
    · rw [hmoves.inode]
      exact hagrees.dentry_made c (hmoves.isDir ▸ hd)
  exact hagrees.of_patches hok hpatches

end Entries

end Tree

end Asterinas.Vfs
