import Asterinas.Vfs.CachePatch

/-!
# The cache and the file system

A file system without a revalidation policy is seen as one map of names for each directory, on which
its operations act or fail.  A call that runs alone keeps the cache in agreement with the maps,
unless it gives a directory a second name.
-/

namespace Asterinas.Vfs

open Framework Vfs.Tree List Option

/-- How the state of a file system is seen: the maps, and all inodes that were made. -/
structure NameMaps (σ : Type) where
  maps : σ → Maps
  made : σ → Set Inode

namespace NameMaps

variable {σ : Type} (view : NameMaps σ)

/-- Nothing has changed. -/
def Same (fs fs' : σ) : Prop := view.maps fs' = view.maps fs ∧ view.made fs' = view.made fs

/-- A new inode gets a name, or nothing changes. -/
def Makes (fs : σ) (dir : Inode) (name : Name) : σ × Except Error Inode → Prop
  | (fs', .ok inode) => view.maps fs' = (view.maps fs).set dir name.1 (some inode) ∧
      view.made fs ⊆ view.made fs' ∧ inode ∉ view.made fs ∧ inode ∈ view.made fs'
  | (fs', .error _) => view.Same fs fs'

/-- A name gets an inode or loses it, or nothing changes. -/
def Sets (fs : σ) (dir : Inode) (name : Name) (value : Option Inode) : σ × Except Error Unit → Prop
  | (fs', .ok ()) => view.maps fs' = (view.maps fs).set dir name.1 value ∧
      view.made fs' = view.made fs
  | (fs', .error _) => view.Same fs fs'

/-- The inode of the old name gets the new one, in exchange for the inode that has it or not, or
nothing changes. -/
def Renames (fs : σ) (oldDir : Inode) (oldName : List Byte) (newDir : Inode) (newName : Name)
    (mode : RenameMode) : σ × Except Error Unit → Prop
  | (fs', .ok ()) => view.maps fs' = ((view.maps fs).set oldDir oldName
      (if mode = .exchange then view.maps fs newDir newName.1 else none)).set
        newDir newName.1 (view.maps fs oldDir oldName) ∧ view.made fs' = view.made fs
  | (fs', .error _) => view.Same fs fs'

/-- The file system acts on the maps and asks for no revalidation. -/
structure Acts (env : Env σ) : Prop where
  policy : ∀ inode, env.revalidationPolicy inode = ⟨false, false⟩
  lookup_ok : ∀ fs dir name inode, env.lookup fs dir name = .ok inode →
    view.maps fs dir name.1 = some inode
  lookup_enoent : ∀ fs dir name error, env.lookup fs dir name = .error error → error.errno =
    .enoent →
    view.maps fs dir name.1 = none
  create : ∀ fs dir name, view.Makes fs dir name (env.create fs dir name)
  mknod : ∀ fs dir name type, view.Makes fs dir name (env.mknod fs dir name type)
  link : ∀ fs dir old name, view.Sets fs dir name (some old) (env.link fs dir old name)
  unlink : ∀ fs dir name, view.Sets fs dir name none (env.unlink fs dir name)
  rmdir : ∀ fs dir name, view.Sets fs dir name none (env.rmdir fs dir name)
  rename : ∀ fs oldDir oldName newDir newName mode,
    view.Renames fs oldDir oldName newDir newName mode
      (env.rename fs oldDir oldName newDir newName mode)

/-- The cache agrees with the maps of a file system. -/
def Agrees (t : Tree) (fs : σ) : Prop := t.Agrees (view.maps fs) (view.made fs)

/-- An inode gets a name, and a directory is a new one, or nothing changes. -/
def Adds (fs : σ) (dir : Inode) (name : Name) : σ × Except Error Inode → Prop
  | (fs', .ok inode) => view.maps fs' = (view.maps fs).set dir name.1 (some inode) ∧
      view.made fs ⊆ view.made fs' ∧
        (inode.type = .dir → inode ∉ view.made fs ∧ inode ∈ view.made fs')
  | (fs', .error _) => view.Same fs fs'

variable {view} {fs fs' : σ} {t : Tree} {dir : Inode} {name : Name}

lemma Agrees.of_same (h : view.Agrees t fs) (hsame : view.Same fs fs') : view.Agrees t fs' := by
  rw [Agrees, hsame.1, hsame.2]
  exact h

lemma Makes.adds {r : σ × Except Error Inode} (h : view.Makes fs dir name r) :
    view.Adds fs dir name r := by
  obtain ⟨fs', result⟩ := r
  cases result with
  | ok inode =>
    obtain ⟨hmaps, hmade, hnew, hin⟩ := h
    exact ⟨hmaps, hmade, fun _ => ⟨hnew, hin⟩⟩
  | error error => exact h

end NameMaps

/-! ### Operations on one directory -/

lemma Maps.set_eq_self {dir : Inode} {bytes : List Byte} {value : Option Inode} {maps : Maps}
    (h : maps dir bytes = value) : maps.set dir bytes value = maps := by
  funext dir' bytes'
  unfold Maps.set
  split
  · next hat => rw [hat.1, hat.2, h]
  · rfl

namespace Tree

variable {σ : Type} {view : NameMaps σ} {env : Env σ} {fs : σ} {t : Tree} {maps : Maps}
  {made made' : Set Inode} {dir c : ℕ} {name : Name} {inode : Inode}

section

variable (hagrees : t.Agrees maps made)

include hagrees

section

variable (hok : t.Ok True) (hdir : t.isDir dir)

include hok hdir

section

variable (henv : ∀ inode, env.revalidationPolicy inode = ⟨false, false⟩)

include henv

/-- A name that is not cached is found: when it is a directory, no dentry has it. -/
lemma Agrees.insertFound (hmiss : t.entry dir name = none)
    (hmaps : maps (t.inode dir) name.1 = some inode) :
    (t.insertNewChild env fs dir name inode).Agrees maps made := by
  have hdentry : inode.type = .dir → ∀ c, t.isDir c → t.inode c ≠ inode := by
    rintro - c hc rfl
    obtain ⟨p, name', hp, hname, hentry⟩ := hagrees.known c _ _ hc hmaps
    obtain rfl := hagrees.unique p dir (hagrees.entry_isDir p name' _ hentry) hdir hp
    rw [Subtype.ext hname, hmiss] at hentry
    cases hentry
  rw [← Maps.set_eq_self hmaps]
  exact hagrees.insertNewChild hok hdir henv hdentry
    (fun htype i bytes hi => hagrees.once i _ bytes _ inode htype hi hmaps) subset_rfl
    fun htype => hagrees.entry_made _ _ inode htype hmaps

/-- A name gets an inode, which is a new one when it is a directory. -/
lemma Agrees.insertAdded (hmade : made ⊆ made')
    (hnew : inode.type = .dir → inode ∉ made ∧ inode ∈ made') :
    (t.insertNewChild env fs dir name inode).Agrees (maps.set (t.inode dir) name.1 (some inode))
    made' := by
  refine hagrees.insertNewChild hok hdir henv (fun htype c hc heq => ?_)
    (fun htype i bytes hi => ?_) hmade
    fun htype => (hnew htype).2
  · exact (hnew htype).1 (heq ▸ hagrees.dentry_made c hc)
  · exact absurd (hagrees.entry_made i bytes inode htype hi) (hnew htype).1

end

/-- A name that is absent gets a negative entry. -/
lemma Agrees.insertNegative (hmaps : maps (t.inode dir) name.1 = none) :
    (t.setChildren dir ((t.children dir).insertNegative name)).Agrees maps made := by
  rw [← Maps.set_eq_self hmaps]
  refine hagrees.setNone hok hdir (fun n hn => ?_) (.inr ?_)
  · rw [DentryChildren.find_insertNegative, if_neg hn]
    rfl
  · rw [DentryChildren.find_insertNegative, if_pos rfl]

/-- A name is removed whose entry is not positive. -/
lemma Agrees.removeUncached
    (hmiss : t.entry dir name = none) : t.Agrees (maps.set (t.inode dir) name.1 none) made := by
  have hself : t.setChildren dir (t.children dir) = t := by
    unfold setChildren
    congr 1
    refine ext_getElem? fun d => ?_
    rw [getElem?_modify, Option.map_eq_map]
    cases hd : t.dentries[d]? with
    | none => rfl
    | some dentry =>
      rw [map_some]
      split
      · next heq =>
        rw [Tree.children, heq, hd]
        rfl
      · rfl
  have hset := @Agrees.setNone t maps made dir name hagrees hok hdir (t.children dir)
    (fun n _ => rfl)
    (.inl hmiss)
  rwa [hself] at hset

/-- A name is removed whose entry is positive. -/
lemma Agrees.delete :
    (t.setChildren dir ((t.children dir).delete name)).Agrees (maps.set (t.inode dir) name.1 none)
    made := by
  refine hagrees.setNone hok hdir (fun n hn => ?_) ?_
  · rw [DentryChildren.find_delete, if_neg hn]
    rfl
  · rw [DentryChildren.find_delete, if_pos rfl]
    cases (t.children dir).find name with
    | none => exact .inl rfl
    | some entry => exact .inr rfl

end

end

/-! ### Operations -/

variable (hagrees : view.Agrees t fs) (hacts : view.Acts env) (hok : t.Ok True) (hdir : t.isDir dir)

include hagrees hacts hok hdir

lemma lookupChild_agrees : view.Agrees (t.lookupChild env fs dir name).1 fs := by
  unfold lookupChild
  rw [findValid_eq hagrees.policy]
  cases hmiss : t.entry dir name with
  | some entry => cases entry <;> exact hagrees
  | none =>
    dsimp only
    split
    · next inode hlookup =>
      exact hagrees.insertFound hok hdir hacts.policy hmiss (hacts.lookup_ok _ _ _ _ hlookup)
    · next error hlookup =>
      split
      · next herrno =>
        exact hagrees.insertNegative hok hdir (hacts.lookup_enoent _ _ _ _ hlookup herrno)
      · exact hagrees

lemma validateChildAbsent_agrees : view.Agrees (t.validateChildAbsent env fs dir name).1 fs := by
  unfold validateChildAbsent
  rw [findValid_eq hagrees.policy]
  cases hmiss : t.entry dir name with
  | some entry => cases entry <;> exact hagrees
  | none =>
    dsimp only
    split
    · next inode hlookup =>
      exact hagrees.insertFound hok hdir hacts.policy hmiss (hacts.lookup_ok _ _ _ _ hlookup)
    · next error hlookup =>
      split <;> exact hagrees

lemma addChild_agrees {make : σ → σ × Except Error Inode}
    (hmake : view.Adds fs (t.inode dir) name (make fs)) :
    view.Agrees (t.addChild env fs dir name make).1 (t.addChild env fs dir name make).2.1 := by
  have hext := @Extends.validateChildAbsent σ env t fs dir name hdir
  have habsent := @validateChildAbsent_agrees σ view env fs t dir name hagrees hacts hok hdir
  unfold addChild
  split
  · next t₁ error heq =>
    rw [heq] at habsent
    exact habsent
  · next t₁ heq =>
    rw [heq] at habsent hext
    split
    · next fs' inode hmade =>
      rw [hmade] at hmake
      obtain ⟨hmaps, hsub, hnew⟩ := hmake
      have hadded : (t₁.insertNewChild env fs' dir name inode).Agrees _ _ :=
        habsent.insertAdded (hok.extend hext) (hext.isDir hdir) hacts.policy hsub hnew
      rwa [hext.inode dir (lt_of_isDir hdir), ← hmaps] at hadded
    · next fs' error hmade =>
      rw [hmade] at hmake
      exact habsent.of_same hmake

omit hacts in
lemma removeFound_agrees {removeChildFn : σ → Inode → Name → σ × Except Error Unit}
    {isCached : Bool} {child : Inode}
    (hremove : view.Sets fs (t.inode dir) name none (removeChildFn fs (t.inode dir) name))
    (hmiss : isCached = false → t.entry dir name = none) :
    view.Agrees (t.removeFound env fs dir name child isCached removeChildFn).1
      (t.removeFound env fs dir name child isCached removeChildFn).2.1 := by
  unfold removeFound
  split
  · exact hagrees
  · split
    · next fs' error heq =>
      rw [heq] at hremove
      exact hagrees.of_same hremove
    · next fs' heq =>
      rw [heq] at hremove
      obtain ⟨hmaps, hmade⟩ := hremove
      rw [NameMaps.Agrees, hmaps, hmade]
      cases isCached with
      | true => exact hagrees.delete hok hdir
      | false => exact hagrees.removeUncached hok hdir (hmiss rfl)

omit hacts in
lemma removeChild_agrees {removeChildFn : σ → Inode → Name → σ × Except Error Unit}
    (hremove : view.Sets fs (t.inode dir) name none (removeChildFn fs (t.inode dir) name)) :
    view.Agrees (t.removeChild env fs dir name removeChildFn).1
      (t.removeChild env fs dir name removeChildFn).2.1 := by
  unfold removeChild
  rw [findValid_eq hagrees.policy]
  cases hmiss : t.entry dir name with
  | some entry =>
    dsimp only
    split
    · exact hagrees
    · split
      · exact removeFound_agrees hagrees hok hdir hremove fun h => by cases h
      · exact hagrees
  | none =>
    dsimp only
    split
    · exact removeFound_agrees hagrees hok hdir hremove fun _ => hmiss
    · exact hagrees

omit hagrees hacts hok hdir in
lemma afterRemoval_agrees {r : Tree × σ × Except Error Inode} (h : view.Agrees r.1 r.2.1) :
    view.Agrees (afterRemoval env r).1 (afterRemoval env r).2.1 := by
  obtain ⟨t, fs, result⟩ := r
  cases result <;> exact h

lemma createChild_agrees :
    view.Agrees (t.createChild env fs dir name).1 (t.createChild env fs dir name).2.1 := by
  exact addChild_agrees hagrees hacts hok hdir (hacts.create _ _ _).adds

lemma mknod_agrees {type : InodeType} :
    view.Agrees (t.mknod env fs dir name type).1 (t.mknod env fs dir name type).2.1 := by
  refine addChild_agrees hagrees hacts hok hdir ?_
  cases checkMknodCapability env type with
  | ok u => exact (hacts.mknod _ _ _ _).adds
  | error error => exact ⟨rfl, rfl⟩

lemma link_agrees {oldDentry : ℕ}
    (hfile : (env.link fs (t.inode dir) (t.inode oldDentry) name).2 = .ok () →
      ¬ t.isDir oldDentry) :
    view.Agrees (t.link env fs dir oldDentry name).1 (t.link env fs dir oldDentry name).2.1 := by
  refine addChild_agrees hagrees hacts hok hdir ?_
  have hsets := hacts.link fs (t.inode dir) (t.inode oldDentry) name
  generalize env.link fs (t.inode dir) (t.inode oldDentry) name = r at hsets hfile ⊢
  obtain ⟨fs', result⟩ := r
  cases result with
  | ok u =>
    obtain ⟨hmaps, hmade⟩ := hsets
    exact ⟨hmaps, hmade.ge, fun htype => absurd (isDir_iff.mpr htype) (hfile rfl)⟩
  | error error => exact hsets

lemma unlink_agrees : view.Agrees (t.unlink env fs dir name).1 (t.unlink env fs dir name).2.1 := by
  unfold unlink
  split
  · exact hagrees
  · exact afterRemoval_agrees (removeChild_agrees hagrees hok hdir (hacts.unlink _ _ _))

lemma rmdir_agrees : view.Agrees (t.rmdir env fs dir name).1 (t.rmdir env fs dir name).2.1 := by
  unfold rmdir
  split
  · exact hagrees
  split
  · exact hagrees
  · exact afterRemoval_agrees (removeChild_agrees hagrees hok hdir (hacts.rmdir _ _ _))

/-- A name that is resolved is cached, and one that is not found is absent.  Nothing else makes the
call fail than a mount and the lookup. -/
lemma resolveChildForRename_agrees {r : Tree × Except Error ℕ}
    (hr : t.resolveChildForRename env fs dir name = r) :
    view.Agrees r.1 fs ∧ (∀ d n, ¬ (d = dir ∧ n = name) → r.1.entry d n = t.entry d n) ∧
      (∀ c, r.2 = .ok c → r.1.entry dir name = some (.positive c)) ∧
      ∀ error, r.2 = .error error →
        (error.errno = .enoent → view.maps fs (t.inode dir) name.1 = none) ∧
        (error.errno = .enoent ∨
          (∃ c, t.entry dir name = some (.positive c) ∧ env.isMountpoint c = true) ∨
          env.lookup fs (t.inode dir) name = .error error) := by
  unfold resolveChildForRename at hr
  rw [findValid_eq hagrees.policy] at hr
  split at hr
  · next t₁ entry heq =>
    obtain ⟨rfl, hentry⟩ := Prod.mk.inj heq
    split at hr
    · next hmount =>
      subst hr
      refine ⟨hagrees, fun _ _ _ => rfl, fun c hc => (by cases hc), fun error herr =>
        ⟨?_, .inr (.inl ?_)⟩⟩
      · cases herr
        exact nofun
      · cases entry with
        | positive c => exact ⟨c, hentry, hmount⟩
        | negative => cases hmount
    · split at hr
      · subst hr
        refine ⟨hagrees, fun _ _ _ => rfl, fun c hc => ?_, fun error herr => (by cases herr)⟩
        rw [hentry, Except.ok.inj hc]
      · subst hr
        exact ⟨hagrees, fun _ _ _ => rfl, fun c hc => (by cases hc),
          fun error herr =>
            ⟨fun _ => hagrees.negative dir name hentry, .inl (Except.error.inj herr ▸ rfl)⟩⟩
  · next t₁ heq =>
    obtain ⟨rfl, hmiss⟩ := Prod.mk.inj heq
    split at hr
    · next inode hlookup =>
      subst hr
      obtain ⟨hpolicy, hinode, -, -, hentry⟩ :=
        @newNamed_spec σ env t dir name hagrees.policy hacts.policy inode
      have hdir' : (t.newNamed env inode name dir).isDir dir := by
        rw [Tree.isDir, hinode dir (lt_of_isDir hdir)]
        exact hdir
      refine ⟨hagrees.insertFound hok hdir hacts.policy hmiss (hacts.lookup_ok _ _ _ _ hlookup),
        fun d n hne => ?_, fun c hc => ?_, fun error herr => (by cases herr)⟩
      · change (insertNewChild env t fs dir name inode).entry d n = _
        rw [insertNewChild, entry_insertPositiveChild hpolicy hdir', if_neg hne, hentry]
      · change (insertNewChild env t fs dir name inode).entry dir name = _
        rw [insertNewChild, entry_insertPositiveChild hpolicy hdir', if_pos ⟨rfl, rfl⟩,
          Except.ok.inj hc]
    · next error hlookup =>
      subst hr
      refine ⟨hagrees, fun _ _ _ => rfl, fun c hc => (by cases hc), fun error herr => ?_⟩
      cases herr
      exact ⟨hacts.lookup_enoent _ _ _ _ hlookup, .inr (.inr hlookup)⟩

end Tree

/-- A directory gets a second name. -/
def Request.LinksDir {σ : Type} (env : Env σ) (t : Tree) (fs : σ) : Request → Prop
  | link dir oldDentry name =>
    t.isDir oldDentry ∧ (env.link fs (t.inode dir) (t.inode oldDentry) name).2 = .ok ()
  | _ => False

namespace Request

variable {σ : Type} {view : NameMaps σ} {env : Env σ} {fs : σ} {t : Tree}

lemma body_agrees (hagrees : view.Agrees t fs) (hacts : view.Acts env) (hok : t.Ok True)
    (request : Request) (hdirs : ∀ d ∈ request.dirs, t.isDir d)
    (hlink : ¬ request.LinksDir env t fs) :
    view.Agrees (request.body env t fs).1 (request.body env t fs).2.1 := by
  cases request with
  | lookupChild dir name => exact lookupChild_agrees hagrees hacts hok (hdirs dir mem_cons_self)
  | createChild dir name => exact createChild_agrees hagrees hacts hok (hdirs dir mem_cons_self)
  | mknod dir name type => exact mknod_agrees hagrees hacts hok (hdirs dir mem_cons_self)
  | link dir oldDentry name =>
    exact link_agrees hagrees hacts hok (hdirs dir mem_cons_self)
      fun hres hdir => hlink ⟨hdir, hres⟩
  | unlink dir name => exact unlink_agrees hagrees hacts hok (hdirs dir mem_cons_self)
  | rmdir dir name => exact rmdir_agrees hagrees hacts hok (hdirs dir mem_cons_self)
  | rename r => exact hagrees

end Request

/-! ### The update of a rename -/

namespace Tree

variable {σ : Type} {view : NameMaps σ} {env : Env σ} {fs : σ} {t t' : Tree} {maps : Maps}
  {made : Set Inode} {r : Rename} {old c d dir : ℕ} {n name : Name} {new : Option ℕ}

lemma revalidationPolicy_setNameAndParent (h : t.setNameAndParent c name dir = some t') :
    t'.revalidationPolicy d = t.revalidationPolicy d := by
  obtain ⟨-, rfl⟩ := setNameAndParent_eq_some h
  exact elim_modify _ fun _ => rfl

section

variable (hpolicy : ∀ d, t.revalidationPolicy d = ⟨false, false⟩) (holdDir : t.isDir r.oldDir)
    (hnewDir : t.isDir r.newDir)

include hpolicy holdDir hnewDir

lemma updateReplace_entry (h : r.updateReplace env t fs old = some t') :
    (∀ d, t'.revalidationPolicy d = ⟨false, false⟩) ∧ ∀ d n, t'.entry d n =
      if d = r.newDir ∧ n = r.newName then some (.positive old)
      else if d = r.oldDir ∧ n = r.oldName then (t.entry d n).map fun _ => .negative
      else t.entry d n := by
  obtain ⟨t₁, hset, heq⟩ := bind_eq_some_iff.mp h
  cases heq
  have hren := renames_setNameAndParent hset
  have hpolicy1 : ∀ d, t₁.revalidationPolicy d = ⟨false, false⟩ := fun d =>
    ((revalidationPolicy_setNameAndParent hset).trans (revalidationPolicy_setChildren _)).trans
    (hpolicy d)
  have hdir1 : t₁.isDir r.newDir := by
    rw [Tree.isDir, hren.inode, inode_setChildren]
    exact hnewDir
  refine ⟨fun d => revalidationPolicy_insertPositiveChild.trans (hpolicy1 d), fun d n => ?_⟩
  rw [entry_insertPositiveChild hpolicy1 hdir1]
  refine if_congr Iff.rfl rfl ?_
  have hentry :
      t₁.entry d n = (t.setChildren r.oldDir ((t.children r.oldDir).delete r.oldName)).entry d n :=
    congrArg (fun children : DentryChildren => children.find n) (hren.children d)
  rw [hentry, entry_setChildren holdDir, DentryChildren.find_delete]
  by_cases hd : d = r.oldDir
  · subst hd
    rw [if_pos rfl]
    by_cases hn : n = r.oldName
    · subst hn
      rw [if_pos rfl, if_pos ⟨rfl, rfl⟩]
      rfl
    · rw [if_neg hn, if_neg fun hat => hn hat.2]
      rfl
  · rw [if_neg hd, if_neg fun hat => hd hat.1]

lemma updateExchange_entry (h : r.updateExchange env t fs old c = some t') :
    (∀ d, t'.revalidationPolicy d = ⟨false, false⟩) ∧ ∀ d n, t'.entry d n =
      if d = r.oldDir ∧ n = r.oldName then some (.positive c)
      else if d = r.newDir ∧ n = r.newName then some (.positive old)
      else t.entry d n := by
  obtain ⟨t₁, hset1, h⟩ := bind_eq_some_iff.mp h
  obtain ⟨t₂, hset2, heq⟩ := bind_eq_some_iff.mp h
  cases heq
  have hren1 := renames_setNameAndParent hset1
  have hren2 := renames_setNameAndParent hset2
  have hpolicy2 : ∀ d, t₂.revalidationPolicy d = ⟨false, false⟩ := fun d =>
    ((revalidationPolicy_setNameAndParent hset2).trans
    (revalidationPolicy_setNameAndParent hset1)).trans
      (hpolicy d)
  have hdir2 : ∀ d, t₂.isDir d = t.isDir d := fun d => by
    rw [Tree.isDir, Tree.isDir, hren2.inode, hren1.inode]
  have hpolicy3 : ∀ d, (t₂.insertPositiveChild env fs r.newDir r.newName old).revalidationPolicy d =
      ⟨false, false⟩ := fun d => revalidationPolicy_insertPositiveChild.trans (hpolicy2 d)
  have hdir3 : (t₂.insertPositiveChild env fs r.newDir r.newName old).isDir r.oldDir := by
    rw [Tree.isDir, inode_insertPositiveChild]
    exact (hdir2 r.oldDir).trans holdDir
  refine ⟨fun d => revalidationPolicy_insertPositiveChild.trans (hpolicy3 d), fun d n => ?_⟩
  rw [entry_insertPositiveChild hpolicy3 hdir3,
    entry_insertPositiveChild hpolicy2 ((hdir2 _).trans hnewDir)]
  have hentry : t₂.entry d n = t.entry d n :=
    congrArg (fun children : DentryChildren => children.find n)
      ((hren2.children d).trans (hren1.children d))
  rw [hentry]

end

end Tree

namespace Rename

variable {σ : Type} {view : NameMaps σ} {env : Env σ} {fs : σ} {t t' : Tree} {maps : Maps}
  {made : Set Inode} {r : Rename} {old : ℕ} {new : Option ℕ}

/-- Both names are in the cache as they were resolved. -/
def Cached (r : Rename) (t : Tree) (maps : Maps) (old : ℕ) (new : Option ℕ) : Prop :=
  t.entry r.oldDir r.oldName = some (.positive old) ∧
    match new with
    | some c => t.entry r.newDir r.newName = some (.positive c) ∧ t.inode old ≠ t.inode c
    | none => maps (t.inode r.newDir) r.newName.1 = none

/-- What the file system makes of the maps. -/
def renamedMaps (r : Rename) (t : Tree) (maps : Maps) : Maps :=
  (maps.set (t.inode r.oldDir) r.oldName.1
    (if r.mode = .exchange then maps (t.inode r.newDir) r.newName.1 else none)).set
      (t.inode r.newDir) r.newName.1 (maps (t.inode r.oldDir) r.oldName.1)

/-- The update does to the cache what the file system has done to the maps. -/
lemma update_agrees (hagrees : t.Agrees maps made) (hcached : r.Cached t maps old new)
    (hok : t.Ok True) (hcall : Call.Ok True t ⟨.rename r, .renamed old new⟩) :
    ∃ t', r.update env t fs old new = (t', .done (.ok ())) ∧
      t'.Agrees (r.renamedMaps t maps) made := by
  have holdDir := hcall.isDir trivial _ r.oldDir_mem
  have hnewDir := hcall.isDir trivial _ r.newDir_mem
  have hdiffer := hcall.differ trivial r rfl
  have hplaces : ∀ other d n, Tree.patchRename r old other d n = none →
      ¬ (d = r.newDir ∧ n = r.newName) ∧ ¬ (d = r.oldDir ∧ n = r.oldName) := by
    intro other d n hnone
    unfold Tree.patchRename at hnone
    split at hnone
    · cases hnone
    · next hnew =>
      split at hnone
      · cases hnone
      · next hold => exact ⟨hnew, hold⟩
  obtain ⟨t', hupdate, -, hcases⟩ := @Call.update_spec σ True env t fs r old new hok hcall
  refine ⟨t', hupdate, ?_⟩
  have hold := hagrees.positive _ _ _ hcached.1
  rcases hcases with ⟨hmode, hreplace, hmoves⟩ | ⟨c, hmode, rfl, hexchange, hmoves, -⟩
  · -- The old name is left without a dentry.
    obtain ⟨hpolicy, hentry⟩ := updateReplace_entry hagrees.policy holdDir hnewDir hreplace
    have hmaps : r.renamedMaps t maps = (maps.set (t.inode r.oldDir) r.oldName.1
        ((none : Option ℕ).map t.inode)).set (t.inode r.newDir) r.newName.1
            (some (t.inode old)) := by
      rw [renamedMaps, if_neg hmode, hold]
      rfl
    rw [hmaps]
    refine hagrees.rename hok hmoves hpolicy holdDir hnewDir hdiffer hcached.1
      (fun c hc => (by cases hc)) (fun d n hnone => ?_) ?_ ?_
    · obtain ⟨hnew, hold⟩ := hplaces none d n hnone
      rw [hentry, if_neg hnew, if_neg hold]
    · rw [hentry, if_pos ⟨rfl, rfl⟩]
    · refine .inr ?_
      rw [hentry, if_neg hdiffer, if_pos ⟨rfl, rfl⟩, hcached.1]
      rfl
  · obtain ⟨hpolicy, hentry⟩ := updateExchange_entry hagrees.policy holdDir hnewDir hexchange
    have hmaps : r.renamedMaps t maps = (maps.set (t.inode r.oldDir) r.oldName.1
        ((some c).map t.inode)).set (t.inode r.newDir) r.newName.1 (some (t.inode old)) := by
      rw [renamedMaps, if_pos hmode, hold, hagrees.positive _ _ _ hcached.2.1]
      rfl
    rw [hmaps]
    refine hagrees.rename hok hmoves hpolicy holdDir hnewDir hdiffer hcached.1
      (fun c' hc' => some.inj hc' ▸ hcached.2) (fun d n hnone => ?_) ?_ ?_
    · obtain ⟨hnew, hold⟩ := hplaces (some c) d n hnone
      rw [hentry, if_neg hold, if_neg hnew]
    · rw [hentry, if_neg fun hat => hdiffer ⟨hat.1.symm, hat.2.symm⟩, if_pos ⟨rfl, rfl⟩]
    · change t'.entry r.oldDir r.oldName = some (.positive c)
      rw [hentry, if_pos ⟨rfl, rfl⟩]

end Rename

/-! ### A call alone -/

namespace Call

variable {σ : Type} {view : NameMaps σ} {env : Env σ} {fuel : ℕ} {free : ℕ → Bool} {fs : σ}
    {t : Tree}
  {c : Call} {r : Rename} {old : ℕ} {new : Option ℕ}

variable {request : Request} {stage' stage : Stage}

/-- A step of a call keeps the tree, and what holds of the call. -/
lemma Steps.ok {t' : Tree} {fs' : σ} (hsteps : Steps env free t fs request stage t' fs' stage')
    (hok : t.Ok True) (h : Ok True t ⟨request, stage⟩) :
    t'.Ok True ∧ Ok True t' ⟨request, stage'⟩ := by
  cases hsteps.effect hok h with
  | grows hext hcall _ _ => exact ⟨hok.extend hext, hcall⟩
  | moves r old new moved _ _ hdone hok' _ _ =>
    subst hdone
    exact ⟨hok', ok_of_not_active id⟩

/-- The cache agrees with the maps, except when the file system has renamed and the dentries are not
updated yet. -/
def Agrees (view : NameMaps σ) (t : Tree) (fs : σ) (c : Call) : Prop :=
  match c.stage, c.request with
  | .resolvedOld old, .rename r =>
    view.Agrees t fs ∧ t.entry r.oldDir r.oldName = some (.positive old)
  | .resolved old new, .rename r | .checked old new, .rename r =>
    view.Agrees t fs ∧ r.Cached t (view.maps fs) old new
  | .renamed old new, .rename r => ∃ maps, t.Agrees maps (view.made fs) ∧ r.Cached t maps old new ∧
      view.maps fs = r.renamedMaps t maps
  | _, _ => view.Agrees t fs

lemma name_of_cached {maps : Maps} (hok : t.Ok True) (hcached : r.Cached t maps old new) :
    t.name old = r.oldName.1 := by
  rw [Tree.name, hok.cached _ _ _ hcached.1]
  rfl

/-- The call is over, or will not give a directory a second name. -/
def LinksNoDir (env : Env σ) (t : Tree) (fs : σ) (c : Call) : Prop :=
  (∃ result, c.stage = .done result) ∨ ¬ c.request.LinksDir env t fs

lemma Steps.agrees {t' : Tree} {fs' : σ} (hsteps : Steps env free t fs request stage t' fs' stage')
    (h : Agrees view t fs ⟨request, stage⟩)
    (hacts : view.Acts env) (hok : t.Ok True) (hcall : Ok True t ⟨request, stage⟩)
    (hlink : LinksNoDir env t fs ⟨request, stage⟩) : Agrees view t' fs' ⟨request, stage'⟩ := by
  cases hsteps with
  | stays => exact h
  | fails hstage =>
    rcases hstage with rfl | ⟨old, new, rfl⟩
    · exact h
    · cases request with
      | rename r => exact h.1
      | _ => exact h
  | runs hother =>
    rcases hlink with ⟨result, hdone⟩ | hlink
    · cases hdone
    · exact Request.body_agrees h hacts hok _ (hcall.isDir trivial) hlink
  | @finds r _ old heq =>
    obtain ⟨hagrees, -, hfound, -⟩ :=
      resolveChildForRename_agrees h hacts hok (hcall.isDir trivial _ r.oldDir_mem) heq
    exact ⟨hagrees, hfound old rfl⟩
  | @misses r _ _ heq =>
    exact (resolveChildForRename_agrees h hacts hok (hcall.isDir trivial _ r.oldDir_mem) heq).1
  | @findsNew r _ old new heq hne =>
    obtain ⟨hagrees, hother, hfound, -⟩ :=
      resolveChildForRename_agrees h.1 hacts hok (hcall.isDir trivial _ r.newDir_mem) heq
    exact ⟨hagrees, (hother _ _ (hcall.differ trivial r rfl)).trans h.2, hfound new rfl, hne⟩
  | @missesNew r t' old error heq herrno =>
    have hdir := hcall.isDir trivial _ r.newDir_mem
    obtain ⟨hext, -⟩ := hok.resolveChildForRename hdir heq
    obtain ⟨hagrees, hother, -, habsent⟩ := resolveChildForRename_agrees h.1 hacts hok hdir heq
    refine ⟨hagrees, (hother _ _ (hcall.differ trivial r rfl)).trans h.2, ?_⟩
    rw [hext.inode _ (lt_of_isDir hdir)]
    exact (habsent error rfl).1 herrno
  | @failsNew r _ _ =>
    exact (resolveChildForRename_agrees h.1 hacts hok (hcall.isDir trivial _ r.newDir_mem) rfl).1
  | @renames r old new fs' heq =>
    have hrenames := hacts.rename fs (t.inode r.oldDir) r.oldName.1 (t.inode r.newDir)
      r.newName r.mode
    rw [← name_of_cached hok h.2, heq] at hrenames
    obtain ⟨hmaps, hmade⟩ := hrenames
    rw [name_of_cached hok h.2] at hmaps
    exact ⟨view.maps fs, hmade ▸ h.1, h.2, hmaps⟩
  | @failsInFs r old new fs' error heq =>
    have hrenames := hacts.rename fs (t.inode r.oldDir) (t.name old) (t.inode r.newDir)
      r.newName r.mode
    rw [heq] at hrenames
    exact h.1.of_same hrenames
  | @updates r old new =>
    obtain ⟨maps, hagrees, hcached, hmaps⟩ := h
    obtain ⟨t', hupdate, hagrees'⟩ := @Rename.update_agrees σ env fs t maps _ r old new hagrees
      hcached hok hcall
    rw [hupdate]
    change t'.Agrees (view.maps fs) (view.made fs)
    rw [hmaps]
    exact hagrees'
  | _ => exact h

lemma Steps.linksNoDir {t' : Tree} {fs' : σ}
    (hsteps : Steps env free t fs request stage t' fs' stage')
    (h : LinksNoDir env t fs ⟨request, stage⟩) : LinksNoDir env t' fs' ⟨request, stage'⟩ := by
  cases hsteps with
  | stays => exact h
  | begins | takes | locks => exact .inr (h.resolve_left fun hdone => by cases hdone.choose_spec)
  | fails | runs => exact .inl ⟨_, rfl⟩
  | _ => exact .inr id

/-- A call takes steps, with no other call between them. -/
def run (env : Env σ) (fuel : ℕ) (request : Request) : ℕ → Tree → σ → Stage → Tree × σ × Stage
  | 0, t, fs, stage => (t, fs, stage)
  | n + 1, t, fs, stage =>
    let (t, fs, stage) := step env fuel (fun _ => true) t fs ⟨request, stage⟩
    run env fuel request n t fs stage

/-- The run lemma. -/
lemma run_agrees {t' : Tree} {fs' : σ} (n : ℕ) (hacts : view.Acts env)
    (h : Agrees view t fs ⟨request, stage⟩) (hok : t.Ok True) (hcall : Ok True t ⟨request, stage⟩)
    (hlink : LinksNoDir env t fs ⟨request, stage⟩)
    (hrun : run env fuel request n t fs stage = (t', fs', stage')) :
    t'.Ok True ∧ Agrees view t' fs' ⟨request, stage'⟩ := by
  induction n generalizing t fs stage with
  | zero =>
    cases hrun
    exact ⟨hok, h⟩
  | succ n ih =>
    have hsteps := @steps σ env fuel (fun _ => true) t fs ⟨request, stage⟩
    obtain ⟨hok', hcall'⟩ := hsteps.ok hok hcall
    exact ih (hsteps.agrees h hacts hok hcall hlink) hok' hcall' (hsteps.linksNoDir hlink) hrun

lemma run_done {result : Except Error Unit} (n : ℕ) :
    run env fuel request n t fs (.done result) = (t, fs, .done result) := by
  induction n with
  | zero => rfl
  | succ n ih =>
    cases request with
    | _ => exact ih

end Call

end Asterinas.Vfs
