import Asterinas.Framework.ParentChain
import Asterinas.Vfs.Rename

/-!
# The tree of the dentries

Every operation but the last step of a rename only adds dentries and changes caches: `Extends` says
what that means for names, parents and entries.  The last step gives one dentry, or two of them,
another name and parent.
-/

namespace Asterinas.Vfs

open Framework OrderedMap List Option Nat

namespace DentryChildren

variable {children : DentryChildren} {name n : Name} {c d : ℕ}

lemma find_insertPositive :
    (children.insertPositive name c).find n =
      if n = name then some (.positive c) else children.find n := by
  refine (get?_insert n).trans ?_
  congr

lemma find_insertNegative :
    (children.insertNegative name).find n =
      if n = name then some .negative else children.find n := by
  refine (get?_insert n).trans ?_
  congr

lemma find_remove : (children.remove name).find n = if n = name then none else children.find n := by
  refine (get?_erase n).trans ?_
  congr

lemma find_delete : (children.delete name).find n =
    if n = name then (children.find name).map fun _ => .negative else children.find n := by
  unfold delete
  split
  · next hfind =>
    rw [find_insertNegative, hfind]
    rfl
  · next hfind =>
    split
    · next hn =>
      subst hn
      cases hentry : children.find n with
      | none => rfl
      | some entry =>
        cases entry with
        | positive c => exact absurd hentry (hfind c)
        | negative => rfl
    · rfl

lemma find_revalidatePositiveEntries {stillExists : Name → ℕ → Bool} {entry : CachedDentry}
    (h : (children.revalidatePositiveEntries stillExists).find n = some entry) :
    children.find n = some entry :=
  get?_filter h

end DentryChildren

namespace Tree

variable {σ : Type} {strict : Prop} {env : Env σ} {t t' t'' : Tree} {fs : σ} {d d' dir c : ℕ}
  {name n : Name}

lemma lt_of_isDir (h : t.isDir d) : d < t.dentries.length := by
  by_contra hge
  rw [isDir, inode, getElem?_eq_none (not_lt.mp hge)] at h
  cases h

/-! ### One change at a time -/

lemma getElem?_setChildren (children : DentryChildren) :
    (t.setChildren d children).dentries[d']? = (t.dentries[d']?).map fun dentry =>
      if d = d' then { dentry with children := children } else dentry := by
  rw [setChildren, getElem?_modify]
  rfl

/-- A change of another field keeps a field of every dentry. -/
lemma elim_modify {change : Dentry → Dentry} {β : Type} {field : Dentry → β} (none : β)
    (h : ∀ dentry, field (change dentry) = field dentry) :
    ((t.dentries.modify c change)[d]?).elim none field = (t.dentries[d]?).elim none field := by
  rw [getElem?_modify, Option.map_eq_map]
  cases t.dentries[d]? with
  | none => rfl
  | some dentry =>
    rw [map_some, elim_some, elim_some]
    split
    · exact h dentry
    · rfl

section

variable (children : DentryChildren)

@[simp] lemma length_setChildren :
    (t.setChildren d children).dentries.length = t.dentries.length := length_modify _ _ _

@[simp] lemma inode_setChildren :
    (t.setChildren d children).inode d' = t.inode d' := elim_modify _ fun _ => rfl

@[simp] lemma nameAndParent_setChildren :
    (t.setChildren d children).nameAndParent d' = t.nameAndParent d' := elim_modify _ fun _ => rfl

end

lemma children_setChildren (h : d < t.dentries.length) (children : DentryChildren) :
    (t.setChildren d children).children d' = if d' = d then children else t.children d' := by
  rw [Tree.children, Tree.children, getElem?_setChildren]
  by_cases heq : d' = d
  · subst heq
    rw [getElem?_eq_getElem h, map_some, elim_some, if_pos rfl, if_pos rfl]
  · rw [if_neg heq]
    cases t.dentries[d']? with
    | none => rfl
    | some dentry => rw [map_some, if_neg (Ne.symm heq)]

@[simp] lemma length_newNamed (inode : Inode) :
    (t.newNamed env inode name dir).dentries.length = t.dentries.length + 1 := length_append

lemma getElem?_newNamed (inode : Inode) (h : d < t.dentries.length) :
    (t.newNamed env inode name dir).dentries[d]? = t.dentries[d]? :=
  getElem?_append_left h

lemma getElem?_newNamed_self (inode : Inode) :
    (t.newNamed env inode name dir).dentries[t.dentries.length]? =
      some ⟨inode, .named name dir, .new, env.revalidationPolicy inode⟩ :=
  getElem?_concat_length

/-- A name and a parent are set on a dentry that has them. -/
lemma setNameAndParent_eq_some (h : t.setNameAndParent c name dir = some t') :
    c < t.dentries.length ∧
      t' = ⟨t.dentries.modify c fun dentry =>
        { dentry with nameAndParent := .named name dir }⟩ := by
  unfold setNameAndParent at h
  split at h
  · next heq =>
    refine ⟨?_, (some.inj h).symm⟩
    by_contra hge
    rw [nameAndParent, getElem?_eq_none (not_lt.mp hge)] at heq
    cases heq
  · cases h

/-- What a set name changes. -/
structure Renames (t : Tree) (c : ℕ) (name : Name) (dir : ℕ) (t' : Tree) : Prop where
  lt : c < t.dentries.length
  length : t'.dentries.length = t.dentries.length
  inode : ∀ d, t'.inode d = t.inode d
  children : ∀ d, t'.children d = t.children d
  self : t'.nameAndParent c = .named name dir
  other : ∀ d, d ≠ c → t'.nameAndParent d = t.nameAndParent d

lemma renames_setNameAndParent (h : t.setNameAndParent c name dir = some t') :
    t.Renames c name dir t' := by
  obtain ⟨hlt, rfl⟩ := setNameAndParent_eq_some h
  have hget : ∀ d, (t.dentries.modify c fun dentry =>
      { dentry with nameAndParent := .named name dir })[d]? = (t.dentries[d]?).map fun dentry =>
        if c = d then { dentry with nameAndParent := .named name dir } else dentry :=
    fun d => getElem?_modify _ _ _ _
  refine ⟨hlt, length_modify _ _ _, fun d => elim_modify _ fun _ => rfl,
    fun d => elim_modify _ fun _ => rfl, ?_, fun d hd => ?_⟩
  · rw [Tree.nameAndParent, hget, getElem?_eq_getElem hlt, map_some, if_pos rfl]
    rfl
  · rw [Tree.nameAndParent, Tree.nameAndParent, hget]
    cases t.dentries[d]? with
    | none => rfl
    | some dentry => rw [map_some, if_neg (Ne.symm hd)]

/-- A dentry with a name gets another one. -/
lemma exists_setNameAndParent (h : t.nameAndParent c = .named n d) :
    ∃ t', t.setNameAndParent c name dir = some t' ∧ t.Renames c name dir t' := by
  have hset : t.setNameAndParent c name dir = some
      ⟨t.dentries.modify c fun dentry => { dentry with nameAndParent := .named name dir }⟩ := by
    rw [setNameAndParent, h]
  exact ⟨_, hset, renames_setNameAndParent hset⟩

lemma children_insertPositiveChild {stored : ℕ} (hdir : t.isDir dir)
    (h : ((t.insertPositiveChild env fs dir name stored).children d).find n = some (.positive c)) :
    (d = dir ∧ n = name ∧ c = stored) ∨
      (¬ (d = dir ∧ n = name) ∧ (t.children d).find n = some (.positive c)) := by
  rw [Tree.insertPositiveChild, children_setChildren (lt_of_isDir hdir)] at h
  split at h
  · next hd =>
    subst hd
    have hfind : ((t.children d).insertPositive name stored).find n = some (.positive c) := by
      unfold revalidatePositiveChildrenIfNeeded at h
      split at h
      · exact h
      · dsimp only at h
        split at h
        · exact h
        · exact DentryChildren.find_revalidatePositiveEntries h
    rw [DentryChildren.find_insertPositive] at hfind
    split at hfind
    · next hn => exact .inl ⟨rfl, hn, (CachedDentry.positive.inj (some.inj hfind)).symm⟩
    · next hn => exact .inr ⟨fun h => hn h.2, hfind⟩
  · next hd => exact .inr ⟨fun h => hd h.1, h⟩

lemma length_insertPositiveChild {stored : ℕ} :
    (t.insertPositiveChild env fs dir name stored).dentries.length = t.dentries.length :=
  length_setChildren _

lemma inode_insertPositiveChild {stored : ℕ} :
    (t.insertPositiveChild env fs dir name stored).inode d = t.inode d := inode_setChildren _

lemma nameAndParent_insertPositiveChild {stored : ℕ} :
    (t.insertPositiveChild env fs dir name stored).nameAndParent d = t.nameAndParent d :=
  nameAndParent_setChildren _

/-! ### Growing trees -/

/-- Dentries are added below directories, and what is cached anew has the name and the parent that
it is cached under. -/
structure Extends (t t' : Tree) : Prop where
  length : t.dentries.length ≤ t'.dentries.length
  inode : ∀ d < t.dentries.length, t'.inode d = t.inode d
  nameAndParent : ∀ d < t.dentries.length, t'.nameAndParent d = t.nameAndParent d
  fresh : ∀ d, t.dentries.length ≤ d → d < t'.dentries.length →
    ∃ n p, t'.nameAndParent d = .named n p ∧ t'.isDir p ∧ p < d
  cached : ∀ d n c, (t'.children d).find n = some (.positive c) →
    (t.children d).find n = some (.positive c) ∨
      t'.nameAndParent c = .named n d ∧ c < t'.dentries.length

namespace Extends

lemma refl (t : Tree) : Extends t t :=
  ⟨le_rfl, fun _ _ => rfl, fun _ _ => rfl, fun _ hge hlt => absurd hlt (not_lt.mpr hge),
    fun _ _ _ h => .inl h⟩

lemma isDir_eq (h : Extends t t') (hd : d < t.dentries.length) : t'.isDir d = t.isDir d := by
  rw [Tree.isDir, Tree.isDir, h.inode d hd]

lemma isDir (h : Extends t t') (hd : t.isDir d) : t'.isDir d :=
  h.isDir_eq (lt_of_isDir hd) ▸ hd

lemma trans (h : Extends t t') (h' : Extends t' t'') : Extends t t'' := by
  refine ⟨h.length.trans h'.length, fun d hd => ?_, fun d hd => ?_, fun d hge hlt => ?_,
    fun d n c hfind => ?_⟩
  · exact (h'.inode d (hd.trans_le h.length)).trans (h.inode d hd)
  · exact (h'.nameAndParent d (hd.trans_le h.length)).trans (h.nameAndParent d hd)
  · by_cases hmid : d < t'.dentries.length
    · obtain ⟨n, p, hname, hdir, hp⟩ := h.fresh d hge hmid
      exact ⟨n, p, (h'.nameAndParent d hmid).trans hname, h'.isDir hdir, hp⟩
    · exact h'.fresh d (not_lt.mp hmid) hlt
  · rcases h'.cached d n c hfind with hfind | hnew
    · rcases h.cached d n c hfind with hfind | ⟨hname, hlt⟩
      · exact .inl hfind
      · exact .inr ⟨(h'.nameAndParent c hlt).trans hname, hlt.trans_le h'.length⟩
    · exact .inr hnew

/-- The cache of a directory changes. -/
lemma setChildren (hd : d < t.dentries.length) {children : DentryChildren}
    (h : ∀ n c, children.find n = some (.positive c) → (t.children d).find n = some (.positive c) ∨
      t.nameAndParent c = .named n d ∧ c < t.dentries.length) :
    Extends t (t.setChildren d children) := by
  refine ⟨(length_setChildren _).ge, fun _ _ => inode_setChildren _,
    fun _ _ => nameAndParent_setChildren _, fun d' hge hlt => ?_, fun d' n c hfind => ?_⟩
  · rw [length_setChildren] at hlt
    exact absurd hlt (not_lt.mpr hge)
  · rw [children_setChildren hd] at hfind
    rw [nameAndParent_setChildren, length_setChildren]
    split at hfind
    · next heq =>
      subst heq
      exact h n c hfind
    · exact .inl hfind

section

variable (hdir : t.isDir dir)

include hdir

/-- A new dentry below a directory. -/
lemma newNamed (inode : Inode) : Extends t (t.newNamed env inode name dir) := by
  have hnew := @getElem?_newNamed_self σ env t dir name inode
  have hold : ∀ d < t.dentries.length, (t.newNamed env inode name dir).dentries[d]? =
      t.dentries[d]? :=
    fun d hd => getElem?_newNamed inode hd
  refine ⟨?_, fun d hd => ?_, fun d hd => ?_, fun d hge hlt => ?_, fun d n c hfind => ?_⟩
  · rw [length_newNamed]
    exact le_succ _
  · rw [Tree.inode, Tree.inode, hold d hd]
  · rw [Tree.nameAndParent, Tree.nameAndParent, hold d hd]
  · rw [length_newNamed] at hlt
    obtain rfl : d = t.dentries.length := by omega
    refine ⟨name, dir, ?_, ?_, lt_of_isDir hdir⟩
    · rw [Tree.nameAndParent, hnew]
      rfl
    · rw [Tree.isDir, Tree.inode, hold dir (lt_of_isDir hdir)]
      exact hdir
  · left
    by_cases hd : d < t.dentries.length
    · rw [Tree.children, hold d hd] at hfind
      exact hfind
    · by_cases heq : d = t.dentries.length
      · rw [heq, Tree.children, hnew] at hfind
        cases hfind
      · rw [Tree.children, getElem?_eq_none (by rw [length_newNamed]; omega)] at hfind
        cases hfind

lemma insertPositiveChild (hc : t.nameAndParent c = .named name dir)
    (hlt : c < t.dentries.length) : Extends t (t.insertPositiveChild env fs dir name c) := by
  refine ⟨length_insertPositiveChild.ge, fun _ _ => inode_insertPositiveChild,
    fun _ _ => nameAndParent_insertPositiveChild, fun d hge hd => ?_, fun d n c' hfind => ?_⟩
  · rw [length_insertPositiveChild] at hd
    exact absurd hd (not_lt.mpr hge)
  · rw [nameAndParent_insertPositiveChild, length_insertPositiveChild]
    rcases children_insertPositiveChild hdir hfind with ⟨rfl, rfl, rfl⟩ | ⟨-, hfind⟩
    · exact .inr ⟨hc, hlt⟩
    · exact .inl hfind

lemma insertNewChild (inode : Inode) :
    Extends t (t.insertNewChild env fs dir name inode) ∧
      (t.insertNewChild env fs dir name inode).nameAndParent t.dentries.length = .named name dir ∧
      t.dentries.length < (t.insertNewChild env fs dir name inode).dentries.length := by
  have hnew : Extends t (t.newNamed env inode name dir) := newNamed hdir inode
  have hself : (t.newNamed env inode name dir).nameAndParent t.dentries.length =
      .named name dir := by
    rw [Tree.nameAndParent, getElem?_newNamed_self]
    rfl
  have hlt : t.dentries.length < (t.newNamed env inode name dir).dentries.length := by
    rw [length_newNamed]
    exact lt_succ_self _
  have hinsert : Extends (t.newNamed env inode name dir) (t.insertNewChild env fs dir name inode) :=
    insertPositiveChild (hnew.isDir hdir) hself hlt
  exact ⟨hnew.trans hinsert, (hinsert.nameAndParent _ hlt).trans hself, hlt.trans_le hinsert.length⟩

/-- An entry that is found is in the cache. -/
lemma findValid : Extends t (t.findValid env fs dir name).1 ∧
    ∀ entry, (t.findValid env fs dir name).2 = some entry →
      (t.findValid env fs dir name).1 = t ∧ (t.children dir).find name = some entry := by
  unfold Tree.findValid
  split
  · next entry hentry =>
    split
    · refine ⟨.refl t, fun entry' h => ⟨rfl, ?_⟩⟩
      exact hentry.trans h
    · refine ⟨setChildren (lt_of_isDir hdir) fun n c hfind => .inl ?_, fun entry h => by cases h⟩
      rw [DentryChildren.find_remove] at hfind
      split at hfind
      · cases hfind
      · exact hfind
  · exact ⟨.refl t, fun entry h => by cases h⟩

lemma lookupChild : Extends t (t.lookupChild env fs dir name).1 := by
  obtain ⟨hfind, -⟩ := @findValid σ env t fs dir name hdir
  unfold Tree.lookupChild
  split <;> rename_i heq <;> rw [heq] at hfind
  · exact hfind
  · exact hfind
  · split
    · exact hfind.trans (insertNewChild (hfind.isDir hdir) _).1
    · split
      · refine hfind.trans (setChildren (lt_of_isDir (hfind.isDir hdir)) fun n c hnow => .inl ?_)
        rw [DentryChildren.find_insertNegative] at hnow
        split at hnow
        · cases hnow
        · exact hnow
      · exact hfind

lemma validateChildAbsent : Extends t (t.validateChildAbsent env fs dir name).1 := by
  obtain ⟨hfind, -⟩ := @findValid σ env t fs dir name hdir
  unfold Tree.validateChildAbsent
  split <;> rename_i heq <;> rw [heq] at hfind
  · exact hfind
  · exact hfind
  · split
    · exact hfind.trans (insertNewChild (hfind.isDir hdir) _).1
    · split <;> exact hfind

lemma addChild (make : σ → σ × Except Error Inode) :
    Extends t (t.addChild env fs dir name make).1 := by
  have habsent := @validateChildAbsent σ env t fs dir name hdir
  unfold Tree.addChild
  split <;> rename_i heq <;> rw [heq] at habsent
  · exact habsent
  · split
    · exact habsent.trans (insertNewChild (habsent.isDir hdir) _).1
    · exact habsent

end

/-- Entries that become negative are no longer positive. -/
lemma delete (hd : d < t.dentries.length) :
    Extends t (t.setChildren d ((t.children d).delete name)) := by
  refine setChildren hd fun n c hfind => .inl ?_
  rw [DentryChildren.find_delete] at hfind
  split at hfind
  · obtain ⟨entry, -, hentry⟩ := map_eq_some_iff.mp hfind
    cases hentry
  · exact hfind

lemma removeFound (hdir : t.isDir dir) (child : Inode) (isCached : Bool)
    (removeChildFn : σ → Inode → Name → σ × Except Error Unit) :
    Extends t (t.removeFound env fs dir name child isCached removeChildFn).1 := by
  unfold Tree.removeFound
  split
  · exact .refl t
  · split
    · exact .refl t
    · dsimp only
      split
      · exact delete (lt_of_isDir hdir)
      · exact .refl t

lemma removeChild (hdir : t.isDir dir) (removeChildFn : σ → Inode → Name → σ × Except Error Unit) :
    Extends t (t.removeChild env fs dir name removeChildFn).1 := by
  obtain ⟨hfind, -⟩ := @findValid σ env t fs dir name hdir
  unfold Tree.removeChild
  split <;> rename_i heq <;> rw [heq] at hfind
  · split
    · exact hfind
    · split
      · exact hfind.trans (removeFound (hfind.isDir hdir) _ _ _)
      · exact hfind
  · split
    · exact hfind.trans (removeFound (hfind.isDir hdir) _ _ _)
    · exact hfind

lemma afterRemoval {r : Tree × σ × Except Error Inode} (h : Extends t r.1) :
    Extends t (Tree.afterRemoval env r).1 := by
  obtain ⟨t', fs', result⟩ := r
  cases result <;> exact h

/-- Every operation on one directory only adds to the tree. -/
lemma body (request : Request) (hdir : ∀ dir ∈ request.dirs, t.isDir dir) :
    Extends t (request.body env t fs).1 := by
  cases request with
  | lookupChild dir name => exact lookupChild (hdir dir (mem_singleton.mpr rfl))
  | createChild dir name =>
    change Extends t (t.createChild env fs dir name).1
    exact addChild (hdir dir (mem_singleton.mpr rfl)) _
  | mknod dir name type =>
    change Extends t (t.mknod env fs dir name type).1
    exact addChild (hdir dir (mem_singleton.mpr rfl)) _
  | link dir oldDentry name =>
    change Extends t (t.link env fs dir oldDentry name).1
    exact addChild (hdir dir (mem_singleton.mpr rfl)) _
  | unlink dir name =>
    change Extends t (t.unlink env fs dir name).1
    unfold Tree.unlink
    split
    · exact .refl t
    · exact afterRemoval (removeChild (hdir dir (mem_singleton.mpr rfl)) _)
  | rmdir dir name =>
    change Extends t (t.rmdir env fs dir name).1
    unfold Tree.rmdir
    split
    · exact .refl t
    · split
      · exact .refl t
      · exact afterRemoval (removeChild (hdir dir (mem_singleton.mpr rfl)) _)
  | rename r => exact .refl t

end Extends

/-! ### Trees -/

/-- The dentries have directories as their parents, only the root 0 has none, and the cached ones
are where they are cached.  When `strict` holds, all chains of parents end. -/
structure Ok (strict : Prop) (t : Tree) : Prop where
  nonempty : 0 < t.dentries.length
  root : ∀ d < t.dentries.length, t.parent d = none → d = 0
  parent_isDir : ∀ d p, t.parent d = some p → t.isDir p
  rooted : strict → ∀ d, Rooted t.parent d
  cached : ∀ d n c, (t.children d).find n = some (.positive c) → t.nameAndParent c = .named n d

lemma parent_eq_none (h : t.dentries.length ≤ d) : t.parent d = none := by
  rw [parent, nameAndParent, getElem?_eq_none h]
  rfl

lemma lt_of_parent (h : t.parent d = some c) : d < t.dentries.length := by
  by_contra hge
  rw [parent_eq_none (not_lt.mp hge)] at h
  cases h

lemma parent_of_named (h : t.nameAndParent c = .named name dir) : t.parent c = some dir :=
  congrArg NameAndParent.parent h

lemma lt_of_named (h : t.nameAndParent c = .named name dir) : c < t.dentries.length :=
  lt_of_parent (parent_of_named h)

lemma Ok.lt_of_below (h : t.Ok strict) (hd : d < t.dentries.length) (hbelow : Below t.parent d c) :
    c < t.dentries.length := by
  induction hbelow with
  | refl => exact hd
  | tail _ hp _ => exact lt_of_isDir (h.parent_isDir _ _ hp)

/-- What is above another dentry is a directory. -/
lemma Ok.isDir_of_below (h : t.Ok strict) (hbelow : Below t.parent d c) (hne : d ≠ c) :
    t.isDir c := by
  rcases hbelow.cases_tail with rfl | ⟨b, -, hp⟩
  · exact absurd rfl hne
  · exact h.parent_isDir b c hp

lemma Extends.parent (h : Extends t t') (hd : d < t.dentries.length) :
    t'.parent d = t.parent d := by
  rw [Tree.parent, Tree.parent, h.nameAndParent d hd]

lemma Extends.below (h : Extends t t') (hok : t.Ok strict) (hd : d < t.dentries.length) :
    Below t'.parent d c ↔ Below t.parent d c :=
  below_congr fun _ hbelow => h.parent (hok.lt_of_below hd hbelow)

lemma Ok.extend (hok : t.Ok strict) (h : Extends t t') : t'.Ok strict := by
  -- The chains of the old dentries are as before, and the parent of a new one is older than it.
  have hrooted : strict → ∀ d < t.dentries.length, Rooted t'.parent d := by
    intro hstrict d
    induction hok.rooted hstrict d with
    | intro d _ ih =>
      intro hd
      refine .intro d fun p hp => ?_
      rw [h.parent hd] at hp
      exact ih p hp (lt_of_isDir (hok.parent_isDir d p hp))
  refine ⟨hok.nonempty.trans_le h.length, fun d hd hnone => ?_, fun d p hp => ?_,
    fun hstrict d => ?_, fun d n c hfind => ?_⟩
  · by_cases hold : d < t.dentries.length
    · exact hok.root d hold ((h.parent hold).symm.trans hnone)
    · obtain ⟨n, p, hname, -⟩ := h.fresh d (not_lt.mp hold) hd
      rw [Tree.parent, hname] at hnone
      cases hnone
  · by_cases hold : d < t.dentries.length
    · exact h.isDir (hok.parent_isDir d p ((h.parent hold).symm.trans hp))
    · obtain ⟨n, p', hname, hdir, -⟩ := h.fresh d (not_lt.mp hold) (lt_of_parent hp)
      rw [Tree.parent, hname] at hp
      exact some.inj hp ▸ hdir
  · induction d using Nat.strong_induction_on with
    | _ d ih =>
      by_cases hold : d < t.dentries.length
      · exact hrooted hstrict d hold
      · refine .intro d fun p hp => ?_
        obtain ⟨n, p', hname, -, hlt⟩ := h.fresh d (not_lt.mp hold) (lt_of_parent hp)
        rw [Tree.parent, hname] at hp
        exact some.inj hp ▸ ih p' hlt
  · rcases h.cached d n c hfind with hfind | ⟨hname, -⟩
    · have hname := hok.cached d n c hfind
      exact (h.nameAndParent c (lt_of_named hname)).trans hname
    · exact hname

lemma Ok.insertNewChild (hok : t.Ok strict) {inode : Inode} (hdir : t.isDir dir) :
    (t.insertNewChild env fs dir name inode).Ok strict :=
  hok.extend (Extends.insertNewChild hdir inode).1

/-- A root alone. -/
lemma ok_newRoot (inode : Inode) : (newRoot env inode).Ok strict := by
  have hparent : ∀ d, (newRoot env inode).parent d = none := by
    intro d
    cases d with
    | zero => rfl
    | succ d => exact parent_eq_none (succ_le_succ (Nat.zero_le d))
  refine ⟨Nat.one_pos, fun d hd _ => lt_one_iff.mp hd, fun d p hp => ?_, fun _ d => ?_,
    fun d n c hfind => ?_⟩
  · rw [hparent] at hp
    cases hp
  · refine .intro d fun p hp => ?_
    rw [hparent] at hp
    cases hp
  · cases d with
    | zero | succ d => cases hfind

/-- A name that is resolved is the name of the dentry. -/
lemma Ok.resolveChildForRename {r : Tree × Except Error ℕ} (hok : t.Ok strict) (hdir : t.isDir dir)
    (hr : t.resolveChildForRename env fs dir name = r) :
    Extends t r.1 ∧ ∀ c, r.2 = .ok c → r.1.nameAndParent c = .named name dir := by
  obtain ⟨hfind, hentry⟩ := @Extends.findValid σ env t fs dir name hdir
  unfold Tree.resolveChildForRename at hr
  split at hr
  · next t₁ entry heq =>
    rw [heq] at hfind hentry
    obtain ⟨rfl, hcached⟩ := hentry entry rfl
    split at hr
    · subst hr
      exact ⟨.refl _, fun c hc => by cases hc⟩
    · split at hr
      · subst hr
        refine ⟨.refl _, fun c hc => ?_⟩
        cases hc
        exact hok.cached dir name _ hcached
      · subst hr
        exact ⟨.refl _, fun c hc => by cases hc⟩
  · next t₁ heq =>
    rw [heq] at hfind
    split at hr
    · next inode hlookup =>
      subst hr
      obtain ⟨hext, hname, -⟩ := @Extends.insertNewChild σ env t₁ fs dir name
        (hfind.isDir hdir) inode
      refine ⟨hfind.trans hext, fun c hc => ?_⟩
      cases hc
      exact hname
    · subst hr
      exact ⟨hfind, fun c hc => by cases hc⟩

/-! ### Updates -/

/-- Dentries change their names and parents, and everything that is cached is where it is cached. -/
structure Moves (t t' : Tree) (moved : List ℕ) : Prop where
  length : t'.dentries.length = t.dentries.length
  inode : ∀ d, t'.inode d = t.inode d
  other : ∀ d, d ∉ moved → t'.nameAndParent d = t.nameAndParent d
  cached : ∀ d n c, (t'.children d).find n = some (.positive c) → t'.nameAndParent c = .named n d

lemma Moves.isDir {moved : List ℕ} (h : Moves t t' moved) : t'.isDir d = t.isDir d := by
  rw [Tree.isDir, Tree.isDir, h.inode]

section Update

variable {r : Rename} {old new : ℕ}

section

variable (hok : t.Ok strict) (hold : t.nameAndParent old = .named r.oldName r.oldDir)

include hok hold

/-- A dentry gets the new name, over whatever had it. -/
lemma Ok.updateReplace (holdDir : t.isDir r.oldDir) (hnewDir : t.isDir r.newDir) :
    ∃ t', r.updateReplace env t fs old = some t' ∧ Moves t t' [old] ∧
      t'.nameAndParent old = .named r.newName r.newDir := by
  let t₁ := t.setChildren r.oldDir ((t.children r.oldDir).delete r.oldName)
  have hname : t₁.nameAndParent old = .named r.oldName r.oldDir :=
    (nameAndParent_setChildren _).trans hold
  obtain ⟨t₂, hset, hren⟩ := @exists_setNameAndParent t₁ r.oldDir r.newDir old r.newName
    r.oldName hname
  have hdir2 : t₂.isDir r.newDir := by
    rw [Tree.isDir, hren.inode, inode_setChildren]
    exact hnewDir
  refine ⟨t₂.insertPositiveChild env fs r.newDir r.newName old, ?_,
    ⟨?_, fun d => ?_, fun d hd => ?_, fun d n c hfind => ?_⟩, ?_⟩
  · unfold Rename.updateReplace
    change (t₁.setNameAndParent old r.newName r.newDir).bind _ = _
    rw [hset]
    rfl
  · rw [length_insertPositiveChild, hren.length]
    exact length_setChildren _
  · rw [inode_insertPositiveChild, hren.inode]
    exact inode_setChildren _
  · rw [nameAndParent_insertPositiveChild, hren.other d fun h => hd (mem_singleton.mpr h)]
    exact nameAndParent_setChildren _
  · rw [nameAndParent_insertPositiveChild]
    rcases children_insertPositiveChild hdir2 hfind with ⟨rfl, rfl, rfl⟩ | ⟨-, hcached⟩
    · exact hren.self
    · rw [hren.children, children_setChildren (lt_of_isDir holdDir)] at hcached
      -- The entry of the old name is not positive any more.
      have hbefore : (t.children d).find n = some (.positive c) ∧
          ¬ (d = r.oldDir ∧ n = r.oldName) := by
        split at hcached
        · next hd =>
          subst hd
          rw [DentryChildren.find_delete] at hcached
          split at hcached
          · obtain ⟨entry, -, hentry⟩ := map_eq_some_iff.mp hcached
            cases hentry
          · next hn => exact ⟨hcached, fun h => hn h.2⟩
        · next hd => exact ⟨hcached, fun h => hd h.1⟩
      have hc := hok.cached d n c hbefore.1
      have hne : c ≠ old := by
        rintro rfl
        rw [hold, NameAndParent.named.injEq] at hc
        exact hbefore.2 ⟨hc.2.symm, hc.1.symm⟩
      rw [hren.other c hne, nameAndParent_setChildren]
      exact hc
  · rw [nameAndParent_insertPositiveChild]
    exact hren.self

/-- Two dentries exchange their names and parents. -/
lemma Ok.updateExchange (hnew : t.nameAndParent new = .named r.newName r.newDir)
    (hne : ¬ (r.oldDir = r.newDir ∧ r.oldName = r.newName)) (holdDir : t.isDir r.oldDir)
    (hnewDir : t.isDir r.newDir) :
    ∃ t', r.updateExchange env t fs old new = some t' ∧ Moves t t' [old, new] ∧
      t'.nameAndParent old = .named r.newName r.newDir ∧
      t'.nameAndParent new = .named r.oldName r.oldDir := by
  have hdiff : new ≠ old := by
    rintro rfl
    rw [hold, NameAndParent.named.injEq] at hnew
    exact hne ⟨hnew.2, hnew.1⟩
  obtain ⟨t₁, hset1, hren1⟩ := @exists_setNameAndParent t r.oldDir r.newDir old r.newName
    r.oldName hold
  obtain ⟨t₂, hset2, hren2⟩ := @exists_setNameAndParent t₁ r.newDir r.oldDir new r.oldName r.newName
    ((hren1.other new hdiff).trans hnew)
  have hdir : ∀ d, t₂.isDir d = t.isDir d := fun d => by
    rw [Tree.isDir, Tree.isDir, hren2.inode, hren1.inode]
  have hself : t₂.nameAndParent old = .named r.newName r.newDir :=
    (hren2.other old hdiff.symm).trans hren1.self
  have hdir3 : (t₂.insertPositiveChild env fs r.newDir r.newName old).isDir r.oldDir := by
    rw [Tree.isDir, inode_insertPositiveChild]
    exact (hdir r.oldDir).trans holdDir
  refine ⟨(t₂.insertPositiveChild env fs r.newDir r.newName old).insertPositiveChild env fs r.oldDir
    r.oldName new, ?_, ⟨?_, fun d => ?_, fun d hd => ?_, fun d n c hfind => ?_⟩, ?_, ?_⟩
  · unfold Rename.updateExchange
    rw [hset1]
    change (t₁.setNameAndParent new r.oldName r.oldDir).bind _ = _
    rw [hset2]
    rfl
  · rw [length_insertPositiveChild, length_insertPositiveChild, hren2.length, hren1.length]
  · rw [inode_insertPositiveChild, inode_insertPositiveChild, hren2.inode, hren1.inode]
  · rw [nameAndParent_insertPositiveChild, nameAndParent_insertPositiveChild,
      hren2.other d fun h => hd (h ▸ mem_cons_of_mem _ mem_cons_self),
      hren1.other d fun h => hd (h ▸ mem_cons_self)]
  · rw [nameAndParent_insertPositiveChild, nameAndParent_insertPositiveChild]
    rcases children_insertPositiveChild hdir3 hfind with ⟨rfl, rfl, rfl⟩ | ⟨hnotOld, hfind⟩
    · exact hren2.self
    rcases children_insertPositiveChild ((hdir _).trans hnewDir) hfind with
      ⟨rfl, rfl, rfl⟩ | ⟨hnotNew, hfind⟩
    · exact hself
    rw [hren2.children, hren1.children] at hfind
    have hc := hok.cached d n c hfind
    have hcOld : c ≠ old := by
      rintro rfl
      rw [hold, NameAndParent.named.injEq] at hc
      exact hnotOld ⟨hc.2.symm, hc.1.symm⟩
    have hcNew : c ≠ new := by
      rintro rfl
      rw [hnew, NameAndParent.named.injEq] at hc
      exact hnotNew ⟨hc.2.symm, hc.1.symm⟩
    rw [hren2.other c hcNew, hren1.other c hcOld]
    exact hc
  · rw [nameAndParent_insertPositiveChild, nameAndParent_insertPositiveChild]
    exact hself
  · rw [nameAndParent_insertPositiveChild, nameAndParent_insertPositiveChild]
    exact hren2.self

end

end Update

/-! ### Walks -/

/-- A walk along a chain that ends takes finitely many rounds. -/
lemma isEqualOrDescendantOf_of_rooted (h : Rooted t.parent d) (ancestor : ℕ) :
    ∃ fuel b, t.isEqualOrDescendantOf ancestor fuel d = some b := by
  induction h with
  | intro d _ ih =>
    by_cases heq : d = ancestor
    · refine ⟨1, true, ?_⟩
      rw [isEqualOrDescendantOf, if_pos heq]
    · cases hp : t.parent d with
      | none =>
        refine ⟨1, false, ?_⟩
        rw [isEqualOrDescendantOf, if_neg heq, hp]
      | some p =>
        obtain ⟨fuel, b, hb⟩ := ih p hp
        refine ⟨fuel + 1, b, ?_⟩
        rw [isEqualOrDescendantOf, if_neg heq, hp]
        exact hb

/-- What a walk that ends has found. -/
lemma isEqualOrDescendantOf_eq_some {ancestor fuel : ℕ} {b : Bool}
    (h : t.isEqualOrDescendantOf ancestor fuel d = some b) :
    b = true ↔ Below t.parent d ancestor := by
  induction fuel generalizing d with
  | zero => cases h
  | succ fuel ih =>
    rw [isEqualOrDescendantOf] at h
    split at h
    · next heq =>
      subst heq
      cases h
      exact ⟨fun _ => .refl, fun _ => rfl⟩
    · next hne =>
      split at h
      · next p hp =>
        rw [ih h]
        refine ⟨fun hbelow => .head hp hbelow, fun hbelow => ?_⟩
        rcases hbelow.cases_head with rfl | ⟨p', hp', hrest⟩
        · exact absurd rfl hne
        · rw [hp, some.injEq] at hp'
          exact hp' ▸ hrest
      · next hnone =>
        cases h
        refine ⟨fun hfalse => absurd hfalse Bool.false_ne_true, fun hbelow => ?_⟩
        rcases hbelow.cases_head with rfl | ⟨p', hp', -⟩
        · exact absurd rfl hne
        · rw [hnone] at hp'
          cases hp'

lemma pathNameFrom_of_rooted (h : Rooted t.parent d) (bytes : List Byte) :
    ∃ fuel path, t.pathNameFrom fuel d bytes = some path := by
  induction h generalizing bytes with
  | intro d _ ih =>
    cases hp : t.parent d with
    | none =>
      refine ⟨1, bytes, ?_⟩
      rw [pathNameFrom, hp]
    | some p =>
      obtain ⟨fuel, path, hpath⟩ := ih p hp _
      refine ⟨fuel + 1, path, ?_⟩
      rw [pathNameFrom, hp]
      exact hpath

end Tree

end Asterinas.Vfs
