import Asterinas.Vfs.CacheAgreement
import Asterinas.Vfs.RenameTree

/-!
# Sequences of calls and the answers of a rename

Calls that are made one after the other keep the cache in agreement with the file system.

A rename looks whether both names have the same inode before it looks at its mode, and whether both
paths are the same before it looks whether they exist, so that its answer is not always the one of
the mode.
-/

namespace Asterinas.Vfs

open Framework Vfs.Tree Call Option

/-- The error number that a call fails with. -/
def Stage.errno : Stage → Option Errno
  | .done (.error error) => some error.errno
  | _ => none

namespace Rename

variable {σ : Type} {view : NameMaps σ} {env : Env σ} {fuel : ℕ} {fs : σ} {t : Tree} {r : Rename}

/-- The answer of a rename that no other call gets between. -/
def answer (env : Env σ) (fuel : ℕ) (t : Tree) (fs : σ) (r : Rename) : Stage :=
  (run env fuel (.rename r) 11 t fs .ready).2.2

/-- The paths are the same. -/
def SamePath (r : Rename) : Prop := r.oldDir = r.newDir ∧ r.oldName = r.newName

instance : Decidable r.SamePath := inferInstanceAs (Decidable (_ ∧ _))

/-- Nothing but the names and the mode decides the answer: the arguments are in order, the locks can
be taken, no mount is in the way, and the lookups fail for no other reason than an absent name. -/
structure Clear (r : Rename) (env : Env σ) (t : Tree) (fs : σ) : Prop where
  oldDir : t.isDir r.oldDir
  newDir : t.isDir r.newDir
  oldName : ¬ isDotOrDotdot r.oldName
  newName : ¬ isDotOrDotdot r.newName
  oldLength : r.oldName.1.length ≤ env.namelen
  newLength : r.newName.1.length ≤ env.namelen
  keys : r.oldDir ≠ r.newDir → t.key r.oldDir ≠ t.key r.newDir
  oldMount : ∀ c, t.entry r.oldDir r.oldName = some (.positive c) → env.isMountpoint c = false
  newMount : ∀ c, t.entry r.newDir r.newName = some (.positive c) → env.isMountpoint c = false
  oldLookup : ∀ error, env.lookup fs (t.inode r.oldDir) r.oldName = .error error →
    error.errno = .enoent
  newLookup : ∀ error, env.lookup fs (t.inode r.newDir) r.newName = .error error →
    error.errno = .enoent

section

variable (view : NameMaps σ) (t : Tree) (fs : σ) (r : Rename)

/-- What the maps have under the old name. -/
def oldInode : Option Inode :=
  view.maps fs (t.inode r.oldDir) r.oldName.1

/-- What the maps have under the new name. -/
def newInode : Option Inode :=
  view.maps fs (t.inode r.newDir) r.newName.1

end

lemma Clear.start_eq (h : r.Clear env t fs) :
    r.start env t =
      if r.SamePath then
        if r.mode =
          .noReplace then .done (.error (.withMessage .eexist "the new path already exists"))
        else .done (.ok ())
      else if r.oldDir = r.newDir then .locking [] [r.oldDir]
      else .readingOld (t.name r.oldDir) := by
  have hlength : ¬ (env.namelen < r.oldName.1.length ∨ env.namelen < r.newName.1.length) := by
    have := h.oldLength
    have := h.newLength
    omega
  unfold start
  rw [if_neg h.oldName, if_neg h.newName, if_neg hlength]
  by_cases hdir : r.oldDir = r.newDir
  · rw [if_pos hdir]
    by_cases hname : r.oldName = r.newName
    · rw [if_pos hname, if_pos ⟨hdir, hname⟩]
      cases r.mode with
      | _ => rfl
    · rw [if_neg hname, if_neg fun h => hname h.2, if_pos hdir]
  · rw [if_neg hdir, if_neg fun h => hdir h.1, if_neg hdir]

lemma Clear.step_ready (h : r.Clear env t fs) :
    step env fuel (fun _ => true) t fs ⟨.rename r, .ready⟩ = (t, fs, r.start env t) := by
  have hall : (Request.rename r).dirs.all t.isDir = true := by
    refine List.all_eq_true.mpr fun d hd => ?_
    rcases mem_dirs.mp hd with rfl | rfl
    · exact h.oldDir
    · exact h.newDir
  unfold step
  dsimp only
  rw [if_pos hall]

/-- The call gets its locks. -/
lemma Clear.run_locked (h : r.Clear env t fs) (hpath : ¬ r.SamePath) :
    ∃ n, 4 < n ∧ run env fuel (.rename r) 11 t fs .ready =
        run env fuel (.rename r) n t fs .locked := by
  by_cases hdir : r.oldDir = r.newDir
  · refine ⟨9, by omega, ?_⟩
    unfold run
    rw [h.step_ready, h.start_eq, if_neg hpath, if_pos hdir]
    rfl
  · refine ⟨5, by omega, ?_⟩
    unfold run
    rw [h.step_ready, h.start_eq, if_neg hpath, if_neg hdir]
    change run env fuel (.rename r) 7 t fs (r.order (t.key r.oldDir) (t.key r.newDir)) = _
    rcases order_spec (rfl : r.order (t.key r.oldDir) (t.key r.newDir) = _) with
      ⟨-, hkey⟩ | ⟨_, _, hlocking, -⟩
    · exact absurd hkey (h.keys hdir)
    · rw [hlocking]
      rfl

/-- A name is found or absent. -/
lemma resolve_answer {dir : ℕ} {result : Tree × Except Error ℕ} {name : Name}
    (hagrees : view.Agrees t fs) (hacts : view.Acts env) (hok : t.Ok True) (hdir : t.isDir dir)
    (hmount : ∀ c, t.entry dir name = some (.positive c) → env.isMountpoint c = false)
    (hlookup : ∀ error, env.lookup fs (t.inode dir) name = .error error → error.errno = .enoent)
    (hresult : t.resolveChildForRename env fs dir name = result) :
    (∃ c, result.2 = .ok c ∧ c < result.1.dentries.length ∧
        view.maps fs (t.inode dir) name.1 = some (result.1.inode c)) ∨
      ∃ error, result.2 = .error error ∧ error.errno = .enoent ∧
        view.maps fs (t.inode dir) name.1 = none := by
  obtain ⟨hext, hnamed⟩ := hok.resolveChildForRename hdir hresult
  obtain ⟨hagrees', -, hfound, habsent⟩ :=
    resolveChildForRename_agrees hagrees hacts hok hdir hresult
  obtain ⟨t₁, answer⟩ := result
  cases answer with
  | ok c =>
    have hmaps := hagrees'.positive dir name c (hfound c rfl)
    rw [hext.inode dir (lt_of_isDir hdir)] at hmaps
    exact .inl ⟨c, rfl, lt_of_named (hnamed c rfl), hmaps⟩
  | error error =>
    obtain ⟨hnone, hwhy⟩ := habsent error rfl
    have herrno : error.errno = .enoent := by
      rcases hwhy with herrno | ⟨c, hentry, hmountpoint⟩ | hfail
      · exact herrno
      · rw [hmount c hentry] at hmountpoint
        cases hmountpoint
      · exact hlookup _ hfail
    exact .inr ⟨error, rfl, herrno, hnone herrno⟩

/-- What the check of the mode finds is the answer. -/
lemma run_resolved {new : Option ℕ} {error : Error} {n old : ℕ}
    (h : r.checkRenameMode new = .error error) :
    (run env fuel (.rename r) (n + 1) t fs (.resolved old new)).2.2 = .done (.error error) := by
  change (run env fuel (.rename r) n t fs (r.check env t fs fuel old new)).2.2 = _
  unfold check
  rw [h]
  rw [run_done]

lemma Clear.answer_of_samePath (h : r.Clear env t fs) (fuel : ℕ) (hpath : r.SamePath) :
    r.answer env fuel t fs = if r.mode = .noReplace then
      .done (.error (.withMessage .eexist "the new path already exists")) else .done (.ok ()) := by
  unfold answer run
  rw [h.step_ready, h.start_eq, if_pos hpath]
  cases r.mode <;> rfl

section

variable (h : r.Clear env t fs) (hagrees : view.Agrees t fs) (hacts : view.Acts env)
    (hok : t.Ok True)

include h hagrees hacts hok

/-- The answer of a call whose paths differ: one of the names is absent, both have the same inode,
or the mode is checked. -/
lemma Clear.answer_cases (fuel : ℕ) (hpath : ¬ r.SamePath) :
    (r.oldInode view t fs = none ∧ (r.answer env fuel t fs).errno = some .enoent) ∨
      (r.oldInode view t fs ≠ none ∧ r.newInode view t fs = r.oldInode view t fs ∧
        r.answer env fuel t fs = .done (.ok ())) ∨
      (r.oldInode view t fs ≠ none ∧ r.newInode view t fs ≠ r.oldInode view t fs ∧
        ∃ n t' old new, new.isSome = (r.newInode view t fs).isSome ∧
          r.answer env fuel t fs =
              (run env fuel (.rename r) (n + 1) t' fs (.resolved old new)).2.2) := by
  obtain ⟨n, hn, hrun⟩ := @Clear.run_locked σ env fuel fs t r h hpath
  obtain ⟨n, rfl⟩ := Nat.exists_eq_add_of_lt hn
  have hanswer :
    r.answer env fuel t fs = (run env fuel (.rename r) (4 + n) (r.resolveOld env t fs).1 fs
      (r.resolveOld env t fs).2).2.2 := congrArg (fun state => state.2.2) hrun
  obtain ⟨hext, hnamed⟩ := hok.resolveChildForRename h.oldDir
    (rfl : t.resolveChildForRename env fs r.oldDir r.oldName = _)
  obtain ⟨hagrees1, hother, -, -⟩ := resolveChildForRename_agrees hagrees hacts hok h.oldDir
    (rfl : t.resolveChildForRename env fs r.oldDir r.oldName = _)
  have hold := resolve_answer hagrees hacts hok h.oldDir h.oldMount h.oldLookup rfl
  unfold resolveOld at hanswer
  generalize t.resolveChildForRename env fs r.oldDir r.oldName = first at *
  obtain ⟨t₁, answer₁⟩ := first
  rcases hold with ⟨old, rfl, hlt, hmaps⟩ | ⟨error, rfl, herrno, hmaps⟩
  · -- The second name is resolved in a tree where the place of the second name is as it was.
    have hinode : t₁.inode r.newDir = t.inode r.newDir := hext.inode _ (lt_of_isDir h.newDir)
    have hentry : t₁.entry r.newDir r.newName = t.entry r.newDir r.newName :=
      hother _ _ fun heq => hpath ⟨heq.1.symm, heq.2.symm⟩
    have hok1 := hok.extend hext
    have hnewDir := hext.isDir h.newDir
    obtain ⟨hext2, -⟩ := hok1.resolveChildForRename hnewDir
      (rfl : t₁.resolveChildForRename env fs r.newDir r.newName = _)
    have hnew := resolve_answer hagrees1 hacts hok1 hnewDir (hentry ▸ h.newMount)
      (hinode ▸ h.newLookup) rfl
    have hanswer2 : r.answer env fuel t fs = (run env fuel (.rename r) (3 + n)
        (r.resolveNew env t₁ fs old).1 fs (r.resolveNew env t₁ fs old).2).2.2 := by
      rw [hanswer, show 4 + n = 3 + n + 1 by omega]
      rfl
    unfold resolveNew at hanswer2
    generalize t₁.resolveChildForRename env fs r.newDir r.newName = second at *
    obtain ⟨t₂, answer₂⟩ := second
    have hsome : r.oldInode view t fs = some (t₁.inode old) := hmaps
    have hnewInode : r.newInode view t fs = view.maps fs (t₁.inode r.newDir) r.newName.1 := by
      rw [newInode, hinode]
    have hold2 : t₂.inode old = t₁.inode old := hext2.inode old hlt
    rw [hsome]
    rcases hnew with ⟨new, rfl, -, hmaps2⟩ | ⟨error, rfl, herrno, hmaps2⟩
    · rw [hnewInode.trans hmaps2]
      dsimp only at hanswer2
      rw [hold2] at hanswer2
      by_cases heq : t₁.inode old = t₂.inode new
      · rw [if_pos heq, run_done] at hanswer2
        exact .inr (.inl ⟨some_ne_none _, by rw [heq], hanswer2⟩)
      · rw [if_neg heq, show 3 + n = 2 + n + 1 by omega] at hanswer2
        exact .inr (.inr ⟨some_ne_none _, fun h => heq (some.inj h).symm, 2 + n, t₂, old,
          some new, rfl, hanswer2⟩)
    · rw [hnewInode.trans hmaps2]
      dsimp only at hanswer2
      rw [if_pos herrno, show 3 + n = 2 + n + 1 by omega] at hanswer2
      exact .inr (.inr ⟨some_ne_none _, (some_ne_none _).symm, 2 + n, t₂, old, none, rfl,
        hanswer2⟩)
  · dsimp only at hanswer
    rw [run_done] at hanswer
    refine .inl ⟨hmaps, ?_⟩
    rw [hanswer, Stage.errno, herrno]

/-- A call that may not replace fails with `EEXIST` when both names exist, unless they have the same
inode. -/
lemma Clear.noReplace_answer (hmode : r.mode = .noReplace) (hnew : r.newInode view t fs ≠ none) :
    (r.answer env fuel t fs).errno = some .eexist ↔ r.oldInode view t fs ≠ none ∧
      (r.SamePath ∨ r.oldInode view t fs ≠ r.newInode view t fs) := by
  by_cases hpath : r.SamePath
  · have hold : r.oldInode view t fs ≠ none := by
      rw [oldInode, hpath.1, hpath.2]
      exact hnew
    rw [h.answer_of_samePath fuel hpath, if_pos hmode]
    exact iff_of_true rfl ⟨hold, .inl hpath⟩
  · rcases h.answer_cases hagrees hacts hok fuel hpath with
      ⟨hold, herrno⟩ | ⟨hold, heq, hdone⟩ | ⟨hold, hne, n, t', old, new, hsome, hanswer⟩
    · rw [herrno]
      refine iff_of_false (fun heq => ?_) fun hcond => hcond.1 hold
      cases heq
    · rw [hdone]
      refine iff_of_false (fun h => ?_) fun hcond => hcond.2.elim hpath fun hne => hne heq.symm
      cases h
    · have hcheck : r.checkRenameMode new =
          .error (.withMessage .eexist "the new path already exists") := by
        unfold checkRenameMode
        rw [if_pos ⟨hmode, hsome ▸ isSome_iff_ne_none.mpr hnew⟩]
      rw [hanswer, run_resolved hcheck]
      exact iff_of_true rfl ⟨hold, .inr hne.symm⟩

/-- A call that exchanges fails with `ENOENT` when the new name is absent, unless both paths are the
same. -/
lemma Clear.exchange_answer (hmode : r.mode = .exchange) (hnew : r.newInode view t fs = none) :
    (r.answer env fuel t fs).errno = some .enoent ↔ ¬ r.SamePath := by
  by_cases hpath : r.SamePath
  · rw [h.answer_of_samePath fuel hpath, hmode]
    refine iff_of_false (fun heq => ?_) (not_not_intro hpath)
    cases heq
  · rcases h.answer_cases hagrees hacts hok fuel hpath with
      ⟨-, herrno⟩ | ⟨hold, heq, -⟩ | ⟨-, -, n, t', old, new, hsome, hanswer⟩
    · exact iff_of_true herrno hpath
    · exact absurd (heq.symm.trans hnew) hold
    · have hcheck : r.checkRenameMode new =
          .error (.withMessage .enoent "the new path does not exist") := by
        have hnone : new.isNone = true := by
          rw [hnew] at hsome
          exact isSome_eq_false_iff.mp hsome
        unfold checkRenameMode
        rw [if_neg (fun hno => by rw [hmode] at hno; cases hno.1), if_pos ⟨hmode, hnone⟩]
      rw [hanswer, run_resolved hcheck]
      exact iff_of_true rfl hpath

end

end Rename

/-! ### Sequences of calls -/

namespace NameMaps

variable {σ : Type} {view : NameMaps σ} {t : Tree} {fs : σ}

/-- A file system whose root has no name and whose directories have one at most. -/
structure Mountable (view : NameMaps σ) (root : Inode) (fs : σ) : Prop where
  root_type : root.type = .dir
  root_made : root ∈ view.made fs
  root_unnamed : ∀ dir n, view.maps fs dir n ≠ some root
  entry_made : ∀ dir n inode, inode.type = .dir → view.maps fs dir n = some inode →
    inode ∈ view.made fs
  once : ∀ dir dir' n n' inode, inode.type = .dir → view.maps fs dir n = some inode →
    view.maps fs dir' n' = some inode → dir = dir' ∧ n = n'

/-- The trees and the file systems that are reached by calls, made one after the other, that meet a
condition. -/
inductive Reached (view : NameMaps σ) (P : Env σ → Tree → σ → Request → Prop) : Tree → σ → Prop
  | mount (env : Env σ) {root : Inode} {fs : σ} : view.Acts env → view.Mountable root fs →
      Reached view P (Tree.newRoot env root) fs
  | call {t : Tree} {fs : σ} (env : Env σ) (fuel : ℕ) (request : Request) (n : ℕ) :
    Reached view P t fs →
      view.Acts env → P env t fs request → ¬ (run env fuel request n t fs .ready).2.2.Active →
      Reached view P (run env fuel request n t fs .ready).1 (run env fuel request n t fs .ready).2.1

lemma Mountable.agrees {env : Env σ} {root : Inode} (hacts : view.Acts env)
    (h : view.Mountable root fs) : view.Agrees (Tree.newRoot env root) fs := by
  have hget : ∀ d, (Tree.newRoot env root).dentries[d]? =
      if d = 0 then some ⟨root, .root, .new, env.revalidationPolicy root⟩ else none := by
    intro d
    cases d with
    | zero | succ d => rfl
  have hentry : ∀ {d n entry}, (Tree.newRoot env root).entry d n ≠ some entry := by
    intro d n entry
    rw [Tree.entry, Tree.children, hget]
    split <;> (intro hfind; cases hfind)
  have hzero : ∀ d, (Tree.newRoot env root).isDir d → d = 0 := by
    intro d hd
    exact Nat.lt_one_iff.mp (lt_of_isDir hd)
  refine ⟨fun d => ?_, fun _ _ _ hfind => absurd hfind hentry, fun _ _ _ hfind =>
    absurd hfind hentry, fun _ _ hfind => absurd hfind hentry, fun d d' hd hd' _ =>
    (hzero d hd).trans (hzero d' hd').symm, h.once, fun d dir n hd hmaps => ?_, fun d hd => ?_,
    h.entry_made⟩
  · rw [Tree.revalidationPolicy, hget]
    split
    · exact hacts.policy root
    · rfl
  · rw [hzero d hd] at hmaps
    exact absurd hmaps (h.root_unnamed dir n)
  · rw [hzero d hd]
    exact h.root_made

/-- No call gives a directory a second name. -/
def NoDirLinks (env : Env σ) (t : Tree) (fs : σ) (request : Request) : Prop :=
  ¬ request.LinksDir env t fs

lemma Reached.agrees (h : view.Reached NoDirLinks t fs) : t.Ok True ∧ view.Agrees t fs := by
  induction h with
  | mount env hacts hmount => exact ⟨ok_newRoot _, hmount.agrees hacts⟩
  | @call t fs env fuel request n _ hacts hlink hover ih =>
    have hstart : Call.Agrees view t fs ⟨request, .ready⟩ := by
      cases request with
      | _ => exact ih.2
    obtain ⟨hok, hagrees⟩ := run_agrees n hacts hstart ih.1 (ok_of_not_active id) (.inr hlink)
      (rfl : run env fuel request n t fs .ready = _)
    refine ⟨hok, ?_⟩
    generalize (run env fuel request n t fs .ready).2.2 = stage at hagrees hover
    cases stage with
    | ready | done result | panicked => exact hagrees
    | _ => exact absurd trivial hover

/-- After every sequence of calls in which no directory gets a second name, the positive entries of
the cache are what the maps have, the negative ones are absent, the cached dentries have the name
and the parent they are cached under, and none is cached twice.  A rename that may not replace fails
with `EEXIST` when both names exist if and only if they have different inodes or the paths are the
same, and one that exchanges fails with `ENOENT` when the new name is absent if and only if the
paths differ. -/
theorem cache_agrees_with_names (h : view.Reached NoDirLinks t fs) :
    (∀ d n c, t.entry d n = some (.positive c) →
      view.maps fs (t.inode d) n.1 = some (t.inode c) ∧ t.nameAndParent c = .named n d) ∧
    (∀ d n, t.entry d n = some .negative → view.maps fs (t.inode d) n.1 = none) ∧
    (∀ d n d' n' c, t.entry d n = some (.positive c) → t.entry d' n' = some (.positive c) →
      d = d' ∧ n = n') ∧
    ∀ env fuel (r : Rename), view.Acts env → r.Clear env t fs →
      (r.mode = .noReplace → r.newInode view t fs ≠ none →
        ((r.answer env fuel t fs).errno = some .eexist ↔ r.oldInode view t fs ≠ none ∧
          (r.SamePath ∨ r.oldInode view t fs ≠ r.newInode view t fs))) ∧
      (r.mode = .exchange → r.newInode view t fs = none →
        ((r.answer env fuel t fs).errno = some .enoent ↔ ¬ r.SamePath)) := by
  obtain ⟨hok, hagrees⟩ := h.agrees
  refine ⟨fun d n c hfind => ⟨hagrees.positive d n c hfind, hok.cached d n c hfind⟩,
    hagrees.negative, fun d n d' n' c hfind hfind' => ?_, fun env fuel r hacts hclear => ⟨?_, ?_⟩⟩
  · have hname := (hok.cached d n c hfind).symm.trans (hok.cached d' n' c hfind')
    obtain ⟨hn, hd⟩ := NameAndParent.named.inj hname
    exact ⟨hd, hn⟩
  · exact hclear.noReplace_answer hagrees hacts hok
  · exact hclear.exchange_answer hagrees hacts hok

/-! ### A file system of maps -/

/-- The maps and the number of the next inode. -/
abbrev MapsFs := Maps × ℕ

/-- The file system that keeps its maps as they are, and refuses nothing. -/
def mapsFs : Env MapsFs where
  namelen := 255
  isMountpoint _ := false
  lookup fs dir name := (fs.1 dir name.1).elim (.error (.new .enoent)) .ok
  revalidationPolicy _ := ⟨false, false⟩
  revalidateExists _ _ _ _ := true
  revalidateAbsent _ _ _ := true
  hasStickyBit _ _ := .ok false
  checkStickyBitPermission _ _ _ := .ok ()
  checkWritePermission _ _ := .ok ()
  mknodCapable := .ok ()
  metadata _ _ := .ok ()
  create fs dir name := ((fs.1.set dir name.1 (some ⟨fs.2, .file⟩), fs.2 + 1), .ok ⟨fs.2, .file⟩)
  mknod fs dir name type := ((fs.1.set dir name.1 (some ⟨fs.2, type⟩), fs.2 + 1), .ok ⟨fs.2, type⟩)
  link fs dir old name := ((fs.1.set dir name.1 (some old), fs.2), .ok ())
  unlink fs dir name := ((fs.1.set dir name.1 none, fs.2), .ok ())
  rmdir fs dir name := ((fs.1.set dir name.1 none, fs.2), .ok ())
  rename fs oldDir oldName newDir newName mode :=
    (((fs.1.set oldDir oldName (if mode = .exchange then fs.1 newDir newName.1 else none)).set
      newDir newName.1 (fs.1 oldDir oldName), fs.2), .ok ())

/-- The maps, and the inodes whose numbers are taken. -/
def mapsView : NameMaps MapsFs where
  maps fs := fs.1
  made fs := Set.preimage Inode.ptr (Set.Iio fs.2)

lemma mapsFs_makes (fs : MapsFs) (dir : Inode) (name : Name) (type : InodeType) :
    mapsView.Makes fs dir name
      ((fs.1.set dir name.1 (some ⟨fs.2, type⟩), fs.2 + 1), .ok ⟨fs.2, type⟩) :=
  ⟨rfl, fun _ hlt => Nat.lt_succ_of_lt hlt, fun hlt => Nat.lt_irrefl _ hlt, Nat.lt_succ_self _⟩

lemma mapsFs_acts : mapsView.Acts mapsFs where
  policy _ := rfl
  lookup_ok fs dir name inode h := by
    change (fs.1 dir name.1).elim _ _ = _ at h
    change fs.1 dir name.1 = _
    cases hmaps : fs.1 dir name.1 with
    | none =>
      rw [hmaps] at h
      cases h
    | some found =>
      rw [hmaps] at h
      exact congrArg some (Except.ok.inj h)
  lookup_enoent fs dir name error h _ := by
    change (fs.1 dir name.1).elim _ _ = _ at h
    change fs.1 dir name.1 = _
    cases hmaps : fs.1 dir name.1 with
    | none => rfl
    | some found =>
      rw [hmaps] at h
      cases h
  create fs dir name := mapsFs_makes fs dir name .file
  mknod := mapsFs_makes
  link _ _ _ _ := ⟨rfl, rfl⟩
  unlink _ _ _ := ⟨rfl, rfl⟩
  rmdir _ _ _ := ⟨rfl, rfl⟩
  rename _ _ _ _ _ _ := ⟨rfl, rfl⟩

lemma mapsFs_mountable : mapsView.Mountable ⟨0, .dir⟩ (fun _ _ => none, 1) where
  root_type := rfl
  root_made := Nat.zero_lt_one
  root_unnamed _ _ h := by cases h
  entry_made _ _ _ _ h := by cases h
  once _ _ _ _ _ _ h := by cases h

/-- The tree and the file system after a call. -/
def after (request : Request) (state : Tree × MapsFs) : Tree × MapsFs :=
  let result := run mapsFs 0 request 11 state.1 state.2 .ready
  (result.1, result.2.1)

/-- The tree and the file system when nothing has been called. -/
def mounted : Tree × MapsFs := (Tree.newRoot mapsFs ⟨0, .dir⟩, (fun _ _ => none, 1))

open World (letter)

/-- The file `a` with the hard link `b`. -/
def hardLinked : Tree × MapsFs :=
  after (.link 0 1 (letter 1)) (after (.createChild 0 (letter 0)) mounted)

/-- The directory `d` with the second name `e`; `x` is looked up in `e` and made in `d`. -/
def dirLinked : Tree × MapsFs :=
  after (.createChild 1 (letter 23)) (after (.lookupChild 2 (letter 23))
    (after (.link 0 1 (letter 4)) (after (.mknod 0 (letter 3) .dir) mounted)))

section

variable {P : Env MapsFs → Tree → MapsFs → Request → Prop} {state : Tree × MapsFs}

lemma reached_after (request : Request) (h : mapsView.Reached P state.1 state.2)
    (hP : P mapsFs state.1 state.2 request)
    (hover : ¬ (run mapsFs 0 request 11 state.1 state.2 .ready).2.2.Active) :
    mapsView.Reached P (after request state).1 (after request state).2 :=
  .call mapsFs 0 request 11 h mapsFs_acts hP hover

lemma mounted_reached : mapsView.Reached P mounted.1 mounted.2 :=
  .mount mapsFs mapsFs_acts mapsFs_mountable

lemma hardLinked_reached (hP : ∀ t fs request, NoDirLinks mapsFs t fs request →
    P mapsFs t fs request) : mapsView.Reached P hardLinked.1 hardLinked.2 := by
  refine reached_after _ (reached_after _ mounted_reached ?_ id) ?_ id
  · exact hP _ _ _ id
  · exact hP _ _ _ fun hlink => Bool.false_ne_true hlink.1

end

/-- `a` to `b`, which must not exist. -/
def renameOntoLink : Rename := ⟨0, letter 0, 0, letter 1, .noReplace⟩

/-- `c` in exchange for itself. -/
def exchangeAbsent : Rename := ⟨0, letter 2, 0, letter 2, .exchange⟩

lemma renameOntoLink_clear : renameOntoLink.Clear mapsFs hardLinked.1 hardLinked.2 where
  oldDir := by decide
  newDir := by decide
  oldName := by decide
  newName := by decide
  oldLength := by decide
  newLength := by decide
  keys hne := absurd rfl hne
  oldMount _ _ := rfl
  newMount _ _ := rfl
  oldLookup error h := by cases h
  newLookup error h := by cases h

/-- A rename that may not replace succeeds although the new name exists, an exchange succeeds
although the new name is absent, and a name is absent in the cache of a directory with two names
that has been made. -/
theorem rename_answers_against_mode :
    (mapsView.Reached (fun _ _ _ _ => True) hardLinked.1 hardLinked.2 ∧
      renameOntoLink.Clear mapsFs hardLinked.1 hardLinked.2 ∧
      renameOntoLink.newInode mapsView hardLinked.1 hardLinked.2 = some ⟨1, .file⟩ ∧
      renameOntoLink.answer mapsFs 0 hardLinked.1 hardLinked.2 = .done (.ok ())) ∧
    (exchangeAbsent.newInode mapsView hardLinked.1 hardLinked.2 = none ∧
      exchangeAbsent.answer mapsFs 0 hardLinked.1 hardLinked.2 = .done (.ok ())) ∧
    (mapsView.Reached (fun _ _ _ _ => True) dirLinked.1 dirLinked.2 ∧
      dirLinked.1.entry 2 (letter 23) = some .negative ∧
      mapsView.maps dirLinked.2 (dirLinked.1.inode 2) (letter 23).1 = some ⟨2, .file⟩) := by
  refine ⟨⟨hardLinked_reached fun _ _ _ _ => trivial, renameOntoLink_clear, by decide, rfl⟩,
    ⟨by decide, rfl⟩, ?_, by decide, by decide⟩
  refine reached_after _
    (reached_after _ (reached_after _ (reached_after _ mounted_reached ?_ id) ?_ id)
    ?_ id) ?_ id
  all_goals trivial

theorem cache_agrees_with_names_of_hardLinked :
    hardLinked.1.entry 0 (letter 1) = some (.positive 2) ∧ hardLinked.1.nameAndParent 2 =
      .named (letter 1) 0 ∧
      (renameOntoLink.answer mapsFs 0 hardLinked.1 hardLinked.2).errno ≠ some .eexist := by
  have hcached : hardLinked.1.entry 0 (letter 1) = some (.positive 2) := by decide
  obtain ⟨hpositive, -, -, hanswers⟩ :=
    cache_agrees_with_names (hardLinked_reached fun _ _ _ hlink => hlink)
  have hanswer := (hanswers mapsFs 0 renameOntoLink mapsFs_acts renameOntoLink_clear).1 rfl
    (by decide)
  refine ⟨hcached, (hpositive 0 (letter 1) 2 hcached).2, fun herrno => ?_⟩
  rcases (hanswer.mp herrno).2 with hpath | hne
  · exact absurd hpath (by decide)
  · exact absurd hne (by decide)

end NameMaps

end Asterinas.Vfs
