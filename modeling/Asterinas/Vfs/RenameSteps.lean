import Asterinas.Vfs.TreeInvariant

/-!
# Interleaved calls

The calls of any number of tasks, in any interleaving of their steps, over a file system that may
answer anything.  A dentry that a call has resolved stays where it was resolved, because the call
holds the lock of its directory.
-/

namespace Asterinas.Vfs

open Framework Function Vfs.Tree List Option

/-- The dentries and the calls that were made. -/
structure World where
  tree : Tree
  calls : List Call

namespace World

/-- No call holds the lock of the children of the directory. -/
def free (w : World) (dir : ℕ) : Bool := w.calls.all fun c => !c.holds.contains dir

/-- A call is made, or one makes its next step, where the answers of its surroundings are any. -/
inductive Event
  | start (request : Request)
  | step (i : ℕ) (env : Env Unit) (fuel : ℕ)

/-- The world after an event. -/
def step (w : World) : Event → World
  | .start request => { w with calls := w.calls ++ [⟨request, .ready⟩] }
  | .step i env fuel =>
    match w.calls[i]? with
    | some c =>
      let (tree, _, stage) := c.step env fuel w.free w.tree ()
      ⟨tree, w.calls.set i { c with stage := stage }⟩
    | none => w

/-- The worlds that are reached from a tree by events that meet a condition. -/
inductive Reached (P : World → Event → Prop) : World → Prop
  | init {t : Tree} : t.Ok True → Reached P ⟨t, []⟩
  | step {w : World} (e : Event) : Reached P w → P w e → Reached P (w.step e)

end World

/-! ### Calls -/

/-- The call has started and is not over. -/
def Stage.Active : Stage → Prop
  | ready | done _ | panicked => False
  | _ => True

namespace Rename

section

variable (r : Rename) (t : Tree) (old : ℕ) (new : Option ℕ)

/-- The dentries are where the call has resolved them. -/
def Located : Prop :=
  t.nameAndParent old = .named r.oldName r.oldDir ∧
    ∀ n, new = some n → t.nameAndParent n = .named r.newName r.newDir

/-- What the cycle check has found. -/
def NoCycle : Prop :=
  (t.isDir old → ¬ Below t.parent r.newDir old) ∧
    (r.mode = .exchange → ∀ n, new = some n → t.isDir n → ¬ Below t.parent r.oldDir n)

/-- A directory gets another parent. -/
def MovesDir : Prop :=
  r.oldDir ≠ r.newDir ∧ (t.isDir old ∨ r.mode = .exchange ∧ ∃ n, new = some n ∧ t.isDir n)

end

/-- What holds of a rename at each stage; when `strict` holds, what the cycle check has found
too. -/
def StageOk (strict : Prop) (r : Rename) (t : Tree) : Stage → Prop
  | .resolvedOld old => t.nameAndParent old = .named r.oldName r.oldDir
  | .resolved old new => r.Located t old new
  | .checked old new | .renamed old new =>
    r.Located t old new ∧ (r.mode = .exchange → new ≠ none) ∧
      (strict → r.oldDir ≠ r.newDir → r.NoCycle t old new)
  | _ => True

end Rename

namespace Call

variable {strict : Prop} {t t' : Tree} {c : Call}

/-- What holds of a call. -/
structure Ok (strict : Prop) (t : Tree) (c : Call) : Prop where
  isDir : c.stage.Active → ∀ d ∈ c.request.dirs, t.isDir d
  locking : ∀ held todo, c.stage = .locking held todo →
    ∀ d, d ∈ held ∨ d ∈ todo ↔ d ∈ c.request.dirs
  differ : c.stage.Active → ∀ r, c.request = .rename r →
    ¬ (r.oldDir = r.newDir ∧ r.oldName = r.newName)
  stage : ∀ r, c.request = .rename r → r.StageOk strict t c.stage

/-- The call has checked that it makes no cycle, moves a directory, and has not done so yet. -/
def Moving (t : Tree) (c : Call) : Prop :=
  ∃ r old new, c.request = .rename r ∧ (c.stage = .checked old new ∨ c.stage = .renamed old new) ∧
    r.MovesDir t old new

lemma ok_of_not_active (h : ¬ c.stage.Active) : c.Ok strict t := by
  refine ⟨fun hactive => absurd hactive h, fun held todo hstage => ?_, fun hactive =>
    absurd hactive h, fun r _ => ?_⟩
  · rw [hstage] at h
    exact absurd trivial h
  · cases hstage : c.stage with
    | ready => trivial
    | done result => trivial
    | panicked => trivial
    | _ =>
      rw [hstage] at h
      exact absurd trivial h

end Call

variable {r : Rename}

lemma Rename.Located.extend {old : ℕ} {new : Option ℕ} {t t' : Tree}
    (h : r.Located t old new) (hext : t.Extends t') : r.Located t' old new := by
  refine ⟨(hext.nameAndParent old (lt_of_named h.1)).trans h.1, fun n hn => ?_⟩
  have hname := h.2 n hn
  exact (hext.nameAndParent n (lt_of_named hname)).trans hname

lemma Rename.NoCycle.extend {t t' : Tree} {old : ℕ} {strict : Prop} {new : Option ℕ}
    (h : r.NoCycle t old new) (hlocated : r.Located t old new) (hok : t.Ok strict)
    (hext : t.Extends t') (hold : t.isDir r.oldDir) (hnew : t.isDir r.newDir) :
    r.NoCycle t' old new := by
  refine ⟨fun hdir => ?_, fun hmode n hn hdir => ?_⟩
  · rw [hext.below hok (lt_of_isDir hnew)]
    exact h.1 (hext.isDir_eq (lt_of_named hlocated.1) ▸ hdir)
  · rw [hext.below hok (lt_of_isDir hold)]
    exact h.2 hmode n hn (hext.isDir_eq (lt_of_named (hlocated.2 n hn)) ▸ hdir)

lemma Rename.mem_dirs {d : ℕ} : d ∈ r.dirs ↔ d = r.oldDir ∨ d = r.newDir := by
  unfold dirs
  split
  · next h => rw [mem_singleton, ← h, or_self_iff]
  · rw [mem_cons, mem_singleton]

lemma Rename.oldDir_mem (r : Rename) : r.oldDir ∈ r.dirs := mem_dirs.mpr (.inl rfl)

lemma Rename.newDir_mem (r : Rename) : r.newDir ∈ r.dirs := mem_dirs.mpr (.inr rfl)

/-- What a rename has resolved and found, when the tree changes: the dentries matter while it holds
its directories, and the cycle check until the update is made. -/
lemma Rename.StageOk.imp {t t' : Tree} {stage : Stage} {strict : Prop}
    (h : r.StageOk strict t stage)
    (hlocated : Call.holds ⟨.rename r, stage⟩ = r.dirs → ∀ old new, r.Located t old new →
      r.Located t' old new)
    (hcycle : ∀ old new, stage = .checked old new ∨ stage = .renamed old new → r.Located t old new →
      strict → r.oldDir ≠ r.newDir → r.NoCycle t old new → r.NoCycle t' old new) :
    r.StageOk strict t' stage := by
  cases stage with
  | resolvedOld old => exact (hlocated rfl old none ⟨h, fun n hn => by cases hn⟩).1
  | resolved old new => exact hlocated rfl old new h
  | checked old new =>
    exact ⟨hlocated rfl old new h.1, h.2.1, fun hs hne => hcycle old new (.inl rfl) h.1 hs hne
      (h.2.2 hs hne)⟩
  | renamed old new =>
    exact ⟨hlocated rfl old new h.1, h.2.1, fun hs hne => hcycle old new (.inr rfl) h.1 hs hne
      (h.2.2 hs hne)⟩
  | _ => trivial

namespace Call

variable {strict : Prop} {t t' : Tree} {c : Call}

/-- A call does not notice when the tree grows. -/
lemma Ok.extend (h : c.Ok strict t) (hok : t.Ok strict) (hext : t.Extends t') : c.Ok strict t' := by
  refine ⟨fun hactive d hd => hext.isDir (h.isDir hactive d hd), h.locking, h.differ,
    fun r hr => ?_⟩
  refine (h.stage r hr).imp (fun _ _ _ hlocated => hlocated.extend hext) ?_
  intro old new hchecked hlocated _ _ hcycle
  have hdirs := h.isDir (by rcases hchecked with hc | hc <;> rw [hc] <;> trivial)
  rw [hr] at hdirs
  exact hcycle.extend hlocated hok hext (hdirs _ r.oldDir_mem) (hdirs _ r.newDir_mem)

/-- The dentries of a call that has resolved both names. -/
lemma Ok.located {old : ℕ} {new : Option ℕ} (h : c.Ok strict t) (hr : c.request = .rename r)
    (hstage : c.stage = .checked old new ∨ c.stage = .renamed old new ∨ c.stage =
    .resolved old new) :
    r.Located t old new := by
  have hok := h.stage r hr
  rcases hstage with hstage | hstage | hstage <;> rw [hstage] at hok
  · exact hok.1
  · exact hok.1
  · exact hok

end Call

lemma Rename.MovesDir.of_extend {t' t : Tree} {old : ℕ} {new : Option ℕ}
    (h : r.MovesDir t' old new) (hlocated : r.Located t old new) (hext : t.Extends t') :
    r.MovesDir t old new := by
  refine ⟨h.1, ?_⟩
  rcases h.2 with hdir | ⟨hmode, n, hn, hdir⟩
  · exact .inl (hext.isDir_eq (lt_of_named hlocated.1) ▸ hdir)
  · exact .inr ⟨hmode, n, hn, hext.isDir_eq (lt_of_named (hlocated.2 n hn)) ▸ hdir⟩

/-! ### The update of the dentries -/

namespace Tree

variable {strict : Prop} {t t' : Tree} {moved : List ℕ} {r : Rename} {old n d : ℕ} {new : Option ℕ}

lemma Moves.parent (h : Moves t t' moved) (hd : d ∉ moved) : t'.parent d = t.parent d := by
  rw [Tree.parent, Tree.parent, h.other d hd]

lemma Ok.move (hok : t.Ok strict) (h : Moves t t' moved)
    (hmoved : ∀ d ∈ moved, ∃ p, t'.parent d = some p ∧ t.isDir p)
    (hrooted : strict → ∀ d, Rooted t'.parent d) : t'.Ok strict := by
  refine ⟨h.length ▸ hok.nonempty, fun d hd hnone => ?_, fun d p hp => ?_, hrooted, h.cached⟩
  · have hmem : d ∉ moved := by
      intro hmem
      obtain ⟨p, hp, -⟩ := hmoved d hmem
      rw [hnone] at hp
      cases hp
    exact hok.root d (h.length ▸ hd) (h.parent hmem ▸ hnone)
  · rw [h.isDir]
    by_cases hmem : d ∈ moved
    · obtain ⟨p', hp', hdir⟩ := hmoved d hmem
      rw [hp, some.injEq] at hp'
      exact hp' ▸ hdir
    · exact hok.parent_isDir d p (h.parent hmem ▸ hp)

/-- Nothing is below a dentry that is not a directory, so that only directories need the check. -/
lemma Ok.not_below (hok : t.Ok strict) (hd : t.isDir d) (h : t.isDir n → ¬ Below t.parent d n) :
    ¬ Below t.parent d n := by
  intro hbelow
  by_cases heq : d = n
  · subst heq
    exact h hd hbelow
  · exact h (hok.isDir_of_below hbelow heq) hbelow

lemma Moves.parent_replace (h : Moves t t' [old])
    (hname : t'.nameAndParent old = .named r.newName r.newDir) :
    t'.parent = update t.parent old (some r.newDir) := by
  funext d
  by_cases hd : d = old
  · rw [hd, update_self, parent_of_named hname]
  · rw [update_of_ne hd]
    exact h.parent fun hmem => hd (mem_singleton.mp hmem)

lemma Moves.parent_exchange (h : Moves t t' [old, n])
    (hold : t'.nameAndParent old = .named r.newName r.newDir)
    (hn : t'.nameAndParent n = .named r.oldName r.oldDir) :
    t'.parent = update (update t.parent old (some r.newDir)) n (some r.oldDir) := by
  funext d
  by_cases hdn : d = n
  · rw [hdn, update_self, parent_of_named hn]
  · rw [update_of_ne hdn]
    by_cases hd : d = old
    · rw [hd, update_self, parent_of_named hold]
    · rw [update_of_ne hd]
      refine h.parent fun hmem => ?_
      rcases mem_cons.mp hmem with hmem | hmem
      · exact hd hmem
      · exact hdn (mem_singleton.mp hmem)

/-- The tree stays one when a dentry gets another name and parent. -/
lemma Ok.replace (hok : t.Ok strict) (hlocated : r.Located t old new)
    (hcycle : strict → r.oldDir ≠ r.newDir → r.NoCycle t old new) (hdir : t.isDir r.newDir)
    (h : Moves t t' [old]) (hname : t'.nameAndParent old = .named r.newName r.newDir) :
    t'.Ok strict := by
  have hparent := h.parent_replace hname
  refine hok.move h (fun d hd => ?_) fun hstrict => ?_
  · refine ⟨r.newDir, ?_, hdir⟩
    rw [hparent, mem_singleton.mp hd, update_self]
  · rw [hparent]
    by_cases hsame : r.oldDir = r.newDir
    · rw [← hsame, ← parent_of_named hlocated.1, update_eq_self]
      exact hok.rooted hstrict
    · exact rooted_update (hok.rooted hstrict) (hok.not_below hdir (hcycle hstrict hsame).1)

/-- The tree stays one when two dentries exchange their names and parents. -/
lemma Ok.exchange (hok : t.Ok strict) (hlocated : r.Located t old (some n))
    (hmode : r.mode = .exchange) (hcycle : strict → r.oldDir ≠ r.newDir → r.NoCycle t old (some n))
    (holdDir : t.isDir r.oldDir) (hnewDir : t.isDir r.newDir) (h : Moves t t' [old, n])
    (hold : t'.nameAndParent old = .named r.newName r.newDir)
    (hn : t'.nameAndParent n = .named r.oldName r.oldDir) : t'.Ok strict := by
  have hparent := h.parent_exchange hold hn
  refine hok.move h (fun d hd => ?_) fun hstrict => ?_
  · rcases mem_cons.mp hd with rfl | hd
    · exact ⟨r.newDir, parent_of_named hold, hnewDir⟩
    · obtain rfl := mem_singleton.mp hd
      exact ⟨r.oldDir, parent_of_named hn, holdDir⟩
  · rw [hparent]
    by_cases hsame : r.oldDir = r.newDir
    · have hparentN : t.parent n = some r.oldDir := hsame ▸ parent_of_named (hlocated.2 n rfl)
      have hparentOld : t.parent old = some r.newDir := hsame ▸ parent_of_named hlocated.1
      rw [← hparentOld, update_eq_self, ← hparentN, update_eq_self]
      exact hok.rooted hstrict
    · obtain ⟨hcycleOld, hcycleNew⟩ := hcycle hstrict hsame
      exact rooted_exchange (hok.rooted hstrict) (parent_of_named hlocated.1)
        (hok.not_below hnewDir hcycleOld) (hok.not_below holdDir (hcycleNew hmode n rfl))

/-- The chains of directories are as before when what moves is not a directory or stays in its
directory. -/
lemma Moves.below_of_not_dirs {c : ℕ} (h : Moves t t' moved) (hok : t.Ok strict) (hd : t.isDir d)
    (hmoved : ∀ c ∈ moved, t.isDir c → t'.parent c = t.parent c) :
    Below t'.parent d c ↔ Below t.parent d c := by
  refine below_congr fun b hb => ?_
  have hdir : t.isDir b := by
    by_cases heq : d = b
    · exact heq ▸ hd
    · exact hok.isDir_of_below hb heq
  by_cases hmem : b ∈ moved
  · exact hmoved b hmem hdir
  · exact h.parent hmem

end Tree

/-! ### Steps of a call -/

namespace Rename

variable {σ : Type} {env : Env σ} {t : Tree} {fs : σ} {r : Rename} {fuel old : ℕ} {new : Option ℕ}

lemma noCycle_of_checkRenameCycle (h : r.checkRenameCycle t fuel old new = some (.ok ())) :
    r.NoCycle t old new := by
  unfold checkRenameCycle at h
  split at h
  · cases h
  · cases h
  · next hinside =>
    split at h
    · cases h
    · cases h
    · next hinsideNew =>
      refine ⟨fun hdir hbelow => ?_, fun hmode n hn hdir hbelow => ?_⟩
      · rw [newPathIsInside, if_pos hdir] at hinside
        exact Bool.false_ne_true ((isEqualOrDescendantOf_eq_some hinside).mpr hbelow)
      · subst hn
        rw [oldPathIsInside, if_pos ⟨hmode, hdir⟩] at hinsideNew
        exact Bool.false_ne_true ((isEqualOrDescendantOf_eq_some hinsideNew).mpr hbelow)

lemma ne_none_of_checkRenameMode (h : r.checkRenameMode new = .ok ()) (hmode : r.mode = .exchange) :
    new ≠ none := by
  rintro rfl
  unfold checkRenameMode at h
  rw [if_neg (fun hmode' => by rw [hmode] at hmode'; cases hmode'.1), if_pos ⟨hmode, rfl⟩] at h
  cases h

/-- The order of the locks, or the panic. -/
lemma order_spec {stage : Stage} {key key' : DentryKey} (h : r.order key key' = stage) :
    stage = .panicked ∧ key = key' ∨ ∃ first second, stage = .locking [] [first, second] ∧
      ((first = r.oldDir ∧ second = r.newDir ∧ key.order < key'.order) ∨
        (first = r.newDir ∧ second = r.oldDir ∧ key'.order < key.order)) := by
  unfold order at h
  split at h
  · next hlt => exact .inr ⟨_, _, h.symm, .inl ⟨rfl, rfl, hlt⟩⟩
  · next hle =>
    split at h
    · next hlt => exact .inr ⟨_, _, h.symm, .inr ⟨rfl, rfl, hlt⟩⟩
    · next hge =>
      refine .inl ⟨h.symm, ?_⟩
      have heq : key.order = key'.order := le_antisymm (not_lt.mp hge) (not_lt.mp hle)
      obtain ⟨hname, hptr⟩ := Prod.mk.inj (toLex.injective heq)
      cases key
      cases hname
      cases hptr
      rfl

end Rename

namespace Call

section Steps

variable {σ : Type} (env : Env σ) (free : ℕ → Bool) (t : Tree) (fs : σ)

/-- What a step of a call can do: the request and the stage, and the tree, the file system and the
stage that come after. -/
inductive Steps : Request → Stage → Tree → σ → Stage → Prop
  | stays {request : Request} {stage : Stage} : Steps request stage t fs stage
  | fails {request : Request} {stage : Stage} {result : Except Error Unit} :
      stage = .ready ∨ (∃ old new, stage = .resolved old new) →
        Steps request stage t fs (.done result)
  | begins {request : Request} {dir : ℕ} : request.dirs = [dir] → t.isDir dir →
      (∀ r, request = .rename r → ¬ (r.oldDir = r.newDir ∧ r.oldName = r.newName)) →
      Steps request .ready t fs (.locking [] [dir])
  | reads {r : Rename} : (∀ d ∈ r.dirs, t.isDir d) → r.oldDir ≠ r.newDir →
      Steps (.rename r) .ready t fs (.readingOld (t.name r.oldDir))
  | readsParent {r : Rename} {name : List Byte} :
      Steps (.rename r) (.readingOld name) t fs (.keyed ⟨name, t.parentPtr r.oldDir⟩)
  | readsNew {r : Rename} {key : DentryKey} :
      Steps (.rename r) (.keyed key) t fs (.readingNew key (t.name r.newDir))
  | clashes {r : Rename} {name : List Byte} :
      Steps (.rename r) (.readingNew ⟨name, t.parentPtr r.newDir⟩ name) t fs .panicked
  | orders {r : Rename} {key key' : DentryKey} {name : List Byte} {first second : ℕ} :
      key' = ⟨name, t.parentPtr r.newDir⟩ →
      (first = r.oldDir ∧ second = r.newDir ∧ key.order < key'.order) ∨
        (first = r.newDir ∧ second = r.oldDir ∧ key'.order < key.order) →
      Steps (.rename r) (.readingNew key name) t fs (.locking [] [first, second])
  | takes {request : Request} {held todo : List ℕ} {dir : ℕ} : free dir = true → todo ≠ [] →
      Steps request (.locking held (dir :: todo)) t fs (.locking (held ++ [dir]) todo)
  | locks {request : Request} {held : List ℕ} {dir : ℕ} : free dir = true →
      Steps request (.locking held [dir]) t fs .locked
  | runs {request : Request} : (∀ r, request ≠ .rename r) →
      Steps request .locked (request.body env t fs).1 (request.body env t fs).2.1
        (.done (request.body env t fs).2.2)
  | finds {r : Rename} {t' : Tree} {old : ℕ} :
      t.resolveChildForRename env fs r.oldDir r.oldName = (t', .ok old) →
      Steps (.rename r) .locked t' fs (.resolvedOld old)
  | misses {r : Rename} {t' : Tree} {error : Error} :
      t.resolveChildForRename env fs r.oldDir r.oldName = (t', .error error) →
      Steps (.rename r) .locked t' fs (.done (.error error))
  | findsNew {r : Rename} {t' : Tree} {old new : ℕ} :
      t.resolveChildForRename env fs r.newDir r.newName = (t', .ok new) → t'.inode old ≠
        t'.inode new →
      Steps (.rename r) (.resolvedOld old) t' fs (.resolved old (some new))
  | missesNew {r : Rename} {t' : Tree} {old : ℕ} {error : Error} :
      t.resolveChildForRename env fs r.newDir r.newName = (t', .error error) → error.errno =
        .enoent →
      Steps (.rename r) (.resolvedOld old) t' fs (.resolved old none)
  | failsNew {r : Rename} {old : ℕ} {result : Except Error Unit} :
    Steps (.rename r) (.resolvedOld old)
      (t.resolveChildForRename env fs r.newDir r.newName).1 fs (.done result)
  | checks {r : Rename} {old : ℕ} {new : Option ℕ} : (r.mode = .exchange → new ≠ none) →
      (r.oldDir ≠ r.newDir → r.NoCycle t old new) →
      Steps (.rename r) (.resolved old new) t fs (.checked old new)
  | renames {r : Rename} {old : ℕ} {new : Option ℕ} {fs' : σ} :
      env.rename fs (t.inode r.oldDir) (t.name old) (t.inode r.newDir) r.newName r.mode =
        (fs', .ok ()) →
      Steps (.rename r) (.checked old new) t fs' (.renamed old new)
  | failsInFs {r : Rename} {old : ℕ} {new : Option ℕ} {fs' : σ} {error : Error} :
      env.rename fs (t.inode r.oldDir) (t.name old) (t.inode r.newDir) r.newName r.mode =
        (fs', .error error) → Steps (.rename r) (.checked old new) t fs' (.done (.error error))
  | updates {r : Rename} {old : ℕ} {new : Option ℕ} : Steps (.rename r) (.renamed old new)
      (r.update env t fs old new).1 fs (r.update env t fs old new).2

end Steps

variable {σ : Type} {strict : Prop} {env : Env σ} {fuel : ℕ} {free : ℕ → Bool} {t t' : Tree}
    {fs fs' : σ}
  {c : Call} {request : Request} {stage stage' : Stage} {r : Rename} {old : ℕ} {new : Option ℕ}

lemma steps_start (hdirs : ∀ d ∈ r.dirs, t.isDir d) :
    Steps env free t fs (.rename r) .ready t fs (r.start env t) := by
  unfold Rename.start
  split
  · exact .fails (.inl rfl)
  split
  · split
    all_goals exact .fails (.inl rfl)
  split
  · exact .fails (.inl rfl)
  split
  · next hdir =>
    split
    · split
      all_goals exact .fails (.inl rfl)
    · next hname =>
      exact .begins (if_pos hdir) (hdirs _ r.oldDir_mem) fun r' hr' hsame =>
        hname (Request.rename.inj hr' ▸ hsame.2)
  · next hdir => exact .reads hdirs hdir

lemma steps_resolveOld : Steps env free t fs (.rename r) .locked (r.resolveOld env t fs).1 fs
    (r.resolveOld env t fs).2 := by
  unfold Rename.resolveOld
  split
  · next heq => exact .finds heq
  · next heq => exact .misses heq

lemma steps_resolveNew :
    Steps env free t fs (.rename r) (.resolvedOld old) (r.resolveNew env t fs old).1 fs
    (r.resolveNew env t fs old).2 := by
  have hfails : ∀ result, Steps env free t fs (.rename r) (.resolvedOld old) _ fs (.done result) :=
    fun _ => .failsNew
  unfold Rename.resolveNew
  split
  · next heq =>
    rw [heq] at hfails
    split
    · exact hfails _
    · next hne => exact .findsNew heq hne
  · next heq =>
    rw [heq] at hfails
    split
    · next herrno => exact .missesNew heq herrno
    · exact hfails _

/-- The checks end the call, leave it where it is, or find that it may go on. -/
lemma steps_check : Steps env free t fs (.rename r) (.resolved old new) t fs
    (r.check env t fs fuel old new) := by
  unfold Rename.check
  split
  · exact .fails (.inr ⟨old, new, rfl⟩)
  · next hmode =>
    have hnone := fun hexchange => Rename.ne_none_of_checkRenameMode hmode hexchange
    split
    · next hsame =>
      split
      · exact .fails (.inr ⟨old, new, rfl⟩)
      · exact .checks hnone fun hne => absurd hsame hne
    · split
      · exact .stays
      · exact .fails (.inr ⟨old, new, rfl⟩)
      · next hcycle =>
        split
        · exact .fails (.inr ⟨old, new, rfl⟩)
        · exact .checks hnone fun _ => Rename.noCycle_of_checkRenameCycle hcycle

lemma steps_renameInFs : Steps env free t fs (.rename r) (.checked old new) t
    (r.renameInFs env t fs old new).1 (r.renameInFs env t fs old new).2 := by
  unfold Rename.renameInFs
  split
  · next heq => exact .renames heq
  · next heq => exact .failsInFs heq

lemma steps_ready : Steps env free t fs request .ready (step env fuel free t fs ⟨request, .ready⟩).1
    (step env fuel free t fs ⟨request, .ready⟩).2.1
    (step env fuel free t fs ⟨request, .ready⟩).2.2 := by
  unfold step
  dsimp only
  split
  · next hall =>
    have hdirs : ∀ d ∈ request.dirs, t.isDir d := all_eq_true.mp hall
    cases request with
    | rename r => exact steps_start hdirs
    | _ => exact .begins rfl (hdirs _ mem_cons_self) fun r hr => by cases hr
  · exact .fails (.inl rfl)

/-- Every step of a call is one of these. -/
lemma steps : Steps env free t fs c.request c.stage (c.step env fuel free t fs).1
    (c.step env fuel free t fs).2.1 (c.step env fuel free t fs).2.2 := by
  obtain ⟨request, stage⟩ := c
  cases stage with
  | ready => exact steps_ready
  | locking held todo =>
    cases todo with
    | nil => exact .stays
    | cons dir todo =>
      unfold step
      dsimp only
      split
      · next hfree =>
        split
        · next htodo =>
          subst htodo
          exact .locks hfree
        · next htodo => exact .takes hfree htodo
      · exact .stays
  | done result | panicked => exact .stays
  | readingOld name =>
    cases request with
    | rename r => exact .readsParent
    | _ => exact .stays
  | keyed key =>
    cases request with
    | rename r => exact .readsNew
    | _ => exact .stays
  | readingNew key name =>
    cases request with
    | rename r =>
      change Steps env free t fs (.rename r) (.readingNew key name) t fs
        (r.order key ⟨name, t.parentPtr r.newDir⟩)
      rcases Rename.order_spec (rfl : r.order key ⟨name, t.parentPtr r.newDir⟩ = _) with
        ⟨hpanic, rfl⟩ | ⟨first, second, hlocking, hdirs⟩
      · rw [hpanic]
        exact .clashes
      · rw [hlocking]
        exact .orders rfl hdirs
    | _ => exact .stays
  | locked =>
    cases request with
    | rename r => exact steps_resolveOld
    | _ => exact .runs fun r hr => by cases hr
  | resolvedOld old =>
    cases request with
    | rename r => exact steps_resolveNew
    | _ => exact .stays
  | resolved old new =>
    cases request with
    | rename r => exact steps_check
    | _ => exact .stays
  | checked old new =>
    cases request with
    | rename r => exact steps_renameInFs
    | _ => exact .stays
  | renamed old new =>
    cases request with
    | rename r => exact .updates
    | _ => exact .stays

/-- All that a step of a call can do to the tree. -/
inductive Effect (strict : Prop) (free : ℕ → Bool) (t : Tree) (c : Call) (t' : Tree)
    (stage : Stage) : Prop
  | grows : t.Extends t' → Ok strict t' { c with stage := stage } →
      (∀ d ∈ ({ c with stage := stage } : Call).holds, d ∈ c.holds ∨ free d = true) →
      (∀ old new, stage = .checked old new ∨ stage = .renamed old new → c.stage = .checked old new ∨
        c.stage = .renamed old new ∨ c.stage = .resolved old new) → Effect strict free t c t' stage
  | moves (r : Rename) (old : ℕ) (new : Option ℕ) (moved : List ℕ) : c.request = .rename r →
      c.stage = .renamed old new → stage = .done (.ok ()) → t'.Ok strict → t.Moves t' moved →
      (∀ d ∈ moved, (d = old ∧ t'.parent d = some r.newDir) ∨
        (r.mode = .exchange ∧ new = some d ∧ t'.parent d = some r.oldDir)) →
      Effect strict free t c t' stage

/-- The updates of a call that holds its directories are made. -/
lemma update_spec (htree : t.Ok strict) (h : Ok strict t ⟨.rename r, .renamed old new⟩) :
    ∃ t', r.update env t fs old new = (t', .done (.ok ())) ∧
      t'.nameAndParent old = .named r.newName r.newDir ∧
      (r.mode ≠ .exchange ∧ r.updateReplace env t fs old = some t' ∧ t.Moves t' [old] ∨
        ∃ n, r.mode = .exchange ∧ new = some n ∧ r.updateExchange env t fs old n = some t' ∧
          t.Moves t' [old, n] ∧ t'.nameAndParent n = .named r.oldName r.oldDir) := by
  obtain ⟨⟨hold, hnew⟩, hnone, -⟩ := h.stage r rfl
  have holdDir := h.isDir trivial _ r.oldDir_mem
  have hnewDir := h.isDir trivial _ r.newDir_mem
  obtain ⟨t₁, hreplace, hmoves, hname⟩ :=
    @Tree.Ok.updateReplace σ strict env t fs r old htree hold holdDir hnewDir
  cases hmode : r.mode with
  | exchange =>
    obtain ⟨n, rfl⟩ := ne_none_iff_exists'.mp (hnone hmode)
    obtain ⟨t₂, hexchange, hmoves, hname, hname'⟩ :=
      @Tree.Ok.updateExchange σ strict env t fs r old n
      htree hold (hnew n rfl) (h.differ trivial r rfl) holdDir hnewDir
    refine ⟨t₂, ?_, hname, .inr ⟨n, rfl, rfl, hexchange, hmoves, hname'⟩⟩
    unfold Rename.update
    simp only [hmode, bind_some, hexchange]
  | _ =>
    refine ⟨t₁, ?_, hname, .inl ⟨fun hmode' => (by cases hmode'), hreplace, hmoves⟩⟩
    unfold Rename.update
    simp only [hmode, hreplace]

/-- A call that is over, or that has not started, holds nothing. -/
lemma effect_of_not_active (hext : t.Extends t') (h : ¬ stage.Active) :
    Effect strict free t c t' stage := by
  refine .grows hext (ok_of_not_active h) (fun d hd => ?_) fun old new hstage => ?_
  · cases stage with
    | ready | done result | panicked => cases hd
    | _ => exact absurd trivial h
  · rcases hstage with rfl | rfl <;> exact absurd trivial h

/-- A call goes on that is not about to move anything. -/
lemma effect_of_not_checked (hext : t.Extends t') (hok : Ok strict t' { c with stage := stage })
    (hholds : ∀ d ∈ ({ c with stage := stage } : Call).holds, d ∈ c.holds ∨ free d = true)
    (hstage : ∀ old new, stage ≠ .checked old new ∧ stage ≠ .renamed old new) :
    Effect strict free t c t' stage := by
  refine .grows hext hok hholds fun old new hchecked => ?_
  rcases hchecked with hchecked | hrenamed
  · exact absurd hchecked (hstage old new).1
  · exact absurd hrenamed (hstage old new).2

/-- A rename has its locks and gets to another stage. -/
lemma Ok.next (h : Ok strict t ⟨.rename r, stage⟩) (hactive : stage.Active)
    (hlocking : ∀ held todo, stage' ≠ .locking held todo) (hstage : r.StageOk strict t stage') :
    Ok strict t ⟨.rename r, stage'⟩ := by
  refine ⟨fun _ => h.isDir hactive, fun held todo heq => absurd heq (hlocking held todo),
    fun _ => h.differ hactive, fun r' hr' => ?_⟩
  cases hr'
  exact hstage

/-- Every step of a call does one of these things. -/
lemma Steps.effect (hsteps : Steps env free t fs request stage t' fs' stage') (htree : t.Ok strict)
    (h : Ok strict t ⟨request, stage⟩) : Effect strict free t ⟨request, stage⟩ t' stage' := by
  cases hsteps with
  | stays =>
    refine .grows (.refl t) h (fun d hd => .inl hd) fun old new hstage => ?_
    rcases hstage with hstage | hstage
    · exact .inl hstage
    · exact .inr (.inl hstage)
  | fails | clashes | failsInFs => exact effect_of_not_active (.refl t) id
  | begins hdirs hdir hdiffer =>
    refine effect_of_not_checked (.refl t) ⟨fun _ d hd => ?_, fun held todo hstage d => ?_,
      fun _ => hdiffer, fun _ _ => trivial⟩ (fun d hd => by cases hd) (by simp)
    · rw [hdirs] at hd
      exact mem_singleton.mp hd ▸ hdir
    · cases hstage
      rw [or_iff_right not_mem_nil, hdirs]
  | reads hdirs hne =>
    refine effect_of_not_checked (.refl t) ⟨fun _ => hdirs, fun _ _ hstage => (by cases hstage),
      fun _ r' hr' hsame => ?_, fun _ _ => trivial⟩ (fun d hd => by cases hd) (by simp)
    cases hr'
    exact hne hsame.1
  | readsParent | readsNew =>
    exact effect_of_not_checked (.refl t) (h.next trivial (by simp) trivial)
      (fun d hd => by cases hd) (by simp)
  | @orders r key _ name first second _ hdirs =>
    refine effect_of_not_checked (.refl t) ⟨h.isDir, fun held todo hstage d => ?_, h.differ,
      fun _ _ => trivial⟩ (fun d hd => by cases hd) (by simp)
    cases hstage
    change _ ↔ d ∈ r.dirs
    rw [or_iff_right not_mem_nil, Rename.mem_dirs, mem_cons, mem_singleton]
    rcases hdirs with ⟨rfl, rfl, -⟩ | ⟨rfl, rfl, -⟩
    · rfl
    · exact or_comm
  | @takes _ held todo dir hfree htodo =>
    refine effect_of_not_checked (.refl t) ⟨h.isDir, fun held' todo' hstage d => ?_, h.differ,
      fun _ _ => trivial⟩ (fun d hd => ?_) (by simp)
    · cases hstage
      rw [← h.locking held (dir :: todo) rfl d, mem_append, mem_singleton, mem_cons,
        or_assoc (c := d ∈ todo)]
    · rcases mem_append.mp hd with hheld | hmem
      · exact .inl hheld
      · exact .inr (mem_singleton.mp hmem ▸ hfree)
  | @locks _ held dir hfree =>
    refine effect_of_not_checked (.refl t) ⟨h.isDir, fun _ _ hstage => (by cases hstage), h.differ,
      fun _ _ => trivial⟩ (fun d hd => ?_) (by simp)
    rcases (h.locking held [dir] rfl d).mpr hd with hheld | hmem
    · exact .inl hheld
    · exact .inr (mem_singleton.mp hmem ▸ hfree)
  | runs => exact effect_of_not_active (.body _ (h.isDir trivial)) id
  | @finds r _ old heq =>
    obtain ⟨hext, hnamed⟩ := htree.resolveChildForRename (h.isDir trivial _ r.oldDir_mem) heq
    exact effect_of_not_checked hext ((h.extend htree hext).next trivial (by simp) (hnamed old rfl))
      (fun d hd => .inl hd) (by simp)
  | @misses r _ _ heq =>
    exact effect_of_not_active (htree.resolveChildForRename (h.isDir trivial _ r.oldDir_mem) heq).1
      id
  | @findsNew r _ old new heq _ =>
    obtain ⟨hext, hnamed⟩ := htree.resolveChildForRename (h.isDir trivial _ r.newDir_mem) heq
    have hok := h.extend htree hext
    refine effect_of_not_checked hext (hok.next trivial (by simp) ⟨hok.stage r rfl, fun n hn => ?_⟩)
      (fun d hd => .inl hd) (by simp)
    exact some.inj hn ▸ hnamed new rfl
  | @missesNew r _ old _ heq _ =>
    obtain ⟨hext, -⟩ := htree.resolveChildForRename (h.isDir trivial _ r.newDir_mem) heq
    have hok := h.extend htree hext
    refine effect_of_not_checked hext (hok.next trivial (by simp) ⟨hok.stage r rfl, fun n hn => ?_⟩)
      (fun d hd => .inl hd) (by simp)
    cases hn
  | @failsNew r _ _ =>
    exact effect_of_not_active (htree.resolveChildForRename (h.isDir trivial _ r.newDir_mem) rfl).1
      id
  | @checks r old new hnone hcycle =>
    refine .grows (.refl t) (h.next trivial (by simp) ⟨h.stage r rfl, hnone, fun _ => hcycle⟩)
      (fun d hd => .inl hd) fun old' new' hstage => ?_
    rcases hstage with hstage | hstage
    · cases hstage
      exact .inr (.inr rfl)
    · cases hstage
  | @renames r old new _ _ =>
    refine .grows (.refl t) (h.next trivial (by simp) (h.stage r rfl)) (fun d hd => .inl hd)
      fun old' new' hstage => ?_
    rcases hstage with hstage | hstage
    · cases hstage
    · cases hstage
      exact .inl rfl
  | @updates r old new =>
    obtain ⟨hlocated, -, hcycle⟩ := h.stage r rfl
    have hdirs := h.isDir trivial
    obtain ⟨t', hupdate, hname, ⟨hmode, -, hmoves⟩ | ⟨n, hmode, rfl, -, hmoves, hname'⟩⟩ :=
      @update_spec σ strict env t fs r old new htree h
    · rw [hupdate]
      refine .moves r old new [old] rfl rfl rfl
        (htree.replace hlocated hcycle (hdirs _ r.newDir_mem) hmoves hname) hmoves fun d hd =>
          .inl ?_
      obtain rfl := mem_singleton.mp hd
      exact ⟨rfl, parent_of_named hname⟩
    · rw [hupdate]
      refine .moves r old n [old, n] rfl rfl rfl (htree.exchange hlocated hmode hcycle
        (hdirs _ r.oldDir_mem) (hdirs _ r.newDir_mem) hmoves hname hname') hmoves fun d hd => ?_
      rcases mem_pair.mp hd with rfl | rfl
      · exact .inl ⟨rfl, parent_of_named hname⟩
      · exact .inr ⟨hmode, rfl, parent_of_named hname'⟩

/-- Every step of a call does one of these things. -/
lemma effect (htree : t.Ok strict) (h : c.Ok strict t) :
    Effect strict free t c (c.step env fuel free t fs).1 (c.step env fuel free t fs).2.2 :=
  (@steps σ env fuel free t fs c).effect htree h

end Call

namespace Call

variable {strict : Prop} {t t' : Tree} {c : Call} {moved : List ℕ}

/-- What another call moves is not what this one has resolved, since it holds the directories. -/
lemma Ok.located_of_moves {old : ℕ} {new : Option ℕ} (h : Tree.Moves t t' moved)
    (hapart : ∀ d ∈ moved, ∃ n p, t.nameAndParent d = .named n p ∧ p ∉ c.holds)
    (hold : r.oldDir ∈ c.holds) (hnew : r.newDir ∈ c.holds)
    (hlocated : r.Located t old new) : r.Located t' old new := by
  have hne : ∀ d n p, t.nameAndParent d = .named n p → p ∈ c.holds → d ∉ moved := by
    intro d n p hname hp hmem
    obtain ⟨n', p', hname', hp'⟩ := hapart d hmem
    rw [hname, NameAndParent.named.injEq] at hname'
    exact hp' (hname'.2 ▸ hp)
  refine ⟨(h.other old (hne old _ _ hlocated.1 hold)).trans hlocated.1, fun n hn => ?_⟩
  have hname := hlocated.2 n hn
  exact (h.other n (hne n _ _ hname hnew)).trans hname

/-- A call does not notice when another one updates its dentries, provided that the other one does
not move a directory while this one is about to. -/
lemma Ok.move (hc : c.Ok strict t) (hok : t.Ok strict) (h : Tree.Moves t t' moved)
    (hapart : ∀ d ∈ moved, ∃ n p, t.nameAndParent d = .named n p ∧ p ∉ c.holds)
    (hdirs : strict → c.Moving t → ∀ d ∈ moved, t.isDir d → t'.parent d = t.parent d) :
    c.Ok strict t' := by
  refine ⟨fun hactive d hd => ?_, hc.locking, hc.differ, fun r hr => ?_⟩
  · rw [h.isDir]
    exact hc.isDir hactive d hd
  refine (hc.stage r hr).imp (fun hholds old new hlocated => ?_) ?_
  · rw [← hr] at hholds
    exact located_of_moves h hapart (hholds ▸ r.oldDir_mem) (hholds ▸ r.newDir_mem) hlocated
  · intro old new hcheck _ hstrict hne hcycle
    have hmem := hc.isDir (by rcases hcheck with hcheck | hcheck <;> rw [hcheck] <;> trivial)
    rw [hr] at hmem
    refine ⟨fun hdir => ?_, fun hmode n hn hdir => ?_⟩
    · rw [h.isDir] at hdir
      have hmoving : c.Moving t := ⟨r, old, new, hr, hcheck, hne, .inl hdir⟩
      rw [h.below_of_not_dirs hok (hmem _ r.newDir_mem) (hdirs hstrict hmoving)]
      exact hcycle.1 hdir
    · rw [h.isDir] at hdir
      have hmoving : c.Moving t := ⟨r, old, new, hr, hcheck, hne, .inr ⟨hmode, n, hn, hdir⟩⟩
      rw [h.below_of_not_dirs hok (hmem _ r.oldDir_mem) (hdirs hstrict hmoving)]
      exact hcycle.2 hmode n hn hdir

lemma Moving.of_moves (h : c.Moving t') (hmoves : Tree.Moves t t' moved) : c.Moving t := by
  obtain ⟨r, old, new, hr, hstage, hne, hdir⟩ := h
  refine ⟨r, old, new, hr, hstage, hne, ?_⟩
  rcases hdir with hdir | ⟨hmode, n, hn, hdir⟩
  · exact .inl (hmoves.isDir ▸ hdir)
  · exact .inr ⟨hmode, n, hn, hmoves.isDir ▸ hdir⟩

end Call

/-! ### Runs -/

namespace World

variable {strict : Prop} {w : World} {c : Call} {i : ℕ}

/-- The relation holds between the calls at any two places. -/
def Apart (R : Call → Call → Prop) (calls : List Call) : Prop :=
  ∀ (i j : ℕ) (ci cj : Call), calls[i]? = some ci → calls[j]? = some cj → i ≠ j → R ci cj

/-- What holds in every run; when `strict` holds, at most one call is about to move a directory. -/
structure Ok (strict : Prop) (w : World) : Prop where
  tree : w.tree.Ok strict
  calls : ∀ (i : ℕ) (c : Call), w.calls[i]? = some c → c.Ok strict w.tree
  excl : Apart (fun ci cj => ∀ d ∈ ci.holds, d ∉ cj.holds) w.calls
  moving : strict → Apart (fun ci cj => ci.Moving w.tree → ¬ cj.Moving w.tree) w.calls

/-- No two calls that move directories to other directories are between their cycle checks and their
updates. -/
def Serialized (w : World) : Event → Prop
  | .start _ => True
  | .step i _ _ => ∀ c r old new, w.calls[i]? = some c → c.request = .rename r →
      c.stage = .resolved old new → r.MovesDir w.tree old new →
      ∀ (j : ℕ) c', j ≠ i → w.calls[j]? = some c' → ¬ c'.Moving w.tree

lemma free_iff {d : ℕ} : w.free d = true ↔ ∀ c ∈ w.calls, d ∉ c.holds := by
  simp [free]

/-- A call of the list changes. -/
lemma getElem?_set_call (hi : w.calls[i]? = some c) (c' : Call) (j : ℕ) :
    (w.calls.set i c')[j]? = if j = i then some c' else w.calls[j]? := by
  have hlt : i < w.calls.length := (List.getElem?_eq_some_iff.mp hi).1
  rw [List.getElem?_set]
  by_cases hj : i = j
  · subst hj
    rw [if_pos rfl, if_pos rfl, if_pos hlt]
  · rw [if_neg hj, if_neg (Ne.symm hj)]

lemma Apart.set {R R' : Call → Call → Prop} {c' : Call} (h : Apart R w.calls)
    (hi : w.calls[i]? = some c) (hsymm : ∀ ci cj, R' ci cj → R' cj ci)
    (hother : ∀ (j k : ℕ) (cj ck : Call), j ≠ i → k ≠ i → w.calls[j]? = some cj → w.calls[k]? =
    some ck →
      R cj ck → R' cj ck)
    (hcall : ∀ (j : ℕ) (cj : Call), j ≠ i → w.calls[j]? = some cj → R' c' cj) :
    Apart R' (w.calls.set i c') := by
  intro j k cj ck hj hk hjk
  rw [getElem?_set_call hi] at hj hk
  split at hj
  · next hji =>
    have hki : k ≠ i := fun hki => hjk (hji.trans hki.symm)
    rw [if_neg hki] at hk
    exact some.inj hj ▸ hcall k ck hki hk
  · next hji =>
    split at hk
    · exact hsymm _ _ (some.inj hk ▸ hcall j cj hji hj)
    · next hki => exact hother j k cj ck hji hki hj hk (h j k cj ck hj hk hjk)

/-- A call that is apart from every other one is made. -/
lemma Apart.concat {R : Call → Call → Prop} {calls : List Call} (h : Apart R calls)
    (hcall : ∀ cj, R c cj ∧ R cj c) : Apart R (calls ++ [c]) := by
  intro i j ci cj hi hj hij
  rw [getElem?_append] at hi hj
  split at hi
  · split at hj
    · exact h i j ci cj hi hj hij
    · exact mem_singleton.mp (mem_of_getElem? hj) ▸ (hcall ci).2
  · exact mem_singleton.mp (mem_of_getElem? hi) ▸ (hcall cj).1

/-- The invariant from what the call and the other calls have become. -/
lemma Ok.set {stage : Stage} (h : w.Ok strict) (hi : w.calls[i]? = some c) {t' : Tree}
    (htree : t'.Ok strict) (hcall : Call.Ok strict t' { c with stage := stage })
    (hother : ∀ (j : ℕ) (c' : Call), j ≠ i → w.calls[j]? = some c' →
      c'.Ok strict t' ∧ (c'.Moving t' → c'.Moving w.tree))
    (hholds : ∀ d ∈ ({ c with stage := stage } : Call).holds, d ∈ c.holds ∨ w.free d = true)
    (hmoving : strict → Call.Moving t' { c with stage := stage } →
      ∀ (j : ℕ) (c' : Call), j ≠ i → w.calls[j]? = some c' → ¬ c'.Moving w.tree) :
    Ok strict ⟨t', w.calls.set i { c with stage := stage }⟩ := by
  have hget := getElem?_set_call hi { c with stage := stage }
  have hapart : ∀ (j : ℕ) (c' : Call), j ≠ i → w.calls[j]? = some c' →
      ∀ d ∈ ({ c with stage := stage } : Call).holds, d ∉ c'.holds := by
    intro j c' hj hc' d hd
    rcases hholds d hd with hd | hd
    · exact h.excl i j c c' hi hc' (Ne.symm hj) d hd
    · exact free_iff.mp hd c' (mem_of_getElem? hc')
  refine ⟨htree, fun j c' hc' => ?_, h.excl.set hi (fun _ _ h d hd hd' => h d hd' hd)
    (fun _ _ _ _ _ _ _ _ => id) hapart, fun hstrict => (h.moving hstrict).set hi
    (fun _ _ h hm hm' => h hm' hm)
    (fun j k cj ck hji hki hj hk h hmj hmk => h ((hother j cj hji hj).2 hmj)
    ((hother k ck hki hk).2 hmk))
    fun j cj hji hj hm hmj => hmoving hstrict hm j cj hji hj ((hother j cj hji hj).2 hmj)⟩
  rw [hget] at hc'
  split at hc'
  · exact some.inj hc' ▸ hcall
  · next hne => exact (hother j c' hne hc').1

/-- A call that is over is not about to move anything. -/
lemma not_moving_done {result : Except Error Unit} {t : Tree} :
    ¬ Call.Moving t { c with stage := .done result } := by
  rintro ⟨r, old, new, -, hstage | hstage, -⟩
  · cases hstage
  · cases hstage

section

variable {old : ℕ} {new : Option ℕ} (h : w.Ok strict) (hi : w.calls[i]? = some c) {r : Rename}
    (hr : c.request = .rename r)
    (hstage : c.stage = .renamed old new)

include h hi hr hstage

/-- What another call has resolved is apart from what this one moves. -/
lemma Ok.apart {j : ℕ} {c' : Call} (hj : j ≠ i) (hc' : w.calls[j]? = some c') :
    r.oldDir ∉ c'.holds ∧ r.newDir ∉ c'.holds := by
  have hholds : c.holds = r.dirs := by
    rw [Call.holds, hstage, hr]
    rfl
  have hexcl : ∀ d ∈ r.dirs, d ∉ c'.holds := hholds ▸ h.excl i j c c' hi hc' (Ne.symm hj)
  exact ⟨hexcl _ r.oldDir_mem, hexcl _ r.newDir_mem⟩

/-- What a call of the other kind leaves where it is: its directories, or their parents. -/
lemma Ok.dirs_stay {j : ℕ} {c' : Call} {t' : Tree} {moved : List ℕ}
    (hmoved : ∀ d ∈ moved, (d = old ∧ t'.parent d = some r.newDir) ∨
      (r.mode = .exchange ∧ new = some d ∧ t'.parent d = some r.oldDir)) (hstrict : strict)
    (hj : j ≠ i) (hc' : w.calls[j]? = some c') (hmoving : c'.Moving w.tree) :
    ∀ d ∈ moved, w.tree.isDir d → t'.parent d = w.tree.parent d := by
  intro d hd hdir
  have hlocated : r.Located w.tree old new := by
    have hok := (h.calls i c hi).stage r hr
    rw [hstage] at hok
    exact hok.1
  have hnot : ¬ r.MovesDir w.tree old new := fun hmoves =>
    h.moving hstrict j i c' c hc' hi hj hmoving ⟨r, old, new, hr, .inr hstage, hmoves⟩
  by_cases hsame : r.oldDir = r.newDir
  · rcases hmoved d hd with ⟨rfl, hparent⟩ | ⟨-, hn, hparent⟩
    · rw [hparent, parent_of_named hlocated.1, hsame]
    · rw [hparent, parent_of_named (hlocated.2 d hn), hsame]
  · rcases hmoved d hd with ⟨rfl, -⟩ | ⟨hmode, hn, -⟩
    · exact absurd ⟨hsame, .inl hdir⟩ hnot
    · exact absurd ⟨hsame, .inr ⟨hmode, d, hn, hdir⟩⟩ hnot

end

lemma Ok.step (h : w.Ok strict) (e : Event) (he : strict → w.Serialized e) :
    (w.step e).Ok strict := by
  cases e with
  | start request =>
    -- A call that has not started holds nothing.
    have hready : ¬ Call.Moving w.tree ⟨request, .ready⟩ := by
      rintro ⟨r, old, new, -, hstage | hstage, -⟩
      · cases hstage
      · cases hstage
    refine ⟨h.tree, fun i c hi => ?_, h.excl.concat fun cj => ⟨nofun, fun _ _ => nofun⟩,
      fun hstrict => (h.moving hstrict).concat fun cj =>
        ⟨fun hm => absurd hm hready, fun _ => hready⟩⟩
    rcases mem_append.mp (mem_of_getElem? hi) with hmem | hmem
    · obtain ⟨j, hj⟩ := mem_iff_getElem?.mp hmem
      exact h.calls j c hj
    · exact mem_singleton.mp hmem ▸ Call.ok_of_not_active id
  | step i env fuel =>
    unfold World.step
    dsimp only
    split
    · next c hi =>
      have hcall := h.calls i c hi
      have heffect := @Call.effect Unit strict env fuel w.free w.tree () c h.tree hcall
      generalize (c.step env fuel w.free w.tree ()).1 = t' at heffect ⊢
      generalize (c.step env fuel w.free w.tree ()).2.2 = stage at heffect ⊢
      cases heffect with
      | grows hext hok hholds hchecked =>
        refine h.set hi (h.tree.extend hext) hok (fun j c' hj hc' => ?_) hholds
          fun hstrict hmoving => ?_
        · have hother := h.calls j c' hc'
          refine ⟨hother.extend h.tree hext, ?_⟩
          rintro ⟨r, old, new, hr, hstage, hmoves⟩
          exact ⟨r, old, new, hr, hstage, hmoves.of_extend
            (hother.located hr (or_assoc.mp (.inl hstage)))
            hext⟩
        · obtain ⟨r, old, new, hr, hstage, hmoves⟩ := hmoving
          have hbefore := hchecked old new hstage
          have hmoves := hmoves.of_extend (hcall.located hr hbefore) hext
          intro j c' hj hc'
          rcases or_assoc.mpr hbefore with hbefore | hresolved
          · exact h.moving hstrict i j c c' hi hc' (Ne.symm hj) ⟨r, old, new, hr, hbefore, hmoves⟩
          · exact he hstrict c r old new hi hr hresolved hmoves j c' hj hc'
      | moves r old new moved hr hstage hdone htree hmoves hmoved =>
        obtain ⟨hlocated, -⟩ : r.StageOk strict w.tree (.renamed old new) :=
          hstage ▸ hcall.stage r hr
        subst hdone
        refine h.set hi htree (Call.ok_of_not_active id) (fun j c' hj hc' => ?_)
          (fun d hd => by cases hd) fun _ hmoving => absurd hmoving not_moving_done
        obtain ⟨hapartOld, hapartNew⟩ := h.apart hi hr hstage hj hc'
        refine ⟨(h.calls j c' hc').move h.tree hmoves (fun d hd => ?_) fun hstrict hmoving =>
          h.dirs_stay hi hr hstage hmoved hstrict hj hc' hmoving, fun hm => hm.of_moves hmoves⟩
        rcases hmoved d hd with ⟨rfl, -⟩ | ⟨-, hn, -⟩
        · exact ⟨_, _, hlocated.1, hapartOld⟩
        · exact ⟨_, _, hlocated.2 d hn, hapartNew⟩
    · exact h

lemma Reached.ok {P : World → Event → Prop} (hP : ∀ w e, P w e → strict → w.Serialized e)
    (h : Reached P w) : w.Ok strict := by
  induction h with
  | init hok =>
    refine ⟨⟨hok.nonempty, hok.root, hok.parent_isDir, fun _ => hok.rooted trivial, hok.cached⟩,
      ?_, ?_, ?_⟩
    · exact fun i c hi => by cases hi
    · exact fun i j ci cj hi => by cases hi
    · exact fun _ i j ci cj hi => by cases hi
  | step e _ he ih => exact ih.step e (hP _ e he)

end World

end Asterinas.Vfs
