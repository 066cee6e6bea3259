import Asterinas.Vfs.RenameSteps

/-!
# Concurrent renames and the tree

The cycle check of a rename looks at directories that are not locked, so that what it has found may
be wrong when the dentries are updated: two calls that each move a directory into the other one both
pass their checks.  The tree stays a tree when such calls do not overlap.
-/

namespace Asterinas.Vfs

open Framework List

namespace World

variable {w : World}

/-- In every run in which the calls that move directories to other directories do not overlap
between their cycle checks and their updates, the chain of parents of every dentry ends at the root,
no dentry is its own ancestor, and the walks along the chain end. -/
theorem renames_keep_tree (h : Reached Serialized w) {d : ℕ} (hd : d < w.tree.dentries.length) :
    Below w.tree.parent d 0 ∧ w.tree.parent 0 = none ∧
      ¬ Relation.TransGen (fun a b => w.tree.parent a = some b) d d ∧
      (∀ ancestor, ∃ fuel b, w.tree.isEqualOrDescendantOf ancestor fuel d = some b) ∧
      ∃ fuel path, w.tree.pathName fuel d = some path := by
  have hok : w.Ok True := h.ok fun _ _ he _ => he
  have hrooted := hok.tree.rooted trivial d
  obtain ⟨root, hbelow, hnone⟩ := hrooted.exists_root
  obtain rfl := hok.tree.root root (hok.tree.lt_of_below hd hbelow) hnone
  exact ⟨hbelow, hnone, hrooted.not_transGen, Tree.isEqualOrDescendantOf_of_rooted hrooted,
    Tree.pathNameFrom_of_rooted hrooted _⟩

/-! ### Two directories with a directory in each -/

/-- A file system that finds nothing and lets everything happen. -/
def emptyFs : Env Unit where
  namelen := 255
  isMountpoint _ := false
  lookup _ _ _ := .error (.new .enoent)
  revalidationPolicy _ := ⟨false, false⟩
  revalidateExists _ _ _ _ := true
  revalidateAbsent _ _ _ := true
  hasStickyBit _ _ := .ok false
  checkStickyBitPermission _ _ _ := .ok ()
  checkWritePermission _ _ := .ok ()
  mknodCapable := .ok ()
  metadata _ _ := .ok ()
  create _ _ _ := ((), .ok ⟨0, .dir⟩)
  mknod _ _ _ _ := ((), .ok ⟨0, .file⟩)
  link _ _ _ _ := ((), .ok ())
  unlink _ _ _ := ((), .ok ())
  rmdir _ _ _ := ((), .ok ())
  rename _ _ _ _ _ _ := ((), .ok ())

/-- The name of one letter. -/
def letter (n : ℕ) : Name := ⟨[⟨97 + n % 26, by omega⟩], by
  rw [mem_singleton]
  intro h
  have := congrArg Fin.val h
  simp [slash] at this
  omega⟩

/-- The directories `/p`, `/q`, `/p/a`, `/p/a/c`, `/q/b` and `/q/b/d`, with the numbers 1 to 6. -/
def twoDirs : Tree :=
  let t := Tree.newRoot emptyFs ⟨0, .dir⟩
  let t := t.insertNewChild emptyFs () 0 (letter 15) ⟨1, .dir⟩
  let t := t.insertNewChild emptyFs () 0 (letter 16) ⟨2, .dir⟩
  let t := t.insertNewChild emptyFs () 1 (letter 0) ⟨3, .dir⟩
  let t := t.insertNewChild emptyFs () 3 (letter 2) ⟨4, .dir⟩
  let t := t.insertNewChild emptyFs () 2 (letter 1) ⟨5, .dir⟩
  t.insertNewChild emptyFs () 5 (letter 3) ⟨6, .dir⟩

lemma twoDirs_ok : twoDirs.Ok True := by
  unfold twoDirs
  dsimp only
  refine .insertNewChild (.insertNewChild (.insertNewChild (.insertNewChild (.insertNewChild
    (.insertNewChild (Tree.ok_newRoot _) ?_) ?_) ?_) ?_) ?_) ?_
  all_goals decide

/-- `/p/a` to `/q/b/d/x`. -/
def firstRename : Rename := ⟨1, letter 0, 6, letter 23, .replace⟩

/-- `/q/b` to `/p/a/c/y`. -/
def secondRename : Rename := ⟨2, letter 1, 4, letter 24, .replace⟩

/-- Steps of one call. -/
def steps (call n : ℕ) : List Event := replicate n (.step call emptyFs 8)

/-- Both calls make their checks before either updates the dentries. -/
def overlapping : World :=
  let events := [.start (.rename firstRename), .start (.rename secondRename)] ++
    steps 0 9 ++ steps 1 11 ++ steps 0 2
  events.foldl step ⟨twoDirs, []⟩

lemma reached_foldl (es : List Event) (h : Reached (fun _ _ => True) w) :
    Reached (fun _ _ => True) (es.foldl step w) := by
  induction es generalizing w with
  | nil => exact h
  | cons e es ih => exact ih (h.step e trivial)

/-- `a` is in `d`, `d` in `b`, `b` in `c` and `c` in `a`. -/
theorem overlapping_renames_make_cycle :
    Reached (fun _ _ => True) overlapping ∧
      Relation.TransGen (fun a b => overlapping.tree.parent a = some b) 3 3 := by
  refine ⟨reached_foldl _ (.init twoDirs_ok), ?_⟩
  have ha : overlapping.tree.parent 3 = some 6 := by decide
  have hd : overlapping.tree.parent 6 = some 5 := by decide
  have hb : overlapping.tree.parent 5 = some 4 := by decide
  have hc : overlapping.tree.parent 4 = some 3 := by decide
  exact .head ha (.head hd (.head hb (.single hc)))

/-- A condition that is computed holds at each event of a run. -/
def along (p : World → Event → Bool) : World → List Event → Bool
  | _, [] => true
  | w, e :: es => p w e && along p (w.step e) es

lemma reached_of_along {P : World → Event → Prop} {p : World → Event → Bool}
    (hp : ∀ w e, p w e = true → P w e) {es : List Event} (h : Reached P w)
    (hes : along p w es = true) : Reached P (es.foldl step w) := by
  induction es generalizing w with
  | nil => exact h
  | cons e es ih =>
    obtain ⟨he, hes⟩ := Bool.and_eq_true_iff.mp hes
    exact ih (h.step e (hp w e he)) hes

/-- The call that makes the step does not check for a cycle, or no call is between its check and its
update. -/
def apart (w : World) : Event → Bool
  | .start _ => true
  | .step i _ _ =>
    (w.calls[i]?).all (fun c => match c.stage with
      | .resolved _ _ => false
      | _ => true) ||
    w.calls.all fun c => match c.stage with
      | .checked _ _ | .renamed _ _ => false
      | _ => true

lemma serialized_of_apart (w : World) (e : Event) (h : w.apart e = true) : w.Serialized e := by
  cases e with
  | start request => trivial
  | step i env fuel =>
    intro c r old new hi _ hstage _ j c' _ hj
    rcases Bool.or_eq_true_iff.mp h with h | h
    · rw [hi, Option.all_some, hstage] at h
      cases h
    · have hc' := all_eq_true.mp h c' (mem_of_getElem? hj)
      rintro ⟨r', old', new', -, hstage' | hstage', -⟩
      · rw [hstage'] at hc'
        cases hc'
      · rw [hstage'] at hc'
        cases hc'

/-- The second call locks and resolves its directories while the first one is between its check and
its update, and checks after that. -/
def checkedLater : World :=
  let events := [.start (.rename firstRename), .start (.rename secondRename)] ++
    steps 0 9 ++ steps 1 8 ++ steps 0 2 ++ steps 1 1
  events.foldl step ⟨twoDirs, []⟩

/-- The first call has moved `/p/a` below `/q/b`, so that the second one is refused. -/
theorem renames_keep_tree_of_overlapping :
    checkedLater.tree.parent 3 = some 6 ∧
      (checkedLater.calls.map (·.stage)) = [.done (.ok ()), .done (.error
        (.withMessage .einval "the new path is inside the old directory"))] ∧
      Below checkedLater.tree.parent 3 0 ∧
      ¬ Relation.TransGen (fun a b => checkedLater.tree.parent a = some b) 3 3 := by
  have hreached : Reached Serialized checkedLater :=
    reached_of_along serialized_of_apart (.init twoDirs_ok) (by decide)
  have hlt : 3 < checkedLater.tree.dentries.length := by decide
  obtain ⟨hbelow, -, hcycle, -⟩ := renames_keep_tree hreached hlt
  exact ⟨by decide, rfl, hbelow, hcycle⟩

end World

end Asterinas.Vfs
