import Asterinas.Vfs.RenameTree

/-!
# The order of the locks of two directories

`write_lock_children_on_two_dentries` locks in the order of the keys, which are the names and
parents of the directories.  A removed directory keeps its key, which another one may have by then;
and a directory may be renamed when a call has read its key and not yet taken its lock.  Without
either, the keys of the two directories differ and the calls do not wait in a cycle.
-/

namespace Asterinas.Vfs

open Framework List Option

namespace Tree

variable {t t' : Tree} {d d' : ℕ} {moved : List ℕ}

/-- The directory is the root, or cached by its parent under its name. -/
def inPlace (t : Tree) (d : ℕ) : Bool :=
  match t.nameAndParent d with
  | .root => true
  | .named name parent => (t.children parent).find name = some (.positive d)
  | _ => false

lemma cases_of_inPlace (h : t.inPlace d = true) : t.nameAndParent d = .root ∨
    ∃ name parent, t.nameAndParent d = .named name parent ∧
      (t.children parent).find name = some (.positive d) := by
  unfold inPlace at h
  split at h
  · next hroot => exact .inl hroot
  · next name parent hnamed => exact .inr ⟨name, parent, hnamed, of_decide_eq_true h⟩
  · cases h

/-- Directories that are in place have different keys. -/
lemma eq_of_key_eq (h : t.inPlace d = true) (h' : t.inPlace d' = true)
    (hkey : t.key d = t.key d') : d = d' := by
  obtain ⟨hname, hptr⟩ := DentryKey.mk.inj hkey
  rw [Tree.name, Tree.name] at hname
  rw [parentPtr, parentPtr, Tree.parent, Tree.parent] at hptr
  replace h := cases_of_inPlace h
  replace h' := cases_of_inPlace h'
  rcases h with h | ⟨name, parent, h, hfind⟩
  · rcases h' with h' | ⟨name', parent', h', -⟩
    · rw [h, h'] at hptr
      exact hptr
    · rw [h, h'] at hname
      change [slash] = name'.1 at hname
      exact absurd (hname ▸ mem_singleton.mpr rfl) name'.2
  · rcases h' with h' | ⟨name', parent', h', hfind'⟩
    · rw [h, h'] at hname
      change name.1 = [slash] at hname
      exact absurd (hname ▸ mem_singleton.mpr rfl) name.2
    · rw [h, h'] at hname hptr
      obtain rfl : name = name' := Subtype.ext hname
      obtain rfl : parent = parent' := hptr
      rw [hfind, Option.some.injEq, CachedDentry.positive.injEq] at hfind'
      exact hfind'

lemma Extends.key (h : Extends t t') (hd : d < t.dentries.length) : t'.key d = t.key d := by
  rw [Tree.key, Tree.key, Tree.name, Tree.name, parentPtr, parentPtr, Tree.parent, Tree.parent,
    h.nameAndParent d hd]

lemma Moves.key (h : Moves t t' moved) (hd : d ∉ moved) : t'.key d = t.key d := by
  rw [Tree.key, Tree.key, Tree.name, Tree.name, parentPtr, parentPtr, Tree.parent, Tree.parent,
    h.other d hd]

end Tree

namespace Call

variable {σ : Type} {env : Env σ} {free : ℕ → Bool} {t t' : Tree} {fs : σ} {c : Call}

/-- The call has begun to read the keys of its directories, or to take their locks. -/
def takesLocks (c : Call) : Bool :=
  match c.stage with
  | .readingOld _ | .keyed _ | .readingNew _ _ | .locking _ _ => true
  | _ => false

/-- The directories of a rename between two directories that has begun to read their keys and does
not have both locks. -/
def lockingDirs (c : Call) : List ℕ :=
  match c.request with
  | .rename r => if r.oldDir ≠ r.newDir ∧ c.takesLocks = true then r.dirs else []
  | _ => []

lemma lockingDirs_of_takesLocks {r : Rename} (hr : c.request = .rename r)
    (hne : r.oldDir ≠ r.newDir) (h : c.takesLocks = true) : c.lockingDirs = r.dirs := by
  rw [lockingDirs, hr]
  exact if_pos ⟨hne, h⟩

lemma of_mem_lockingDirs {d : ℕ} (hd : d ∈ c.lockingDirs) :
    d ∈ c.request.dirs ∧ c.stage.Active := by
  obtain ⟨request, stage⟩ := c
  cases request with
  | rename r =>
    obtain ⟨⟨-, htakes⟩, hd⟩ := List.mem_ite_nil_right.mp hd
    refine ⟨hd, ?_⟩
    cases stage <;> trivial
  | _ => cases hd

/-- What the rename has read of the keys is what the directories have. -/
def ReadsAs (t : Tree) (r : Rename) : Stage → Prop
  | .readingOld name => name = t.name r.oldDir
  | .keyed key => key = t.key r.oldDir
  | .readingNew key name => key = t.key r.oldDir ∧ name = t.name r.newDir
  | _ => True

/-- The call reads the keys of two directories. -/
def Reading : Stage → Prop
  | .readingOld _ | .keyed _ | .readingNew _ _ => True
  | _ => False

/-- The call has not panicked, what it has read of the keys is right, and it takes two locks in the
order of their keys. -/
structure Ordered (t : Tree) (c : Call) : Prop where
  not_panicked : c.stage ≠ .panicked
  reading : Reading c.stage →
    ∃ r, c.request = .rename r ∧ r.oldDir ≠ r.newDir ∧ ReadsAs t r c.stage
  locking : ∀ held todo, c.stage = .locking held todo → (held = [] ∧ todo.length ≤ 1) ∨
    ∃ a b, held ++ todo = [a, b] ∧ a ∈ c.lockingDirs ∧ b ∈ c.lockingDirs ∧
      (t.key a).order < (t.key b).order

/-- A stage at which there is nothing to say. -/
def Settled : Stage → Prop
  | .readingOld _ | .keyed _ | .readingNew _ _ | .locking _ _ | .panicked => False
  | _ => True

variable {request : Request} {stage stage' : Stage} {r : Rename}

lemma ordered_of_settled (h : Settled stage) : Ordered t ⟨request, stage⟩ := by
  refine ⟨fun hstage => ?_, fun hstage => ?_, fun held todo hstage => ?_⟩
  · change stage = _ at hstage
    rw [hstage] at h
    exact h.elim
  · cases stage <;> first | exact hstage.elim | exact h.elim
  · change stage = _ at hstage
    rw [hstage] at h
    exact h.elim

lemma ordered_of_one {dir : ℕ} : Ordered t ⟨request, .locking [] [dir]⟩ := by
  refine ⟨fun hstage => (by cases hstage), fun hstage => hstage.elim,
    fun held todo hstage => .inl ?_⟩
  cases hstage
  exact ⟨rfl, le_rfl⟩

lemma ordered_of_readsAs (hstage : Reading stage) (hne : r.oldDir ≠ r.newDir)
    (h : ReadsAs t r stage) : Ordered t ⟨.rename r, stage⟩ := by
  refine ⟨fun heq => ?_, fun _ => ⟨r, rfl, hne, h⟩, fun held todo heq => ?_⟩
  all_goals
    change stage = _ at heq
    rw [heq] at hstage
    exact hstage.elim

lemma takesLocks_of_reading (hstage : Reading stage) : takesLocks ⟨request, stage⟩ = true := by
  cases stage <;> first | exact hstage.elim | rfl

lemma ReadsAs.of_key (h : ReadsAs t r stage) (hold : t'.key r.oldDir = t.key r.oldDir)
    (hnew : t'.key r.newDir = t.key r.newDir) : ReadsAs t' r stage := by
  cases stage with
  | readingOld name => exact h.trans (congrArg DentryKey.name hold).symm
  | keyed key => exact h.trans hold.symm
  | readingNew key name =>
    exact ⟨h.1.trans hold.symm, h.2.trans (congrArg DentryKey.name hnew).symm⟩
  | _ => trivial

/-- A call keeps its order when the keys of its directories stay. -/
lemma Ordered.of_key (h : c.Ordered t) (hkey : ∀ d ∈ c.lockingDirs, t'.key d = t.key d) :
    c.Ordered t' := by
  refine ⟨h.not_panicked, fun hstage => ?_, fun held todo hstage => ?_⟩
  · obtain ⟨r, hr, hne, hreads⟩ := h.reading hstage
    obtain ⟨request, stage⟩ := c
    subst hr
    rw [lockingDirs_of_takesLocks rfl hne (takesLocks_of_reading hstage)] at hkey
    exact ⟨r, rfl, hne, hreads.of_key (hkey _ r.oldDir_mem) (hkey _ r.newDir_mem)⟩
  · rcases h.locking held todo hstage with hone | ⟨a, b, heq, ha, hb, hlt⟩
    · exact .inl hone
    · refine .inr ⟨a, b, heq, ha, hb, ?_⟩
      rw [hkey a ha, hkey b hb]
      exact hlt

/-- A step of a call keeps its order, when its directories are in place as it compares the keys. -/
lemma Steps.ordered {fs' : σ} (hsteps : Steps env free t fs request stage t' fs' stage')
    (h : Ordered t ⟨request, stage⟩) (htree : t.Ok False) (hok : Ok False t ⟨request, stage⟩)
    (hplace : ∀ r, request = .rename r → ∀ key name, stage = .readingNew key name →
      t.inPlace r.oldDir = true ∧ t.inPlace r.newDir = true) : Ordered t' ⟨request, stage'⟩ := by
  cases hsteps with
  | stays => exact h
  | begins => exact ordered_of_one
  | reads _ hne => exact ordered_of_readsAs trivial hne rfl
  | readsParent =>
    obtain ⟨r, hr, hne, hname⟩ := h.reading trivial
    cases hr
    refine ordered_of_readsAs trivial hne ?_
    change _ = t.name _ at hname
    rw [hname]
    rfl
  | readsNew =>
    obtain ⟨r, hr, hne, hkey⟩ := h.reading trivial
    cases hr
    exact ordered_of_readsAs trivial hne ⟨hkey, rfl⟩
  | @clashes r name =>
    obtain ⟨r', hr, hne, hkey, hname⟩ := h.reading trivial
    cases hr
    obtain ⟨hold, hnew⟩ := hplace r rfl _ _ rfl
    rw [hname] at hkey
    exact absurd (Tree.eq_of_key_eq hold hnew hkey.symm) hne
  | @orders r key key' name a b hkey' hdirs =>
    obtain ⟨r', hr, hne, rfl, rfl⟩ := h.reading trivial
    cases hr
    subst hkey'
    have hlocking : lockingDirs ⟨.rename r, .locking [] [a, b]⟩ = r.dirs :=
      lockingDirs_of_takesLocks rfl hne rfl
    refine ⟨fun hstage => (by cases hstage), fun hstage => hstage.elim,
      fun held todo hstage => .inr ⟨a, b, ?_, ?_⟩⟩
    · cases hstage
      rfl
    · rw [hlocking]
      rcases hdirs with ⟨rfl, rfl, hlt⟩ | ⟨rfl, rfl, hlt⟩
      · exact ⟨r.oldDir_mem, r.newDir_mem, hlt⟩
      · exact ⟨r.newDir_mem, r.oldDir_mem, hlt⟩
  | @takes _ held todo d _ htodo =>
    refine ⟨fun hstage => (by cases hstage), fun hstage => hstage.elim,
      fun held' todo' hstage => ?_⟩
    cases hstage
    rcases h.locking held (d :: todo) rfl with ⟨-, hone⟩ | ⟨a, b, heq, hrest⟩
    · rw [length_cons] at hone
      exact absurd (length_eq_zero_iff.mp (by omega)) htodo
    · refine .inr ⟨a, b, ?_, hrest⟩
      rw [append_assoc]
      exact heq
  | @updates r old new =>
    obtain ⟨t', hupdate, -⟩ := @update_spec σ False env t fs r old new htree hok
    rw [hupdate]
    exact ordered_of_settled trivial
  | _ => exact ordered_of_settled trivial

/-- The directories of the rename are in place when it compares their keys, and it gives no new name
to a directory of which another call has begun to read the key and does not have the lock. -/
def keepsKeys (w : World) (c : Call) : Bool :=
  match c.request, c.stage with
  | .rename r, .readingNew _ _ => w.tree.inPlace r.oldDir && w.tree.inPlace r.newDir
  | .rename r, .renamed old new => w.calls.all fun c' => c'.lockingDirs.all fun d =>
      d ≠ old && decide (r.mode = .exchange → new ≠ some d)
  | _, _ => true

end Call

namespace World

variable {w : World} {i j : ℕ}

/-- The call that makes the step keeps the keys. -/
def keysStable (w : World) : Event → Bool
  | .start _ => true
  | .step i _ _ => (w.calls[i]?).all (·.keepsKeys w)

/-- The directories of a rename are in place when it compares their keys, and no directory is
renamed of which a call has read the key and does not have the lock. -/
def KeysStable (w : World) (e : Event) : Prop := w.keysStable e = true

lemma inPlace_of_keepsKeys {c : Call} (h : c.keepsKeys w = true) (r : Rename)
    (hr : c.request = .rename r) (key : DentryKey) (name : List Byte)
    (hstage : c.stage = .readingNew key name) :
    w.tree.inPlace r.oldDir = true ∧ w.tree.inPlace r.newDir = true := by
  rw [Call.keepsKeys, hr, hstage] at h
  exact Bool.and_eq_true_iff.mp h

lemma ne_of_keepsKeys {c c' : Call} {r : Rename} {old d : ℕ} {new : Option ℕ}
    (h : c.keepsKeys w = true) (hr : c.request = .rename r) (hstage : c.stage = .renamed old new)
    (hc' : c' ∈ w.calls) (hd : d ∈ c'.lockingDirs) :
    d ≠ old ∧ (r.mode = .exchange → new ≠ some d) := by
  rw [Call.keepsKeys, hr, hstage] at h
  simpa [imp_iff_not_or] using all_eq_true.mp (all_eq_true.mp h c' hc') d hd

/-- The first call waits for a lock that the second one holds. -/
def WaitsFor (w : World) (i j : ℕ) : Prop :=
  ∃ (ci cj : Call) (held : List ℕ) (d : ℕ) (todo : List ℕ), w.calls[i]? = some ci ∧
    ci.stage = .locking held (d :: todo) ∧ w.calls[j]? = some cj ∧ d ∈ cj.holds

lemma ordered_step (hok : w.Ok False) (h : ∀ c ∈ w.calls, c.Ordered w.tree) (e : Event)
    (he : w.KeysStable e) : ∀ c ∈ (w.step e).calls, c.Ordered (w.step e).tree := by
  cases e with
  | start request =>
    intro c hc
    rcases mem_append.mp hc with hc | hc
    · exact h c hc
    · exact mem_singleton.mp hc ▸ Call.ordered_of_settled trivial
  | step i env fuel =>
    unfold World.step
    dsimp only
    split
    · next c hi =>
      have hmem := mem_of_getElem? hi
      have hcall := hok.calls i c hi
      have hsteps := @Call.steps Unit env fuel w.free w.tree () c
      have hkeeps : c.keepsKeys w = true := by
        rw [KeysStable, keysStable, hi] at he
        exact he
      have hself := hsteps.ordered (h c hmem) hok.tree hcall (inPlace_of_keepsKeys hkeeps)
      have heffect := hsteps.effect hok.tree hcall
      generalize (c.step env fuel w.free w.tree ()).1 = t' at hself heffect ⊢
      generalize (c.step env fuel w.free w.tree ()).2.2 = stage at hself heffect ⊢
      -- The keys of the other calls stay.
      have hkey : ∀ c' ∈ w.calls, ∀ d ∈ c'.lockingDirs, t'.key d = w.tree.key d := by
        intro c' hc' d hd
        cases heffect with
        | grows hext _ _ _ =>
          obtain ⟨k, hk⟩ := mem_iff_getElem?.mp hc'
          obtain ⟨hdir, hactive⟩ := Call.of_mem_lockingDirs hd
          exact hext.key (Tree.lt_of_isDir ((hok.calls k c' hk).isDir hactive d hdir))
        | moves r old new moved hr hstage _ _ hmoves hmoved =>
          obtain ⟨hne, hne'⟩ := ne_of_keepsKeys hkeeps hr hstage hc' hd
          refine hmoves.key fun hin => ?_
          rcases hmoved d hin with ⟨rfl, -⟩ | ⟨hmode, heq, -⟩
          · exact hne rfl
          · exact hne' hmode heq
      intro c' hc'
      rcases mem_or_eq_of_mem_set hc' with hc' | rfl
      · exact (h c' hc').of_key (hkey c' hc')
      · exact hself
    · exact h

lemma Reached.ordered (h : Reached KeysStable w) : ∀ c ∈ w.calls, c.Ordered w.tree := by
  induction h with
  | init => exact fun c hc => absurd hc not_mem_nil
  | step e hreached he ih =>
    exact ordered_step (hreached.ok fun _ _ _ hfalse => hfalse.elim) ih e he

/-- What a call waits for that another one waits for comes before what that one waits for. -/
lemma order_lt_of_waitsFor {ci cj : Call} {hi ti hj tj : List ℕ} {di dj : ℕ}
    (h : ∀ c ∈ w.calls, c.Ordered w.tree) (hci : w.calls[i]? = some ci)
    (hsi : ci.stage = .locking hi (di :: ti)) (hcj : w.calls[j]? = some cj)
    (hsj : cj.stage = .locking hj (dj :: tj)) (hwaits : w.WaitsFor i j) :
    (w.tree.key di).order < (w.tree.key dj).order := by
  obtain ⟨ci', cj', held, d, todo, hci', hstage, hcj', hd⟩ := hwaits
  obtain rfl := some.inj (hci.symm.trans hci')
  obtain rfl := some.inj (hcj.symm.trans hcj')
  obtain ⟨-, htodo⟩ := Stage.locking.inj (hsi.symm.trans hstage)
  obtain ⟨rfl, -⟩ := cons.inj htodo
  rw [Call.holds, hsj] at hd
  rcases (h cj (mem_of_getElem? hcj)).locking hj (dj :: tj) hsj with
    ⟨hnil, -⟩ | ⟨a, b, heq, -, -, hlt⟩
  · exact absurd (hnil ▸ hd) not_mem_nil
  · -- It holds the first of its two locks.
    cases hj with
    | nil => exact absurd hd not_mem_nil
    | cons x xs =>
      obtain ⟨rfl, hrest⟩ := cons.inj heq
      cases xs with
      | nil =>
        obtain ⟨rfl, -⟩ := cons.inj hrest
        exact mem_singleton.mp hd ▸ hlt
      | cons y ys =>
        have hlen := congrArg length heq
        simp only [length_append, length_cons, length_nil] at hlen
        omega

lemma not_cycle_of_ordered (h : ∀ c ∈ w.calls, c.Ordered w.tree) (i : ℕ) :
    ¬ Relation.TransGen w.WaitsFor i i := by
  have hlt : ∀ j, Relation.TransGen w.WaitsFor i j →
    ∀ (ci cj : Call) (hi hj ti tj : List ℕ) (di dj : ℕ),
      w.calls[i]? = some ci → ci.stage = .locking hi (di :: ti) → w.calls[j]? = some cj →
      cj.stage = .locking hj (dj :: tj) → (w.tree.key di).order < (w.tree.key dj).order := by
    intro j hcycle
    induction hcycle with
    | single hwaits =>
      intro ci cj hi hj ti tj di dj hci hsi hcj hsj
      exact order_lt_of_waitsFor h hci hsi hcj hsj hwaits
    | tail _ hwaits ih =>
      intro ci cj hi hj ti tj di dj hci hsi hcj hsj
      obtain ⟨ck, -, held, d, todo, hck, hsk, -⟩ := id hwaits
      exact (ih ci ck hi held ti todo di d hci hsi hck hsk).trans
        (order_lt_of_waitsFor h hck hsk hcj hsj hwaits)
  intro hcycle
  obtain ⟨k, ⟨ci, ck, held, d, todo, hci, hsi, -⟩, -⟩ := Relation.TransGen.head'_iff.mp hcycle
  exact lt_irrefl _ (hlt i hcycle ci ci held held todo todo d d hci hsi hci hsi)

/-- In every run in which the directories of a rename are in place when their keys are compared, and
no directory is renamed between the first read of a call and the taking of its locks, the keys that
are compared are those of the directories and differ, no call panics, and the calls do not wait for
each other in a cycle. -/
theorem two_dirs_locked_in_order (h : Reached KeysStable w) :
    (∀ c ∈ w.calls, ∀ r key name, c.request = .rename r → c.stage = .readingNew key name →
      w.tree.inPlace r.oldDir = true → w.tree.inPlace r.newDir = true →
      key = w.tree.key r.oldDir ∧ ⟨name, w.tree.parentPtr r.newDir⟩ = w.tree.key r.newDir ∧
        w.tree.key r.oldDir ≠ w.tree.key r.newDir) ∧
    (∀ c ∈ w.calls, c.stage ≠ .panicked) ∧ ∀ i, ¬ Relation.TransGen w.WaitsFor i i := by
  have hordered := h.ordered
  refine ⟨fun c hc r key name hr hstage hold hnew => ?_, fun c hc => (hordered c hc).not_panicked,
    not_cycle_of_ordered hordered⟩
  obtain ⟨r', hr', hne, hreads⟩ := (hordered c hc).reading (by rw [hstage]; trivial)
  obtain rfl := Request.rename.inj (hr.symm.trans hr')
  rw [hstage] at hreads
  obtain ⟨hkey, hname⟩ := hreads
  exact ⟨hkey, by rw [hname, Tree.key], fun heq => hne (Tree.eq_of_key_eq hold hnew heq)⟩

/-- `/q/b/d` to `/p/z`. -/
def thirdRename : Rename := ⟨5, letter 3, 1, letter 25, .replace⟩

/-- Two calls read their keys and take their locks in turns, until the first one has to wait. -/
def waiting : World :=
  let events := [.start (.rename firstRename), .start (.rename thirdRename)] ++
    [0, 1, 1, 0, 0, 1, 0, 1, 0, 1, 1, 0].flatMap (steps · 1)
  events.foldl step ⟨twoDirs, []⟩

theorem two_dirs_locked_in_order_of_waiting :
    waiting.calls.map (·.stage) = [.locking [6] [1], .locked] ∧ waiting.WaitsFor 0 1 ∧
      (∀ c ∈ waiting.calls, c.stage ≠ .panicked) ∧
      ∀ i, ¬ Relation.TransGen waiting.WaitsFor i i := by
  have hreached : Reached KeysStable waiting :=
    reached_of_along (fun _ _ he => he) (.init twoDirs_ok) (by decide : along keysStable _ _ = true)
  obtain ⟨-, hpanic, hcycle⟩ := two_dirs_locked_in_order hreached
  refine ⟨rfl, ⟨_, _, _, _, _, rfl, rfl, rfl, ?_⟩, hpanic, hcycle⟩
  exact mem_cons_of_mem _ mem_cons_self

/-- `/a` is made, removed and made again; then `x` is renamed from the removed directory to the new
one. -/
def removedAndMade : World :=
  let root := Tree.newRoot emptyFs ⟨0, .dir⟩
  let events := [.start (.createChild 0 (letter 0))] ++ steps 0 3 ++
    [.start (.rmdir 0 (letter 0))] ++ steps 1 3 ++
    [.start (.createChild 0 (letter 0))] ++ steps 2 3 ++
    [.start (.rename ⟨1, letter 23, 2, letter 24, .replace⟩)] ++ steps 3 4
  events.foldl step ⟨root, []⟩

/-- A call locks `/a`, to lock `/b` next; `/a` becomes `/c`; then a call locks `/b`, to lock `/c`
next. -/
def renamedInBetween : World :=
  let root := Tree.newRoot emptyFs ⟨0, .dir⟩
  let events := [.start (.createChild 0 (letter 0))] ++ steps 0 3 ++
    [.start (.createChild 0 (letter 1))] ++ steps 1 3 ++
    [.start (.rename ⟨1, letter 23, 2, letter 24, .replace⟩)] ++ steps 2 5 ++
    [.start (.rename ⟨0, letter 0, 0, letter 2, .replace⟩)] ++ steps 3 7 ++
    [.start (.rename ⟨2, letter 23, 1, letter 24, .replace⟩)] ++ steps 4 5
  events.foldl step ⟨root, []⟩

/-- In `/p/x` and `/q/x` a call reads the name of the first directory; `/p/x` becomes `/q/y`; then
the call reads the rest of the two keys. -/
def movedBetweenReads : World :=
  let root := Tree.newRoot emptyFs ⟨0, .dir⟩
  let events := [.start (.createChild 0 (letter 15))] ++ steps 0 3 ++
    [.start (.createChild 0 (letter 16))] ++ steps 1 3 ++
    [.start (.createChild 1 (letter 23))] ++ steps 2 3 ++
    [.start (.createChild 2 (letter 23))] ++ steps 3 3 ++
    [.start (.rename ⟨3, letter 0, 4, letter 1, .replace⟩)] ++ steps 4 1 ++
    [.start (.rename ⟨1, letter 23, 2, letter 24, .replace⟩)] ++ steps 5 11 ++ steps 4 3
  events.foldl step ⟨root, []⟩

/-- In the first and the second world a call has panicked; in the third two calls wait for each
other. -/
theorem two_dirs_panic_and_deadlock :
    (Reached (fun _ _ => True) removedAndMade ∧
      (removedAndMade.calls.map (·.stage))[3]? = some .panicked) ∧
    (Reached (fun _ _ => True) movedBetweenReads ∧
      (movedBetweenReads.calls.map (·.stage)).drop 4 = [.panicked, .done (.ok ())] ∧
      movedBetweenReads.tree.key 3 ≠ movedBetweenReads.tree.key 4) ∧
    Reached (fun _ _ => True) renamedInBetween ∧
        Relation.TransGen renamedInBetween.WaitsFor 2 2 := by
  have hroot : (Tree.newRoot emptyFs ⟨0, .dir⟩).Ok True := Tree.ok_newRoot _
  refine ⟨⟨reached_foldl _ (.init hroot), rfl⟩, ⟨reached_foldl _ (.init hroot), rfl, by decide⟩,
    reached_foldl _ (.init hroot), ?_⟩
  have hfirst : renamedInBetween.WaitsFor 2 4 := by
    refine ⟨⟨.rename ⟨1, letter 23, 2, letter 24, .replace⟩, .locking [1] [2]⟩,
      ⟨.rename ⟨2, letter 23, 1, letter 24, .replace⟩, .locking [2] [1]⟩, [1], 2, [], rfl, rfl,
        rfl, ?_⟩
    exact mem_singleton.mpr rfl
  have hsecond : renamedInBetween.WaitsFor 4 2 := by
    refine ⟨⟨.rename ⟨2, letter 23, 1, letter 24, .replace⟩, .locking [2] [1]⟩,
      ⟨.rename ⟨1, letter 23, 2, letter 24, .replace⟩, .locking [1] [2]⟩, [2], 1, [], rfl, rfl,
        rfl, ?_⟩
    exact mem_singleton.mpr rfl
  exact .head hfirst (.single hsecond)

end World

end Asterinas.Vfs
