import Asterinas.Process.CredentialsCorrectness

/-!
# What the secure bits do not do

`NO_SETUID_FIXUP` stops the adjustment of the capabilities in `set_resuid_unchecked`, but not the
one in `set_fsuid_unchecked`, which the former calls first.  The latter in turn only takes
capabilities away: a filesystem UID that becomes root gives none back.

`apply_exec_cred` clears `KEEP_CAPS` with the check for locked bits, at a point where `execve`
cannot be undone any more.
-/

namespace Asterinas.Process

open Framework Exec Finset

namespace Credentials

/-! ### Changes of the user IDs -/

/-- The calls that set user IDs. -/
def Call.SetsUid : Call → Prop
  | .setId .user _ | .setRe .user _ _ | .setRes .user _ _ _ | .setFsuid _ => True
  | _ => False

section

variable (s : Credentials) (real effective saved : Option ℕ)

/-- A thread with `CAP_SETUID` may set any user IDs, another one those that it has; `setreuid` does
not let it make the saved one the real one. -/
def MaySetUids (realMayBeOldSaved : Bool) : Prop :=
  .setuid ∈ s.effective ∨
    (∀ id ∈ real, id = s.uid.real ∨ id = s.uid.effective ∨ realMayBeOldSaved ∧ id = s.uid.saved) ∧
    (∀ id ∈ effective, id = s.uid.real ∨ id = s.uid.effective ∨ id = s.uid.saved) ∧
    ∀ id ∈ saved, id = s.uid.real ∨ id = s.uid.effective ∨ id = s.uid.saved

instance (realMayBeOldSaved : Bool) :
    Decidable (s.MaySetUids real effective saved realMayBeOldSaved) :=
  inferInstanceAs (Decidable (_ ∨ _))

/-- The new user IDs; the filesystem UID follows the effective one. -/
def newUids : Ids :=
  { s.uid.set real effective saved with fs := (s.uid.set real effective saved).effective }

end

/-- The user IDs after a call, by its arguments and the credentials before it. -/
def Call.uidsAfter (s : Credentials) : Call → Ids
  | .setId .user id =>
    if id < 0 then s.uid
    else if .setuid ∈ s.effective then s.newUids (some id.toNat) (some id.toNat) (some id.toNat)
    else if s.MaySetUids none (some id.toNat) none true then s.newUids none (some id.toNat) none
    else s.uid
  | .setRe .user real effective =>
    if s.MaySetUids (idArg real) (idArg effective) none false then
      s.newUids (idArg real) (idArg effective)
        (if (idArg real).isSome ∨ ∃ id ∈ idArg effective, id ≠ s.uid.real then
          some ((idArg effective).getD s.uid.effective) else none)
    else s.uid
  | .setRes .user real effective saved =>
    if s.MaySetUids (idArg real) (idArg effective) (idArg saved) true then
      s.newUids (idArg real) (idArg effective) (idArg saved)
    else s.uid
  | .setFsuid fsuid =>
    if 0 ≤ fsuid ∧ s.MaySetUids none (some fsuid.toNat) none true then
      { s.uid with fs := fsuid.toNat }
    else s.uid
  | _ => s.uid

/-- The last of the IDs of root is given up, and nothing asks to keep the capabilities. -/
def LeavesRoot (s : Credentials) (ids : Ids) : Prop :=
  (isRoot s.uid.real ∨ isRoot s.uid.effective ∨ isRoot s.uid.saved) ∧
    (¬ isRoot ids.real ∧ ¬ isRoot ids.effective ∧ ¬ isRoot ids.saved) ∧
    .keepCaps ∉ s.securebits.bits

instance (s : Credentials) (ids : Ids) : Decidable (s.LeavesRoot ids) :=
  inferInstanceAs (Decidable (_ ∧ _))

/-- The effective set as the filesystem UID makes it. -/
def fsEffective (s s' : Credentials) : CapSet :=
  if isRoot s.uid.fs ∧ ¬ isRoot s'.uid.fs then s.effective \ fsCaps else s.effective

/-- What a change of the user IDs does to the capability sets. -/
structure FixesUp (s s' : Credentials) : Prop where
  frozen : .noSetuidFixup ∈ s.securebits.bits →
    s'.permitted = s.permitted ∧ s'.ambient = s.ambient ∧ s'.effective = s.fsEffective s'
  permitted : .noSetuidFixup ∉ s.securebits.bits →
    s'.permitted = if LeavesRoot s s'.uid then ∅ else s.permitted
  effective : .noSetuidFixup ∉ s.securebits.bits → s'.effective =
    if LeavesRoot s s'.uid ∨ isRoot s.uid.effective ∧ ¬ isRoot s'.uid.effective then ∅
    else if ¬ isRoot s.uid.effective ∧ isRoot s'.uid.effective then s.permitted
    else s.fsEffective s'
  ids : s'.uid.fs = s'.uid.effective ∨ s'.uid = { s.uid with fs := s'.uid.fs }

variable {s s' : Credentials} {call : Call}

/-- The IDs of root are not given up with the filesystem UID. -/
lemma not_leavesRoot (h : s'.uid = { s.uid with fs := s'.uid.fs }) : ¬ LeavesRoot s s'.uid := by
  unfold LeavesRoot
  rw [h]
  rintro ⟨hroot | hroot | hroot, ⟨hreal, heffective, hsaved⟩, -⟩
  · exact hreal hroot
  · exact heffective hroot
  · exact hsaved hroot

section

variable (s : Credentials)

lemma setFsuidUnchecked_eq (fsuid : ℕ) :
    s.setFsuidUnchecked fsuid = { s with
      uid.fs := fsuid
      effective := if isRoot s.uid.fs ∧
          ¬ isRoot fsuid then s.effective \ fsCaps else s.effective } := by
  unfold setFsuidUnchecked
  split_ifs <;> rfl

lemma fixesUp_setFsuidUnchecked (fsuid : ℕ) : FixesUp s (s.setFsuidUnchecked fsuid) := by
  rw [setFsuidUnchecked_eq]
  refine ⟨fun _ => ⟨rfl, rfl, rfl⟩, fun _ => (if_neg (not_leavesRoot rfl)).symm, fun _ => ?_,
    .inr rfl⟩
  refine Eq.symm ((if_neg fun h => ?_).trans (if_neg fun h => h.1 h.2))
  exact h.elim (not_leavesRoot rfl) fun h => h.2 h.1

lemma fixesUp_refl : FixesUp s s := by
  have h := fixesUp_setFsuidUnchecked s s.uid.fs
  rwa [setFsuidUnchecked_eq, if_neg fun h => h.2 h.1] at h

/-- The fix-up as far as it concerns the permitted and the effective set. -/
lemma fixupCapsets_spec (old new : Ids) :
    let leaves := (isRoot old.real ∨ isRoot old.effective ∨ isRoot old.saved) ∧
      (¬ isRoot new.real ∧ ¬ isRoot new.effective ∧ ¬ isRoot new.saved) ∧
        .keepCaps ∉ s.securebits.bits
    (s.fixupCapsets old new).uid = s.uid ∧
      (s.fixupCapsets old new).permitted = (if leaves then ∅ else s.permitted) ∧
      (s.fixupCapsets old new).effective =
        if leaves ∨ isRoot old.effective ∧ ¬ isRoot new.effective then ∅
        else if ¬ isRoot old.effective ∧ isRoot new.effective then s.permitted
        else s.effective := by
  unfold fixupCapsets setPermittedCapset setEffectiveCapset clearAmbientCapset
  dsimp only
  refine ⟨?_, ?_, ?_⟩
  · split_ifs <;> rfl
  · grind
  · grind

lemma fixesUp_setResuidUnchecked (ruid euid suid : Option ℕ) :
    FixesUp s (s.setResuidUnchecked ruid euid suid) := by
  unfold setResuidUnchecked
  simp only [setFsuidUnchecked_eq]
  by_cases hbit : .noSetuidFixup ∈ s.securebits.bits
  · rw [if_pos hbit]
    exact ⟨fun _ => ⟨rfl, rfl, rfl⟩, absurd hbit, absurd hbit, .inl rfl⟩
  · rw [if_neg hbit]
    generalize hs' : fixupCapsets _ s.uid _ = s'
    obtain ⟨huid, hpermitted, heffective⟩ := hs' ▸ fixupCapsets_spec ..
    refine ⟨fun h => absurd h hbit, fun _ => ?_, fun _ => ?_, .inl (by rw [huid])⟩
    · simp only [hpermitted, LeavesRoot, huid]
    · simp only [heffective, LeavesRoot, fsEffective, huid]
      rfl

end

/-- A call that sets user IDs fixes up the capability sets in this way. -/
lemma Call.SetsUid.fixesUp (hcall : call.SetsUid) (hstep : Step s call s') : FixesUp s s' := by
  have hsets : ∀ s', IdKind.user.Sets s s' → FixesUp s s' := by
    rintro s' (rfl | ⟨ruid, euid, suid, rfl⟩)
    · exact fixesUp_refl s'
    · exact fixesUp_setResuidUnchecked s ruid euid suid
  have hrun : twp call.run (fun _ => FixesUp s) (fun _ => FixesUp s) s := by
    cases call with
    | setId kind id =>
      cases kind with
      | group => exact hcall.elim
      | user =>
        simp only [Call.run, sysSetId, twp_bind, twp_failIf]
        exact ⟨fun _ => fixesUp_refl s, fun _ => (twp_setId _ _).mono (fun _ => hsets) fun _ =>
          hsets⟩
    | setRe kind _ _ =>
      cases kind with
      | group => exact hcall.elim
      | user => exact (twp_setRe _ _ _).mono (fun _ => hsets) fun _ => hsets
    | setRes kind _ _ _ =>
      cases kind with
      | group => exact hcall.elim
      | user => exact (twp_setRes _ _ _ _).mono (fun _ => hsets) fun _ => hsets
    | setFsuid fsuid =>
      simp only [Call.run, Credentials.setFsuid, twp_bind, twp_get]
      cases idArg fsuid with
      | none => exact fixesUp_refl s
      | some fsuid =>
        dsimp only
        split
        · exact fixesUp_refl s
        · exact fixesUp_setFsuidUnchecked s fsuid
    | _ => exact hcall.elim
  cases hstep with
  | ok h => exact hrun.of_ok h
  | err h => exact hrun.of_err h

lemma twp_checkUidPerm (real effective saved : Option ℕ) (old : Bool) :
    twp (IdKind.user.checkPerm real effective saved old)
      (fun _ s' => s' = s ∧ s.MaySetUids real effective saved old)
      (fun _ s' => s' = s ∧ ¬ s.MaySetUids real effective saved old) s := by
  simp only [IdKind.checkPerm, twp_bind, twp_get]
  split
  · rename_i h
    exact ⟨rfl, .inl h⟩
  · rename_i h
    simp only [twp_bind, twp_failIf]
    simp only [IdKind.ids, IdKind.capability, MaySetUids] at h ⊢
    grind

lemma uid_setResuidUnchecked (s : Credentials) (ruid euid suid : Option ℕ) :
    (s.setResuidUnchecked ruid euid suid).uid = s.newUids ruid euid suid := by
  unfold setResuidUnchecked
  simp only [setFsuidUnchecked_eq]
  split
  · rfl
  · exact (fixupCapsets_spec ..).1

lemma Call.SetsUid.uid_eq (hcall : call.SetsUid) (hstep : Step s call s') :
    s'.uid = call.uidsAfter s := by
  have hres : ∀ real effective saved, twp (IdKind.user.setRes real effective saved)
      (fun _ s' => s'.uid = if s.MaySetUids real effective saved true then
        s.newUids real effective saved else s.uid)
      (fun _ s' => s'.uid = if s.MaySetUids real effective saved true then
        s.newUids real effective saved else s.uid) s := by
    intro real effective saved
    refine (twp_checkUidPerm real effective saved true).seq ?_ ?_
    · rintro _ _ ⟨rfl, hmay⟩
      rw [if_neg hmay]
    · rintro _ _ ⟨rfl, hmay⟩
      rw [if_pos hmay]
      exact uid_setResuidUnchecked ..
  have hrun : twp call.run (fun _ s' => s'.uid = call.uidsAfter s)
      (fun _ s' => s'.uid = call.uidsAfter s) s := by
    cases call with
    | setId kind id =>
      cases kind with
      | group => exact hcall.elim
      | user =>
        simp only [Call.run, sysSetId, twp_bind, twp_failIf]
        refine ⟨fun hneg => (if_pos hneg).symm, fun hneg => ?_⟩
        simp only [Call.uidsAfter, if_neg hneg, IdKind.setId, twp_bind, twp_get]
        split
        · rename_i h
          replace h : .setuid ∈ s.effective := h
          rw [if_pos h]
          exact uid_setResuidUnchecked ..
        · rename_i h
          replace h : .setuid ∉ s.effective := h
          rw [if_neg h]
          exact hres none (some id.toNat) none
    | setRe kind real effective =>
      cases kind with
      | group => exact hcall.elim
      | user =>
        refine (twp_checkUidPerm _ _ none false).seq ?_ ?_
        · rintro _ _ ⟨rfl, hmay⟩
          exact (if_neg hmay).symm
        · rintro _ _ ⟨rfl, hmay⟩
          exact (uid_setResuidUnchecked ..).trans (if_pos hmay).symm
    | setRes kind real effective saved =>
      cases kind with
      | group => exact hcall.elim
      | user => exact hres _ _ _
    | setFsuid fsuid =>
      simp only [Call.run, Credentials.setFsuid, twp_bind, twp_get, Call.uidsAfter]
      by_cases hneg : 0 ≤ fsuid
      · rw [idArg, if_pos hneg]
        dsimp only
        simp only [setFsuidUnchecked_eq, MaySetUids]
        split <;> simp <;> grind
      · rw [idArg, if_neg hneg, if_neg fun h => hneg h.1]
        rfl
    | _ => exact hcall.elim
  cases hstep with
  | ok h => exact hrun.of_ok h
  | err h => exact hrun.of_err h

/-- **The capabilities a change of user IDs should leave.**  With `NO_SETUID_FIXUP` all three sets;
otherwise a filesystem UID that becomes root makes the permitted filesystem capabilities effective,
and one that stops to be root takes these and no others away. -/
def RightCapsets (s s' : Credentials) : Prop :=
  (.noSetuidFixup ∈ s.securebits.bits →
    s'.permitted = s.permitted ∧ s'.effective = s.effective ∧ s'.ambient = s.ambient) ∧
  (.noSetuidFixup ∉ s.securebits.bits →
    (¬ isRoot s.uid.fs → isRoot s'.uid.fs → s'.permitted ∩ fsCaps ⊆ s'.effective) ∧
    (isRoot s.uid.fs → ¬ isRoot s'.uid.fs → s'.effective = s.effective \ fsCaps))

/-- With `NO_SETUID_FIXUP` the sets stay exactly when the filesystem UID does not stop to be root
while filesystem capabilities are effective.  Without it, a filesystem UID that becomes root does
its part exactly when the effective UID becomes root with it or the capabilities are effective
already; one that stops to be root does, unless the effective set is emptied for the sake of the
other IDs. -/
theorem right_capsets_iff (hcall : call.SetsUid) (hstep : Step s call s') :
    RightCapsets s s' ↔
      (.noSetuidFixup ∈ s.securebits.bits → isRoot s.uid.fs → ¬ isRoot (call.uidsAfter s).fs →
        Disjoint s.effective fsCaps) ∧
      (.noSetuidFixup ∉ s.securebits.bits →
        (¬ isRoot s.uid.fs → isRoot (call.uidsAfter s).fs →
          ¬ isRoot s.uid.effective ∧ isRoot (call.uidsAfter s).effective ∨
            s.permitted ∩ fsCaps ⊆ s.effective) ∧
        (isRoot s.uid.fs → ¬ isRoot (call.uidsAfter s).fs →
          s.LeavesRoot (call.uidsAfter s) ∨
            isRoot s.uid.effective ∧ ¬ isRoot (call.uidsAfter s).effective →
          s.effective ⊆ fsCaps)) := by
  rw [← hcall.uid_eq hstep]
  have hfix := hcall.fixesUp hstep
  refine and_congr (forall_congr' fun hbit => ?_) (forall_congr' fun hbit => and_congr ?_ ?_)
  · obtain ⟨hpermitted, hambient, heffective⟩ := hfix.frozen hbit
    rw [and_iff_right hpermitted, and_iff_left hambient, heffective, fsEffective]
    by_cases hleaves : isRoot s.uid.fs ∧ ¬ isRoot s'.uid.fs
    · rw [if_pos hleaves, Finset.sdiff_eq_self_iff_disjoint]
      exact ⟨fun h _ _ => h, fun h => h hleaves.1 hleaves.2⟩
    · rw [if_neg hleaves]
      exact ⟨fun _ hroot hnot => absurd ⟨hroot, hnot⟩ hleaves, fun _ => rfl⟩
  · refine forall₂_congr fun hnot hroot => ?_
    have hstays : ¬ (LeavesRoot s s'.uid ∨ isRoot s.uid.effective ∧ ¬ isRoot s'.uid.effective) := by
      rcases hfix.ids with hids | hids
      · rw [hids] at hroot
        exact fun h => h.elim (fun h => h.2.1.2.1 hroot) fun h => h.2 hroot
      · rw [hids]
        exact fun h => h.elim (not_leavesRoot rfl) fun h => h.2 h.1
    have hfs : s.fsEffective s' = s.effective := if_neg fun h => hnot h.1
    rw [hfix.permitted hbit, hfix.effective hbit, if_neg fun h => hstays (.inl h),
      if_neg hstays, hfs]
    by_cases hraise : ¬ isRoot s.uid.effective ∧ isRoot s'.uid.effective
    · rw [if_pos hraise]
      exact ⟨fun _ => .inl hraise, fun _ => inter_subset_left⟩
    · rw [if_neg hraise]
      exact (or_iff_right hraise).symm
  · refine forall₂_congr fun hroot hnot => ?_
    have hlower : ¬ (¬ isRoot s.uid.effective ∧ isRoot s'.uid.effective) := by
      rcases hfix.ids with hids | hids
      · exact fun h => hnot (hids ▸ h.2)
      · rw [hids]
        exact fun h => h.1 h.2
    have hfs : s.fsEffective s' = s.effective \ fsCaps := if_pos ⟨hroot, hnot⟩
    rw [hfix.effective hbit, if_neg hlower, hfs]
    split_ifs with hleaves
    · rw [eq_comm, sdiff_eq_empty_iff_subset]
      exact ⟨fun h _ => h, fun h => h hleaves⟩
    · exact ⟨fun _ h => absurd h hleaves, fun _ => rfl⟩

/-- A thread of root that has set `NO_SETUID_FIXUP`. -/
def withoutFixup : Credentials :=
  { new 0 0 CapSet.all with securebits := ⟨{.noSetuidFixup}, ∅⟩ }

lemma run_withoutFixup : Run (new 0 0 CapSet.all) withoutFixup :=
  .step (.prctl (.setSecurebits 4)) .refl (.ok (by decide))

/-- Its `setresuid` to another real UID leaves the capabilities, and the `setfsuid` of a thread of
root without the bit takes exactly the filesystem capabilities away. -/
theorem right_capsets_of_new_uids :
    (∃ s', Step withoutFixup (.setRes .user 1000 (-1) 1000) s' ∧ RightCapsets withoutFixup s' ∧
      s'.uid.real = 1000) ∧
    ∃ s', Step (new 0 0 CapSet.all) (.setFsuid 1000) s' ∧ RightCapsets (new 0 0 CapSet.all) s' ∧
      s'.uid.fs = 1000 ∧ s'.effective = CapSet.all \ fsCaps := by
  refine ⟨⟨_, .ok rfl, ?_, rfl⟩, _, .ok rfl, ?_, rfl, by decide⟩
  · exact (@right_capsets_iff _ _ (.setRes .user 1000 (-1) 1000) trivial (.ok rfl)).mpr (by decide)
  · exact (@right_capsets_iff _ _ (.setFsuid 1000) trivial (.ok rfl)).mpr (by decide)

/-- Its `setfsuid` to another user takes capabilities away. -/
theorem setfsuid_ignores_no_setuid_fixup : ∃ s s', Run (new 0 0 CapSet.all) s ∧
    .noSetuidFixup ∈ s.securebits.bits ∧ Step s (.setFsuid 1000) s' ∧
    .chown ∈ s.effective ∧ .chown ∉ s'.effective :=
  ⟨_, _, run_withoutFixup, by decide, .ok rfl, by decide, by decide⟩

/-! ### The end of `execve` -/

lemma securebits_setResuidUnchecked (s : Credentials) (ruid euid suid : Option ℕ) :
    (s.setResuidUnchecked ruid euid suid).securebits = s.securebits := by
  unfold setResuidUnchecked fixupCapsets
  simp only [setFsuidUnchecked_eq]
  split_ifs <;> rfl

lemma securebits_applyIdsAndCapsets (s : Credentials) (cred : ExecCred) :
    (s.applyIdsAndCapsets cred).securebits = s.securebits := by
  have huid : ∀ s : Credentials, (cred.setuid.elim s fun euid =>
      s.setResuidUnchecked none (some euid) none).securebits = s.securebits := by
    intro s
    cases cred.setuid with
    | none => rfl
    | some euid => exact securebits_setResuidUnchecked ..
  have hgid : ∀ s : Credentials, (cred.setgid.elim s fun egid =>
      s.setResgidUnchecked none (some egid) none).securebits = s.securebits := by
    intro s
    cases cred.setgid <;> rfl
  exact (hgid _).trans ((securebits_setResuidUnchecked ..).trans (huid s))

/-- The bits without `KEEP_CAPS` can be stored unless it is set and locked. -/
lemma tryStore_erase_keepCaps (b : SecureBits) :
    b.tryStore { b with bits := b.bits.erase .keepCaps } =
      if .keepCaps ∈ b.bits ∧ .keepCaps ∈ b.locked then
        .error (.withMessage .eperm "one or more secure bits are locked")
      else .ok { b with bits := b.bits.erase .keepCaps } := by
  have hlocked : b.locked ∩ b.bits ≠ b.locked ∩ b.bits.erase .keepCaps ↔
      .keepCaps ∈ b.bits ∧ .keepCaps ∈ b.locked := by
    rw [inter_erase, ne_comm, Ne, erase_eq_self, not_not, mem_inter, and_comm]
  simp only [SecureBits.tryStore, hlocked, subset_rfl, not_true_eq_false, if_false]

lemma applyExecCred_eq (s : Credentials) (cred : ExecCred) : applyExecCred cred s =
    if .keepCaps ∈ s.securebits.bits ∧ .keepCaps ∈ s.securebits.locked then
      .err (.withMessage .eperm "one or more secure bits are locked") (s.applyIdsAndCapsets cred)
    else
      .ok () { s.applyIdsAndCapsets cred with
        securebits.bits := (s.applyIdsAndCapsets cred).securebits.bits.erase .keepCaps } := by
  rw [← securebits_applyIdsAndCapsets s cred]
  generalize hs' : s.applyIdsAndCapsets cred = s'
  have hstore : applyExecCred cred s = match s'.securebits.tryStore
      { s'.securebits with bits := s'.securebits.bits.erase .keepCaps } with
    | .ok securebits => .ok () { s' with securebits }
    | .error e => .err e s' := by
    subst hs'
    change (ofExcept (SecureBits.tryStore _ { (s.applyIdsAndCapsets cred).securebits with
      bits := (s.applyIdsAndCapsets cred).securebits.bits.erase .keepCaps }) >>= _) _ = _
    cases SecureBits.tryStore _ _ <;> rfl
  rw [hstore, tryStore_erase_keepCaps]
  split_ifs <;> rfl

/-- The credentials are applied without an error, and `KEEP_CAPS` is clear afterwards, exactly when
`KEEP_CAPS` was not both set and locked. -/
theorem applyExecCred_ok_iff (s : Credentials) (cred : ExecCred) :
    (∃ s', applyExecCred cred s = .ok () s' ∧ .keepCaps ∉ s'.securebits.bits) ↔
      ¬ (.keepCaps ∈ s.securebits.bits ∧ .keepCaps ∈ s.securebits.locked) := by
  rw [applyExecCred_eq]
  split_ifs with hlocked
  · refine iff_of_false ?_ (not_not.mpr hlocked)
    rintro ⟨s', h, -⟩
    cases h
  · exact iff_of_true ⟨_, rfl, notMem_erase _ _⟩ hlocked

/-- Root sets and locks `KEEP_CAPS`, and then every program fails after it has been loaded. -/
theorem execve_fails_after_load : ∃ s, Run (new 0 0 CapSet.all) s ∧ ∀ cred, applyExecCred cred s =
    .err (.withMessage .eperm "one or more secure bits are locked")
        (s.applyIdsAndCapsets cred) := by
  refine ⟨{ new 0 0 CapSet.all with securebits := ⟨{.keepCaps}, {.keepCaps}⟩ },
    .step (.prctl (.setSecurebits 48)) .refl (.ok (by decide)), fun cred => ?_⟩
  rw [applyExecCred_eq, if_pos (by decide)]

end Credentials

end Asterinas.Process
