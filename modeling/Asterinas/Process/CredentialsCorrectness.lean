import Asterinas.Process.Credentials

/-!
# The order of the capability sets

Every system call keeps the effective set within the permitted set, and the ambient set within the
permitted and the inheritable set.  After `no_new_privs` has been set no call adds to the permitted
set, and `execve` does not change the effective IDs.
-/

namespace Asterinas.Process

open Framework Exec Finset

namespace Credentials

/-- The order of the capability sets. -/
structure Ordered (s : Credentials) : Prop where
  effective : s.effective ⊆ s.permitted
  permitted : s.ambient ⊆ s.permitted
  inheritable : s.ambient ⊆ s.inheritable

/-- The sets are in order, and with `no_new_privs` nothing has been added to the permitted set. -/
structure Confines (s s' : Credentials) : Prop where
  ordered : s'.Ordered
  noNewPrivs : s.noNewPrivs → s'.noNewPrivs
  permitted : s.noNewPrivs → s'.permitted ⊆ s.permitted

variable {s s' s'' : Credentials}

lemma Ordered.confines (h : s.Ordered) : Confines s s := ⟨h, id, fun _ => subset_rfl⟩

lemma Confines.trans (h : Confines s s') (h' : Confines s' s'') : Confines s s'' where
  ordered := h'.ordered
  noNewPrivs hs := h'.noNewPrivs (h.noNewPrivs hs)
  permitted hs := (h'.permitted (h.noNewPrivs hs)).trans (h.permitted hs)

/-! ### The setters -/

section

variable (h : s.Ordered)

include h

lemma Ordered.setEffectiveCapset {capset : CapSet} (hle : capset ⊆ s.permitted) :
    Confines s (s.setEffectiveCapset capset) :=
  ⟨⟨hle, h.permitted, h.inheritable⟩, id, fun _ => subset_rfl⟩

lemma Ordered.setFsuidUnchecked (fsuid : ℕ) : Confines s (s.setFsuidUnchecked fsuid) := by
  have h' : Ordered { s with uid.fs := fsuid } := ⟨h.effective, h.permitted, h.inheritable⟩
  unfold Credentials.setFsuidUnchecked
  split
  · have hle : s.effective \ fsCaps ⊆ s.permitted := sdiff_subset.trans h.effective
    exact ⟨(h'.setEffectiveCapset hle).ordered, id, fun _ => subset_rfl⟩
  · exact ⟨h', id, fun _ => subset_rfl⟩

/-- The capabilities are lost together, and the permitted ones are never more than before. -/
lemma Ordered.fixupCapsets (old new : Ids) : Confines s (s.fixupCapsets old new) := by
  have hdrop : ∀ p : Prop, [Decidable p] → Confines s
      (if p then
        if .keepCaps ∉ s.securebits.bits then (s.setPermittedCapset ∅).setEffectiveCapset ∅
        else s.clearAmbientCapset
      else s) := by
    intro p _
    split
    · split
      · refine ⟨⟨subset_rfl, inter_subset_right, ?_⟩, id, fun _ => empty_subset _⟩
        exact inter_subset_left.trans h.inheritable
      · exact ⟨⟨h.effective, empty_subset _, empty_subset _⟩, id, fun _ => subset_rfl⟩
    · exact h.confines
  unfold Credentials.fixupCapsets
  extract_lets hadRoot allNonroot s'
  have hs' : Confines s s' := hdrop _
  split
  · exact hs'.trans (hs'.ordered.setEffectiveCapset (empty_subset _))
  · split
    · exact hs'.trans (hs'.ordered.setEffectiveCapset subset_rfl)
    · exact hs'

lemma Ordered.setResuidUnchecked (ruid euid suid : Option ℕ) :
    Confines s (s.setResuidUnchecked ruid euid suid) := by
  have h' : Ordered { s with uid := s.uid.set ruid euid suid } :=
    ⟨h.effective, h.permitted, h.inheritable⟩
  have hfs : Confines s
      ({ s with uid := s.uid.set ruid euid suid }.setFsuidUnchecked
        (s.uid.set ruid euid suid).effective) :=
    Confines.trans ⟨h', id, fun _ => subset_rfl⟩ (h'.setFsuidUnchecked _)
  unfold Credentials.setResuidUnchecked
  extract_lets new s'
  split
  · exact hfs
  · exact hfs.trans (hfs.ordered.fixupCapsets s.uid new)

lemma Ordered.setResgidUnchecked (rgid egid sgid : Option ℕ) :
    Confines s (s.setResgidUnchecked rgid egid sgid) :=
  ⟨⟨h.effective, h.permitted, h.inheritable⟩, id, fun _ => subset_rfl⟩

lemma Ordered.setUnchecked (kind : IdKind) (real effective saved : Option ℕ) :
    Confines s (kind.setUnchecked s real effective saved) := by
  cases kind with
  | user => exact h.setResuidUnchecked real effective saved
  | group => exact h.setResgidUnchecked real effective saved

end

/-! ### The methods that can fail -/

open Exec

/-- Whether it fails or not, the program keeps the order. -/
def Keeps {α : Type} (m : Prog α) : Prop :=
  ∀ s : Credentials, s.Ordered → twp m (fun _ s' => Confines s s') (fun _ s' => Confines s s') s

variable {α β : Type}

lemma Keeps.pure (a : α) : Keeps (pure a) := fun _ h => h.confines

lemma Keeps.bind {m : Prog α} {f : α → Prog β} (h : Keeps m) (hf : ∀ a, Keeps (f a)) :
    Keeps (m >>= f) := by
  intro s hs
  refine (h s hs).seq (fun _ _ he => he) fun a s' hs' => ?_
  exact (hf a s' hs'.ordered).mono (fun _ _ h'' => hs'.trans h'') fun _ _ h'' => hs'.trans h''

/-- The state that is read is the state that the rest starts from. -/
lemma Keeps.get_bind {f : Credentials → Prog α}
    (hf : ∀ s, s.Ordered → twp (f s) (fun _ s' => Confines s s') (fun _ s' => Confines s s') s) :
    Keeps (Exec.get >>= f) := by
  intro s hs
  exact hf s hs

lemma Keeps.modify {f : Credentials → Credentials} (hf : ∀ s, s.Ordered → Confines s (f s)) :
    Keeps (Exec.modify f) := hf

lemma Keeps.failIf (c : Prop) [Decidable c] (e : Error) : Keeps (failIf c e) := by
  intro s hs
  simp only [twp_failIf]
  exact ⟨fun _ => hs.confines, fun _ => hs.confines⟩

lemma Keeps.ofExcept (r : Except Error α) : Keeps (ofExcept r) := by
  intro s hs
  cases r with
  | ok a | error e => exact hs.confines

lemma keeps_tryStoreSecurebits (bits : SecureBits) : Keeps (tryStoreSecurebits bits) := by
  refine Keeps.get_bind fun s hs => ?_
  refine Keeps.bind (Keeps.ofExcept _) (fun bits => Keeps.modify fun s h => ?_) s hs
  exact ⟨⟨h.effective, h.permitted, h.inheritable⟩, id, fun _ => subset_rfl⟩

lemma keeps_setKeepCapabilities (keep : Bool) : Keeps (setKeepCapabilities keep) :=
  Keeps.get_bind fun s hs => keeps_tryStoreSecurebits _ s hs

lemma keeps_setSecurebits (bits : SecureBits) : Keeps (setSecurebits bits) :=
  Keeps.get_bind fun s hs =>
    Keeps.bind (Keeps.failIf _ _) (fun _ => keeps_tryStoreSecurebits bits) s hs

lemma keeps_raiseAmbientCapability (capability : CapSet) :
    Keeps (raiseAmbientCapability capability) := by
  refine Keeps.get_bind fun s hs => ?_
  simp only [twp_bind, twp_failIf, twp_modify, not_or, not_not]
  refine ⟨fun _ => hs.confines, fun _ => ⟨fun _ => hs.confines, fun hcap => ?_⟩⟩
  exact ⟨⟨hs.effective, union_subset hs.permitted hcap.1,
    union_subset hs.inheritable hcap.2⟩, id, fun _ => subset_rfl⟩

lemma keeps_dropBoundingCapability (capability : CapSet) :
    Keeps (dropBoundingCapability capability) := by
  refine Keeps.get_bind fun s hs => ?_
  refine Keeps.bind (Keeps.failIf _ _) (fun _ => Keeps.modify fun s h => ?_) s hs
  exact ⟨⟨h.effective, h.permitted, h.inheritable⟩, id, fun _ => subset_rfl⟩

section

variable (kind : IdKind)

/-- The permissions are only looked at. -/
lemma twp_checkPerm (real effective saved : Option ℕ) (old : Bool) :
    twp (kind.checkPerm real effective saved old) (fun _ s' => s' = s) (fun _ s' => s' = s) s := by
  simp only [IdKind.checkPerm, twp_bind, twp_get]
  split
  · rfl
  · simp

/-- The IDs of a kind are set, or nothing is changed. -/
def IdKind.Sets (s s' : Credentials) : Prop :=
  s' = s ∨ ∃ real effective saved, s' = kind.setUnchecked s real effective saved

lemma twp_setRes (real effective saved : Option ℕ) :
    twp (kind.setRes real effective saved) (fun _ => kind.Sets s) (fun _ => kind.Sets s) s := by
  refine (twp_checkPerm kind real effective saved true).seq (fun _ _ h => .inl h) ?_
  rintro _ _ rfl
  exact .inr ⟨_, _, _, rfl⟩

lemma twp_setId (id : ℕ) : twp (kind.setId id) (fun _ => kind.Sets s) (fun _ => kind.Sets s) s := by
  simp only [IdKind.setId, twp_bind, twp_get]
  split
  · exact .inr ⟨_, _, _, rfl⟩
  · exact twp_setRes kind none (some id) none

lemma twp_setRe (real effective : Option ℕ) :
    twp (kind.setRe real effective) (fun _ => kind.Sets s) (fun _ => kind.Sets s) s := by
  refine (twp_checkPerm kind real effective none false).seq (fun _ _ h => .inl h) ?_
  rintro _ _ rfl
  exact .inr ⟨_, _, _, rfl⟩

end

lemma keeps_of_sets {m : Exec Error Credentials α} {kind : IdKind}
    (h : ∀ s, twp m (fun _ => kind.Sets s) (fun _ => kind.Sets s) s) : Keeps m := by
  intro s hs
  have hconfines : ∀ s', kind.Sets s s' → Confines s s' := by
    rintro s' (rfl | ⟨real, effective, saved, rfl⟩)
    · exact hs.confines
    · exact hs.setUnchecked kind real effective saved
  exact (h s).mono (fun _ => hconfines) fun _ => hconfines

lemma keeps_setFsuid (fsuid : Option ℕ) : Keeps (setFsuid fsuid) := by
  refine Keeps.get_bind fun s hs => ?_
  cases fsuid with
  | none => exact hs.confines
  | some fsuid =>
    dsimp only
    split
    · exact hs.confines
    · exact hs.setFsuidUnchecked fsuid

lemma keeps_setFsgid (fsgid : Option ℕ) : Keeps (setFsgid fsgid) := by
  refine Keeps.get_bind fun s hs => ?_
  have hset : ∀ fsgid, Confines s (s.setFsgidUnchecked fsgid) := fun _ =>
    ⟨⟨hs.effective, hs.permitted, hs.inheritable⟩, id, fun _ => subset_rfl⟩
  cases fsgid with
  | none => exact hs.confines
  | some fsgid =>
    dsimp only
    split
    · exact hs.confines
    · split
      · exact hs.confines
      · exact hset fsgid

lemma keeps_sysCapset (tid version pid : ℕ) (lo hi : CUserCapData) :
    Keeps (sysCapset tid version pid lo hi) := by
  refine Keeps.bind (Keeps.failIf _ _) fun _ => Keeps.bind (Keeps.failIf _ _) fun _ => ?_
  refine Keeps.get_bind fun s hs => ?_
  simp only [twp_bind, twp_failIf, twp_modify, not_not]
  refine ⟨fun _ => hs.confines, fun hp => ⟨fun _ => hs.confines, fun he =>
    ⟨fun _ => hs.confines, fun _ => ⟨fun _ => hs.confines, fun _ => ?_⟩⟩⟩⟩
  exact ⟨⟨he, inter_subset_left.trans inter_subset_right, inter_subset_right⟩, id, fun _ => hp⟩

lemma keeps_parseCapability (capability : ℕ) : Keeps (parseCapability capability) :=
  Keeps.ofExcept _

lemma keeps_sysPrctl (cmd : PrctlCmd) : Keeps (sysPrctl cmd) := by
  cases cmd with
  | setKeepcaps keep => exact (Keeps.failIf _ _).bind fun _ => keeps_setKeepCapabilities _
  | capbsetDrop capability =>
    exact (keeps_parseCapability capability).bind keeps_dropBoundingCapability
  | setSecurebits bits => exact (Keeps.ofExcept _).bind keeps_setSecurebits
  | setNoNewPrivs =>
    exact fun s h => ⟨⟨h.effective, h.permitted, h.inheritable⟩, fun _ => rfl, fun _ => subset_rfl⟩
  | capAmbientRaise capability =>
    exact (keeps_parseCapability capability).bind keeps_raiseAmbientCapability
  | capAmbientLower capability =>
    refine (keeps_parseCapability capability).bind fun capset => Keeps.modify fun s h => ?_
    exact ⟨⟨h.effective, sdiff_subset.trans h.permitted,
      sdiff_subset.trans h.inheritable⟩, id, fun _ => subset_rfl⟩
  | capAmbientClearAll =>
    exact fun s h => ⟨⟨h.effective, empty_subset _, empty_subset _⟩, id, fun _ => subset_rfl⟩

/-! ### `execve` -/

/-- The sets for the new program: what they have in common, whatever the executable grants. -/
structure ExecSets (s : Credentials) (noNewPrivs : Bool) (permitted effective ambient : CapSet) :
    Prop where
  ambient_le : ambient ⊆ s.ambient
  ambient_permitted : ambient ⊆ permitted
  effective_permitted : effective ⊆ permitted
  confined : noNewPrivs → permitted ⊆ s.permitted

lemma Ordered.execSets (h : s.Ordered) {ambient candidate : CapSet} (hs : ambient ⊆ s.ambient)
    (hc : ambient ⊆ candidate) (fileEffective : CapSet) (noNewPrivs : Bool) :
    ExecSets s noNewPrivs (if noNewPrivs then candidate ∩ s.permitted else candidate)
      (fileEffective ∩ (if noNewPrivs then candidate ∩ s.permitted else candidate) ∪
        fileEffectiveᶜ ∩ ambient) ambient := by
  have hp : ambient ⊆ if noNewPrivs then candidate ∩ s.permitted else candidate := by
    split
    · exact subset_inter hc (hs.trans h.permitted)
    · exact hc
  refine ⟨hs, hp, union_subset inter_subset_right ?_, fun hnnp => ?_⟩
  · exact inter_subset_right.trans hp
  · rw [if_pos hnnp]
    exact inter_subset_right

lemma Ordered.calculateCapsetsForExec {file : Option FileCapabilities} {newEuid newEgid : ℕ}
    (h : s.Ordered) {noNewPrivs : Bool} {permitted effective ambient : CapSet}
    (hcalc : s.calculateCapsetsForExec file noNewPrivs newEuid newEgid =
      .ok (permitted, effective, ambient)) :
    ExecSets s noNewPrivs permitted effective ambient := by
  unfold Credentials.calculateCapsetsForExec at hcalc
  extract_lets idChanged newAmbient isSetuidRoot useRoot rootCaps filePermitted fileInheritable
    fileEffective candidatePermitted newPermitted newEffective at hcalc
  have hambient : newAmbient ⊆ s.ambient := by
    unfold newAmbient
    split
    · exact empty_subset _
    · exact subset_rfl
  split at hcalc
  · cases hcalc
  · obtain ⟨rfl, hrest⟩ := Prod.mk.inj (Except.ok.inj hcalc)
    obtain ⟨rfl, rfl⟩ := Prod.mk.inj hrest
    exact h.execSets hambient subset_union_right fileEffective noNewPrivs

/-- What is prepared for the new program. -/
lemma Ordered.prepareExecCred {file : Option FileCapabilities} {setuid setgid : Option ℕ}
    {cred : ExecCred} (h : s.Ordered) (hcred : s.prepareExecCred file setuid setgid = .ok cred) :
    ExecSets s s.noNewPrivs cred.permitted cred.effective cred.ambient ∧
      (s.noNewPrivs → cred.setuid = none ∧ cred.setgid = none) := by
  unfold Credentials.prepareExecCred at hcred
  extract_lets setuid' setgid' newEuid newEgid at hcred
  cases hcalc : s.calculateCapsetsForExec file s.noNewPrivs newEuid newEgid with
  | error e =>
    rw [hcalc] at hcred
    cases hcred
  | ok sets =>
    obtain ⟨permitted, effective, ambient⟩ := sets
    rw [hcalc] at hcred
    cases hcred
    exact ⟨h.calculateCapsetsForExec hcalc, fun hnnp => ⟨if_pos hnnp, if_pos hnnp⟩⟩

lemma Ordered.prepareExec {exe : Executable} {cred : ExecCred} (h : s.Ordered)
    (hcred : s.prepareExec exe = .ok cred) :
    ExecSets s s.noNewPrivs cred.permitted cred.effective cred.ambient ∧
      (s.noNewPrivs → cred.setuid = none ∧ cred.setgid = none) := by
  unfold Credentials.prepareExec at hcred
  split at hcred
  · exact h.prepareExecCred hcred
  · cases hfile : exe.xattr.mapM FileCapabilities.parse with
    | error e =>
      rw [hfile] at hcred
      cases hcred
    | ok file =>
      rw [hfile] at hcred
      exact h.prepareExecCred hcred

/-- The changes of the IDs for the new program: the effective IDs become these. -/
structure SetsIds (s s' : Credentials) (euid egid : ℕ) : Prop where
  inheritable : s'.inheritable = s.inheritable
  noNewPrivs : s'.noNewPrivs = s.noNewPrivs
  euid : s'.uid.effective = euid
  egid : s'.gid.effective = egid

lemma setsIds_setResuidUnchecked (s : Credentials) (euid suid : Option ℕ) :
    SetsIds s (s.setResuidUnchecked none euid suid) (euid.getD s.uid.effective)
        s.gid.effective := by
  unfold setResuidUnchecked fixupCapsets setFsuidUnchecked
  dsimp only
  split_ifs <;> exact ⟨rfl, rfl, rfl, rfl⟩

lemma SetsIds.trans {euid egid euid' egid' : ℕ} (h : SetsIds s s' euid egid)
    (h' : SetsIds s' s'' euid' egid') : SetsIds s s'' euid' egid' :=
  ⟨h'.inheritable.trans h.inheritable, h'.noNewPrivs.trans h.noNewPrivs, h'.euid, h'.egid⟩

lemma setsIds_applyIdsAndCapsets (s : Credentials) (cred : ExecCred) :
    SetsIds s (s.applyIdsAndCapsets cred) (cred.setuid.getD s.uid.effective)
      (cred.setgid.getD s.gid.effective) := by
  unfold applyIdsAndCapsets
  extract_lets s₁ s₂ s₃ s₄ s₅
  have h1 : SetsIds s s₁ (cred.setuid.getD s.uid.effective) s.gid.effective := by
    unfold s₁
    cases cred.setuid with
    | none => exact ⟨rfl, rfl, rfl, rfl⟩
    | some euid => exact setsIds_setResuidUnchecked s (some euid) none
  have h2 : SetsIds s s₂ (cred.setuid.getD s.uid.effective) s.gid.effective := by
    have h := h1.trans (setsIds_setResuidUnchecked s₁ none (some s₁.uid.effective))
    exact ⟨h.inheritable, h.noNewPrivs, h.euid.trans h1.euid, h.egid.trans h1.egid⟩
  have h3 : SetsIds s s₃ (cred.setuid.getD s.uid.effective) (cred.setgid.getD s.gid.effective) := by
    unfold s₃
    cases cred.setgid with
    | none => exact h2
    | some egid => exact ⟨h2.inheritable, h2.noNewPrivs, h2.euid, rfl⟩
  exact ⟨h3.inheritable, h3.noNewPrivs, h3.euid, h3.egid⟩

lemma Ordered.applyIdsAndCapsets {cred : ExecCred} (h : s.Ordered)
    (hsets : ExecSets s s.noNewPrivs cred.permitted cred.effective cred.ambient) :
    Confines s (s.applyIdsAndCapsets cred) := by
  have hids := setsIds_applyIdsAndCapsets s cred
  refine ⟨⟨hsets.effective_permitted, hsets.ambient_permitted, ?_⟩, fun hs => ?_, hsets.confined⟩
  · rw [hids.inheritable]
    exact hsets.ambient_le.trans h.inheritable
  · rw [hids.noNewPrivs]
    exact hs

/-- The secure bits are stored, or nothing is changed. -/
lemma twp_setKeepCapabilities (keep : Bool) :
    twp (setKeepCapabilities keep) (fun _ s' => ∃ securebits, s' = { s with securebits })
      (fun _ s' => ∃ securebits, s' = { s with securebits }) s := by
  simp only [setKeepCapabilities, tryStoreSecurebits, twp_bind, twp_get]
  cases SecureBits.tryStore _ _ with
  | error e => exact ⟨_, rfl⟩
  | ok bits => exact ⟨bits, rfl⟩

/-- The new credentials are applied and the secure bits are stored, or nothing is changed. -/
def Execs (exe : Executable) (s s' : Credentials) : Prop :=
  s' = s ∨ ∃ cred securebits, s.prepareExec exe = .ok cred ∧
    s' = { s.applyIdsAndCapsets cred with securebits }

lemma twp_doExecve (exe : Executable) :
    twp (doExecve exe) (fun _ => Execs exe s) (fun _ => Execs exe s) s := by
  simp only [doExecve, twp_bind, twp_get]
  cases hcred : s.prepareExec exe with
  | error e => exact .inl rfl
  | ok cred =>
    cases exe.load with
    | error e => exact .inl rfl
    | ok _ =>
      have hexecs : ∀ s', (∃ securebits, s' = { s.applyIdsAndCapsets cred with securebits }) →
          Execs exe s s' := fun _ h => .inr ⟨cred, h.choose, hcred, h.choose_spec⟩
      exact (twp_setKeepCapabilities false).mono (fun _ => hexecs) fun _ => hexecs

lemma keeps_doExecve (exe : Executable) : Keeps (doExecve exe) := by
  intro s hs
  have hconfines : ∀ s', Execs exe s s' → Confines s s' := by
    rintro s' (rfl | ⟨cred, securebits, hcred, rfl⟩)
    · exact hs.confines
    · obtain ⟨h, hnnp, hle⟩ := hs.applyIdsAndCapsets (hs.prepareExec hcred).1
      exact ⟨⟨h.effective, h.permitted, h.inheritable⟩, hnnp, hle⟩
  exact (twp_doExecve exe).mono (fun _ => hconfines) fun _ => hconfines

/-- With `no_new_privs` the effective IDs are those of the old program. -/
lemma Ordered.execs_ids {exe : Executable} (h : s.Ordered) (hnnp : s.noNewPrivs)
    (hexec : Execs exe s s') :
    s'.uid.effective = s.uid.effective ∧ s'.gid.effective = s.gid.effective := by
  rcases hexec with rfl | ⟨cred, securebits, hcred, rfl⟩
  · exact ⟨rfl, rfl⟩
  · obtain ⟨hsetuid, hsetgid⟩ := (h.prepareExec hcred).2 hnnp
    have hids := setsIds_applyIdsAndCapsets s cred
    rw [hsetuid, hsetgid] at hids
    exact ⟨hids.euid, hids.egid⟩

lemma keeps_run (call : Call) : Keeps call.run := by
  cases call with
  | setId kind id => exact (Keeps.failIf _ _).bind fun _ => keeps_of_sets fun _ => twp_setId kind _
  | setRe kind real effective => exact keeps_of_sets fun _ => twp_setRe kind _ _
  | setRes kind real effective saved => exact keeps_of_sets fun _ => twp_setRes kind _ _ _
  | setFsuid fsuid => exact (keeps_setFsuid _).bind fun _ => Keeps.pure ()
  | setFsgid fsgid => exact (keeps_setFsgid _).bind fun _ => Keeps.pure ()
  | capset tid version pid lo hi => exact keeps_sysCapset tid version pid lo hi
  | prctl cmd => exact keeps_sysPrctl cmd
  | execve exe => exact keeps_doExecve exe

/-! ### Runs -/

lemma Ordered.step {call : Call} (h : s.Ordered) (hstep : Step s call s') : Confines s s' := by
  cases hstep with
  | ok hrun => exact (keeps_run call s h).of_ok hrun
  | err hrun => exact (keeps_run call s h).of_err hrun

lemma Ordered.run (h : s.Ordered) (hrun : Run s s') : Confines s s' := by
  induction hrun with
  | refl => exact h.confines
  | step call _ hstep ih => exact ih.trans (ih.ordered.step hstep)

lemma Ordered.exists_step (h : s.Ordered) (call : Call) : ∃ s', Step s call s' := by
  rcases (keeps_run call s h).returns with ⟨_, s', hrun, -⟩ | ⟨e, s', hrun, -⟩
  · exact ⟨s', .ok hrun⟩
  · exact ⟨s', .err hrun⟩

/-- After any calls from credentials in order: every call returns and leaves the sets in order, and
once `no_new_privs` is set, it adds nothing to the permitted set, and `execve` keeps the effective
IDs. -/
theorem capabilities_ordered {s s' : Credentials} (h : s.Ordered) (hrun : Run s s') :
    s'.effective ⊆ s'.permitted ∧ s'.ambient ⊆ s'.permitted ∧ s'.ambient ⊆ s'.inheritable ∧
      (∀ call, ∃ s'', Step s' call s'') ∧
      (s'.noNewPrivs → ∀ call s'', Step s' call s'' →
        s''.noNewPrivs ∧ s''.permitted ⊆ s'.permitted ∧
        ∀ exe, call = .execve exe →
          s''.uid.effective = s'.uid.effective ∧ s''.gid.effective = s'.gid.effective) := by
  have hs' := (h.run hrun).ordered
  refine ⟨hs'.effective, hs'.permitted, hs'.inheritable, hs'.exists_step,
    fun hnnp call s'' hstep => ?_⟩
  have hconfines := hs'.step hstep
  refine ⟨hconfines.noNewPrivs hnnp, hconfines.permitted hnnp, ?_⟩
  rintro exe rfl
  cases hstep with
  | ok hexec => exact hs'.execs_ids hnnp ((twp_doExecve exe).of_ok hexec)
  | err hexec => exact hs'.execs_ids hnnp ((twp_doExecve exe).of_err hexec)

theorem capabilities_ordered_of_root : ∃ s', Run (new 0 0 CapSet.all) s' ∧ s'.noNewPrivs ∧
    s'.ambient ⊆ s'.inheritable ∧ ∀ exe s'', Step s' (.execve exe) s'' →
      s''.uid.effective = 0 ∧ s''.permitted ⊆ CapSet.all := by
  have h : (new 0 0 CapSet.all).Ordered :=
    ⟨subset_rfl, empty_subset _, empty_subset _⟩
  have hrun : Run (new 0 0 CapSet.all) (new 0 0 CapSet.all).setNoNewPrivs :=
    .step (.prctl .setNoNewPrivs) .refl (.ok rfl)
  obtain ⟨-, -, hambient, -, hexec⟩ := capabilities_ordered h hrun
  refine ⟨_, hrun, rfl, hambient, fun exe s'' hstep => ?_⟩
  obtain ⟨-, hpermitted, hids⟩ := hexec rfl (.execve exe) s'' hstep
  exact ⟨(hids exe rfl).1, hpermitted⟩

end Credentials

end Asterinas.Process
