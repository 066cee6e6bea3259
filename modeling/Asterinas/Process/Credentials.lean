import Asterinas.Framework.Exec
import Asterinas.Process.Capabilities

/-!
# The credentials of a thread

`process/credentials/credentials_.rs` with the system calls that change the credentials.  The
setters that cannot fail are functions on the credentials; the others are programs, whose error
leaves whatever has been stored by then.

The methods for user and group IDs are alike; where they are the same up to the names, they are one
definition for both kinds of IDs.
-/

namespace Asterinas.Process

open Framework Exec

/-- The four IDs of one kind. -/
structure Ids where
  real : ℕ
  effective : ℕ
  saved : ℕ
  fs : ℕ
  deriving DecidableEq

/-- The IDs with some of them set. -/
def Ids.set (ids : Ids) (real effective saved : Option ℕ) : Ids :=
  { ids with
    real := real.getD ids.real
    effective := effective.getD ids.effective
    saved := saved.getD ids.saved }

/-- `Credentials_`: the IDs, the sets of capabilities and the secure bits of a thread. -/
structure Credentials where
  uid : Ids
  gid : Ids
  supplementaryGids : Finset ℕ
  inheritable : CapSet
  permitted : CapSet
  effective : CapSet
  bounding : CapSet
  ambient : CapSet
  securebits : SecureBits
  noNewPrivs : Bool
  deriving DecidableEq

/-- `Uid::is_root`. -/
def isRoot (uid : ℕ) : Prop := uid = 0

instance (uid : ℕ) : Decidable (isRoot uid) := inferInstanceAs (Decidable (uid = 0))

/-- `ExecCred`: what `execve` is going to set, calculated before it cannot be undone. -/
structure ExecCred where
  setuid : Option ℕ
  setgid : Option ℕ
  permitted : CapSet
  effective : CapSet
  ambient : CapSet

namespace Credentials

/-- `Credentials_::new`: all IDs are equal and all given capabilities are effective. -/
def new (uid gid : ℕ) (capset : CapSet) : Credentials where
  uid := ⟨uid, uid, uid, uid⟩
  gid := ⟨gid, gid, gid, gid⟩
  supplementaryGids := {gid}
  inheritable := ∅
  permitted := capset
  effective := capset
  bounding := CapSet.all
  ambient := ∅
  securebits := .newEmpty
  noNewPrivs := false

/-- The methods that can fail. -/
abbrev Prog (α : Type) := Exec Error Credentials α

/-! ### Capabilities -/

section

variable (s : Credentials) (capset : CapSet)

/-- `Credentials_::set_inheritable_capset`: an ambient capability has to stay inheritable. -/
def setInheritableCapset : Credentials :=
  { s with inheritable := capset, ambient := s.ambient ∩ capset }

/-- `Credentials_::set_permitted_capset`: an ambient capability has to stay permitted. -/
def setPermittedCapset : Credentials :=
  { s with permitted := capset, ambient := s.ambient ∩ capset }

/-- `Credentials_::set_effective_capset`. -/
def setEffectiveCapset : Credentials :=
  { s with effective := capset }

end

/-- `Credentials_::clear_ambient_capset`: no capability is ambient. -/
def clearAmbientCapset (s : Credentials) : Credentials := { s with ambient := ∅ }

/-- `Credentials_::lower_ambient_capability`: one is not ambient any more. -/
def lowerAmbientCapability (s : Credentials) (capability : CapSet) : Credentials :=
  { s with ambient := s.ambient \ capability }

/-- `Credentials_::raise_ambient_capability`: one that is permitted and inheritable becomes
ambient. -/
def raiseAmbientCapability (capability : CapSet) : Prog Unit := do
  let s ← get
  failIf (.noCapAmbientRaise ∈ s.securebits.bits)
    (.withMessage .eperm "raising ambient capabilities is forbidden by secure bits")
  failIf (¬ capability ⊆ s.permitted ∨ ¬ capability ⊆ s.inheritable)
    (.withMessage .eperm "an ambient capability must be both permitted and inheritable")
  modify fun s => { s with ambient := s.ambient ∪ capability }

/-- `Credentials_::drop_bounding_capability`, which needs `CAP_SETPCAP`. -/
def dropBoundingCapability (capability : CapSet) : Prog Unit := do
  let s ← get
  failIf (.setpcap ∉ s.effective)
    (.withMessage .eperm
      "only threads with CAP_SETPCAP can drop capabilities from the bounding set")
  modify fun s => { s with bounding := s.bounding \ capability }

/-! ### Secure bits -/

/-- `AtomicSecureBits::try_store` on the secure bits of the thread. -/
def tryStoreSecurebits (bits : SecureBits) : Prog Unit := do
  let s ← get
  let securebits ← ofExcept (s.securebits.tryStore bits)
  modify fun s => { s with securebits }

/-- `Credentials_::set_keep_capabilities`, which stores the secure bits with one of them changed. -/
def setKeepCapabilities (keep : Bool) : Prog Unit := do
  let s ← get
  tryStoreSecurebits { s.securebits with
    bits := if keep then insert .keepCaps s.securebits.bits else s.securebits.bits.erase .keepCaps }

/-- `Credentials_::set_securebits`, which needs `CAP_SETPCAP`. -/
def setSecurebits (bits : SecureBits) : Prog Unit := do
  let s ← get
  failIf (.setpcap ∉ s.effective)
    (.withMessage .eperm "only threads with CAP_SETPCAP can change secure bits")
  tryStoreSecurebits bits

/-- `Credentials_::set_no_new_privs`, which cannot be undone. -/
def setNoNewPrivs (s : Credentials) : Credentials := { s with noNewPrivs := true }

/-! ### User and group IDs -/

/-- The capabilities that the filesystem UID of root gives. -/
def fsCaps : CapSet :=
  {.chown, .dacOverride, .fowner, .dacReadSearch, .fsetid, .linuxImmutable, .macOverride, .mknod}

section

variable (s : Credentials)

/-- `Credentials_::set_fsuid_unchecked`: who stops to be root loses the filesystem capabilities. -/
def setFsuidUnchecked (fsuid : ℕ) : Credentials :=
  let s' := { s with uid.fs := fsuid }
  if isRoot s.uid.fs ∧ ¬ isRoot fsuid then s'.setEffectiveCapset (s'.effective \ fsCaps) else s'

/-- The adjustment of the capabilities when the UIDs change between root and others. -/
def fixupCapsets (old new : Ids) : Credentials :=
  let hadRoot := isRoot old.real ∨ isRoot old.effective ∨ isRoot old.saved
  let allNonroot := ¬ isRoot new.real ∧ ¬ isRoot new.effective ∧ ¬ isRoot new.saved
  let s :=
    if hadRoot ∧ allNonroot then
      if .keepCaps ∉ s.securebits.bits then (s.setPermittedCapset ∅).setEffectiveCapset ∅
      else s.clearAmbientCapset
    else s
  if isRoot old.effective ∧ ¬ isRoot new.effective then s.setEffectiveCapset ∅
  else if ¬ isRoot old.effective ∧ isRoot new.effective then s.setEffectiveCapset s.permitted
  else s

/-- `Credentials_::set_resuid_unchecked`: the filesystem UID follows the effective one, and the
capabilities are adjusted. -/
def setResuidUnchecked (ruid euid suid : Option ℕ) : Credentials :=
  let new := s.uid.set ruid euid suid
  let s' := { s with uid := new }.setFsuidUnchecked new.effective
  if .noSetuidFixup ∈ s'.securebits.bits then s' else s'.fixupCapsets s.uid new

/-- `Credentials_::set_fsgid_unchecked`. -/
def setFsgidUnchecked (fsgid : ℕ) : Credentials := { s with gid.fs := fsgid }

/-- `Credentials_::set_resgid_unchecked`: the filesystem GID follows the effective one. -/
def setResgidUnchecked (rgid egid sgid : Option ℕ) : Credentials :=
  let new := s.gid.set rgid egid sgid
  { s with gid := new }.setFsgidUnchecked new.effective

end

/-- The two kinds of IDs. -/
inductive IdKind
  | user
  | group
  deriving DecidableEq

namespace IdKind

/-- The capability to set the IDs at will. -/
def capability : IdKind → Capability
  | user => .setuid
  | group => .setgid

/-- How the messages call the IDs. -/
def name : IdKind → String
  | user => "UID"
  | group => "GID"

/-- The IDs of the thread. -/
def ids : IdKind → Credentials → Ids
  | user, s => s.uid
  | group, s => s.gid

/-- `set_resuid_unchecked` and `set_resgid_unchecked`. -/
def setUnchecked : IdKind → Credentials → Option ℕ → Option ℕ → Option ℕ → Credentials
  | user => setResuidUnchecked
  | group => setResgidUnchecked

section

variable (kind : IdKind)

/-- The error about an ID that the thread does not have. -/
def notAssociated (which : String) : Error :=
  .withMessage .eperm
    ("the new " ++ which ++ " " ++ kind.name ++ " is not one of the associated " ++
    kind.name ++ "s")

/-- `check_uid_perm` and `check_gid_perm`. -/
def checkPerm (real effective saved : Option ℕ) (realMayBeOldSaved : Bool) :
    Prog Unit := do
  let s ← get
  if kind.capability ∈ s.effective then return ()
  let ids := kind.ids s
  failIf (∃ id ∈ real, id ≠ ids.real ∧ id ≠ ids.effective ∧
    (¬ realMayBeOldSaved ∨ id ≠ ids.saved)) (kind.notAssociated "real")
  failIf (∃ id ∈ effective, id ≠ ids.real ∧ id ≠ ids.effective ∧ id ≠ ids.saved)
    (kind.notAssociated "effective")
  failIf (∃ id ∈ saved, id ≠ ids.real ∧ id ≠ ids.effective ∧ id ≠ ids.saved)
    (kind.notAssociated "saved-set")

/-- `set_resuid` and `set_resgid`. -/
def setRes (real effective saved : Option ℕ) : Prog Unit := do
  kind.checkPerm real effective saved true
  modify fun s => kind.setUnchecked s real effective saved

/-- `set_uid` and `set_gid`. -/
def setId (id : ℕ) : Prog Unit := do
  let s ← get
  if kind.capability ∈ s.effective then
    modify fun s => kind.setUnchecked s (some id) (some id) (some id)
  else kind.setRes none (some id) none

/-- `set_reuid` and `set_regid`. -/
def setRe (real effective : Option ℕ) : Prog Unit := do
  kind.checkPerm real effective none false
  modify fun s =>
    let ids := kind.ids s
    let shouldSetSaved := real.isSome ∨ ∃ id ∈ effective, id ≠ ids.real
    kind.setUnchecked s real effective
      (if shouldSetSaved then some (effective.getD ids.effective) else none)

end

end IdKind

/-- `Credentials_::set_fsuid`: the old filesystem UID is returned, with success or not. -/
def setFsuid (fsuid : Option ℕ) : Prog (Except ℕ ℕ) := do
  let s ← get
  match fsuid with
  | none => return .ok s.uid.fs
  | some fsuid =>
    if .setuid ∉ s.effective ∧ fsuid ≠ s.uid.real ∧ fsuid ≠ s.uid.effective ∧ fsuid ≠ s.uid.saved
    then return .error s.uid.fs
    else do
      modify fun s => s.setFsuidUnchecked fsuid
      return .ok s.uid.fs

/-- `Credentials_::set_fsgid`, which has a shortcut that `set_fsuid` does not have. -/
def setFsgid (fsgid : Option ℕ) : Prog (Except ℕ ℕ) := do
  let s ← get
  match fsgid with
  | none => return .ok s.gid.fs
  | some fsgid =>
    if fsgid = s.gid.fs then return .ok s.gid.fs
    else if .setgid ∉ s.effective ∧ fsgid ≠ s.gid.real ∧ fsgid ≠ s.gid.effective ∧
        fsgid ≠ s.gid.saved
    then return .error s.gid.fs
    else do
      modify fun s => s.setFsgidUnchecked fsgid
      return .ok s.gid.fs

/-! ### `execve` -/

section

variable (s : Credentials) (file : Option FileCapabilities)

/-- `Credentials_::calculate_capsets_for_exec`: the permitted, effective and ambient sets. -/
def calculateCapsetsForExec (noNewPrivs : Bool)
    (newEuid newEgid : ℕ) : Except Error (CapSet × CapSet × CapSet) :=
  let idChanged := newEuid ≠ s.uid.effective ∨ newEgid ≠ s.gid.fs ∧ newEgid ∉ s.supplementaryGids
  let newAmbient := if file.isSome ∨ idChanged then ∅ else s.ambient
  let isSetuidRoot := ¬ isRoot s.uid.real ∧ isRoot newEuid
  let useRoot := .noRoot ∉ s.securebits.bits ∧ ¬ (file.isSome ∧ isSetuidRoot)
  let rootCaps := useRoot ∧ (isRoot s.uid.real ∨ isRoot newEuid)
  let filePermitted := if rootCaps then CapSet.all else file.elim ∅ (·.permitted)
  let fileInheritable := if rootCaps then CapSet.all else file.elim ∅ (·.inheritable)
  let fileEffective :=
    if useRoot ∧ isRoot newEuid ∨ ∃ f ∈ file, f.hasEffectiveFlag then CapSet.all else ∅
  let candidatePermitted :=
    s.inheritable ∩ fileInheritable ∪ filePermitted ∩ s.bounding ∪ newAmbient
  if ∃ f ∈ file, f.hasEffectiveFlag ∧ ¬ f.permitted ⊆ candidatePermitted then
    .error (.withMessage .eperm
      "the executable requests file capabilities outside the computed permitted set")
  else
    let newPermitted := if noNewPrivs then candidatePermitted ∩ s.permitted else candidatePermitted
    let newEffective := fileEffective ∩ newPermitted ∪ fileEffectiveᶜ ∩ newAmbient
    .ok (newPermitted, newEffective, newAmbient)

/-- `Credentials_::prepare_exec_cred`: what `execve` gives, without the set-user-ID bits under
`no_new_privs`. -/
def prepareExecCred (setuid setgid : Option ℕ) :
    Except Error ExecCred := do
  let setuid := if s.noNewPrivs then none else setuid
  let setgid := if s.noNewPrivs then none else setgid
  let newEuid := setuid.getD s.uid.effective
  let newEgid := setgid.getD s.gid.effective
  let (permitted, effective, ambient) ← s.calculateCapsetsForExec file s.noNewPrivs newEuid newEgid
  return { setuid, setgid, permitted, effective, ambient }

end

/-- The part of `Credentials_::apply_exec_cred` that does not fail. -/
def applyIdsAndCapsets (s : Credentials) (cred : ExecCred) : Credentials :=
  let s := cred.setuid.elim s fun euid => s.setResuidUnchecked none (some euid) none
  let s := s.setResuidUnchecked none none (some s.uid.effective)
  let s := cred.setgid.elim s fun egid => s.setResgidUnchecked none (some egid) none
  let s := s.setResgidUnchecked none none (some s.gid.effective)
  let s := (s.setPermittedCapset cred.permitted).setEffectiveCapset cred.effective
  { s with ambient := cred.ambient }

/-- `Credentials_::apply_exec_cred`: the IDs and capabilities are set and `KEEP_CAPS` is cleared. -/
def applyExecCred (cred : ExecCred) : Prog Unit := do
  modify fun s => s.applyIdsAndCapsets cred
  setKeepCapabilities false

/-- What `execve` reads of the executable. -/
structure Executable where
  /-- The mount has the flag `NOSUID`. -/
  nosuid : Bool
  /-- The value of the attribute `security.capability`, if there is one. -/
  xattr : Option (List UInt8)
  /-- The owner, when the mode has the set-user-ID bit. -/
  setuid : Option ℕ
  /-- The group, when the mode has the set-group-ID bit. -/
  setgid : Option ℕ
  /-- Whether the program can be loaded. -/
  load : Except Error Unit

/-- `prepare_exec_cred` of `execve.rs`, where the owner of the user namespace is root. -/
def prepareExec (s : Credentials) (exe : Executable) : Except Error ExecCred :=
  if exe.nosuid then s.prepareExecCred none none none
  else do
    let file ← exe.xattr.mapM FileCapabilities.parse
    let file := file.filter fun f => f.rootUid.all fun uid => uid = 0
    s.prepareExecCred file exe.setuid exe.setgid

/-- The part of `do_execve` that is about credentials. -/
def doExecve (exe : Executable) : Prog Unit := do
  let s ← get
  let cred ← ofExcept (s.prepareExec exe)
  ofExcept exe.load
  applyExecCred cred

/-! ### System calls -/

/-- An optional ID argument: a negative number leaves the ID unchanged. -/
def idArg (id : ℤ) : Option ℕ := if 0 ≤ id then some id.toNat else none

/-- `sys_setuid` and `sys_setgid`. -/
def sysSetId (kind : IdKind) (id : ℤ) : Prog Unit := do
  failIf (id < 0) (.withMessage .einval (kind.name ++ "s cannot be negative"))
  kind.setId id.toNat

/-- `CUserCapData`: one half of the sets, as the system calls pass them. -/
structure CUserCapData where
  effective : UInt32
  permitted : UInt32
  inheritable : UInt32

/-- `sys_capset`, called by the thread `tid`. -/
def sysCapset (tid version pid : ℕ) (lo hi : CUserCapData) : Prog Unit := do
  failIf (version ≠ 0x20080522)
    (.withMessage .einval "capability versions other than v3 are not supported")
  failIf (pid ≠ 0 ∧ pid ≠ tid)
    (.withMessage .eperm "setting other threads' capabilities is not allowed")
  let permitted := CapSet.fromLoHi lo.permitted hi.permitted
  let effective := CapSet.fromLoHi lo.effective hi.effective
  let inheritable := CapSet.fromLoHi lo.inheritable hi.inheritable
  let s ← get
  failIf (¬ permitted ⊆ s.permitted)
    (.withMessage .eperm "adding permitted capabilities is not allowed")
  failIf (¬ effective ⊆ permitted) (.withMessage .eperm "effective capabilities are not permitted")
  failIf (¬ inheritable ⊆ s.inheritable ∪ s.permitted ∧ .setpcap ∉ s.effective)
    (.withMessage .eperm "the thread does not have the required capability")
  failIf (¬ inheritable ⊆ s.inheritable ∪ s.bounding)
    (.withMessage .eperm "inheritable capabilities are not bounding")
  modify fun s =>
    ((s.setPermittedCapset permitted).setEffectiveCapset effective).setInheritableCapset inheritable

/-- `parse_capability` of `prctl.rs`. -/
def parseCapability (capability : ℕ) : Prog CapSet :=
  ofExcept <| match CapSet.fromCapabilityNumber capability with
    | some capset => .ok capset
    | none => .error (.withMessage .einval "invalid capability number")

/-- The commands of `prctl` that change the credentials. -/
inductive PrctlCmd
  | setKeepcaps (keep : ℕ)
  | capbsetDrop (capability : ℕ)
  | setSecurebits (bits : ℕ)
  | setNoNewPrivs
  | capAmbientRaise (capability : ℕ)
  | capAmbientLower (capability : ℕ)
  | capAmbientClearAll

/-- `sys_prctl`, of the commands that change credentials. -/
def sysPrctl : PrctlCmd → Prog Unit
  | .setKeepcaps keep => do
    failIf (1 < keep) (.withMessage .einval "invalid keep-capabilities flag")
    setKeepCapabilities (keep ≠ 0)
  | .capbsetDrop capability => do dropBoundingCapability (← parseCapability capability)
  | .setSecurebits bits => do setSecurebits (← ofExcept (SecureBits.tryFrom bits))
  | .setNoNewPrivs => modify setNoNewPrivs
  | .capAmbientRaise capability => do raiseAmbientCapability (← parseCapability capability)
  | .capAmbientLower capability => do
    let capset ← parseCapability capability
    modify fun s => s.lowerAmbientCapability capset
  | .capAmbientClearAll => modify clearAmbientCapset

/-- The system calls that change the credentials of a thread. -/
inductive Call
  | setId (kind : IdKind) (id : ℤ)
  | setRe (kind : IdKind) (real effective : ℤ)
  | setRes (kind : IdKind) (real effective saved : ℤ)
  | setFsuid (fsuid : ℤ)
  | setFsgid (fsgid : ℤ)
  | capset (tid version pid : ℕ) (lo hi : CUserCapData)
  | prctl (cmd : PrctlCmd)
  | execve (exe : Executable)

/-- A system call; what `setfsuid` and `setfsgid` return is left out. -/
def Call.run : Call → Prog Unit
  | .setId kind id => sysSetId kind id
  | .setRe kind real effective => kind.setRe (idArg real) (idArg effective)
  | .setRes kind real effective saved => kind.setRes (idArg real) (idArg effective) (idArg saved)
  | .setFsuid fsuid => do let _ ← Credentials.setFsuid (idArg fsuid)
  | .setFsgid fsgid => do let _ ← Credentials.setFsgid (idArg fsgid)
  | .capset tid version pid lo hi => sysCapset tid version pid lo hi
  | .prctl cmd => sysPrctl cmd
  | .execve exe => doExecve exe

/-- One call, whether it succeeds or fails. -/
inductive Step (s : Credentials) (call : Call) : Credentials → Prop
  | ok {s' : Credentials} : call.run s = .ok () s' → Step s call s'
  | err {e : Error} {s' : Credentials} : call.run s = .err e s' → Step s call s'

/-- A sequence of calls. -/
inductive Run (s : Credentials) : Credentials → Prop
  | refl : Run s s
  | step {s₁ s₂ : Credentials} (call : Call) : Run s s₁ → Step s₁ call s₂ → Run s s₂

end Credentials

end Asterinas.Process
