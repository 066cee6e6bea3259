import Asterinas.Basic

/-!
# Capabilities

`process/credentials/{capabilities,secure_bits,file_capabilities}.rs`: sets of Linux capabilities,
the secure bits with their locks, and the capabilities that an executable carries in an extended
attribute.
-/

namespace Asterinas.Process

/-- The flags of `CapSet`, in the order of their bits. -/
inductive Capability
  | chown | dacOverride | dacReadSearch | fowner | fsetid | kill | setgid | setuid | setpcap
  | linuxImmutable | netBindService | netBroadcast | netAdmin | netRaw | ipcLock | ipcOwner
  | sysModule | sysRawio | sysChroot | sysPtrace | sysPacct | sysAdmin | sysBoot | sysNice
  | sysResource | sysTime | sysTtyConfig | mknod | lease | auditWrite | auditControl | setfcap
  | macOverride | macAdmin | syslog | wakeAlarm | blockSuspend | auditRead | perfmon | bpf
  | checkpointRestore
  deriving DecidableEq

instance : Fintype Capability :=
  Fintype.ofSurjective (fun i : Fin 41 => Capability.ofNat i) fun c =>
    ⟨⟨c.ctorIdx, by cases c <;> decide⟩, Capability.ofNat_ctorIdx c⟩

/-- `CapSet`, a set of capabilities. -/
abbrev CapSet := Finset Capability

namespace CapSet

/-- `CapSet::from_bits_truncate`: the capabilities of the known bits. -/
def fromBitsTruncate (bits : ℕ) : CapSet := Finset.univ.filter fun c => bits.testBit c.ctorIdx

/-- `CapSet::from_lo_hi`: a set from the two words of the system calls. -/
def fromLoHi (lo hi : UInt32) : CapSet := fromBitsTruncate (lo.toNat ||| hi.toNat <<< 32)

/-- `CapSet::all`: every capability. -/
def all : CapSet := Finset.univ

/-- `CapSet::from_capability_number`: the set of the one capability that has the number, if one
has. -/
def fromCapabilityNumber (capability : ℕ) : Option CapSet :=
  if 40 < capability then none else some (fromBitsTruncate (1 <<< capability))

end CapSet

/-- The secure bits that can be locked. -/
inductive SecureBit
  | noRoot
  | noSetuidFixup
  | keepCaps
  | noCapAmbientRaise
  deriving DecidableEq

/-- `SecureBits`: the bits, and those of them that are locked (the bits of `LOCK_MASK`). -/
structure SecureBits where
  bits : Finset SecureBit
  locked : Finset SecureBit
  deriving DecidableEq

namespace SecureBits

/-- `SecureBits::new_empty`: nothing is set or locked. -/
def newEmpty : SecureBits := ⟨∅, ∅⟩

/-- `SecureBits::try_from`: the bits have the even positions, their locks the odd ones. -/
def tryFrom (value : ℕ) : Except Error SecureBits :=
  if value < 256 then
    let all : Finset SecureBit := {.noRoot, .noSetuidFixup, .keepCaps, .noCapAmbientRaise}
    .ok ⟨all.filter fun b => value.testBit (2 * b.ctorIdx),
      all.filter fun b => value.testBit (2 * b.ctorIdx + 1)⟩
  else .error (.withMessage .eperm "the bits are not valid secure bits")

/-- `AtomicSecureBits::try_store`: no locked bit may change and none may be unlocked. -/
def tryStore (current new : SecureBits) : Except Error SecureBits :=
  if current.locked ∩ current.bits ≠ current.locked ∩ new.bits then
    .error (.withMessage .eperm "one or more secure bits are locked")
  else if ¬ current.locked ⊆ new.locked then
    .error (.withMessage .eperm "locked secure bits cannot be unlocked")
  else .ok new

end SecureBits

/-- `VfsCapRevision`: the formats of the extended attribute. -/
inductive VfsCapRevision
  | V1
  | V2
  | V3
  deriving DecidableEq

namespace VfsCapRevision

/-- `VfsCapRevision::try_from`: the revision in the header of the attribute. -/
def tryFrom (bits : ℕ) : Except Error VfsCapRevision :=
  if bits = 0x01000000 then .ok V1
  else if bits = 0x02000000 then .ok V2
  else if bits = 0x03000000 then .ok V3
  else .error (.withMessage .einval "Invalid enum value")

/-- `VfsCapRevision::xattr_size`: the length of the attribute. -/
def xattrSize : VfsCapRevision → ℕ
  | V1 => 12
  | V2 => 20
  | V3 => 24

end VfsCapRevision

/-- `FileCapabilities`: what the extended attribute of an executable says. -/
structure FileCapabilities where
  permitted : CapSet
  inheritable : CapSet
  hasEffectiveFlag : Bool
  rootUid : Option ℕ
  deriving DecidableEq

namespace FileCapabilities

/-- `FileCapabilities::read_u32_le`: a little-endian word of the attribute. -/
def readU32Le (bytes : List UInt8) (wordIndex : ℕ) : Except Error UInt32 :=
  match (bytes.drop (wordIndex * 4)).take 4 with
  | [a, b, c, d] =>
    .ok (a.toUInt32 ||| b.toUInt32 <<< 8 ||| c.toUInt32 <<< 16 ||| d.toUInt32 <<< 24)
  | _ => .error (.withMessage .einval "file capabilities are truncated")

section

variable (raw : List UInt8)

/-- `FileCapabilities::parse_header`: the revision and the effective flag. -/
def parseHeader : Except Error (VfsCapRevision × Bool) := do
  let header ← readU32Le raw 0
  let revision ← VfsCapRevision.tryFrom (header &&& 0xff000000).toNat
  let flags := (header &&& 0x00ffffff).toNat
  if 1 < flags then
    throw (Error.withMessage .einval "file capabilities contain unsupported flag bits")
  if raw.length ≠ revision.xattrSize then
    throw (Error.withMessage .einval "the length of file capabilities does not match its revision")
  return (revision, flags = 1)

/-- The high words, which the first revision does not have. -/
def readHigh : VfsCapRevision → Except Error (UInt32 × UInt32)
  | .V1 => return (0, 0)
  | _ => do return (← readU32Le raw 3, ← readU32Le raw 4)

/-- The root UID, which the third revision has. -/
def readRootUid : VfsCapRevision → Except Error (Option ℕ)
  | .V3 => do return some (← readU32Le raw 5).toNat
  | _ => return none

/-- `FileCapabilities::parse`: the attribute, word by word. -/
def parse : Except Error FileCapabilities := do
  let (revision, hasEffectiveFlag) ← parseHeader raw
  let permittedLo ← readU32Le raw 1
  let inheritableLo ← readU32Le raw 2
  let (permittedHi, inheritableHi) ← readHigh raw revision
  let rootUid ← readRootUid raw revision
  return {
    permitted := CapSet.fromLoHi permittedLo permittedHi
    inheritable := CapSet.fromLoHi inheritableLo inheritableHi
    hasEffectiveFlag
    rootUid }

end

end FileCapabilities

end Asterinas.Process
