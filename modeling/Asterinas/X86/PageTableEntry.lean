import Asterinas.Riscv.PageTableEntry

/-!
# x86 page table entries (`ostd/src/arch/x86/mm/mod.rs` and `pat.rs`)

At every level a page sets the bit that is the huge bit above the lowest level and the PAT bit at
the lowest one.  A page table leaves it clear, so that each entry is read back as it was written.

The feature `cvm_guest` is a parameter.  With it there is a flag for pages that are shared with the
host, and the bit of this flag is none of an address.
-/

namespace Asterinas.X86

open Riscv (CachePolicy PageTableFlags)
open BitVec

/-- `PageProperty`, with the flag `SHARED` of `PrivilegedPageFlags`, which only the build with
`cvm_guest` has. -/
structure PageProperty extends Riscv.PageProperty where
  shared : Bool
deriving DecidableEq

/-- `PteScalar`, with the properties of x86. -/
inductive PteScalar
  | absent
  | pageTable (paddr : BitVec 64) (flags : PageTableFlags)
  | mapped (paddr : BitVec 64) (prop : PageProperty)
deriving DecidableEq

/-- `PteFlags`, of which `shared` is one with `cvm_guest` only. -/
inductive PteFlags
  | present | writable | user | writeThrough | noCache | accessed | dirty | huge | global
  | shared | highIgn1 | highIgn2 | noExecute
deriving DecidableEq

/-- The bit of a flag. -/
def PteFlags.bits : PteFlags → BitVec 64
  | present => 1 <<< 0
  | writable => 1 <<< 1
  | user => 1 <<< 2
  | writeThrough => 1 <<< 3
  | noCache => 1 <<< 4
  | accessed => 1 <<< 5
  | dirty => 1 <<< 6
  | huge => 1 <<< 7
  | global => 1 <<< 8
  | shared => 1 <<< 51
  | highIgn1 => 1 <<< 52
  | highIgn2 => 1 <<< 53
  | noExecute => 1 <<< 63

open PteFlags

/-- `parse_flags!` with a flag of an entry as its target. -/
def parseFlags (val : Bool) (flag : PteFlags) : BitVec 64 := if val then flag.bits else 0

/-- `parse_flags!` with a flag of an entry as its source. -/
def has (e : BitVec 64) (f : PteFlags) : Bool := e &&& f.bits ≠ 0

/-- The cache policies by the three bits of an entry for them. -/
def ia32PatMappings : List CachePolicy :=
  [.writeback, .writethrough, .writeCombining, .uncacheable,
    .writeback, .writethrough, .writeCombining, .uncacheable]

/-- The cache policy that the bits of an entry stand for. -/
def flagsToCachePolicy (flags : BitVec 64) : Option CachePolicy :=
  ia32PatMappings[(if has flags noCache then 2 else 0) |||
    if has flags writeThrough then 1 else 0]?

/-- The bits for a cache policy; `none` is the panic of an unsupported one. -/
def cachePolicyToFlags : CachePolicy → Option (BitVec 64)
  | .writeback => some 0
  | .writethrough => some writeThrough.bits
  | .uncacheable => some (noCache.bits ||| writeThrough.bits)
  | .writeCombining => some noCache.bits
  | .writeProtected => none

/-- An entry is a word. -/
abbrev PageTableEntry := BitVec 64

namespace PageTableEntry

section

variable (cvmGuest : Bool)

/-- The bits of the address of a page table. -/
def childPtAddrMask : BitVec 64 := if cvmGuest then 0x7fffffffff000 else 0xffffffffff000

/-- The bits of the address of a page at a level; `none` is the panic of a level without pages. -/
def paMaskAtLevel : ℕ → Option (BitVec 64)
  | 1 => some (childPtAddrMask cvmGuest)
  | 2 => some (if cvmGuest then 0x7ffffffe00000 else 0xfffffffe00000)
  | 3 => some (if cvmGuest then 0x7ffffc0000000 else 0xfffffc0000000)
  | _ => none

/-- The property of the page that an entry maps. -/
def prop (e : PageTableEntry) : Option PageProperty := do
  return ⟨⟨⟨has e present, has e writable, !has e noExecute, has e accessed, has e dirty,
    has e highIgn2⟩, ← flagsToCachePolicy e, ⟨has e user, has e global, has e highIgn1⟩⟩,
    cvmGuest && has e shared⟩

/-- The flags of the page table that an entry points to. -/
def ptFlags (e : PageTableEntry) : PageTableFlags := ⟨has e highIgn1, has e highIgn2⟩

/-- The flags of an entry in `new_page`. -/
def pageFlags (p : PageProperty) : Option (BitVec 64) := do
  return huge.bits ||| parseFlags p.flags.r present ||| parseFlags p.flags.w writable |||
    parseFlags (!p.flags.x) noExecute ||| parseFlags p.flags.accessed accessed |||
    parseFlags p.flags.dirty dirty ||| parseFlags p.privFlags.avail1 highIgn1 |||
    parseFlags p.flags.avail2 highIgn2 ||| parseFlags p.privFlags.user user |||
    parseFlags p.privFlags.global global ||| parseFlags (cvmGuest && p.shared) shared |||
    (← cachePolicyToFlags p.cache)

/-- The flags of an entry in `new_pt`. -/
def tableFlags (flags : PageTableFlags) : BitVec 64 :=
  present.bits ||| writable.bits ||| user.bits ||| parseFlags flags.avail1 highIgn1 |||
    parseFlags flags.avail2 highIgn2

/-- The assertion of `new_page` and `new_pt` on the address, and what they return. -/
def new (paddr mask flags : BitVec 64) : Option PageTableEntry :=
  if paddr &&& ~~~mask = 0 then some (paddr ||| flags) else none

/-- `PteTrait::from_repr`; `none` is a panic. -/
def fromRepr (level : ℕ) : PteScalar → Option PageTableEntry
  | .absent => some 0
  | .pageTable paddr flags => new paddr (childPtAddrMask cvmGuest) (tableFlags flags)
  | .mapped paddr prop => do
    new paddr (← paMaskAtLevel cvmGuest level) (← pageFlags cvmGuest prop)

/-- `PteTrait::to_repr`; `none` is a panic. -/
def toRepr (e : PageTableEntry) (level : ℕ) : Option PteScalar :=
  if !has e present && !has e huge then some .absent
  else if has e huge then do
    return .mapped (e &&& (← paMaskAtLevel cvmGuest level)) (← prop cvmGuest e)
  else some (.pageTable (e &&& childPtAddrMask cvmGuest) (ptFlags e))

/-- What may be written at a level.  Only the build with `cvm_guest` has properties with the flag
`SHARED`. -/
def Valid (level : ℕ) : PteScalar → Prop
  | .absent => True
  | .pageTable paddr _ => paddr &&& ~~~childPtAddrMask cvmGuest = 0
  | .mapped paddr prop => prop.cache ∈ ia32PatMappings ∧ (prop.shared → cvmGuest) ∧
    ∃ mask, paMaskAtLevel cvmGuest level = some mask ∧ paddr &&& ~~~mask = 0

end

/-! ## The round trip -/

variable {cvmGuest : Bool} {level : ℕ} {a b mask : BitVec 64} {f g : PteFlags}

@[simp] lemma has_or : has (a ||| b) f = (has a f || has b f) := by
  simp [has, and_or_distrib_right, or_eq_zero_iff]

@[simp] lemma has_parseFlags (val : Bool) :
    has (parseFlags val g) f = (val && decide (g = f)) := by
  cases val <;> cases f <;> cases g <;> rfl

@[simp] lemma has_bits : has g.bits f = decide (g = f) := has_parseFlags true

section

variable (hmask : paMaskAtLevel cvmGuest level = some mask)

include hmask

/-- No flag of the build is a bit of an address. -/
lemma parseFlags_and_mask (val : Bool) (hf : f = shared → val → cvmGuest) :
    parseFlags val f &&& mask = 0 := by
  unfold paMaskAtLevel at hmask
  cases val with
  | false => exact BitVec.zero_and
  | true =>
    split at hmask <;> cases hmask <;> cases cvmGuest <;> cases f <;>
      first | rfl | exact absurd (hf rfl rfl) (by decide)

lemma bits_and_mask (hf : f ≠ shared) : f.bits &&& mask = 0 :=
  parseFlags_and_mask hmask true fun h => absurd h hf

/-- The address and the flags have no bit in common. -/
lemma new_spec (h : a &&& ~~~mask = 0) (hb : b &&& mask = 0) :
    new a mask b = some (a ||| b) ∧ (a ||| b) &&& mask = a ∧
      ∀ f, (f = shared → cvmGuest) → has (a ||| b) f = has b f := by
  have ha : a &&& mask = a := by
    have hsplit := @and_or_distrib_left _ a mask (~~~mask)
    rw [h, or_not_self, and_allOnes] at hsplit
    simpa using hsplit.symm
  refine ⟨if_pos h, by simp [and_or_distrib_right, ha, hb], fun f hf => ?_⟩
  have hbits : f.bits &&& mask = 0 := parseFlags_and_mask hmask true fun h _ => hf h
  rw [has_or, has, ← ha, BitVec.and_assoc, BitVec.and_comm mask, hbits]
  simp

/-- The flags of a page are read back from its entry. -/
lemma pageFlags_spec {p : PageProperty} (h : p.cache ∈ ia32PatMappings)
    (hshared : p.shared → cvmGuest) :
    ∃ flags, pageFlags cvmGuest p = some flags ∧ flags &&& mask = 0 ∧ has flags huge ∧
      prop cvmGuest flags = some p := by
  obtain ⟨⟨flags, cache, privFlags⟩, isShared⟩ := p
  have hzero (val : Bool) {f : PteFlags} (hf : f ≠ shared) := parseFlags_and_mask hmask val
    fun h => absurd h hf
  have hmaskShared : parseFlags (cvmGuest && isShared) shared &&& mask = 0 :=
    parseFlags_and_mask hmask _ fun _ h => (Bool.and_eq_true_iff.mp h).1
  cases cache with
  | writeProtected => simp [ia32PatMappings] at h
  | _ =>
    refine ⟨_, rfl, ?_⟩
    simp [and_or_distrib_right, bits_and_mask hmask, hzero, hmaskShared, prop,
      flagsToCachePolicy, ia32PatMappings]
    exact hshared

end

/-- Decoding undoes encoding, with and without the feature `cvm_guest`. -/
theorem toRepr_fromRepr {r : PteScalar} (h : Valid cvmGuest level r) :
    ∃ e, fromRepr cvmGuest level r = some e ∧ toRepr cvmGuest e level = some r := by
  cases r with
  | absent => exact ⟨0, rfl, rfl⟩
  | pageTable paddr flags =>
    have hmask : paMaskAtLevel cvmGuest 1 = some (childPtAddrMask cvmGuest) := rfl
    have hzero (val : Bool) {f : PteFlags} (hf : f ≠ shared) := parseFlags_and_mask hmask val
      fun h => absurd h hf
    have htable : tableFlags flags &&& childPtAddrMask cvmGuest = 0 := by
      simp [tableFlags, and_or_distrib_right, bits_and_mask hmask, hzero]
    obtain ⟨hnew, haddr, hhas⟩ := new_spec hmask h htable
    refine ⟨_, hnew, ?_⟩
    simp only [toRepr, hhas, haddr, ptFlags, reduceCtorEq, IsEmpty.forall_iff]
    simp [tableFlags]
  | mapped paddr p =>
    obtain ⟨hcache, hshared, mask, hmask, hpaddr⟩ := h
    obtain ⟨flags, hflags, hzero, hhuge, hprop⟩ := pageFlags_spec hmask hcache hshared
    obtain ⟨hnew, haddr, hhas⟩ := new_spec hmask hpaddr hzero
    have hprop' : prop cvmGuest (paddr ||| flags) = some p := by
      cases cvmGuest <;> simpa [prop, flagsToCachePolicy, hhas] using hprop
    refine ⟨paddr ||| flags, by simp [fromRepr, hmask, hflags, hnew], ?_⟩
    simp [toRepr, hhas, hhuge, hmask, hprop', haddr]

/-- A page of the kernel that is shared with the host. -/
def sharedPage : PageProperty :=
  ⟨⟨⟨true, true, false, false, false, false⟩, .uncacheable, ⟨false, true, true⟩⟩, true⟩

/-- A huge page that is shared, and a page table whose address has the bit 51. -/
theorem toRepr_fromRepr_shared :
    (∃ e, fromRepr true 2 (.mapped 0x200000 sharedPage) = some e ∧
      toRepr true e 2 = some (.mapped 0x200000 sharedPage)) ∧
    ∃ e, fromRepr false 2 (.pageTable 0x8000000001000 ⟨true, false⟩) = some e ∧
      toRepr false e 2 = some (.pageTable 0x8000000001000 ⟨true, false⟩) :=
  ⟨toRepr_fromRepr (r := .mapped _ _) ⟨by decide, fun _ => rfl, _, rfl, by decide⟩,
    toRepr_fromRepr (r := .pageTable _ _) rfl⟩

end PageTableEntry

end Asterinas.X86
