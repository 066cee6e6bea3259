import Mathlib.Tactic

/-!
# RISC-V page table entries (`ostd/src/arch/riscv/mm/mod.rs`)

No bit of the hardware format tells a mapped page from a page table.  Above the lowest level an
entry is taken for a page if it may be read, written or executed, so that a page without any of
these permissions is read back as a page table.
-/

namespace Asterinas.Riscv

/-- `PageFlags`, as the set of its flags. -/
structure PageFlags where
  r : Bool
  w : Bool
  x : Bool
  accessed : Bool
  dirty : Bool
  avail2 : Bool
deriving DecidableEq

/-- `PrivilegedPageFlags`, as the set of its flags. -/
structure PrivFlags where
  user : Bool
  global : Bool
  avail1 : Bool
deriving DecidableEq

/-- `CachePolicy`: how accesses to a page are cached. -/
inductive CachePolicy
  | uncacheable
  | writeCombining
  | writeProtected
  | writethrough
  | writeback
deriving DecidableEq

/-- `PageProperty`: the flags and the cache policy of a mapped page. -/
structure PageProperty where
  flags : PageFlags
  cache : CachePolicy
  privFlags : PrivFlags
deriving DecidableEq

/-- `PageTableFlags`, as the set of its flags. -/
structure PageTableFlags where
  avail1 : Bool
  avail2 : Bool
deriving DecidableEq

/-- `PteScalar`: what an entry stands for. -/
inductive PteScalar
  | absent
  | pageTable (paddr : BitVec 64) (flags : PageTableFlags)
  | mapped (paddr : BitVec 64) (prop : PageProperty)
deriving DecidableEq

/-- The extensions that the encoding asks for with `has_extensions`. -/
structure IsaExtensions where
  svade : Bool
  svpbmt : Bool

/-- `PteFlags`: the flags of an entry that RISC-V and its extensions define. -/
inductive PteFlags
  | valid
  | readable
  | writable
  | executable
  | user
  | global
  | accessed
  | dirty
  | rsv1
  | rsv2
  | pbmtIo
deriving DecidableEq

/-- `PteFlags::bits`: the bit of a flag. -/
def PteFlags.bits : PteFlags → BitVec 64
  | valid => 1 <<< 0
  | readable => 1 <<< 1
  | writable => 1 <<< 2
  | executable => 1 <<< 3
  | user => 1 <<< 4
  | global => 1 <<< 5
  | accessed => 1 <<< 6
  | dirty => 1 <<< 7
  | rsv1 => 1 <<< 8
  | rsv2 => 1 <<< 9
  | pbmtIo => 1 <<< 62

/-- `parse_flags!` with a flag of an entry as its target. -/
def parseFlags (val : Bool) (flag : PteFlags) : BitVec 64 := if val then flag.bits else 0

/-- `PageTableEntry`, a word. -/
abbrev PageTableEntry := BitVec 64

namespace PageTableEntry

open PteFlags BitVec

/-- `PHYS_ADDR_MASK`: the bits of an entry that hold the number of a frame. -/
def physAddrMask : BitVec 64 := 0x003ffffffffffc00

/-- The entry fails the assertion when the address does not fit. -/
def newWithoutFlags (paddr : BitVec 64) : Option PageTableEntry :=
  if paddr &&& ~~~physAddrMask = 0 then some (paddr >>> 12 <<< 10) else none

section

variable (e : PageTableEntry)

/-- `paddr`: the address of the frame of an entry. -/
def paddr : BitVec 64 := (e &&& physAddrMask) >>> 10 <<< 12

/-- `parse_flags!` with a flag of an entry as its source. -/
def has (f : PteFlags) : Bool := e &&& f.bits ≠ 0

/-- `is_last`: the entry maps a page, since it is of the lowest level or has a permission. -/
def isLast (level : ℕ) : Bool :=
  level = 1 ∨ e &&& (readable.bits ||| writable.bits ||| executable.bits) ≠ 0

/-- `prop`: the property of the page that an entry maps. -/
def prop : PageProperty where
  flags :=
    ⟨e.has readable, e.has writable, e.has executable, e.has accessed, e.has dirty, e.has rsv2⟩
  cache := if e.has pbmtIo then .uncacheable else .writeback
  privFlags := ⟨e.has user, e.has global, e.has rsv1⟩

/-- `pt_flags`: the flags of the page table that an entry points to. -/
def ptFlags : PageTableFlags := ⟨e.has rsv1, e.has rsv2⟩

end

/-- The flags of an entry in `new_page`, which panics on a cache policy that it does not support. -/
def pageFlags (ext : IsaExtensions) (prop : PageProperty) : Option (BitVec 64) :=
  let flags := valid.bits ||| parseFlags prop.flags.r readable ||| parseFlags prop.flags.w
    writable |||
    parseFlags prop.flags.x executable ||| parseFlags prop.flags.accessed accessed |||
    parseFlags prop.flags.dirty dirty ||| parseFlags prop.privFlags.user user |||
    parseFlags prop.privFlags.global global ||| parseFlags prop.privFlags.avail1 rsv1 |||
    parseFlags prop.flags.avail2 rsv2
  let flags := if ext.svade then flags ||| (accessed.bits ||| dirty.bits) else flags
  match prop.cache with
  | .writeback => some flags
  | .uncacheable => some (if ext.svpbmt then flags ||| pbmtIo.bits else flags)
  | _ => none

/-- `new_page`: the entry of a page; `none` is a panic. -/
def newPage (ext : IsaExtensions) (paddr : BitVec 64) (prop : PageProperty) :
    Option PageTableEntry := do
  let flags ← pageFlags ext prop
  let res ← newWithoutFlags paddr
  return res ||| flags

/-- `new_pt`: the entry of a page table; `none` is a panic too. -/
def newPt (paddr : BitVec 64) (flags : PageTableFlags) : Option PageTableEntry := do
  let flags := valid.bits ||| parseFlags flags.avail1 rsv1 ||| parseFlags flags.avail2 rsv2
  let res ← newWithoutFlags paddr
  return res ||| flags

/-- `PteTrait::from_repr`; `none` is a panic. -/
def fromRepr (ext : IsaExtensions) : PteScalar → Option PageTableEntry
  | .absent => some 0
  | .pageTable paddr flags => newPt paddr flags
  | .mapped paddr prop => newPage ext paddr prop

/-- `PteTrait::to_repr`: what an entry of a level stands for. -/
def toRepr (e : PageTableEntry) (level : ℕ) : PteScalar :=
  if e &&& valid.bits = 0 then .absent
  else if e.isLast level then .mapped e.paddr e.prop
  else .pageTable e.paddr e.ptFlags

/-! ## The round trip -/

variable {e a b : PageTableEntry} {f g : PteFlags} {prop : PageProperty}

@[simp] lemma has_or : (a ||| b).has f = (a.has f || b.has f) := by
  simp [has, and_or_distrib_right, or_eq_zero_iff]

@[simp] lemma has_parseFlags (val : Bool) : has (parseFlags val g) f = (val && decide (g = f)) := by
  cases val <;> cases f <;> cases g <;> rfl

@[simp] lemma has_bits : has g.bits f = decide (g = f) := has_parseFlags true

/-- No flag is a bit of an address. -/
@[simp] lemma parseFlags_and_mask (val : Bool) : parseFlags val f &&& physAddrMask = 0 := by
  cases val <;> cases f <;> rfl

@[simp] lemma bits_and_mask : f.bits &&& physAddrMask = 0 := parseFlags_and_mask true

lemma getLsbD_mask : ∀ i < 64, physAddrMask.getLsbD i = (decide (10 ≤ i) && decide (i < 54)) := by
  decide

/-- An entry gives back the address and the flags that it is made of. -/
lemma newWithoutFlags_or {addr flags : BitVec 64} (haligned : addr &&& 0xfff = 0)
    (h : newWithoutFlags addr = some e) (hflags : flags &&& physAddrMask = 0) :
    paddr (e ||| flags) = addr ∧ ∀ f, has (e ||| flags) f = has flags f := by
  unfold newWithoutFlags at h
  split_ifs at h with hfits
  cases h
  -- The address has bits 12 to 53 only, so that no bit is lost when it is shifted.
  have hlow (i : ℕ) (hi : i < 12) : addr.getLsbD i = false := by
    have := congrArg (·.getLsbD i) haligned
    interval_cases i <;> simpa using this
  have hhigh (i : ℕ) (hi : 54 ≤ i) : addr.getLsbD i = false := by
    rcases lt_or_ge i 64 with hlt | hge
    · have hbit := congrArg (·.getLsbD i) hfits
      rw [getLsbD_and, getLsbD_not, getLsbD_mask i hlt] at hbit
      simpa [hlt, hi.not_gt] using hbit
    · exact getLsbD_of_ge _ _ hge
  have hmask : (addr >>> 12 <<< 10) &&& physAddrMask = addr >>> 12 <<< 10 := by
    refine eq_of_getLsbD_eq fun i hi => ?_
    rw [getLsbD_and, getLsbD_mask i hi, getLsbD_shiftLeft, getLsbD_ushiftRight]
    rcases lt_or_ge i 54 with hlt | hge
    · grind
    · rw [hhigh (12 + (i - 10)) (by omega)]
      simp
  have haddr : addr >>> 12 <<< 10 >>> 10 <<< 12 = addr := by
    refine eq_of_getLsbD_eq fun i hi => ?_
    simp only [getLsbD_shiftLeft, getLsbD_ushiftRight]
    rcases lt_or_ge i 12 with hlt | hge
    · simp [hlow i hlt, hlt]
    · rw [show 12 + (10 + (i - 12) - 10) = i by omega]
      grind
  constructor
  · rw [paddr, and_or_distrib_right, hmask, hflags]
    simpa using haddr
  · intro f
    -- The bits of the flags are outside of the address.
    rw [has_or, Bool.or_eq_right_iff_imp]
    intro hf
    rw [has, ← hmask, BitVec.and_assoc, BitVec.and_comm physAddrMask, bits_and_mask] at hf
    simp at hf

end PageTableEntry

/-- What an entry keeps of a property: with Svade the hardware leaves two of the flags to the
software, which sets them, and without Svpbmt it has no cache policies. -/
def PageProperty.stored (ext : IsaExtensions) (prop : PageProperty) : PageProperty where
  flags := { prop.flags with
    accessed := prop.flags.accessed || ext.svade
    dirty := prop.flags.dirty || ext.svade }
  cache := if prop.cache = .uncacheable ∧ ext.svpbmt then .uncacheable else .writeback
  privFlags := prop.privFlags

namespace PageTableEntry

open PteFlags

variable {e : PageTableEntry} {p : PageProperty}

lemma pageFlags_eq_some {ext : IsaExtensions} {flags : BitVec 64}
    (h : pageFlags ext p = some flags) :
    flags &&& physAddrMask = 0 ∧ has flags valid ∧ prop flags = p.stored ext := by
  obtain ⟨flags, cache, privFlags⟩ := p
  cases hs : ext.svade <;> cases hp : ext.svpbmt <;> cases cache <;>
    simp only [pageFlags, hs, hp, Option.some.injEq, reduceCtorEq] at h <;> subst h <;>
    simp [BitVec.and_or_distrib_right, prop, PageProperty.stored, hs, hp]

lemma toRepr_or {addr flags : BitVec 64} (haligned : addr &&& 0xfff = 0)
    (h : newWithoutFlags addr = some e) (hmask : flags &&& physAddrMask = 0)
    (hvalid : has flags valid) (level : ℕ) : toRepr (e ||| flags) level =
      if level = 1 ∨ has flags readable ∨ has flags writable ∨ has flags executable then
        .mapped addr (prop flags)
      else .pageTable addr (ptFlags flags) := by
  obtain ⟨haddr, hhas⟩ := newWithoutFlags_or haligned h hmask
  have hpresent : ¬ (e ||| flags) &&& valid.bits = 0 := by
    simpa [has] using (hhas valid).trans hvalid
  have hlast : isLast (e ||| flags) level ↔
      level = 1 ∨ has flags readable ∨ has flags writable ∨ has flags executable := by
    rw [← hhas, ← hhas, ← hhas]
    simp [isLast, has, BitVec.and_or_distrib_left, BitVec.or_eq_zero_iff, imp_iff_not_or, or_assoc]
  rw [toRepr, if_neg hpresent]
  simp only [hlast, haddr, prop, ptFlags, hhas]

/-- The access permissions, the privileges and the available bits of a property. -/
def access (p : PageProperty) : Bool × Bool × Bool × Bool × PrivFlags :=
  (p.flags.r, p.flags.w, p.flags.x, p.flags.avail2, p.privFlags)

/-- Decoding undoes encoding exactly if the page is mapped at the lowest level or may be read,
written or executed. -/
theorem toRepr_fromRepr_iff {addr : BitVec 64} {ext : IsaExtensions} {f : PageTableFlags}
    {e' : PageTableEntry} (level : ℕ) (haligned : addr &&& 0xfff = 0)
    (hpage : fromRepr ext (.mapped addr p) = some e)
    (hpt : fromRepr ext (.pageTable addr f) = some e') :
    ((∃ p', e.toRepr level = .mapped addr p' ∧ access p' = access p) ∧
      (level ≠ 1 → e'.toRepr level = .pageTable addr f) ∧ toRepr 0 level = .absent) ↔
    (level = 1 ∨ p.flags.r ∨ p.flags.w ∨ p.flags.x) := by
  obtain ⟨flags, hflags, hpage⟩ := Option.bind_eq_some_iff.mp hpage
  obtain ⟨res, hres, hpage⟩ := Option.bind_eq_some_iff.mp hpage
  obtain ⟨res', hres', hpt⟩ := Option.bind_eq_some_iff.mp hpt
  cases hpage
  cases hpt
  obtain ⟨hmask, hvalid, hprop⟩ := pageFlags_eq_some hflags
  have hrepr := toRepr_or haligned hres hmask hvalid level
  -- The entry is decoded by its permissions, which are those of the property.
  rw [show has flags readable = p.flags.r from congrArg (·.flags.r) hprop,
    show has flags writable = p.flags.w from congrArg (·.flags.w) hprop,
    show has flags executable = p.flags.x from congrArg (·.flags.x) hprop, hprop] at hrepr
  constructor
  · rintro ⟨⟨p', hp', -⟩, -⟩
    by_contra hnot
    rw [hrepr, if_neg hnot] at hp'
    cases hp'
  · intro h
    rw [if_pos h] at hrepr
    refine ⟨⟨_, hrepr, rfl⟩, fun hlevel => ?_, by simp [toRepr]⟩
    rw [toRepr_or haligned hres' (by simp [BitVec.and_or_distrib_right]) (by simp), if_neg]
    · simp [ptFlags]
    · simp [hlevel]

/-- A page of the user that may not be accessed. -/
def protNone : PageProperty :=
  ⟨⟨false, false, false, false, false, false⟩, .writeback, ⟨true, false, false⟩⟩

/-- At the lowest level such a page is read back. -/
theorem toRepr_protNone : ∃ e, fromRepr ⟨false, false⟩ (.mapped 0x200000 protNone) = some e ∧
    ∃ p, e.toRepr 1 = .mapped 0x200000 p ∧ access p = access protNone :=
  ⟨_, rfl, ((toRepr_fromRepr_iff (f := ⟨true, false⟩) 1 (by decide) rfl rfl).mpr (.inl rfl)).1⟩

/-- As a huge page it is taken for a page table. -/
theorem toRepr_huge_protNone : ∃ e, fromRepr ⟨false, false⟩ (.mapped 0x200000 protNone) = some e ∧
    e.toRepr 2 = .pageTable 0x200000 ⟨false, false⟩ :=
  ⟨_, rfl, by decide⟩

end PageTableEntry

end Asterinas.Riscv
