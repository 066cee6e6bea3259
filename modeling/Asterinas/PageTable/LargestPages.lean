import Asterinas.Basic

/-!
# The largest pages of a range (`mm/page_table/mod.rs`)

`largest_pages` cuts a range of addresses into page table items, from its start on, each as large
as the alignment of both addresses and the rest of the range allow.  Addresses are natural
numbers: as long as both ranges end inside the address space no sum of the source wraps.
-/

namespace Asterinas.PageTable

open Nat

/-- What `largest_pages` asks a `PageTableConfig` for. -/
structure PageTableConfig where
  basePageSize : ℕ
  highestTranslationLevel : ℕ
  pteSize : ℕ
  /-- `vaddr_range`: the first and the last address of the table. -/
  vaddrRange : ℕ × ℕ
  basePageSize_pos : 0 < basePageSize
  highest_pos : 0 < highestTranslationLevel

namespace PageTableConfig

variable (C : PageTableConfig)

/-- `nr_subpage_per_huge`: the entries of a page table. -/
def nrSubpagePerHuge : ℕ := C.basePageSize / C.pteSize

/-- `page_size`: the bytes that an entry of a level maps. -/
def pageSize (level : ℕ) : ℕ := C.basePageSize <<< (C.nrSubpagePerHuge.log2 * (level - 1))

/-- `is_valid_range`: the range is not empty and inside the addresses that the table maps. -/
def isValidRange (r : Range ℕ) : Bool :=
  r.start < r.stop && (C.vaddrRange.1 ≤ r.start && r.stop - 1 ≤ C.vaddrRange.2)

/-- A page of the level can be mapped at the addresses: the loop over the levels stops. -/
abbrev Fits (va pa len level : ℕ) : Prop :=
  C.pageSize level ≤ len ∧ C.pageSize level ∣ va ∧ C.pageSize level ∣ pa

/-- Where the loop over the levels stops, on its way down. -/
def levelOf (va pa len : ℕ) : ℕ := Nat.findGreatest (C.Fits va pa len) C.highestTranslationLevel

lemma pageSize_eq (level : ℕ) :
    C.pageSize level = C.basePageSize * 2 ^ (C.nrSubpagePerHuge.log2 * (level - 1)) :=
  shiftLeft_eq _ _

lemma pageSize_pos (level : ℕ) : 0 < C.pageSize level := by
  rw [pageSize_eq]
  exact Nat.mul_pos C.basePageSize_pos (Nat.two_pow_pos _)

/-- The iterator, run to its end; level 0 is a panic. -/
def pagesFrom (va pa len : ℕ) : Option (List (ℕ × ℕ)) :=
  let level := C.levelOf va pa len
  if len = 0 then some []
  else if level = 0 then none
  else (pagesFrom (va + C.pageSize level) (pa + C.pageSize level) (len - C.pageSize level)).map
    ((pa, level) :: ·)
termination_by len
decreasing_by exact sub_lt (Nat.pos_of_ne_zero ‹_›) (C.pageSize_pos _)

/-- `largest_pages`: a failed assertion is a panic. -/
def largestPages (va pa len : ℕ) : Option (List (ℕ × ℕ)) :=
  if va % C.basePageSize = 0 ∧ pa % C.basePageSize = 0 ∧ len % C.basePageSize = 0 ∧
      C.isValidRange ⟨va, va + len⟩ then C.pagesFrom va pa len
  else none

/-- The items cover the two ranges of `len` bytes from their starts on, without a gap, and each is
of the highest level that fits. -/
inductive Tiles : ℕ → ℕ → ℕ → List (ℕ × ℕ) → Prop
  | nil {va pa : ℕ} : Tiles va pa 0 []
  | cons {level va pa len : ℕ} {rest : List (ℕ × ℕ)} :
      0 < level → level ≤ C.highestTranslationLevel → C.Fits va pa len level →
      (∀ l, level < l → l ≤ C.highestTranslationLevel → ¬ C.Fits va pa len l) →
      Tiles (va + C.pageSize level) (pa + C.pageSize level) (len - C.pageSize level) rest →
      Tiles va pa len ((pa, level) :: rest)

variable {C}

lemma exists_tiles {va pa len : ℕ} (hva : C.basePageSize ∣ va) (hpa : C.basePageSize ∣ pa)
    (hlen : C.basePageSize ∣ len) :
    ∃ items, C.pagesFrom va pa len = some items ∧ C.Tiles va pa len items := by
  induction len using Nat.strongRecOn generalizing va pa with
  | ind len ih =>
    rw [pagesFrom]
    split
    · next h => exact ⟨[], rfl, h ▸ .nil⟩
    · next h =>
      -- a base page fits, so the loop stops at level 1 at the latest
      have hfits : C.Fits va pa len 1 := by
        have hone : C.pageSize 1 = C.basePageSize := by simp [pageSize_eq]
        rw [Fits, hone]
        exact ⟨le_of_dvd (Nat.pos_of_ne_zero h) hlen, hva, hpa⟩
      have hpos : 0 < C.levelOf va pa len := le_findGreatest C.highest_pos hfits
      have hdvd : C.basePageSize ∣ C.pageSize (C.levelOf va pa len) :=
        C.pageSize_eq _ ▸ dvd_mul_right _ _
      obtain ⟨rest, hrest, htiles⟩ := ih _
        (sub_lt (Nat.pos_of_ne_zero h) (C.pageSize_pos _)) (dvd_add hva hdvd)
        (dvd_add hpa hdvd) (Nat.dvd_sub hlen hdvd)
      rw [if_neg hpos.ne', hrest]
      exact ⟨_, rfl, .cons hpos (findGreatest_le _) (findGreatest_spec C.highest_pos hfits)
        (fun l => findGreatest_is_greatest) htiles⟩

/-- **The largest pages.** For aligned addresses and an aligned range that is valid for the page
table, the iteration ends and its items tile the range, each of the highest level that fits. -/
theorem largestPages_tiles {va pa len : ℕ} (hva : C.basePageSize ∣ va) (hpa : C.basePageSize ∣ pa)
    (hlen : C.basePageSize ∣ len) (hvalid : C.isValidRange ⟨va, va + len⟩) :
    ∃ items, C.largestPages va pa len = some items ∧ C.Tiles va pa len items := by
  rw [largestPages, if_pos ⟨mod_eq_zero_of_dvd hva, mod_eq_zero_of_dvd hpa,
    mod_eq_zero_of_dvd hlen, hvalid⟩]
  exact exists_tiles hva hpa hlen

/-- The page tables of user space on x86-64. -/
def userPt : PageTableConfig := ⟨4096, 2, 8, (0, 2 ^ 47 - 1), by decide, by decide⟩

theorem largestPages_tiles_userPt :
    ∃ items, userPt.largestPages 0x1ff000 0x3ff000 0x202000 = some items ∧
      userPt.Tiles 0x1ff000 0x3ff000 0x202000 items :=
  largestPages_tiles (by decide) (by decide) (by decide) (by decide)

/-- An empty range is not valid. -/
theorem largestPages_empty : userPt.largestPages 0 0 0 = none := by
  simp [largestPages, isValidRange]

end PageTableConfig

end Asterinas.PageTable
