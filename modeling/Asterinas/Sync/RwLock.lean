import Mathlib.Logic.Relation
import Mathlib.Tactic

/-!
# The reader-writer locks (`rwlock.rs`, `rwmutex.rs`)

Both locks are one word, three flag bits over a count of readers, and `RwMutex` adds a downgrade.
Other tasks run between the atomic operations of a call: a reader counts itself first and takes
itself back if a flag was set, and an upgrade holds two flags until its old guard is dropped.
-/

namespace Asterinas.RwLock

open List

/-- `READER`: one reader. -/
def reader : BitVec 64 := 1

/-- `WRITER`: there is a writer. -/
def writer : BitVec 64 := 1 <<< 63

/-- `UPGRADEABLE_READER`: there is an upgradeable reader. -/
def upgradeableReader : BitVec 64 := 1 <<< 62

/-- `BEING_UPGRADED`: the upgradeable reader is about to become the writer. -/
def beingUpgraded : BitVec 64 := 1 <<< 61

/-- `MAX_READER`: the bit that the count of readers must not reach. -/
def maxReader : BitVec 64 := 1 <<< 60

/-- The word, and how many guards and unfinished calls stand at each point of the code. -/
structure State where
  lock : BitVec 64 := 0
  (readers writers upreaders : ℕ := 0)
  /-- Failed `try_read` calls that have yet to undo their count. -/
  readFails : ℕ := 0
  /-- Failed `try_upread` calls that have yet to undo their bit. -/
  upreadFails : ℕ := 0
  /-- Guards in `upgrade`, with `BEING_UPGRADED` set. -/
  upgrading : ℕ := 0
  /-- Writers whose `try_upgrade` has yet to drop the old guard. -/
  upgraded : ℕ := 0
  /-- Upgradeable guards whose `try_downgrade` has yet to do so. -/
  downgraded : ℕ := 0

/-- One atomic operation; an exchange that fails changes nothing. -/
inductive Step (s : State) : State → Prop
  | tryRead : s.lock &&& (writer ||| maxReader ||| beingUpgraded) = 0#64 →
    Step s { s with lock := s.lock + reader, readers := s.readers + 1 }
  | failRead : s.lock &&& (writer ||| maxReader ||| beingUpgraded) ≠ 0#64 →
    Step s { s with lock := s.lock + reader, readFails := s.readFails + 1 }
  | undoRead : 0 < s.readFails →
    Step s { s with lock := s.lock - reader, readFails := s.readFails - 1 }
  | dropRead : 0 < s.readers →
    Step s { s with lock := s.lock - reader, readers := s.readers - 1 }
  | tryWrite : s.lock = 0#64 → Step s { s with lock := writer, writers := s.writers + 1 }
  | dropWrite : 0 < s.writers →
    Step s { s with lock := s.lock &&& ~~~writer, writers := s.writers - 1 }
  | tryUpread : s.lock &&& (writer ||| upgradeableReader) = 0#64 →
    Step s { s with lock := s.lock ||| upgradeableReader, upreaders := s.upreaders + 1 }
  | failUpread : s.lock &&& (writer ||| upgradeableReader) = writer →
    Step s { s with lock := s.lock ||| upgradeableReader, upreadFails := s.upreadFails + 1 }
  | denyUpread : s.lock &&& (writer ||| upgradeableReader) ∉ [0#64, writer] →
    Step s { s with lock := s.lock ||| upgradeableReader }
  | undoUpread : 0 < s.upreadFails →
    Step s { s with lock := s.lock - upgradeableReader, upreadFails := s.upreadFails - 1 }
  | dropUpread : 0 < s.upreaders →
    Step s { s with lock := s.lock - upgradeableReader, upreaders := s.upreaders - 1 }
  | upgrade : 0 < s.upreaders →
    Step s { s with
      lock := s.lock ||| beingUpgraded
      upreaders := s.upreaders - 1, upgrading := s.upgrading + 1 }
  | tryUpgrade : s.lock = upgradeableReader ||| beingUpgraded → 0 < s.upgrading →
    Step s { s with
      lock := writer ||| upgradeableReader
      upgrading := s.upgrading - 1, upgraded := s.upgraded + 1 }
  | dropUpgraded : 0 < s.upgraded →
    Step s { s with
      lock := s.lock - upgradeableReader
      upgraded := s.upgraded - 1, writers := s.writers + 1 }
  | tryDowngrade : s.lock = writer → 0 < s.writers →
    Step s { s with
      lock := upgradeableReader
      writers := s.writers - 1, downgraded := s.downgraded + 1 }
  | dropDowngraded : 0 < s.downgraded →
    Step s { s with
      lock := s.lock &&& ~~~writer
      downgraded := s.downgraded - 1, upreaders := s.upreaders + 1 }

/-- The word tells the guards and the unfinished calls. -/
structure Inv (s : State) : Prop where
  lock : s.lock.toNat = 2 ^ 63 * (s.writers + s.upgraded) +
    2 ^ 62 * (s.upreaders + s.upreadFails + s.upgrading + s.upgraded + s.downgraded) +
    2 ^ 61 * s.upgrading + (s.readers + s.readFails)
  readers : s.readers ≤ 2 ^ 60
  readFails : s.readFails < 2 ^ 60
  upreaders : s.upreaders + s.upreadFails + s.upgrading + s.upgraded + s.downgraded ≤ 1
  writers : s.writers + s.upgraded ≤ 1
  exclusive : 0 < s.writers + s.upgraded →
    s.readers + s.upreaders + s.upgrading + s.downgraded = 0

lemma and_mul (x n m : ℕ) : x &&& 2 ^ n * m = 2 ^ n * (x / 2 ^ n &&& m) := by
  rw [← Nat.div_add_mod (_ &&& _) (2 ^ n), Nat.and_div_two_pow, Nat.and_mod_two_pow]
  simp

lemma or_mul (x n m : ℕ) : x ||| 2 ^ n * m = 2 ^ n * (x / 2 ^ n ||| m) + x % 2 ^ n := by
  rw [← Nat.div_add_mod (_ ||| _) (2 ^ n), Nat.or_div_two_pow, Nat.or_mod_two_pow]
  simp

/-- The four upper bits under the masks of the source. -/
lemma masks : ∀ k < 16, (k &&& 11 = 0 → k = 0 ∨ k = 4) ∧ k &&& 12 = k / 4 * 4 ∧
    k ||| 4 = k + (1 - k / 4 % 2) * 4 ∧ k ||| 2 = k + (1 - k / 2 % 2) * 2 := by decide

section Word

variable (w : BitVec 64)

lemma read_mask (h : w &&& (writer ||| maxReader ||| beingUpgraded) = 0#64) :
    w.toNat / 2 ^ 60 = 0 ∨ w.toNat / 2 ^ 60 = 4 := by
  have hmask := (and_mul w.toNat 60 11).symm.trans (congrArg BitVec.toNat h)
  exact (masks _ (by omega)).1 (by simpa using hmask)

lemma upread_mask :
    (w &&& (writer ||| upgradeableReader)).toNat = 2 ^ 62 * (w.toNat / 2 ^ 62) := by
  have := masks (w.toNat / 2 ^ 60) (by omega)
  exact (and_mul _ 60 12).trans (by omega)

lemma or_upgradeableReader :
    (w ||| upgradeableReader).toNat = w.toNat + (1 - w.toNat / 2 ^ 62 % 2) * 2 ^ 62 := by
  have := masks (w.toNat / 2 ^ 60) (by omega)
  exact (or_mul _ 60 4).trans (by omega)

lemma or_beingUpgraded :
    (w ||| beingUpgraded).toNat = w.toNat + (1 - w.toNat / 2 ^ 61 % 2) * 2 ^ 61 := by
  have := masks (w.toNat / 2 ^ 60) (by omega)
  exact (or_mul _ 60 2).trans (by omega)

lemma and_not_writer : (w &&& ~~~writer).toNat = w.toNat % 2 ^ 63 :=
  Nat.and_two_pow_sub_one_eq_mod _ 63

end Word

variable {s t : State}

lemma Inv.step (h : Inv s) (hst : Step s t) (ht : t.readFails < 2 ^ 60) : Inv t := by
  obtain ⟨hlock, hr, hf, hu, hw, he⟩ := h
  have hmask := upread_mask s.lock
  have hzero : (0#64).toNat = 0 := rfl
  have hrd : reader.toNat = 1 := rfl
  have hwr : writer.toNat = 2 ^ 63 := rfl
  have hup : upgradeableReader.toNat = 2 ^ 62 := rfl
  cases hst with
  | tryRead h0 =>
    have hk := read_mask s.lock h0
    constructor <;> simp only [BitVec.toNat_add] <;> omega
  | failRead h0 => exact ⟨by simp only [BitVec.toNat_add]; omega, hr, ht, hu, hw, he⟩
  | tryWrite h0 | tryDowngrade h0 =>
    rw [h0] at hlock
    constructor <;> dsimp only <;> omega
  | tryUpread h0 | failUpread h0 =>
    rw [h0] at hmask
    constructor <;> simp only [or_upgradeableReader] <;> omega
  | denyUpread h0 =>
    simp only [mem_cons, not_mem_nil, or_false, not_or, ← BitVec.toNat_inj] at h0
    constructor <;> simp only [or_upgradeableReader] <;> omega
  | tryUpgrade h0 =>
    have hub : s.lock.toNat = 2 ^ 62 + 2 ^ 61 := h0 ▸ rfl
    have hwu : (writer ||| upgradeableReader).toNat = 2 ^ 63 + 2 ^ 62 := rfl
    constructor <;> dsimp only <;> omega
  | _ => constructor <;> simp only [BitVec.toNat_sub, and_not_writer, or_beingUpgraded] <;> omega

/-- The states of a lock, as long as less than `MAX_READER` reads fail at a time. -/
def Reachable : State → Prop :=
  Relation.ReflTransGen (fun s t ↦ Step s t ∧ t.readFails < maxReader.toNat) {}

/-- Over every interleaving, a write guard excludes every other guard, at most one guard is
upgradeable, the count of readers never reaches the flags, and when every guard is dropped and every
call is over, the lock is free. -/
theorem exclusive_of_reachable (h : Reachable s) :
    (0 < s.writers + s.upgraded → s.writers + s.upgraded = 1 ∧
      s.readers + s.upreaders + s.upgrading + s.downgraded = 0) ∧
    s.upreaders + s.upgrading + s.downgraded ≤ 1 ∧
    s.lock.toNat % 2 ^ 61 = s.readers + s.readFails ∧
    (s.readers + s.readFails + s.writers + s.upreaders + s.upreadFails + s.upgrading +
      s.upgraded + s.downgraded = 0 → s.lock = 0#64) := by
  have hinv : Inv s := by
    induction h with
    | refl => constructor <;> simp
    | tail _ hst ih => exact ih.step hst.1 hst.2
  obtain ⟨hlock, hr, hf, hu, hw, he⟩ := hinv
  rw [← BitVec.toNat_inj, BitVec.toNat_zero]
  omega

theorem exclusive_of_failed_read : ∃ s, Reachable s ∧ s.readFails = 1 ∧ s.readers = 0 := by
  have hrun : Reachable _ :=
    .tail (.single ⟨.tryWrite rfl, by decide⟩) ⟨.failRead (by decide), by decide⟩
  obtain ⟨-, hnone⟩ := (exclusive_of_reachable hrun).1 (by decide)
  exact ⟨_, hrun, rfl, by omega⟩

end Asterinas.RwLock
