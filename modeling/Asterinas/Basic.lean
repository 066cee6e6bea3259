import Mathlib.Tactic

/-!
# Shared vocabulary of the kernel models

The pieces every part of the model uses: the error type of the kernel crate, the page and
block sizes, the alignment helpers of the `align_ext` crate on natural numbers, and the ranges of
the core library.
-/

namespace Asterinas

/-- The error numbers (`Errno`) that the modelled functions return. -/
inductive Errno
  | eperm
  | enoent
  | eio
  | enomem
  | eacces
  | efault
  | ebusy
  | eexist
  | eisdir
  | enotdir
  | einval
  | efbig
  | enospc
  | erofs
  | emlink
  | enametoolong
  | enotempty
  | eoverflow
  | eintr
  | eagain
  | erange
  | eidrm
  | eopnotsupp
  | etime
  | eisconn
  | enotconn
  | econnreset
  | etimedout
  | epipe
  | eaddrinuse
  | exdev
  deriving DecidableEq, Repr

/-- The kernel's `Error`: an error number with an optional message. -/
structure Error where
  /-- The error number. -/
  errno : Errno
  /-- The text given to `return_errno_with_message!`, when there is one. -/
  msg : Option String
  deriving DecidableEq, Repr

/-- `Error::new`: an error without a message. -/
def Error.new (errno : Errno) : Error := ⟨errno, none⟩

/-- `Error::with_message`: an error with the text that says what was wrong. -/
def Error.withMessage (errno : Errno) (msg : String) : Error := ⟨errno, some msg⟩

/-- `PAGE_SIZE`, of all architectures that are supported. -/
def pageSize : ℕ := 4096

lemma pageSize_pos : 0 < pageSize := by decide

/-- `align_down`: the last multiple of `align` up to `n`. -/
def alignDown (n align : ℕ) : ℕ := n / align * align

/-- `div_ceil`: the quotient, rounded up. -/
def divCeil (n d : ℕ) : ℕ := (n + d - 1) / d

/-- `align_up`: the first multiple of `align` from `n` on. -/
def alignUp (n align : ℕ) : ℕ := divCeil n align * align

/-- `is_power_of_two`, read off the position of the highest bit. -/
def isPowerOfTwo (n : ℕ) : Bool := 2 ^ n.log2 == n

/-- `core::ops::Range`: the keys from `start` up to, and without, `stop`. -/
structure Range (K : Type) where
  start : K
  stop : K
deriving DecidableEq, Repr

namespace Range

variable {K : Type} [LinearOrder K]

/-- Two ranges one of which ends before the other starts. -/
def Apart (r r' : Range K) : Prop := r.stop ≤ r'.start ∨ r'.stop ≤ r.start

instance (r r' : Range K) : Decidable (r.Apart r') := inferInstanceAs (Decidable (_ ∨ _))

lemma Apart.symm {r r' : Range K} (h : r.Apart r') : r'.Apart r := Or.symm h

/-- A part of a range that is apart from another is apart from it too. -/
lemma Apart.mono {r r' q : Range K} (h : r.Apart r') (hstart : r.start ≤ q.start)
    (hstop : q.stop ≤ r.stop) : q.Apart r' := by
  rcases h with h | h
  · exact .inl (hstop.trans h)
  · exact .inr (h.trans hstart)

lemma not_apart_iff {r r' : Range K} : ¬ r.Apart r' ↔ r'.start < r.stop ∧ r.start < r'.stop := by
  simp [Apart]

/-- The number of elements of a range of numbers. -/
def len (r : Range ℕ) : ℕ := r.stop - r.start

/-- `Range::is_empty`, which holds of a range that runs backwards too. -/
def isEmpty (r : Range ℕ) : Bool := r.stop ≤ r.start

/-- The elements that iterating over a range of numbers yields. -/
def toList (r : Range ℕ) : List ℕ := List.range' r.start r.len

lemma mem_toList {i : ℕ} {r : Range ℕ} : i ∈ r.toList ↔ r.start ≤ i ∧ i < r.stop := by
  simp only [toList, List.mem_range'_1, len]
  omega

@[simp] lemma length_toList (r : Range ℕ) : r.toList.length = r.len := List.length_range'

lemma nodup_toList (r : Range ℕ) : r.toList.Nodup := List.nodup_range'

end Range

end Asterinas
