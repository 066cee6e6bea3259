import Mathlib.Tactic

/-!
# The errors of the crate

`error.rs`.
-/

namespace Asterinas.Mlsdisk

/-- The errors that the modelled calls return. -/
inductive Errno
  | notFound
  | txAborted
  | invalidArgs
  | outOfDisk
  | outOfMemory
  | permissionDenied
  | decryptFailed
  deriving DecidableEq

/-- `Error::with_msg`. -/
structure Error where
  errno : Errno
  msg : String
  deriving DecidableEq

end Asterinas.Mlsdisk
