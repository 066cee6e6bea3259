import Mathlib.Tactic

/-!
# Encryption and serialization

What the layers above assume of `util/crypto.rs` and of the serialization of their data.
-/

namespace Asterinas.Mlsdisk

/-- Authenticated encryption (`util/crypto.rs`), with IVs as numbers and a MAC or nothing as the
additional data. -/
structure Aead (K M : Type) where
  encrypt : List UInt8 → K → ℕ → Option M → List UInt8 × M
  decrypt : List UInt8 → K → ℕ → Option M → M → Option (List UInt8)
  length_encrypt : ∀ payload key iv aad, (encrypt payload key iv aad).1.length = payload.length
  decrypt_encrypt : ∀ payload key iv aad,
    decrypt (encrypt payload key iv aad).1 key iv aad (encrypt payload key iv aad).2 = some payload

/-- How data are serialized (`postcard`). -/
structure Codec (S : Type) where
  toBytes : S → List UInt8
  fromBytes : List UInt8 → Option S

end Asterinas.Mlsdisk
