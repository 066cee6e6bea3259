import Asterinas.Framework.Exec
import Asterinas.Mlsdisk.Aead
import Asterinas.Mlsdisk.Error

/-!
# Snapshot blobs

`1-crypto/crypto_blob.rs` and the `SnapshotManager` of `2-edit/journal.rs`: an area of the disk that
holds one encrypted payload, and the two such areas of a journal that are written in turn.

The IV of an encryption is the version of the blob.  The disk records every encryption, so that a
reuse of an IV can be stated.  A write of blocks is either done or cut off by a crash, which leaves
any contents; a crash is an error that nothing handles.
-/

namespace Asterinas.Mlsdisk

open Framework Exec

/-- `Header` of a blob. -/
structure BlobHeader (M : Type) where
  version : ℕ
  mac : M
  payloadLen : ℕ

/-- The blocks of a blob: the header and the bytes after it. -/
structure BlobArea (M : Type) where
  header : BlobHeader M
  data : List UInt8

/-- An encryption that has been made. -/
structure Encryption (K : Type) where
  key : K
  iv : ℕ
  payload : List UInt8

/-- The two areas of a journal, the number of blocks of each, and the encryptions so far. -/
structure BlobDisk (K M : Type) where
  nblocks : ℕ
  area : Fin 2 → BlobArea M
  used : List (Encryption K)

/-- What becomes of a write of blocks. -/
inductive BlockWrite (M : Type)
  | done
  | crash (left : BlobArea M)

/-- Why a call does not return a value. -/
inductive BlobStop
  | error (e : Error)
  | crash
  deriving DecidableEq

variable {K M : Type}

/-- Programs on the areas. -/
abbrev BlobProg (K M α : Type) := Exec BlobStop (BlobDisk K M) α

/-- `CryptoBlob`: one of the two areas with its key, and its header once it is known. -/
structure CryptoBlob (K M : Type) where
  blockSet : Fin 2
  key : K
  header : Option (BlobHeader M)

namespace CryptoBlob

/-- `CryptoBlob::HEADER_NBYTES`: the version, the MAC and the length of the payload. -/
def headerNbytes : ℕ := 32

/-- `CryptoBlob::capacity`: what is left of the area beside the header. -/
def capacity (disk : BlobDisk K M) : ℕ := disk.nblocks * 4096 - headerNbytes

/-- An error of a call. -/
def fail {α : Type} (errno : Errno) (msg : String) : BlobProg K M α :=
  throw (.error ⟨errno, msg⟩)

/-- `CryptoBlob::open`. -/
def openAt (blockSet : Fin 2) (key : K) : CryptoBlob K M := ⟨blockSet, key, none⟩

/-- The write of the header and of the encrypted payload.  The bytes after them stay. -/
def writeBlocks (io : BlockWrite M) (blockSet : Fin 2) (header : BlobHeader M)
    (output : List UInt8) : BlobProg K M Unit := do
  let disk ← get
  match io with
  | .done => do
    let data := output ++ (disk.area blockSet).data.drop output.length
    modify fun disk => { disk with area := Function.update disk.area blockSet ⟨header, data⟩ }
  | .crash left => do
    modify fun disk => { disk with area := Function.update disk.area blockSet left }
    throw .crash

variable (aead : Aead K M)

/-- Encrypt the payload with the version as the IV, and write it under this version. -/
def encryptAndWrite (io : BlockWrite M) (blob : CryptoBlob K M) (version : ℕ)
    (payload : List UInt8) : BlobProg K M (CryptoBlob K M) := do
  let (output, mac) := aead.encrypt payload blob.key version none
  modify fun disk => { disk with used := ⟨blob.key, version, payload⟩ :: disk.used }
  let header : BlobHeader M := ⟨version, mac, payload.length⟩
  writeBlocks io blob.blockSet header output
  return { blob with header := some header }

/-- `CryptoBlob::create`, with the random key. -/
def create (io : BlockWrite M) (blockSet : Fin 2) (key : K) (initData : List UInt8) :
    BlobProg K M (CryptoBlob K M) := do
  let disk ← get
  if capacity disk < initData.length then
    fail .outOfDisk "init_data is too large"
  else encryptAndWrite aead io ⟨blockSet, key, none⟩ 0 initData

/-- `CryptoBlob::write`: the payload is encrypted under the next version and written with its
header. -/
def write (io : BlockWrite M) (blob : CryptoBlob K M) (buf : List UInt8) :
    BlobProg K M (CryptoBlob K M) := do
  let disk ← get
  if capacity disk < buf.length then
    fail .outOfDisk "write data is too large"
  else match blob.header with
    | none => fail .notFound "write with no valid version ID"
    | some header => encryptAndWrite aead io blob ((header.version + 1) % 2 ^ 64) buf

/-- `CryptoBlob::read` into a buffer of the given length. -/
def read (blob : CryptoBlob K M) (bufLen : ℕ) : BlobProg K M (CryptoBlob K M × List UInt8) := do
  let disk ← get
  let area := disk.area blob.blockSet
  let header := blob.header.getD area.header
  if capacity disk < header.payloadLen then
    fail .outOfDisk "payload_len is greater than the capacity"
  else if bufLen < header.payloadLen then
    fail .outOfDisk "read_buf is too small"
  else
    match aead.decrypt (area.data.take header.payloadLen) blob.key header.version none header.mac
      with
    | none => fail .decryptFailed "aes-128-gcm decryption failed"
    | some payload => return ({ blob with header := some header }, payload)

/-- `CryptoBlob::recover_from`: an area that could not be opened gets the payload and version of the
other. -/
def recoverFrom (io : BlockWrite M) (blob other : CryptoBlob K M) :
    BlobProg K M (CryptoBlob K M) := do
  if blob.header.isSome then
    fail .invalidArgs "no need to recover"
  else do
    let disk ← get
    let (other, payload) ← other.read aead (disk.nblocks * 4096)
    match other.header with
    | none => panic
    | some header => encryptAndWrite aead io blob header.version payload

end CryptoBlob

/-! ### The two snapshots of a journal -/

/-- `SnapshotManager`, where `S` are the snapshots. -/
structure SnapshotManager (K M S : Type) where
  blobs : Fin 2 → CryptoBlob K M
  latestIndex : Fin 2
  snapshot : S

namespace SnapshotManager

open CryptoBlob (fail)

variable {S : Type} (aead : Aead K M) (codec : Codec S)

/-- `postcard::to_slice` into a buffer as large as a blob. -/
def serialize (snapshot : S) (msg : String) : BlobProg K M (List UInt8) := do
  let disk ← get
  let bytes := codec.toBytes snapshot
  if disk.nblocks * 4096 < bytes.length then fail .outOfDisk msg else return bytes

/-- The manager of two blobs. -/
def ofBlobs (blob0 blob1 : CryptoBlob K M) (latestIndex : Fin 2) (snapshot : S) :
    SnapshotManager K M S :=
  ⟨fun i => if i = 0 then blob0 else blob1, latestIndex, snapshot⟩

/-- `SnapshotManager::create`, with the random keys of the two blobs. -/
def create (io : Fin 2 → BlockWrite M) (keys : Fin 2 → K) (init : S) :
    BlobProg K M (SnapshotManager K M S) := do
  let bytes ← serialize codec init "serialize snapshot failed"
  let blob0 ← CryptoBlob.create aead (io 0) 0 (keys 0) bytes
  let blob1 ← CryptoBlob.create aead (io 1) 1 (keys 1) bytes
  return ofBlobs blob0 blob1 0 init

/-- Read and deserialize one of the snapshots; any error is the same here. -/
def readSnapshot (blob : CryptoBlob K M) : BlobProg K M (CryptoBlob K M × Option S) := do
  let disk ← get
  match ← attempt (blob.read aead (disk.nblocks * 4096)) with
  | .ok (blob, payload) => return (blob, codec.fromBytes payload)
  | .error _ => return (blob, none)

/-- The end of `SnapshotManager::recover`: the versions tell which snapshot is the latest. -/
def latest (blob0 blob1 : CryptoBlob K M) (snapshot0 snapshot1 : S) :
    BlobProg K M (SnapshotManager K M S) :=
  match blob0.header, blob1.header with
  | some header0, some header1 =>
    if header0.version = header1.version then return ofBlobs blob0 blob1 0 snapshot0
    else if header0.version + 1 = header1.version then return ofBlobs blob0 blob1 1 snapshot1
    else fail .invalidArgs "invalid latest snapshot index or version id"
  | _, _ => panic

/-- `SnapshotManager::recover`, with the keys of the journal's metadata. -/
def recover (io : BlockWrite M) (keys : Fin 2 → K) : BlobProg K M (SnapshotManager K M S) := do
  let (blob0, snapshot0) ← readSnapshot aead codec (.openAt 0 (keys 0))
  let (blob1, snapshot1) ← readSnapshot aead codec (.openAt 1 (keys 1))
  match snapshot0, snapshot1 with
  | some snapshot0, none => do
    let blob1 ← blob1.recoverFrom aead io blob0
    latest blob0 blob1 snapshot0 snapshot0
  | none, some snapshot1 => do
    let blob0 ← blob0.recoverFrom aead io blob1
    latest blob0 blob1 snapshot1 snapshot1
  | some snapshot0, some snapshot1 => latest blob0 blob1 snapshot0 snapshot1
  | none, none => fail .notFound "both snapshots are unable to read, recover failed"

/-- `SnapshotManager::persist`: the snapshot is written to the area that is not the latest. -/
def persist (io : BlockWrite M) (manager : SnapshotManager K M S) (snapshot : S) :
    BlobProg K M (SnapshotManager K M S) := do
  let bytes ← serialize codec snapshot "serialize current state failed"
  let index := manager.latestIndex + 1
  let blob ← (manager.blobs index).write aead io bytes
  return ⟨Function.update manager.blobs index blob, index, snapshot⟩

end SnapshotManager

end Asterinas.Mlsdisk
