import Asterinas.Mlsdisk.CryptoBlob

/-!
# The IVs of the snapshot blobs

As long as every write of a snapshot reaches the disk, the versions of a blob only grow, and a
recovery finds both blobs intact and encrypts nothing.  A write that a crash cuts off has used a
version that the disk does not show: the next write under the same key uses it again.
-/

namespace Asterinas.Mlsdisk

open Framework Function SnapshotManager List Option

/-- No key is used with one IV for two payloads. -/
def NonceSafe {K : Type} (used : List (Encryption K)) : Prop :=
  ∀ e ∈ used, ∀ e' ∈ used, e.key = e'.key → e.iv = e'.iv → e.payload = e'.payload

/-- The disk, and the manager in memory if there is one. -/
structure SnapshotRun (K M S : Type) where
  disk : BlobDisk K M
  manager : Option (SnapshotManager K M S)

/-- A snapshot is persisted, or the journal is opened again. -/
inductive SnapshotEvent (M S : Type)
  | persist (snapshot : S) (io : BlockWrite M)
  | recover (io : BlockWrite M)

namespace SnapshotRun

variable {K M S : Type} (aead : Aead K M) (codec : Codec S) (keys : Fin 2 → K)

/-- The manager after a call: a crash takes it away, another error leaves the old one. -/
def after (old : Option (SnapshotManager K M S)) :
    Outcome BlobStop (BlobDisk K M) (SnapshotManager K M S) → Option (SnapshotRun K M S)
  | .ok manager disk => some ⟨disk, some manager⟩
  | .err (.error _) disk => some ⟨disk, old⟩
  | .err .crash disk => some ⟨disk, none⟩
  | .panic => none

/-- What an event leads to; `none` is a panic. -/
def step (s : SnapshotRun K M S) : SnapshotEvent M S → Option (SnapshotRun K M S)
  | .persist snapshot io =>
    match s.manager with
    | none => some s
    | some manager => after (some manager) (manager.persist aead codec io snapshot s.disk)
  | .recover io => after none (recover aead codec io keys s.disk)

/-- The blocks of a blob hold this payload. -/
structure Holds (key : K) (capacity : ℕ) (area : BlobArea M) (payload : List UInt8) : Prop where
  header : area.header =
    ⟨area.header.version, (aead.encrypt payload key area.header.version none).2, payload.length⟩
  data : area.data.take payload.length = (aead.encrypt payload key area.header.version none).1
  fits : payload.length ≤ capacity

/-- Both blobs are intact, their versions are the largest ones that have been used with their keys,
and the manager knows them. -/
structure Inv (s : SnapshotRun K M S) : Prop where
  holds : ∀ i, ∃ payload, Holds aead (keys i) (CryptoBlob.capacity s.disk) (s.disk.area i) payload
  used_le : ∀ e ∈ s.disk.used, ∀ i, e.key = keys i → e.iv ≤ (s.disk.area i).header.version
  safe : NonceSafe s.disk.used
  manager : ∀ m ∈ s.manager, ∀ i, m.blobs i = ⟨i, keys i, some (s.disk.area i).header⟩

variable {aead codec keys} {s : SnapshotRun K M S} {disk : BlobDisk K M}

/-! ### A write -/

/-- The disk after a payload has been written under a version. -/
def written (aead : Aead K M) (disk : BlobDisk K M) (i : Fin 2) (key : K) (version : ℕ)
    (payload : List UInt8) : BlobDisk K M :=
  let output := (aead.encrypt payload key version none).1
  { disk with
    area := update disk.area i
      ⟨⟨version, (aead.encrypt payload key version none).2, payload.length⟩,
        output ++ (disk.area i).data.drop output.length⟩
    used := ⟨key, version, payload⟩ :: disk.used }

lemma encryptAndWrite_done (blob : CryptoBlob K M) (version : ℕ) (payload : List UInt8) :
    blob.encryptAndWrite aead .done version payload disk =
      .ok ⟨blob.blockSet, blob.key,
        some ((written aead disk blob.blockSet blob.key version payload).area blob.blockSet).header⟩
        (written aead disk blob.blockSet blob.key version payload) := by
  simp only [written, update_self]
  rfl

lemma holds_written {payload : List UInt8} (i : Fin 2) (key : K) (version : ℕ) {capacity : ℕ}
    (hfits : payload.length ≤ capacity) :
    Holds aead key capacity ((written aead disk i key version payload).area i) payload := by
  simp only [written, update_self]
  refine ⟨rfl, ?_, hfits⟩
  rw [← aead.length_encrypt payload key version none, take_left]

lemma NonceSafe.cons {used : List (Encryption K)} (h : NonceSafe used) {e : Encryption K}
    (hfresh : ∀ e' ∈ used, e'.key = e.key → e'.iv ≠ e.iv) : NonceSafe (e :: used) := by
  intro e₁ h1 e₂ h2 hkey hiv
  rcases mem_cons.mp h1 with heq1 | hmem1 <;> rcases mem_cons.mp h2 with heq2 | hmem2
  · rw [heq1, heq2]
  · subst heq1
    exact absurd hiv.symm (hfresh e₂ hmem2 hkey.symm)
  · subst heq2
    exact absurd hiv (hfresh e₁ hmem1 hkey)
  · exact h e₁ hmem1 e₂ hmem2 hkey hiv

/-- A write under a larger version keeps the invariant. -/
lemma Inv.written {version : ℕ} (h : Inv aead keys s) (hkeys : Injective keys) (i : Fin 2)
    (hversion : (s.disk.area i).header.version < version) {payload : List UInt8}
    (hfits : payload.length ≤ CryptoBlob.capacity s.disk)
    {manager : Option (SnapshotManager K M S)}
    (hmanager : ∀ m ∈ manager, ∀ j, m.blobs j = ⟨j, keys j,
      some ((SnapshotRun.written aead s.disk i (keys i) version payload).area j).header⟩) :
    Inv aead keys ⟨SnapshotRun.written aead s.disk i (keys i) version payload, manager⟩ := by
  have hother : ∀ j, j ≠ i →
      (SnapshotRun.written aead s.disk i (keys i) version payload).area j = s.disk.area j :=
    fun j hj => update_of_ne hj _ _
  have hself :
    ((SnapshotRun.written aead s.disk i (keys i) version payload).area i).header.version =
      version := by
    simp only [SnapshotRun.written, update_self]
  refine ⟨fun j => ?_, fun e he j hj => ?_, ?_, hmanager⟩
  · by_cases hj : j = i
    · subst hj
      exact ⟨payload, holds_written j (keys j) version hfits⟩
    · obtain ⟨old, hold⟩ := h.holds j
      refine ⟨old, ?_⟩
      rw [hother j hj]
      exact hold
  · by_cases hji : j = i
    · subst hji
      rw [hself]
      rcases mem_cons.mp he with rfl | he
      · exact le_refl _
      · exact ((h.used_le e he j hj).trans_lt hversion).le
    · rw [hother j hji]
      rcases mem_cons.mp he with rfl | he
      · exact absurd (hkeys hj).symm hji
      · exact h.used_le e he j hj
  · refine NonceSafe.cons h.safe fun e he hkey => ?_
    exact ((h.used_le e he i hkey).trans_lt hversion).ne

open Exec

/-- What a call guarantees when its errors leave the old manager. -/
lemma exists_after {m : Exec BlobStop (BlobDisk K M) (SnapshotManager K M S)}
    {old : Option (SnapshotManager K M S)}
    (h : twp m (fun manager disk => Inv aead keys ⟨disk, some manager⟩)
      (fun e disk => Inv aead keys ⟨disk, if e = .crash then none else old⟩) disk) :
    ∃ s', after old (m disk) = some s' ∧ Inv aead keys s' := by
  rcases h.returns with ⟨manager, disk', hrun, hinv⟩ | ⟨e, disk', hrun, hinv⟩
  · rw [hrun]
    exact ⟨_, rfl, hinv⟩
  · rw [hrun]
    cases e with
    | error e | crash => exact ⟨_, rfl, hinv⟩

lemma Inv.persist (h : Inv aead keys s) (hkeys : Injective keys)
    {manager : SnapshotManager K M S} (hmanager : s.manager = some manager)
    (hversion : ∀ i, (s.disk.area i).header.version + 1 < 2 ^ 64) (snapshot : S) :
    twp (manager.persist aead codec .done snapshot)
      (fun manager disk => Inv aead keys ⟨disk, some manager⟩)
      (fun e disk => Inv aead keys ⟨disk, if e = .crash then none else some manager⟩) s.disk := by
  have hblobs := h.manager manager hmanager
  have hsame : Inv aead keys ⟨s.disk, some manager⟩ := by
    rw [← hmanager]
    exact h
  simp only [SnapshotManager.persist, serialize, twp_bind, twp_get]
  split
  · exact hsame
  · simp only [twp_pure, CryptoBlob.write, twp_bind, twp_get]
    split
    · exact hsame
    · next hfits =>
      rw [hblobs]
      dsimp only
      rw [Nat.mod_eq_of_lt (hversion _)]
      refine twp_of_eq (encryptAndWrite_done _ _ _) ?_
      refine h.written hkeys _ (lt_add_one _) (not_lt.mp hfits) fun m hm j => ?_
      cases hm
      by_cases hj : j = manager.latestIndex + 1
      · subst hj
        simp only [update_self]
      · simp only [update_of_ne hj, SnapshotRun.written]
        exact hblobs j

/-! ### A recovery -/

/-- An intact blob is read. -/
lemma Inv.read (h : Inv aead keys s) (i : Fin 2) :
    yields ((CryptoBlob.openAt i (keys i)).read aead (s.disk.nblocks * 4096))
      (fun r disk => r.1 = ⟨i, keys i, some (s.disk.area i).header⟩ ∧ disk = s.disk) s.disk := by
  obtain ⟨payload, hheader, hdata, hfits⟩ := h.holds i
  have hlen : (s.disk.area i).header.payloadLen = payload.length := by rw [hheader]
  have hmac : (s.disk.area i).header.mac =
      (aead.encrypt payload (keys i) (s.disk.area i).header.version none).2 := by
    conv_lhs => rw [hheader]
  have hcap : ¬ CryptoBlob.capacity s.disk < (s.disk.area i).header.payloadLen := by
    rw [hlen]
    exact not_lt.mpr hfits
  have hsmall : ¬ s.disk.nblocks * 4096 < (s.disk.area i).header.payloadLen := by
    rw [hlen]
    exact not_lt.mpr (hfits.trans (Nat.sub_le _ _))
  have hdecrypt : aead.decrypt ((s.disk.area i).data.take (s.disk.area i).header.payloadLen)
    (keys i)
      (s.disk.area i).header.version none (s.disk.area i).header.mac = some payload := by
    rw [hlen, hdata, hmac]
    exact aead.decrypt_encrypt _ _ _ _
  simp only [CryptoBlob.read, CryptoBlob.openAt, twp_bind, twp_get, getD_none, if_neg hcap,
    if_neg hsmall, hdecrypt]
  exact ⟨rfl, rfl⟩

lemma Inv.readSnapshot (h : Inv aead keys s) (i : Fin 2) :
    yields (readSnapshot aead codec (CryptoBlob.openAt i (keys i)))
      (fun r disk => r.1 = ⟨i, keys i, some (s.disk.area i).header⟩ ∧ disk = s.disk) s.disk := by
  simp only [SnapshotManager.readSnapshot, twp_bind, twp_get, twp_attempt]
  exact (h.read i).mono (fun _ _ hr => hr) fun _ _ hfalse => hfalse.elim

/-- The manager of two intact blobs. -/
lemma twp_latest (snapshot0 snapshot1 : S) :
    twp (latest ⟨0, keys 0, some (disk.area 0).header⟩
        ⟨1, keys 1, some (disk.area 1).header⟩ snapshot0 snapshot1)
      (fun manager disk' => disk' = disk ∧
        ∀ i, manager.blobs i = ⟨i, keys i, some (disk.area i).header⟩)
      (fun _ disk' => disk' = disk) disk := by
  have hblobs : ∀ (latestIndex : Fin 2) (snapshot : S) i,
      (ofBlobs ⟨0, keys 0, some (disk.area 0).header⟩
        ⟨1, keys 1, some (disk.area 1).header⟩ latestIndex snapshot).blobs i =
      ⟨i, keys i, some (disk.area i).header⟩ := by
    intro latestIndex snapshot i
    fin_cases i
    · rfl
    · rfl
  unfold latest
  dsimp only
  split
  · exact ⟨rfl, hblobs 0 snapshot0⟩
  · split
    · exact ⟨rfl, hblobs 1 snapshot1⟩
    · exact rfl

/-- Two intact blobs are not written. -/
lemma Inv.recover (h : Inv aead keys s) (io : BlockWrite M) :
    twp (recover aead codec io keys)
      (fun manager disk => disk = s.disk ∧
        ∀ i, manager.blobs i = ⟨i, keys i, some (s.disk.area i).header⟩)
      (fun _ disk => disk = s.disk) s.disk := by
  simp only [SnapshotManager.recover, twp_bind]
  refine (h.readSnapshot 0).mono ?_ fun _ _ hfalse => hfalse.elim
  rintro ⟨blob0, snapshot0⟩ disk0 ⟨hblob0, hdisk0⟩
  obtain rfl : blob0 = _ := hblob0
  rw [hdisk0]
  refine (h.readSnapshot 1).mono ?_ fun _ _ hfalse => hfalse.elim
  rintro ⟨blob1, snapshot1⟩ disk1 ⟨hblob1, hdisk1⟩
  obtain rfl : blob1 = _ := hblob1
  rw [hdisk1]
  cases snapshot0 with
  | none =>
    cases snapshot1 with
    | none | some snapshot1 => exact rfl
  | some snapshot0 =>
    cases snapshot1 with
    | none => exact rfl
    | some snapshot1 => exact twp_latest snapshot0 snapshot1

/-! ### Runs -/

/-- A snapshot is persisted by a write that reaches the disk, and versions do not wrap around. -/
def Completed (s : SnapshotRun K M S) : SnapshotEvent M S → Prop
  | .persist _ io => io = .done ∧ ∀ i, (s.disk.area i).header.version + 1 < 2 ^ 64
  | .recover _ => True

lemma Inv.step (h : Inv aead keys s) (hkeys : Injective keys)
    {event : SnapshotEvent M S} (hevent : s.Completed event) :
    ∃ s', s.step aead codec keys event = some s' ∧ Inv aead keys s' := by
  cases event with
  | persist snapshot io =>
    obtain ⟨rfl, hversion⟩ := hevent
    cases hmanager : s.manager with
    | none =>
      refine ⟨s, ?_, h⟩
      simp only [SnapshotRun.step, hmanager]
    | some manager =>
      obtain ⟨s', hs', hinv⟩ := exists_after (h.persist hkeys hmanager hversion snapshot)
      refine ⟨s', ?_, hinv⟩
      simp only [SnapshotRun.step, hmanager]
      exact hs'
  | recover io =>
    refine exists_after ((h.recover io).mono (fun manager disk ⟨hdisk, hblobs⟩ => ?_)
      fun _ disk hdisk => ?_)
    · subst hdisk
      exact { h with manager := fun m hm => some.inj hm ▸ hblobs }
    · subst hdisk
      rw [ite_self]
      exact { h with manager := fun m hm => (not_mem_none m hm).elim }

/-- The journal is created on a disk and used; every snapshot reaches the disk. -/
inductive Reached (aead : Aead K M) (codec : Codec S) (keys : Fin 2 → K) :
    SnapshotRun K M S → Prop
  | create {disk disk' : BlobDisk K M} {manager : SnapshotManager K M S} (init : S) :
      disk.used = [] →
      create aead codec (fun _ => .done) keys init disk = .ok manager disk' →
      Reached aead codec keys ⟨disk', some manager⟩
  | step {s s' : SnapshotRun K M S} (event : SnapshotEvent M S) : Reached aead codec keys s →
      s.Completed event → s.step aead codec keys event = some s' → Reached aead codec keys s'

lemma written_area_of_ne {j i : Fin 2} (hj : j ≠ i) (key : K) (version : ℕ)
    (payload : List UInt8) : (written aead disk i key version payload).area j = disk.area j :=
  update_of_ne hj _ _

lemma inv_create (hkeys : Injective keys) (hused : disk.used = []) (init : S) :
    wp (create aead codec (fun _ => .done) keys init)
      (fun manager disk' => Inv aead keys ⟨disk', some manager⟩) (fun _ _ => True) disk := by
  have hcreate : ∀ (disk : BlobDisk K M) i bytes, wp (CryptoBlob.create aead .done i (keys i) bytes)
      (fun blob disk' => bytes.length ≤ CryptoBlob.capacity disk ∧
        disk' = written aead disk i (keys i) 0 bytes ∧
        blob = ⟨i, keys i, some ((written aead disk i (keys i) 0 bytes).area i).header⟩)
      (fun _ _ => True) disk := by
    intro disk i bytes
    simp only [CryptoBlob.create, wp_bind, wp_get]
    split
    · trivial
    · next hfits =>
      unfold wp
      rw [encryptAndWrite_done]
      exact ⟨not_lt.mp hfits, rfl, rfl⟩
  simp only [create, serialize, wp_bind, wp_get]
  split
  · trivial
  · simp only [wp_pure]
    refine (hcreate disk 0 _).imp ?_
    rintro blob0 disk0 ⟨hfits, hdisk0, hblob0⟩
    refine (hcreate disk0 1 _).imp ?_
    rintro blob1 disk1 ⟨_, hdisk1, hblob1⟩
    subst hdisk0 hdisk1 hblob0 hblob1
    generalize codec.toBytes init = bytes at hfits
    have hne : keys 0 ≠ keys 1 := fun heq => absurd (hkeys heq) (by decide)
    have harea : (written aead (written aead disk 0 (keys 0) 0 bytes) 1 (keys 1) 0 bytes).area 0 =
        (written aead disk 0 (keys 0) 0 bytes).area 0 := written_area_of_ne (by decide) _ _ _
    refine ⟨fun i => ⟨bytes, ?_⟩, fun e he i _ => ?_, ?_, fun m hm i => ?_⟩
    · fin_cases i
      · exact harea ▸ holds_written 0 (keys 0) 0 hfits
      · exact holds_written 1 (keys 1) 0 hfits
    · simp only [written, hused, mem_cons, not_mem_nil, or_false] at he
      rcases he with rfl | rfl <;> exact zero_le
    · refine NonceSafe.cons (NonceSafe.cons ?_ ?_) ?_
      iterate 2
        rw [hused]
        exact fun e he => (not_mem_nil he).elim
      · intro e he hkey
        simp only [hused, mem_singleton] at he
        subst he
        exact absurd hkey hne
    · cases hm
      fin_cases i
      · change _ = (⟨0, keys 0, some ((written aead (written aead disk 0 (keys 0) 0 bytes) 1
          (keys 1) 0 bytes).area 0).header⟩ : CryptoBlob K M)
        rw [harea]
        rfl
      · rfl

lemma Reached.inv (hkeys : Injective keys) (h : Reached aead codec keys s) :
    Inv aead keys s := by
  induction h with
  | create init hused hcreate => exact (inv_create hkeys hused init).of_ok hcreate
  | step event _ hevent hstep ih =>
    obtain ⟨s₁, hs1, hinv⟩ := ih.step hkeys hevent
    obtain rfl := some.inj (hs1.symm.trans hstep)
    exact hinv

/-- As long as every snapshot reaches the disk, no key is used twice with one IV. -/
theorem snapshot_nonces_safe (hkeys : Injective keys) (h : Reached aead codec keys s) :
    NonceSafe s.disk.used :=
  (h.inv hkeys).safe

/-- An encryption that leaves the payload as it is, with a tag that names all inputs. -/
def taggedAead : Aead (Fin 2) (List UInt8 × Fin 2 × ℕ) where
  encrypt payload key iv _ := (payload, payload, key, iv)
  decrypt bytes key iv _ mac := if mac = (bytes, key, iv) then some bytes else none
  length_encrypt _ _ _ _ := rfl
  decrypt_encrypt _ _ _ _ := if_pos rfl

/-- Snapshots of one byte. -/
def byteCodec : Codec UInt8 := ⟨fun b => [b], List.head?⟩

/-- Blocks without contents. -/
def blankArea : BlobArea (List UInt8 × Fin 2 × ℕ) := ⟨⟨0, ([], ⟨0, two_pos⟩, 0), 1⟩, [0]⟩

lemma completed_of_le {s : SnapshotRun K M S} (h : ∀ i, (s.disk.area i).header.version ≤ 1)
    (snapshot : S) : s.Completed (.persist snapshot .done) :=
  ⟨rfl, fun i => lt_of_le_of_lt (Nat.succ_le_succ (h i)) (by decide)⟩

/-- Two snapshots are persisted, with a recovery between them. -/
theorem snapshot_nonces_safe_after_recovery : ∃ s₀ s₁ s₂ s₃ : SnapshotRun (Fin 2) _ UInt8,
    Reached taggedAead byteCodec id s₀ ∧
    s₀.step taggedAead byteCodec id (.persist 6 .done) = some s₁ ∧
    s₁.step taggedAead byteCodec id (.recover .done) = some s₂ ∧
    s₂.step taggedAead byteCodec id (.persist 7 .done) = some s₃ ∧
    s₃.disk.used = [⟨0, 1, [7]⟩, ⟨1, 1, [6]⟩, ⟨1, 0, [5]⟩, ⟨0, 0, [5]⟩] ∧
        NonceSafe s₃.disk.used := by
  obtain ⟨s₀, s₁, s₂, s₃, hs₀, hs₁, hs₂, hs₃, hused, hversion₀, hversion₂⟩ :
      ∃ s₀ s₁ s₂ s₃ : SnapshotRun (Fin 2) _ UInt8, Reached taggedAead byteCodec id s₀ ∧
        s₀.step taggedAead byteCodec id (.persist 6 .done) = some s₁ ∧
        s₁.step taggedAead byteCodec id (.recover .done) = some s₂ ∧
        s₂.step taggedAead byteCodec id (.persist 7 .done) = some s₃ ∧
        s₃.disk.used = [⟨0, 1, [7]⟩, ⟨1, 1, [6]⟩, ⟨1, 0, [5]⟩, ⟨0, 0, [5]⟩] ∧
        (∀ i, (s₀.disk.area i).header.version ≤ 1) ∧ ∀ i, (s₂.disk.area i).header.version ≤ 1 := by
    let disk : BlobDisk (Fin 2) (List UInt8 × Fin 2 × ℕ) := ⟨1, fun _ => blankArea, []⟩
    have hdisk : disk.used = [] := rfl
    exact ⟨_, _, _, _, .create 5 hdisk rfl, rfl, rfl, rfl, rfl, by decide, by decide⟩
  have hreached : Reached taggedAead byteCodec id s₃ :=
    .step _ (.step (.recover .done) (.step _ hs₀ (completed_of_le hversion₀ 6) hs₁) trivial hs₂)
      (completed_of_le hversion₂ 7) hs₃
  exact ⟨s₀, s₁, s₂, s₃, hs₀, hs₁, hs₂, hs₃, hused, snapshot_nonces_safe injective_id hreached⟩

/-- The second snapshot is cut off by a crash; after the recovery the next one is encrypted with the
same key and the same IV. -/
theorem snapshot_nonce_reused : ∃ manager disk s₁ s₂ s₃,
    create taggedAead byteCodec (fun _ => .done) id 5 ⟨1, fun _ => blankArea, []⟩ =
      .ok manager disk ∧
    step taggedAead byteCodec id ⟨disk, some manager⟩ (.persist 6 (.crash blankArea)) = some s₁ ∧
    s₁.step taggedAead byteCodec id (.recover .done) = some s₂ ∧
    s₂.step taggedAead byteCodec id (.persist 7 .done) = some s₃ ∧
    s₃.disk.used = [⟨1, 1, [7]⟩, ⟨1, 0, [5]⟩, ⟨1, 1, [6]⟩, ⟨1, 0, [5]⟩, ⟨0, 0, [5]⟩] ∧
    ¬ NonceSafe s₃.disk.used := by
  refine ⟨_, _, _, _, _, rfl, rfl, rfl, rfl, rfl, fun hsafe => ?_⟩
  have heq := hsafe ⟨1, 1, [7]⟩ (.head _) ⟨1, 1, [6]⟩ (.tail _ (.tail _ (.head _))) rfl rfl
  exact absurd heq (by decide)

end SnapshotRun

end Asterinas.Mlsdisk
