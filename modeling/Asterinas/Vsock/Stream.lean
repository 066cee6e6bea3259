import Asterinas.Vsock.Connection

/-!
# The bytes of a vsock connection

`try_recv` and `try_send` of `net/socket/vsock/transport/connection`.  Each takes the lock of the
connection twice and copies from or to user space in between, when the lock is free; what is carried
from the first section to the second is the `Call` of the connection.

User memory is the room for bytes, or the bytes, and the number of bytes that can be copied before a
page fault, if there is one.
-/

namespace Asterinas.Vsock

/-- The slots of a packet pool. -/
def packetPoolSlots : ℕ := 8

/-- `TxPacketBuilder::MAX_NBYTES`: a buffer without its header. -/
def maxNbytes : ℕ := 4096 - 44

/-! ### Receiving -/

/-- The loop of `pop_rx_packets`: the packets that are taken for `maxBytes` bytes, and those that
are left.  The first packet is read from `offset`. -/
def takePackets : ℕ → ℕ → ℕ → List (List UInt8) → List (List UInt8) × List (List UInt8)
  | 0, _, _, queue => ([], queue)
  | _ + 1, _, _, [] => ([], [])
  | slots + 1, offset, maxBytes, packet :: queue =>
    if packet.length - offset ≥ maxBytes then
      ([packet], queue)
    else
      let (taken, left) := takePackets slots 0 (maxBytes - (packet.length - offset)) queue
      (packet :: taken, left)

/-- `MultiWrite::write`: as many bytes are written as there are and as there is room for, unless a
page fault comes first. -/
def writeUser (room : ℕ) (fault : Option ℕ) (payload : List UInt8) : Except Error (List UInt8) :=
  let written := payload.take room
  if fault.any (· < written.length) then .error (.new .efault) else .ok written

/-- The loop of `PoppedRxPackets::copy_to_userspace`: what is written, and the packets that are not
read to their end. -/
def copyPackets : List (List UInt8) → ℕ → ℕ → Option ℕ →
    Except Error (List UInt8 × PoppedRxPackets)
  | [], _, _, _ => .ok ([], ⟨[], 0⟩)
  | packet :: packets, offset, room, fault => do
    let payload := packet.drop offset
    let written ← writeUser room fault payload
    if written.length < payload.length then
      return (written, ⟨packet :: packets, offset + written.length⟩)
    else
      let (rest, left) ← copyPackets packets 0 (room - written.length)
        (fault.map fun bytes => bytes - written.length)
      return (written ++ rest, left)

/-- `PoppedRxPackets::copy_to_userspace`: the packets advance only when the bytes are consumed. -/
def PoppedRxPackets.copyToUserspace (popped : PoppedRxPackets) (room : ℕ) (fault : Option ℕ)
    (consume : Bool) : Except Error (List UInt8 × PoppedRxPackets) := do
  let (written, left) ← copyPackets popped.packets popped.readOffset room fault
  return (written, if consume then left else popped)

namespace ConnectionInner

section

variable (c : ConnectionInner)

/-- `ConnectionState::pop_rx_packets`: the packets with the next bytes, as many as one pool
takes. -/
def popRxPackets (maxBytes : ℕ) : ConnectionInner × Option PoppedRxPackets :=
  match takePackets packetPoolSlots c.rxQueue.readOffset maxBytes c.rxQueue.packets with
  | ([], _) => (c, none)
  | (packet :: taken, left) =>
    ({ c with rxQueue := { c.rxQueue with packets := left, readOffset := 0 } },
      some ⟨packet :: taken, c.rxQueue.readOffset⟩)

/-- `ConnectionState::grab_packets_to_recv`: packets, or why there are none. -/
def grabPacketsToRecv (maxBytes : ℕ) : ConnectionInner × Except Error (Option PoppedRxPackets) :=
  match if maxBytes = 0 then (c, none) else c.popRxPackets maxBytes with
  | (c, some popped) => (c, .ok (some popped))
  | (c, none) =>
    match c.testAndClearError with
    | (c, .error error) => (c, .error error)
    | (c, .ok ()) =>
      if maxBytes = 0 ∨ c.shutdown.localReadClosed ∨ c.shutdown.peerWriteClosed then
        (c, .ok none)
      else
        (c, .error (.withMessage .eagain "the receive buffer is empty"))

/-- `ConnectionState::undo_pop_rx_packets`: what was not read comes back to the front of the
queue. -/
def undoPopRxPackets (popped : PoppedRxPackets) : ConnectionInner :=
  if popped.packets = [] then
    c
  else
    { c with rxQueue := { c.rxQueue with
        packets := popped.packets ++ c.rxQueue.packets
        readOffset := popped.readOffset } }

/-- `ConnectionState::send_credit_update_header_if_needed`: the peer is told when enough was
read. -/
def sendCreditUpdateHeaderIfNeeded (mem : Bool) : ConnectionInner :=
  if c.credit.localFwdCnt - c.credit.lastReportedFwdCnt < creditUpdateThreshold then
    c
  else if c.shutdown.peerWriteClosed ∨ c.shutdown.localReadClosed then
    c
  else
    (c.sendPacket mem .creditUpdate 0).1

/-- `ConnectionState::ungrab_packets_and_finish_recv`: the bytes that were read are counted. -/
def ungrabPacketsAndFinishRecv (popped : PoppedRxPackets) (recvLen : ℕ)
    (mem : Bool) : ConnectionInner :=
  let c := c.undoPopRxPackets popped
  sendCreditUpdateHeaderIfNeeded { c with
    rxQueue := { c.rxQueue with usedBytes := c.rxQueue.usedBytes - recvLen }
    credit := { c.credit with localFwdCnt := c.credit.localFwdCnt + UInt32.ofNat recvLen } } mem

/-- `Connection::try_recv` until the lock is released for the copy.  The result is there already
when no packets are grabbed. -/
def recvBegin (room : ℕ) (consume : Bool) : ConnectionInner × Option (Except Error (List UInt8)) :=
  match c.grabPacketsToRecv room with
  | (c, .ok (some popped)) => ({ c with call := .receiving popped room consume }, none)
  | (c, .ok none) => (c, some (.ok []))
  | (c, .error error) => (c, some (.error error))

/-- `Connection::try_recv` from the copy on. -/
def recvEnd (fault : Option ℕ) (mem : Bool) : ConnectionInner × Except Error (List UInt8) :=
  match c.call with
  | .receiving popped room consume =>
    let c := { c with call := .idle }
    match popped.copyToUserspace room fault consume with
    | .ok (written, left) =>
      if consume then
        (c.ungrabPacketsAndFinishRecv left written.length mem, .ok written)
      else
        (c.undoPopRxPackets left, .ok written)
    | .error error =>
      if consume then
        (c.ungrabPacketsAndFinishRecv popped 0 mem, .error error)
      else
        (c.undoPopRxPackets popped, .error error)
  | _ => (c, .ok [])

/-! ### Sending -/

/-- `ConnectionState::peer_credit`: the room that the peer has, as far as this side knows. -/
def peerCredit : ℕ :=
  c.credit.peerBufAlloc.toNat - (c.credit.txCnt - c.credit.peerFwdCnt).toNat

/-- `ConnectionState::check_peer_credit`: the room, or else a request for credit, sent once. -/
def checkPeerCredit (mem : Bool) : ConnectionInner × Except Error ℕ :=
  if c.peerCredit ≠ 0 then
    (c, .ok c.peerCredit)
  else
    let noCredit : Except Error ℕ := .error (.withMessage .eagain "the peer has no receive credit")
    if c.credit.creditRequestPending then
      (c, noCredit)
    else
      match c.sendPacket mem .creditRequest 0 with
      | (c, true) => ({ c with credit := { c.credit with creditRequestPending := true } }, noCredit)
      | (c, false) => (c, noCredit)

end

/-- The loop of `alloc_send_buffers` over the slots of the pool: the number of bytes that the
builders hold, up to `maxBytes`.  There is memory for `builders` of them. -/
def allocBuilders : ℕ → ℕ → ℕ → ℕ → Except Error ℕ
  | 0, _, numBytes, _ => .ok numBytes
  | slots + 1, builders, numBytes, maxBytes =>
    if builders = 0 then
      .error (.new .enomem)
    else if numBytes + maxNbytes ≥ maxBytes then
      .ok maxBytes
    else
      allocBuilders slots (builders - 1) (numBytes + maxNbytes) maxBytes

/-- `Connection::alloc_send_buffers`: how many bytes can be sent now. -/
def allocSendBuffers (c : ConnectionInner) (maxBytes builders : ℕ) (mem : Bool) :
    ConnectionInner × Except Error ℕ :=
  match c.testAndClearError with
  | (c, .error error) => (c, .error error)
  | (c, .ok ()) =>
    if c.shutdown.localWriteClosed ∨ c.shutdown.peerReadClosed then
      (c, .error (.withMessage .epipe "the connection is closed for writing"))
    else if maxBytes = 0 then
      (c, .ok 0)
    else if defaultTxBufSize - c.pendingTxBytes = 0 then
      (c, .error (.withMessage .eagain "the pending queue is full"))
    else
      match c.checkPeerCredit mem with
      | (c, .error error) => (c, .error error)
      | (c, .ok creditRoom) =>
        (c, allocBuilders packetPoolSlots builders 0
          (min (min maxBytes (defaultTxBufSize - c.pendingTxBytes)) creditRoom))

/-- `Connection::try_send` until the lock is released for the copy.  The result is there already
when nothing is going to be sent. -/
def sendBegin (c : ConnectionInner) (bytes : List UInt8) (builders : ℕ) (mem : Bool) :
    ConnectionInner × Option (Except Error ℕ) :=
  match c.allocSendBuffers bytes.length builders mem with
  | (c, .error error) => (c, some (.error error))
  | (c, .ok numBytes) =>
    if numBytes = 0 then (c, some (.ok 0))
    else ({ c with call := .sending (bytes.take numBytes) }, none)

/-- `Connection::copy_to_send_buffers`: the payloads of the builders of the pool. -/
def copyToSendBuffers : ℕ → List UInt8 → List (List UInt8)
  | 0, _ => []
  | slots + 1, bytes =>
    if bytes = [] then [] else bytes.take maxNbytes :: copyToSendBuffers slots
      (bytes.drop maxNbytes)

section

variable (c : ConnectionInner)

/-- The loop of `build_and_send_tx_packets`: each packet is given to the device. -/
def transmitPackets (payloads : List (List UInt8)) : ConnectionInner :=
  payloads.foldl (fun c payload => c.transmit (c.headerOf payload.length .rw 0) payload) c

/-- `Connection::build_and_send_tx_packets`.  Of the bytes `pending` have to wait in the pending
queue of the device. -/
def buildAndSendTxPackets (payloads : List (List UInt8)) (pending : ℕ) :
    ConnectionInner × Except Error Unit :=
  if c.shutdown.localWriteClosed ∨ c.shutdown.peerReadClosed then
    (c, .error (.withMessage .epipe "the connection is closed for writing"))
  else
    let c := c.transmitPackets payloads
    ({ c with
        pendingTxBytes := c.pendingTxBytes + pending
        credit := { c.credit with
          txCnt := c.credit.txCnt + UInt32.ofNat (payloads.map List.length).sum } }, .ok ())

/-- `Connection::try_send` from the copy on. -/
def sendEnd (fault : Option ℕ) (pending : ℕ) : ConnectionInner × Except Error ℕ :=
  match c.call with
  | .sending bytes =>
    let c := { c with call := .idle }
    if fault.any (· < bytes.length) then
      (c, .error (.new .efault))
    else
      match c.buildAndSendTxPackets (copyToSendBuffers packetPoolSlots bytes) pending with
      | (c, .ok ()) => (c, .ok bytes.length)
      | (c, .error error) => (c, .error error)
  | _ => (c, .ok 0)

/-- `ReleasePendingBytes::on_pending_submit`: the bytes are on their way. -/
def onPendingSubmit (bytes : ℕ) : ConnectionInner :=
  { c with pendingTxBytes := c.pendingTxBytes - bytes }

/-- The payloads are sent. -/
def finishSend (payloads : List (List UInt8)) (pending : ℕ) : ConnectionInner :=
  let c := ({ c with call := .idle } : ConnectionInner).transmitPackets payloads
  { c with
    pendingTxBytes := c.pendingTxBytes + pending
    credit := { c.credit with
      txCnt := c.credit.txCnt + UInt32.ofNat (payloads.map List.length).sum } }

end

/-! ### What the sections of a call do -/

variable (c : ConnectionInner)

/-- A receive takes packets, or else it only clears the error. -/
lemma recvBegin_cases (room : ℕ) (consume : Bool) :
    (∃ c₁ popped, 0 < room ∧ c.popRxPackets room = (c₁, some popped) ∧
      (c.recvBegin room consume).1 = { c₁ with call := .receiving popped room consume }) ∨
    (c.recvBegin room consume).1 = c.testAndClearError.1 := by
  unfold recvBegin grabPacketsToRecv
  rcases hpop : (if room = 0 then (c, none) else c.popRxPackets room) with ⟨c₁, _ | popped⟩
  · obtain rfl : c = c₁ := by
      unfold popRxPackets at hpop
      split at hpop
      · exact (Prod.mk.inj hpop).1
      · split at hpop
        · exact (Prod.mk.inj hpop).1
        · cases hpop
    dsimp only
    rcases c.testAndClearError with ⟨c₂, _ | _⟩
    · exact .inr rfl
    · dsimp only
      split_ifs <;> exact .inr rfl
  · split at hpop
    · cases hpop
    · next hroom => exact .inl ⟨c₁, popped, pos_of_ne_zero hroom, hpop, rfl⟩

/-- Taking packets and putting them back changes the queue only. -/
lemma popRxPackets_eq {maxBytes : ℕ} {c₁ : ConnectionInner} {popped : PoppedRxPackets}
    (h : c.popRxPackets maxBytes = (c₁, some popped)) : c₁ = { c with rxQueue := c₁.rxQueue } := by
  unfold popRxPackets at h
  split at h
  · cases h
  · cases h
    rfl

lemma undoPopRxPackets_eq (popped : PoppedRxPackets) : c.undoPopRxPackets popped =
    { c with rxQueue := { (c.undoPopRxPackets popped).rxQueue with
      usedBytes := c.rxQueue.usedBytes } } := by
  unfold undoPopRxPackets
  split <;> rfl

lemma allocBuilders_le {numBytes maxBytes slots builders n : ℕ} (h : numBytes ≤ maxBytes)
    (halloc : allocBuilders slots builders numBytes maxBytes = .ok n) : n ≤ maxBytes := by
  induction slots generalizing builders numBytes with
  | zero =>
    cases halloc
    exact h
  | succ slots ih =>
    unfold allocBuilders at halloc
    split at halloc
    · cases halloc
    · split at halloc
      · exact (Except.ok.inj halloc).ge
      · exact ih (by omega) halloc

lemma checkPeerCredit_eq_ok {mem : Bool} {c₁ : ConnectionInner} {n : ℕ}
    (h : c.checkPeerCredit mem = (c₁, .ok n)) : n = c.peerCredit := by
  unfold checkPeerCredit at h
  split at h
  · cases h
    rfl
  · dsimp only at h
    split at h
    · cases h
    · split at h <;> cases h

/-- A send clears the error, may ask for credit, and prepares only bytes that fit into the
credit. -/
lemma sendBegin_cases (bytes : List UInt8) (builders : ℕ) (mem : Bool) :
    ∃ c₁, (c₁ = c.testAndClearError.1 ∨ c₁ = (c.testAndClearError.1.checkPeerCredit mem).1) ∧
      ((c.sendBegin bytes builders mem).1 = c₁ ∨ ∃ n ≤ c.testAndClearError.1.peerCredit,
        (c.sendBegin bytes builders mem).1 = { c₁ with call := .sending (bytes.take n) }) := by
  unfold sendBegin allocSendBuffers
  rcases c.testAndClearError with ⟨c₀, _ | _⟩
  · exact ⟨c₀, .inl rfl, .inl rfl⟩
  dsimp only
  split_ifs
  iterate 3 exact ⟨c₀, .inl rfl, .inl rfl⟩
  rcases hcheck : c₀.checkPeerCredit mem with ⟨c₁, _ | credit⟩
  · exact ⟨c₁, .inr rfl, .inl rfl⟩
  obtain rfl := c₀.checkPeerCredit_eq_ok hcheck
  dsimp only
  generalize halloc : allocBuilders packetPoolSlots builders 0 _ = r
  refine ⟨c₁, .inr rfl, ?_⟩
  cases r with
  | error => exact .inl rfl
  | ok n =>
    have hn := allocBuilders_le zero_le halloc
    dsimp only
    split_ifs
    · exact .inl rfl
    · exact .inr ⟨n, hn.trans (min_le_right _ _), rfl⟩

/-- The packets of a send report the forward count. -/
lemma finishSend_eq (payloads : List (List UInt8)) (pending : ℕ) :
    ∃ last, c.finishSend payloads pending = { c with
      call := .idle
      tx := c.tx ++ payloads.map fun p => ⟨c.headerOf p.length .rw 0, p⟩
      pendingTxBytes := c.pendingTxBytes + pending
      credit := { c.credit with
        lastReportedFwdCnt := last
        txCnt := c.credit.txCnt + UInt32.ofNat (payloads.map List.length).sum } } := by
  have htransmit : ∀ c : ConnectionInner, ∃ last, c.transmitPackets payloads = { c with
      tx := c.tx ++ payloads.map fun p => ⟨c.headerOf p.length .rw 0, p⟩
      credit := { c.credit with lastReportedFwdCnt := last } } := by
    unfold transmitPackets
    induction payloads with
    | nil => exact fun c => ⟨c.credit.lastReportedFwdCnt, by simp⟩
    | cons p payloads ih =>
      intro c
      obtain ⟨last, h⟩ := ih (c.transmit (c.headerOf p.length .rw 0) p)
      refine ⟨last, h.trans ?_⟩
      simp [transmit, headerOf]
  obtain ⟨last, h⟩ := htransmit { c with call := .idle }
  exact ⟨last, by rw [finishSend, h]; rfl⟩

lemma sendEnd_cases (fault : Option ℕ) (pending : ℕ) :
    (c.sendEnd fault pending).1 = c ∨ ∃ bytes, c.call = .sending bytes ∧
      ((c.sendEnd fault pending).1 = { c with call := .idle } ∨ (c.sendEnd fault pending).1 =
        c.finishSend (copyToSendBuffers packetPoolSlots bytes) pending) := by
  unfold sendEnd
  split
  · next bytes hcall =>
    refine .inr ⟨bytes, hcall, ?_⟩
    unfold buildAndSendTxPackets
    dsimp only
    split_ifs
    · exact .inl rfl
    · exact .inl rfl
    · exact .inr rfl
  · exact .inl rfl

end ConnectionInner

end Asterinas.Vsock
