import Asterinas.Basic

/-!
# A vsock connection

`net/socket/vsock/transport/connection`: the state of a connection and what the packets of the peer,
the timer and the owner of the socket do to it.  The fields that the source keeps under the lock of
`ConnectionState` are fields of `ConnectionInner` here; every function below runs with that lock
held.

A control packet is dropped when no memory is left for it.  Each function that sends one takes
whether there is memory, since nothing in the connection decides that.  The notifications of the
`Pollee` are left out, because nothing of the connection depends on them.
-/

namespace Asterinas.Vsock

/-! ### Packets -/

/-- `VirtioVsockOp`: the kinds of packets. -/
inductive VirtioVsockOp
  | request
  | response
  | rst
  | shutdown
  | rw
  | creditUpdate
  | creditRequest
  deriving DecidableEq, Repr

/-- The number of an operation in a header. -/
def VirtioVsockOp.code : VirtioVsockOp → ℕ
  | request => 1
  | response => 2
  | rst => 3
  | shutdown => 4
  | rw => 5
  | creditUpdate => 6
  | creditRequest => 7

/-- `VirtioVsockOp::try_from`: the kind of a number. -/
def VirtioVsockOp.tryFrom : ℕ → Option VirtioVsockOp
  | 1 => some request
  | 2 => some response
  | 3 => some rst
  | 4 => some shutdown
  | 5 => some rw
  | 6 => some creditUpdate
  | 7 => some creditRequest
  | _ => none

/-- `VirtioVsockType::Stream`. -/
def streamType : ℕ := 1

/-- `VirtioVsockShutdownFlags::RECEIVE`. -/
def flagReceive : UInt32 := 1

/-- `VirtioVsockShutdownFlags::SEND`. -/
def flagSend : UInt32 := 2

/-- `VirtioVsockHdr`.  The credit fields wrap around, so they keep their width. -/
structure VirtioVsockHdr where
  srcCid : ℕ
  dstCid : ℕ
  srcPort : ℕ
  dstPort : ℕ
  len : ℕ
  type : ℕ
  op : ℕ
  flags : UInt32
  bufAlloc : UInt32
  fwdCnt : UInt32
  deriving DecidableEq

/-- `RxPacket`: a packet that was received. -/
structure RxPacket where
  header : VirtioVsockHdr
  payload : List UInt8
  deriving DecidableEq

/-- `TxPacket`: a packet that is sent. -/
structure TxPacket where
  header : VirtioVsockHdr
  payload : List UInt8
  deriving DecidableEq

/-- `ConnId`: the addresses and ports of both sides. -/
structure ConnId where
  localCid : ℕ
  peerCid : ℕ
  localPort : ℕ
  peerPort : ℕ
  deriving DecidableEq

/-- `ConnId::from_incoming_header`: the destination is this side. -/
def ConnId.fromIncomingHeader (header : VirtioVsockHdr) : ConnId :=
  ⟨header.dstCid, header.srcCid, header.dstPort, header.srcPort⟩

/-- `DEFAULT_RX_BUF_SIZE`: the bytes that may wait to be read. -/
def defaultRxBufSize : ℕ := 256 * 1024

/-- `DEFAULT_TX_BUF_SIZE`: the bytes that may wait to be sent. -/
def defaultTxBufSize : ℕ := 256 * 1024

/-- `CREDIT_UPDATE_THRESHOLD`: after a quarter of the buffer has been read, the peer is told. -/
def creditUpdateThreshold : UInt32 := UInt32.ofNat (defaultRxBufSize / 4)

/-! ### The state -/

/-- `Phase`: where a connection is in its life. -/
inductive Phase
  | connecting
  | connectFailed
  | connected
  | closing
  | closed
  deriving DecidableEq, Repr

/-- `RxQueue`: the packets that were received, and how much of the first one has been read. -/
structure RxQueue where
  packets : List (List UInt8)
  usedBytes : ℕ
  readOffset : ℕ
  deriving DecidableEq

/-- `CreditState`: the counters of both sides, which wrap around. -/
structure CreditState where
  peerBufAlloc : UInt32
  peerFwdCnt : UInt32
  localFwdCnt : UInt32
  lastReportedFwdCnt : UInt32
  creditRequestPending : Bool
  txCnt : UInt32
  deriving DecidableEq

/-- `ShutdownState`: which directions each side has closed. -/
structure ShutdownState where
  localReadClosed : Bool
  localWriteClosed : Bool
  peerReadClosed : Bool
  peerWriteClosed : Bool
  deriving DecidableEq

/-- Both directions of the peer are closed. -/
def ShutdownState.peerFullyClosed (s : ShutdownState) : Bool :=
  s.peerReadClosed && s.peerWriteClosed

/-- Both directions of this side are closed. -/
def ShutdownState.localFullyClosed (s : ShutdownState) : Bool :=
  s.localReadClosed && s.localWriteClosed

/-- `SockShutdownCmd`: the directions that `shutdown` closes. -/
inductive SockShutdownCmd
  | shutRd
  | shutWr
  | shutRdwr
  deriving DecidableEq, Repr

/-- `SockShutdownCmd::shut_read`. -/
def SockShutdownCmd.shutRead (cmd : SockShutdownCmd) : Bool := cmd = .shutRd || cmd = .shutRdwr

/-- `SockShutdownCmd::shut_write`. -/
def SockShutdownCmd.shutWrite (cmd : SockShutdownCmd) : Bool := cmd = .shutWr || cmd = .shutRdwr

/-- `PoppedRxPackets`: the packets that a receive has taken from the queue. -/
structure PoppedRxPackets where
  packets : List (List UInt8)
  readOffset : ℕ
  deriving DecidableEq

/-- Where the task stands that has borrowed the connection mutably, between two sections in which it
has the lock: in `try_recv` with the packets it has taken, the room for bytes and whether it
consumes them; in `try_send` with the bytes it is going to send. -/
inductive Call
  | idle
  | receiving (popped : PoppedRxPackets) (room : ℕ) (consume : Bool)
  | sending (bytes : List UInt8)
  deriving DecidableEq

/-- `ConnectionInner`, with the call that is going on and the packets that were given to the device.
Of the timer the generation is kept. -/
structure ConnectionInner where
  connId : ConnId
  phase : Phase
  error : Option Error
  rxQueue : RxQueue
  credit : CreditState
  shutdown : ShutdownState
  timer : Option ℕ
  pendingTxBytes : ℕ
  call : Call
  tx : List TxPacket
  deriving DecidableEq

namespace ConnectionInner

section

variable (c : ConnectionInner)

/-- The header of a packet that the connection sends, as `VirtioVsockHdr::new` makes it. -/
def headerOf (len : ℕ) (op : VirtioVsockOp) (flags : UInt32) : VirtioVsockHdr where
  srcCid := c.connId.localCid
  dstCid := c.connId.peerCid
  srcPort := c.connId.localPort
  dstPort := c.connId.peerPort
  len := len
  type := streamType
  op := op.code
  flags := flags
  bufAlloc := UInt32.ofNat defaultRxBufSize
  fwdCnt := c.credit.localFwdCnt

/-- A packet is given to the device, which reports the forward count. -/
def transmit (header : VirtioVsockHdr) (payload : List UInt8) : ConnectionInner :=
  { c with
    tx := c.tx ++ [⟨header, payload⟩]
    credit := { c.credit with lastReportedFwdCnt := c.credit.localFwdCnt } }

/-- `ConnectionState::send_packet`, and whether the packet was sent. -/
def sendPacket (mem : Bool) (op : VirtioVsockOp) (flags : UInt32) : ConnectionInner × Bool :=
  if mem then (c.transmit (c.headerOf 0 op flags) [], true) else (c, false)

/-- `ConnectionState::arm_timeout`: a timer replaces the one before. -/
def armTimeout (generation : ℕ) : ConnectionInner :=
  { c with timer := some generation }

/-- `ConnectionState::test_and_clear_error`: an error is reported once. -/
def testAndClearError : ConnectionInner × Except Error Unit :=
  match c.error with
  | some error => ({ c with error := none }, .error error)
  | none => (c, .ok ())

/-- `ConnectionState::update_peer_credit`: every header has the counters of the peer. -/
def updatePeerCredit (header : VirtioVsockHdr) : ConnectionInner :=
  { c with credit := { c.credit with peerBufAlloc := header.bufAlloc, peerFwdCnt := header.fwdCnt }
    }

end

/-! ### Making and resetting a connection -/

/-- `ConnectionInner::new`: nothing was sent or received. -/
def new (connId : ConnId) (phase : Phase) : ConnectionInner where
  connId := connId
  phase := phase
  error := none
  rxQueue := ⟨[], 0, 0⟩
  credit := ⟨0, 0, 0, 0, false, 0⟩
  shutdown := ⟨false, false, phase ≠ .connected, phase ≠ .connected⟩
  timer := none
  pendingTxBytes := 0
  call := .idle
  tx := []

/-- `ConnectionInner::new_connecting`: the request is sent and the timer is armed. -/
def newConnecting (connId : ConnId) (generation : ℕ) (mem : Bool) : ConnectionInner :=
  ((new connId .connecting).sendPacket mem .request 0).1.armTimeout generation

/-- `ConnectionInner::new_connected`: a request is accepted with a response. -/
def newConnected (connId : ConnId) (header : VirtioVsockHdr) (mem : Bool) : ConnectionInner :=
  (((new connId .connected).updatePeerCredit header).sendPacket mem .response 0).1

section

variable (c : ConnectionInner)

/-- `ConnectionState::do_rst`, and whether the connection was alive. -/
def doRst (isActive : Bool) : ConnectionInner × Bool :=
  match c.phase with
  | .connecting =>
    ({ c with
        phase := .connectFailed
        error := some (.withMessage .econnreset "the connection is refused")
        timer := none }, true)
  | .connected =>
    ({ c with
        phase := .closed
        error := if isActive then some (.withMessage .econnreset "the connection is reset")
          else none
        shutdown := { c.shutdown with peerReadClosed := true, peerWriteClosed := true } }, true)
  | .closing =>
    ({ c with
        phase := .closed
        shutdown := { c.shutdown with peerReadClosed := true, peerWriteClosed := true }
        timer := none }, true)
  | .connectFailed | .closed => (c, false)

/-- `ConnectionState::active_rst`: this side resets the connection and tells the peer. -/
def activeRst (mem : Bool) : ConnectionInner :=
  if (c.doRst true).2 then ((c.doRst true).1.sendPacket mem .rst 0).1 else (c.doRst true).1

/-! ### Packets of the peer -/

/-- `ConnectionInner::on_response`: the connection is established. -/
def onResponse (header : VirtioVsockHdr) (mem : Bool) : ConnectionInner × Except Error Unit :=
  if c.phase ≠ .connecting then
    (c.activeRst mem, .error (.withMessage .eisconn "the connection is established"))
  else
    ({ c.updatePeerCredit header with
        phase := .connected
        shutdown := { c.shutdown with peerReadClosed := false, peerWriteClosed := false }
        timer := none }, .ok ())

/-- `ConnectionInner::on_rst`: the peer has reset the connection. -/
def onRst : ConnectionInner := (c.doRst false).1

section

variable (header : VirtioVsockHdr)

include header

/-- The shutdown state after the peer has announced what it closes. -/
def peerShutdown : ShutdownState :=
  { c.shutdown with
    peerWriteClosed := c.shutdown.peerWriteClosed || header.flags &&& flagSend == flagSend
    peerReadClosed := c.shutdown.peerReadClosed || header.flags &&& flagReceive == flagReceive }

/-- `ConnectionInner::on_shutdown`, and whether the connection should be removed. -/
def onShutdown (mem : Bool) : ConnectionInner × Bool :=
  if c.phase = .connecting then
    (c.activeRst mem, true)
  else if c.peerShutdown header = c.shutdown then
    -- No event is notified.
    (c, false)
  else if (c.peerShutdown header).peerFullyClosed then
    (({ c with shutdown := c.peerShutdown header, phase := .closed }.sendPacket mem .rst 0).1, true)
  else
    ({ c with shutdown := c.peerShutdown header }, false)

/-- `ConnectionInner::on_rw`: bytes come into the queue, unless it is full or the peer had
closed. -/
def onRw (payload : List UInt8) (mem : Bool) : ConnectionInner × Except Error Unit :=
  if c.shutdown.peerWriteClosed then
    (c.activeRst mem, .error (.withMessage .enotconn "the connection is not established"))
  else if c.rxQueue.usedBytes + payload.length > defaultRxBufSize then
    (c.activeRst mem, .error (.withMessage .enomem "the receive queue is full"))
  else if payload.length ≠ 0 then
    ({ c.updatePeerCredit header with
        rxQueue := { c.rxQueue with
          usedBytes := c.rxQueue.usedBytes + payload.length
          packets := c.rxQueue.packets ++ [payload] } }, .ok ())
  else
    (c.updatePeerCredit header, .ok ())

/-- `ConnectionInner::on_credit_update`: the peer answers a request for credit. -/
def onCreditUpdate (mem : Bool) : ConnectionInner × Except Error Unit :=
  if c.phase = .connecting then
    (c.activeRst mem, .error (.withMessage .enotconn "the connection is not established"))
  else
    let c := c.updatePeerCredit header
    ({ c with credit := { c.credit with creditRequestPending := false } }, .ok ())

/-- `ConnectionInner::on_credit_request`: the peer is told the counters. -/
def onCreditRequest (mem : Bool) : ConnectionInner × Except Error Unit :=
  if c.phase = .connecting then
    (c.activeRst mem, .error (.withMessage .enotconn "the connection is not established"))
  else
    (((c.updatePeerCredit header).sendPacket mem .creditUpdate 0).1, .ok ())

end

/-! ### The timer and the owner -/

/-- `ConnectionInner::on_timeout`, and whether the connection should be removed. -/
def onTimeout (generation : ℕ) (mem : Bool) : ConnectionInner × Bool :=
  if c.timer ≠ some generation then
    (c, false)
  else if (c.activeRst mem).phase = .connectFailed then
    ({ c.activeRst mem with error := some (.withMessage .etimedout "the connection timed out") },
    true)
  else
    (c.activeRst mem, true)

/-- `ConnectionState::shutdown`. -/
def doShutdown (cmd : SockShutdownCmd) (mem : Bool) : ConnectionInner :=
  let closesRead := cmd.shutRead && !c.shutdown.localReadClosed
  let closesWrite := cmd.shutWrite && !c.shutdown.localWriteClosed
  let c' := { c with shutdown := { c.shutdown with
    localReadClosed := c.shutdown.localReadClosed || cmd.shutRead
    localWriteClosed := c.shutdown.localWriteClosed || cmd.shutWrite } }
  if !c.shutdown.peerFullyClosed && (closesRead || closesWrite) then
    (c'.sendPacket mem .shutdown
      ((if closesRead then flagReceive else 0) ||| if closesWrite then flagSend else 0)).1
  else
    c'

/-- `Drop for Connection`, with the lock of the state held, and whether `remove_connection`
follows. -/
def drop (generation : ℕ) (mem : Bool) : ConnectionInner × Bool :=
  match c.phase with
  | .connecting => (c.activeRst mem, true)
  | .connected | .closing =>
    (({ c.doShutdown .shutRdwr mem with phase := .closing }).armTimeout generation, false)
  | .connectFailed | .closed => (c, false)

end

end ConnectionInner

end Asterinas.Vsock
