import Asterinas.Framework.OrderedMap
import Asterinas.Vsock.Stream

/-!
# The vsock space

`VsockSpace`: the connection table, the listeners, and the events that reach the connections.  A
reference to a `ConnectionInner` is its position in the list of all connections that were ever made.

Every event below is one section under the lock of the sockets or of a connection.  A drop of a
connection that is still connecting takes two: it resets the connection and then, without the lock
of the connection, calls `remove_connection`; in between the connection is in `removing`.
-/

namespace Asterinas.Vsock

open Framework

/-- The key by which `ConnId` is ordered. -/
def ConnId.key (id : ConnId) : ℕ ×ₗ ℕ ×ₗ ℕ ×ₗ ℕ :=
  toLex (id.localCid, toLex (id.peerCid, toLex (id.localPort, id.peerPort)))

lemma ConnId.key_injective : Function.Injective ConnId.key := by
  intro a b h
  obtain ⟨a₁, a₂, a₃, a₄⟩ := a
  obtain ⟨b₁, b₂, b₃, b₄⟩ := b
  simp only [ConnId.key, EmbeddingLike.apply_eq_iff_eq, Prod.mk.injEq] at h
  obtain ⟨rfl, rfl, rfl, rfl⟩ := h
  rfl

instance : LinearOrder ConnId := LinearOrder.lift' ConnId.key ConnId.key_injective

/-- `ListenerInner`: the connections that wait to be accepted, and how many may. -/
structure ListenerInner where
  backlog : ℕ
  incomingConns : List ℕ

/-- `MAX_BACKLOG`: the bound of every backlog. -/
def maxBacklog : ℕ := 4096

/-- `VsockSpace`, with the connections that were made and the drops that still have to remove theirs
from the table. -/
structure VsockSpace where
  guestCid : ℕ
  conns : List ConnectionInner
  connections : OrderedMap ConnId ℕ
  listeners : OrderedMap ℕ ListenerInner
  nextGeneration : ℕ
  removing : List ℕ

namespace VsockSpace

/-- `VsockSpace::new`: no connections and no listeners. -/
def new (guestCid : ℕ) : VsockSpace := ⟨guestCid, [], .empty, .empty, 0, []⟩

section

variable (s : VsockSpace)

/-- A connection is made and put into the table. -/
def addConnection (c : ConnectionInner) : VsockSpace :=
  { s with conns := s.conns ++ [c], connections := s.connections.insert c.connId s.conns.length }

/-- A connection changes. -/
def setConn (k : ℕ) (c : ConnectionInner) : VsockSpace :=
  { s with conns := s.conns.set k c }

/-- The entry of a connection is removed. -/
def removeEntry (id : ConnId) : VsockSpace :=
  { s with connections := s.connections.erase id }

/-! ### Connections and listeners -/

/-- `VsockSpace::new_connection`, from the port to the remote address. -/
def newConnection (port remoteCid remotePort : ℕ) (mem : Bool) : VsockSpace × Except Error ℕ :=
  let connId : ConnId := ⟨s.guestCid, remoteCid, port, remotePort⟩
  if s.connections.get? connId ≠ none then
    (s, .error (.withMessage .eaddrinuse "the vsock connection already exists"))
  else
    ({ s.addConnection (.newConnecting connId s.nextGeneration mem) with
        nextGeneration := s.nextGeneration + 1 }, .ok s.conns.length)

/-- `VsockSpace::remove_connection`, called by a drop. -/
def removeConnection (k : ℕ) : VsockSpace :=
  let s := { s with removing := s.removing.erase k }
  match s.conns[k]? with
  | some c => if s.connections.get? c.connId = some k then s.removeEntry c.connId else s
  | none => s

/-- `VsockSpace::new_listener`: a listener on a port that has none. -/
def newListener (port backlog : ℕ) : VsockSpace × Except Error Unit :=
  if (s.listeners.get? port).isSome then
    (s, .error (.withMessage .eaddrinuse "the vsock listener already exists"))
  else
    ({ s with listeners := s.listeners.insert port ⟨min backlog maxBacklog, []⟩ }, .ok ())

/-- `Listener::set_backlog`, when `listen` is called again. -/
def setBacklog (port backlog : ℕ) : VsockSpace :=
  match s.listeners.get? port with
  | some listener =>
    { s with
      listeners := s.listeners.insert port { listener with backlog := min backlog maxBacklog } }
  | none => s

/-- `Listener::try_accept`: the connection that has waited longest. -/
def tryAccept (port : ℕ) : VsockSpace × Except Error ℕ :=
  match s.listeners.get? port with
  | some ⟨backlog, k :: rest⟩ =>
    ({ s with listeners := s.listeners.insert port ⟨backlog, rest⟩ }, .ok k)
  | _ => (s, .error (.withMessage .eagain "no pending connection is available"))

end

/-- One connection of a listener that is removed. -/
def resetIncoming (mem : Bool) (s : VsockSpace) (k : ℕ) : VsockSpace :=
  match s.conns[k]? with
  | some c =>
    if s.connections.get? c.connId = some k then
      (s.removeEntry c.connId).setConn k (c.activeRst mem)
    else
      s
  | none => s

section

variable (s : VsockSpace)

/-- `VsockSpace::remove_listener`: the connections that wait are reset. -/
def removeListener (port : ℕ) (mem : Bool) : VsockSpace :=
  match s.listeners.get? port with
  | some listener =>
    listener.incomingConns.foldl (resetIncoming mem) { s with listeners := s.listeners.erase port }
  | none => s

/-! ### Packets -/

/-- `VsockSpace::validate_rx_header`: the type, the address, the length and the flags are right. -/
def validateRxHeader (op : VirtioVsockOp) (packet : RxPacket) : Bool :=
  let header := packet.header
  decide (header.type = streamType) && decide (header.dstCid = s.guestCid) &&
    decide (packet.payload.length = header.len) &&
      match op with
      | .request | .response | .rst | .creditUpdate | .creditRequest =>
        decide (packet.payload.length = 0) && header.flags == 0
      | .shutdown =>
        decide (packet.payload.length = 0) && header.flags &&& (flagReceive ||| flagSend) ==
          header.flags
      | .rw => header.flags == 0

/-- The operation of a packet that passes the checks. -/
def validOp (packet : RxPacket) : Option VirtioVsockOp :=
  (VirtioVsockOp.tryFrom packet.header.op).filter fun op => s.validateRxHeader op packet

/-- `VsockSpace::process_rx_with_listener`: a request makes a connection if there is room in the
backlog. -/
def processRxWithListener (packet : RxPacket) (mem : Bool) : VsockSpace :=
  if s.validOp packet ≠ some .request then
    -- A reset is sent to the peer.
    s
  else
    match s.listeners.get? packet.header.dstPort with
    | some listener =>
      if listener.incomingConns.length > listener.backlog then
        s
      else
        { s.addConnection (.newConnected (.fromIncomingHeader packet.header) packet.header mem) with
          listeners := s.listeners.insert packet.header.dstPort
            ⟨listener.backlog, listener.incomingConns ++ [s.conns.length]⟩ }
    | none => s

end

/-- What a valid packet does to its connection, and whether the connection should be removed. -/
def handlePacket (c : ConnectionInner) (op : VirtioVsockOp) (packet : RxPacket) (mem : Bool) :
    ConnectionInner × Bool :=
  match op with
  | .request => (c.activeRst mem, true)
  | .response => (c.onResponse packet.header mem).map id fun r => !r.isOk
  | .rst => (c.onRst, true)
  | .shutdown => c.onShutdown packet.header mem
  | .rw => (c.onRw packet.header packet.payload mem).map id fun r => !r.isOk
  | .creditUpdate => (c.onCreditUpdate packet.header mem).map id fun r => !r.isOk
  | .creditRequest => (c.onCreditRequest packet.header mem).map id fun r => !r.isOk

/-- `VsockSpace::process_rx_with_connection`, for the entry of the table. -/
def processRxWithConnection (s : VsockSpace) (id : ConnId) (k : ℕ) (packet : RxPacket)
    (mem : Bool) : VsockSpace :=
  match s.conns[k]? with
  | some c =>
    match s.validOp packet with
    | some op =>
      let (c', shouldRemove) := handlePacket c op packet mem
      if shouldRemove then (s.setConn k c').removeEntry id else s.setConn k c'
    | none => (s.removeEntry id).setConn k (c.activeRst mem)
  | none => s

/-- `VsockSpace::process_rx_packet`: the packet is for a connection or for a listener. -/
def processRxPacket (s : VsockSpace) (packet : RxPacket) (mem : Bool) : VsockSpace :=
  let id := ConnId.fromIncomingHeader packet.header
  match s.connections.get? id with
  | some k => s.processRxWithConnection id k packet mem
  | none => s.processRxWithListener packet mem

/-! ### Transport and timer events -/

/-- The connection of an entry is reset. -/
def resetEntry (conns : List ConnectionInner) (k : ℕ) : List ConnectionInner :=
  conns.modify k ConnectionInner.onRst

/-- `VsockSpace::process_transport_event`: all connections are reset, and the address is another
one. -/
def processTransportEvent (s : VsockSpace) (guestCid : ℕ) : VsockSpace :=
  { s with
    conns := s.connections.values.foldl resetEntry s.conns
    connections := .empty
    guestCid := guestCid }

/-- One of the events of `VsockSpace::process_timer_events`. -/
def processTimerEvent (s : VsockSpace) (id : ConnId) (generation : ℕ) (mem : Bool) : VsockSpace :=
  match s.connections.get? id with
  | some k =>
    match s.conns[k]? with
    | some c =>
      let (c', timedOut) := c.onTimeout generation mem
      if timedOut then (s.setConn k c').removeEntry id else s.setConn k c'
    | none => s
  | none => s

/-! ### The owner of a connection -/

/-- What the task that owns a connection does with it. -/
inductive OwnerOp
  | shutdown (cmd : SockShutdownCmd) (mem : Bool)
  | testAndClearError
  | recvBegin (room : ℕ) (consume : Bool)
  | recvEnd (fault : Option ℕ) (mem : Bool)
  | sendBegin (bytes : List UInt8) (builders : ℕ) (mem : Bool)
  | sendEnd (fault : Option ℕ) (pending : ℕ)
  | pendingSubmit (bytes : ℕ)

/-- The connection after such a step. -/
def OwnerOp.run (c : ConnectionInner) : OwnerOp → ConnectionInner
  | shutdown cmd mem => c.doShutdown cmd mem
  | testAndClearError => c.testAndClearError.1
  | recvBegin room consume => (c.recvBegin room consume).1
  | recvEnd fault mem => (c.recvEnd fault mem).1
  | sendBegin bytes builders mem => (c.sendBegin bytes builders mem).1
  | sendEnd fault pending => (c.sendEnd fault pending).1
  | pendingSubmit bytes => c.onPendingSubmit bytes

/-- A step of the owner of a connection. -/
def ownerStep (s : VsockSpace) (k : ℕ) (op : OwnerOp) : VsockSpace :=
  match s.conns[k]? with
  | some c => s.setConn k (op.run c)
  | none => s

/-- A connection is dropped. -/
def dropConnection (s : VsockSpace) (k : ℕ) (mem : Bool) : VsockSpace :=
  match s.conns[k]? with
  | some c =>
    let (c', removes) := c.drop s.nextGeneration mem
    let s := { s.setConn k c' with nextGeneration := s.nextGeneration + 1 }
    if removes then { s with removing := k :: s.removing } else s
  | none => s

/-! ### Runs -/

/-- What can happen to a space. -/
inductive Event
  | connect (port remoteCid remotePort : ℕ) (mem : Bool)
  | listen (port backlog : ℕ)
  | setBacklog (port backlog : ℕ)
  | accept (port : ℕ)
  | closeListener (port : ℕ) (mem : Bool)
  | rx (packet : RxPacket) (mem : Bool)
  | transport (guestCid : ℕ)
  | timer (id : ConnId) (generation : ℕ) (mem : Bool)
  | owner (k : ℕ) (op : OwnerOp)
  | drop (k : ℕ) (mem : Bool)
  | remove (k : ℕ)

/-- The space after an event. -/
def step (s : VsockSpace) : Event → VsockSpace
  | .connect port remoteCid remotePort mem => (s.newConnection port remoteCid remotePort mem).1
  | .listen port backlog => (s.newListener port backlog).1
  | .setBacklog port backlog => s.setBacklog port backlog
  | .accept port => (s.tryAccept port).1
  | .closeListener port mem => s.removeListener port mem
  | .rx packet mem => s.processRxPacket packet mem
  | .transport guestCid => s.processTransportEvent guestCid
  | .timer id generation mem => s.processTimerEvent id generation mem
  | .owner k op => s.ownerStep k op
  | .drop k mem => s.dropConnection k mem
  -- Only a drop calls `remove_connection`.
  | .remove k => if k ∈ s.removing then s.removeConnection k else s

/-- The states that are reached by events that meet a condition. -/
inductive Reached (P : VsockSpace → Event → Prop) : VsockSpace → Prop
  | new (guestCid : ℕ) : Reached P (new guestCid)
  | step {s : VsockSpace} (e : Event) : Reached P s → P s e → Reached P (s.step e)

end VsockSpace

end Asterinas.Vsock
