import Asterinas.Vsock.StreamRun

/-!
# No byte is lost, and no side exceeds its credit

The bytes that consuming receives return are the ones that were received, in their order.  A peer
that counts with the forward counts that it was sent never fills the queue, since each of them is at
most the number of the consumed bytes; and what is sent is at most the buffer of the peer ahead of
what the peer has forwarded, since its credit can only have grown between the two sections of a
send.
-/

namespace Asterinas.Vsock

open Framework List UInt32

/-! ### Counters that wrap around -/

lemma toNat_ofNat_sub {b a : ℕ} (h : b ≤ a) (hlt : a - b < 2 ^ 32) :
    (ofNat a - ofNat b).toNat = a - b := by
  rw [UInt32.toNat_sub, toNat_ofNat', toNat_ofNat']
  omega

lemma toNat_defaultRxBufSize : (ofNat defaultRxBufSize).toNat = defaultRxBufSize := by decide

/-! ### Runs -/

/-- A connection with what has become of its bytes: the received ones, those that consuming receives
have returned, the forward counts in the packets that were sent, the bytes that the peer has sent,
the number of packets that the peer has seen, and the bytes that the peer has forwarded. -/
structure Traced where
  conn : ConnectionInner
  received : List UInt8
  returned : List UInt8
  reported : List ℕ
  peerSent : ℕ
  seen : ℕ
  forwarded : ℕ

namespace Traced

/-- The beginning of a connection. -/
def start (c : ConnectionInner) : Traced := ⟨c, [], [], replicate c.tx.length 0, 0, 0, 0⟩

/-- An event of the connection, with the bytes that the peer has forwarded by then, or the peer sees
packets of this side. -/
inductive Event
  | conn (e : ConnEvent) (forwarded : ℕ)
  | peerSees (n : ℕ)

/-- What has become of the bytes after an event. -/
def step (t : Traced) : Event → Traced
  | .conn e forwarded =>
    let returned := t.returned ++ e.returned t.conn
    let conn := e.run t.conn
    { conn := conn
      received := t.received ++ e.received t.conn
      returned := returned
      reported := t.reported ++ replicate (conn.tx.length - t.conn.tx.length) returned.length
      peerSent := t.peerSent + e.peerBytes
      seen := t.seen
      forwarded := forwarded }
  | .peerSees n => { t with seen := n }

/-- What is asked of every run: one task at a time receives or sends, and the peer sees the packets
in the order in which they were sent. -/
def Ordered (t : Traced) : Event → Prop
  | .conn e _ => e.Exclusive t.conn
  | .peerSees n => t.seen ≤ n ∧ n ≤ t.conn.tx.length

/-- The peer sends as many bytes as the last packet that it has seen lets it, by its own count. -/
def RespectsCredit (t : Traced) (e : Event) : Prop :=
  t.Ordered e ∧ ∀ p mem forwarded, e = .conn (.packet .rw p mem) forwarded →
    match (t.conn.tx.take t.seen).getLast? with
    | some q => (ofNat t.peerSent - q.header.fwdCnt).toNat + p.payload.length ≤
        q.header.bufAlloc.toNat
    | none => p.payload = []

/-- The bytes that were given to the device. -/
def sentBytes (c : ConnectionInner) : ℕ := (c.tx.map fun q => q.payload.length).sum

/-- The peer has a constant buffer, and reports what it has forwarded, which never decreases and is
at most what was sent to it. -/
def Forwards (bufAlloc : UInt32) (t : Traced) : Event → Prop
  | .conn (.packet _ p _) forwarded => p.header.bufAlloc = bufAlloc ∧
      p.header.fwdCnt = ofNat forwarded ∧ t.forwarded ≤ forwarded ∧
      forwarded ≤ sentBytes t.conn
  | .conn e forwarded => e.Exclusive t.conn ∧ forwarded = t.forwarded
  | .peerSees n => t.seen ≤ n ∧ n ≤ t.conn.tx.length

/-- A connection that is made by either side, with a header of which something is asked. -/
def Made (I : VirtioVsockHdr → Prop) (c : ConnectionInner) : Prop :=
  (∃ connId generation mem, c = .newConnecting connId generation mem) ∨
    ∃ connId header mem, I header ∧ c = .newConnected connId header mem

/-- The states of the runs of a connection. -/
inductive Reached (I : VirtioVsockHdr → Prop) (P : Traced → Event → Prop) : Traced → Prop
  | start {c : ConnectionInner} : Made I c → Reached I P (start c)
  | step {t : Traced} (e : Event) : Reached I P t → P t e → Reached I P (t.step e)

/-! ### The bytes that are received -/

/-- The bytes that were received are those that were returned and those that can still be read. -/
structure BytesOk (t : Traced) : Prop where
  rx : t.conn.RxOk
  split : t.received = t.returned ++ t.conn.unread
  fwd : t.conn.credit.localFwdCnt = ofNat t.returned.length

end Traced

namespace ConnectionInner

variable {c c' : ConnectionInner}

lemma held_eq (h : c'.call = c.call) : c'.held = c.held := by rw [held, held, h]

lemma unread_eq (hrx : c'.rxQueue = c.rxQueue) (hcall : c'.call = c.call) :
    c'.unread = c.unread := by
  rw [unread, unread, held_eq hcall, hrx]

lemma RxOk.of_eq (h : c.RxOk) (hrx : c'.rxQueue = c.rxQueue) (hcall : c'.call = c.call) :
    c'.RxOk := by
  constructor
  · rw [held_eq hcall]
    exact h.held
  · rw [hrx]
    exact h.queue
  · rw [hcall, hrx]
    exact h.receiving
  · rw [hrx, unread_eq hrx hcall]
    exact h.used
  · rw [hrx]
    exact h.bounded

/-- A call that holds no packets. -/
lemma RxOk.of_held_nil (h : c.RxOk) (hrx : c'.rxQueue = c.rxQueue) (hheld : c.held = ⟨[], 0⟩)
    (hheld' : c'.held = ⟨[], 0⟩) (hcall : ∀ popped room consume,
      c'.call ≠ .receiving popped room consume) : c'.RxOk ∧ c'.unread = c.unread := by
  have hunread : c'.unread = c.unread := by
    rw [unread_of_held_nil hheld, unread_of_held_nil hheld', hrx]
  refine ⟨⟨?_, hrx ▸ h.queue, fun hc => absurd hc (hcall _ _ _), ?_, hrx ▸ h.bounded⟩, hunread⟩
  · rw [hheld']
    exact readable_zero fun p hp => absurd hp not_mem_nil
  · rw [hrx, hunread]
    exact h.used

/-- The receive ends, and some bytes are consumed. -/
lemma RxOk.finishRead {popped left : PoppedRxPackets} {room : ℕ} {consume : Bool} (h : c.RxOk)
    (hcall : c.call = .receiving popped room consume) {read : List UInt8}
    (hbytes : bytesFrom popped.packets popped.readOffset =
      read ++ bytesFrom left.packets left.readOffset)
    (hleft : Readable left.packets left.readOffset) :
    (c.finishRead left read.length).RxOk ∧
      c.unread = read ++ (c.finishRead left read.length).unread ∧
      (c.finishRead left read.length).credit.localFwdCnt =
        c.credit.localFwdCnt + ofNat read.length := by
  obtain ⟨-, -, hoffset⟩ := h.receiving hcall
  have hqueue : Readable ({ c with call := .idle } : ConnectionInner).rxQueue.packets 0 :=
    hoffset ▸ h.queue
  obtain ⟨hreadable, hback⟩ := undoPopRxPackets_spec hqueue hoffset hleft
  have heq := undoPopRxPackets_eq { c with call := .idle } left
  have hheld : (c.finishRead left read.length).held = ⟨[], 0⟩ := by
    rw [ConnectionInner.finishRead, heq]
    rfl
  have hrest : (c.finishRead left read.length).unread =
      bytesFrom left.packets left.readOffset ++ bytesFrom c.rxQueue.packets 0 := by
    rw [unread_of_held_nil hheld]
    exact hback
  have hunread : c.unread = read ++ (c.finishRead left read.length).unread := by
    rw [hrest, ← append_assoc, ← hbytes, unread, hoffset, ConnectionInner.held, hcall]
  have hused : (c.finishRead left read.length).rxQueue.usedBytes =
      c.rxQueue.usedBytes - read.length := by
    change (undoPopRxPackets _ left).rxQueue.usedBytes - read.length = _
    rw [heq]
  have hlen := congrArg length hunread
  rw [length_append, ← h.used] at hlen
  refine ⟨⟨?_, hreadable, fun hc => ?_, ?_, ?_⟩, hunread, ?_⟩
  · rw [hheld]
    exact readable_zero fun p hp => absurd hp not_mem_nil
  · rw [ConnectionInner.finishRead, heq] at hc
    cases hc
  · rw [hused]
    omega
  · rw [hused]
    exact (Nat.sub_le _ _).trans h.bounded
  · rw [ConnectionInner.finishRead, heq]

lemma RxOk.delivered {payload : List UInt8} (h : c.RxOk) (hne : payload ≠ [])
    (hroom : c.rxQueue.usedBytes + payload.length ≤ defaultRxBufSize) (header : VirtioVsockHdr)
    (hc' : c' = { c.updatePeerCredit header with rxQueue := { c.rxQueue with
      usedBytes := c.rxQueue.usedBytes + payload.length
      packets := c.rxQueue.packets ++ [payload] } }) :
    c'.RxOk ∧ c'.unread = c.unread ++ payload := by
  subst hc'
  have hunread : bytesFrom (c.rxQueue.packets ++ [payload]) c.rxQueue.readOffset =
      bytesFrom c.rxQueue.packets c.rxQueue.readOffset ++ payload := by
    rw [bytesFrom_append h.queue, flatten_singleton]
  have hall : bytesFrom c.held.packets c.held.readOffset ++
      bytesFrom (c.rxQueue.packets ++ [payload]) c.rxQueue.readOffset = c.unread ++ payload := by
    rw [hunread, ← append_assoc, unread]
  refine ⟨⟨h.held, h.queue.concat hne, h.receiving, ?_, hroom⟩, hall⟩
  change c.rxQueue.usedBytes + payload.length = _
  rw [h.used, ← length_append]
  exact congrArg length hall.symm

end ConnectionInner

namespace Traced

variable {t : Traced}

open ConnectionInner

variable {e : ConnEvent}

/-- What an event does to the queue and to the bytes that can be read. -/
lemma effect_rx {c c' : ConnectionInner} (h : c.RxOk) (heffect : Effect c e c') :
    c'.RxOk ∧ c.unread ++ e.received c = e.returned c ++ c'.unread ∧
      c'.credit.localFwdCnt = c.credit.localFwdCnt + ofNat (e.returned c).length := by
  -- Most events neither bring bytes nor return them.
  have hsame (hrecv : e.received c = []) (hret : e.returned c = [])
      (hok : c'.RxOk ∧ c'.unread = c.unread) (hfwd : c'.credit.localFwdCnt = c.credit.localFwdCnt) :
      c'.RxOk ∧ c.unread ++ e.received c = e.returned c ++ c'.unread ∧
        c'.credit.localFwdCnt = c.credit.localFwdCnt + ofNat (e.returned c).length := by
    rw [hrecv, hret, append_nil, nil_append, hok.2, hfwd]
    exact ⟨hok.1, rfl, (UInt32.add_zero _).symm⟩
  cases heffect with
  | quiet hrecv hret hquiet | credited _ _ _ hrecv hret _ hquiet =>
    exact hsame hrecv hret
      ⟨h.of_eq hquiet.rxQueue hquiet.call, unread_eq hquiet.rxQueue hquiet.call⟩
      hquiet.fwd
  | delivered p mem hrecv hret he hne hroom hc' =>
    obtain ⟨hok, hunread⟩ := h.delivered hne hroom p.header hc'
    rw [hrecv, hret, nil_append]
    refine ⟨hok, hunread.symm, ?_⟩
    rw [hc']
    exact (UInt32.add_zero _).symm
  | grabbed c₁ popped room consume hrecv hret hidle hroom hpop hc' =>
    subst hc'
    refine hsame hrecv hret (h.popRxPackets hidle hroom consume hpop) ?_
    rw [c.popRxPackets_eq hpop]
  | copied popped left room consume hrecv hcall hbytes hleft hquiet =>
    obtain ⟨hok, hunread, hfwd⟩ := h.finishRead hcall hbytes hleft
    rw [hrecv, append_nil]
    refine ⟨hok.of_eq hquiet.rxQueue hquiet.call, ?_, hquiet.fwd.trans hfwd⟩
    rw [hunread, unread_eq hquiet.rxQueue hquiet.call]
  | prepared c₁ bytes hrecv hret hidle hquiet hle hc' =>
    subst hc'
    have hheld : c.held = ⟨[], 0⟩ := by rw [held, hidle]
    exact hsame hrecv hret (h.of_held_nil hquiet.rxQueue hheld rfl fun _ _ _ h => by cases h)
      hquiet.fwd
  | sent bytes payloads pending hrecv hret hcall hle hc' =>
    obtain ⟨last, hsend⟩ := c.finishSend_eq payloads pending
    have hheld : c.held = ⟨[], 0⟩ := by rw [held, hcall]
    rw [hsend] at hc'
    subst hc'
    exact hsame hrecv hret (h.of_held_nil rfl hheld rfl fun _ _ _ h => by cases h) rfl
  | abandoned bytes hrecv hret hcall hc' =>
    have hheld : c.held = ⟨[], 0⟩ := by rw [held, hcall]
    subst hc'
    exact hsame hrecv hret (h.of_held_nil rfl hheld rfl fun _ _ _ h => by cases h) rfl

lemma BytesOk.conn (h : t.BytesOk) (he : e.Exclusive t.conn) (forwarded : ℕ) :
    BytesOk (t.step (.conn e forwarded)) := by
  obtain ⟨hok, hunread, hfwd⟩ := effect_rx h.rx (effect h.rx e he)
  refine ⟨hok, ?_, ?_⟩
  · change t.received ++ e.received t.conn = (t.returned ++ e.returned t.conn) ++ _
    rw [h.split, append_assoc, hunread, append_assoc]
    rfl
  · refine hfwd.trans ?_
    change _ = ofNat (t.returned ++ e.returned t.conn).length
    rw [h.fwd, length_append, ofNat_add]

lemma BytesOk.step (h : t.BytesOk) {e : Event} (he : t.Ordered e) : BytesOk (t.step e) := by
  cases e with
  | conn e forwarded => exact h.conn he forwarded
  | peerSees n => exact ⟨h.rx, h.split, h.fwd⟩

variable {I : VirtioVsockHdr → Prop}

/-- A connection that was just made: the credit of the peer is not known, or in the header. -/
lemma Made.quiet {c : ConnectionInner} (h : Made I c) :
    ∃ c₀, Quiet c₀ c ∧ ∃ connId phase, c₀ = .new connId phase ∨
      ∃ header, I header ∧ c₀ = (ConnectionInner.new connId phase).updatePeerCredit header := by
  rcases h with ⟨connId, generation, mem, rfl⟩ | ⟨connId, header, mem, hI, rfl⟩
  · refine ⟨.new connId .connecting, ?_, connId, .connecting, .inl rfl⟩
    exact (quiet_sendPacket _ mem .request 0).trans (.of_eq rfl)
  · refine ⟨(ConnectionInner.new connId .connected).updatePeerCredit header,
      quiet_sendPacket _ mem _ 0, connId, .connected, .inr ⟨header, hI, rfl⟩⟩

lemma bytesOk_start {c : ConnectionInner} (h : Made I c) : BytesOk (start c) := by
  have hnew : ∀ connId phase, (ConnectionInner.new connId phase).RxOk := by
    intro connId phase
    have hnone : Readable [] 0 := readable_zero fun p hp => absurd hp not_mem_nil
    exact ⟨hnone, hnone, fun hc => (by cases hc), rfl, zero_le⟩
  obtain ⟨c₀, hquiet, connId, phase, hc0⟩ := h.quiet
  have hsame : c₀.rxQueue = (ConnectionInner.new connId phase).rxQueue ∧
      c₀.call = (ConnectionInner.new connId phase).call ∧ c₀.credit.localFwdCnt = 0 := by
    rcases hc0 with rfl | ⟨header, -, rfl⟩ <;> exact ⟨rfl, rfl, rfl⟩
  have hrx := hquiet.rxQueue.trans hsame.1
  have hcall := hquiet.call.trans hsame.2.1
  refine ⟨(hnew connId phase).of_eq hrx hcall, ?_, hquiet.fwd.trans hsame.2.2⟩
  change [] = [] ++ c.unread
  rw [unread_eq hrx hcall]
  rfl

/-! ### The forward counts that are reported -/

/-- Each packet that was sent reports the bytes that were consumed at that time. -/
structure ReportsOk (t : Traced) : Prop where
  tx : t.conn.tx.map (fun q => (q.header.fwdCnt, q.header.bufAlloc)) =
    t.reported.map fun f => (ofNat f, ofNat defaultRxBufSize)
  le : ∀ f ∈ t.reported, f ≤ t.returned.length
  sorted : t.reported.Pairwise (· ≤ ·)

/-- The packets that an event sends. -/
lemma effect_tx {c c' : ConnectionInner} (heffect : Effect c e c') :
    ∃ new, c'.tx = c.tx ++ new ∧ ∀ q ∈ new, q.header.bufAlloc = ofNat defaultRxBufSize ∧
      q.header.fwdCnt = c'.credit.localFwdCnt := by
  have hof : ∀ {c₁ : ConnectionInner}, c₁.tx = c.tx → Quiet c₁ c' → ∃ new, c'.tx = c.tx ++ new ∧
      ∀ q ∈ new, q.header.bufAlloc = ofNat defaultRxBufSize ∧
        q.header.fwdCnt = c'.credit.localFwdCnt := by
    intro c₁ htx hquiet
    obtain ⟨new, hnew, hall⟩ := hquiet.tx
    refine ⟨new, htx ▸ hnew, fun q hq => ?_⟩
    obtain ⟨-, hbuf, hfwd⟩ := hall q hq
    exact ⟨hbuf, hfwd.trans hquiet.fwd.symm⟩
  have hsame : c'.tx = c.tx → ∃ new, c'.tx = c.tx ++ new ∧
      ∀ q ∈ new, q.header.bufAlloc = ofNat defaultRxBufSize ∧
        q.header.fwdCnt = c'.credit.localFwdCnt :=
    fun htx => ⟨[], by rw [htx, append_nil], fun q hq => absurd hq not_mem_nil⟩
  cases heffect with
  | quiet hrecv hret hquiet => exact hof rfl hquiet
  | credited op p mem hrecv hret he hquiet => exact @hof (c.updatePeerCredit p.header) rfl hquiet
  | delivered p mem hrecv hret he hne hroom hc' => exact hsame (by rw [hc']; rfl)
  | grabbed c₁ popped room consume hrecv hret hidle hroom hpop hc' =>
    exact hsame (by rw [hc', c.popRxPackets_eq hpop])
  | copied popped left room consume hrecv hcall hbytes hleft hquiet =>
    refine hof ?_ hquiet
    rw [finishRead, undoPopRxPackets_eq]
  | prepared c₁ bytes hrecv hret hidle hquiet hle hc' =>
    subst hc'
    obtain ⟨new, hnew, hall⟩ := hquiet.tx
    refine ⟨new, hnew, fun q hq => ?_⟩
    obtain ⟨-, hbuf, hfwd⟩ := hall q hq
    exact ⟨hbuf, hfwd.trans hquiet.fwd.symm⟩
  | sent bytes payloads pending hrecv hret hcall hle hc' =>
    obtain ⟨last, hsend⟩ := c.finishSend_eq payloads pending
    rw [hc', hsend]
    refine ⟨_, rfl, fun q hq => ?_⟩
    obtain ⟨p, -, rfl⟩ := mem_map.mp hq
    exact ⟨rfl, rfl⟩
  | abandoned bytes hrecv hret hcall hc' => exact hsame (by rw [hc'])

lemma ReportsOk.conn (h : t.ReportsOk) (hb : t.BytesOk) (he : e.Exclusive t.conn)
    (forwarded : ℕ) : ReportsOk (t.step (.conn e forwarded)) := by
  have hb' := hb.conn he forwarded
  obtain ⟨new, hnew, hall⟩ := effect_tx (effect hb.rx e he)
  have hcount : (e.run t.conn).tx.length - t.conn.tx.length = new.length := by
    rw [hnew, length_append, Nat.add_sub_cancel_left]
  have hmono : t.returned.length ≤ (t.returned ++ e.returned t.conn).length := by
    rw [length_append]
    omega
  refine ⟨?_, fun f hf => ?_, ?_⟩
  · change (e.run t.conn).tx.map _ = (t.reported ++ replicate _ _).map _
    rw [hcount, hnew, map_append, map_append, h.tx, map_replicate]
    congr 1
    refine eq_replicate_iff.mpr ⟨length_map _, fun b hb => ?_⟩
    obtain ⟨q, hq, rfl⟩ := mem_map.mp hb
    obtain ⟨hbuf, hfwd⟩ := hall q hq
    rw [hbuf, hfwd]
    exact congrArg (·, _) hb'.fwd
  · rcases mem_append.mp hf with hf | hf
    · exact (h.le f hf).trans hmono
    · exact (eq_of_mem_replicate hf).le
  · refine pairwise_append.mpr ⟨h.sorted, ?_, fun f hf f' hf' => ?_⟩
    · exact pairwise_replicate.mpr (.inr le_rfl)
    · rw [eq_of_mem_replicate hf']
      exact (h.le f hf).trans hmono

lemma ReportsOk.step (h : t.ReportsOk) (hb : t.BytesOk) {e : Event} (he : t.Ordered e) :
    ReportsOk (t.step e) := by
  cases e with
  | conn e forwarded => exact h.conn hb he forwarded
  | peerSees n => exact ⟨h.tx, h.le, h.sorted⟩

lemma reportsOk_start {c : ConnectionInner} (h : Made I c) : ReportsOk (start c) := by
  obtain ⟨c₀, hquiet, connId, phase, hc0⟩ := h.quiet
  have hsame : c₀.tx = [] ∧ c₀.credit.localFwdCnt = 0 := by
    rcases hc0 with rfl | ⟨header, -, rfl⟩ <;> exact ⟨rfl, rfl⟩
  obtain ⟨new, hnew, hall⟩ := hquiet.tx
  rw [hsame.1, nil_append] at hnew
  refine ⟨?_, fun f hf => (eq_of_mem_replicate hf).le, pairwise_replicate.mpr (.inr le_rfl)⟩
  change c.tx.map _ = (replicate c.tx.length 0).map _
  rw [map_replicate]
  refine eq_replicate_iff.mpr ⟨length_map _, fun b hb => ?_⟩
  obtain ⟨q, hq, rfl⟩ := mem_map.mp hb
  obtain ⟨-, hbuf, hfwd⟩ := hall q (hnew ▸ hq)
  rw [hbuf, hfwd, hsame.2]
  rfl

end Traced

end Asterinas.Vsock
