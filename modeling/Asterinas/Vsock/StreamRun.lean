import Asterinas.Vsock.Space
import Asterinas.Vsock.StreamBytes

/-!
# Runs of a vsock connection: bytes and credit

The events of one connection, with what has become of the bytes: those that were received, those
that consuming receives have returned, the forward counts that were reported to the peer, the bytes
that the peer has sent and those that it has forwarded.  The counters of the connection are 32 bits
wide and wrap around; the numbers that are kept beside it are not.
-/

namespace Asterinas.Vsock

open Framework VsockSpace List

/-- What can happen to a connection. -/
inductive ConnEvent
  | packet (op : VirtioVsockOp) (p : RxPacket) (mem : Bool)
  | reset (mem : Bool)
  | transport
  | timer (generation : ℕ) (mem : Bool)
  | owner (op : OwnerOp)
  | drop (generation : ℕ) (mem : Bool)

namespace ConnEvent

section

variable (c : ConnectionInner)

/-- The connection after an event. -/
def run : ConnEvent → ConnectionInner
  | packet op p mem => (handlePacket c op p mem).1
  | reset mem => c.activeRst mem
  | transport => c.onRst
  | timer generation mem => (c.onTimeout generation mem).1
  | owner op => op.run c
  | drop generation mem => (c.drop generation mem).1

/-- The bytes that the connection receives. -/
def received : ConnEvent → List UInt8
  | packet .rw p mem => if (c.onRw p.header p.payload mem).2.isOk then p.payload else []
  | _ => []

/-- The bytes that a consuming receive returns. -/
def returned : ConnEvent → List UInt8
  | owner (.recvEnd fault mem) =>
    match c.call, (c.recvEnd fault mem).2 with
    | .receiving _ _ true, .ok written => written
    | _, _ => []
  | _ => []

end

/-- The bytes that the peer sends. -/
def peerBytes : ConnEvent → ℕ
  | packet .rw p _ => p.payload.length
  | _ => 0

/-- A task begins a call when the one before is over: it has borrowed the connection mutably. -/
def Exclusive (c : ConnectionInner) : ConnEvent → Prop
  | owner (.recvBegin _ _) => c.call = .idle
  | owner (.sendBegin _ _ _) => c.call = .idle
  | _ => True

end ConnEvent

/-! ### What an event does to the bytes -/

/-- The queue, the call and the counters of the bytes are as before, and what is sent has no bytes
and reports the forward count. -/
structure Quiet (c c' : ConnectionInner) : Prop where
  rxQueue : c'.rxQueue = c.rxQueue
  call : c'.call = c.call
  fwd : c'.credit.localFwdCnt = c.credit.localFwdCnt
  txCnt : c'.credit.txCnt = c.credit.txCnt
  bufAlloc : c'.credit.peerBufAlloc = c.credit.peerBufAlloc
  peerFwd : c'.credit.peerFwdCnt = c.credit.peerFwdCnt
  tx : ∃ new, c'.tx = c.tx ++ new ∧ ∀ q ∈ new, q.payload = [] ∧
    q.header.bufAlloc = UInt32.ofNat defaultRxBufSize ∧ q.header.fwdCnt = c.credit.localFwdCnt

/-- The fields of a connection that are about bytes. -/
def ConnectionInner.bytesPart (c : ConnectionInner) :
    RxQueue × Call × List TxPacket × UInt32 × UInt32 × UInt32 × UInt32 :=
  (c.rxQueue, c.call, c.tx, c.credit.localFwdCnt, c.credit.txCnt, c.credit.peerBufAlloc,
    c.credit.peerFwdCnt)

namespace Quiet

variable {c c' c'' : ConnectionInner}

/-- A change of the other fields. -/
lemma of_eq (h : c'.bytesPart = c.bytesPart) : Quiet c c' := by
  simp only [ConnectionInner.bytesPart, Prod.mk.injEq] at h
  obtain ⟨hrx, hcall, htx, hfwd, htxCnt, hbuf, hpeer⟩ := h
  refine ⟨hrx, hcall, hfwd, htxCnt, hbuf, hpeer, [], ?_, fun _ hq => absurd hq not_mem_nil⟩
  rw [htx, append_nil]

lemma refl (c : ConnectionInner) : Quiet c c := .of_eq rfl

lemma trans (h : Quiet c c') (h' : Quiet c' c'') : Quiet c c'' := by
  obtain ⟨new, hnew, hquiet⟩ := h.tx
  obtain ⟨new', hnew', hquiet'⟩ := h'.tx
  refine ⟨h'.rxQueue.trans h.rxQueue, h'.call.trans h.call, h'.fwd.trans h.fwd,
    h'.txCnt.trans h.txCnt, h'.bufAlloc.trans h.bufAlloc, h'.peerFwd.trans h.peerFwd,
      new ++ new', ?_,
    fun q hq => ?_⟩
  · rw [hnew', hnew, append_assoc]
  · rcases mem_append.mp hq with hq | hq
    · exact hquiet q hq
    · exact h.fwd ▸ hquiet' q hq

lemma peerCredit_eq (h : Quiet c c') : c'.peerCredit = c.peerCredit := by
  rw [ConnectionInner.peerCredit, ConnectionInner.peerCredit, h.bufAlloc, h.txCnt, h.peerFwd]

end Quiet

namespace ConnectionInner

variable (c : ConnectionInner)

lemma quiet_sendPacket (mem : Bool) (op : VirtioVsockOp) (flags : UInt32) :
    Quiet c (c.sendPacket mem op flags).1 := by
  cases mem with
  | false => exact .refl c
  | true =>
    refine ⟨rfl, rfl, rfl, rfl, rfl, rfl, [⟨c.headerOf 0 op flags, []⟩], rfl, fun q hq => ?_⟩
    obtain rfl := mem_singleton.mp hq
    exact ⟨rfl, rfl, rfl⟩

lemma quiet_testAndClearError : Quiet c c.testAndClearError.1 := by
  unfold testAndClearError
  split
  · exact .of_eq rfl
  · exact .refl c

lemma quiet_doRst (isActive : Bool) : Quiet c (c.doRst isActive).1 := by
  unfold doRst
  split
  iterate 3 exact .of_eq rfl
  all_goals exact .refl c

lemma quiet_activeRst (mem : Bool) : Quiet c (c.activeRst mem) := by
  unfold activeRst
  split
  · exact (c.quiet_doRst true).trans (quiet_sendPacket ..)
  · exact c.quiet_doRst true

lemma quiet_onShutdown (header : VirtioVsockHdr) (mem : Bool) :
    Quiet c (c.onShutdown header mem).1 := by
  unfold onShutdown
  split
  · exact c.quiet_activeRst mem
  · split
    · exact .refl c
    · split
      · refine Quiet.trans ?_ (quiet_sendPacket ..)
        exact .of_eq rfl
      · exact .of_eq rfl

lemma quiet_onTimeout (generation : ℕ) (mem : Bool) : Quiet c (c.onTimeout generation mem).1 := by
  unfold onTimeout
  split
  · exact .refl c
  · split
    · exact (c.quiet_activeRst mem).trans (.of_eq rfl)
    · exact c.quiet_activeRst mem

lemma quiet_doShutdown (cmd : SockShutdownCmd) (mem : Bool) : Quiet c (c.doShutdown cmd mem) := by
  unfold doShutdown
  dsimp only
  split
  · refine Quiet.trans ?_ (quiet_sendPacket ..)
    exact .of_eq rfl
  · exact .of_eq rfl

lemma quiet_drop (generation : ℕ) (mem : Bool) : Quiet c (c.drop generation mem).1 := by
  have hclosing : Quiet c
      (({ c.doShutdown .shutRdwr mem with phase := .closing }).armTimeout generation) :=
    (c.quiet_doShutdown .shutRdwr mem).trans (.of_eq rfl)
  unfold drop
  split
  · exact c.quiet_activeRst mem
  iterate 2 exact hclosing
  all_goals exact .refl c

lemma quiet_sendCreditUpdateHeaderIfNeeded (mem : Bool) :
    Quiet c (c.sendCreditUpdateHeaderIfNeeded mem) := by
  unfold sendCreditUpdateHeaderIfNeeded
  split
  · exact .refl c
  · split
    · exact .refl c
    · exact quiet_sendPacket ..

lemma quiet_checkPeerCredit (mem : Bool) : Quiet c (c.checkPeerCredit mem).1 := by
  have hsend := c.quiet_sendPacket mem .creditRequest 0
  unfold checkPeerCredit
  split
  · exact .refl c
  · dsimp only
    split
    · exact .refl c
    · split <;> rename_i heq <;> rw [heq] at hsend
      · exact hsend.trans (.of_eq rfl)
      · exact hsend

/-- The packets that are left are put back, and `n` bytes are consumed. -/
def finishRead (left : PoppedRxPackets) (n : ℕ) : ConnectionInner :=
  let c := ({ c with call := .idle } : ConnectionInner).undoPopRxPackets left
  { c with
    rxQueue := { c.rxQueue with usedBytes := c.rxQueue.usedBytes - n }
    credit := { c.credit with localFwdCnt := c.credit.localFwdCnt + UInt32.ofNat n } }

end ConnectionInner

/-- All that an event can do to the bytes of a connection. -/
inductive Effect (c : ConnectionInner) (e : ConnEvent) (c' : ConnectionInner) : Prop
  | quiet : e.received c = [] → e.returned c = [] → Quiet c c' → Effect c e c'
  | credited (op : VirtioVsockOp) (p : RxPacket) (mem : Bool) : e.received c = [] →
      e.returned c = [] → e = .packet op p mem → Quiet (c.updatePeerCredit p.header) c' →
        Effect c e c'
  | delivered (p : RxPacket) (mem : Bool) : e.received c = p.payload → e.returned c = [] →
      e = .packet .rw p mem → p.payload ≠ [] →
      c.rxQueue.usedBytes + p.payload.length ≤ defaultRxBufSize →
      c' = { c.updatePeerCredit p.header with rxQueue := { c.rxQueue with
        usedBytes := c.rxQueue.usedBytes + p.payload.length
        packets := c.rxQueue.packets ++ [p.payload] } } → Effect c e c'
  | grabbed (c₁ : ConnectionInner) (popped : PoppedRxPackets) (room : ℕ) (consume : Bool) :
      e.received c = [] → e.returned c = [] → c.call = .idle → 0 < room →
      c.popRxPackets room = (c₁, some popped) →
      c' = { c₁ with call := .receiving popped room consume } → Effect c e c'
  | copied (popped left : PoppedRxPackets) (room : ℕ) (consume : Bool) : e.received c = [] →
      c.call = .receiving popped room consume →
      bytesFrom popped.packets popped.readOffset =
        e.returned c ++ bytesFrom left.packets left.readOffset →
      Readable left.packets left.readOffset →
      Quiet (c.finishRead left (e.returned c).length) c' → Effect c e c'
  | prepared (c₁ : ConnectionInner) (bytes : List UInt8) : e.received c = [] → e.returned c = [] →
      c.call = .idle → Quiet c c₁ → bytes.length ≤ c.peerCredit →
      c' = { c₁ with call := .sending bytes } → Effect c e c'
  | sent (bytes : List UInt8) (payloads : List (List UInt8)) (pending : ℕ) : e.received c = [] →
      e.returned c = [] → c.call = .sending bytes → (payloads.map List.length).sum ≤ bytes.length →
      c' = c.finishSend payloads pending → Effect c e c'
  | abandoned (bytes : List UInt8) : e.received c = [] → e.returned c = [] →
      c.call = .sending bytes → c' = { c with call := .idle } → Effect c e c'

namespace ConnectionInner

variable {c : ConnectionInner}

/-- A packet of the peer only sets the credit, unless it brings bytes. -/
lemma effect_packet (op : VirtioVsockOp) (p : RxPacket) (mem : Bool) :
    Effect c (.packet op p mem) ((ConnEvent.packet op p mem).run c) := by
  cases op with
  | request => exact .quiet rfl rfl (c.quiet_activeRst mem)
  | response =>
    change Effect c _ (c.onResponse p.header mem).1
    unfold onResponse
    split
    · exact .quiet rfl rfl (c.quiet_activeRst mem)
    · exact .credited _ p mem rfl rfl rfl (.of_eq rfl)
  | rst => exact .quiet rfl rfl (c.quiet_doRst false)
  | shutdown => exact .quiet rfl rfl (c.quiet_onShutdown p.header mem)
  | rw =>
    have hreceived : ∀ r, c.onRw p.header p.payload mem = r →
        (ConnEvent.packet .rw p mem).received c = if r.2.isOk then p.payload else [] := by
      rintro r rfl
      rfl
    change Effect c _ (c.onRw p.header p.payload mem).1
    generalize hr : c.onRw p.header p.payload mem = r at hreceived ⊢
    specialize hreceived r rfl
    unfold onRw at hr
    split at hr
    · subst hr
      exact .quiet hreceived rfl (c.quiet_activeRst mem)
    · split at hr
      · subst hr
        exact .quiet hreceived rfl (c.quiet_activeRst mem)
      · next hroom =>
        split at hr
        · next hne =>
          subst hr
          refine .delivered p mem hreceived rfl rfl ?_ (not_lt.mp hroom) rfl
          exact length_pos_iff.mp (pos_of_ne_zero hne)
        · next hzero =>
          subst hr
          have hnil : p.payload = [] := length_eq_zero_iff.mp (not_not.mp hzero)
          exact .credited _ p mem (hreceived.trans hnil) rfl rfl (.refl _)
  | creditUpdate =>
    change Effect c _ (c.onCreditUpdate p.header mem).1
    unfold onCreditUpdate
    split
    · exact .quiet rfl rfl (c.quiet_activeRst mem)
    · exact .credited _ p mem rfl rfl rfl (.of_eq rfl)
  | creditRequest =>
    change Effect c _ (c.onCreditRequest p.header mem).1
    unfold onCreditRequest
    split
    · exact .quiet rfl rfl (c.quiet_activeRst mem)
    · exact .credited _ p mem rfl rfl rfl (quiet_sendPacket ..)

lemma effect_recvBegin (room : ℕ) (consume : Bool) (hidle : c.call = .idle) :
    Effect c (.owner (.recvBegin room consume)) (c.recvBegin room consume).1 := by
  rcases c.recvBegin_cases room consume with ⟨c₁, popped, hroom, hpop, heq⟩ | heq
  · exact .grabbed c₁ popped room consume rfl rfl hidle hroom hpop heq
  · rw [heq]
    exact .quiet rfl rfl c.quiet_testAndClearError

/-- A receive that consumes nothing puts the packets back as they were. -/
lemma quiet_finishRead_zero (popped : PoppedRxPackets) :
    Quiet (c.finishRead popped 0)
        (({ c with call := .idle } : ConnectionInner).undoPopRxPackets popped) := by
  refine .of_eq ?_
  simp only [bytesPart, finishRead, Nat.sub_zero]
  rw [show UInt32.ofNat 0 = 0 from rfl, UInt32.add_zero]

lemma effect_recvEnd (h : c.RxOk) (fault : Option ℕ) (mem : Bool) :
    Effect c (.owner (.recvEnd fault mem)) (c.recvEnd fault mem).1 := by
  have hreturned : ∀ r, (c.recvEnd fault mem).2 = r →
    (ConnEvent.owner (.recvEnd fault mem)).returned c =
      match c.call, r with
      | .receiving _ _ true, .ok written => written
      | _, _ => [] := by
    rintro r rfl
    rfl
  have hheld := h.held
  cases hcall : c.call with
  | idle | sending =>
    have heq : c.recvEnd fault mem = (c, .ok []) := by
      unfold recvEnd
      rw [hcall]
    rw [hcall] at hreturned
    rw [heq]
    exact .quiet rfl (hreturned _ rfl) (.refl c)
  | receiving popped room consume =>
    rw [ConnectionInner.held, hcall] at hheld
    rw [hcall] at hreturned
    -- Nothing is consumed by a peek and by a copy that fails.
    have hback : ∀ c', (ConnEvent.owner (.recvEnd fault mem)).returned c = [] →
        Quiet (c.finishRead popped 0) c' → Effect c (.owner (.recvEnd fault mem)) c' := by
      intro c' hnil hquiet
      refine .copied popped popped room consume rfl hcall (by rw [hnil]; rfl) hheld ?_
      rw [hnil]
      exact hquiet
    unfold recvEnd at hreturned ⊢
    simp only [hcall] at hreturned ⊢
    unfold PoppedRxPackets.copyToUserspace at hreturned ⊢
    cases hcopy : copyPackets popped.packets popped.readOffset room fault with
    | error error =>
      simp only [hcopy, bind, Except.bind] at hreturned ⊢
      cases consume with
      | true => exact hback _ (hreturned _ rfl) (quiet_sendCreditUpdateHeaderIfNeeded _ mem)
      | false => exact hback _ (hreturned _ rfl) (quiet_finishRead_zero popped)
    | ok result =>
      obtain ⟨written, left⟩ := result
      obtain ⟨hbytes, hreadable⟩ := copyPackets_spec hheld hcopy
      simp only [hcopy, bind, Except.bind, pure, Except.pure] at hreturned ⊢
      cases consume with
      | true =>
        have hwritten := hreturned _ rfl
        refine .copied popped left room true rfl hcall (by rw [hwritten]; exact hbytes) hreadable ?_
        rw [hwritten]
        exact quiet_sendCreditUpdateHeaderIfNeeded _ mem
      | false => exact hback _ (hreturned _ rfl) (quiet_finishRead_zero popped)

/-! ### Sending -/

lemma effect_sendBegin (bytes : List UInt8) (builders : ℕ) (mem : Bool) (hidle : c.call = .idle) :
    Effect c (.owner (.sendBegin bytes builders mem)) (c.sendBegin bytes builders mem).1 := by
  have hclear := c.quiet_testAndClearError
  obtain ⟨c₁, hc1, hbegin⟩ := c.sendBegin_cases bytes builders mem
  have hquiet : Quiet c c₁ := by
    rcases hc1 with rfl | rfl
    · exact hclear
    · exact hclear.trans (quiet_checkPeerCredit _ mem)
  rcases hbegin with heq | ⟨n, hn, heq⟩
  · exact .quiet rfl rfl (heq ▸ hquiet)
  · refine .prepared c₁ (bytes.take n) rfl rfl hidle hquiet ?_ heq
    exact (length_take_le n bytes).trans (hclear.peerCredit_eq ▸ hn)

lemma sum_length_copyToSendBuffers (slots : ℕ) (bytes : List UInt8) :
    ((copyToSendBuffers slots bytes).map List.length).sum ≤ bytes.length := by
  induction slots generalizing bytes with
  | zero => exact zero_le
  | succ slots ih =>
    unfold copyToSendBuffers
    split
    · exact zero_le
    · have hrest := ih (bytes.drop maxNbytes)
      rw [length_drop] at hrest
      rw [map_cons, sum_cons, length_take]
      omega

lemma effect_sendEnd (fault : Option ℕ) (pending : ℕ) :
    Effect c (.owner (.sendEnd fault pending)) (c.sendEnd fault pending).1 := by
  rcases c.sendEnd_cases fault pending with heq | ⟨bytes, hcall, heq | heq⟩
  · rw [heq]
    exact .quiet rfl rfl (.refl c)
  · exact .abandoned bytes rfl rfl hcall heq
  · exact .sent bytes _ pending rfl rfl hcall (sum_length_copyToSendBuffers packetPoolSlots bytes)
      heq

/-- Every event does one of these things. -/
lemma effect (h : c.RxOk) (e : ConnEvent) (he : e.Exclusive c) : Effect c e (e.run c) := by
  cases e with
  | packet op p mem => exact effect_packet op p mem
  | reset mem => exact .quiet rfl rfl (c.quiet_activeRst mem)
  | transport => exact .quiet rfl rfl (c.quiet_doRst false)
  | timer generation mem => exact .quiet rfl rfl (c.quiet_onTimeout generation mem)
  | drop generation mem => exact .quiet rfl rfl (c.quiet_drop generation mem)
  | owner op =>
    cases op with
    | shutdown cmd mem => exact .quiet rfl rfl (c.quiet_doShutdown cmd mem)
    | testAndClearError => exact .quiet rfl rfl c.quiet_testAndClearError
    | recvBegin room consume => exact effect_recvBegin room consume he
    | recvEnd fault mem => exact effect_recvEnd h fault mem
    | sendBegin bytes builders mem => exact effect_sendBegin bytes builders mem he
    | sendEnd fault pending => exact effect_sendEnd fault pending
    | pendingSubmit bytes => exact .quiet rfl rfl (.of_eq rfl)

end ConnectionInner

end Asterinas.Vsock
