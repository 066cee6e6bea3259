import Asterinas.Vsock.Space

/-!
# The phases of vsock connections

The invariants that the source documents for the phases: the peer is fully closed except in
`Connected` and `Closing`, this side is fully closed in `Closing`, a timer is armed in `Connecting`
and `Closing`, and a connection that is over has left the table.

The timer is disarmed in the other phases as well, with one exception: `on_shutdown` closes a
connection that is `Closing` and leaves its timer armed.  The invariant has a parameter that says
whether the timers of the other phases are part of it, so that the rest holds in every run.
-/

namespace Asterinas.Vsock

open Framework List Option

namespace Phase

/-- The phases with a deadline. -/
def Timed (p : Phase) : Prop := p = connecting ∨ p = closing

/-- The phases that a connection does not leave. -/
def Over (p : Phase) : Prop := p = connectFailed ∨ p = closed

instance (p : Phase) : Decidable p.Timed := inferInstanceAs (Decidable (_ ∨ _))

instance (p : Phase) : Decidable p.Over := inferInstanceAs (Decidable (_ ∨ _))

/-- The transitions of the phases. -/
inductive Leads : Phase → Phase → Prop
  | stays (p : Phase) : Leads p p
  | refused : Leads connecting connectFailed
  | established : Leads connecting connected
  | dropped : Leads connected closing
  | reset : Leads connected closed
  | finished : Leads closing closed

/-- A connection that is over stays as it is. -/
lemma Leads.eq_of_over {p q : Phase} (h : Leads p q) (hp : p.Over) : q = p := by
  cases h with
  | stays => rfl
  | refused | established | dropped | reset | finished => exact absurd hp (by decide)

end Phase

/-- What the phase of a connection says about its other fields. -/
structure ConnOk (strict : Prop) (c : ConnectionInner) : Prop where
  armed : c.phase.Timed → c.timer ≠ none
  disarmed : strict → ¬ c.phase.Timed → c.timer = none
  peer_open : c.shutdown.peerFullyClosed = false ↔ c.phase = .connected ∨ c.phase = .closing
  local_closed : c.phase = .closing → c.shutdown.localFullyClosed = true

/-- What an event does to a connection. -/
structure Advances (strict : Prop) (c c' : ConnectionInner) : Prop where
  ok : ConnOk strict c'
  leads : c.phase.Leads c'.phase
  connId : c'.connId = c.connId

/-- What a part of a handler leaves alone that is only about credit, bytes and errors. -/
structure Keeps (c c' : ConnectionInner) : Prop where
  connId : c'.connId = c.connId
  phase : c'.phase = c.phase
  shutdown : c'.shutdown = c.shutdown
  timer : c'.timer = c.timer

namespace Keeps

variable {c c' c'' : ConnectionInner}

lemma refl (c : ConnectionInner) : Keeps c c := ⟨rfl, rfl, rfl, rfl⟩

lemma trans (h : Keeps c c') (h' : Keeps c' c'') : Keeps c c'' where
  connId := h'.connId.trans h.connId
  phase := h'.phase.trans h.phase
  shutdown := h'.shutdown.trans h.shutdown
  timer := h'.timer.trans h.timer

/-- What is kept afterwards makes no difference. -/
lemma advances {c₀ : ConnectionInner} {strict : Prop} (h : Keeps c c') (ha : Advances strict c₀ c) :
    Advances strict c₀ c' := by
  refine ⟨?_, h.phase ▸ ha.leads, h.connId.trans ha.connId⟩
  have hok := ha.ok
  constructor
  · rw [h.phase, h.timer]
    exact hok.armed
  · rw [h.phase, h.timer]
    exact hok.disarmed
  · rw [h.phase, h.shutdown]
    exact hok.peer_open
  · rw [h.phase, h.shutdown]
    exact hok.local_closed

end Keeps

lemma ConnOk.advances {c : ConnectionInner} {strict : Prop} (hok : ConnOk strict c) :
    Advances strict c c := ⟨hok, .stays _, rfl⟩

/-- A connection that is over, with nothing left to wait for from the peer. -/
lemma connOk_of_over {strict : Prop} {c : ConnectionInner} (hover : c.phase.Over)
    (hpeer : c.shutdown.peerFullyClosed = true) (htimer : strict → c.timer = none) :
    ConnOk strict c := by
  rcases hover with hp | hp
  all_goals
    exact ⟨by simp [hp, Phase.Timed], fun hstrict _ => htimer hstrict, by simp [hp, hpeer],
      by simp [hp]⟩

namespace ConnectionInner

variable {strict : Prop} (c : ConnectionInner)

/-! ### The parts that keep the phase -/

lemma keeps_sendPacket (mem : Bool) (op : VirtioVsockOp) (flags : UInt32) :
    Keeps c (c.sendPacket mem op flags).1 := by
  cases mem with
  | false => exact .refl c
  | true => exact ⟨rfl, rfl, rfl, rfl⟩

lemma keeps_updatePeerCredit (header : VirtioVsockHdr) : Keeps c (c.updatePeerCredit header) :=
  ⟨rfl, rfl, rfl, rfl⟩

lemma keeps_testAndClearError : Keeps c c.testAndClearError.1 := by
  unfold testAndClearError
  split
  · exact ⟨rfl, rfl, rfl, rfl⟩
  · exact .refl c

lemma keeps_undoPopRxPackets (popped : PoppedRxPackets) : Keeps c (c.undoPopRxPackets popped) := by
  unfold undoPopRxPackets
  split
  · exact .refl c
  · exact ⟨rfl, rfl, rfl, rfl⟩

lemma keeps_sendCreditUpdateHeaderIfNeeded (mem : Bool) :
    Keeps c (c.sendCreditUpdateHeaderIfNeeded mem) := by
  unfold sendCreditUpdateHeaderIfNeeded
  split
  · exact .refl c
  · split
    · exact .refl c
    · exact c.keeps_sendPacket mem .creditUpdate 0

lemma keeps_ungrabPacketsAndFinishRecv (popped : PoppedRxPackets) (recvLen : ℕ) (mem : Bool) :
    Keeps c (c.ungrabPacketsAndFinishRecv popped recvLen mem) := by
  refine (c.keeps_undoPopRxPackets popped).trans
    (.trans ?_ (keeps_sendCreditUpdateHeaderIfNeeded _ mem))
  exact ⟨rfl, rfl, rfl, rfl⟩

lemma keeps_recvBegin (room : ℕ) (consume : Bool) : Keeps c (c.recvBegin room consume).1 := by
  rcases c.recvBegin_cases room consume with ⟨c₁, popped, -, hpop, heq⟩ | heq
  · rw [heq, c.popRxPackets_eq hpop]
    exact ⟨rfl, rfl, rfl, rfl⟩
  · exact heq ▸ c.keeps_testAndClearError

lemma keeps_recvEnd (fault : Option ℕ) (mem : Bool) : Keeps c (c.recvEnd fault mem).1 := by
  have hidle : Keeps c { c with call := .idle } := ⟨rfl, rfl, rfl, rfl⟩
  unfold recvEnd
  split
  · dsimp only
    split
    all_goals
      split
      · exact hidle.trans (keeps_ungrabPacketsAndFinishRecv ..)
      · exact hidle.trans (keeps_undoPopRxPackets ..)
  · exact .refl c

lemma keeps_checkPeerCredit (mem : Bool) : Keeps c (c.checkPeerCredit mem).1 := by
  have hsend := c.keeps_sendPacket mem .creditRequest 0
  unfold checkPeerCredit
  split
  · exact .refl c
  · dsimp only
    split
    · exact .refl c
    · split <;> rename_i heq <;> rw [heq] at hsend
      · exact hsend.trans ⟨rfl, rfl, rfl, rfl⟩
      · exact hsend

lemma keeps_sendBegin (bytes : List UInt8) (builders : ℕ) (mem : Bool) :
    Keeps c (c.sendBegin bytes builders mem).1 := by
  obtain ⟨c₁, hc1, hbegin⟩ := c.sendBegin_cases bytes builders mem
  have hkeeps : Keeps c c₁ := by
    rcases hc1 with rfl | rfl
    · exact c.keeps_testAndClearError
    · exact c.keeps_testAndClearError.trans (keeps_checkPeerCredit _ mem)
  rcases hbegin with heq | ⟨n, -, heq⟩
  · exact heq ▸ hkeeps
  · exact heq ▸ hkeeps.trans ⟨rfl, rfl, rfl, rfl⟩

lemma keeps_sendEnd (fault : Option ℕ) (pending : ℕ) : Keeps c (c.sendEnd fault pending).1 := by
  rcases c.sendEnd_cases fault pending with heq | ⟨bytes, -, heq | heq⟩ <;> rw [heq]
  · exact .refl c
  · exact ⟨rfl, rfl, rfl, rfl⟩
  · obtain ⟨last, hsend⟩ := c.finishSend_eq (copyToSendBuffers packetPoolSlots bytes) pending
    rw [hsend]
    exact ⟨rfl, rfl, rfl, rfl⟩

/-! ### The handlers -/

lemma connOk_new_connected (connId : ConnId) : ConnOk strict (new connId .connected) where
  armed h := absurd h (show ¬ Phase.connected.Timed by decide)
  disarmed _ _ := rfl
  peer_open := ⟨fun _ => .inl rfl, fun _ => rfl⟩
  local_closed h := by cases h

lemma connOk_newConnected (connId : ConnId) (header : VirtioVsockHdr) (mem : Bool) :
    ConnOk strict (newConnected connId header mem) := by
  have hkeeps := ((new connId .connected).keeps_updatePeerCredit header).trans
    (keeps_sendPacket _ mem .response 0)
  exact (hkeeps.advances (connOk_new_connected connId).advances).ok

lemma connOk_newConnecting (connId : ConnId) (generation : ℕ) (mem : Bool) :
    ConnOk strict (newConnecting connId generation mem) := by
  have hkeeps := (new connId .connecting).keeps_sendPacket mem .request 0
  have hphase : (newConnecting connId generation mem).phase = .connecting := hkeeps.phase
  constructor
  · exact fun _ => some_ne_none generation
  · exact fun _ hnot => absurd (.inl hphase) hnot
  · have hclosed : (newConnecting connId generation mem).shutdown.peerFullyClosed = true := by
      rw [show (newConnecting connId generation mem).shutdown = _ from hkeeps.shutdown]
      rfl
    rw [hclosed, hphase]
    simp
  · intro hclosing
    rw [hphase] at hclosing
    cases hclosing

variable {c}

/-- What a handler does to a connection: it advances, is over when it should be removed, and is not
over otherwise, unless it was before. -/
structure Handles (strict : Prop) (c : ConnectionInner) (r : ConnectionInner × Bool) : Prop where
  advances : Advances strict c r.1
  removed : r.2 = true → r.1.phase.Over
  kept : r.2 = false → r.1.phase.Over → c.phase.Over

lemma handles_reset {c' : ConnectionInner} (h : Advances strict c c' ∧ c'.phase.Over) :
    Handles strict c (c', true) where
  advances := h.1
  removed _ := h.2
  kept hfalse := by cases hfalse

/-- A peer that is fully closed has nothing left to close. -/
lemma peerShutdown_eq (header : VirtioVsockHdr) (h : c.shutdown.peerFullyClosed = true) :
    c.peerShutdown header = c.shutdown := by
  rw [ShutdownState.peerFullyClosed, Bool.and_eq_true] at h
  cases hs : c.shutdown with
  | mk localRead localWrite peerRead peerWrite =>
    rw [hs] at h
    obtain ⟨rfl, rfl⟩ := h
    simp only [peerShutdown, hs, Bool.true_or]

lemma doShutdown_spec (cmd : SockShutdownCmd) (mem : Bool) :
    Keeps { c with shutdown := { c.shutdown with
        localReadClosed := c.shutdown.localReadClosed || cmd.shutRead
        localWriteClosed := c.shutdown.localWriteClosed || cmd.shutWrite } }
      (c.doShutdown cmd mem) := by
  unfold doShutdown
  dsimp only
  split
  · exact keeps_sendPacket ..
  · exact .refl _

section Handlers

variable (hok : ConnOk strict c)

include hok

/-- A reset ends the connection. -/
lemma doRst_spec (isActive : Bool) :
    Advances strict c (c.doRst isActive).1 ∧ (c.doRst isActive).1.phase.Over := by
  unfold doRst
  split
  · next hphase =>
    refine ⟨⟨connOk_of_over (.inl rfl) ?_ fun _ => rfl, hphase ▸ .refused, rfl⟩, .inl rfl⟩
    have hpeer := hok.peer_open
    rw [hphase] at hpeer
    simpa using hpeer
  · next hphase =>
    refine ⟨⟨connOk_of_over (.inr rfl) rfl fun hstrict => ?_, hphase ▸ .reset, rfl⟩, .inr rfl⟩
    refine hok.disarmed hstrict ?_
    rw [hphase]
    decide
  · next hphase =>
    exact ⟨⟨connOk_of_over (.inr rfl) rfl fun _ => rfl, hphase ▸ .finished, rfl⟩, .inr rfl⟩
  · next hphase => exact ⟨hok.advances, .inl hphase⟩
  · next hphase => exact ⟨hok.advances, .inr hphase⟩

lemma activeRst_spec (mem : Bool) :
    Advances strict c (c.activeRst mem) ∧ (c.activeRst mem).phase.Over := by
  obtain ⟨hadvances, hover⟩ := doRst_spec hok true
  unfold activeRst
  split
  · have hkeeps := (c.doRst true).1.keeps_sendPacket mem .rst 0
    exact ⟨hkeeps.advances hadvances, hkeeps.phase ▸ hover⟩
  · exact ⟨hadvances, hover⟩

lemma handles_keeps {c' : ConnectionInner} (h : Keeps c c') : Handles strict c (c', false) where
  advances := h.advances hok.advances
  removed htrue := by cases htrue
  kept _ hover := h.phase ▸ hover

section

variable (header : VirtioVsockHdr)

include header

lemma handles_onResponse (mem : Bool) :
    Handles strict c ((c.onResponse header mem).map id fun r => !r.isOk) := by
  unfold onResponse
  split
  · exact handles_reset (activeRst_spec hok mem)
  · next hphase =>
    rw [not_not] at hphase
    refine ⟨⟨⟨?_, fun _ _ => rfl, ?_, ?_⟩, hphase ▸ .established, rfl⟩, ?_, ?_⟩
    · exact fun h => absurd h (show ¬ Phase.connected.Timed by decide)
    · exact ⟨fun _ => .inl rfl, fun _ => rfl⟩
    · exact nofun
    · exact nofun
    · exact fun _ hover => absurd hover (show ¬ Phase.connected.Over by decide)

/-- The peer may complete its shutdown in `Closing` only where the timer is not asked about. -/
lemma handles_onShutdown (mem : Bool)
    (hlate : strict → c.phase = .closing → (c.peerShutdown header).peerFullyClosed = false) :
    Handles strict c (c.onShutdown header mem) := by
  unfold onShutdown
  split
  · exact handles_reset (activeRst_spec hok mem)
  · next hnot =>
    split
    · exact handles_keeps hok (.refl c)
    · next hchange =>
      -- The peer was not fully closed before.
      have hphase : c.phase = .connected ∨ c.phase = .closing := by
        refine hok.peer_open.mp (Bool.eq_false_iff.mpr fun hclosed => hchange ?_)
        exact peerShutdown_eq header hclosed
      split
      · next hfully =>
        refine handles_reset ?_
        have hkeeps :=
          keeps_sendPacket { c with shutdown := c.peerShutdown header, phase := .closed }
          mem .rst 0
        refine ⟨hkeeps.advances ⟨connOk_of_over (.inr rfl) hfully fun hstrict => ?_, ?_, rfl⟩,
          hkeeps.phase ▸ .inr rfl⟩
        · refine hok.disarmed hstrict ?_
          rintro (h | h)
          · exact hnot h
          · rw [hlate hstrict h] at hfully
            cases hfully
        · rcases hphase with hphase | hphase
          · exact hphase ▸ .reset
          · exact hphase ▸ .finished
      · next hfully =>
        refine ⟨⟨⟨hok.armed, hok.disarmed, ?_, hok.local_closed⟩, .stays _, rfl⟩, ?_, fun _ h => h⟩
        · exact ⟨fun _ => hphase, fun _ => Bool.eq_false_iff.mpr hfully⟩
        · exact nofun

lemma handles_onRw (payload : List UInt8) (mem : Bool) :
    Handles strict c ((c.onRw header payload mem).map id fun r => !r.isOk) := by
  unfold onRw
  split
  · exact handles_reset (activeRst_spec hok mem)
  · split
    · exact handles_reset (activeRst_spec hok mem)
    · split
      · exact handles_keeps hok ⟨rfl, rfl, rfl, rfl⟩
      · exact handles_keeps hok (c.keeps_updatePeerCredit header)

lemma handles_onCreditUpdate (mem : Bool) :
    Handles strict c ((c.onCreditUpdate header mem).map id fun r => !r.isOk) := by
  unfold onCreditUpdate
  split
  · exact handles_reset (activeRst_spec hok mem)
  · exact handles_keeps hok ⟨rfl, rfl, rfl, rfl⟩

lemma handles_onCreditRequest (mem : Bool) :
    Handles strict c ((c.onCreditRequest header mem).map id fun r => !r.isOk) := by
  unfold onCreditRequest
  split
  · exact handles_reset (activeRst_spec hok mem)
  · exact handles_keeps hok ((c.keeps_updatePeerCredit header).trans (keeps_sendPacket ..))

end

lemma handles_onTimeout (generation : ℕ) (mem : Bool) :
    Handles strict c (c.onTimeout generation mem) := by
  obtain ⟨hadvances, hover⟩ := activeRst_spec hok mem
  unfold onTimeout
  split
  · exact handles_keeps hok (.refl c)
  · split
    · have hkeeps : Keeps (c.activeRst mem) { c.activeRst mem with
          error := some (.withMessage .etimedout "the connection timed out") } := ⟨rfl, rfl,
            rfl, rfl⟩
      exact handles_reset ⟨hkeeps.advances hadvances, hover⟩
    · exact handles_reset ⟨hadvances, hover⟩

lemma handles_doShutdown (cmd : SockShutdownCmd) (mem : Bool) :
    Handles strict c (c.doShutdown cmd mem, false) := by
  have hspec := @doShutdown_spec c cmd mem
  refine ⟨hspec.advances ⟨⟨hok.armed, hok.disarmed, hok.peer_open, fun h => ?_⟩, .stays _, rfl⟩, ?_,
    ?_⟩
  · have hlocal := hok.local_closed h
    rw [ShutdownState.localFullyClosed, Bool.and_eq_true] at hlocal ⊢
    exact ⟨Bool.or_eq_true_iff.mpr (.inl hlocal.1), Bool.or_eq_true_iff.mpr (.inl hlocal.2)⟩
  · exact nofun
  · exact fun _ hover => hspec.phase ▸ hover

lemma handles_drop (generation : ℕ) (mem : Bool) : Handles strict c (c.drop generation mem) := by
  have hspec := @doShutdown_spec c .shutRdwr mem
  have hclosing (hphase : c.phase = .connected ∨ c.phase = .closing) : Handles strict c
      (({ c.doShutdown .shutRdwr mem with phase := .closing }).armTimeout generation, false) := by
    refine ⟨⟨⟨?_, ?_, ?_, ?_⟩, ?_, hspec.connId⟩, ?_, ?_⟩
    · exact fun _ => some_ne_none generation
    · exact fun _ hnot => absurd (.inr rfl) hnot
    · change (c.doShutdown .shutRdwr mem).shutdown.peerFullyClosed = false ↔ _
      rw [hspec.shutdown]
      exact ⟨fun _ => .inr rfl, fun _ => hok.peer_open.mpr hphase⟩
    · intro _
      change (c.doShutdown .shutRdwr mem).shutdown.localFullyClosed = true
      rw [hspec.shutdown, ShutdownState.localFullyClosed, Bool.and_eq_true]
      exact ⟨Bool.or_true _, Bool.or_true _⟩
    · rcases hphase with hphase | hphase
      · exact hphase ▸ .dropped
      · exact hphase ▸ .stays _
    · exact nofun
    · exact fun _ hover => absurd hover (show ¬ Phase.closing.Over by decide)
  unfold drop
  split
  · exact handles_reset (activeRst_spec hok mem)
  · next hphase => exact hclosing (.inl hphase)
  · next hphase => exact hclosing (.inr hphase)
  all_goals exact handles_keeps hok (.refl c)

end Handlers

end ConnectionInner

namespace VsockSpace

open ConnectionInner

variable {strict : Prop} {c : ConnectionInner}

lemma handles_handlePacket (hok : ConnOk strict c) (op : VirtioVsockOp) (packet : RxPacket)
    (mem : Bool) (hlate : strict → op = .shutdown → c.phase = .closing →
      (c.peerShutdown packet.header).peerFullyClosed = false) :
    Handles strict c (handlePacket c op packet mem) := by
  cases op with
  | request => exact handles_reset (activeRst_spec hok mem)
  | response => exact handles_onResponse hok packet.header mem
  | rst => exact handles_reset (doRst_spec hok false)
  | shutdown => exact handles_onShutdown hok packet.header mem fun hstrict => hlate hstrict rfl
  | rw => exact handles_onRw hok packet.header packet.payload mem
  | creditUpdate => exact handles_onCreditUpdate hok packet.header mem
  | creditRequest => exact handles_onCreditRequest hok packet.header mem

lemma handles_ownerOp (hok : ConnOk strict c) (op : OwnerOp) :
    Handles strict c (op.run c, false) := by
  cases op with
  | shutdown cmd mem => exact handles_doShutdown hok cmd mem
  | testAndClearError => exact handles_keeps hok c.keeps_testAndClearError
  | recvBegin room consume => exact handles_keeps hok (c.keeps_recvBegin room consume)
  | recvEnd fault mem => exact handles_keeps hok (c.keeps_recvEnd fault mem)
  | sendBegin bytes builders mem => exact handles_keeps hok (c.keeps_sendBegin bytes builders mem)
  | sendEnd fault pending => exact handles_keeps hok (c.keeps_sendEnd fault pending)
  | pendingSubmit bytes => exact handles_keeps hok ⟨rfl, rfl, rfl, rfl⟩

/-! ### The table -/

/-- The connections are as their phases say, and those in the table are not over, unless the drop
that has reset them is about to remove them. -/
structure SpaceOk (strict : Prop) (s : VsockSpace) : Prop where
  conn : ∀ {k : ℕ} {c : ConnectionInner}, s.conns[k]? = some c → ConnOk strict c
  table : ∀ {id : ConnId} {k : ℕ}, s.connections.get? id = some k →
    ∃ c, s.conns[k]? = some c ∧ c.connId = id ∧ (c.phase.Over → k ∈ s.removing)

/-- The phases of the connections have moved along the transitions. -/
def Moves (s s' : VsockSpace) : Prop :=
  ∀ (k : ℕ) (c : ConnectionInner), s.conns[k]? = some c → ∃ c', s'.conns[k]? = some c' ∧
    c.phase.Leads c'.phase

variable {s s' : VsockSpace} {k : ℕ} {c' : ConnectionInner} {id : ConnId}

lemma getElem?_setConn (hk : s.conns[k]? = some c) (k' : ℕ) :
    (s.setConn k c').conns[k']? = if k' = k then some c' else s.conns[k']? := by
  have hlt := (List.getElem?_eq_some_iff.mp hk).1
  rw [setConn, List.getElem?_set]
  by_cases heq : k' = k
  · subst heq
    rw [if_pos rfl, if_pos hlt, if_pos rfl]
  · rw [if_neg fun h => heq h.symm, if_neg heq]

/-- What holds of a connection and its replacement, and of any other and itself. -/
lemma exists_setConn {P : ConnectionInner → ConnectionInner → Prop} (hk : s.conns[k]? = some c)
    (h : P c c') (hrefl : ∀ c, P c c) (k' : ℕ) (c₀ : ConnectionInner)
    (hk' : s.conns[k']? = some c₀) :
    ∃ c₁, (s.setConn k c').conns[k']? = some c₁ ∧ P c₀ c₁ := by
  rw [getElem?_setConn hk]
  by_cases heq : k' = k
  · subst heq
    rw [hk] at hk'
    cases hk'
    exact ⟨c', if_pos rfl, h⟩
  · exact ⟨c₀, by rw [if_neg heq, hk'], hrefl c₀⟩

lemma moves_setConn (hk : s.conns[k]? = some c) (h : c.phase.Leads c'.phase) :
    Moves s (s.setConn k c') := exists_setConn hk h fun _ => .stays _

lemma moves_refl (h : s'.conns = s.conns) : Moves s s' := by
  intro k c hk
  exact ⟨c, h ▸ hk, .stays _⟩

lemma get?_of_erase {id' : ConnId} {m : OrderedMap ConnId ℕ} (h : (m.erase id).get? id' = some k) :
    id' ≠ id ∧ m.get? id' = some k := by
  rw [OrderedMap.get?_erase] at h
  split at h
  · cases h
  · next hne => exact ⟨hne, h⟩

/-- The invariant holds afterwards, and the phases have moved along the transitions. -/
def Evolves (strict : Prop) (s s' : VsockSpace) : Prop := SpaceOk strict s' ∧ Moves s s'

/-- No packet of the peer completes its shutdown while the connection is closing. -/
def NoLateShutdown (s : VsockSpace) : Event → Prop
  | .rx packet _ => ∀ k c, s.connections.get? (.fromIncomingHeader packet.header) = some k →
      s.conns[k]? = some c → c.phase = .closing → s.validOp packet = some .shutdown →
      (c.peerShutdown packet.header).peerFullyClosed = false
  | _ => True

section Events

variable (h : SpaceOk strict s)

include h

lemma SpaceOk.evolves : Evolves strict s s := ⟨h, moves_refl rfl⟩

section

variable (hk : s.conns[k]? = some c)

include hk

/-- A connection changes, and its entry goes away where it is over. -/
lemma SpaceOk.setConn (ha : Advances strict c c') {connections : OrderedMap ConnId ℕ}
    (hsub : ∀ {id k'}, connections.get? id = some k' → s.connections.get? id = some k')
    (hover : c'.phase.Over → ¬ c.phase.Over → k ∈ s.removing ∨ ∀ id, connections.get? id ≠ some k) :
    SpaceOk strict { s.setConn k c' with connections := connections } := by
  refine ⟨fun {k' c₀} hk' => ?_, fun {id k'} hid => ?_⟩
  · change (s.setConn k c').conns[k']? = some c₀ at hk'
    rw [getElem?_setConn hk] at hk'
    split at hk'
    · cases hk'
      exact ha.ok
    · exact h.conn hk'
  · obtain ⟨c₀, hc0, hid0, hremoving⟩ := h.table (hsub hid)
    by_cases heq : k' = k
    · subst heq
      rw [hk] at hc0
      cases hc0
      refine ⟨c', (getElem?_setConn hk k').trans (if_pos rfl), ha.connId.trans hid0, fun hnow => ?_⟩
      by_cases hbefore : c.phase.Over
      · exact hremoving hbefore
      · exact (hover hnow hbefore).resolve_right fun hnone => hnone id hid
    · exact ⟨c₀, (getElem?_setConn hk k').trans ((if_neg heq).trans hc0), hid0, hremoving⟩

/-- No other entry leads to the connection of an entry. -/
lemma SpaceOk.erase_ne (hc : c.connId = id)
    (id' : ConnId) : (s.connections.erase id).get? id' ≠ some k := by
  intro hid'
  obtain ⟨hne, hid'⟩ := get?_of_erase hid'
  obtain ⟨c₀, hc0, rfl, -⟩ := h.table hid'
  rw [hk] at hc0
  cases hc0
  exact hne hc

lemma SpaceOk.setConn_removeEntry (hc : c.connId = id) (ha : Advances strict c c') :
    Evolves strict s ((s.setConn k c').removeEntry id) := by
  refine ⟨h.setConn hk ha (fun hid => (get?_of_erase hid).2) fun _ _ => .inr (h.erase_ne hk hc), ?_⟩
  exact moves_setConn hk ha.leads

/-- A handler leaves the connection where it is. -/
lemma SpaceOk.setConn_kept (hr : Handles strict c (c', false)) :
    Evolves strict s (s.setConn k c') :=
  ⟨h.setConn hk hr.advances (fun hid => hid) fun hover hnot => absurd (hr.kept rfl hover) hnot,
    moves_setConn hk hr.advances.leads⟩

/-- A handler runs for the connection of an entry. -/
lemma SpaceOk.handles {r : ConnectionInner × Bool} (hc : c.connId = id) (hr : Handles strict c r) :
    Evolves strict s (if r.2 then (s.setConn k r.1).removeEntry id else s.setConn k r.1) := by
  obtain ⟨c', _ | _⟩ := r
  · exact h.setConn_kept hk hr
  · exact h.setConn_removeEntry hk hc hr.advances

end

/-! ### The events -/

lemma SpaceOk.addConnection (hok : ConnOk strict c) (hlive : ¬ c.phase.Over) :
    Evolves strict s (s.addConnection c) := by
  have hold : ∀ {k : ℕ} {c₀ : ConnectionInner}, s.conns[k]? = some c₀ →
      (s.addConnection c).conns[k]? = some c₀ := by
    intro k c₀ hk
    exact (List.getElem?_append_left (List.getElem?_eq_some_iff.mp hk).1).trans hk
  refine ⟨⟨fun {k c₀} hk => ?_, fun {id k} hid => ?_⟩, fun k c₀ hk => ⟨c₀, hold hk, .stays _⟩⟩
  · change (s.conns ++ [c])[k]? = some c₀ at hk
    rw [List.getElem?_append] at hk
    split at hk
    · exact h.conn hk
    · obtain rfl := mem_singleton.mp (mem_of_getElem? hk)
      exact hok
  · change (s.connections.insert c.connId s.conns.length).get? id = some k at hid
    rw [OrderedMap.get?_insert] at hid
    split at hid
    · next heq =>
      cases hid
      refine ⟨c, ?_, heq.symm, fun hover => absurd hover hlive⟩
      exact getElem?_concat_length
    · obtain ⟨c₀, hc0, hid0, hremoving⟩ := h.table hid
      exact ⟨c₀, hold hc0, hid0, hremoving⟩

lemma SpaceOk.newConnection (port remoteCid remotePort : ℕ) (mem : Bool) :
    SpaceOk strict (s.newConnection port remoteCid remotePort mem).1 ∧
      Moves s (s.newConnection port remoteCid remotePort mem).1 := by
  unfold VsockSpace.newConnection
  dsimp only
  split
  · exact h.evolves
  · have hok :
      ConnOk strict (newConnecting ⟨s.guestCid, remoteCid, port, remotePort⟩ s.nextGeneration
        mem) := connOk_newConnecting ..
    have hphase :
      (newConnecting ⟨s.guestCid, remoteCid, port, remotePort⟩ s.nextGeneration mem).phase =
        .connecting := (keeps_sendPacket _ mem .request 0).phase
    obtain ⟨hspace, hmoves⟩ := h.addConnection hok (hphase ▸ by decide)
    exact ⟨⟨hspace.conn, hspace.table⟩, hmoves⟩

lemma SpaceOk.processRxWithListener (packet : RxPacket) (mem : Bool) :
    Evolves strict s (s.processRxWithListener packet mem) := by
  unfold VsockSpace.processRxWithListener
  split
  · exact h.evolves
  · split
    · split
      · exact h.evolves
      · have hphase : (newConnected (.fromIncomingHeader packet.header) packet.header mem).phase =
            .connected := (keeps_sendPacket _ mem .response 0).phase
        obtain ⟨hspace, hmoves⟩ := h.addConnection
          (connOk_newConnected (.fromIncomingHeader packet.header) packet.header mem)
          (hphase ▸ by decide)
        exact ⟨⟨hspace.conn, hspace.table⟩, hmoves⟩
    · exact h.evolves

lemma SpaceOk.processRxPacket (packet : RxPacket) (mem : Bool)
    (hlate : strict → NoLateShutdown s (.rx packet mem)) :
    Evolves strict s (s.processRxPacket packet mem) := by
  unfold VsockSpace.processRxPacket
  dsimp only
  split
  · next k hid =>
    obtain ⟨c, hk, hc, -⟩ := h.table hid
    unfold VsockSpace.processRxWithConnection
    simp only [hk]
    split
    · next op hop =>
      refine h.handles hk hc (handles_handlePacket (h.conn hk) op packet mem ?_)
      rintro hstrict rfl hclosing
      exact hlate hstrict k c hid hk hclosing hop
    · exact h.setConn_removeEntry hk hc (activeRst_spec (h.conn hk) mem).1
  · exact h.processRxWithListener packet mem

lemma SpaceOk.processTimerEvent (id : ConnId) (generation : ℕ) (mem : Bool) :
    Evolves strict s (s.processTimerEvent id generation mem) := by
  unfold VsockSpace.processTimerEvent
  split
  · next k hid =>
    obtain ⟨c, hk, hc, -⟩ := h.table hid
    simp only [hk]
    exact h.handles hk hc (handles_onTimeout (h.conn hk) generation mem)
  · exact h.evolves

lemma SpaceOk.ownerStep (k : ℕ) (op : OwnerOp) : Evolves strict s (s.ownerStep k op) := by
  unfold VsockSpace.ownerStep
  split
  · next c hk => exact h.setConn_kept hk (handles_ownerOp (h.conn hk) op)
  · exact h.evolves

lemma SpaceOk.dropConnection (k : ℕ) (mem : Bool) : Evolves strict s (s.dropConnection k mem) := by
  unfold VsockSpace.dropConnection
  split
  · next c hk =>
    have hr := handles_drop (h.conn hk) s.nextGeneration mem
    have hmoves := moves_setConn hk hr.advances.leads
    generalize c.drop s.nextGeneration mem = r at hr hmoves ⊢
    obtain ⟨c', removes⟩ := r
    cases removes with
    | true =>
      have h1 : SpaceOk strict { s with removing := k :: s.removing } := by
        refine ⟨h.conn, fun hid => ?_⟩
        obtain ⟨c₀, hc0, hid0, hremoving⟩ := h.table hid
        exact ⟨c₀, hc0, hid0, fun hover => mem_cons_of_mem k (hremoving hover)⟩
      have h2 := h1.setConn hk hr.advances (fun hid => hid) fun _ _ => .inl mem_cons_self
      exact ⟨⟨h2.conn, h2.table⟩, hmoves⟩
    | false =>
      obtain ⟨h2, -⟩ := h.setConn_kept hk hr
      exact ⟨⟨h2.conn, h2.table⟩, hmoves⟩
  · exact h.evolves

lemma SpaceOk.removeConnection (k : ℕ) : Evolves strict s (s.removeConnection k) := by
  -- No entry is left that leads to the connection.
  have hrest : ∀ {connections : OrderedMap ConnId ℕ},
      (∀ {id k'}, connections.get? id = some k' → s.connections.get? id = some k') →
      (∀ id, connections.get? id ≠ some k) →
      SpaceOk strict { s with removing := s.removing.erase k, connections := connections } := by
    intro connections hsub hnone
    refine ⟨h.conn, fun {id k'} hid => ?_⟩
    obtain ⟨c₀, hc0, hid0, hremoving⟩ := h.table (hsub hid)
    refine ⟨c₀, hc0, hid0, fun hover => (mem_erase_of_ne ?_).mpr (hremoving hover)⟩
    rintro rfl
    exact hnone id hid
  have hentry : ∀ id, s.connections.get? id = some k → ∃ c, s.conns[k]? = some c ∧ c.connId =
      id := by
    intro id hid
    obtain ⟨c, hc, hid0, -⟩ := h.table hid
    exact ⟨c, hc, hid0⟩
  unfold VsockSpace.removeConnection
  dsimp only
  split
  · next c hk =>
    split
    · exact ⟨hrest (fun hid => (get?_of_erase hid).2) (h.erase_ne hk rfl), moves_refl rfl⟩
    · next hnot =>
      refine ⟨hrest (fun hid => hid) fun id hid => hnot ?_, moves_refl rfl⟩
      obtain ⟨c₀, hc0, rfl⟩ := hentry id hid
      rw [hk] at hc0
      rwa [some.inj hc0]
  · next hnone =>
    refine ⟨hrest (fun hid => hid) fun id hid => ?_, moves_refl rfl⟩
    obtain ⟨c₀, hc0, -⟩ := hentry id hid
    rw [hnone] at hc0
    cases hc0

end Events

/-- Some connections are reset, each once or more often. -/
def Resets (conns conns' : List ConnectionInner) : Prop :=
  ∀ (k : ℕ) (c : ConnectionInner), conns[k]? = some c →
    ∃ c', conns'[k]? = some c' ∧ (c' = c ∨ c.phase.Leads c'.phase ∧ c'.phase.Over)

section Resets

variable {conns conns' conns'' : List ConnectionInner}

lemma Resets.moves (h : Resets s.conns s'.conns) : Moves s s' := by
  intro k c hk
  obtain ⟨c', hk', rfl | ⟨hleads, -⟩⟩ := h k c hk
  · exact ⟨c', hk', .stays _⟩
  · exact ⟨c', hk', hleads⟩

lemma Resets.trans (h : Resets conns conns') (h' : Resets conns' conns'') :
    Resets conns conns'' := by
  intro k c hk
  obtain ⟨c', hk', hc'⟩ := h k c hk
  obtain ⟨c'', hk'', rfl | ⟨hleads, hover⟩⟩ := h' k c' hk'
  · exact ⟨c'', hk'', hc'⟩
  · refine ⟨c'', hk'', ?_⟩
    rcases hc' with rfl | ⟨hfirst, hover'⟩
    · exact .inr ⟨hleads, hover⟩
    · rw [hleads.eq_of_over hover']
      exact .inr ⟨hfirst, hover'⟩

lemma Resets.refl (conns : List ConnectionInner) : Resets conns conns :=
  fun _ c hk => ⟨c, hk, .inl rfl⟩

end Resets

lemma resets_setConn (hk : s.conns[k]? = some c) (h : c.phase.Leads c'.phase)
    (hover : c'.phase.Over) : Resets s.conns (s.setConn k c').conns :=
  exists_setConn (P := fun c c' => c' = c ∨ c.phase.Leads c'.phase ∧ c'.phase.Over) hk
    (.inr ⟨h, hover⟩) fun _ => .inl rfl

lemma SpaceOk.resetIncoming (h : SpaceOk strict s) (mem : Bool) (k : ℕ) :
    SpaceOk strict (s.resetIncoming mem k) ∧ Resets s.conns (s.resetIncoming mem k).conns := by
  unfold VsockSpace.resetIncoming
  split
  · next c hk =>
    split
    · obtain ⟨hadvances, hover⟩ := activeRst_spec (h.conn hk) mem
      exact ⟨(h.setConn_removeEntry hk rfl hadvances).1, resets_setConn hk hadvances.leads hover⟩
    · exact ⟨h, Resets.refl _⟩
  · exact ⟨h, Resets.refl _⟩

lemma SpaceOk.resetIncomingAll (h : SpaceOk strict s) (mem : Bool) (ks : List ℕ) :
    SpaceOk strict (ks.foldl (VsockSpace.resetIncoming mem) s) ∧
      Resets s.conns (ks.foldl (VsockSpace.resetIncoming mem) s).conns := by
  induction ks generalizing s with
  | nil => exact ⟨h, Resets.refl _⟩
  | cons k ks ih =>
    obtain ⟨h1, hresets⟩ := h.resetIncoming mem k
    obtain ⟨h2, hrest⟩ := ih h1
    exact ⟨h2, hresets.trans hrest⟩

lemma SpaceOk.removeListener (h : SpaceOk strict s) (port : ℕ) (mem : Bool) :
    Evolves strict s (s.removeListener port mem) := by
  unfold VsockSpace.removeListener
  split
  · next listener _ =>
    have h1 : SpaceOk strict { s with listeners := s.listeners.erase port } := ⟨h.conn, h.table⟩
    obtain ⟨h2, hresets⟩ := h1.resetIncomingAll mem listener.incomingConns
    exact ⟨h2, hresets.moves⟩
  · exact h.evolves

lemma getElem?_resetEntry (conns : List ConnectionInner) (k k' : ℕ) :
    (resetEntry conns k)[k']? = if k = k' then conns[k']?.map onRst else conns[k']? := by
  rw [resetEntry, getElem?_modify]
  split
  · rfl
  · exact map_id'

/-- The connections whose entries are taken out are reset. -/
lemma resetEntry_spec (ks : List ℕ) {conns : List ConnectionInner}
    (hok : ∀ {k : ℕ} {c : ConnectionInner}, conns[k]? = some c → ConnOk strict c) :
    (∀ {k : ℕ} {c : ConnectionInner}, (ks.foldl resetEntry conns)[k]? = some c → ConnOk strict c) ∧
      Resets conns (ks.foldl resetEntry conns) := by
  induction ks generalizing conns with
  | nil => exact ⟨hok, .refl _⟩
  | cons k ks ih =>
    have hfirst : ∀ {k' : ℕ} {c : ConnectionInner}, (resetEntry conns k)[k']? = some c →
        ConnOk strict c := by
      intro k' c hk'
      rw [getElem?_resetEntry] at hk'
      split at hk'
      · obtain ⟨c₀, hc0, rfl⟩ := map_eq_some_iff.mp hk'
        exact (doRst_spec (hok hc0) false).1.ok
      · exact hok hk'
    have hresets : Resets conns (resetEntry conns k) := by
      intro k' c hk'
      obtain ⟨hadvances, hover⟩ := doRst_spec (hok hk') false
      rw [getElem?_resetEntry, hk']
      by_cases heq : k = k'
      · exact ⟨c.onRst, if_pos heq, .inr ⟨hadvances.leads, hover⟩⟩
      · exact ⟨c, if_neg heq, .inl rfl⟩
    obtain ⟨hrest, hrestResets⟩ := ih hfirst
    exact ⟨hrest, hresets.trans hrestResets⟩

lemma SpaceOk.processTransportEvent (h : SpaceOk strict s) (guestCid : ℕ) :
    Evolves strict s (s.processTransportEvent guestCid) := by
  obtain ⟨hok, hresets⟩ := resetEntry_spec s.connections.values h.conn
  exact ⟨⟨hok, fun hid => by cases hid⟩, Resets.moves hresets⟩

/-- What every event preserves, and how it moves the phases. -/
lemma SpaceOk.step (h : SpaceOk strict s) (e : Event) (hlate : strict → NoLateShutdown s e) :
    Evolves strict s (s.step e) := by
  cases e with
  | connect port remoteCid remotePort mem => exact h.newConnection port remoteCid remotePort mem
  | listen port backlog =>
    unfold VsockSpace.step newListener
    dsimp only
    split
    · exact h.evolves
    · exact ⟨⟨h.conn, h.table⟩, moves_refl rfl⟩
  | setBacklog port backlog =>
    unfold VsockSpace.step setBacklog
    dsimp only
    split
    · exact ⟨⟨h.conn, h.table⟩, moves_refl rfl⟩
    · exact h.evolves
  | accept port =>
    unfold VsockSpace.step tryAccept
    dsimp only
    split
    · exact ⟨⟨h.conn, h.table⟩, moves_refl rfl⟩
    · exact h.evolves
  | closeListener port mem => exact h.removeListener port mem
  | rx packet mem => exact h.processRxPacket packet mem hlate
  | transport guestCid => exact h.processTransportEvent guestCid
  | timer id generation mem => exact h.processTimerEvent id generation mem
  | owner k op => exact h.ownerStep k op
  | drop k mem => exact h.dropConnection k mem
  | remove k =>
    unfold VsockSpace.step
    dsimp only
    split
    · exact h.removeConnection k
    · exact h.evolves

lemma Reached.spaceOk {P : VsockSpace → Event → Prop}
    (hP : ∀ s e, P s e → strict → NoLateShutdown s e) (h : Reached P s) : SpaceOk strict s := by
  induction h with
  | new guestCid => exact ⟨fun hk => (by cases hk), fun hid => (by cases hid)⟩
  | step e _ he ih => exact (ih.step e (hP _ e he)).1

/-- In every run a timer is armed in `Connecting` and `Closing`, the peer is fully closed in the
phases in which it should be and in no other, this side is fully closed in `Closing`, a connection
that is over is in the table only until the drop that has reset it removes it, and every event moves
the phases along the transitions.  In the runs in which no peer completes its shutdown while the
connection is closing, no timer is armed in the other phases. -/
theorem vsock_connection_invariants (s : VsockSpace) :
    (Reached (fun _ _ => True) s →
      (∀ c ∈ s.conns, (c.phase = .connecting ∨ c.phase = .closing → c.timer ≠ none) ∧
        (c.phase = .connecting ∨ c.phase = .connectFailed ∨ c.phase = .closed →
          c.shutdown.peerFullyClosed = true) ∧
        (c.phase = .connected ∨ c.phase = .closing → c.shutdown.peerFullyClosed = false) ∧
        (c.phase = .closing → c.shutdown.localFullyClosed = true)) ∧
      (∀ id k c, s.connections.get? id = some k → s.conns[k]? = some c →
        c.phase = .connectFailed ∨ c.phase = .closed → k ∈ s.removing) ∧
      ∀ (e : Event) (k : ℕ) c, s.conns[k]? = some c →
        ∃ c', (s.step e).conns[k]? = some c' ∧ c.phase.Leads c'.phase) ∧
    (Reached NoLateShutdown s → ∀ c ∈ s.conns,
      (c.timer ≠ none ↔ c.phase = .connecting ∨ c.phase = .closing)) := by
  refine ⟨fun h => ?_, fun h c hc => ?_⟩
  · have hok : SpaceOk False s := h.spaceOk fun _ _ _ hfalse => hfalse.elim
    refine ⟨fun c hc => ?_, fun id k c hid hk hover => ?_, fun e k c hk => ?_⟩
    · obtain ⟨k, hk⟩ := mem_iff_getElem?.mp hc
      have hconn := hok.conn hk
      refine ⟨hconn.armed, fun hphase => ?_, hconn.peer_open.mpr, hconn.local_closed⟩
      by_contra hnot
      rcases hconn.peer_open.mp (Bool.not_eq_true _ ▸ hnot) with hp | hp <;> simp [hp] at hphase
    · obtain ⟨c₀, hc0, -, hremoving⟩ := hok.table hid
      rw [hk] at hc0
      cases hc0
      exact hremoving hover
    · exact (hok.step e fun hfalse => hfalse.elim).2 k c hk
  · have hok : SpaceOk True s := h.spaceOk fun _ _ he _ => he
    obtain ⟨k, hk⟩ := mem_iff_getElem?.mp hc
    have hconn := hok.conn hk
    refine ⟨fun htimer => ?_, hconn.armed⟩
    by_contra hnot
    exact htimer (hconn.disarmed trivial hnot)

/-- A packet from port 9 of the host to port 5 of the guest, which has the CID 3. -/
def packetOf (op : VirtioVsockOp) (flags : UInt32) : RxPacket :=
  ⟨⟨2, 3, 9, 5, 0, streamType, op.code, flags, 1024, 0⟩, []⟩

/-- A connection is accepted and dropped, and then the peer answers. -/
def droppedThen (packet : RxPacket) : VsockSpace :=
  (((((new 3).step (.listen 5 0)).step (.rx (packetOf .request 0) true)).step (.accept 5)).step
    (.drop 0 true)).step (.rx packet true)

/-- The peer resets the connection, and its timer is disarmed. -/
theorem vsock_connection_invariants_of_reset :
    Reached NoLateShutdown (droppedThen (packetOf .rst 0)) ∧
      ∃ c ∈ (droppedThen (packetOf .rst 0)).conns, c.phase = .closed ∧ c.timer = none := by
  have hreached : Reached NoLateShutdown (droppedThen (packetOf .rst 0)) := by
    refine .step _ (.step _ (.step _ (.step _ (.step _ (.new 3) trivial) ?_) trivial) trivial) ?_
    all_goals
      intro k c _ _ _ hop
      exact absurd hop (by decide)
  obtain ⟨c, hc, hphase⟩ : ∃ c ∈ (droppedThen (packetOf .rst 0)).conns, c.phase =
    .closed := by decide
  refine ⟨hreached, c, hc, hphase, ?_⟩
  by_contra htimer
  have htimed := ((vsock_connection_invariants _).2 hreached c hc).mp htimer
  rw [hphase] at htimed
  exact absurd htimed (by decide)

/-- The peer shuts both directions down, and the timer of the closed connection is still armed. -/
theorem vsock_late_shutdown_keeps_timer :
    ∃ c ∈ (droppedThen (packetOf .shutdown 3)).conns, c.phase = .closed ∧ c.timer = some 0 := by
  decide

end VsockSpace

end Asterinas.Vsock
