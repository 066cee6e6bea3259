import Asterinas.Vsock.StreamCorrectness

/-!
# Credit of both directions

The peer may send as long as what it has sent is at most the receive buffer ahead of a forward count
that it has seen; since the counts that were reported are at most the consumed bytes, what it sends
fits.  This side sends what fits into the buffer of the peer, counted from a forward count that it
has seen; since that count is at most what the peer has forwarded, the peer is never sent too much.
-/

namespace Asterinas.Vsock

open List

lemma ConnEvent.length_received_le (c : ConnectionInner) (e : ConnEvent) :
    (e.received c).length ≤ e.peerBytes := by
  cases e with
  | packet op p mem =>
    cases op with
    | rw =>
      change (if (c.onRw p.header p.payload mem).2.isOk then p.payload else []).length ≤ _
      split
      · exact le_rfl
      · exact zero_le
    | _ => exact le_rfl
  | _ => exact le_rfl

namespace Traced

open ConnectionInner

variable {t : Traced}

/-! ### The credit of the peer -/

/-- What the peer has sent is bounded by the last count that it has seen. -/
structure CreditOk (t : Traced) : Prop where
  received : t.received.length ≤ t.peerSent
  seen : t.seen ≤ t.conn.tx.length
  peer : match (t.reported.take t.seen).getLast? with
    | some f => t.peerSent ≤ f + defaultRxBufSize
    | none => t.peerSent = 0

lemma ReportsOk.length (h : t.ReportsOk) : t.reported.length = t.conn.tx.length := by
  have hlen := congrArg List.length h.tx
  rw [length_map, length_map] at hlen
  exact hlen.symm

/-- The last packet that the peer has seen. -/
lemma ReportsOk.getLast? (h : t.ReportsOk) :
    (t.conn.tx.take t.seen).getLast?.map (fun q => (q.header.fwdCnt, q.header.bufAlloc)) =
      (t.reported.take t.seen).getLast?.map fun f =>
        (UInt32.ofNat f, UInt32.ofNat defaultRxBufSize) := by
  rw [← getLast?_map, ← getLast?_map, map_take, map_take, h.tx]

section

variable {p : RxPacket} {mem : Bool} {forwarded : ℕ}
    (he : t.RespectsCredit (.conn (.packet .rw p mem) forwarded))
    (hb : t.BytesOk) (hr : t.ReportsOk) (hc : t.CreditOk)

include he hb hr hc

/-- A peer that counts with the last packet it has seen keeps to the count itself. -/
lemma RespectsCredit.peerSent_le :
    match (t.reported.take t.seen).getLast? with
    | some f => t.peerSent + p.payload.length ≤ f + defaultRxBufSize
    | none => p.payload = [] := by
  have hpeer := hc.peer
  have hlast := hr.getLast?
  have hcredit := he.2 p mem forwarded rfl
  cases hf : (t.reported.take t.seen).getLast? with
  | none =>
    rw [hf, Option.map_none, Option.map_eq_none_iff] at hlast
    rw [hlast] at hcredit
    exact hcredit
  | some f =>
    rw [hf] at hpeer hlast
    obtain ⟨q, hq, hreport⟩ := Option.map_eq_some_iff.mp hlast
    obtain ⟨hfwd, hbuf⟩ := Prod.mk.inj hreport
    simp only [hq, hfwd, hbuf, toNat_defaultRxBufSize] at hcredit
    have hmem : f ∈ t.reported := mem_of_mem_take (mem_of_getLast? hf)
    have hle : f ≤ t.peerSent := by
      have hsplit := congrArg length hb.split
      rw [length_append] at hsplit
      have hreturned := hr.le f hmem
      have hreceived := hc.received
      omega
    have hsize : t.peerSent - f < 2 ^ 32 := by
      simp only [defaultRxBufSize] at hpeer
      omega
    rw [toNat_ofNat_sub hle hsize] at hcredit
    omega

/-- Bytes of a peer that respects its credit fit into the queue. -/
lemma RespectsCredit.room : t.conn.rxQueue.usedBytes + p.payload.length ≤ defaultRxBufSize := by
  have hsent := he.peerSent_le hb hr hc
  split at hsent
  · next f hf =>
    have hmem : f ∈ t.reported := mem_of_mem_take (mem_of_getLast? hf)
    have hreturned := hr.le f hmem
    have hsplit := congrArg length hb.split
    rw [length_append, ← hb.rx.used] at hsplit
    have hreceived := hc.received
    omega
  · rw [hsent]
    exact hb.rx.bounded

end

lemma CreditOk.conn {e : ConnEvent} (hc : t.CreditOk) (hb : t.BytesOk) (hr : t.ReportsOk)
    {forwarded : ℕ} (he : t.RespectsCredit (.conn e forwarded)) :
    CreditOk (t.step (.conn e forwarded)) := by
  obtain ⟨new, hnew, -⟩ := effect_tx (effect hb.rx e he.1)
  have hseen : t.seen ≤ t.reported.length := hr.length ▸ hc.seen
  refine ⟨?_, ?_, ?_⟩
  · change (t.received ++ e.received t.conn).length ≤ t.peerSent + e.peerBytes
    rw [length_append]
    exact add_le_add hc.received (ConnEvent.length_received_le t.conn e)
  · change t.seen ≤ (e.run t.conn).tx.length
    rw [hnew, length_append]
    exact hc.seen.trans le_self_add
  · change match ((t.reported ++ _).take t.seen).getLast? with
      | some f => t.peerSent + e.peerBytes ≤ f + defaultRxBufSize
      | none => t.peerSent + e.peerBytes = 0
    rw [take_append_of_le_length hseen]
    have hpeer := hc.peer
    by_cases hrw : ∃ p mem, e = .packet .rw p mem
    · obtain ⟨p, mem, rfl⟩ := hrw
      have hsent := he.peerSent_le hb hr hc
      split at hsent
      · exact hsent
      · next hnone =>
        rw [hnone] at hpeer
        rw [hpeer, ConnEvent.peerBytes, hsent]
        rfl
    · have hzero : e.peerBytes = 0 := by
        unfold ConnEvent.peerBytes
        split
        · exact absurd ⟨_, _, rfl⟩ hrw
        · rfl
      rw [hzero, add_zero]
      exact hpeer

lemma CreditOk.peerSees {n : ℕ} (hc : t.CreditOk) (hr : t.ReportsOk)
    (hn : t.Ordered (.peerSees n)) : CreditOk (t.step (.peerSees n)) := by
  refine ⟨hc.received, hn.2, ?_⟩
  have hpeer := hc.peer
  change match (t.reported.take n).getLast? with
    | some f => t.peerSent ≤ f + defaultRxBufSize
    | none => t.peerSent = 0
  cases hf : (t.reported.take t.seen).getLast? with
  | none =>
    rw [hf] at hpeer
    split
    · omega
    · exact hpeer
  | some f =>
    rw [hf] at hpeer
    -- The counts that were reported do not decrease.
    have hmem : f ∈ t.reported.take n := by
      have hbefore : f ∈ t.reported.take t.seen := mem_of_getLast? hf
      exact take_subset_take_left _ hn.1 hbefore
    have hsorted : (t.reported.take n).Pairwise (· ≤ ·) := hr.sorted.sublist (take_sublist _ _)
    split
    · next f' hf' =>
      have hle : f ≤ f' := by
        obtain ⟨init, hinit⟩ := getLast?_eq_some_iff.mp hf'
        rw [hinit] at hmem hsorted
        rcases mem_append.mp hmem with hfirst | hlast
        · exact (pairwise_append.mp hsorted).2.2 f hfirst f' (mem_singleton.mpr rfl)
        · exact (mem_singleton.mp hlast).le
      exact hpeer.trans (Nat.add_le_add_right hle _)
    · next hnone =>
      rw [getLast?_eq_none_iff.mp hnone] at hmem
      exact absurd hmem not_mem_nil

lemma CreditOk.step {e : Event} (hc : t.CreditOk) (hb : t.BytesOk) (hr : t.ReportsOk)
    (he : t.RespectsCredit e) : CreditOk (t.step e) := by
  cases e with
  | conn e forwarded => exact hc.conn hb hr he
  | peerSees n => exact hc.peerSees hr he.1

end Traced

/-! ### The credit of this side -/

open Traced (sentBytes)

lemma Quiet.sentBytes_eq {c c' : ConnectionInner} (h : Quiet c c') :
    sentBytes c' = sentBytes c := by
  obtain ⟨new, hnew, hquiet⟩ := h.tx
  have hzero : (new.map fun q => q.payload.length).sum = 0 := by
    refine sum_eq_zero fun n hn => ?_
    obtain ⟨q, hq, rfl⟩ := mem_map.mp hn
    rw [(hquiet q hq).1]
    rfl
  rw [sentBytes, hnew, map_append, sum_append, hzero, add_zero]
  rfl

/-- What a send takes from the credit that the peer has left. -/
lemma ConnectionInner.peerCredit_le {sent g : ℕ} {bufAlloc : UInt32} {c : ConnectionInner}
    (htx : c.credit.txCnt = UInt32.ofNat sent) (hfwd : c.credit.peerFwdCnt = UInt32.ofNat g)
    (hbuf : c.credit.peerBufAlloc = bufAlloc ∨ c.credit.peerBufAlloc = 0) (hg : g ≤ sent)
    (hle : sent ≤ g + bufAlloc.toNat) : sent + c.peerCredit ≤ g + bufAlloc.toNat := by
  have hlt := bufAlloc.toNat_lt
  rw [peerCredit, htx, hfwd, toNat_ofNat_sub hg (by omega)]
  rcases hbuf with hbuf | hbuf
  · rw [hbuf]
    omega
  · rw [hbuf, UInt32.toNat_zero, Nat.zero_sub]
    exact hle

namespace Traced

open ConnectionInner

variable {t : Traced} {bufAlloc : UInt32}

/-- What was sent, and what is about to be, is bounded by a count that the peer has reported. -/
structure ForwardOk (bufAlloc : UInt32) (c : ConnectionInner) (g : ℕ) : Prop where
  txCnt : c.credit.txCnt = UInt32.ofNat (sentBytes c)
  fwd : c.credit.peerFwdCnt = UInt32.ofNat g
  peer : c.credit.peerBufAlloc = bufAlloc ∨ c.credit.peerBufAlloc = 0
  le : g ≤ sentBytes c
  sent : sentBytes c ≤ g + bufAlloc.toNat
  sending : ∀ bytes, c.call = .sending bytes → sentBytes c + bytes.length ≤ g + bufAlloc.toNat

section

variable {c : ConnectionInner} {g : ℕ} (h : ForwardOk bufAlloc c g)

include h

lemma ForwardOk.of_quiet {c' : ConnectionInner} (hquiet : Quiet c c') :
    ForwardOk bufAlloc c' g := by
  have hsent := hquiet.sentBytes_eq
  constructor
  · rw [hquiet.txCnt, hsent, h.txCnt]
  · rw [hquiet.peerFwd, h.fwd]
  · rw [hquiet.bufAlloc]
    exact h.peer
  · rw [hsent]
    exact h.le
  · rw [hsent]
    exact h.sent
  · rw [hquiet.call, hsent]
    exact h.sending

/-- Only the call changes, and it does not send. -/
lemma ForwardOk.of_call {c' : ConnectionInner}
    (hcredit : c'.credit.txCnt = c.credit.txCnt ∧ c'.credit.peerFwdCnt = c.credit.peerFwdCnt ∧
      c'.credit.peerBufAlloc = c.credit.peerBufAlloc) (htx : c'.tx = c.tx)
    (hcall : ∀ bytes, c'.call ≠ .sending bytes) : ForwardOk bufAlloc c' g := by
  have hsent : sentBytes c' = sentBytes c := by rw [sentBytes, sentBytes, htx]
  obtain ⟨htxCnt, hfwd, hbuf⟩ := hcredit
  exact ⟨by rw [htxCnt, hsent, h.txCnt], by rw [hfwd, h.fwd], hbuf ▸ h.peer, hsent ▸ h.le,
    hsent ▸ h.sent, fun bytes hnow => absurd hnow (hcall bytes)⟩

/-- The peer reports a later count. -/
lemma ForwardOk.updatePeerCredit {g' : ℕ} {header : VirtioVsockHdr}
    (hbuf : header.bufAlloc = bufAlloc) (hfwd : header.fwdCnt = UInt32.ofNat g') (hle : g ≤ g')
    (hsent : g' ≤ sentBytes c) : ForwardOk bufAlloc (c.updatePeerCredit header) g' := by
  refine ⟨h.txCnt, hfwd, .inl hbuf, hsent, ?_, fun bytes hcall => ?_⟩
  · have := h.sent
    change sentBytes c ≤ _
    omega
  · have := h.sending bytes hcall
    change sentBytes c + _ ≤ _
    omega

/-- The count that an event reports is taken, or the one before stays. -/
lemma ForwardOk.effect {e : ConnEvent} {c' : ConnectionInner} {g' : ℕ} (heffect : Effect c e c')
    (hpacket : ∀ op p mem, e = .packet op p mem →
      p.header.bufAlloc = bufAlloc ∧ p.header.fwdCnt = UInt32.ofNat g' ∧ g ≤ g' ∧
        g' ≤ sentBytes c) :
    ForwardOk bufAlloc c' g ∨ ForwardOk bufAlloc c' g' := by
  cases heffect with
  | quiet hrecv hret hquiet => exact .inl (h.of_quiet hquiet)
  | credited op p mem hrecv hret he hquiet =>
    obtain ⟨hbuf, hfwd, hle, hsent⟩ := hpacket op p mem he
    exact .inr ((h.updatePeerCredit hbuf hfwd hle hsent).of_quiet hquiet)
  | delivered p mem hrecv hret he hne hroom hc' =>
    obtain ⟨hbuf, hfwd, hle, hsent⟩ := hpacket .rw p mem he
    have hupdated := h.updatePeerCredit hbuf hfwd hle hsent
    subst hc'
    exact .inr ⟨hupdated.txCnt, hupdated.fwd, hupdated.peer, hupdated.le, hupdated.sent,
      hupdated.sending⟩
  | grabbed c₁ popped room consume hrecv hret hidle hroom hpop hc' =>
    rw [hc', c.popRxPackets_eq hpop]
    exact .inl (h.of_call ⟨rfl, rfl, rfl⟩ rfl fun bytes hnow => by cases hnow)
  | copied popped left room consume hrecv hcall hbytes hleft hquiet =>
    refine .inl (ForwardOk.of_quiet ?_ hquiet)
    rw [finishRead, undoPopRxPackets_eq]
    exact h.of_call ⟨rfl, rfl, rfl⟩ rfl fun bytes hnow => by cases hnow
  | prepared c₁ bytes hrecv hret hidle hquiet hle hc' =>
    subst hc'
    have hquietOk := h.of_quiet hquiet
    refine .inl ⟨hquietOk.txCnt, hquietOk.fwd, hquietOk.peer, hquietOk.le, hquietOk.sent, ?_⟩
    intro bytes' hnow
    cases hnow
    have hcredit := peerCredit_le h.txCnt h.fwd h.peer h.le h.sent
    change sentBytes c₁ + _ ≤ _
    rw [hquiet.sentBytes_eq]
    omega
  | sent bytes payloads pending hrecv hret hcall hle hc' =>
    obtain ⟨last, hsend⟩ := c.finishSend_eq payloads pending
    rw [hsend] at hc'
    have hsent : sentBytes c' = sentBytes c + (payloads.map length).sum := by
      rw [sentBytes, hc', map_append, sum_append, map_map]
      rfl
    have hsending := h.sending bytes hcall
    subst hc'
    refine .inl ⟨?_, h.fwd, h.peer, ?_, ?_, fun bytes' hnow => by cases hnow⟩
    · rw [hsent, UInt32.ofNat_add, ← h.txCnt]
    · rw [hsent]
      exact h.le.trans le_self_add
    · rw [hsent]
      omega
  | abandoned bytes hrecv hret hcall hc' =>
    subst hc'
    exact .inl (h.of_call ⟨rfl, rfl, rfl⟩ rfl fun bytes hnow => by cases hnow)

end

lemma Forwards.ordered {e : Event} (he : t.Forwards bufAlloc e) : t.Ordered e := by
  cases e with
  | peerSees n => exact he
  | conn e forwarded =>
    cases e with
    | packet op p mem => trivial
    | _ => exact he.1

/-- The count that bounds what was sent is one that the peer has reached. -/
def Bounded (bufAlloc : UInt32) (t : Traced) : Prop :=
  ∃ g ≤ t.forwarded, ForwardOk bufAlloc t.conn g

lemma Bounded.step {e : Event} (h : t.Bounded bufAlloc) (hb : t.BytesOk)
    (he : t.Forwards bufAlloc e) : Bounded bufAlloc (t.step e) := by
  obtain ⟨g, hg, hok⟩ := h
  cases e with
  | peerSees n => exact ⟨g, hg, hok⟩
  | conn e forwarded =>
    have hmono : t.forwarded ≤ forwarded := by
      cases e with
      | packet op p mem => exact he.2.2.1
      | _ => exact he.2.ge
    have hheader : ∀ op p mem, e = .packet op p mem → p.header.bufAlloc = bufAlloc ∧
        p.header.fwdCnt = UInt32.ofNat forwarded ∧ g ≤ forwarded ∧ forwarded ≤
            sentBytes t.conn := by
      rintro op p mem rfl
      obtain ⟨hbuf, hfwd, -, hsent⟩ := he
      exact ⟨hbuf, hfwd, hg.trans hmono, hsent⟩
    rcases hok.effect (effect hb.rx e he.ordered) hheader with hok' | hok'
    · exact ⟨g, hg.trans hmono, hok'⟩
    · exact ⟨forwarded, le_rfl, hok'⟩

lemma bounded_start {c : ConnectionInner}
    (h : Made (fun header => header.bufAlloc = bufAlloc ∧ header.fwdCnt = 0) c) :
    Bounded bufAlloc (start c) := by
  obtain ⟨c₀, hquiet, connId, phase, hc0⟩ := h.quiet
  refine ⟨0, le_rfl, ForwardOk.of_quiet ?_ hquiet⟩
  rcases hc0 with rfl | ⟨header, ⟨hbuf, hfwd⟩, rfl⟩
  · exact ⟨rfl, rfl, .inr rfl, le_rfl, zero_le, fun bytes hcall => by cases hcall⟩
  · exact ⟨rfl, hfwd, .inl hbuf, le_rfl, zero_le, fun bytes hcall => by cases hcall⟩

/-! ### Runs -/

lemma Reached.bytesOk {P : Traced → Event → Prop} {I : VirtioVsockHdr → Prop}
    (hP : ∀ t e, P t e → t.Ordered e) (h : Reached I P t) : t.BytesOk ∧ t.ReportsOk := by
  induction h with
  | start hmade => exact ⟨bytesOk_start hmade, reportsOk_start hmade⟩
  | step e _ he ih => exact ⟨ih.1.step (hP _ e he), ih.2.step ih.1 (hP _ e he)⟩

lemma Reached.creditOk {I : VirtioVsockHdr → Prop} (h : Reached I RespectsCredit t) :
    t.CreditOk := by
  induction h with
  | start hmade => exact ⟨le_rfl, zero_le, rfl⟩
  | step e hreached he ih =>
    obtain ⟨hb, hr⟩ := hreached.bytesOk fun _ _ he => he.1
    exact ih.step hb hr he

lemma Reached.bounded
    (h : Reached (fun header => header.bufAlloc = bufAlloc ∧ header.fwdCnt = 0)
    (Forwards bufAlloc) t) :
    t.Bounded bufAlloc := by
  induction h with
  | start hmade => exact bounded_start hmade
  | step e hreached he ih => exact ih.step (hreached.bytesOk fun _ _ he => he.ordered).1 he

end Traced

namespace ConnectionInner

variable {c : ConnectionInner}

/-- A receive takes packets when there is something to read. -/
lemma call_recvBegin {room : ℕ} (hidle : c.call = .idle) (hunread : c.unread ≠ [])
    (hroom : 0 < room) (consume : Bool) :
    ∃ popped, (c.recvBegin room consume).1.call = .receiving popped room consume := by
  have hpackets : c.rxQueue.packets ≠ [] := by
    intro hnil
    rw [unread_of_held_nil (by rw [held, hidle]), hnil, bytesFrom, flatten_nil,
      drop_nil] at hunread
    exact hunread rfl
  unfold recvBegin grabPacketsToRecv
  rw [if_neg hroom.ne']
  unfold popRxPackets
  cases htake : takePackets packetPoolSlots c.rxQueue.readOffset room c.rxQueue.packets with
  | mk taken left =>
    cases taken with
    | nil => exact absurd (takePackets_eq_nil (congrArg Prod.fst htake)) hpackets
    | cons packet taken => exact ⟨⟨packet :: taken, c.rxQueue.readOffset⟩, rfl⟩

/-- A receive that has packets returns bytes, unless the copy fails. -/
lemma RxOk.recvEnd {popped : PoppedRxPackets} {room : ℕ} {consume : Bool} (h : c.RxOk)
    (hcall : c.call = .receiving popped room consume) (mem : Bool) :
    ∃ written, written ≠ [] ∧ (c.recvEnd none mem).2 = .ok written := by
  obtain ⟨hne, hroom, -⟩ := h.receiving hcall
  have hheld := h.held
  rw [ConnectionInner.held, hcall] at hheld
  obtain ⟨rest, hcopy⟩ := @copyPackets_none popped.packets popped.readOffset room hheld
  refine ⟨(bytesFrom popped.packets popped.readOffset).take room, ?_, ?_⟩
  · intro hnil
    rcases take_eq_nil_iff.mp hnil with hzero | hzero
    · exact hroom.ne' hzero
    · exact hheld.bytesFrom_ne_nil hne hzero
  · unfold ConnectionInner.recvEnd PoppedRxPackets.copyToUserspace
    simp only [hcall, hcopy, bind, Except.bind, pure, Except.pure]
    cases consume with
    | true | false => rfl

/-- The queue is not full for bytes that fit. -/
lemma onRw_ne_enomem {header : VirtioVsockHdr} {payload : List UInt8} (mem : Bool)
    (h : c.rxQueue.usedBytes + payload.length ≤ defaultRxBufSize) (message : String) :
    (c.onRw header payload mem).2 ≠ .error (.withMessage .enomem message) := by
  unfold onRw
  split
  · intro heq
    cases heq
  · rw [if_neg (not_lt.mpr h)]
    split
    all_goals
      intro heq
      cases heq

end ConnectionInner

namespace Traced

open ConnectionInner

/-- In every run consuming receives return the bytes that were received, in order and each once, the
queue counts those that are left and is never over its size, the forward count is the number of the
returned bytes, and a receive without a page fault returns bytes when there are some.  Bytes of a
peer that respects its credit are never refused because the queue is full.  A peer with a constant
buffer is never sent more than the buffer ahead of what it has forwarded. -/
theorem vsock_stream_and_credit :
    (∀ t, Reached (fun _ => True) Ordered t →
      t.received = t.returned ++ t.conn.unread ∧
      t.conn.rxQueue.usedBytes + t.returned.length = t.received.length ∧
      t.conn.rxQueue.usedBytes ≤ defaultRxBufSize ∧
      t.conn.credit.localFwdCnt = UInt32.ofNat t.returned.length ∧
      (∀ room consume, t.conn.call = .idle → t.conn.unread ≠ [] → 0 < room →
        ∃ popped, (t.conn.recvBegin room consume).1.call = .receiving popped room consume) ∧
      ∀ popped room consume mem, t.conn.call = .receiving popped room consume →
        ∃ written, written ≠ [] ∧ (t.conn.recvEnd none mem).2 = .ok written) ∧
    (∀ t p mem forwarded, Reached (fun _ => True) RespectsCredit t →
      t.RespectsCredit (.conn (.packet .rw p mem) forwarded) →
      t.conn.rxQueue.usedBytes + p.payload.length ≤ defaultRxBufSize ∧
      ∀ message, (t.conn.onRw p.header p.payload mem).2 ≠ .error (.withMessage .enomem message)) ∧
    ∀ bufAlloc t,
      Reached (fun header => header.bufAlloc = bufAlloc ∧ header.fwdCnt = 0) (Forwards bufAlloc) t →
      sentBytes t.conn ≤ t.forwarded + bufAlloc.toNat := by
  refine ⟨fun t h => ?_, fun t p mem forwarded h he => ?_, fun bufAlloc t h => ?_⟩
  · obtain ⟨hb, -⟩ := h.bytesOk fun _ _ he => he
    have hlen := congrArg length hb.split
    rw [length_append, ← hb.rx.used, add_comm] at hlen
    refine ⟨hb.split, hlen.symm, hb.rx.bounded, hb.fwd, ?_, ?_⟩
    · intro room consume hidle hunread hroom
      exact call_recvBegin hidle hunread hroom consume
    · intro popped room consume mem hcall
      exact hb.rx.recvEnd hcall mem
  · obtain ⟨hb, hr⟩ := h.bytesOk fun _ _ he => he.1
    have hroom := he.room hb hr h.creditOk
    exact ⟨hroom, onRw_ne_enomem mem hroom⟩
  · obtain ⟨g, hg, hok⟩ := h.bounded
    exact hok.sent.trans (Nat.add_le_add_right hg _)

/-- A request of the peer, or bytes that it sends. -/
def peerPacket (op : VirtioVsockOp) (payload : List UInt8) : RxPacket :=
  ⟨{ srcCid := 2, dstCid := 3, srcPort := 1000, dstPort := 80, len := payload.length,
     type := streamType, op := op.code, flags := 0, bufAlloc := 4096, fwdCnt := 0 }, payload⟩

/-- A connection of the peer, which has seen the answer to its request. -/
def accepted : Traced :=
  let request := (peerPacket .request []).header
  (start (.newConnected (.fromIncomingHeader request) request true)).step (.peerSees 1)

/-- The peer sends three bytes, of which two are read. -/
def readTwoOfThree : Traced :=
  let t := accepted.step (.conn (.packet .rw (peerPacket .rw [1, 2, 3]) true) 0)
  let t := t.step (.conn (.owner (.recvBegin 2 true)) 0)
  t.step (.conn (.owner (.recvEnd none true)) 0)

/-- Two bytes are sent to the peer. -/
def sentTwo : Traced :=
  (accepted.step (.conn (.owner (.sendBegin [8, 9] 1 true)) 0)).step
    (.conn (.owner (.sendEnd none 0)) 0)

/-- What is left of the three bytes can be read, there was room for them, and two bytes are not too
many for the peer. -/
theorem vsock_stream_and_credit_of_read :
    (readTwoOfThree.returned = [1, 2] ∧
      readTwoOfThree.received = [1, 2] ++ readTwoOfThree.conn.unread ∧
      readTwoOfThree.conn.rxQueue.usedBytes + 2 = 3) ∧
    (accepted.conn.rxQueue.usedBytes + 3 ≤ defaultRxBufSize ∧
      ∀ message, (accepted.conn.onRw (peerPacket .rw [1, 2, 3]).header [1, 2, 3] true).2 ≠
        .error (.withMessage .enomem message)) ∧
    sentBytes sentTwo.conn = 2 ∧ sentBytes sentTwo.conn ≤ 0 + 4096 := by
  have hmade : ∀ I : VirtioVsockHdr → Prop, I (peerPacket .request []).header →
      Made I (.newConnected (.fromIncomingHeader (peerPacket .request []).header)
        (peerPacket .request []).header true) := fun I h => .inr ⟨_, _, _, h, rfl⟩
  have hread : Reached (fun _ => True) Ordered readTwoOfThree := by
    unfold readTwoOfThree accepted
    refine .step _ (.step _ (.step _ (.step _ (.start (hmade _ trivial)) ?_) ?_) ?_) ?_
    · exact ⟨by decide, by decide⟩
    · exact trivial
    · exact rfl
    · exact trivial
  have haccepted : Reached (fun _ => True) RespectsCredit accepted := by
    unfold accepted
    refine .step _ (.start (hmade _ trivial)) ⟨⟨by decide, by decide⟩, fun _ _ _ h => ?_⟩
    cases h
  have hsent : Reached (fun header => header.bufAlloc = 4096 ∧ header.fwdCnt = 0) (Forwards 4096)
      sentTwo := by
    unfold sentTwo accepted
    refine .step _ (.step _ (.step _ (.start (hmade _ ⟨rfl, rfl⟩)) ?_) ?_) ?_
    · exact ⟨by decide, by decide⟩
    · exact ⟨rfl, rfl⟩
    · exact ⟨trivial, rfl⟩
  have hcredit : accepted.RespectsCredit
      (.conn (.packet .rw (peerPacket .rw [1, 2, 3]) true) 0) := by
    refine ⟨trivial, fun p mem forwarded he => ?_⟩
    cases he
    change (3 : ℕ) ≤ (UInt32.ofNat defaultRxBufSize).toNat
    decide
  obtain ⟨hstream, hroom, hforwards⟩ := vsock_stream_and_credit
  obtain ⟨hsplit, hused, -⟩ := hstream readTwoOfThree hread
  have hreturned : readTwoOfThree.returned = [1, 2] := by decide
  have hreceived : readTwoOfThree.received.length = 3 := by decide
  rw [hreturned, hreceived] at hused
  exact ⟨⟨hreturned, hreturned ▸ hsplit, hused⟩, hroom _ _ _ _ haccepted hcredit, by decide,
    hforwards 4096 _ hsent⟩

end Traced

/-! ### The connections of a space -/

namespace VsockSpace

open Traced

/-- The owner of a connection makes one call at a time. -/
def OneCall (s : VsockSpace) : Event → Prop
  | .owner k op => ∀ c, s.conns[k]? = some c → (ConnEvent.owner op).Exclusive c
  | _ => True

/-- The bytes that an event brings to a connection: those of a valid packet for its entry of the
table that it accepts. -/
def delivered (s : VsockSpace) (k : ℕ) : Event → List UInt8
  | .rx packet mem =>
    if s.connections.get? (.fromIncomingHeader packet.header) = some k then
      (s.conns[k]?).elim [] fun c =>
        (s.validOp packet).elim [] fun op => (ConnEvent.packet op packet mem).received c
    else []
  | _ => []

/-- The bytes that an event hands to the owner of a connection for good. -/
def handedOver (s : VsockSpace) (k : ℕ) : Event → List UInt8
  | .owner j op =>
    if k = j then (s.conns[k]?).elim [] fun c => (ConnEvent.owner op).returned c
    else []
  | _ => []

/-- A space with the bytes that its connections have received and handed over. -/
structure Recorded where
  space : VsockSpace
  received : ℕ → List UInt8
  returned : ℕ → List UInt8

/-- The space and the record after an event. -/
def Recorded.step (r : Recorded) (e : Event) : Recorded where
  space := r.space.step e
  received k := r.received k ++ r.space.delivered k e
  returned k := r.returned k ++ r.space.handedOver k e

/-- The runs with their records. -/
inductive Recorded.Reached : Recorded → Prop
  | new (guestCid : ℕ) : Reached ⟨.new guestCid, fun _ => [], fun _ => []⟩
  | step {r : Recorded} (e : Event) : Reached r → r.space.OneCall e → Reached (r.step e)

section

variable {s : VsockSpace} {c c' : ConnectionInner} {k : ℕ} {a b : List UInt8}

/-- The connection is reached by a run of its own with these bytes. -/
def IsTraced (c : ConnectionInner) (a b : List UInt8) : Prop :=
  ∃ t, t.conn = c ∧ Traced.Reached (fun _ => True) Ordered t ∧ t.received = a ∧ t.returned = b

lemma IsTraced.run (h : IsTraced c a b) (e : ConnEvent) (he : e.Exclusive c) :
    IsTraced (e.run c) (a ++ e.received c) (b ++ e.returned c) := by
  obtain ⟨t, rfl, ht, rfl, rfl⟩ := h
  exact ⟨t.step (.conn e 0), rfl, ht.step _ he, rfl, rfl⟩

lemma isTraced_of_made (h : Made (fun _ => True) c) : IsTraced c [] [] :=
  ⟨start c, rfl, .start h, rfl, rfl⟩

/-- All connections of a space are reached by runs of their own, with the bytes of the record. -/
structure AllTraced (conns : List ConnectionInner) (received returned : ℕ → List UInt8) : Prop where
  get : ∀ {k c}, conns[k]? = some c → IsTraced c (received k) (returned k)
  fresh : ∀ {k}, conns.length ≤ k → received k = [] ∧ returned k = []

variable {received returned : ℕ → List UInt8}

lemma ite_getElem? {conns : List ConnectionInner} {o : Option ConnectionInner} (hk : conns[k]? = o)
    (f : ConnectionInner → List UInt8) (j : ℕ) :
    (if j = k then (conns[j]?).elim [] f else []) = if j = k then o.elim [] f else [] := by
  split
  · next hj => rw [hj, hk]
  · rfl

section

variable {conns : List ConnectionInner} (h : AllTraced conns received returned)

include h

/-- A connection is replaced by what an event makes of it, and the record gets the bytes of this
event. -/
lemma AllTraced.run (hk : conns[k]? = some c) (e : ConnEvent) (he : e.Exclusive c)
    {received' returned' : ℕ → List UInt8}
    (hreceived : ∀ j, received' j = received j ++ if j = k then e.received c else [])
    (hreturned : ∀ j, returned' j = returned j ++ if j = k then e.returned c else []) :
    AllTraced (conns.set k (e.run c)) received' returned' := by
  obtain ⟨hlt, -⟩ := List.getElem?_eq_some_iff.mp hk
  refine ⟨fun {j c'} hj => ?_, fun {j} hj => ?_⟩
  · rw [hreceived, hreturned]
    rw [getElem?_set] at hj
    by_cases hjk : k = j
    · subst hjk
      simp only [if_true, hlt, Option.some.injEq] at hj ⊢
      exact hj ▸ (h.get hk).run e he
    · simp only [hjk, Ne.symm hjk, if_false, append_nil] at hj ⊢
      exact h.get hj
  · rw [length_set] at hj
    have hjk : j ≠ k := by omega
    simpa [hreceived, hreturned, hjk] using h.fresh hj

lemma AllTraced.run_quiet (hk : conns[k]? = some c) (e : ConnEvent) (he : e.Exclusive c)
    (hreceived : e.received c = []) (hreturned : e.returned c = []) :
    AllTraced (conns.set k (e.run c)) received returned :=
  h.run hk e he (by simp [hreceived]) (by simp [hreturned])

lemma AllTraced.add (hc : Made (fun _ => True) c) :
    AllTraced (conns ++ [c]) received returned := by
  refine ⟨fun {j c'} hj => ?_, fun {j} hj => ?_⟩
  · rw [getElem?_append] at hj
    split at hj
    · exact h.get hj
    · next hlen =>
      obtain ⟨hreceived, hreturned⟩ := h.fresh (not_lt.mp hlen)
      obtain rfl := mem_singleton.mp (mem_of_getElem? hj)
      rw [hreceived, hreturned]
      exact isTraced_of_made hc
  · rw [length_append] at hj
    exact h.fresh (by omega)

lemma AllTraced.resetEntry (k : ℕ) :
    AllTraced (VsockSpace.resetEntry conns k) received returned := by
  unfold VsockSpace.resetEntry
  cases hk : conns[k]? with
  | none => rwa [modify_eq_self (getElem?_eq_none_iff.mp hk)]
  | some c =>
    rw [modify_eq_set_getElem?, hk]
    exact h.run_quiet hk .transport trivial rfl rfl

end

variable (h : AllTraced s.conns received returned)

include h

lemma AllTraced.resetIncoming (mem : Bool) (k : ℕ) :
    AllTraced (s.resetIncoming mem k).conns received returned := by
  unfold VsockSpace.resetIncoming
  split
  · next c hk =>
    split
    · exact h.run_quiet hk (.reset mem) trivial rfl rfl
    · exact h
  · exact h

lemma AllTraced.processRxPacket (packet : RxPacket) (mem : Bool) :
    AllTraced (s.processRxPacket packet mem).conns
      (fun k => received k ++ s.delivered k (.rx packet mem)) returned := by
  unfold VsockSpace.processRxPacket
  dsimp only [delivered]
  split
  · next k hid =>
    have hentry : ∀ j, s.connections.get? (.fromIncomingHeader packet.header) = some j ↔ j = k := by
      intro j
      rw [hid, Option.some_inj, eq_comm]
    simp only [hentry]
    unfold processRxWithConnection
    cases hk : s.conns[k]? with
    | none => simpa [ite_getElem? hk] using h
    | some c =>
      simp only [ite_getElem? hk, Option.elim_some]
      cases hop : s.validOp packet with
      | none =>
        simp only [Option.elim_none, ite_self, append_nil]
        exact h.run_quiet hk (.reset mem) trivial rfl rfl
      | some op =>
        have hc := h.run hk (.packet op packet mem) trivial (fun j => rfl) fun j =>
          (by simp [ConnEvent.returned] : returned j = _)
        dsimp only [Option.elim]
        split <;> exact hc
  · next hid =>
    simp only [hid, reduceCtorEq, if_false, append_nil]
    unfold processRxWithListener
    split
    · exact h
    · split
      · split
        · exact h
        · exact h.add (.inr ⟨_, _, _, trivial, rfl⟩)
      · exact h

/-- An event of the space runs events of its connections. -/
lemma AllTraced.step (e : Event) (he : s.OneCall e) : AllTraced (s.step e).conns
    (fun k => received k ++ s.delivered k e) (fun k => returned k ++ s.handedOver k e) := by
  cases e with
  | connect port remoteCid remotePort mem =>
    unfold VsockSpace.step newConnection
    simp only [delivered, handedOver, append_nil]
    split
    · exact h
    · exact h.add (.inl ⟨_, _, _, rfl⟩)
  | listen port backlog =>
    unfold VsockSpace.step newListener
    simp only [delivered, handedOver, append_nil]
    split <;> exact h
  | setBacklog port backlog =>
    unfold VsockSpace.step setBacklog
    simp only [delivered, handedOver, append_nil]
    split <;> exact h
  | accept port =>
    unfold VsockSpace.step tryAccept
    simp only [delivered, handedOver, append_nil]
    split <;> exact h
  | closeListener port mem =>
    unfold VsockSpace.step removeListener
    simp only [delivered, handedOver, append_nil]
    split
    · refine foldlRecOn (motive := fun s : VsockSpace => AllTraced s.conns received returned)
        _ _ h ?_
      intro s' hs' k _
      exact hs'.resetIncoming mem k
    · exact h
  | rx packet mem =>
    simp only [handedOver, append_nil]
    exact h.processRxPacket packet mem
  | transport guestCid =>
    simp only [delivered, handedOver, append_nil]
    refine foldlRecOn (motive := fun conns => AllTraced conns received returned) _ _ h ?_
    intro conns hconns k _
    exact hconns.resetEntry k
  | timer id generation mem =>
    unfold VsockSpace.step processTimerEvent
    simp only [delivered, handedOver, append_nil]
    split
    · split
      · next c hk =>
        have hc := h.run_quiet hk (.timer generation mem) trivial rfl rfl
        split <;> exact hc
      · exact h
    · exact h
  | owner k op =>
    unfold VsockSpace.step ownerStep
    simp only [delivered, handedOver, append_nil]
    split
    · next c hk =>
      refine h.run hk (.owner op) (he c hk) (fun j => ?_) fun j => ?_
      · simp [ConnEvent.received]
      · rw [ite_getElem? hk, Option.elim_some]
    · next hk => simpa [ite_getElem? hk] using h
  | drop k mem =>
    unfold VsockSpace.step dropConnection
    simp only [delivered, handedOver, append_nil]
    split
    · next c hk =>
      have hc := h.run_quiet hk (.drop s.nextGeneration mem) trivial rfl rfl
      split <;> exact hc
    · exact h
  | remove k =>
    unfold VsockSpace.step removeConnection
    simp only [delivered, handedOver, append_nil]
    split
    · split
      · split <;> exact h
      · exact h
    · exact h

end

lemma Recorded.Reached.allTraced {r : Recorded} (h : r.Reached) :
    AllTraced r.space.conns r.received r.returned := by
  induction h with
  | new guestCid => exact ⟨fun hk => (by cases hk), fun _ => ⟨rfl, rfl⟩⟩
  | step e _ he ih => exact ih.step e he

/-- In every interleaving in a space, each connection holds the bytes that its packets have brought
and that no call has returned yet, in order and within the bound of its queue, and counts the
returned ones. -/
theorem Recorded.Reached.streams {r : Recorded} (h : r.Reached) {k : ℕ} {c : ConnectionInner}
    (hk : r.space.conns[k]? = some c) :
    r.received k = r.returned k ++ c.unread ∧ c.rxQueue.usedBytes = c.unread.length ∧
      c.rxQueue.usedBytes ≤ defaultRxBufSize ∧
      c.credit.localFwdCnt = .ofNat (r.returned k).length := by
  obtain ⟨t, rfl, ht, hreceived, hreturned⟩ := h.allTraced.get hk
  obtain ⟨hb, -⟩ := ht.bytesOk fun _ _ he => he
  rw [← hreceived, ← hreturned]
  exact ⟨hb.split, hb.rx.used, hb.rx.bounded, hb.fwd⟩

/-- A packet of the peer from another port. -/
def peerPacketFrom (port : ℕ) (op : VirtioVsockOp) (payload : List UInt8) : RxPacket :=
  let packet := peerPacket op payload
  { packet with header := { packet.header with srcPort := port } }

/-- The peer connects to a listener twice and sends three bytes and two bytes, and one of the latter
is read. -/
def twoStreams : Recorded :=
  let r : Recorded := ⟨.new 3, fun _ => [], fun _ => []⟩
  let r := (r.step (.listen 80 0)).step (.setBacklog 80 4)
  let r := (r.step (.rx (peerPacket .request []) true)).step
    (.rx (peerPacketFrom 1001 .request []) true)
  let r := (r.step (.rx (peerPacketFrom 1001 .rw [4, 5]) true)).step
    (.rx (peerPacket .rw [1, 2, 3]) true)
  (r.step (.owner 1 (.recvBegin 1 true))).step (.owner 1 (.recvEnd none true))

/-- Each connection has the rest of its own bytes. -/
theorem streams_of_listen : twoStreams.Reached ∧
    ∃ c c', twoStreams.space.conns = [c, c'] ∧ [1, 2, 3] = c.unread ∧ [4, 5] = 4 :: c'.unread := by
  have hreached : twoStreams.Reached := by
    refine .step _ (.step _ (.step _ (.step _ (.step _ (.step _ (.step _ (.step _ (.new 3) trivial)
      trivial) trivial) trivial) trivial) trivial) fun c hc => ?_) fun c hc => trivial
    cases hc
    rfl
  obtain ⟨c, c', hconns⟩ : ∃ c c', twoStreams.space.conns = [c, c'] := ⟨_, _, rfl⟩
  have hfirst := (hreached.streams (k := 0) (by rw [hconns]; rfl)).1
  have hsecond := (hreached.streams (k := 1) (by rw [hconns]; rfl)).1
  exact ⟨hreached, c, c', hconns, hfirst, hsecond⟩

end VsockSpace

end Asterinas.Vsock
