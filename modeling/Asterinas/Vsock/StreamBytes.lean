import Asterinas.Vsock.Stream

/-!
# The receive queue as a byte stream

The packets of the queue, read from the offset in the first of them, are the bytes that were
received and are not yet consumed.  While a task copies, the packets that it has taken come before
those of the queue, which then starts at the offset 0.
-/

namespace Asterinas.Vsock

open List

/-- The bytes of the packets from the offset in the first one on. -/
def bytesFrom (packets : List (List UInt8)) (offset : ℕ) : List UInt8 := packets.flatten.drop offset

/-- The packets have bytes, and the offset is inside the first one. -/
structure Readable (packets : List (List UInt8)) (offset : ℕ) : Prop where
  nonempty : ∀ p ∈ packets, p ≠ []
  nil : packets = [] → offset = 0
  head : ∀ p rest, packets = p :: rest → offset < p.length

section Bytes

variable {packet : List UInt8} {packets queue taken left : List (List UInt8)} {offset : ℕ}

lemma bytesFrom_cons (h : offset ≤ packet.length) :
    bytesFrom (packet :: packets) offset = packet.drop offset ++ packets.flatten := by
  rw [bytesFrom, flatten_cons, drop_append_of_le_length h]

section

variable (h : Readable packets offset)

include h

lemma Readable.le_length : offset ≤ packets.flatten.length := by
  cases packets with
  | nil => exact (h.nil rfl).le
  | cons p rest =>
    have hlt := h.head p rest rfl
    rw [flatten_cons, length_append]
    omega

lemma bytesFrom_append :
    bytesFrom (packets ++ queue) offset = bytesFrom packets offset ++ queue.flatten := by
  rw [bytesFrom, flatten_append, drop_append_of_le_length h.le_length]
  rfl

lemma Readable.bytesFrom_ne_nil (hne : packets ≠ []) :
    bytesFrom packets offset ≠ [] := by
  cases packets with
  | nil => exact absurd rfl hne
  | cons p rest =>
    have hlt := h.head p rest rfl
    rw [bytesFrom_cons hlt.le]
    intro hnil
    have hdrop := congrArg List.length (append_eq_nil_iff.mp hnil).1
    rw [length_drop, length_nil] at hdrop
    omega

end

/-- A queue whose packets have bytes can be read from its beginning. -/
lemma readable_zero (h : ∀ p ∈ packets, p ≠ []) : Readable packets 0 where
  nonempty := h
  nil _ := rfl
  head p _ heq := length_pos_iff.mpr (h p (heq ▸ mem_cons_self))

lemma Readable.append (h : Readable packets offset) (hne : packets ≠ [])
    (hq : ∀ p ∈ queue, p ≠ []) : Readable (packets ++ queue) offset := by
  refine ⟨fun p hp => ?_, fun hnil => absurd (append_eq_nil_iff.mp hnil).1 hne,
    fun p rest heq => ?_⟩
  · rcases mem_append.mp hp with hp | hp
    · exact h.nonempty p hp
    · exact hq p hp
  · cases packets with
    | nil => exact absurd rfl hne
    | cons p' packets =>
      obtain ⟨rfl, -⟩ := List.cons.inj heq
      exact h.head p' packets rfl

lemma Readable.concat (h : Readable packets offset) (hp : packet ≠ []) :
    Readable (packets ++ [packet]) offset := by
  cases packets with
  | nil =>
    rw [h.nil rfl]
    exact readable_zero fun p hmem => mem_singleton.mp hmem ▸ hp
  | cons p rest =>
    exact h.append (cons_ne_nil p rest) fun q hmem => mem_singleton.mp hmem ▸ hp

/-! ### Taking packets -/

lemma takePackets_append (slots offset maxBytes : ℕ) (queue : List (List UInt8)) :
    (takePackets slots offset maxBytes queue).1 ++ (takePackets slots offset maxBytes queue).2 =
      queue := by
  induction slots generalizing offset maxBytes queue with
  | zero => rfl
  | succ slots ih =>
    cases queue with
    | nil => rfl
    | cons packet queue =>
      unfold takePackets
      split
      · rfl
      · exact congrArg (packet :: ·) (ih 0 _ queue)

/-- Something is taken out of a queue that is not empty. -/
lemma takePackets_eq_nil {maxBytes : ℕ}
    (h : (takePackets packetPoolSlots offset maxBytes queue).1 = []) : queue = [] := by
  cases queue with
  | nil => rfl
  | cons packet queue =>
    unfold packetPoolSlots takePackets at h
    split at h
    · cases h
    · cases h

/-! ### Copying packets -/

variable {written : List UInt8} {fault : Option ℕ} {room : ℕ}

lemma writeUser_eq_ok {payload : List UInt8} (h : writeUser room fault payload = .ok written) :
    written = payload.take room := by
  unfold writeUser at h
  dsimp only at h
  split at h
  · cases h
  · exact (Except.ok.inj h).symm

/-- The copy stops in the first packet, or goes on behind it. -/
lemma copyPackets_cons {rest : PoppedRxPackets}
    (h : copyPackets (packet :: packets) offset room fault = .ok (written, rest)) :
    (written = (packet.drop offset).take room ∧ written.length < (packet.drop offset).length ∧
      rest = ⟨packet :: packets, offset + written.length⟩) ∨
    ∃ room' fault' more, copyPackets packets 0 room' fault' = .ok (more, rest) ∧
      written = packet.drop offset ++ more := by
  unfold copyPackets at h
  cases hwrite : writeUser room fault (packet.drop offset) with
  | error e =>
    simp only [hwrite, bind, Except.bind] at h
    cases h
  | ok first =>
    simp only [hwrite, bind, Except.bind, pure, Except.pure] at h
    obtain rfl := writeUser_eq_ok hwrite
    split at h
    · next hlt =>
      obtain ⟨rfl, rfl⟩ := Prod.mk.inj (Except.ok.inj h)
      exact .inl ⟨rfl, hlt, rfl⟩
    · next hge =>
      split at h
      · cases h
      · next more hmore =>
        obtain ⟨rfl, rfl⟩ := Prod.mk.inj (Except.ok.inj h)
        refine .inr ⟨_, _, more.1, hmore, ?_⟩
        rw [length_take] at hge
        rw [take_of_length_le (by omega)]

/-- What is written and what is left are the bytes of the packets. -/
lemma copyPackets_spec {rest : PoppedRxPackets} (h : Readable packets offset)
    (hcopy : copyPackets packets offset room fault = .ok (written, rest)) :
    bytesFrom packets offset = written ++ bytesFrom rest.packets rest.readOffset ∧
      Readable rest.packets rest.readOffset := by
  induction packets generalizing offset room fault written with
  | nil =>
    obtain ⟨rfl, rfl⟩ := Prod.mk.inj (Except.ok.inj hcopy)
    rw [h.nil rfl]
    exact ⟨rfl, readable_zero fun p hp => absurd hp not_mem_nil⟩
  | cons packet packets ih =>
    have hlt := h.head packet packets rfl
    have hrest : ∀ p ∈ packets, p ≠ [] := fun p hp => h.nonempty p (mem_cons_of_mem _ hp)
    rw [bytesFrom_cons hlt.le]
    rcases copyPackets_cons hcopy with ⟨hwritten, hshort, rfl⟩ | ⟨room', fault', more, hmore, rfl⟩
    · rw [length_drop] at hshort
      refine ⟨?_, h.nonempty, fun hnil => (by cases hnil), fun p ps heq => ?_⟩
      · have hroom : written.length = room := by
          have hlen := congrArg List.length hwritten
          rw [length_take, length_drop] at hlen
          omega
        have hsplit : packet.drop offset = written ++ packet.drop (offset + written.length) :=
          calc packet.drop offset
              = (packet.drop offset).take room ++ (packet.drop offset).drop room :=
                (take_append_drop _ _).symm
            _ = written ++ packet.drop (offset + written.length) := by
                rw [← hwritten, drop_drop, hroom]
        have hle : offset + written.length ≤ packet.length := by omega
        rw [bytesFrom_cons hle, ← append_assoc, ← hsplit]
      · cases heq
        change offset + written.length < packet.length
        omega
    · obtain ⟨hbytes, hreadable⟩ := ih (readable_zero hrest) hmore
      refine ⟨?_, hreadable⟩
      rw [append_assoc, ← hbytes]
      rfl

/-- Without a page fault, as much is written as there is room for. -/
lemma copyPackets_none (h : Readable packets offset) :
    ∃ rest, copyPackets packets offset room none =
        .ok ((bytesFrom packets offset).take room, rest) := by
  induction packets generalizing offset room with
  | nil =>
    rw [h.nil rfl]
    exact ⟨⟨[], 0⟩, by rw [bytesFrom, flatten_nil, drop_nil, take_nil]; rfl⟩
  | cons packet packets ih =>
    have hrest : ∀ p ∈ packets, p ≠ [] := fun p hp => h.nonempty p (mem_cons_of_mem _ hp)
    have hwrite : writeUser room none (packet.drop offset) = .ok ((packet.drop offset).take room) :=
      rfl
    rw [bytesFrom_cons (h.head packet packets rfl).le]
    unfold copyPackets
    simp only [hwrite, bind, Except.bind, pure, Except.pure]
    rw [length_take]
    split
    · next hlt =>
      rw [take_append_of_le_length (by omega)]
      exact ⟨_, rfl⟩
    · next hge =>
      have hle : (packet.drop offset).length ≤ room := by omega
      rw [min_eq_right hle]
      obtain ⟨rest, hcopy⟩ := @ih 0 (room - (packet.drop offset).length) (readable_zero hrest)
      rw [Option.map_none, hcopy]
      refine ⟨rest, ?_⟩
      rw [take_append, take_of_length_le hle]
      rfl

end Bytes

namespace ConnectionInner

/-- The packets that the task has taken that is receiving. -/
def held (c : ConnectionInner) : PoppedRxPackets :=
  match c.call with
  | .receiving popped _ _ => popped
  | _ => ⟨[], 0⟩

/-- The bytes that were received and are not yet consumed. -/
def unread (c : ConnectionInner) : List UInt8 :=
  bytesFrom c.held.packets c.held.readOffset ++ bytesFrom c.rxQueue.packets c.rxQueue.readOffset

/-- The queue can be read, and counts its bytes. -/
structure RxOk (c : ConnectionInner) : Prop where
  held : Readable c.held.packets c.held.readOffset
  queue : Readable c.rxQueue.packets c.rxQueue.readOffset
  receiving : ∀ {popped room consume}, c.call = .receiving popped room consume →
    popped.packets ≠ [] ∧ 0 < room ∧ c.rxQueue.readOffset = 0
  used : c.rxQueue.usedBytes = c.unread.length
  bounded : c.rxQueue.usedBytes ≤ defaultRxBufSize

variable {c : ConnectionInner}

lemma unread_of_held_nil (h : c.held = ⟨[], 0⟩) :
    c.unread = bytesFrom c.rxQueue.packets c.rxQueue.readOffset := by
  rw [unread, h]
  rfl

/-! ### Receiving -/

/-- A task takes packets and keeps them. -/
lemma RxOk.popRxPackets {maxBytes : ℕ} {c' : ConnectionInner} {popped : PoppedRxPackets}
    (h : c.RxOk) (hidle : c.call = .idle) (hmax : 0 < maxBytes) (consume : Bool)
    (hpop : c.popRxPackets maxBytes = (c', some popped)) :
    RxOk { c' with call := .receiving popped maxBytes consume } ∧
      ({ c' with call := .receiving popped maxBytes consume } : ConnectionInner).unread =
          c.unread := by
  have hheld : c.held = ⟨[], 0⟩ := by rw [ConnectionInner.held, hidle]
  have happend := takePackets_append packetPoolSlots c.rxQueue.readOffset maxBytes c.rxQueue.packets
  unfold ConnectionInner.popRxPackets at hpop
  split at hpop
  · cases hpop
  · next packet taken left heq =>
    obtain ⟨rfl, hpopped⟩ := Prod.mk.inj hpop
    cases hpopped
    rw [heq] at happend
    have hqueue := happend ▸ h.queue
    have htaken : Readable (packet :: taken) c.rxQueue.readOffset := by
      refine ⟨fun p hp => ?_, fun hnil => (by cases hnil), fun p rest hcons => ?_⟩
      · exact hqueue.nonempty p (mem_append_left left hp)
      · cases hcons
        exact hqueue.head packet _ rfl
    have hleft : Readable left 0 :=
      readable_zero fun p hp => hqueue.nonempty p (mem_append_right _ hp)
    have hunread : bytesFrom (packet :: taken) c.rxQueue.readOffset ++ bytesFrom left 0 =
        c.unread := by
      rw [unread_of_held_nil hheld, ← happend, bytesFrom_append htaken]
      rfl
    refine ⟨⟨htaken, hleft, fun hcall => ?_, ?_, h.bounded⟩, hunread⟩
    · cases hcall
      exact ⟨cons_ne_nil packet taken, hmax, rfl⟩
    · exact h.used.trans (congrArg List.length hunread.symm)

/-- Packets are put back in front of a queue that starts at its beginning. -/
lemma undoPopRxPackets_spec {left : PoppedRxPackets} (hq : Readable c.rxQueue.packets 0)
    (hoffset : c.rxQueue.readOffset = 0) (hleft : Readable left.packets left.readOffset) :
    Readable (c.undoPopRxPackets left).rxQueue.packets
      (c.undoPopRxPackets left).rxQueue.readOffset ∧
      bytesFrom (c.undoPopRxPackets left).rxQueue.packets
        (c.undoPopRxPackets left).rxQueue.readOffset =
        bytesFrom left.packets left.readOffset ++ bytesFrom c.rxQueue.packets 0 := by
  unfold undoPopRxPackets
  split
  · next hnil =>
    rw [hoffset, hnil, hleft.nil hnil]
    exact ⟨hq, rfl⟩
  · next hne =>
    refine ⟨hleft.append hne hq.nonempty, ?_⟩
    rw [bytesFrom_append hleft]
    rfl

end ConnectionInner

end Asterinas.Vsock
