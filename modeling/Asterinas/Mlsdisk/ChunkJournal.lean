import Asterinas.Mlsdisk.ChunkAllocCorrectness

/-!
# The chunk allocator in the journal

The commit handlers of `3-log/tx_log.rs` apply the edit table of a transaction to the live state of
the allocator and to the copy of the state that the journal keeps, which is what a recovery starts
from.  The live state has got its allocations long before; the copy makes them now, and it asks for
as many chunks as the table says without a look at which chunks these are.

So the copy is right only when it hands out the chunks that the live state has handed out.  This is
the case as long as the chunks taken since the last commit are all the chunks of one transaction,
which keeps and commits them, and no other commit frees chunks meanwhile.
-/

namespace Asterinas.Mlsdisk

open Framework Exec Framework.Bits List Option ChunkAllocEdit OrderedMap

/-! ### A sequence of allocations -/

namespace ChunkAllocState

/-- Allocations from one state to another, with the chunks that they hand out. -/
inductive Hands (s : ChunkAllocState) : List ℕ → ChunkAllocState → Prop
  | nil : Hands s [] s
  | snoc {ids : List ℕ} {t : ChunkAllocState} {id : ℕ} : Hands s ids t →
      t.alloc = some (some id, t.take id) → t.allocMap[id]? = some false →
      Hands s (ids ++ [id]) (t.take id)

variable {s t u : ChunkAllocState} {ids got : List ℕ}

lemma Hands.trans (h : Hands s ids t) (h' : Hands t got u) : Hands s (ids ++ got) u := by
  induction h' with
  | nil => simpa using h
  | snoc _ halloc hclear ih =>
    rw [← append_assoc]
    exact ih.snoc halloc hclear

/-- The state in the journal. -/
def toJournal (s : ChunkAllocState) : ChunkAllocState := { s with inJournal := true }

lemma alloc_toJournal {id : ℕ} (h : t.alloc = some (some id, t.take id)) :
    t.toJournal.alloc = some (some id, (t.take id).toJournal) := by
  obtain ⟨hlt, hmap⟩ := ite_none_right_eq_some.mp h
  obtain ⟨i, hi, heq⟩ := map_eq_some_iff.mp hmap
  obtain rfl : i = id := some.inj (Prod.mk.inj heq).1
  refine ite_none_right_eq_some.mpr ⟨hlt, map_eq_some_iff.mpr ⟨i, hi, rfl⟩⟩

section

variable (h : Hands s ids t)

include h

lemma Hands.toJournal : Hands s.toJournal ids t.toJournal := by
  induction h with
  | nil => exact .nil
  | snoc _ halloc hclear ih => exact ih.snoc (alloc_toJournal halloc) hclear

/-- The chunks of a table are allocated as a matter of number only. -/
lemma Hands.allocEach {l : List ℕ} (hl : l.length = ids.length) :
    allocEach s l = some t := by
  induction h generalizing l with
  | nil =>
    obtain rfl := length_eq_zero_iff.mp hl
    rfl
  | snoc _ halloc _ ih =>
    rcases eq_nil_or_concat l with rfl | ⟨l, a, rfl⟩
    · simp at hl
    · have hlen : l.length = _ := Nat.succ.inj (by simpa using hl)
      rw [ChunkAllocEdit.allocEach, concat_eq_append, foldlM_append]
      have hinit := ih hlen
      rw [ChunkAllocEdit.allocEach] at hinit
      rw [hinit]
      simp [halloc]

lemma Hands.chunks :
    ids.Nodup ∧ (∀ id ∈ ids, s.allocMap[id]? = some false) ∧
      t.allocMap = setAll s.allocMap ids true := by
  induction h with
  | nil => exact ⟨nodup_nil, by simp, rfl⟩
  | @snoc ids t id _ _ hclear ih =>
    obtain ⟨hnd, hfresh, hmap⟩ := ih
    have hlt := (List.getElem?_eq_some_iff.mp hclear).1
    have hnotin : id ∉ ids := by
      intro hmem
      rw [hmap, length_setAll] at hlt
      rw [hmap, getElem?_setAll_of_mem true hmem hlt] at hclear
      cases hclear
    refine ⟨?_, ?_, ?_⟩
    · rw [nodup_append]
      refine ⟨hnd, nodup_singleton id, fun a ha b hb heq => hnotin ?_⟩
      rwa [← mem_singleton.mp hb, ← heq]
    · intro i hi
      rcases mem_append.mp hi with hi | hi
      · exact hfresh i hi
      · rw [hmap, getElem?_setAll_of_not_mem _ _ hnotin] at hclear
        rwa [mem_singleton.mp hi]
    · rw [take, hmap, setAll, setAll, foldl_append]
      rfl

/-- What was used before the allocations. -/
lemma Hands.used_iff (i : ℕ) :
    s.allocMap[i]? = some true ↔ t.allocMap[i]? = some true ∧ i ∉ ids := by
  obtain ⟨-, hfresh, hmap⟩ := h.chunks
  by_cases hi : i ∈ ids
  · simp [hfresh i hi, hi]
  · rw [hmap, getElem?_setAll_of_not_mem _ _ hi]
    simp [hi]

end

lemma Hands.of_alloc {r : Option ℕ} (h : s.alloc = some (r, t)) :
    ∃ id, r = some id ∧ Hands s [id] t := by
  obtain ⟨id, rfl, hclear, rfl⟩ := alloc_cases h
  exact ⟨id, rfl, Hands.nil.snoc h hclear⟩

lemma Hands.of_allocLoop {n : ℕ} {r : Option (List ℕ)} (h : s.allocLoop n got = some (r, t)) :
    ∃ ids, r = some ((got ++ ids).mergeSort fun a b => decide (a ≤ b)) ∧ Hands s ids t := by
  induction n generalizing s got with
  | zero =>
    obtain ⟨rfl, rfl⟩ := Prod.mk.inj (some.inj h)
    exact ⟨[], by simp, .nil⟩
  | succ n ih =>
    obtain ⟨⟨a, s₁⟩, halloc, hrest⟩ := bind_eq_some_iff.mp h
    obtain ⟨id, rfl, hid⟩ := Hands.of_alloc halloc
    obtain ⟨ids, rfl, hids⟩ := ih hrest
    exact ⟨id :: ids, by simp, hid.trans hids⟩

end ChunkAllocState

/-- The allocator and its copy in the journal. -/
structure JournaledChunks where
  live : ChunkAlloc
  journal : ChunkAllocState

/-- A call by a transaction, or a recovery. -/
inductive JournalEvent
  | call (tx : ℕ) (op : ChunkOp)
  | recover

namespace JournaledChunks

/-- `TxLogStore::format`: an allocator and a journal in which all chunks are free. -/
def format (capacity : ℕ) : JournaledChunks := ⟨.new capacity, .newInJournal capacity⟩

section

variable (s : JournaledChunks)

/-- The commit handlers: an empty edit table is not added to the journal. -/
def commit (tx : ℕ) : Option JournaledChunks :=
  match s.live.txs.get? tx, ChunkOp.commit.run tx s.live with
  | some e, .ok _ live =>
    (if e.entries.isEmpty then some s.journal else applyTo e s.journal).map
      fun journal => ⟨live, journal⟩
  | _, _ => none

/-- `TxLogStore::recover`, from the state of the journal. -/
def recover : JournaledChunks := ⟨.fromParts s.journal, s.journal⟩

/-- What an event leads to; `none` is a panic. -/
def step : JournalEvent → Option JournaledChunks
  | .call tx .commit => s.commit tx
  | .call tx op =>
    match op.run tx s.live with
    | .ok _ live => some { s with live }
    | _ => none
  | .recover => some s.recover

/-- The chunks that committed transactions have allocated and none has freed. -/
def committedAfter (committed : ℕ → Prop) : JournalEvent → ℕ → Prop
  | .call tx .commit => fun i =>
    (committed i ∨ s.live.edit tx i = some .alloc) ∧ s.live.edit tx i ≠ some .dealloc
  | _ => committed

/-- No other transaction has allocated chunks. -/
def Alone (tx : ℕ) : Prop := ∀ tx' i, s.live.edit tx' i = some .alloc → tx' = tx

/-- A transaction allocates, or commits a free, while no other one has allocated chunks; it frees
none of its own chunks, and does not abort when it has some. -/
def Orderly : JournalEvent → Prop
  | .call tx op => op.Permitted s.live tx ∧
    match op with
    | .newTx => True
    | .alloc => s.Alone tx
    | .allocBatch _ => s.Alone tx
    | .dealloc id => s.live.edit tx id ≠ some .alloc
    | .deallocBatch ids => ∀ id ∈ ids, s.live.edit tx id ≠ some .alloc
    | .commit => (∃ i, s.live.edit tx i = some .dealloc) → s.Alone tx
    | .abort => ∀ id, s.live.edit tx id ≠ some .alloc
  | .recover => True

end

/-- The copy is behind the live state by the chunks of one open transaction, and would hand out just
these. -/
structure Tracks (s : JournaledChunks) (committed : ℕ → Prop) : Prop where
  inv : s.live.Inv
  live : s.live.state.inJournal = false
  journal : s.journal.inJournal = true
  sound : s.journal.Sound
  committed : ∀ i, committed i ↔ s.live.Used i ∧ ∀ tx, s.live.edit tx i ≠ some .alloc
  behind : ∃ owner ids, s.journal.Hands ids s.live.state.toJournal ∧
    ∀ tx i, s.live.edit tx i = some .alloc ↔ tx = owner ∧ i ∈ ids

variable {s s' : JournaledChunks} {committed : ℕ → Prop} {tx : ℕ}

/-- The copy marks the committed chunks. -/
lemma Tracks.journal_used (h : s.Tracks committed) (i : ℕ) :
    s.journal.allocMap[i]? = some true ↔ committed i := by
  obtain ⟨owner, ids, hhands, hedit⟩ := h.behind
  rw [hhands.used_iff, h.committed]
  refine and_congr_right fun _ => ⟨fun hi tx htx => hi ((hedit tx i).mp htx).2, fun hi hmem => ?_⟩
  exact hi owner ((hedit owner i).mpr ⟨rfl, hmem⟩)

variable {live : ChunkAlloc}

/-- Calls that neither touch the shared state nor what is recorded as allocated. -/
lemma Tracks.same (h : s.Tracks committed) (hinv : live.Inv) (hstate : live.state = s.live.state)
    (hedit : ∀ tx i, live.edit tx i = some .alloc ↔ s.live.edit tx i = some .alloc) :
    Tracks { s with live } committed where
  inv := hinv
  live := hstate ▸ h.live
  journal := h.journal
  sound := h.sound
  committed i := by
    rw [h.committed, ChunkAlloc.Used, ChunkAlloc.Used, hstate]
    exact and_congr_right fun _ => forall_congr' fun tx => not_congr (hedit tx i).symm
  behind := by
    obtain ⟨owner, ids, hhands, howner⟩ := h.behind
    refine ⟨owner, ids, ?_, fun tx i => (hedit tx i).trans (howner tx i)⟩
    rwa [hstate]

lemma Tracks.takes {ids got : List ℕ} (h : s.Tracks committed) (hinv : live.Inv)
    (halone : s.Alone tx) (ht : s.live.Takes live tx ids)
    (hhands : s.live.state.Hands got live.state) (hmem : ∀ i, i ∈ ids ↔ i ∈ got) :
    Tracks { s with live } committed := by
  have hown : ∀ i, live.edit tx i = some .alloc ↔ i ∈ ids ∨ s.live.edit tx i = some .alloc := by
    intro i
    rw [ht.becomes.edit_own, bind_some]
    by_cases hi : i ∈ ids <;> simp [hi]
  have hedit : ∀ tx' i, live.edit tx' i = some .alloc ↔
      tx' = tx ∧ i ∈ ids ∨ s.live.edit tx' i = some .alloc := by
    intro tx' i
    by_cases hne : tx' = tx
    · subst hne
      simpa using hown i
    · rw [ht.becomes.edit_other hne]
      simp [hne]
  refine ⟨hinv, ht.becomes.inJournal.trans h.live, h.journal, h.sound, fun i => ?_, ?_⟩
  · rw [h.committed, ht.becomes.used]
    by_cases hi : i ∈ ids
    · have hfree : ¬ s.live.Used i := by
        rw [ChunkAlloc.Used, ht.fresh i hi]
        simp
      simp only [hfree, false_and, false_iff, not_and, not_forall, not_not]
      exact fun _ => ⟨tx, (hown i).mpr (Or.inl hi)⟩
    · simp only [hi, or_false]
      refine and_congr_right fun _ => forall_congr' fun tx' => not_congr ?_
      rw [hedit]
      simp [hi]
  · obtain ⟨owner, before, hbehind, howner⟩ := h.behind
    refine ⟨tx, before ++ got, hbehind.trans hhands.toJournal, fun tx' i => ?_⟩
    have hbefore : s.live.edit tx' i = some .alloc ↔ tx' = tx ∧ i ∈ before := by
      refine ⟨fun hi => ⟨halone tx' i hi, ((howner tx' i).mp hi).2⟩, ?_⟩
      rintro ⟨rfl, hi⟩
      have hi' := (howner owner i).mpr ⟨rfl, hi⟩
      rwa [halone owner i hi'] at hi'
    rw [hedit, hbefore, hmem, mem_append]
    tauto

lemma Tracks.recover (h : s.Tracks committed) : s.recover.Tracks committed := by
  have hnone : ∀ tx i, s.recover.live.edit tx i = none := fun _ _ => rfl
  have hstate : s.recover.live.state.toJournal = s.journal := by
    change { s.journal with inJournal := true } = s.journal
    rw [← h.journal]
  refine ⟨⟨⟨h.sound.freeCount, h.sound.nextFree⟩, fun tx i hi => (hi (hnone tx i)).elim,
    fun tx _ i hi => (hi (hnone tx i)).elim⟩, rfl, h.journal, h.sound, fun i => ?_, 0, [], ?_, ?_⟩
  · rw [← h.journal_used]
    exact (and_iff_left fun tx => by simp [hnone]).symm
  · rw [hstate]
    exact .nil
  · intro tx i
    simp [hnone]

variable {e : ChunkAllocEdit}

/-- When the transaction is alone, the copy hands out its chunks and catches up. -/
lemma Tracks.applyTo_of_alone (h : s.Tracks committed) (halone : s.Alone tx)
    (he : s.live.txs.get? tx = some e) :
    applyTo e s.journal = some (s.live.state.giveBack (chunks e .dealloc)).toJournal := by
  obtain ⟨owner, ids, hhands, howner⟩ := h.behind
  have hmem : ∀ i, i ∈ chunks e .alloc ↔ i ∈ ids := by
    intro i
    rw [mem_chunks, ← ChunkAlloc.edit_of_get? he, howner]
    refine and_iff_right_of_imp fun hi => ?_
    exact (halone owner i ((howner owner i).mpr ⟨rfl, hi⟩)).symm
  have hperm : (chunks e .alloc).Perm ids :=
    (perm_ext_iff_of_nodup (nodup_chunks e _) hhands.chunks.1).mpr hmem
  have hused : ∀ i ∈ chunks e .dealloc, s.live.state.toJournal.allocMap[i]? = some true := by
    intro i hi
    apply h.inv.used tx i
    rw [ChunkAlloc.edit_of_get? he]
    exact ne_none_of_eq_some (mem_chunks.mp hi)
  rw [applyTo, h.journal, if_pos rfl, hhands.allocEach hperm.length_eq,
    bind_some, ChunkAllocState.deallocAll_eq (nodup_chunks e _) hused]
  rfl

/-- When it is not, it has neither allocated nor freed. -/
lemma Tracks.entries_of_not_alone (h : s.Tracks committed) (halone : ¬ s.Alone tx)
    (hfree : ∀ i, s.live.edit tx i ≠ some .dealloc) (i : ℕ) : s.live.edit tx i = none := by
  obtain ⟨owner, ids, -, howner⟩ := h.behind
  simp only [Alone, not_forall] at halone
  obtain ⟨tx', j, hj, hne⟩ := halone
  cases hedit : s.live.edit tx i with
  | none => rfl
  | some edit =>
    cases edit with
    | alloc =>
      have htx := ((howner tx i).mp hedit).1
      exact absurd (((howner tx' j).mp hj).1.trans htx.symm) hne
    | dealloc => exact absurd hedit (hfree i)

lemma applyTo_of_isEmpty (h : e.entries.isEmpty) (j : ChunkAllocState) : applyTo e j = some j := by
  have hnil : ∀ edit, chunks e edit = [] := by
    intro edit
    rw [chunks, isEmpty_iff.mp h]
    rfl
  rw [applyTo, hnil, hnil]
  split <;> rfl

lemma commit_eq {r : ChunkReply} {j : ChunkAllocState} (he : s.live.txs.get? tx = some e)
    (hrun : ChunkOp.commit.run tx s.live = .ok r live)
    (hj : applyTo e s.journal = some j) : s.commit tx = some ⟨live, j⟩ := by
  have hif : (if e.entries.isEmpty then some s.journal else applyTo e s.journal) = some j := by
    split
    · next hempty => rw [← hj, applyTo_of_isEmpty hempty]
    · exact hj
  simp only [JournaledChunks.commit, he, hrun, hif, map_some]

lemma Tracks.commit_of_alone (h : s.Tracks committed) (halone : s.Alone tx) (hinv : live.Inv)
    (hb : s.live.Becomes live tx (fun i => s.live.Used i ∧ s.live.edit tx i ≠ some .dealloc) none) :
    Tracks ⟨live, live.state.toJournal⟩ (s.committedAfter committed (.call tx .commit)) := by
  have hnone : ∀ tx' i, live.edit tx' i ≠ some .alloc := by
    intro tx' i
    by_cases hne : tx' = tx
    · subst hne
      rw [hb.edit_own]
      exact some_ne_none _ ∘ Eq.symm
    · rw [hb.edit_other hne]
      exact fun hi => hne (halone tx' i hi)
  refine ⟨hinv, hb.inJournal.trans h.live, rfl, ⟨hinv.sound.freeCount, hinv.sound.nextFree⟩,
    fun i => ?_, tx, [], .nil, fun tx' i => by simp [hnone]⟩
  rw [hb.used, and_iff_left fun tx' => hnone tx' i]
  refine and_congr_left fun _ => ?_
  rw [h.committed]
  refine ⟨?_, fun hi => ?_⟩
  · rintro (hi | hi)
    · exact hi.1
    · exact h.inv.used tx i (ne_none_of_eq_some hi)
  · by_cases hown : s.live.edit tx i = some .alloc
    · exact Or.inr hown
    · refine Or.inl ⟨hi, fun tx' htx' => hown ?_⟩
      rwa [halone tx' i htx'] at htx'

lemma Tracks.commit (h : s.Tracks committed) (hopen : (s.live.txs.get? tx).isSome)
    (halone : (∃ i, s.live.edit tx i = some .dealloc) → s.Alone tx) :
    ∃ s', s.commit tx = some s' ∧ s'.Tracks (s.committedAfter committed (.call tx .commit)) := by
  obtain ⟨e, he⟩ := isSome_iff_exists.mp hopen
  have hrun : yields (ChunkOp.commit.run tx) (fun _ live =>
      (∀ e, s.live.txs.get? tx = some e → live.state = s.live.state.giveBack (chunks e .dealloc)) ∧
      s.live.Becomes live tx (fun i => s.live.Used i ∧ s.live.edit tx i ≠ some .dealloc) none ∧
      live.Inv) s.live :=
    (h.inv.twp_commit h.live hopen).then fun _ _ hs' => hs'
  rcases hrun.returns with ⟨r, live, hrun, hstate, hb, hinv⟩ | ⟨_, _, _, hfalse⟩
  · by_cases hal : s.Alone tx
    · refine ⟨_, commit_eq he hrun (h.applyTo_of_alone hal he), ?_⟩
      rw [← hstate e he]
      exact h.commit_of_alone hal hinv hb
    · have hnone := h.entries_of_not_alone hal fun i hi => hal (halone ⟨i, hi⟩)
      have hempty : e.entries.isEmpty := by
        rw [List.isEmpty_iff, eq_nil_iff_forall_not_mem]
        rintro ⟨i, edit⟩ hi
        have hget := hnone i
        rw [ChunkAlloc.edit_of_get? he, get?_eq_some.mpr hi] at hget
        cases hget
      refine ⟨_, commit_eq he hrun (applyTo_of_isEmpty hempty s.journal), ?_⟩
      have hcommitted : s.committedAfter committed (.call tx .commit) = committed := by
        funext i
        simp [committedAfter, hnone i]
      rw [hcommitted]
      refine h.same hinv ?_ fun tx' i => ?_
      · rw [hstate e he, chunks, isEmpty_iff.mp hempty]
        rfl
      · by_cases hne : tx' = tx
        · subst hne
          rw [hb.edit_own, hnone]
          rfl
        · rw [hb.edit_other hne]
  · exact hfalse.elim

/-- A call that is no commit changes the live state only. -/
lemma exists_of_twp {α : Type} {m : ChunkAlloc.Prog α} {Q : α → ChunkAlloc → Prop}
    (h : yields m Q s.live) (f : α → ChunkReply) :
    ∃ a live, (match (m >>= fun a => pure (f a)) s.live with
      | .ok _ live => some { s with live }
      | _ => none) = some { s with live } ∧ Q a live := by
  rcases h.returns with ⟨a, live, hrun, hlive⟩ | ⟨_, _, _, hfalse⟩
  · refine ⟨a, live, ?_, hlive⟩
    rw [bind_of_ok hrun]
    rfl
  · exact hfalse.elim

lemma Frees.alloc_iff {s s' : ChunkAlloc} {ids : List ℕ} (hb : s.Frees s' tx ids)
    (hids : ∀ id ∈ ids, s.edit tx id ≠ some .alloc) (tx' i : ℕ) :
    s'.edit tx' i = some .alloc ↔ s.edit tx' i = some .alloc := by
  by_cases hne : tx' = tx
  · subst hne
    by_cases hi : i ∈ ids
    · rw [ChunkAlloc.Becomes.edit_own hb]
      simp [hi, hids i hi]
    · rw [hb.edit_of_not_mem hi]
  · rw [ChunkAlloc.Becomes.edit_other hb hne]

/-- One event. -/
lemma Tracks.step (h : s.Tracks committed) {event : JournalEvent} (ho : s.Orderly event) :
    ∃ s', s.step event = some s' ∧ s'.Tracks (s.committedAfter committed event) := by
  cases event with
  | recover => exact ⟨_, rfl, h.recover⟩
  | call tx op =>
    obtain ⟨hop, ho⟩ := ho
    cases op with
    | newTx =>
      obtain ⟨_, live, hstep, hstate, hb, hinv⟩ :=
        exists_of_twp (h.inv.twp_newTx hop) fun _ => .done
      refine ⟨_, hstep, h.same hinv hstate fun tx' i => ?_⟩
      by_cases hne : tx' = tx
      · subst hne
        rw [hb.edit_own, ChunkAlloc.edit, hop]
        rfl
      · rw [hb.edit_other hne]
    | alloc =>
      obtain ⟨_, live, hstep, id, -, halloc, ht, hinv⟩ :=
        exists_of_twp (h.inv.twp_alloc hop.1 hop.2) .chunk
      obtain ⟨id', heq, hhands⟩ := ChunkAllocState.Hands.of_alloc halloc
      cases heq
      exact ⟨_, hstep, h.takes hinv ho ht hhands fun _ => Iff.rfl⟩
    | allocBatch count =>
      obtain ⟨_, live, hstep, ids, -, hloop, -, -, ht, hinv⟩ :=
        exists_of_twp (h.inv.twp_allocBatch hop.1 hop.2) .chunks
      obtain ⟨got, heq, hhands⟩ := ChunkAllocState.Hands.of_allocLoop hloop
      refine ⟨_, hstep, h.takes hinv ho ht hhands fun i => ?_⟩
      rw [some.inj heq, (mergeSort_perm _ _).mem_iff, nil_append]
    | dealloc id =>
      obtain ⟨_, live, hstep, hstate, hb, hinv⟩ :=
        exists_of_twp (h.inv.twp_dealloc hop.1 hop.2) fun _ => .done
      exact ⟨_, hstep, h.same hinv (hstate ho) (Frees.alloc_iff hb (by simpa using ho))⟩
    | deallocBatch ids =>
      obtain ⟨_, live, hstep, hstate, hb, hinv⟩ :=
        exists_of_twp (h.inv.twp_deallocBatch hop.1 hop.2.1 hop.2.2) fun _ => .done
      exact ⟨_, hstep, h.same hinv (hstate ho) (Frees.alloc_iff hb ho)⟩
    | commit => exact h.commit hop ho
    | abort =>
      obtain ⟨_, live, hstep, hstate, hb, hinv⟩ :=
        exists_of_twp (h.inv.twp_abort hop) fun _ => .done
      refine ⟨_, hstep, h.same hinv (hstate ho) fun tx' i => ?_⟩
      by_cases hne : tx' = tx
      · subst hne
        rw [hb.edit_own]
        simp [ho i]
      · rw [hb.edit_other hne]

/-- The states that orderly events lead to, with the chunks that are committed by then. -/
inductive Reached (capacity : ℕ) : JournaledChunks → (ℕ → Prop) → Prop
  | format : Reached capacity (format capacity) fun _ => False
  | step {s s' : JournaledChunks} {committed : ℕ → Prop} (event : JournalEvent) :
      Reached capacity s committed → s.Orderly event → s.step event = some s' →
      Reached capacity s' (s.committedAfter committed event)

end JournaledChunks

end Asterinas.Mlsdisk
