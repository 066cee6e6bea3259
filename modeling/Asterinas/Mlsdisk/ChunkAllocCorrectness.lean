import Asterinas.Framework.Bits
import Asterinas.Mlsdisk.ChunkAlloc

/-!
# Who owns a chunk

A chunk that an open transaction has allocated or freed is used, and it is recorded in the table of
that transaction only.  From this follows what every method does, as long as there are enough free
chunks and no chunk is freed by two transactions.  An allocation from a full map panics.
-/

namespace Asterinas.Mlsdisk

open Framework Exec Framework.Bits OrderedMap List Option

/-! ### The shared state -/

variable {ids : List ℕ} {id : ℕ}

namespace ChunkAllocState

/-- The counter agrees with the map, and the search hint is in its range. -/
structure Sound (s : ChunkAllocState) : Prop where
  freeCount : s.freeCount = s.allocMap.count false
  nextFree : s.nextFree ≤ s.allocMap.length

/-- The state after the chunk has been found free. -/
def take (s : ChunkAllocState) (id : ℕ) : ChunkAllocState :=
  { s with allocMap := s.allocMap.set id true, freeCount := s.freeCount - 1, nextFree := id + 1 }

/-- What an allocation that does not panic does. -/
lemma alloc_cases {r : Option ℕ} {s s' : ChunkAllocState} (h : s.alloc = some (r, s')) :
    ∃ id, r = some id ∧ s.allocMap[id]? = some false ∧ s' = s.take id := by
  obtain ⟨-, h⟩ := ite_none_right_eq_some.mp h
  obtain ⟨id, hid, heq⟩ := map_eq_some_iff.mp h
  cases heq
  refine ⟨id, rfl, ?_, rfl⟩
  rcases or_eq_some_iff.mp hid with hid | ⟨-, hid⟩ <;> exact (firstZero_eq_some hid).2.2.1

variable {s : ChunkAllocState}

lemma exists_alloc (hn : s.nextFree ≤ s.allocMap.length)
    (hpos : 0 < s.allocMap.count false) :
    ∃ id, s.alloc = some (some id, s.take id) ∧ s.allocMap[id]? = some false := by
  obtain ⟨i, hi⟩ := mem_iff_getElem?.mp (count_pos_iff.mp hpos)
  have hlt : i < s.allocMap.length := (List.getElem?_eq_some_iff.mp hi).1
  have hstart : (if s.nextFree = s.allocMap.length then 0 else s.nextFree) < s.allocMap.length := by
    split <;> omega
  have hsome : s.alloc.isSome = true := by
    simp only [alloc, if_pos hstart, isSome_map]
    cases hz : firstZero s.allocMap 0 with
    | some id => simp
    | none =>
      have hfull := firstZero_eq_none hz i zero_le hlt
      rw [hi] at hfull
      cases hfull
  obtain ⟨⟨r, s'⟩, hs⟩ := isSome_iff_exists.mp hsome
  obtain ⟨id, rfl, hid, rfl⟩ := alloc_cases hs
  exact ⟨id, hs, hid⟩

/-- A full map is a panic. -/
lemma alloc_eq_none (h : s.allocMap.count false = 0) : s.alloc = none := by
  by_contra hne
  obtain ⟨⟨r, s'⟩, hs⟩ := ne_none_iff_exists'.mp hne
  obtain ⟨id, -, hid, -⟩ := alloc_cases hs
  exact count_eq_zero.mp h (mem_of_getElem? hid)

lemma Sound.take (h : s.Sound)
    (hid : s.allocMap[id]? = some false) : (s.take id).Sound := by
  have hcount := count_false_setAll_true (nodup_singleton id) (by simpa using hid)
  refine ⟨?_, ?_⟩
  · simp only [setAll_cons, setAll_nil, length_singleton] at hcount
    have := h.freeCount
    simp only [ChunkAllocState.take]
    omega
  · have hlt := (List.getElem?_eq_some_iff.mp hid).1
    simpa [ChunkAllocState.take] using hlt

/-- The state after the chunks have been deallocated. -/
def giveBack (s : ChunkAllocState) (ids : List ℕ) : ChunkAllocState :=
  { s with allocMap := setAll s.allocMap ids false, freeCount := s.freeCount + ids.length }

lemma deallocAll_eq (hnd : ids.Nodup)
    (h : ∀ id ∈ ids, s.allocMap[id]? = some true) : s.deallocAll ids = some (s.giveBack ids) := by
  induction ids generalizing s with
  | nil => rfl
  | cons id ids ih =>
    obtain ⟨hid, hnd⟩ := nodup_cons.mp hnd
    obtain ⟨hused, hrest⟩ := forall_mem_cons.mp h
    have hstep : s.dealloc id = some (s.giveBack [id]) := if_pos hused
    have hrest' : ∀ i ∈ ids, (s.giveBack [id]).allocMap[i]? = some true := by
      intro i hi
      have hne : i ∉ [id] := by
        rintro hmem
        exact hid (mem_singleton.mp hmem ▸ hi)
      exact (getElem?_setAll_of_not_mem _ _ hne).trans (hrest i hi)
    rw [deallocAll, foldlM_cons, hstep]
    refine (ih hnd hrest').trans ?_
    simp only [giveBack, setAll_cons, setAll_nil, length_cons, length_nil]
    congr 2
    omega

lemma Sound.giveBack (h : s.Sound) (hnd : ids.Nodup)
    (hused : ∀ id ∈ ids, s.allocMap[id]? = some true) : (s.giveBack ids).Sound := by
  refine ⟨?_, ?_⟩
  · have hcount := count_setAll (v := false) hnd hused
    simp only [ChunkAllocState.giveBack]
    rw [hcount, h.freeCount]
  · simpa [ChunkAllocState.giveBack] using h.nextFree

/-- The loop takes as many chunks as are asked for, when there are that many. -/
lemma allocLoop_spec {n : ℕ} (h : s.Sound) (hn : n ≤ s.freeCount)
    (got : List ℕ) :
    ∃ ids s', s.allocLoop n got =
      some (some ((got ++ ids).mergeSort fun a b => decide (a ≤ b)), s') ∧
      ids.length = n ∧ ids.Nodup ∧ (∀ id ∈ ids, s.allocMap[id]? = some false) ∧
      s'.Sound ∧ s'.inJournal = s.inJournal ∧ s'.allocMap = setAll s.allocMap ids true := by
  induction n generalizing s got with
  | zero => exact ⟨[], s, by simp [allocLoop], rfl, nodup_nil, by simp, h, rfl, rfl⟩
  | succ n ih =>
    have hpos : 0 < s.allocMap.count false := by
      rw [← h.freeCount]
      omega
    obtain ⟨id, hid, hclear⟩ := exists_alloc h.nextFree hpos
    have hle : n ≤ (s.take id).freeCount := by
      simp only [take]
      omega
    obtain ⟨ids, s', hloop, hlen, hnd, hfresh, hsound, hlive, hmap⟩ :=
      ih (h.take hclear) hle (got ++ [id])
    have hlt := (List.getElem?_eq_some_iff.mp hclear).1
    have hset : ∀ i, (s.take id).allocMap[i]? = if id = i then some true else s.allocMap[i]? :=
      fun i => getElem?_set_true hlt
    have hnotin : id ∉ ids := by
      intro hmem
      have hfalse := hfresh id hmem
      rw [hset, if_pos rfl] at hfalse
      cases hfalse
    refine ⟨id :: ids, s', ?_, by simp [hlen], nodup_cons.mpr ⟨hnotin, hnd⟩, ?_, hsound,
      hlive, hmap⟩
    · rw [allocLoop, hid]
      simpa using hloop
    · refine forall_mem_cons.mpr ⟨hclear, fun i hi => ?_⟩
      have hfalse := hfresh i hi
      have hne : id ≠ i := by
        rintro rfl
        exact hnotin hi
      rwa [hset, if_neg hne] at hfalse

/-- The loop panics when it has taken the last chunk. -/
lemma allocLoop_eq_none {n : ℕ} (h : s.Sound) (hn : s.freeCount < n)
    (got : List ℕ) : s.allocLoop n got = none := by
  induction n generalizing s got with
  | zero => exact absurd hn not_lt_zero
  | succ n ih =>
    rcases eq_zero_or_pos (s.allocMap.count false) with hzero | hpos
    · rw [allocLoop, alloc_eq_none hzero]
      rfl
    · obtain ⟨id, hid, hclear⟩ := exists_alloc h.nextFree hpos
      have hlt : (s.take id).freeCount < n := by
        have := h.freeCount
        simp only [take]
        omega
      rw [allocLoop, hid]
      exact ih (h.take hclear) hlt _

end ChunkAllocState

/-! ### Edit tables -/

variable {e : ChunkAllocEdit}

namespace ChunkAllocEdit

lemma mem_chunks {edit : ChunkEdit} : id ∈ chunks e edit ↔ e.get? id = some edit := by
  rw [get?_eq_some]
  simp [chunks]

lemma nodup_chunks (e : ChunkAllocEdit) (edit : ChunkEdit) : (chunks e edit).Nodup :=
  e.nodup_keys.sublist (filter_sublist.map Prod.fst)

lemma foldlM_alloc (hnd : ids.Nodup) (h : ∀ id ∈ ids, e.get? id = none) :
    ∃ e', ids.foldlM alloc e = some e' ∧
      ∀ i, e'.get? i = if i ∈ ids then some .alloc else e.get? i := by
  induction ids generalizing e with
  | nil => exact ⟨e, rfl, fun i => by simp⟩
  | cons id ids ih =>
    obtain ⟨hid, hnd⟩ := nodup_cons.mp hnd
    obtain ⟨hnone, hrest⟩ := forall_mem_cons.mp h
    have hrest' : ∀ i ∈ ids, (e.insert id ChunkEdit.alloc).get? i = none := by
      intro i hi
      have hne : i ≠ id := by
        rintro rfl
        exact hid hi
      rw [get?_insert, if_neg hne]
      exact hrest i hi
    obtain ⟨e', hfold, hget⟩ := ih hnd hrest'
    refine ⟨e', ?_, fun i => ?_⟩
    · rw [foldlM_cons, alloc, if_pos hnone]
      exact hfold
    · rw [hget i, get?_insert]
      by_cases hi : i = id <;> by_cases hmem : i ∈ ids <;> simp [hi, hmem]

end ChunkAllocEdit

/-! ### The invariant -/

variable {state : ChunkAllocState}

namespace ChunkAlloc

/-- What the open transaction has recorded about the chunk. -/
def edit (s : ChunkAlloc) (tx id : ℕ) : Option ChunkEdit := (s.txs.get? tx).bind (·.get? id)

/-- The chunk is not allocatable. -/
def Used (s : ChunkAlloc) (id : ℕ) : Prop := s.state.allocMap[id]? = some true

/-- The shared state is sound, and what is recorded about a chunk is recorded once, while the chunk
is used. -/
structure Inv (s : ChunkAlloc) : Prop where
  sound : s.state.Sound
  used : ∀ tx id, s.edit tx id ≠ none → s.Used id
  once : ∀ tx tx' id, s.edit tx id ≠ none → s.edit tx' id ≠ none → tx = tx'

/-- The used chunks and the table of one transaction have become these; the table is `none` when
the transaction is over. -/
structure Becomes (s s' : ChunkAlloc) (tx : ℕ) (used : ℕ → Prop)
    (table : Option (ℕ → Option ChunkEdit)) : Prop where
  capacity : s'.state.allocMap.length = s.state.allocMap.length
  inJournal : s'.state.inJournal = s.state.inJournal
  used : ∀ id, s'.Used id ↔ used id
  own : (s'.txs.get? tx).map get? = table
  others : ∀ tx', tx' ≠ tx → s'.txs.get? tx' = s.txs.get? tx'

/-- The chunk can be freed: it is used, and no transaction has recorded anything about it, unless
the one that frees it has allocated it. -/
def Freeable (s : ChunkAlloc) (tx id : ℕ) : Prop :=
  s.Used id ∧ ∀ tx', s.edit tx' id ≠ none → tx' = tx ∧ s.edit tx id = some .alloc

variable {s s' : ChunkAlloc} {tx : ℕ} {used : ℕ → Prop} {table : Option (ℕ → Option ChunkEdit)}

lemma edit_eq (s : ChunkAlloc) (tx id : ℕ) :
    s.edit tx id = ((s.txs.get? tx).map get?).bind (· id) := by
  rw [edit, bind_map]
  rfl

lemma edit_of_get? (h : s.txs.get? tx = some e) (id : ℕ) : s.edit tx id = e.get? id := by
  rw [edit, h]
  rfl

section

variable (h : Becomes s s' tx used table)

include h

lemma Becomes.edit_own (id : ℕ) : s'.edit tx id = table.bind (· id) := by
  rw [edit_eq, h.own]

lemma Becomes.edit_other {tx' : ℕ} (hne : tx' ≠ tx) (id : ℕ) : s'.edit tx' id = s.edit tx' id := by
  rw [edit, h.others tx' hne]
  rfl

/-- A change keeps the invariant when it keeps what the other transactions have recorded in use and
does not record anything about their chunks. -/
lemma Becomes.inv (hinv : s.Inv) (hsound : s'.state.Sound)
    (hown : ∀ id, table.bind (· id) ≠ none → used id)
    (hothers : ∀ tx' id, tx' ≠ tx → s.edit tx' id ≠ none →
      used id ∧ table.bind (· id) = none) : s'.Inv := by
  have hclash : ∀ tx' id, tx' ≠ tx → s'.edit tx id ≠ none → s'.edit tx' id ≠ none → False := by
    intro tx' id hne htx htx'
    rw [h.edit_other hne] at htx'
    rw [h.edit_own] at htx
    exact htx (hothers tx' id hne htx').2
  refine ⟨hsound, fun tx' id hid => ?_, fun tx₁ tx₂ id h1 h2 => ?_⟩
  · rw [h.used]
    by_cases hne : tx' = tx
    · subst hne
      rw [h.edit_own] at hid
      exact hown id hid
    · rw [h.edit_other hne] at hid
      exact (hothers tx' id hne hid).1
  · by_cases hne1 : tx₁ = tx <;> by_cases hne2 : tx₂ = tx
    · exact hne1.trans hne2.symm
    · exact (hclash tx₂ id hne2 (hne1 ▸ h1) h2).elim
    · exact (hclash tx₁ id hne1 (hne2 ▸ h2) h1).elim
    · rw [h.edit_other hne1] at h1
      rw [h.edit_other hne2] at h2
      exact hinv.once tx₁ tx₂ id h1 h2

end

lemma Inv.edit_eq_none (h : s.Inv) {tx' : ℕ} (hne : tx' ≠ tx) (hid : s.edit tx' id ≠ none) :
    s.edit tx id = none := by
  by_contra hown
  exact hne (h.once tx' tx id hid hown)

/-! ### The methods -/

/-- The transaction has got free chunks. -/
structure Takes (s s' : ChunkAlloc) (tx : ℕ) (ids : List ℕ) : Prop where
  nodup : ids.Nodup
  fresh : ∀ id ∈ ids, s.state.allocMap[id]? = some false
  becomes : Becomes s s' tx (fun i => s.Used i ∨ i ∈ ids)
    (some fun i => if i ∈ ids then some .alloc else s.edit tx i)

/-- The transaction has freed chunks: those that it had allocated are allocatable again, the others
are still used. -/
def Frees (s s' : ChunkAlloc) (tx : ℕ) (ids : List ℕ) : Prop :=
  Becomes s s' tx (fun i => s.Used i ∧ ¬ (i ∈ ids ∧ s.edit tx i = some .alloc))
    (some fun i =>
      if i ∈ ids then if s.edit tx i = some .alloc then none else some .dealloc else s.edit tx i)

open Exec

variable {E : Empty → ChunkAlloc → Prop}

lemma twp_onState {α : Type} {f : ChunkAllocState → Option (α × ChunkAllocState)} {a : α}
    {Q : α → ChunkAlloc → Prop} (h : f s.state = some (a, state))
    (hQ : Q a { s with state }) : twp (onState f) Q E s := by
  simp only [onState, twp_bind, twp_get, twp_ofOption]
  exact ⟨_, h, hQ⟩

lemma twp_changeState {f : ChunkAllocState → Option ChunkAllocState}
    {Q : Unit → ChunkAlloc → Prop} (h : f s.state = some state) (hQ : Q () { s with state }) :
    twp (changeState f) Q E s := by
  have hf : (f s.state).map (fun s => ((), s)) = some ((), state) := by
    rw [h]
    rfl
  exact twp_onState hf hQ

lemma twp_data {Q : ChunkAllocEdit → ChunkAlloc → Prop}
    (h : s.txs.get? tx = some e) (hQ : Q e s) : twp (data tx) Q E s := by
  simp only [data, twp_bind, twp_get, twp_ofOption]
  exact ⟨e, h, hQ⟩

lemma becomes_insert {f : ℕ → Option ChunkEdit}
    (hlen : state.allocMap.length = s.state.allocMap.length)
    (hlive : state.inJournal = s.state.inJournal)
    (hused : ∀ i, state.allocMap[i]? = some true ↔ used i) (he : ∀ i, e.get? i = f i) :
    Becomes s ⟨state, s.txs.insert tx e⟩ tx used (some f) where
  capacity := hlen
  inJournal := hlive
  used := hused
  own := by
    rw [get?_insert, if_pos rfl]
    exact congrArg some (funext he)
  others tx' hne := by
    rw [get?_insert, if_neg hne]

lemma becomes_erase (hlen : state.allocMap.length = s.state.allocMap.length)
    (hlive : state.inJournal = s.state.inJournal)
    (hused : ∀ i, state.allocMap[i]? = some true ↔ used i) :
    Becomes s ⟨state, s.txs.erase tx⟩ tx used none where
  capacity := hlen
  inJournal := hlive
  used := hused
  own := by
    rw [get?_erase, if_pos rfl]
    rfl
  others tx' hne := by
    rw [get?_erase, if_neg hne]

/-- A chunk about which something is recorded is not free. -/
lemma Inv.edit_of_free (h : s.Inv) (hid : s.state.allocMap[id]? = some false)
    (tx : ℕ) : s.edit tx id = none := by
  by_contra hne
  have hused := h.used tx id hne
  rw [Used, hid] at hused
  cases hused

section

variable (h : s.Inv) (hopen : (s.txs.get? tx).isSome)

include h hopen

/-- The allocations are recorded after the chunks have been taken. -/
lemma Inv.twp_recordAll (hnd : ids.Nodup) (hfresh : ∀ id ∈ ids, s.state.allocMap[id]? = some false)
    (hsound : state.Sound)
    (hlive : state.inJournal = s.state.inJournal)
    (hmap : ∀ i : ℕ, state.allocMap[i]? = (setAll s.state.allocMap ids true)[i]?) :
    twp (recordAll tx ids) (fun _ s' => s'.state = state ∧ Takes s s' tx ids ∧ s'.Inv) E
      { s with state } := by
  obtain ⟨e, he⟩ := isSome_iff_exists.mp hopen
  have hnone : ∀ id ∈ ids, e.get? id = none := by
    intro id hid
    rw [← edit_of_get? he]
    exact h.edit_of_free (hfresh id hid) tx
  obtain ⟨e', hfold, hget⟩ := ChunkAllocEdit.foldlM_alloc hnd hnone
  have hlen : state.allocMap.length = s.state.allocMap.length := by
    rw [ext_getElem? hmap, length_setAll]
  have hused : ∀ i, state.allocMap[i]? = some true ↔ s.Used i ∨ i ∈ ids := by
    intro i
    rw [hmap, Used]
    by_cases hi : i ∈ ids
    · rw [getElem?_setAll_of_mem true hi (List.getElem?_eq_some_iff.mp (hfresh i hi)).1]
      simp [hi]
    · rw [getElem?_setAll_of_not_mem _ _ hi]
      simp [hi]
  have hb : Becomes s ⟨state, s.txs.insert tx e'⟩ tx (fun i => s.Used i ∨ i ∈ ids)
      (some fun i => if i ∈ ids then some .alloc else s.edit tx i) := by
    refine becomes_insert hlen hlive hused fun i => ?_
    rw [hget, edit_of_get? he]
  simp only [recordAll, twp_bind]
  refine twp_data he ?_
  simp only [twp_ofOption]
  refine ⟨e', hfold, rfl, ⟨hnd, hfresh, hb⟩, hb.inv h hsound (fun i hi => ?_) fun tx' i hne hi =>
    ?_⟩
  · by_cases hmem : i ∈ ids
    · exact Or.inr hmem
    · simp only [bind_some, if_neg hmem] at hi
      exact Or.inl (h.used tx i hi)
  · have hmem : i ∉ ids := fun hmem => hi (h.edit_of_free (hfresh i hmem) tx')
    refine ⟨Or.inl (h.used tx' i hi), ?_⟩
    simp only [bind_some, if_neg hmem]
    exact h.edit_eq_none hne hi

lemma Inv.twp_alloc (hpos : 0 < s.state.freeCount) :
    twp (alloc tx) (fun r s' => ∃ id, r = some id ∧ s.state.alloc = some (some id, s'.state) ∧
      Takes s s' tx [id] ∧ s'.Inv) E s := by
  rw [h.sound.freeCount] at hpos
  obtain ⟨id, hid, hfree⟩ := ChunkAllocState.exists_alloc h.sound.nextFree hpos
  simp only [alloc, twp_bind]
  refine twp_onState hid ?_
  simp only [twp_bind, twp_pure]
  refine (h.twp_recordAll hopen (nodup_singleton id) ?_ (h.sound.take hfree) rfl
    fun i => rfl).imp fun _ s' hs' => ⟨id, rfl, hs'.1 ▸ hid, hs'.2⟩
  simpa using hfree

lemma Inv.twp_allocBatch {n : ℕ} (hn : n ≤ s.state.freeCount) :
    twp (allocBatch tx n) (fun r s' => ∃ ids, r = some ids ∧
      s.state.allocLoop n [] = some (some ids, s'.state) ∧ ids.length = n ∧
      ids.Pairwise (· ≤ ·) ∧ Takes s s' tx ids ∧ s'.Inv) E s := by
  obtain ⟨ids, state, hloop, hlen, hnd, hfresh, hsound, hlive, hmap⟩ :=
    ChunkAllocState.allocLoop_spec h.sound hn []
  rw [nil_append] at hloop
  generalize hsorted : (ids.mergeSort fun a b => decide (a ≤ b)) = sorted at hloop
  have hperm : sorted.Perm ids := hsorted ▸ mergeSort_perm ids _
  have hle : sorted.Pairwise (· ≤ ·) := by
    rw [← hsorted]
    exact pairwise_mergeSort' (· ≤ ·) ids
  simp only [allocBatch, twp_bind]
  refine twp_onState hloop ?_
  simp only [twp_bind, twp_pure]
  refine (h.twp_recordAll hopen (hperm.nodup_iff.mpr hnd)
    (fun id hid => hfresh id (hperm.mem_iff.mp hid)) hsound hlive fun i => ?_).imp
    fun _ s' hs' => ⟨sorted, rfl, hs'.1 ▸ hloop, hperm.length_eq.trans hlen, hle, hs'.2⟩
  rw [hmap, getElem?_setAll, getElem?_setAll]
  simp only [hperm.mem_iff]

end

lemma Frees.inv (hb : Frees s s' tx ids) (h : s.Inv) (hsound : s'.state.Sound)
    (hids : ∀ id ∈ ids, s.Freeable tx id) : s'.Inv := by
  refine Becomes.inv hb h hsound (fun i hi => ?_) fun tx' i hne hi => ?_
  · by_cases hmem : i ∈ ids
    · refine ⟨(hids i hmem).1, fun halloc => hi ?_⟩
      simp only [bind_some, if_pos hmem, if_pos halloc.2]
    · simp only [bind_some, if_neg hmem] at hi
      exact ⟨h.used tx i hi, fun halloc => hmem halloc.1⟩
  · have hmem : i ∉ ids := fun hmem => hne ((hids i hmem).2 tx' hi).1
    refine ⟨⟨h.used tx' i hi, fun halloc => hmem halloc.1⟩, ?_⟩
    simp only [bind_some, if_neg hmem]
    exact h.edit_eq_none hne hi

lemma Inv.twp_dealloc (h : s.Inv) (hopen : (s.txs.get? tx).isSome) (hid : s.Freeable tx id) :
    twp (dealloc tx id) (fun _ s' => (s.edit tx id ≠ some .alloc → s'.state = s.state) ∧
      Frees s s' tx [id] ∧ s'.Inv) E s := by
  obtain ⟨e, he⟩ := isSome_iff_exists.mp hopen
  have hedit := edit_of_get? he
  have hids : ∀ i ∈ [id], s.Freeable tx i := by simpa using hid
  simp only [dealloc, twp_bind]
  refine twp_data he ?_
  simp only [twp_ofOption, ChunkAllocEdit.dealloc]
  cases hown : e.get? id with
  | none =>
    -- a chunk of the logs: it stays used, and the table says that it is freed
    have hb : Frees s ⟨s.state, s.txs.insert tx (e.insert id .dealloc)⟩ tx [id] := by
      refine becomes_insert rfl rfl (fun i => ?_) fun i => ?_
      · refine (and_iff_left ?_).symm
        rintro ⟨hi, halloc⟩
        rw [mem_singleton.mp hi, hedit, hown] at halloc
        cases halloc
      · rw [get?_insert, hedit]
        by_cases hi : i = id
        · simp [hi, hown]
        · simp [hi]
    exact ⟨_, rfl, fun _ => rfl, hb, hb.inv h h.sound hids⟩
  | some edit =>
    have halloc : s.edit tx id = some .alloc :=
      (hid.2 tx (ne_none_of_eq_some ((hedit id).trans hown))).2
    obtain rfl : edit = .alloc := by
      rw [hedit, hown] at halloc
      exact some.inj halloc
    have hb : Frees s ⟨s.state.giveBack [id], s.txs.insert tx (e.erase id)⟩ tx [id] := by
      refine becomes_insert (length_setAll _ _ _) rfl (fun i => ?_) fun i => ?_
      · change (setAll s.state.allocMap [id] false)[i]? = some true ↔ _
        by_cases hi : i = id
        · subst hi
          rw [getElem?_setAll_of_mem false mem_cons_self (List.getElem?_eq_some_iff.mp hid.1).1]
          simp [halloc]
        · rw [getElem?_setAll_of_not_mem _ _ (by simpa using hi)]
          simp [hi, Used]
      · rw [get?_erase, hedit]
        by_cases hi : i = id
        · simp [hi, hown]
        · simp [hi]
    have hnow : s.state.dealloc id = some (s.state.giveBack [id]) := if_pos hid.1
    refine ⟨_, rfl, twp_changeState hnow ⟨fun hne => absurd halloc hne, hb, ?_⟩⟩
    refine hb.inv h (h.sound.giveBack (nodup_singleton id) ?_) hids
    simpa [Used] using hid.1

lemma Frees.edit_of_not_mem {i : ℕ} (hb : Frees s s' tx ids) (hi : i ∉ ids) :
    s'.edit tx i = s.edit tx i := by
  rw [Becomes.edit_own hb]
  exact if_neg hi

/-- A free of other chunks does not change what can be freed. -/
lemma Frees.freeable {i : ℕ} (hb : Frees s s' tx ids) (hi : i ∉ ids)
    (hfree : s.Freeable tx i) : s'.Freeable tx i := by
  have hown := hb.edit_of_not_mem hi
  refine ⟨(Becomes.used hb i).mpr ⟨hfree.1, fun halloc => hi halloc.1⟩, fun tx' htx' => ?_⟩
  rw [hown]
  by_cases hne : tx' = tx
  · subst hne
    exact hfree.2 tx' (hown ▸ htx')
  · rw [Becomes.edit_other hb hne] at htx'
    exact hfree.2 tx' htx'

lemma Frees.isOpen (hb : Frees s s' tx ids) : (s'.txs.get? tx).isSome := by
  have hown := Becomes.own hb
  cases hget : s'.txs.get? tx with
  | none =>
    rw [hget] at hown
    cases hown
  | some e => rfl

lemma Frees.cons {s₁ : ChunkAlloc} (hb : Frees s s₁ tx [id])
    (hrest : Frees s₁ s' tx ids) (hid : id ∉ ids) : Frees s s' tx (id :: ids) := by
  have hedit : ∀ i, i ≠ id → s₁.edit tx i = s.edit tx i :=
    fun i hi => hb.edit_of_not_mem (by simpa using hi)
  have hused : ∀ i, i ≠ id → (s₁.Used i ↔ s.Used i) := by
    intro i hi
    rw [Becomes.used hb]
    simp [hi]
  refine ⟨hrest.capacity.trans hb.capacity, hrest.inJournal.trans hb.inJournal, fun i => ?_, ?_,
    fun tx' hne => ?_⟩
  · rw [Becomes.used hrest]
    by_cases hi : i = id
    · subst hi
      rw [Becomes.used hb]
      simp [hid]
    · rw [hused i hi, hedit i hi]
      simp [hi]
  · rw [Becomes.own hrest]
    refine congrArg some (funext fun i => ?_)
    by_cases hi : i = id
    · subst hi
      rw [if_neg hid, Becomes.edit_own hb]
      simp
    · rw [hedit i hi]
      simp [hi]
  · rw [Becomes.others hrest tx' hne, Becomes.others hb tx' hne]

section

variable (h : s.Inv)

include h

section

variable (hopen : (s.txs.get? tx).isSome) (hnd : ids.Nodup) (hids : ∀ id ∈ ids, s.Freeable tx id)

include hopen hnd hids

lemma Inv.twp_deallocLoop :
    twp (deallocLoop tx ids) (fun _ s' =>
      ((∀ id ∈ ids, s.edit tx id ≠ some .alloc) → s'.state = s.state) ∧
      Frees s s' tx ids ∧ s'.Inv) E s := by
  induction ids generalizing s with
  | nil =>
    obtain ⟨e, he⟩ := isSome_iff_exists.mp hopen
    refine ⟨fun _ => rfl, ⟨rfl, rfl, fun i => by simp, ?_, fun _ _ => rfl⟩, h⟩
    rw [he]
    exact congrArg some (funext fun i => by simp [edit_of_get? he])
  | cons id ids ih =>
    obtain ⟨hid, hnd⟩ := nodup_cons.mp hnd
    obtain ⟨hfree, hids⟩ := forall_mem_cons.mp hids
    refine (h.twp_dealloc hopen hfree).then fun _ s₁ ⟨hstate, hb, h1⟩ => ?_
    have hnotin : ∀ i ∈ ids, i ∉ [id] := by
      rintro i hi hmem
      exact hid (mem_singleton.mp hmem ▸ hi)
    refine (ih h1 hb.isOpen hnd fun i hi => hb.freeable (hnotin i hi) (hids i hi)).imp
      fun _ s' ⟨hstate', hrest, h'⟩ => ⟨fun hlogs => ?_, hb.cons hrest hid, h'⟩
    obtain ⟨hlog, hlogs⟩ := forall_mem_cons.mp hlogs
    refine (hstate' fun i hi => ?_).trans (hstate hlog)
    rw [hb.edit_of_not_mem (hnotin i hi)]
    exact hlogs i hi

lemma Inv.twp_deallocBatch :
    twp (deallocBatch tx ids) (fun _ s' =>
      ((∀ id ∈ ids, s.edit tx id ≠ some .alloc) → s'.state = s.state) ∧
      Frees s s' tx ids ∧ s'.Inv) E s := by
  obtain ⟨e, he⟩ := isSome_iff_exists.mp hopen
  simp only [deallocBatch, twp_bind]
  exact twp_data he (h.twp_deallocLoop hopen hnd hids)

end

/-- The end of a transaction gives the chunks with one of the two edits back. -/
lemma Inv.giveBack (he : s.txs.get? tx = some e) (edit : ChunkEdit) :
    s.state.deallocAll (ChunkAllocEdit.chunks e edit) =
        some (s.state.giveBack (ChunkAllocEdit.chunks e edit)) ∧
      Becomes s ⟨s.state.giveBack (ChunkAllocEdit.chunks e edit), s.txs.erase tx⟩ tx
        (fun i => s.Used i ∧ s.edit tx i ≠ some edit) none ∧
      Inv ⟨s.state.giveBack (ChunkAllocEdit.chunks e edit), s.txs.erase tx⟩ := by
  have hmem : ∀ i, i ∈ ChunkAllocEdit.chunks e edit ↔ s.edit tx i = some edit := by
    intro i
    rw [ChunkAllocEdit.mem_chunks, edit_of_get? he]
  have hused : ∀ i ∈ ChunkAllocEdit.chunks e edit, s.state.allocMap[i]? = some true := by
    intro i hi
    exact h.used tx i (ne_none_of_eq_some ((hmem i).mp hi))
  have hnd := ChunkAllocEdit.nodup_chunks e edit
  have hb : Becomes s ⟨s.state.giveBack (ChunkAllocEdit.chunks e edit), s.txs.erase tx⟩ tx
      (fun i => s.Used i ∧ s.edit tx i ≠ some edit) none := by
    refine becomes_erase (length_setAll _ _ _) rfl fun i => ?_
    change (setAll s.state.allocMap (ChunkAllocEdit.chunks e edit) false)[i]? = some true ↔ _
    by_cases hi : i ∈ ChunkAllocEdit.chunks e edit
    · rw [getElem?_setAll_of_mem false hi (List.getElem?_eq_some_iff.mp (hused i hi)).1]
      simp [(hmem i).mp hi]
    · rw [getElem?_setAll_of_not_mem _ _ hi]
      exact (and_iff_left fun hedit => hi ((hmem i).mpr hedit)).symm
  refine ⟨ChunkAllocState.deallocAll_eq hnd hused, hb,
    hb.inv h (h.sound.giveBack hnd hused) (fun i hi => (hi rfl).elim) fun tx' i hne hi => ?_⟩
  refine ⟨⟨h.used tx' i hi, fun hedit => ?_⟩, rfl⟩
  rw [h.edit_eq_none hne hi] at hedit
  cases hedit

lemma Inv.twp_commit (hlive : s.state.inJournal = false) (hopen : (s.txs.get? tx).isSome) :
    twp (commit tx) (fun _ s' =>
      (∀ e, s.txs.get? tx = some e →
        s'.state = s.state.giveBack (ChunkAllocEdit.chunks e .dealloc)) ∧
      Becomes s s' tx (fun i => s.Used i ∧ s.edit tx i ≠ some .dealloc) none ∧ s'.Inv) E s := by
  obtain ⟨e, he⟩ := isSome_iff_exists.mp hopen
  have hstate : ∀ e', s.txs.get? tx = some e' →
    s.state.giveBack (ChunkAllocEdit.chunks e .dealloc) =
      s.state.giveBack (ChunkAllocEdit.chunks e' .dealloc) := by
    intro e' he'
    rw [some.inj (he.symm.trans he')]
  obtain ⟨hall, hafter⟩ := h.giveBack he .dealloc
  simp only [commit, twp_bind]
  refine twp_data he ?_
  split
  · next hempty =>
    have hnil : ChunkAllocEdit.chunks e .dealloc = [] := by
      rw [ChunkAllocEdit.chunks, isEmpty_iff.mp hempty]
      rfl
    rw [hnil] at hafter hstate
    exact ⟨hstate, hafter⟩
  · have happly : ChunkAllocEdit.applyTo e s.state =
        some (s.state.giveBack (ChunkAllocEdit.chunks e .dealloc)) := by
      rw [ChunkAllocEdit.applyTo, hlive]
      exact hall
    rw [twp_bind]
    exact twp_changeState happly ⟨hstate, hafter⟩

lemma Inv.twp_abort (hopen : (s.txs.get? tx).isSome) :
    twp (abort tx) (fun _ s' => ((∀ id, s.edit tx id ≠ some .alloc) → s'.state = s.state) ∧
      Becomes s s' tx (fun i => s.Used i ∧ s.edit tx i ≠ some .alloc) none ∧ s'.Inv) E s := by
  obtain ⟨e, he⟩ := isSome_iff_exists.mp hopen
  obtain ⟨hall, hafter⟩ := h.giveBack he .alloc
  simp only [abort, twp_bind]
  refine twp_data he (twp_changeState hall ⟨fun hnone => ?_, hafter⟩)
  have hnil : ChunkAllocEdit.chunks e .alloc = [] := by
    refine eq_nil_iff_forall_not_mem.mpr fun id hid => hnone id ?_
    rw [edit_of_get? he]
    exact ChunkAllocEdit.mem_chunks.mp hid
  rw [hnil]
  rfl

lemma Inv.twp_newTx (hnew : s.txs.get? tx = none) :
    twp (newTx tx) (fun _ s' => s'.state = s.state ∧
      Becomes s s' tx s.Used (some fun _ => none) ∧ s'.Inv) E s := by
  have hb : Becomes s ⟨s.state, s.txs.insert tx empty⟩ tx s.Used
      (some fun _ => none) := becomes_insert rfl rfl (fun _ => Iff.rfl) fun _ => rfl
  simp only [newTx, twp_modify, hnew, isSome_none, Bool.false_eq_true, if_false]
  exact ⟨trivial, hb, hb.inv h h.sound (fun i hi => (hi rfl).elim) fun tx' i _ hi =>
    ⟨h.used tx' i hi, rfl⟩⟩

end

/-! ### Runs -/

end ChunkAlloc

/-- A call of the allocator, by some transaction. -/
inductive ChunkOp
  | newTx
  | alloc
  | allocBatch (count : ℕ)
  | dealloc (id : ℕ)
  | deallocBatch (ids : List ℕ)
  | commit
  | abort

/-- What a call returns. -/
inductive ChunkReply
  | done
  | chunk (id : Option ℕ)
  | chunks (ids : Option (List ℕ))

namespace ChunkOp

/-- The method that is called. -/
def run (tx : ℕ) : ChunkOp → ChunkAlloc.Prog ChunkReply
  | newTx => do ChunkAlloc.newTx tx; return .done
  | alloc => do return .chunk (← ChunkAlloc.alloc tx)
  | allocBatch count => do return .chunks (← ChunkAlloc.allocBatch tx count)
  | dealloc id => do ChunkAlloc.dealloc tx id; return .done
  | deallocBatch ids => do ChunkAlloc.deallocBatch tx ids; return .done
  | commit => do ChunkAlloc.commit tx; return .done
  | abort => do ChunkAlloc.abort tx; return .done

/-- What the call of a transaction is supposed to do. -/
def Answers (s : ChunkAlloc) (tx : ℕ) (r : ChunkReply) (s' : ChunkAlloc) : ChunkOp → Prop
  | newTx => r = .done ∧ s.Becomes s' tx s.Used (some fun _ => none)
  | alloc => ∃ id, r = .chunk (some id) ∧ s.Takes s' tx [id]
  | allocBatch count => ∃ ids, r = .chunks (some ids) ∧ ids.length = count ∧
      ids.Pairwise (· ≤ ·) ∧ s.Takes s' tx ids
  | dealloc id => r = .done ∧ s.Frees s' tx [id]
  | deallocBatch ids => r = .done ∧ s.Frees s' tx ids
  | commit => r = .done ∧ s.Becomes s' tx (fun i => s.Used i ∧ s.edit tx i ≠ some .dealloc) none
  | abort => r = .done ∧ s.Becomes s' tx (fun i => s.Used i ∧ s.edit tx i ≠ some .alloc) none

/-- There are as many free chunks as the call asks for, and it frees chunks that no other
transaction has allocated or freed. -/
def Permitted (s : ChunkAlloc) (tx : ℕ) : ChunkOp → Prop
  | newTx => s.txs.get? tx = none
  | alloc => (s.txs.get? tx).isSome ∧ 0 < s.state.freeCount
  | allocBatch count => (s.txs.get? tx).isSome ∧ count ≤ s.state.freeCount
  | dealloc id => (s.txs.get? tx).isSome ∧ s.Freeable tx id
  | deallocBatch ids => (s.txs.get? tx).isSome ∧ ids.Nodup ∧ ∀ id ∈ ids, s.Freeable tx id
  | commit => (s.txs.get? tx).isSome
  | abort => (s.txs.get? tx).isSome

variable {s s' : ChunkAlloc} {tx : ℕ}

/-- One call: it returns, with the right answer, and keeps the invariant. -/
lemma twp_run {op : ChunkOp} (h : s.Inv) (hlive : s.state.inJournal = false)
    (hop : op.Permitted s tx) :
    yields (op.run tx) (fun r s' => op.Answers s tx r s' ∧ s'.Inv) s := by
  cases op with
  | newTx => exact (h.twp_newTx hop).then fun _ s' ⟨_, hb, h'⟩ => ⟨⟨rfl, hb⟩, h'⟩
  | alloc =>
    exact (h.twp_alloc hop.1 hop.2).then fun _ s' ⟨id, hid, _, ht, h'⟩ =>
      ⟨⟨id, hid ▸ rfl, ht⟩, h'⟩
  | allocBatch count =>
    exact (h.twp_allocBatch hop.1 hop.2).then fun _ s' ⟨ids, hids, _, hlen, hle, ht, h'⟩ =>
      ⟨⟨ids, hids ▸ rfl, hlen, hle, ht⟩, h'⟩
  | dealloc id =>
    exact (h.twp_dealloc hop.1 hop.2).then fun _ s' ⟨_, hb, h'⟩ => ⟨⟨rfl, hb⟩, h'⟩
  | deallocBatch ids =>
    exact (h.twp_deallocBatch hop.1 hop.2.1 hop.2.2).then fun _ s' ⟨_, hb, h'⟩ => ⟨⟨rfl, hb⟩, h'⟩
  | commit => exact (h.twp_commit hlive hop).then fun _ s' ⟨_, hb, h'⟩ => ⟨⟨rfl, hb⟩, h'⟩
  | abort => exact (h.twp_abort hop).then fun _ s' ⟨_, hb, h'⟩ => ⟨⟨rfl, hb⟩, h'⟩

/-- The states that the permitted calls of the transactions lead to, in any order. -/
inductive Reached (capacity : ℕ) : ChunkAlloc → Prop
  | new : Reached capacity (.new capacity)
  | call {s s' : ChunkAlloc} (tx : ℕ) (op : ChunkOp) (r : ChunkReply) : Reached capacity s →
      op.Permitted s tx → op.run tx s = .ok r s' → Reached capacity s'

/-- The capacity and the kind of the state never change. -/
lemma Answers.capacity {r : ChunkReply} {op : ChunkOp} (h : op.Answers s tx r s') :
    s'.state.allocMap.length = s.state.allocMap.length ∧
      s'.state.inJournal = s.state.inJournal := by
  have hb : ∃ used table, s.Becomes s' tx used table := by
    cases op with
    | newTx => exact ⟨_, _, h.2⟩
    | alloc =>
      obtain ⟨id, -, ht⟩ := h
      exact ⟨_, _, ht.becomes⟩
    | allocBatch count =>
      obtain ⟨ids, -, -, -, ht⟩ := h
      exact ⟨_, _, ht.becomes⟩
    | dealloc id | deallocBatch ids | commit | abort => exact ⟨_, _, h.2⟩
  obtain ⟨used, table, hb⟩ := hb
  exact ⟨hb.capacity, hb.inJournal⟩

lemma inv_new (capacity : ℕ) : (ChunkAlloc.new capacity).Inv := by
  have hnone : ∀ tx id, (ChunkAlloc.new capacity).edit tx id = none := fun _ _ => rfl
  refine ⟨⟨?_, zero_le⟩, fun tx id h => (h (hnone tx id)).elim,
    fun tx _ id h => (h (hnone tx id)).elim⟩
  simp [ChunkAlloc.new, ChunkAlloc.fromParts, ChunkAllocState.new]

lemma Reached.inv {capacity : ℕ} (h : Reached capacity s) :
    s.Inv ∧ s.state.inJournal = false ∧ s.state.allocMap.length = capacity := by
  induction h with
  | new => exact ⟨inv_new capacity, rfl, length_replicate⟩
  | call tx op r hs hop hrun ih =>
    obtain ⟨hinv, hlive, hcap⟩ := ih
    obtain ⟨hans, hinv'⟩ := (twp_run hinv hlive hop).of_ok hrun
    exact ⟨hinv', hans.capacity.2.trans hlive, hans.capacity.1.trans hcap⟩

/-- A call for more chunks than there are does not return. -/
lemma le_of_run_allocBatch (h : s.Inv) {count : ℕ} {r : ChunkReply}
    (hrun : (allocBatch count).run tx s = .ok r s') : count ≤ s.state.freeCount := by
  by_contra hlt
  have hloop := ChunkAllocState.allocLoop_eq_none h.sound (not_le.mp hlt) []
  have hnever : wp ((allocBatch count).run tx) (fun _ _ => False) (fun _ _ => False) s := by
    simp only [run, ChunkAlloc.allocBatch, ChunkAlloc.onState, wp_bind, wp_get,
      hloop, wp_ofOption_none]
  exact hnever.of_ok hrun

lemma pos_of_run_alloc (h : s.Inv) {r : ChunkReply} (hrun : alloc.run tx s = .ok r s') :
    0 < s.state.freeCount := by
  by_contra hzero
  have hnone : s.state.alloc = none := by
    refine ChunkAllocState.alloc_eq_none ?_
    rw [← h.sound.freeCount]
    exact Nat.eq_zero_of_not_pos hzero
  have hnever : wp (alloc.run tx) (fun _ _ => False) (fun _ _ => False) s := by
    simp only [run, ChunkAlloc.alloc, ChunkAlloc.onState, wp_bind, wp_get, hnone, wp_ofOption_none]
  exact hnever.of_ok hrun

/-- Whatever the transactions do, as long as they free only chunks that no other open transaction
has allocated or freed: the counter is the number of clear bits, what a transaction has recorded is
about used chunks that no other transaction has recorded, and every call does what it should, which
for the two allocations means that there are enough free chunks. -/
theorem chunk_alloc_transactional {capacity : ℕ} {s : ChunkAlloc} (h : Reached capacity s) :
    s.state.allocMap.length = capacity ∧ s.Inv ∧
      (∀ tx (op : ChunkOp), op.Permitted s tx → ∃ r s', op.run tx s = .ok r s' ∧
        op.Answers s tx r s') ∧
      (∀ tx, (s.txs.get? tx).isSome →
        ((∃ r s', alloc.run tx s = .ok r s') ↔ 0 < s.state.freeCount)) ∧
      ∀ tx count, (s.txs.get? tx).isSome →
        ((∃ r s', (allocBatch count).run tx s = .ok r s') ↔ count ≤ s.state.freeCount) := by
  obtain ⟨hinv, hlive, hcap⟩ := h.inv
  have hanswers : ∀ tx (op : ChunkOp), op.Permitted s tx →
      ∃ r s', op.run tx s = .ok r s' ∧ op.Answers s tx r s' := by
    intro tx op hop
    rcases (twp_run hinv hlive hop).returns with ⟨r, s', hrun, hans, -⟩ | ⟨e, _, _, hfalse⟩
    · exact ⟨r, s', hrun, hans⟩
    · exact hfalse.elim
  refine ⟨hcap, hinv, hanswers, fun tx hopen => ⟨?_, fun hpos => ?_⟩,
    fun tx count hopen => ⟨?_, fun hle => ?_⟩⟩
  · rintro ⟨r, s', hrun⟩
    exact pos_of_run_alloc hinv hrun
  · obtain ⟨r, s', hrun, -⟩ := hanswers tx .alloc ⟨hopen, hpos⟩
    exact ⟨r, s', hrun⟩
  · rintro ⟨r, s', hrun⟩
    exact le_of_run_allocBatch hinv hrun
  · obtain ⟨r, s', hrun, -⟩ := hanswers tx (.allocBatch count) ⟨hopen, hle⟩
    exact ⟨r, s', hrun⟩

/-- One transaction commits two chunks.  Then one frees a chunk and commits, while another one takes
a chunk and aborts, upon which both chunks can be taken. -/
theorem chunk_alloc_transactional_of_three :
    ∃ s r s', Reached 3 s ∧ s.state.allocMap = [false, true, false] ∧
      (allocBatch 2).run 4 s = .ok r s' ∧ (allocBatch 2).Answers s 4 r s' := by
  have hfirst :
      Reached 3 ⟨⟨[true, false, false], 2, 1, false⟩, empty.insert 1 (empty.insert 0 .alloc)⟩ :=
    .call 1 .alloc (.chunk (some 0)) (.call 1 .newTx .done .new rfl rfl) ⟨rfl, by decide⟩ rfl
  have hcommitted : Reached 3 ⟨⟨[true, true, false], 1, 2, false⟩, empty⟩ :=
    .call 1 .commit .done (.call 1 .alloc (.chunk (some 1)) hfirst ⟨rfl, by decide⟩ rfl) rfl rfl
  have hboth :
      Reached 3 ⟨⟨[true, true, false], 1, 2, false⟩, (empty.insert 2 empty).insert 3 empty⟩ :=
    .call 3 .newTx .done (.call 2 .newTx .done hcommitted rfl rfl) rfl rfl
  have hfreeable : ChunkAlloc.Freeable
      ⟨⟨[true, true, false], 1, 2, false⟩, (empty.insert 2 empty).insert 3 empty⟩ 2 0 := by
    refine ⟨rfl, fun tx htx => ?_⟩
    by_cases h3 : tx = 3 <;> by_cases h2 : tx = 2 <;> simp [ChunkAlloc.edit, h3, h2] at htx
  have htaken : Reached 3 ⟨⟨[true, true, true], 0, 3, false⟩,
      (empty.insert 2 (empty.insert 0 .dealloc)).insert 3 (empty.insert 2 .alloc)⟩ :=
    .call 3 .alloc (.chunk (some 2)) (.call 2 (.dealloc 0) .done hboth ⟨rfl, hfreeable⟩ rfl)
      ⟨rfl, by decide⟩ rfl
  have hs : Reached 3 ⟨⟨[false, true, false], 2, 3, false⟩, empty.insert 4 empty⟩ :=
    .call 4 .newTx .done (.call 2 .commit .done (.call 3 .abort .done htaken rfl rfl) rfl rfl) rfl
      rfl
  obtain ⟨r, s', hrun, hans⟩ :=
    (chunk_alloc_transactional hs).2.2.1 4 (.allocBatch 2) ⟨rfl, le_refl 2⟩
  exact ⟨_, r, s', hs, rfl, hrun, hans⟩

/-- A full allocator panics instead of returning `None`.  And two transactions can both free a chunk
of the logs, upon which the second commit panics. -/
theorem chunk_alloc_panics :
    (∃ s₁ s₂, newTx.run 0 (.new 1) = .ok .done s₁ ∧ alloc.run 0 s₁ = .ok (.chunk (some 0)) s₂ ∧
      s₂.state.freeCount = 0 ∧ alloc.run 0 s₂ = .panic ∧ (allocBatch 1).run 0 s₂ = .panic) ∧
    ∃ s s₁ s₂ s₃ s₄ s₅, Reached 2 s ∧ s.Used 0 ∧ s.txs = empty ∧
      newTx.run 1 s = .ok .done s₁ ∧ newTx.run 2 s₁ = .ok .done s₂ ∧
      (dealloc 0).run 1 s₂ = .ok .done s₃ ∧ (dealloc 0).run 2 s₃ = .ok .done s₄ ∧
      commit.run 1 s₄ = .ok .done s₅ ∧ commit.run 2 s₅ = .panic := by
  refine ⟨⟨_, _, rfl, rfl, rfl, rfl, rfl⟩, ?_⟩
  have hs : Reached 2 ⟨⟨[true, false], 1, 1, false⟩, empty⟩ :=
    .call 0 .commit .done
      (.call 0 .alloc (.chunk (some 0)) (.call 0 .newTx .done .new rfl rfl) ⟨rfl, by decide⟩ rfl)
      rfl rfl
  exact ⟨_, _, _, _, _, _, hs, rfl, rfl, rfl, rfl, rfl, rfl, rfl, rfl⟩

end ChunkOp

end Asterinas.Mlsdisk
