import Asterinas.Mlsdisk.MhtSpec

/-!
# Searching the tree and the buffer

A search fills the buffer of the caller in two parts, what lies in the buffer of appended data and
what lies in the tree.  `Filled` says which part of the caller's buffer has been filled.
-/

namespace Asterinas.Mlsdisk

open Framework Exec List Nat

variable {K M : Type}

lemma alignUp_div {align : ℕ} (h : 0 < align) (x : ℕ) : alignUp x align / align = x ⌈/⌉ align :=
  Nat.mul_div_cancel _ h

/-! ### Filling a buffer -/

/-- In a read from `pos` on, the blocks `o` to `o + k` of the buffer have been filled. -/
structure Filled (blocks : List (List UInt8)) (pos o k : ℕ) (old new : List (List UInt8)) :
    Prop where
  length : new.length = old.length
  get : ∀ i, new[i]? = if o ≤ i ∧ i < o + k then blocks[pos + i]? else old[i]?

namespace Filled

variable {blocks a b c : List (List UInt8)} {pos o k k' : ℕ}

lemma refl : Filled blocks pos o 0 a a :=
  ⟨rfl, fun i => by rw [if_neg (by omega)]⟩

section

variable (h : Filled blocks pos o k a b)

include h

/-- Two parts that make up a third one. -/
lemma union {o' p n : ℕ} (h' : Filled blocks pos o' k' b c)
    (hiff : ∀ i, p ≤ i ∧ i < p + n ↔ (o' ≤ i ∧ i < o' + k') ∨ o ≤ i ∧ i < o + k) :
    Filled blocks pos p n a c := by
  refine ⟨h'.length.trans h.length, fun i => ?_⟩
  rw [h'.get i, h.get i, ← ite_or]
  simp only [hiff]

lemma trans (h' : Filled blocks pos (o + k) k' b c) : Filled blocks pos o (k + k') a c :=
  h.union h' fun i => by omega

/-- The parts before and from `o` on, filled in the other order. -/
lemma trans_before (h' : Filled blocks pos 0 o b c) : Filled blocks pos 0 (o + k) a c :=
  h.union h' fun i => by omega

end

/-- The first block, and then the others. -/
lemma cons {block : List UInt8} (ho : o < a.length) (hb : blocks[pos + o]? = some block)
    (h : Filled blocks pos (o + 1) k (a.set o block) b) : Filled blocks pos o (k + 1) a b := by
  refine ⟨h.length.trans length_set, fun i => ?_⟩
  rw [h.get i, getElem?_set]
  by_cases hi : o = i
  · subst hi
    rw [if_neg (by omega), if_pos rfl, if_pos ho, if_pos (by omega), hb]
  · rw [if_neg hi]
    exact if_congr (by omega) rfl rfl

/-- A buffer that has been filled as a whole. -/
lemma eq_of_all (h : Filled blocks pos 0 a.length a b) : b = (blocks.drop pos).take a.length := by
  refine ext_getElem? fun i => ?_
  rw [h.get i, getElem?_take, getElem?_drop]
  by_cases hi : i < a.length
  · rw [if_pos (by omega), if_pos hi]
  · rw [if_neg (by omega), if_neg hi, getElem?_eq_none (by omega)]

/-- What was filled from the first blocks was filled from all of them. -/
lemma of_prefix (h : Filled blocks pos o k a b) (hk : pos + (o + k) ≤ blocks.length)
    (more : List (List UInt8)) : Filled (blocks ++ more) pos o k a b := by
  refine ⟨h.length, fun i => ?_⟩
  rw [h.get i]
  by_cases hi : o ≤ i ∧ i < o + k
  · rw [if_pos hi, if_pos hi, getElem?_append_left (by omega)]
  · rw [if_neg hi, if_neg hi]

end Filled

/-! ### The loops of a search -/

namespace SearchCtx

variable {env : MhtEnv K M} {log : BlockLog} {blocks : List (List UInt8)} {pos : ℕ}
  {E : Error → SearchCtx → Prop}

variable {ctx : SearchCtx}

lemma twp_writeNode {o : ℕ} {block : List UInt8} (ho : o < ctx.dataBuf.length) :
    twp (writeNode o (.ok block))
      (fun _ ctx' => ctx' = { ctx with dataBuf := ctx.dataBuf.set o block }) E ctx := by
  simp [writeNode, ho]

variable {entries : List (MhtNodeEntry K M)}

lemma twp_readEntries {o s e : ℕ} (h : Numbered (Mht.Covers env log blocks 0) (pos + o) entries)
    (hbuf : o + entries.length ≤ ctx.dataBuf.length) :
    twp (readEntries env log entries s e o)
      (fun r ctx' => r = (if entries.length = 0 then s else 0, e - entries.length,
          o + entries.length) ∧
        ∃ buf, ctx' = { ctx with dataBuf := buf } ∧
          Filled blocks pos o entries.length ctx.dataBuf buf) E ctx := by
  induction entries generalizing ctx s e o with
  | nil => exact ⟨by simp, ctx.dataBuf, rfl, Filled.refl⟩
  | cons entry rest ih =>
    obtain ⟨⟨block, hblock, hread⟩, hrest⟩ := Numbered.cons_iff.mp h
    rw [length_cons] at hbuf
    have ho : o < ctx.dataBuf.length := by omega
    rw [readEntries, hread]
    refine (twp_writeNode ho).then ?_
    rintro _ _ rfl
    refine (ih hrest (by rw [length_set]; omega)).imp ?_
    rintro r ctx' ⟨rfl, buf, rfl, hfilled⟩
    refine ⟨?_, buf, rfl, ?_⟩
    · simp only [ite_self, length_cons, add_one_ne_zero, if_false]
      rw [Nat.sub_sub, add_comm 1, add_assoc o 1, add_comm 1]
    · exact hfilled.cons ho hblock

lemma twp_copyNodes {o : ℕ} {nodes : List (List UInt8)}
    (h : Numbered (fun c block => blocks[c]? = some block) (pos + o) nodes)
    (hbuf : o + nodes.length ≤ ctx.dataBuf.length) : twp (copyNodes nodes o)
      (fun _ ctx' => ∃ buf, ctx' = { ctx with dataBuf := buf } ∧
        Filled blocks pos o nodes.length ctx.dataBuf buf) E ctx := by
  induction nodes generalizing ctx o with
  | nil => exact ⟨ctx.dataBuf, rfl, Filled.refl⟩
  | cons node rest ih =>
    obtain ⟨hblock, hrest⟩ := Numbered.cons_iff.mp h
    rw [length_cons] at hbuf
    have ho : o < ctx.dataBuf.length := by omega
    rw [copyNodes]
    refine (twp_writeNode ho).then ?_
    rintro _ _ rfl
    refine (ih hrest (by rw [length_set]; omega)).imp ?_
    rintro _ ctx' ⟨buf, rfl, hfilled⟩
    exact ⟨buf, rfl, hfilled.cons ho hblock⟩

lemma twp_collectDataNodes (h : Numbered (Mht.Covers env log blocks 0) (pos + ctx.offset) entries)
    (hbuf : ctx.offset + entries.length ≤ ctx.dataBuf.length) :
    twp (collectDataNodes env log entries)
      (fun _ ctx' => Filled blocks pos ctx.offset entries.length ctx.dataBuf ctx'.dataBuf) E
          ctx := by
  induction entries generalizing ctx with
  | nil => exact Filled.refl
  | cons entry rest ih =>
    obtain ⟨⟨block, hblock, hread⟩, hrest⟩ := Numbered.cons_iff.mp h
    rw [length_cons] at hbuf
    have ho : ctx.offset < ctx.dataBuf.length := by omega
    rw [collectDataNodes, twp_bind, twp_get, hread]
    refine (twp_writeNode ho).then ?_
    rintro _ _ rfl
    rw [twp_bind, twp_modify]
    refine twp.imp (ih hrest (by simp only [length_set]; omega)) ?_
    exact fun _ ctx' hfilled => hfilled.cons ho hblock

end SearchCtx

/-! ### The levels of the tree -/

namespace Mht

variable {env : MhtEnv K M} {log : BlockLog} {data : List (List UInt8)}

/-- The node with this number at height `h + 1`. -/
def NodeAt (env : MhtEnv K M) (log : BlockLog) (data : List (List UInt8)) (h c : ℕ)
    (node : MhtNode K M) : Prop :=
  node.IsAt (Covers env log data h) data.length h c

variable {h : ℕ}

/-- The nodes that entries lead to can be read. -/
lemma mapM_readChild {c : ℕ} {entries : List (MhtNodeEntry K M)}
    (hE : Numbered (Covers env log data (h + 1)) c entries) :
    ∃ nodes, entries.mapM (MhtStorage.readChild env log) = .ok nodes ∧
      nodes.length = entries.length ∧ Numbered (NodeAt env log data h) c nodes := by
  induction entries generalizing c with
  | nil => exact ⟨[], rfl, rfl, Numbered.nil⟩
  | cons entry rest ih =>
    obtain ⟨⟨node, hread, hnode⟩, hrest⟩ := Numbered.cons_iff.mp hE
    obtain ⟨nodes, hnodes, hlen, hall⟩ := ih hrest
    refine ⟨node :: nodes, ?_, by simp [hlen], Numbered.cons_iff.mpr ⟨hnode, hall⟩⟩
    rw [mapM_cons, hread, hnodes]
    rfl

/-- The entries that a level of a search selects: as many as needed, with the numbers from that of
the first block on. -/
lemma targetEntries {c pos num : ℕ} {targets : List (MhtNode K M)}
    (hT : Numbered (NodeAt env log data h) c targets)
    (hend : c * mhtNbranches ^ (h + 1) + pos + num ≤ data.length)
    (hcov : pos + num ≤ targets.length * mhtNbranches ^ (h + 1)) :
    (((targets.flatMap MhtNode.entries).drop (pos / mhtNbranches ^ h)).take
        ((num + pos % mhtNbranches ^ h) ⌈/⌉ mhtNbranches ^ h)).length =
          (num + pos % mhtNbranches ^ h) ⌈/⌉ mhtNbranches ^ h ∧
      Numbered (Covers env log data h) (c * mhtNbranches + pos / mhtNbranches ^ h)
        (((targets.flatMap MhtNode.entries).drop (pos / mhtNbranches ^ h)).take
          ((num + pos % mhtNbranches ^ h) ⌈/⌉ mhtNbranches ^ h)) := by
  have hm : 0 < mhtNbranches ^ h := branches_pow_pos
  have hpos := div_add_mod pos (mhtNbranches ^ h)
  set m := mhtNbranches ^ h with hmdef
  have hpow : mhtNbranches ^ (h + 1) = mhtNbranches * m := pow_succ' mhtNbranches h
  rw [hpow, ← mul_assoc] at hend hcov
  have hlen : ∀ node ∈ targets, node.entries.length = mhtNbranches := by
    intro node hnode
    obtain ⟨j, hj⟩ := mem_iff_getElem?.mp hnode
    exact (hT j node hj).length_entries
  have hflat : (targets.flatMap MhtNode.entries).length = targets.length * mhtNbranches := by
    rw [length_flatMap, map_congr_left hlen]
    simp
  have hneeded : (num + pos % m) ⌈/⌉ m ≤ targets.length * mhtNbranches - pos / m := by
    rw [ceilDiv_le_iff_le_mul hm, Nat.mul_sub, mul_comm m (targets.length * mhtNbranches)]
    omega
  refine ⟨by rw [length_take, length_drop, hflat]; omega, ?_⟩
  have hall := ((Numbered.flatMap hlen (hT.mono fun j hj node hnode => hnode.children)).drop
    (pos / m)).take ((num + pos % m) ⌈/⌉ m)
  refine hall.mono fun j hj entry hentry => hentry ?_
  -- The last of these nodes has a block of the read below it.
  rw [length_take] at hj
  have hj' : m * j < num + pos % m := by
    rw [← not_le, ← ceilDiv_le_iff_le_mul hm]
    omega
  rw [lt_levelCount_iff, ← hmdef, add_mul, add_mul, mul_comm (pos / m), mul_comm j]
  omega

/-- A search from a level of the tree fills the buffer. -/
lemma twp_searchHierarchy {c : ℕ} {targets : List (MhtNode K M)} {ctx : SearchCtx}
    (hT : Numbered (NodeAt env log data h) c targets)
    (hend : c * mhtNbranches ^ (h + 1) + ctx.pos + ctx.num ≤ data.length)
    (hcov : ctx.pos + ctx.num ≤ targets.length * mhtNbranches ^ (h + 1)) (hoffset : ctx.offset = 0)
    (hbuf : ctx.num ≤ ctx.dataBuf.length) : yields (searchHierarchy env log (h + 1) targets)
      (fun _ ctx' => Filled data (c * mhtNbranches ^ (h + 1) + ctx.pos) 0 ctx.num ctx.dataBuf
        ctx'.dataBuf) ctx := by
  induction h generalizing c targets ctx with
  | zero =>
    obtain ⟨hlen, hentries⟩ := targetEntries hT hend hcov
    rw [searchHierarchy]
    simp only [twp_bind, twp_get, twp_modify, MhtNode.maxNumDataNodes,
      alignUp_div branches_pow_pos, ← mod_eq_sub_div_mul, if_true]
    rw [zero_add, pow_one]
    simp only [pow_zero, mod_one, Nat.div_one, add_zero, ceilDiv_one] at hlen hentries ⊢
    have hstart : c * mhtNbranches + ctx.pos = c * mhtNbranches + ctx.pos + ctx.offset := by
      rw [hoffset, add_zero]
    rw [hstart] at hentries
    refine twp.imp (SearchCtx.twp_collectDataNodes hentries ?_) ?_
    · rw [hoffset, hlen, zero_add]
      exact hbuf
    · intro _ ctx' hfilled
      rwa [hlen, hoffset] at hfilled
  | succ h ih =>
    obtain ⟨hlen, hentries⟩ := targetEntries hT hend hcov
    obtain ⟨nodes, hnodes, hcount, hall⟩ := mapM_readChild hentries
    rw [searchHierarchy]
    simp only [twp_bind, twp_get, twp_modify, MhtNode.maxNumDataNodes,
      alignUp_div branches_pow_pos, ← mod_eq_sub_div_mul, add_one_ne_zero,
      if_false, hnodes, twp_ofExcept, Except.ok.injEq, reduceCtorEq, false_implies,
      implies_true, and_true, forall_eq']
    have hsplit : (c * mhtNbranches + ctx.pos / mhtNbranches ^ (h + 1)) * mhtNbranches ^ (h + 1) +
        ctx.pos % mhtNbranches ^ (h + 1) = c * mhtNbranches ^ (h + 1 + 1) + ctx.pos := by
      rw [add_mul, mul_assoc, ← pow_succ', add_assoc, div_add_mod']
    rw [← hsplit]
    have hfit : ctx.pos % mhtNbranches ^ (h + 1) + ctx.num ≤
        nodes.length * mhtNbranches ^ (h + 1) := by
      rw [hcount, hlen, add_comm, mul_comm, ← ceilDiv_le_iff_le_mul branches_pow_pos]
    exact ih hall (by simp only [hsplit]; exact hend) hfit hoffset hbuf

/-! ### The buffer of appended data -/

/-- The blocks `pending` lie in the buffer, after those of the tree: first the queue of entries,
then the queue of nodes. -/
structure Buffers (env : MhtEnv K M) (mht : Mht K M) (tree pending : List (List UInt8)) : Prop where
  startPos : mht.dataBuf.startPos = tree.length
  entries : Numbered (Covers env mht.blockLog (tree ++ pending) 0) tree.length
    mht.dataBuf.entryQueue
  entries_le : mht.dataBuf.entryQueue.length ≤ pending.length
  nodes : mht.dataBuf.nodeQueue = pending.drop mht.dataBuf.entryQueue.length

/-- The reads that the search of the buffer gets right: those that start before the buffer or with
it, those while one of the queues is empty, and those from the queue of entries to the end. -/
def BufferAligned (mht : Mht K M) (pos num : ℕ) : Prop :=
  pos ≤ mht.dataBuf.startPos ∨ mht.dataBuf.entryQueue = [] ∨ mht.dataBuf.nodeQueue = [] ∨
    (pos < mht.dataBuf.startPos + mht.dataBuf.entryQueue.length ∧
      pos + num = mht.dataBuf.startPos + mht.dataBuf.numAppend)

namespace Buffers

variable {mht : Mht K M} {tree pending : List (List UInt8)}

section

variable (hB : Buffers env mht tree pending)

include hB

lemma length_nodes :
    mht.dataBuf.nodeQueue.length + mht.dataBuf.entryQueue.length = pending.length := by
  have := hB.entries_le
  rw [hB.nodes, length_drop]
  omega

lemma numbered_nodes :
    Numbered (fun c block => (tree ++ pending)[c]? = some block)
      (tree.length + mht.dataBuf.entryQueue.length) mht.dataBuf.nodeQueue := by
  intro j block hj
  rw [hB.nodes, getElem?_drop] at hj
  rw [getElem?_append_right (by omega), add_assoc, Nat.add_sub_cancel_left]
  exact hj

/-- Both loops over the queues, when the second takes up where the first stops. -/
lemma twp_queues {pos o a num k s e : ℕ} {Q : Unit → SearchCtx → Prop}
    {E : Error → SearchCtx → Prop} {ctx : SearchCtx} (hpos : pos + o = tree.length + a)
    (hend : a + num ≤ pending.length) (hbuf : o + num ≤ ctx.dataBuf.length)
    (hk : min num (mht.dataBuf.entryQueue.length - a) = k)
    (hcopy : (mht.dataBuf.nodeQueue.drop (if k = 0 then s else 0)).take
        (e - k - if k = 0 then s else 0) =
      (mht.dataBuf.nodeQueue.drop (a - mht.dataBuf.entryQueue.length)).take (num - k))
    (hrest : ∀ buf, Filled (tree ++ pending) pos o num ctx.dataBuf buf →
      Q () { ctx with dataBuf := buf }) :
    twp (SearchCtx.readEntries env mht.blockLog ((mht.dataBuf.entryQueue.drop a).take num) s e o)
      (fun r ctx' => twp (SearchCtx.copyNodes
        ((mht.dataBuf.nodeQueue.drop r.1).take (r.2.1 - r.1)) r.2.2) Q E ctx') E ctx := by
  have hlen := hB.length_nodes
  have htake : ((mht.dataBuf.entryQueue.drop a).take num).length = k := by
    rw [length_take, length_drop, hk]
  have hentries : Numbered (Covers env mht.blockLog (tree ++ pending) 0) (pos + o)
      ((mht.dataBuf.entryQueue.drop a).take num) := by
    rw [hpos]
    exact (hB.entries.drop a).take num
  refine (SearchCtx.twp_readEntries hentries (by omega)).imp ?_
  rintro _ _ ⟨rfl, buf, rfl, hfilled⟩
  simp only [htake] at hfilled ⊢
  rw [hcopy]
  have hcount : ((mht.dataBuf.nodeQueue.drop (a - mht.dataBuf.entryQueue.length)).take
      (num - k)).length = num - k := by
    rw [length_take, length_drop]
    omega
  have hnodes : Numbered (fun c block => (tree ++ pending)[c]? = some block) (pos + (o + k))
      ((mht.dataBuf.nodeQueue.drop (a - mht.dataBuf.entryQueue.length)).take (num - k)) := by
    intro j block hj
    have hlt := (List.getElem?_eq_some_iff.mp hj).1
    have hblock := ((hB.numbered_nodes.drop (a - mht.dataBuf.entryQueue.length)).take (num - k))
      j block hj
    rw [← hblock]
    congr 1
    omega
  refine twp.imp (SearchCtx.twp_copyNodes hnodes ?_) ?_
  · have := hfilled.length
    simp only
    omega
  rintro _ _ ⟨buf', rfl, hfilled'⟩
  rw [hcount] at hfilled'
  have hboth := hfilled.trans hfilled'
  rw [Nat.add_sub_cancel' (by omega)] at hboth
  exact hrest buf' hboth

/-- What the search of the buffer leaves to the search of the tree. -/
structure Searched (blocks buf : List (List UInt8)) (start pos : ℕ) (ctx : SearchCtx) : Prop where
  completed : ctx.isCompleted = true → Filled blocks pos 0 buf.length buf ctx.dataBuf
  pos_eq : ctx.isCompleted = false → ctx.pos = pos
  offset : ctx.isCompleted = false → ctx.offset = 0
  before : ctx.isCompleted = false → pos + ctx.num ≤ start
  num_le : ctx.isCompleted = false → ctx.num ≤ buf.length
  filled : ctx.isCompleted = false →
    Filled blocks pos ctx.num (buf.length - ctx.num) buf ctx.dataBuf

/-- What the second loop copies is what the first has not read. -/
lemma copied_eq {num pos a k : ℕ} (hnum : 0 < num)
    (hstart : tree.length ≤ pos) (hend : pos + num ≤ tree.length + pending.length)
    (hS : mht.BufferAligned pos num) (ha : pos - tree.length = a)
    (hk : min num (mht.dataBuf.entryQueue.length - a) = k) :
    (mht.dataBuf.nodeQueue.drop (if k = 0 then a else 0)).take
    (a + num - k - if k = 0 then a else 0) =
      (mht.dataBuf.nodeQueue.drop (a - mht.dataBuf.entryQueue.length)).take (num - k) := by
  subst hk
  obtain ⟨a, rfl⟩ := Nat.exists_eq_add_of_le hstart
  obtain rfl := (Nat.add_sub_cancel_left _ _).symm.trans ha
  unfold BufferAligned AppendDataBuf.numAppend at hS
  rw [hB.startPos] at hS
  rcases hS with hS | hS | hS | ⟨hin, hS⟩
  · obtain rfl : a = 0 := by omega
    simp
  · simp [hS]
  · simp [hS]
  · -- The copy runs to the end of the queue, which is where the read ends.
    rw [if_neg (by omega), Nat.sub_eq_zero_of_le (by omega : a ≤ mht.dataBuf.entryQueue.length)]
    rw [take_of_length_le (by rw [length_drop]; omega),
      take_of_length_le (by rw [length_drop]; omega)]

lemma twp_searchDataNodes {pos : ℕ} {buf : List (List UInt8)} {E : Error → SearchCtx → Prop}
    (hbuf : 0 < buf.length) (hend : pos + buf.length ≤ tree.length + pending.length)
    (hS : mht.BufferAligned pos buf.length) :
    twp (searchDataNodes env mht)
      (fun _ ctx => Searched (tree ++ pending) buf tree.length pos ctx) E
      (SearchCtx.new pos buf) := by
  rw [searchDataNodes]
  simp only [twp_bind, twp_get, hB.startPos, SearchCtx.new]
  by_cases hbefore : pos + buf.length ≤ tree.length
  · rw [if_pos hbefore]
    refine ⟨by simp, fun _ => rfl, fun _ => rfl, fun _ => hbefore, fun _ => le_rfl, fun _ => ?_⟩
    simp only [Nat.sub_self]
    exact Filled.refl
  rw [if_neg hbefore]
  rw [twp_bind, bufferRange]
  simp only [twp_bind, twp_get]
  by_cases hstart : tree.length ≤ pos
  · rw [if_pos hstart]
    simp only [twp_pure, Nat.add_sub_cancel_left, if_pos hstart]
    have hfirst : pos + 0 = tree.length + (pos - tree.length) := by omega
    have hfit : pos - tree.length + buf.length ≤ pending.length := by omega
    refine hB.twp_queues hfirst hfit ?_ rfl (hB.copied_eq hbuf hstart hend hS rfl rfl) ?_
    · simp
    intro filled hfilled
    exact ⟨fun _ => hfilled, by simp, by simp, by simp, by simp, by simp⟩
  · -- What lies in the buffer starts with the buffer, so nothing is skipped.
    rw [if_neg hstart]
    simp only [twp_bind, twp_modify, twp_pure, Nat.sub_zero, if_neg hstart]
    have hlast : buf.length - (pos + buf.length - tree.length) = tree.length - pos := by omega
    rw [hlast]
    have hfirst : pos + (tree.length - pos) = tree.length + 0 := by omega
    have hfit : 0 + (pos + buf.length - tree.length) ≤ pending.length := by omega
    refine hB.twp_queues hfirst hfit ?_ rfl ?_ ?_
    · simp only
      omega
    · simp
    intro filled hfilled
    refine ⟨by simp, fun _ => rfl, fun _ => rfl, fun _ => ?_, fun _ => ?_, fun _ => ?_⟩
    · simp only
      omega
    · simp only
      omega
    · simp only at hfilled ⊢
      rwa [show buf.length - (tree.length - pos) = pos + buf.length - tree.length by omega]

end

end Buffers

/-- The root of the tree over the data, which has as few levels as hold them: `h + 1`. -/
structure RootAt (env : MhtEnv K M) (log : BlockLog) (data : List (List UInt8)) (h : ℕ)
    (root : MhtNode K M) : Prop where
  node : NodeAt env log data h 0 root
  pos : 0 < data.length
  fits : data.length ≤ mhtNbranches ^ (h + 1)
  least : h = 0 ∨ mhtNbranches ^ h < data.length

lemma RootAt.numDataNodes {root : MhtNode K M} (hR : RootAt env log data h root) :
    root.numDataNodes = data.length := by
  rw [hR.node.numDataNodes, zero_mul, Nat.sub_zero, min_eq_right hR.fits]

/-- A read that the buffer gets right fills the caller's buffer. -/
lemma twp_search {tree pending buf : List (List UInt8)} {rootMeta : RootMhtMeta M} {pos : ℕ}
    {mht : Mht K M} {root : MhtNode K M} (hB : Buffers env mht tree pending)
    (hroot : mht.root = some (rootMeta, root)) (hR : RootAt env mht.blockLog tree h root)
    (hbuf : 0 < buf.length) (hend : pos + buf.length ≤ tree.length + pending.length)
    (hS : mht.BufferAligned pos buf.length) :
    yields (search env mht)
      (fun _ ctx => ctx.dataBuf = ((tree ++ pending).drop pos).take buf.length)
      (SearchCtx.new pos buf) := by
  have htotal : mht.totalDataNodes = tree.length + pending.length := by
    have := hB.length_nodes
    simp only [totalDataNodes, hroot, Option.map_some, Option.getD_some, hR.numDataNodes,
      AppendDataBuf.numAppend]
    omega
  rw [search, hroot]
  simp only [twp_bind, twp_get, twp_failIf, htotal]
  refine ⟨fun hover => absurd hend (not_le.mpr hover), fun _ => ?_⟩
  refine (hB.twp_searchDataNodes hbuf hend hS).imp ?_
  intro _ ctx hctx
  by_cases hdone : ctx.isCompleted = true
  · rw [if_pos hdone]
    exact (hctx.completed hdone).eq_of_all
  rw [if_neg hdone]
  rw [Bool.not_eq_true] at hdone
  have hpos := hctx.pos_eq hdone
  have hbefore := hctx.before hdone
  have hnum := hctx.num_le hdone
  have hfilled := hctx.filled hdone
  have htargets : Numbered (NodeAt env mht.blockLog tree h) 0 [root] :=
    Numbered.cons_iff.mpr ⟨hR.node, Numbered.nil⟩
  rw [hR.node.height]
  refine (twp_searchHierarchy htargets ?_ ?_ (hctx.offset hdone) ?_).imp ?_
  · rw [zero_mul, zero_add, hpos]
    exact hbefore
  · rw [length_singleton, one_mul, hpos]
    exact hbefore.trans hR.fits
  · rw [hfilled.length]
    exact hnum
  · intro _ ctx' htree
    rw [zero_mul, zero_add, hpos] at htree
    have hall := hfilled.trans_before (htree.of_prefix (by omega) pending)
    rw [Nat.add_sub_cancel' hnum] at hall
    exact hall.eq_of_all

end Mht

end Asterinas.Mlsdisk
