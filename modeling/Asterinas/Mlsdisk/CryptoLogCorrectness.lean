import Asterinas.Mlsdisk.MhtBuild

/-!
# The encrypted log as a list of blocks

The blocks of a log are those of its tree and, after them, those of its buffer.  `Mht.Inv` states
this; the calls keep it, unless they rebuild a tree whose complete nodes are miscounted.
-/

namespace Asterinas.Mlsdisk

open Framework Exec List Option MhtStorage AppendDataBuf

variable {K M : Type}

/-- The height of a new tree is the least that holds the data nodes. -/
lemma TreeBuilder.calcTargetHeight_spec {n : ℕ} (hn : 0 < n) :
    ∃ h, calcTargetHeight n = some (h + 1) ∧ n ≤ mhtNbranches ^ (h + 1) ∧
      (h = 0 ∨ mhtNbranches ^ h < n) := by
  have hbase : 1 < mhtNbranches := by decide
  have hle := Nat.pow_log_le_self mhtNbranches hn.ne'
  have hlt := Nat.lt_pow_succ_log_self hbase n
  unfold calcTargetHeight
  rw [if_neg hn.ne']
  simp only
  by_cases hcond : mhtNbranches ^ Nat.log mhtNbranches n < n ∨ Nat.log mhtNbranches n = 0
  · exact ⟨Nat.log mhtNbranches n, by rw [if_pos hcond], hlt.le, hcond.symm⟩
  · rw [if_neg hcond]
    push Not at hcond
    obtain ⟨t, ht⟩ := Nat.exists_eq_succ_of_ne_zero hcond.2
    rw [ht] at hcond hle ⊢
    refine ⟨t, rfl, hcond.1, .inr (lt_of_lt_of_le ?_ hle)⟩
    exact Nat.pow_lt_pow_right hbase (lt_add_one t)

/-- An empty buffer, before the capacity is reached. -/
lemma AppendDataBuf.new_eq {startPos : ℕ} (h : startPos ≤ mhtNbranches ^ 3) :
    new Mht.appendBufCapacity startPos =
      some (⟨[], 1024, [], min (mhtNbranches ^ 3 - startPos) 104857, startPos⟩ :
        AppendDataBuf K M) := by
  have hcap : ¬ maxEntryQueueCap < startPos := not_lt.mpr h
  rw [new, calcQueueCap, if_neg hcap]
  rfl

namespace Mht

variable {env : MhtEnv K M} {mht : Mht K M} {tree pending new : List (List UInt8)}

/-- The sizes of a tree from which `num_complete_children` counts right, up to height 3: the tree
has at most two levels below its root, or its last node of height 1 is incomplete, or its last node
of height 2 is complete. -/
def Rebuildable (n : ℕ) : Prop :=
  n ≤ mhtNbranches ^ 2 ∨ ¬ mhtNbranches ∣ n ∨ mhtNbranches ^ 2 ∣ n

instance (n : ℕ) : Decidable (Rebuildable n) := inferInstanceAs (Decidable (_ ∨ _ ∨ _))

lemma Rebuildable.dvd {n h g : ℕ} (hr : Rebuildable n) (hcap : n ≤ mhtNbranches ^ 3)
    (hleast : h = 0 ∨ mhtNbranches ^ h < n) (hd : mhtNbranches ∣ n) (hg : g < h + 1) :
    mhtNbranches ^ g ∣ n := by
  have hbase : 1 < mhtNbranches := by decide
  have hh : h ≤ 2 := by
    rcases hleast with rfl | hlt
    · omega
    · exact Nat.lt_succ_iff.mp ((Nat.pow_lt_pow_iff_right hbase).mp (hlt.trans_le hcap))
  rcases lt_or_ge g 2 with hg2 | hg2
  · have : g ≤ 1 := by omega
    exact (pow_dvd_pow mhtNbranches this).trans (by rwa [pow_one])
  · obtain rfl : g = 2 := by omega
    obtain rfl : h = 2 := by omega
    rcases hr with hle | hnot | htwo
    · exact absurd hle (not_le.mpr (hleast.resolve_left (by omega)))
    · exact absurd hd hnot
    · exact htwo

/-- The root stands for the data, and its metadata lead to it. -/
def Rooted (env : MhtEnv K M) (mht : Mht K M) (tree : List (List UInt8)) : Prop :=
  match mht.root with
  | none => tree = []
  | some (rootMeta, root) =>
    (∃ h, RootAt env mht.blockLog tree h root) ∧
      readMhtNode env mht.blockLog rootMeta.pos mht.rootKey rootMeta.mac rootMeta.iv = .ok root

/-- A level has a new node when there are new data or its last node is incomplete. -/
lemma levelStart_lt {i H : ℕ} (hn : 0 < (tree ++ new).length)
    (hnew : new ≠ [] ∨ ¬ mhtNbranches ∣ tree.length) (hi : 0 < i) :
    levelStart H tree.length i < mhtCount (tree ++ new).length i := by
  rw [lt_levelCount_iff, levelStart]
  split
  · have hle := Nat.div_mul_le_self tree.length (mhtNbranches ^ i)
    rw [length_append]
    rcases hnew with hne | hnot
    · have := length_pos_of_ne_nil hne
      omega
    · have hne : tree.length / mhtNbranches ^ i * mhtNbranches ^ i ≠ tree.length := by
        intro heq
        exact hnot ((dvd_pow_self mhtNbranches hi.ne').trans (Dvd.intro_left _ heq))
      omega
  · rwa [Nat.zero_mul]

/-- A build from a tree whose complete nodes are counted right. -/
lemma Previous.twp_build {H : ℕ} {previous : Option (PreviousBuild K M)}
    {entries : List (MhtNodeEntry K M)} (hP : Previous env mht.blockLog tree H previous)
    (hgood : new = [] ∨ (mhtNbranches ∣ tree.length → ∀ g < H, mhtNbranches ^ g ∣ tree.length))
    (hn : 0 < (tree ++ new).length)
    (hE : Numbered (Covers env mht.blockLog (tree ++ new) 0) tree.length entries)
    (hlen : entries.length = new.length) : twp (TreeBuilder.build env previous entries)
      (fun root mht' => ∃ more, mht' = { mht with blockLog := mht.blockLog ++ more } ∧
        ∃ h, RootAt env (mht.blockLog ++ more) (tree ++ new) h root)
      (fun _ mht' => new = [] ∧ mht' = mht) mht := by
  have htotal : entries.length + (previous.map fun p => p.root.numDataNodes).getD 0 =
      (tree ++ new).length := by
    rw [hP.numDataNodes, hlen, length_append, add_comm]
  obtain ⟨h, htarget, hfits, hleast⟩ := TreeBuilder.calcTargetHeight_spec hn
  rw [TreeBuilder.build]
  simp only [htotal, htarget, twp_bind, twp_ofOption, some.injEq,
    exists_eq_left', Nat.add_sub_cancel]
  -- The new tree is not lower than the previous one.
  have hH : H ≤ h + 1 := by
    rcases eq_zero_or_pos H with rfl | hpos
    · exact zero_le
    · obtain ⟨h0, rfl⟩ := Nat.exists_eq_succ_of_ne_zero hpos.ne'
      rcases hP.least h0 rfl with rfl | hlt
      · omega
      · refine Nat.succ_le_of_lt ((Nat.pow_lt_pow_iff_right (by decide : 1 < mhtNbranches)).mp ?_)
        refine lt_of_lt_of_le hlt (le_trans ?_ hfits)
        rw [length_append]
        omega
  have hzero : levelStart H tree.length 0 = tree.length := by
    rw [levelStart]
    split
    · rw [pow_zero, Nat.div_one]
    · rw [hP.height_zero (by omega), length_nil]
  have hE' : Numbered (Covers env (mht.blockLog ++ []) (tree ++ new) 0)
      (levelStart H tree.length 0) entries := by
    rw [hzero, append_nil]
    exact hE
  have hlen' : levelStart H tree.length 0 + entries.length = mhtCount (tree ++ new).length 0 := by
    rw [hzero, mhtCount, levelCount_zero, length_append, hlen]
  by_cases hstop : new = [] ∧ mhtNbranches ∣ tree.length ∧ 0 < h
  · -- There is no node of height 1 to store.
    obtain ⟨hnil, hdvd, hpos⟩ := hstop
    obtain ⟨h, rfl⟩ := Nat.exists_eq_succ_of_ne_zero hpos.ne'
    obtain ⟨hbuilt, -⟩ := hP.levelNodes (fun _ _ => by simp) hn hE' hlen'
    rw [hnil, append_nil] at hleast
    have hhigh : 1 < H := by
      by_contra hlow
      have hsmall := hP.fits.trans (Nat.pow_le_pow_right mhtNbranches_pos (not_lt.mp hlow))
      have hlarge := hleast.resolve_left (Nat.succ_ne_zero h)
      exact absurd (hlarge.trans_le hsmall)
        (not_lt.mpr (Nat.pow_le_pow_right mhtNbranches_pos (by omega)))
    have hnone : (TreeBuilder.levelNodes env previous (tree ++ new).length 1 entries).length =
        0 := by
      rw [hbuilt, hnil, append_nil, levelStart, if_pos hhigh, mhtCount,
        levelCount_of_dvd (by rwa [zero_add, pow_one]), Nat.sub_self]
    rw [TreeBuilder.buildHierarchy]
    simp only [storeMhtNodes, twp_bind, twp_failIf]
    exact ⟨fun _ => ⟨hnil, trivial⟩, fun hne => absurd hnone hne⟩
  · have hgood' : mhtNbranches ∣ tree.length → ∀ g < H, mhtNbranches ^ g ∣ tree.length := by
      rcases hgood with hnil | hgood
      · intro hdvd g hg
        have : ¬ 0 < h := fun hpos => hstop ⟨hnil, hdvd, hpos⟩
        obtain rfl : g = 0 := by omega
        simp
      · exact hgood
    refine (twp_buildHierarchy hP hgood' hn (append_nil _).symm (by rwa [zero_add])
      (by rwa [zero_add]) ?_ hE' hlen').imp ?_
    · intro i hi hle
      refine levelStart_lt hn ?_ hi
      by_contra hnot
      push Not at hnot
      exact hstop ⟨hnot.1, hnot.2, by omega⟩
    · rintro root _ ⟨more, rfl, hroot⟩
      refine ⟨more, rfl, h, ?_, hn, hfits, hleast⟩
      rwa [zero_add] at hroot

/-- The root after a build. -/
lemma rooted_appendRoot {data : List (List UInt8)} {h : ℕ} (mht : Mht K M) {root : MhtNode K M}
    (hR : RootAt env mht.blockLog data h root) :
    Rooted env { mht with
      root := some ((appendRootMhtNode env mht.blockLog mht.rootKey root).1, root)
      blockLog := (appendRootMhtNode env mht.blockLog mht.rootKey root).2 } data := by
  refine ⟨⟨h, { hR with node := hR.node.append_log _ }⟩, ?_⟩
  simp only [appendRootMhtNode, readMhtNode, readBlock_encrypted, Except.map, env.fromBytes_asBytes]

/-- A build makes a root for the old and the new data.  It can fail when there are no new data, and
then it changes nothing. -/
lemma Rooted.twp_doBuild {entries : List (MhtNodeEntry K M)} (hR : Rooted env mht tree)
    (hcap : tree.length ≤ mhtNbranches ^ 3) (hgood : new = [] ∨ Rebuildable tree.length)
    (hn : 0 < (tree ++ new).length)
    (hE : Numbered (Covers env mht.blockLog (tree ++ new) 0) tree.length entries)
    (hlen : entries.length = new.length) : twp (doBuild env entries)
      (fun _ mht' => ∃ rootMeta root log, mht' = { mht with
          root := some (rootMeta, root)
          blockLog := log } ∧
        Rooted env mht' (tree ++ new) ∧ mht.blockLog.length ≤ rootMeta.pos)
      (fun _ mht' => new = [] ∧ mht' = mht) mht := by
  have hprevious : ∃ H previous, Previous env mht.blockLog tree H previous ∧
      (new = [] ∨ (mhtNbranches ∣ tree.length → ∀ g < H, mhtNbranches ^ g ∣ tree.length)) ∧
      TreeBuilder.previousBuiltRoot env mht.blockLog (mht.root.map Prod.snd) = some previous := by
    unfold Rooted at hR
    cases hroot : mht.root with
    | none =>
      simp only [hroot] at hR
      subst hR
      exact ⟨0, none, Previous.none, .inr fun _ g hg => absurd hg not_lt_zero, rfl⟩
    | some root =>
      simp only [hroot] at hR
      obtain ⟨⟨h, hR⟩, -⟩ := hR
      obtain ⟨p, hp, hP⟩ := hR.previous
      refine ⟨h + 1, some p, hP, hgood.imp_right fun hr hd g hg => ?_, ?_⟩
      · exact hr.dvd hcap hR.least hd hg
      · rw [map_some, TreeBuilder.previousBuiltRoot, hp]
        rfl
  obtain ⟨H, previous, hP, hgood', hfound⟩ := hprevious
  rw [doBuild]
  simp only [twp_bind, twp_get, hfound, twp_ofOption, some.injEq, exists_eq_left']
  refine (hP.twp_build hgood' hn hE hlen).imp ?_
  rintro root _ ⟨more, rfl, h, hroot⟩
  refine ⟨_, root, _, rfl, ?_, ?_⟩
  · exact rooted_appendRoot { mht with blockLog := mht.blockLog ++ more } hroot
  · simp [appendRootMhtNode]

/-! ### The buffer -/

lemma Rooted.append_log {more : BlockLog} {mht' : Mht K M} (hR : Rooted env mht tree)
    (hroot : mht'.root = mht.root) (hkey : mht'.rootKey = mht.rootKey)
    (hlog : mht'.blockLog = mht.blockLog ++ more) : Rooted env mht' tree := by
  unfold Rooted at hR ⊢
  rw [hroot, hkey, hlog]
  cases h : mht.root with
  | none =>
    rw [h] at hR
    exact hR
  | some root =>
    rw [h] at hR
    obtain ⟨⟨n, hat⟩, hread⟩ := hR
    exact ⟨⟨n, { hat with node := hat.node.append_log more }⟩, readMhtNode_append env hread more⟩

/-- An entry of a block is one of the block when more blocks follow. -/
lemma Covers.zero_append {log : BlockLog} {data : List (List UInt8)} {c : ℕ}
    {entry : MhtNodeEntry K M} (h : Covers env log data 0 c entry) (more : List (List UInt8)) :
    Covers env log (data ++ more) 0 c entry := by
  have hlt : c < data.length := by
    obtain ⟨block, hblock, -⟩ := h
    exact (List.getElem?_eq_some_iff.mp hblock).1
  exact h.append_data (by rw [pow_zero, mul_one]; exact hlt) more

section

variable (hB : Buffers env mht tree pending)

include hB

/-- The state after the nodes have been written. -/
lemma Buffers.twp_flushNodeQueue {E : Error → Mht K M → Prop} :
    twp (flushNodeQueue env)
      (fun _ mht' => ∃ more entries, mht' = { mht with
          blockLog := mht.blockLog ++ more
          dataBuf := { mht.dataBuf with entryQueue := entries, nodeQueue := [] } } ∧
        entries.length = pending.length ∧ Buffers env mht' tree pending) E mht := by
  obtain ⟨more, hlog, hlen, hread⟩ :=
    appendBlocks_spec env mht.blockLog mht.dataBuf.nodeQueue
  have hcount := hB.length_nodes
  simp only [flushNodeQueue, storeDataNodes, setDataBuf, twp_bind, twp_get,
    twp_modify, twp_pure, hlog]
  have hall : (mht.dataBuf.entryQueue ++
      (appendBlocks env mht.blockLog mht.dataBuf.nodeQueue).1).length =
      pending.length := by
    rw [length_append, hlen]
    omega
  refine ⟨more, _, rfl, hall, ⟨hB.startPos, ?_, hall.le, ?_⟩⟩
  · refine (hB.entries.mono fun _ _ _ h => h.append_log more).append fun j entry hj => ?_
    obtain ⟨block, hblock, hread⟩ := hread j entry hj
    rw [zero_add] at hblock
    exact ⟨block, hB.numbered_nodes j block hblock, hread⟩
  · simp only [hall, drop_length]

/-- The state after blocks have been put in the queue of nodes. -/
lemma Buffers.append (nodes : List (List UInt8)) :
    Buffers env { mht with
      dataBuf := { mht.dataBuf with nodeQueue := mht.dataBuf.nodeQueue ++ nodes } }
      tree (pending ++ nodes) where
  startPos := hB.startPos
  entries := hB.entries.mono fun _ _ _ h => by
    rw [← append_assoc]
    exact h.zero_append nodes
  entries_le := by
    rw [length_append]
    exact le_add_right hB.entries_le
  nodes := by
    simp only
    rw [drop_append_of_le_length hB.entries_le, hB.nodes]

/-- Everything that the calls keep. -/
structure Inv (env : MhtEnv K M) (mht : Mht K M) (tree pending : List (List UInt8)) : Prop where
  buffers : Buffers env mht tree pending
  rooted : Rooted env mht tree
  room : mht.dataBuf.entryQueue.length < mht.dataBuf.entryQueueCap ∨ mhtNbranches ^ 3 ≤ tree.length

lemma totalDataNodes_eq (hR : Rooted env mht tree) :
    mht.totalDataNodes = (tree ++ pending).length := by
  have hlen := hB.length_nodes
  rw [totalDataNodes, numAppend, length_append]
  unfold Rooted at hR
  cases h : mht.root with
  | none =>
    simp only [h] at hR
    simp only [hR, length_nil, map_none, getD_none]
    omega
  | some root =>
    simp only [h] at hR
    obtain ⟨⟨n, hat⟩, -⟩ := hR
    rw [map_some, getD_some, hat.numDataNodes]
    omega

end

/-! ### The calls -/

/-- The position of the root of the tree. -/
def rootPos (mht : Mht K M) : Option ℕ := mht.root.map fun root => root.1.pos

lemma Rooted.rootPos_lt {pos : ℕ} (hR : Rooted env mht tree) (hpos : mht.rootPos = some pos) :
    pos < mht.blockLog.length := by
  rw [rootPos, map_eq_some_iff] at hpos
  obtain ⟨root, hroot, rfl⟩ := hpos
  unfold Rooted at hR
  simp only [hroot] at hR
  by_contra hge
  have hread := hR.2
  rw [readMhtNode, readBlock, getElem?_eq_none (not_lt.mp hge)] at hread
  cases hread

/-- What `flush` does: it makes a tree of everything, under a new root.  Without anything in the
buffer it can fail instead. -/
lemma twp_flush (hB : Buffers env mht tree pending) (hR : Rooted env mht tree)
    (hroom : 0 < mht.dataBuf.entryQueueCap ∨ mhtNbranches ^ 3 ≤ tree.length)
    (hn : 0 < (tree ++ pending).length) (hcap : tree.length ≤ mhtNbranches ^ 3)
    (hgood : pending = [] ∨ Rebuildable tree.length) :
    twp (flush env)
      (fun _ mht' => Inv env mht' (tree ++ pending) [] ∧ mht'.rootPos ≠ mht.rootPos)
      (fun _ mht' => pending = [] ∧ Inv env mht' tree [] ∧ mht'.rootPos = mht.rootPos) mht := by
  rw [flush, flushDataBuf]
  simp only [twp_bind]
  refine hB.twp_flushNodeQueue.imp ?_
  rintro _ _ ⟨more, entries, rfl, hlen, hB'⟩
  set mht₁ : Mht K M := { mht with
    blockLog := mht.blockLog ++ more
    dataBuf := { mht.dataBuf with
      entryQueue := [], nodeQueue := [], startPos := mht.dataBuf.startPos + entries.length } }
    with hmht1
  have hR1 : Rooted env mht₁ tree := hR.append_log rfl rfl rfl
  have hstart : mht₁.dataBuf.startPos = (tree ++ pending).length := by
    rw [length_append, ← hlen, ← hB.startPos]
  refine (hR1.twp_doBuild hcap hgood hn hB'.entries hlen).mono ?_ ?_
  · rintro _ _ ⟨rootMeta, root, log, rfl, hrooted, hle⟩
    refine ⟨⟨⟨hstart, .nil, le_rfl, rfl⟩, hrooted, ?_⟩, ?_⟩
    · exact hroom.imp_right fun h => h.trans (by simp)
    · -- The root was written after everything that the log held.
      intro heq
      have hlt : rootMeta.pos < mht.blockLog.length := hR.rootPos_lt heq.symm
      rw [hmht1, length_append] at hle
      omega
  · rintro _ _ ⟨rfl, rfl⟩
    rw [append_nil] at hstart
    exact ⟨rfl, ⟨⟨hstart, .nil, le_rfl, rfl⟩, hR1, hroom⟩, rfl⟩

/-- Whether an append writes the queue of nodes and thereby fills the queue of entries. -/
def FillsUp (mht : Mht K M) (nodes : List (List UInt8)) : Prop :=
  mht.dataBuf.nodeQueueCap ≤ (mht.dataBuf.nodeQueue ++ nodes).length ∧
    mht.dataBuf.entryQueueCap ≤ mht.dataBuf.numAppend + nodes.length

/-- What `append` does: it adds the blocks to the buffer, and builds a tree of everything when the
buffer is full. -/
lemma Inv.twp_appendDataNodes {nodes : List (List UInt8)} (hI : Inv env mht tree pending)
    (hpos : nodes ≠ []) (hcap : (tree ++ (pending ++ nodes)).length ≤ mhtNbranches ^ 3)
    (hgood : mht.FillsUp nodes → Rebuildable tree.length) :
    yields (appendDataNodes env nodes)
      (fun _ mht' => (Inv env mht' tree (pending ++ nodes) ∧ mht'.rootPos = mht.rootPos) ∨
        (Inv env mht' (tree ++ (pending ++ nodes)) [] ∧ mht'.rootPos ≠ mht.rootPos)) mht := by
  have hlen := hI.buffers.length_nodes
  have hnodes := length_pos_of_ne_nil hpos
  rw [length_append, length_append] at hcap
  have hroom : mht.dataBuf.entryQueue.length < mht.dataBuf.entryQueueCap := by
    rcases hI.room with h | h
    · exact h
    · omega
  have hnot : ¬ mht.dataBuf.isFull = true := by
    rw [isFull, decide_eq_true_eq]
    omega
  have hB := hI.buffers.append nodes
  rw [appendDataNodes, bufferDataNodes]
  simp only [setDataBuf, twp_bind, twp_get, twp_failIf, twp_modify]
  refine ⟨fun hfull => absurd hfull hnot, fun _ => ?_⟩
  by_cases hqueue : mht.dataBuf.nodeQueueCap ≤ (mht.dataBuf.nodeQueue ++ nodes).length
  · rw [if_pos hqueue]
    refine hB.twp_flushNodeQueue.imp ?_
    rintro _ _ ⟨more, entries, rfl, hentries, hB'⟩
    have hR' : Rooted env { mht with
        blockLog := mht.blockLog ++ more
        dataBuf := { mht.dataBuf with entryQueue := entries, nodeQueue := [] } } tree :=
      hI.rooted.append_log rfl rfl rfl
    rw [length_append] at hentries
    by_cases hfull : mht.dataBuf.entryQueueCap ≤ entries.length
    · rw [if_pos (by rw [isFull]; exact decide_eq_true hfull)]
      have hfills : mht.FillsUp nodes := by
        refine ⟨hqueue, ?_⟩
        rw [numAppend]
        omega
      refine (twp_flush hB' hR' (.inl ?_) ?_ (by omega) (.inr (hgood hfills))).mono ?_ ?_
      · exact pos_of_gt hroom
      · rw [length_append, length_append]
        omega
      · exact fun _ _ h => .inr h
      · intro _ _ h
        exact hpos (append_eq_nil_iff.mp h.1).2
    · rw [if_neg (by rw [isFull, decide_eq_true_eq]; exact hfull)]
      exact .inl ⟨⟨hB', hR', .inl (not_le.mp hfull)⟩, rfl⟩
  · rw [if_neg hqueue, twp_pure]
    rw [if_neg (by rw [isFull, decide_eq_true_eq]; exact not_le.mpr hroom)]
    exact .inl ⟨⟨hB, hI.rooted.append_log rfl rfl (append_nil _).symm, .inl hroom⟩, rfl⟩

/-- What opening the log from the metadata of its root does: the buffer is gone. -/
lemma Inv.twp_reopen (hI : Inv env mht tree pending) (hroot : mht.root.isSome = true)
    (hcap : tree.length ≤ mhtNbranches ^ 3) :
    yields (CryptoLog.reopen env)
      (fun _ mht' => Inv env mht' tree [] ∧ mht'.rootPos = mht.rootPos) mht := by
  obtain ⟨⟨rootMeta, root⟩, hroot⟩ := isSome_iff_exists.mp hroot
  have hR := hI.rooted
  unfold Rooted at hR
  simp only [hroot] at hR
  obtain ⟨⟨h, hat⟩, hread⟩ := hR
  have hnew := new_eq (K := K) (M := M) hcap
  rw [← hat.numDataNodes] at hnew
  rw [CryptoLog.reopen]
  simp only [twp_bind, twp_get, hroot, openAt, hread, twp_ofExcept, hnew,
    twp_ofOption, twp_modify, Except.ok.injEq, forall_eq', some.injEq,
    exists_eq_left', reduceCtorEq, false_implies, implies_true, and_true]
  refine ⟨⟨⟨hat.numDataNodes, Numbered.nil, le_rfl, rfl⟩, ⟨⟨h, hat⟩, hread⟩, ?_⟩, ?_⟩
  · simp only [length_nil, lt_min_iff, hat.numDataNodes]
    omega
  · rw [rootPos, rootPos, hroot]

end Mht

end Asterinas.Mlsdisk
