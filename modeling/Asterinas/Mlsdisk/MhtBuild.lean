import Asterinas.Mlsdisk.MhtSearch

/-!
# Building the tree

A build keeps what is complete in the previous tree and makes the rest of each level anew.  The only
nodes that change are the last ones of the levels; `Mht.LastAt` describes them, and
`PreviousBuild.new` finds those that are incomplete.

`num_complete_children` asks whether the number of data nodes below is a multiple of the branches of
one node.  From height 3 on this is not the question whether the last child is complete, so the
results need the size of the previous tree to be one where the two agree (`Mht.Rebuildable`).
-/

namespace Asterinas.Mlsdisk

open Framework Exec Function List Nat PreviousBuild Option

variable {K M : Type}

namespace Mht

variable {env : MhtEnv K M} {log : BlockLog} {data : List (List UInt8)}

/-- The last node of height `g + 1`. -/
def LastAt (env : MhtEnv K M) (log : BlockLog) (data : List (List UInt8)) (g : ℕ)
    (node : MhtNode K M) : Prop :=
  NodeAt env log data g (mhtCount data.length (g + 1) - 1) node

lemma mhtCount_pos {n : ℕ} (hn : 0 < n) (g : ℕ) : 0 < mhtCount n g :=
  lt_levelCount_iff.mpr (by simpa using hn)

lemma mhtCount_le_one {n g : ℕ} (hn : n ≤ mhtNbranches ^ g) : mhtCount n g ≤ 1 :=
  levelCount_le_iff.mpr (by rwa [one_mul])

/-- The number of the last node of a level, times the data nodes below each, is less than all. -/
lemma last_mul_lt {n : ℕ} (hn : 0 < n) (g : ℕ) :
    (mhtCount n g - 1) * mhtNbranches ^ g < n ∧
      n ≤ (mhtCount n g - 1) * mhtNbranches ^ g + mhtNbranches ^ g := by
  have hcount := mhtCount_pos hn g
  refine ⟨lt_levelCount_iff.mp (sub_lt hcount one_pos), ?_⟩
  rw [← succ_mul, succ_eq_add_one, Nat.sub_add_cancel hcount]
  exact levelCount_le_iff.mp le_rfl

lemma mhtCount_succ_bounds {n : ℕ} (hn : 0 < n) (g : ℕ) :
    (mhtCount n (g + 1) - 1) * mhtNbranches < mhtCount n g ∧
      mhtCount n g ≤ (mhtCount n (g + 1) - 1) * mhtNbranches + mhtNbranches := by
  rw [lt_levelCount_iff, levelCount_le_iff, add_mul, mul_assoc, ← pow_succ']
  exact last_mul_lt hn (g + 1)

/-- The number of an incomplete last node. -/
lemma last_of_not_dvd {g n : ℕ} (h : ¬ mhtNbranches ^ g ∣ n) :
    mhtCount n g - 1 = n / mhtNbranches ^ g := by
  rw [mhtCount, levelCount_of_not_dvd h, Nat.add_sub_cancel]

variable {node : MhtNode K M} {g levels : ℕ}

section LastAt

variable (h : LastAt env log data g node) (hn : 0 < data.length)

include h hn

lemma LastAt.numDataNodes_eq : node.numDataNodes =
      data.length - (mhtCount data.length (g + 1) - 1) * mhtNbranches ^ (g + 1) := by
  have := last_mul_lt hn (g + 1)
  rw [h.numDataNodes]
  omega

lemma LastAt.numValidEntries_eq : node.numValidEntries =
      mhtCount data.length g - (mhtCount data.length (g + 1) - 1) * mhtNbranches := by
  have := mhtCount_succ_bounds hn g
  rw [h.numValidEntries]
  omega

/-- The last node of a level is incomplete when the level does not divide the data. -/
lemma LastAt.isIncomplete_iff :
    node.isIncomplete = true ↔ ¬ mhtNbranches ^ (g + 1) ∣ data.length := by
  rw [MhtNode.isIncomplete, bne_iff_ne, MhtNode.maxNumDataNodes, h.height, h.numDataNodes_eq hn]
  refine not_congr ⟨fun hfull => ?_, fun hdvd => ?_⟩
  · have hsplit : data.length = (mhtCount data.length (g + 1) - 1 + 1) * mhtNbranches ^
        (g + 1) := by
      rw [add_mul, one_mul]
      have := last_mul_lt hn (g + 1)
      omega
    exact Dvd.intro_left _ hsplit.symm
  · have hdiv := Nat.div_mul_cancel hdvd
    have hcount := levelCount_of_dvd hdvd
    have hpos : 0 < data.length / mhtNbranches ^ (g + 1) :=
      div_pos (le_of_dvd hn hdvd) branches_pow_pos
    rw [mhtCount, hcount, Nat.sub_mul, hdiv, one_mul]
    have hle : mhtNbranches ^ (g + 1) ≤ data.length := le_of_dvd hn hdvd
    omega

/-- The loop stops at a complete node. -/
lemma LastAt.collectLoop_of_dvd (hdvd : mhtNbranches ^ (g + 1) ∣ data.length)
    (found : ℕ → Option (MhtNode K M)) :
    collectLoop env log (levels + 1) node found = some found := by
  rw [collectLoop, if_neg]
  rw [h.isIncomplete_iff hn]
  exact not_not_intro hdvd

/-- The loop takes an incomplete node up and goes on below it. -/
lemma LastAt.collectLoop_of_not_dvd (hdvd : ¬ mhtNbranches ^ (g + 1) ∣ data.length)
    (found : ℕ → Option (MhtNode K M)) :
    collectLoop env log (levels + 1) node found =
      if g = 0 then some (update found (g + 1) (some node))
      else (lastChild env log node).bind fun child =>
        collectLoop env log levels child (update found (g + 1) (some node)) := by
  rw [collectLoop, if_pos ((h.isIncomplete_iff hn).mpr hdvd)]
  simp only [h.height, add_eq_right]

end LastAt

/-- The last child of the last node is the last node of the level below. -/
lemma LastAt.lastChild (h : LastAt env log data (g + 1) node) (hn : 0 < data.length) :
    ∃ child, lastChild env log node = some child ∧ LastAt env log data g child := by
  have hbounds := mhtCount_succ_bounds hn (g + 1)
  have hvalid := h.numValidEntries_eq hn
  have hlt : node.numValidEntries - 1 < node.entries.length := by
    rw [h.length_entries, hvalid]
    omega
  have hentry := h.children (node.numValidEntries - 1) _ (getElem?_eq_getElem hlt)
  have hnumber : (mhtCount data.length (g + 1 + 1) - 1) * mhtNbranches +
      (node.numValidEntries - 1) = mhtCount data.length (g + 1) - 1 := by omega
  rw [hnumber] at hentry
  obtain ⟨child, hread, hchild⟩ := hentry (by omega)
  refine ⟨child, ?_, hchild⟩
  rw [PreviousBuild.lastChild, if_neg (by omega), getElem?_eq_getElem hlt, bind_some, hread]
  rfl

/-- The incomplete nodes up to height `g + 1` have been found, and nothing else is changed. -/
structure Finds (env : MhtEnv K M) (log : BlockLog) (data : List (List UInt8)) (g : ℕ)
    (found nodes : ℕ → Option (MhtNode K M)) : Prop where
  incomplete : ∀ j ≤ g, ¬ mhtNbranches ^ (j + 1) ∣ data.length →
    ∃ last, nodes (j + 1) = some last ∧ LastAt env log data j last
  other : ∀ j, g < j ∨ mhtNbranches ^ (j + 1) ∣ data.length → nodes (j + 1) = found (j + 1)

lemma Finds.of_dvd {found : ℕ → Option (MhtNode K M)}
    (hdvd : mhtNbranches ^ (g + 1) ∣ data.length) : Finds env log data g found found where
  incomplete j hj hnot := absurd ((pow_dvd_pow mhtNbranches (by omega)).trans hdvd) hnot
  other _ _ := rfl

/-- Taking up the node of height `g + 1` after the nodes below it. -/
lemma Finds.above {nodes found : ℕ → Option (MhtNode K M)} (h : LastAt env log data g node)
    (hdvd : ¬ mhtNbranches ^ (g + 1) ∣ data.length)
    (hbelow : ∀ j < g, ¬ mhtNbranches ^ (j + 1) ∣ data.length →
      ∃ last, nodes (j + 1) = some last ∧ LastAt env log data j last)
    (hother : ∀ j, g ≤ j ∨ mhtNbranches ^ (j + 1) ∣ data.length →
      nodes (j + 1) = update found (g + 1) (some node) (j + 1)) :
    Finds env log data g found nodes where
  incomplete j hj hnot := by
    rcases hj.lt_or_eq with hlt | rfl
    · exact hbelow j hlt hnot
    · refine ⟨node, ?_, h⟩
      rw [hother j (.inl le_rfl), update_self]
  other j hj := by
    have hne : j ≠ g := by
      rintro rfl
      exact hj.elim (lt_irrefl j) hdvd
    rw [hother j (hj.imp_left le_of_lt), update_of_ne (by omega)]

/-- What the loop over the right border finds. -/
lemma LastAt.collectLoop (h : LastAt env log data g node)
    (hn : 0 < data.length) (hlevels : g ≤ levels) (found : ℕ → Option (MhtNode K M)) :
    ∃ nodes, collectLoop env log (levels + 1) node found = some nodes ∧
      Finds env log data g found nodes := by
  induction g generalizing levels node found with
  | zero =>
    by_cases hdvd : mhtNbranches ^ (0 + 1) ∣ data.length
    · exact ⟨found, h.collectLoop_of_dvd hn hdvd found, Finds.of_dvd hdvd⟩
    · refine ⟨_, (h.collectLoop_of_not_dvd hn hdvd found).trans (if_pos rfl), ?_⟩
      exact Finds.above h hdvd (fun j hj => absurd hj not_lt_zero) fun _ _ => rfl
  | succ g ih =>
    by_cases hdvd : mhtNbranches ^ (g + 1 + 1) ∣ data.length
    · exact ⟨found, h.collectLoop_of_dvd hn hdvd found, Finds.of_dvd hdvd⟩
    · obtain ⟨child, hchild, hlast⟩ := h.lastChild hn
      obtain ⟨levels, rfl⟩ := Nat.exists_eq_add_of_le' (le_of_add_left_le hlevels : 1 ≤ levels)
      obtain ⟨nodes, hnodes, hfinds⟩ := ih hlast (by omega : g ≤ levels)
        (update found (g + 1 + 1) (some node))
      refine ⟨nodes, ?_, Finds.above h hdvd (fun j hj => hfinds.incomplete j (by omega))
        fun j hj => hfinds.other j (hj.imp_left fun hle => by omega)⟩
      rw [h.collectLoop_of_not_dvd hn hdvd found, if_neg (add_one_ne_zero g), hchild,
        bind_some]
      exact hnodes

/-! ### The nodes that a build starts from -/

/-- What a build takes from the previous tree, which has `H` levels: the last nodes that are
incomplete, and the root. -/
structure Previous (env : MhtEnv K M) (log : BlockLog) (data : List (List UInt8)) (H : ℕ)
    (previous : Option (PreviousBuild K M)) : Prop where
  numDataNodes : (previous.map fun p => p.root.numDataNodes).getD 0 = data.length
  height_zero : H = 0 → data = []
  pos : 0 < H → 0 < data.length
  fits : data.length ≤ mhtNbranches ^ H
  least : ∀ h, H = h + 1 → h = 0 ∨ mhtNbranches ^ h < data.length
  target : ∀ j node, (previous.bind fun p => p.targetNode (j + 1)) = some node →
    j < H ∧ LastAt env log data j node ∧ (j + 1 = H ∨ ¬ mhtNbranches ^ (j + 1) ∣ data.length)
  no_target : ∀ j, (previous.bind fun p => p.targetNode (j + 1)) = none →
    H ≤ j ∨ (j + 1 < H ∧ mhtNbranches ^ (j + 1) ∣ data.length)

lemma Previous.none : Previous env log [] 0 (none : Option (PreviousBuild K M)) where
  numDataNodes := rfl
  height_zero _ := rfl
  pos h := absurd h (lt_irrefl 0)
  fits := zero_le
  least h hzero := absurd hzero.symm (add_one_ne_zero h)
  target j node h := by cases h
  no_target j _ := .inl zero_le

variable {root : MhtNode K M}

section

variable {h : ℕ} (hR : RootAt env log data h root)

include hR

/-- The root is the last node of its level. -/
lemma RootAt.lastAt : LastAt env log data h root := by
  rw [LastAt, Nat.sub_eq_zero_of_le (mhtCount_le_one hR.fits)]
  exact hR.node

/-- The incomplete nodes below the root can be collected. -/
lemma RootAt.collectIncompleteNodes :
    ∃ nodes, collectIncompleteNodes env log root = some nodes ∧
      ∀ j, j ≠ h → (j < h ∧ ¬ mhtNbranches ^ (j + 1) ∣ data.length ∧
        ∃ last, nodes (j + 1) = some last ∧ LastAt env log data j last) ∨
        ((h < j ∨ mhtNbranches ^ (j + 1) ∣ data.length) ∧ nodes (j + 1) = none) := by
  have hcond : ¬ root.isIncomplete = true ∨ root.height = 1 ↔
      mhtNbranches ^ (h + 1) ∣ data.length ∨ h + 1 = 1 := by
    rw [hR.lastAt.isIncomplete_iff hR.pos, hR.node.height, not_not]
  rw [PreviousBuild.collectIncompleteNodes]
  by_cases hstop : mhtNbranches ^ (h + 1) ∣ data.length ∨ h + 1 = 1
  · refine ⟨fun _ => none, if_pos (hcond.mpr hstop), fun j hj => .inr ⟨?_, rfl⟩⟩
    rcases lt_or_gt_of_ne hj with hlt | hgt
    · rcases hstop with hdvd | hone
      · exact .inr ((pow_dvd_pow mhtNbranches (by omega)).trans hdvd)
      · omega
    · exact .inl hgt
  · rw [if_neg (mt hcond.mp hstop), hR.node.height]
    obtain ⟨g, rfl⟩ := exists_eq_succ_of_ne_zero (n := h) (by omega)
    obtain ⟨child, hchild, hlast⟩ := hR.lastAt.lastChild hR.pos
    obtain ⟨nodes, hnodes, hfinds⟩ := hlast.collectLoop hR.pos (by omega : g ≤ g + 1) fun _ => none
    refine ⟨nodes, by rw [hchild, bind_some]; exact hnodes, fun j hj => ?_⟩
    by_cases hin : j ≤ g ∧ ¬ mhtNbranches ^ (j + 1) ∣ data.length
    · exact .inl ⟨by omega, hin.2, hfinds.incomplete j hin.1 hin.2⟩
    · have hout : g < j ∨ mhtNbranches ^ (j + 1) ∣ data.length := by
        by_contra hnot
        push Not at hnot
        exact hin hnot
      exact .inr ⟨hout.imp_left fun hlt => by omega, hfinds.other j hout⟩

/-- The previous build of a root. -/
lemma RootAt.previous :
    ∃ p, PreviousBuild.new env log root = some p ∧ Previous env log data (h + 1) (some p) := by
  obtain ⟨nodes, hnodes, hall⟩ := hR.collectIncompleteNodes
  refine ⟨⟨root, nodes⟩, by rw [PreviousBuild.new, hnodes]; rfl, ?_⟩
  have htarget : ∀ j, targetNode ⟨root, nodes⟩ (j + 1) =
      if j = h then some root else nodes (j + 1) := by
    intro j
    rw [targetNode, hR.node.height]
    simp only [add_right_cancel_iff]
  constructor
  case numDataNodes => exact hR.numDataNodes
  case height_zero => exact fun hzero => absurd hzero (add_one_ne_zero h)
  case pos => exact fun _ => hR.pos
  case fits => exact hR.fits
  case least =>
    intro g hg
    obtain rfl : h = g := by omega
    exact hR.least
  case target =>
    intro j node hnode
    rw [bind_some, htarget] at hnode
    split at hnode
    · next heq =>
      subst heq
      obtain rfl : root = node := by simpa using hnode
      exact ⟨lt_succ_self j, hR.lastAt, .inl rfl⟩
    · next hne =>
      rcases hall j hne with ⟨hlt, hnot, last, hlast, hat⟩ | ⟨-, hnone⟩
      · obtain rfl : last = node := by simpa [hlast] using hnode
        exact ⟨by omega, hat, .inr hnot⟩
      · rw [hnone] at hnode
        cases hnode
  case no_target =>
    intro j hnode
    rw [bind_some, htarget] at hnode
    split at hnode
    · cases hnode
    · next hne =>
      rcases hall j hne with ⟨-, -, last, hlast, -⟩ | ⟨hout, -⟩
      · rw [hlast] at hnode
        cases hnode
      · rcases lt_or_gt_of_ne hne with hlt | hgt
        · exact .inr ⟨by omega, hout.resolve_left (by omega)⟩
        · exact .inl hgt

end

/-! ### One level -/

/-- The number of the first new node of height `h`, over a previous tree of `H` levels. -/
def levelStart (H n h : ℕ) : ℕ := if h < H then n / mhtNbranches ^ h else 0

/-- Where `num_complete_children` counts the complete children. -/
lemma LastAt.numCompleteChildren (h : LastAt env log data g node)
    (hn : 0 < data.length) (hgood : mhtNbranches ∣ data.length → mhtNbranches ^ g ∣ data.length) :
    node.numCompleteChildren =
      data.length / mhtNbranches ^ g - (mhtCount data.length (g + 1) - 1) * mhtNbranches := by
  have hdvd : mhtNbranches ∣ node.numDataNodes ↔ mhtNbranches ∣ data.length := by
    rw [h.numDataNodes_eq hn]
    refine dvd_sub_iff_left (last_mul_lt hn (g + 1)).1.le ?_
    exact Dvd.dvd.mul_left (dvd_pow_self _ (succ_ne_zero g)) _
  rw [MhtNode.numCompleteChildren, h.numValidEntries_eq hn, h.height]
  by_cases hg : mhtNbranches ^ g ∣ data.length
  · have hcond : mhtNbranches ∣ node.numDataNodes ∨ g + 1 = 1 := by
      rcases Nat.eq_zero_or_pos g with rfl | hpos
      · exact .inr rfl
      · exact .inl (hdvd.mpr ((dvd_pow_self _ hpos.ne').trans hg))
    rw [if_pos hcond, mhtCount, mhtCount, levelCount_of_dvd hg]
  · have hcond : ¬ (mhtNbranches ∣ node.numDataNodes ∨ g + 1 = 1) := by
      rintro (hall | hone)
      · exact hg (hgood (hdvd.mp hall))
      · obtain rfl : g = 0 := by omega
        exact hg (by simp)
    rw [if_neg hcond, mhtCount, mhtCount, levelCount_of_not_dvd hg]
    omega

variable {tree new : List (List UInt8)} {more : BlockLog} {H : ℕ}
  {previous : Option (PreviousBuild K M)}

/-- The kept children of the last node are complete. -/
lemma LastAt.kept (h : LastAt env log tree g node)
    (hn : 0 < tree.length) (hgood : mhtNbranches ∣ tree.length → mhtNbranches ^ g ∣ tree.length) :
    (node.entries.take node.numCompleteChildren).length =
        tree.length / mhtNbranches ^ g - (mhtCount tree.length (g + 1) - 1) * mhtNbranches ∧
      Numbered (Covers env (log ++ more) (tree ++ new) g)
        ((mhtCount tree.length (g + 1) - 1) * mhtNbranches)
        (node.entries.take node.numCompleteChildren) := by
  have hbound := (mhtCount_succ_bounds hn g).2
  have hle : tree.length / mhtNbranches ^ g ≤ mhtCount tree.length g :=
    div_le_levelCount
  have hcomplete := h.numCompleteChildren hn hgood
  have hlen : (node.entries.take node.numCompleteChildren).length =
      tree.length / mhtNbranches ^ g - (mhtCount tree.length (g + 1) - 1) * mhtNbranches := by
    rw [length_take, h.length_entries, hcomplete]
    omega
  refine ⟨hlen, (h.children.take _).mono fun i hi entry hentry => ?_⟩
  have hin : (mhtCount tree.length (g + 1) - 1) * mhtNbranches + i + 1 ≤
      tree.length / mhtNbranches ^ g := by omega
  rw [le_div_iff_mul_le branches_pow_pos] at hin
  exact ((hentry (by omega)).append_log more).append_data hin new

/-- The number of the previous node of a level is that of the first new one. -/
lemma Previous.start_eq (hP : Previous env log tree H previous)
    (hlast : g + 1 = H ∨ ¬ mhtNbranches ^ (g + 1) ∣ tree.length) (hg : g < H) :
    mhtCount tree.length (g + 1) - 1 = levelStart H tree.length (g + 1) := by
  unfold levelStart
  rcases eq_or_ne (g + 1) H with rfl | hne
  · rw [if_neg (lt_irrefl _)]
    exact Nat.sub_eq_zero_of_le (mhtCount_le_one hP.fits)
  · rw [if_pos (by omega), last_of_not_dvd (hlast.resolve_left hne)]

variable {entries : List (MhtNodeEntry K M)} {c : ℕ}

/-- The entries of a level: what is kept of the previous level, and the new ones. -/
lemma Previous.allLevelEntries (hP : Previous env log tree H previous) (total : ℕ)
    (hgood : mhtNbranches ∣ tree.length → g < H → mhtNbranches ^ g ∣ tree.length)
    (hE : Numbered (Covers env (log ++ more) (tree ++ new) g) (levelStart H tree.length g) entries)
    (hlen : levelStart H tree.length g + entries.length = c) :
    let all := LevelBuilder.allLevelEntries
      ⟨entries, total, g + 1, previous.bind fun p => p.targetNode (g + 1)⟩
    Numbered (Covers env (log ++ more) (tree ++ new) g)
        (levelStart H tree.length (g + 1) * mhtNbranches) all ∧
      levelStart H tree.length (g + 1) * mhtNbranches + all.length = c := by
  simp only [LevelBuilder.allLevelEntries]
  cases htarget : previous.bind fun p => p.targetNode (g + 1) with
  | none =>
    -- Nothing of the level is incomplete, so the new entries start a node.
    have hstart : levelStart H tree.length (g + 1) * mhtNbranches = levelStart H tree.length g := by
      unfold levelStart
      rcases hP.no_target g htarget with hle | ⟨hlt, hdvd⟩
      · rw [if_neg (by omega), if_neg (by omega), zero_mul]
      · rw [if_pos hlt, if_pos (by omega), div_pow_succ_mul hdvd]
    simp only
    rw [hstart]
    exact ⟨hE, hlen⟩
  | some node =>
    obtain ⟨hlt, hlast, hwhich⟩ := hP.target g node htarget
    have hn : 0 < tree.length := hP.pos (by omega)
    obtain ⟨hkept, hnumbered⟩ := hlast.kept hn fun h => hgood h hlt
    have hbefore : (mhtCount tree.length (g + 1) - 1) * mhtNbranches ≤
        tree.length / mhtNbranches ^ g := by
      rw [le_div_iff_mul_le branches_pow_pos, mul_assoc, ← pow_succ']
      exact (last_mul_lt hn (g + 1)).1.le
    have hg : levelStart H tree.length g = tree.length / mhtNbranches ^ g := if_pos hlt
    rw [hP.start_eq hwhich hlt] at hkept hnumbered hbefore
    rw [hg] at hE hlen
    simp only [length_append, hkept]
    refine ⟨hnumbered.append ?_, by omega⟩
    rw [hkept, Nat.add_sub_cancel' hbefore]
    exact hE

/-- The data nodes below the last node, as `build_last_node` counts them. -/
lemma last_numDataNodes {n : ℕ} (hn : 0 < n) (hc : c + 1 = mhtCount n (g + 1)) :
    (if n % mhtNbranches ^ (g + 1) = 0 then mhtNbranches ^ (g + 1)
      else n % mhtNbranches ^ (g + 1)) =
      min (mhtNbranches ^ (g + 1)) (n - c * mhtNbranches ^ (g + 1)) := by
  obtain rfl : c = mhtCount n (g + 1) - 1 := by omega
  obtain ⟨hlt, hle⟩ := last_mul_lt hn (g + 1)
  by_cases hdvd : mhtNbranches ^ (g + 1) ∣ n
  · rw [if_pos (mod_eq_zero_of_dvd hdvd)]
    have hcount := levelCount_of_dvd hdvd
    have hdiv := Nat.div_mul_cancel hdvd
    rw [← hcount, ← mhtCount, ← hc, add_mul, one_mul] at hdiv
    omega
  · rw [if_neg fun hzero => hdvd (dvd_of_mod_eq_zero hzero), last_of_not_dvd hdvd,
      ← mod_eq_sub_div_mul, min_eq_right (mod_lt n branches_pow_pos).le]

section Build

variable {builder : LevelBuilder K M} {g s : ℕ}

/-- The entries of the node that the build makes as its `nth`. -/
lemma chunk (hall : Numbered (Covers env log data g) (s * mhtNbranches) builder.allLevelEntries)
    (hlen : s * mhtNbranches + builder.allLevelEntries.length = mhtCount data.length g) (nth : ℕ) :
    Numbered (Covers env log data g) ((s + nth) * mhtNbranches)
        ((builder.allLevelEntries.drop (nth * mhtNbranches)).take mhtNbranches) ∧
      ((builder.allLevelEntries.drop (nth * mhtNbranches)).take mhtNbranches).length =
        min mhtNbranches (mhtCount data.length g - (s + nth) * mhtNbranches) := by
  constructor
  · rw [add_mul]
    exact (hall.drop _).take _
  · rw [length_take, length_drop, add_mul]
    omega

/-- The last node of a level, with padding after its entries. -/
lemma nodeAt_buildLastNode (hheight : builder.height = g + 1)
    (htotal : builder.totalDataNodes = data.length) (hn : 0 < data.length)
    (hc : c + 1 = mhtCount data.length (g + 1))
    (hE : Numbered (Covers env log data g) (c * mhtNbranches) entries)
    (hlen : entries.length = min mhtNbranches (mhtCount data.length g - c * mhtNbranches)) :
    NodeAt env log data g c (builder.buildLastNode env entries) := by
  refine ⟨hheight, ?_, hlen, ?_, ?_⟩
  · simp only [LevelBuilder.buildLastNode, MhtNode.maxNumDataNodes, hheight, htotal]
    exact last_numDataNodes hn hc
  · simp only [LevelBuilder.buildLastNode, length_append, length_replicate]
    omega
  · refine (hE.mono fun _ _ _ hcovers _ => hcovers).append ?_
    -- There are no nodes with the numbers of the padding.
    intro j entry hj hlt
    have hpad := (List.getElem?_eq_some_iff.mp hj).1
    rw [length_replicate] at hpad
    omega

/-- A node before the last one. -/
lemma nodeAt_full (hc : c + 1 < mhtCount data.length (g + 1))
    (hE : Numbered (Covers env log data g) (c * mhtNbranches) entries)
    (hlen : entries.length = min mhtNbranches (mhtCount data.length g - c * mhtNbranches)) :
    NodeAt env log data g c ⟨g + 1, MhtNode.maxNumDataNodes (g + 1), mhtNbranches, entries⟩ := by
  rw [lt_levelCount_iff] at hc
  obtain ⟨hdata, hvalid⟩ := complete_header hc.le
  exact ⟨rfl, hdata.symm, hvalid.symm, hlen.trans hvalid, hE.mono fun _ _ _ hcovers _ => hcovers⟩

/-- The nodes of a level. -/
lemma build_spec (hheight : builder.height = g + 1)
    (htotal : builder.totalDataNodes = data.length) (hn : 0 < data.length)
    (hall : Numbered (Covers env log data g) (s * mhtNbranches) builder.allLevelEntries)
    (hlen : s * mhtNbranches + builder.allLevelEntries.length = mhtCount data.length g) :
    (builder.build env).length = mhtCount data.length (g + 1) - s ∧
      Numbered (NodeAt env log data g) s (builder.build env) := by
  have hcount : alignUp builder.allLevelEntries.length mhtNbranches / mhtNbranches =
      mhtCount data.length (g + 1) - s := by
    rw [alignUp_div mhtNbranches_pos, mhtCount, ← ceilDiv_levelCount, ← ceilDiv_sub_mul,
      Nat.eq_sub_of_add_eq' hlen]
  simp only [LevelBuilder.build, hcount]
  refine ⟨by simp, fun nth node hnode => ?_⟩
  obtain ⟨hchunk, hchunklen⟩ := chunk hall hlen nth
  simp only [getElem?_map, map_eq_some_iff] at hnode
  obtain ⟨i, hi, rfl⟩ := hnode
  obtain ⟨hin, rfl⟩ := List.getElem?_eq_some_iff.mp hi
  rw [length_range] at hin
  rw [getElem_range] at *
  split
  · exact nodeAt_buildLastNode hheight htotal hn (by omega) hchunk hchunklen
  · rw [hheight]
    exact nodeAt_full (by omega) hchunk hchunklen

end Build

/-! ### All levels -/

variable {mht : Mht K M} {E : Error → Mht K M → Prop}

lemma NodeAt.append_log (h : NodeAt env log data g c node)
    (more : BlockLog) : NodeAt env (log ++ more) data g c node :=
  h.mono fun _ _ hcovers => hcovers.append_log more

/-- Nodes that are stored are found by their entries. -/
lemma twp_storeMhtNodes {s : ℕ} {nodes : List (MhtNode K M)} (hpos : 0 < nodes.length)
    (hN : Numbered (NodeAt env mht.blockLog data g) s nodes) :
    twp (storeMhtNodes env nodes)
      (fun entries mht' => ∃ more, mht' = { mht with blockLog := mht.blockLog ++ more } ∧
        entries.length = nodes.length ∧
        Numbered (Covers env (mht.blockLog ++ more) data (g + 1)) s entries) E mht := by
  obtain ⟨more, hlog, hlen, hread⟩ :=
    MhtStorage.appendBlocks_spec env mht.blockLog (nodes.map env.asBytes)
  simp only [storeMhtNodes, twp_bind, twp_get, twp_failIf, twp_modify, twp_pure, hlog]
  refine ⟨fun hzero => absurd hzero hpos.ne', fun _ => ⟨more, rfl, ?_, fun j entry hj => ?_⟩⟩
  · rw [hlen, length_map]
  · obtain ⟨plain, hplain, hblock⟩ := hread j entry hj
    rw [zero_add, getElem?_map, map_eq_some_iff] at hplain
    obtain ⟨node, hnode, rfl⟩ := hplain
    refine ⟨node, ?_, (hN j node hnode).append_log more⟩
    rw [MhtStorage.readChild, MhtStorage.readMhtNode, hblock, Except.map, env.fromBytes_asBytes]

/-- The nodes of a level of a build. -/
lemma Previous.levelNodes (hP : Previous env log tree H previous)
    (hgood : mhtNbranches ∣ tree.length → g < H → mhtNbranches ^ g ∣ tree.length)
    (hn : 0 < (tree ++ new).length)
    (hE : Numbered (Covers env (log ++ more) (tree ++ new) g) (levelStart H tree.length g) entries)
    (hlen : levelStart H tree.length g + entries.length = mhtCount (tree ++ new).length g) :
    (TreeBuilder.levelNodes env previous (tree ++ new).length (g + 1) entries).length =
        mhtCount (tree ++ new).length (g + 1) - levelStart H tree.length (g + 1) ∧
      Numbered (NodeAt env (log ++ more) (tree ++ new) g) (levelStart H tree.length (g + 1))
        (TreeBuilder.levelNodes env previous (tree ++ new).length (g + 1) entries) := by
  obtain ⟨hall, hcount⟩ := hP.allLevelEntries (tree ++ new).length hgood hE hlen
  exact build_spec rfl rfl hn hall hcount

/-- Building the levels from height `g + 1` on gives the root. -/
lemma twp_buildHierarchy (hP : Previous env log tree H previous)
    (hgood : mhtNbranches ∣ tree.length → ∀ g < H, mhtNbranches ^ g ∣ tree.length)
    (hn : 0 < (tree ++ new).length) (hlog : mht.blockLog = log ++ more)
    (hfits : (tree ++ new).length ≤ mhtNbranches ^ (g + levels + 1)) (hH : H ≤ g + levels + 1)
    (hnext : ∀ i, g < i → i ≤ g + levels →
      levelStart H tree.length i < mhtCount (tree ++ new).length i)
    (hE : Numbered (Covers env (log ++ more) (tree ++ new) g) (levelStart H tree.length g) entries)
    (hlen : levelStart H tree.length g + entries.length = mhtCount (tree ++ new).length g) :
    twp (TreeBuilder.buildHierarchy env previous (tree ++ new).length levels (g + 1) entries)
      (fun root mht' => ∃ more', mht' = { mht with blockLog := mht.blockLog ++ more' } ∧
        NodeAt env (mht.blockLog ++ more') (tree ++ new) (g + levels) 0 root) E mht := by
  induction levels generalizing g entries mht more with
  | zero =>
    obtain ⟨hbuilt, hnodes⟩ := hP.levelNodes (fun hd => hgood hd g) hn hE hlen
    have hstart : levelStart H tree.length (g + 1) = 0 := if_neg (by omega)
    have hone : mhtCount (tree ++ new).length (g + 1) = 1 :=
      le_antisymm (mhtCount_le_one hfits) (mhtCount_pos hn _)
    rw [hstart, hone] at hbuilt
    rw [hstart] at hnodes
    obtain ⟨root, hroot⟩ := length_eq_one_iff.mp hbuilt
    rw [hroot] at hnodes
    rw [TreeBuilder.buildHierarchy, twp_ofOption]
    refine ⟨root, ?_, [], by simp, ?_⟩
    · rw [hroot]
      rfl
    · rw [append_nil, hlog]
      exact (Numbered.cons_iff.mp hnodes).1
  | succ levels ih =>
    obtain ⟨hbuilt, hnodes⟩ := hP.levelNodes (fun hd => hgood hd g) hn hE hlen
    have hlt := hnext (g + 1) (by omega) (by omega)
    rw [TreeBuilder.buildHierarchy]
    rw [← hlog] at hnodes
    refine (twp_storeMhtNodes (by rw [hbuilt]; omega) hnodes).then ?_
    rintro nextEntries _ ⟨more', rfl, hnextlen, hnextE⟩
    rw [hlog, append_assoc] at hnextE
    have hlog' : ({ mht with blockLog := mht.blockLog ++ more' } : Mht K M).blockLog =
        log ++ (more ++ more') := by simp only [hlog, append_assoc]
    have hstep := ih hlog' (by rwa [add_right_comm g 1]) (by omega)
      (fun i hi hle => hnext i (by omega) (by omega)) hnextE (by omega)
    refine hstep.imp ?_
    rintro root _ ⟨more'', rfl, hroot⟩
    refine ⟨more' ++ more'', by simp, ?_⟩
    rw [← append_assoc, ← add_assoc, add_right_comm]
    exact hroot

end Mht

end Asterinas.Mlsdisk
