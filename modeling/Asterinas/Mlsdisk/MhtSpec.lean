import Asterinas.Framework.NaryLevels
import Asterinas.Framework.Numbered
import Asterinas.Mlsdisk.CryptoLog

/-!
# What a tree of the encrypted log stands for

Data nodes are level 0, and the nodes of height `h` are level `h`; the nodes of a level are numbered
from the left.  `Mht.Covers` says that an entry leads to the node of a given level and number of the
tree over the data.  The backing log only grows, so an entry keeps leading to its node, and a node
whose subtree is complete stays right when data are added.
-/

namespace Asterinas.Mlsdisk

open Framework Nat List

variable {K M : Type}

instance : NeZero mhtNbranches := ⟨by decide⟩

lemma mhtNbranches_pos : 0 < mhtNbranches := by decide

/-- The number of nodes of height `h` over `n` data nodes. -/
abbrev mhtCount (n h : ℕ) : ℕ := levelCount mhtNbranches n h

/-! ### Reading what was written -/

namespace MhtStorage

variable (env : MhtEnv K M)

lemma readBlock_append {pos iv : ℕ} {mac : M} {plain : List UInt8} {log : BlockLog} {key : K}
    (h : readBlock env log pos key mac iv = .ok plain) (more : BlockLog) :
    readBlock env (log ++ more) pos key mac iv = .ok plain := by
  unfold readBlock at h ⊢
  cases hget : log[pos]? with
  | none => simp [hget] at h
  | some cipher =>
    rw [getElem?_append_left (List.getElem?_eq_some_iff.mp hget).1, hget]
    simpa [hget] using h

lemma readMhtNode_append {pos iv : ℕ} {mac : M} {node : MhtNode K M} {log : BlockLog} {key : K}
    (h : readMhtNode env log pos key mac iv = .ok node) (more : BlockLog) :
    readMhtNode env (log ++ more) pos key mac iv = .ok node := by
  unfold readMhtNode at h ⊢
  cases hread : readBlock env log pos key mac iv with
  | error e => simp [hread, Except.map] at h
  | ok plain =>
    rw [readBlock_append env hread more]
    simpa [hread, Except.map] using h

/-- A block that was encrypted and appended is read back. -/
lemma readBlock_encrypted (log more : BlockLog) (plain : List UInt8) (key : K) (iv : ℕ) :
    readBlock env (log ++ (env.aead.encrypt plain key iv none).1 :: more) log.length key
      (env.aead.encrypt plain key iv none).2 iv = .ok plain := by
  simp [readBlock, env.aead.decrypt_encrypt]

@[simp] lemma length_encryptAll (pos : ℕ) (blocks : List (List UInt8)) :
    (encryptAll env pos blocks).length = blocks.length := by
  induction blocks generalizing pos with
  | nil => rfl
  | cons plain rest ih => simp [encryptAll, ih]

/-- The entries of appended blocks lead to these blocks. -/
lemma readBlock_encryptAll (blocks : List (List UInt8)) (log : BlockLog) :
    Numbered (fun j entry => ∃ plain, blocks[j]? = some plain ∧
        readBlock env (log ++ (encryptAll env log.length blocks).map Prod.snd)
          entry.pos entry.key entry.mac 0 = .ok plain) 0
      ((encryptAll env log.length blocks).map Prod.fst) := by
  induction blocks generalizing log with
  | nil => exact Numbered.nil
  | cons plain rest ih =>
    refine Numbered.cons_iff.mpr ⟨⟨plain, rfl, ?_⟩, ?_⟩
    · exact readBlock_encrypted env log _ plain _ 0
    · -- The rest is appended to the log with the first block.
      have hrest := ih (log ++ [(env.aead.encrypt plain (env.randomKey log.length) 0 none).1])
      rw [length_append, length_singleton, append_assoc] at hrest
      intro j entry hj
      obtain ⟨block, hblock, hread⟩ := hrest j entry hj
      refine ⟨block, ?_, hread⟩
      rw [add_comm 1 j]
      simpa using hblock

/-- What appending blocks gives. -/
lemma appendBlocks_spec (log : BlockLog) (blocks : List (List UInt8)) :
    ∃ more, (appendBlocks env log blocks).2 = log ++ more ∧
      (appendBlocks env log blocks).1.length = blocks.length ∧
      Numbered (fun j entry => ∃ plain, blocks[j]? = some plain ∧
        readBlock env (log ++ more) entry.pos entry.key entry.mac 0 = .ok plain) 0
        (appendBlocks env log blocks).1 :=
  ⟨(encryptAll env log.length blocks).map Prod.snd, rfl, by simp [appendBlocks],
    readBlock_encryptAll env blocks log⟩

end MhtStorage

/-! ### The tree over the data -/

/-- A node of height `h + 1` with number `c` over `n` data nodes, whose children satisfy `Child`. -/
structure MhtNode.IsAt (Child : ℕ → MhtNodeEntry K M → Prop) (n h c : ℕ) (node : MhtNode K M) :
    Prop where
  height : node.height = h + 1
  numDataNodes : node.numDataNodes = min (mhtNbranches ^ (h + 1)) (n - c * mhtNbranches ^ (h + 1))
  numValidEntries : node.numValidEntries = min mhtNbranches (mhtCount n h - c * mhtNbranches)
  length_entries : node.entries.length = mhtNbranches
  children : Numbered (fun k entry => k < mhtCount n h → Child k entry) (c * mhtNbranches)
    node.entries

lemma MhtNode.IsAt.mono {Child Child' : ℕ → MhtNodeEntry K M → Prop} {n h c : ℕ}
    {node : MhtNode K M} (hnode : node.IsAt Child n h c)
    (hchild : ∀ k entry, Child k entry → Child' k entry) : node.IsAt Child' n h c :=
  { hnode with children := hnode.children.mono fun _ _ _ hold hlt => hchild _ _ (hold hlt) }

namespace Mht

variable (env : MhtEnv K M)

/-- The entry leads to the node of height `h` and number `c` of the tree over the data. -/
def Covers (log : BlockLog) (data : List (List UInt8)) : ℕ → ℕ → MhtNodeEntry K M → Prop
  | 0, c, entry => ∃ block, data[c]? = some block ∧
      MhtStorage.readDataNode env log entry = .ok block
  | h + 1, c, entry => ∃ node, MhtStorage.readChild env log entry = .ok node ∧
      node.IsAt (Covers log data h) data.length h c

variable {env} {log : BlockLog} {data : List (List UInt8)}

/-- A node stays right when the log grows. -/
lemma Covers.append_log {h c : ℕ} {entry : MhtNodeEntry K M} (hc : Covers env log data h c entry)
    (more : BlockLog) : Covers env (log ++ more) data h c entry := by
  induction h generalizing c entry with
  | zero =>
    obtain ⟨block, hblock, hread⟩ := hc
    exact ⟨block, hblock, MhtStorage.readBlock_append env hread more⟩
  | succ h ih =>
    obtain ⟨node, hread, hnode⟩ := hc
    exact ⟨node, MhtStorage.readMhtNode_append env hread more, hnode.mono fun _ _ => ih⟩

/-- The children of a complete node are complete. -/
lemma complete_child {c h n i : ℕ} (hc : (c + 1) * mhtNbranches ^ (h + 1) ≤ n)
    (hi : i < mhtNbranches) : (c * mhtNbranches + i + 1) * mhtNbranches ^ h ≤ n := by
  refine le_trans ?_ hc
  rw [pow_succ', ← mul_assoc]
  refine mul_le_mul_right _ ?_
  rw [add_mul, one_mul]
  omega

/-- The header of a complete node does not depend on how many data follow. -/
lemma complete_header {c h n : ℕ} (hc : (c + 1) * mhtNbranches ^ (h + 1) ≤ n) :
    min (mhtNbranches ^ (h + 1)) (n - c * mhtNbranches ^ (h + 1)) = mhtNbranches ^ (h + 1) ∧
      min mhtNbranches (mhtCount n h - c * mhtNbranches) = mhtNbranches := by
  have hchild := complete_child hc (sub_lt mhtNbranches_pos one_pos)
  have hpos := mhtNbranches_pos
  have hcount : (c * mhtNbranches + (mhtNbranches - 1)) < mhtCount n h := by
    rw [lt_levelCount_iff]
    rw [add_mul _ 1, one_mul] at hchild
    have : 0 < mhtNbranches ^ h := branches_pow_pos
    omega
  constructor
  · rw [add_mul, one_mul] at hc
    omega
  · omega

/-- A node whose subtree is complete stays right when data are added. -/
lemma Covers.append_data {h c : ℕ} {entry : MhtNodeEntry K M} (hc : Covers env log data h c entry)
    (hcomplete : (c + 1) * mhtNbranches ^ h ≤ data.length) (more : List (List UInt8)) :
    Covers env log (data ++ more) h c entry := by
  induction h generalizing c entry with
  | zero =>
    obtain ⟨block, hblock, hread⟩ := hc
    refine ⟨block, ?_, hread⟩
    rw [getElem?_append_left (List.getElem?_eq_some_iff.mp hblock).1]
    exact hblock
  | succ h ih =>
    obtain ⟨node, hread, hnode⟩ := hc
    have hlonger : (c + 1) * mhtNbranches ^ (h + 1) ≤ (data ++ more).length := by
      rw [length_append]
      omega
    have hold := complete_header hcomplete
    have hnew := complete_header hlonger
    refine ⟨node, hread, { hnode with numDataNodes := ?_, numValidEntries := ?_, children := ?_ }⟩
    · rw [hnode.numDataNodes, hold.1, hnew.1]
    · rw [hnode.numValidEntries, hold.2, hnew.2]
    · refine hnode.children.mono fun i hi entry hchild _ => ?_
      rw [hnode.length_entries] at hi
      have hi' := complete_child hcomplete hi
      refine ih (hchild ?_) hi'
      rw [lt_levelCount_iff]
      rw [add_mul _ 1, one_mul] at hi'
      have : 0 < mhtNbranches ^ h := branches_pow_pos
      omega

end Mht

end Asterinas.Mlsdisk
