import Asterinas.Mlsdisk.CryptoLogCorrectness

/-!
# Runs of the encrypted log

What a log is for is a list of blocks.  In every run of sound calls the log stands for such a list;
the calls that are not sound are flushes of an empty log, and builds from a tree of height 3 whose
data nodes are a multiple of 102 but not of 102².  Reads fail before the first build, and from
inside the buffer they go wrong while both queues hold blocks.
-/

namespace Asterinas.Mlsdisk

open Framework Exec List CryptoLog

variable {K M : Type}

/-! ### A log without encryption -/

/-- The numbers that are written in unary, each with a zero after it. -/
def natsOfBytes : List UInt8 → ℕ → List ℕ
  | [], _ => []
  | byte :: rest, n => if byte = 0 then n :: natsOfBytes rest 0 else natsOfBytes rest (n + 1)

/-- Numbers in unary. -/
def bytesOfNats (numbers : List ℕ) : List UInt8 :=
  numbers.flatMap fun n => List.replicate n 1 ++ [0]

lemma natsOfBytes_replicate (n k : ℕ) (rest : List UInt8) :
    natsOfBytes (List.replicate n 1 ++ 0 :: rest) k = (k + n) :: natsOfBytes rest 0 := by
  induction n generalizing k with
  | zero => simp [natsOfBytes]
  | succ n ih =>
    rw [replicate_succ, cons_append, natsOfBytes, if_neg (by decide), ih]
    congr 1
    omega

lemma natsOfBytes_bytesOfNats (numbers : List ℕ) :
    natsOfBytes (bytesOfNats numbers) 0 = numbers := by
  induction numbers with
  | nil => rfl
  | cons n rest ih =>
    rw [bytesOfNats, flatMap_cons, append_assoc, singleton_append,
      natsOfBytes_replicate, zero_add, ← bytesOfNats, ih]

/-- Encryption that hides nothing, for examples. -/
def plainEnv : MhtEnv Unit Unit where
  aead :=
    { encrypt := fun payload _ _ _ => (payload, ())
      decrypt := fun payload _ _ _ _ => some payload
      length_encrypt := fun _ _ _ _ => rfl
      decrypt_encrypt := fun _ _ _ _ => rfl }
  asBytes node := bytesOfNats
    (node.height :: node.numDataNodes :: node.numValidEntries :: node.entries.map MhtNodeEntry.pos)
  fromBytes bytes := match natsOfBytes bytes 0 with
    | height :: numDataNodes :: numValidEntries :: entries =>
      ⟨height, numDataNodes, numValidEntries, entries.map fun pos => ⟨pos, (), ()⟩⟩
    | _ => ⟨0, 0, 0, []⟩
  fromBytes_asBytes node := by
    simp only [natsOfBytes_bytesOfNats, map_map]
    simp [Function.comp_def]
  randomKey _ := ()
  randomIv pos := pos
  zeroed := ⟨0, (), ()⟩
  readFailed := ⟨.invalidArgs, "read range out of bound"⟩

/-! ### The calls of a run -/

/-- The calls that change a log. -/
inductive CryptoLogOp
  | append (blocks : List (List UInt8))
  | flush
  | reopen

/-- What a log is for: a list of blocks, of which the first ones are under the root whose position
is recorded. -/
structure BlockList where
  blocks : List (List UInt8)
  flushed : ℕ
  rootPos : Option ℕ

/-- What a call does to the list of blocks, given whether it succeeded and where the root is after
it.  A new root is over everything. -/
def BlockList.after (s : BlockList) (op : CryptoLogOp) (succeeded : Bool) (rootPos : Option ℕ) :
    BlockList :=
  let blocks := match op, succeeded with
    | .append more, true => s.blocks ++ more
    | .reopen, true => s.blocks.take s.flushed
    | _, _ => s.blocks
  let flushed := match op, succeeded with
    | .flush, true => blocks.length
    | _, _ => if rootPos = s.rootPos then s.flushed else blocks.length
  ⟨blocks, flushed, rootPos⟩

namespace CryptoLogOp

variable (env : MhtEnv K M)

/-- Run a call. -/
def run : CryptoLogOp → MhtProg K M Unit
  | .append blocks => CryptoLog.append env blocks
  | .flush => CryptoLog.flush env
  | .reopen => CryptoLog.reopen env

/-- The calls that a log gets right: appends of some blocks within the capacity, flushes of a log
that is not empty, and openings of a log with a root; and none that adds blocks to a tree whose
complete nodes are miscounted. -/
def Sound (log : Mht K M) : CryptoLogOp → Prop
  | .append blocks => blocks ≠ [] ∧ nblocks log + blocks.length ≤ mhtNbranches ^ 3 ∧
      (log.FillsUp blocks → Mht.Rebuildable log.dataBuf.startPos)
  | .flush => 0 < nblocks log ∧ (log.dataBuf.numAppend = 0 ∨ Mht.Rebuildable log.dataBuf.startPos)
  | .reopen => log.root.isSome = true

/-- The logs that sound calls reach from a new one, with the lists of blocks that they stand for. -/
inductive Reached (env : MhtEnv K M) : Mht K M → BlockList → Prop
  | new (blockLog : BlockLog) (rootKey : K) (log : Mht K M) :
      Mht.new blockLog rootKey = some log → Reached env log ⟨[], 0, none⟩
  | ok (log log' : Mht K M) (s : BlockList) (op : CryptoLogOp) :
      Reached env log s → op.Sound log → op.run env log = .ok () log' →
        Reached env log' (s.after op true log'.rootPos)
  | err (log log' : Mht K M) (s : BlockList) (op : CryptoLogOp) (e : Error) :
      Reached env log s → op.Sound log → op.run env log = .err e log' →
        Reached env log' (s.after op false log'.rootPos)

/-- The list of blocks that a log stands for. -/
def Represents (env : MhtEnv K M) (log : Mht K M) (s : BlockList) : Prop :=
  ∃ tree pending, Mht.Inv env log tree pending ∧ (tree ++ pending).length ≤ mhtNbranches ^ 3 ∧
    s = ⟨tree ++ pending, tree.length, log.rootPos⟩

/-- A sound call returns, and does to the log what it does to the list of blocks. -/
lemma Represents.twp_run {log : Mht K M} {s : BlockList} {op : CryptoLogOp} {env : MhtEnv K M}
    (h : Represents env log s) (hop : op.Sound log) : twp (op.run env)
      (fun _ log' => Represents env log' (s.after op true log'.rootPos))
      (fun _ log' => Represents env log' (s.after op false log'.rootPos)) log := by
  obtain ⟨tree, pending, hI, hcap, rfl⟩ := h
  have htotal := Mht.totalDataNodes_eq hI.buffers hI.rooted
  have hcap' : tree.length ≤ mhtNbranches ^ 3 := by
    rw [length_append] at hcap
    omega
  cases op with
  | append blocks =>
    obtain ⟨hpos, hfits, hgood⟩ := hop
    rw [nblocks, htotal, ← length_append, append_assoc] at hfits
    rw [hI.buffers.startPos] at hgood
    refine (hI.twp_appendDataNodes hpos hfits hgood).mono ?_ fun _ _ he => he.elim
    rintro _ log' (⟨hI', hroot⟩ | ⟨hI', hroot⟩)
    · refine ⟨tree, pending ++ blocks, hI', hfits, ?_⟩
      simp [BlockList.after, hroot]
    · refine ⟨tree ++ (pending ++ blocks), [], hI', by rwa [append_nil], ?_⟩
      simp [BlockList.after, hroot]
  | flush =>
    obtain ⟨hpos, hgood⟩ := hop
    rw [nblocks, htotal] at hpos
    have hgood' : pending = [] ∨ Mht.Rebuildable tree.length := by
      rw [hI.buffers.startPos] at hgood
      refine hgood.imp_left fun hzero => length_eq_zero_iff.mp ?_
      rw [← hI.buffers.length_nodes]
      exact hzero
    refine (Mht.twp_flush hI.buffers hI.rooted ?_ hpos hcap' hgood').mono ?_ ?_
    · exact hI.room.imp_left pos_of_gt
    · rintro _ log' ⟨hI', -⟩
      refine ⟨tree ++ pending, [], hI', by rwa [append_nil], ?_⟩
      simp [BlockList.after]
    · rintro _ log' ⟨rfl, hI', hroot⟩
      refine ⟨tree, [], hI', hcap, ?_⟩
      simp [BlockList.after, hroot]
  | reopen =>
    refine (hI.twp_reopen hop hcap').mono ?_ fun _ _ he => he.elim
    rintro _ log' ⟨hI', hroot⟩
    refine ⟨tree, [], hI', by rwa [append_nil], ?_⟩
    simp [BlockList.after, hroot]

lemma Reached.represents {log : Mht K M} {s : BlockList} {env : MhtEnv K M}
    (h : Reached env log s) : Represents env log s := by
  induction h with
  | new blockLog rootKey log hnew =>
    rw [Mht.new, AppendDataBuf.new_eq zero_le, Option.map_some, Option.some.injEq] at hnew
    subst hnew
    refine ⟨[], [], ⟨⟨rfl, Numbered.nil, le_rfl, rfl⟩, rfl, .inl ?_⟩, zero_le, rfl⟩
    show 0 < min (mhtNbranches ^ 3 - 0) 104857
    decide
  | ok log log' s op _ hop hrun ih => exact (ih.twp_run hop).of_ok hrun
  | err log log' s op e _ hop hrun ih => exact (ih.twp_run hop).of_err hrun

/-- In every run of sound calls the log is the list of its blocks: it has as many blocks, and a read
that the buffer gets right, from a log with a root, fills the caller's buffer with the blocks of its
range.  No sound call panics. -/
theorem crypto_log_refines_block_list {env : MhtEnv K M} {log : Mht K M} {s : BlockList}
    (h : Reached env log s) :
    nblocks log = s.blocks.length ∧
      (∀ pos buf, buf ≠ [] → pos + buf.length ≤ nblocks log → log.root.isSome = true →
        log.BufferAligned pos buf.length →
          ∃ ctx, read env log pos buf = .ok () ctx ∧
            ctx.dataBuf = (s.blocks.drop pos).take buf.length) ∧
      ∀ op : CryptoLogOp, op.Sound log → op.run env log ≠ .panic := by
  have hrep := h.represents
  obtain ⟨tree, pending, hI, -, rfl⟩ := id hrep
  have htotal := Mht.totalDataNodes_eq hI.buffers hI.rooted
  refine ⟨htotal, fun pos buf hbuf hend hroot hS => ?_, fun op hop hpanic => ?_⟩
  · rw [nblocks, htotal, length_append] at hend
    obtain ⟨⟨rootMeta, root⟩, hroot⟩ := Option.isSome_iff_exists.mp hroot
    have hR := hI.rooted
    unfold Mht.Rooted at hR
    simp only [hroot] at hR
    obtain ⟨⟨height, hat⟩, -⟩ := hR
    have hread := Mht.twp_search hI.buffers hroot hat (length_pos_of_ne_nil hbuf) hend hS
    rcases hread.returns with ⟨_, ctx, hctx, hdata⟩ | ⟨_, _, _, hfalse⟩
    · exact ⟨ctx, hctx, hdata⟩
    · exact hfalse.elim
  · have hrun := hrep.twp_run hop
    rw [twp, hpanic] at hrun
    exact hrun

/-- A new log. -/
def emptyLog : Mht Unit Unit := ⟨none, (), ⟨[], 1024, [], 104857, 0⟩, []⟩

/-- A log after an append of one block. -/
def oneBlock : Mht Unit Unit := ⟨none, (), ⟨[[7]], 1024, [], 104857, 0⟩, []⟩

lemma reached_oneBlock : Reached plainEnv oneBlock ⟨[[7]], 0, none⟩ :=
  .ok emptyLog oneBlock ⟨[], 0, none⟩ (.append [[7]]) (.new [] () emptyLog rfl)
    ⟨by simp, by decide, fun _ => by decide⟩ rfl

/-- A block is flushed and two more are appended, which stay in the buffer; then these are flushed
and the log is opened again.  All blocks can be read from the tree and the buffer, and from the log
that has been opened. -/
theorem crypto_log_refines_block_list_of_three :
    ∃ log log' : Mht Unit Unit, Reached plainEnv log ⟨[[7], [8], [9]], 1, some 1⟩ ∧
      Reached plainEnv log' ⟨[[7], [8], [9]], 3, some 4⟩ ∧
      log.dataBuf.nodeQueue = [[8], [9]] ∧ log'.dataBuf.nodeQueue = [] ∧
      ∀ l ∈ [log, log'], ∃ ctx, read plainEnv l 0 [[0], [0], [0]] = .ok () ctx ∧
        ctx.dataBuf = [[7], [8], [9]] := by
  obtain ⟨log₁, log₂, log₃, log₄, hflush, happend, hflush', hreopen, hpos₁, hstart₁, hpos₂, hroot₂,
      hstart₂, hqueue₂, hpos₃, hroot₃, hpos₄, hroot₄, hqueue₄⟩ :
        ∃ log₁ log₂ log₃ log₄ : Mht Unit Unit,
      CryptoLogOp.flush.run plainEnv oneBlock = .ok () log₁ ∧
      (CryptoLogOp.append [[8], [9]]).run plainEnv log₁ = .ok () log₂ ∧
      CryptoLogOp.flush.run plainEnv log₂ = .ok () log₃ ∧
      CryptoLogOp.reopen.run plainEnv log₃ = .ok () log₄ ∧
      log₁.rootPos = some 1 ∧ log₁.dataBuf.startPos = 1 ∧
      log₂.rootPos = some 1 ∧ log₂.root.isSome = true ∧ log₂.dataBuf.startPos = 1 ∧
      log₂.dataBuf.nodeQueue = [[8], [9]] ∧
      log₃.rootPos = some 4 ∧ log₃.root.isSome = true ∧
      log₄.rootPos = some 4 ∧ log₄.root.isSome = true ∧ log₄.dataBuf.nodeQueue = [] :=
    ⟨_, _, _, _, rfl, rfl, rfl, rfl, rfl, rfl, rfl, rfl, rfl, rfl, rfl, rfl, rfl, rfl, rfl⟩
  have hreach₁ := Reached.ok oneBlock log₁ _ .flush reached_oneBlock
    ⟨by decide, .inr (by decide)⟩ hflush
  rw [hpos₁] at hreach₁
  have hlen₁ : nblocks log₁ = 1 := (crypto_log_refines_block_list hreach₁).1
  have hreach₂ := Reached.ok log₁ log₂ _ (.append [[8], [9]]) hreach₁
    ⟨by simp, by rw [hlen₁]; decide, fun _ => by rw [hstart₁]; decide⟩ happend
  rw [hpos₂] at hreach₂
  obtain ⟨hlen₂, hread₂, -⟩ := crypto_log_refines_block_list hreach₂
  have hreach₃ := Reached.ok log₂ log₃ _ .flush hreach₂
    ⟨by rw [hlen₂]; decide, .inr (by rw [hstart₂]; decide)⟩ hflush'
  rw [hpos₃] at hreach₃
  have hreach₄ := Reached.ok log₃ log₄ _ .reopen hreach₃ hroot₃ hreopen
  rw [hpos₄] at hreach₄
  obtain ⟨hlen₄, hread₄, -⟩ := crypto_log_refines_block_list hreach₄
  refine ⟨log₂, log₄, hreach₂, hreach₄, hqueue₂, hqueue₄, ?_⟩
  simp only [mem_cons, not_mem_nil, or_false, forall_eq_or_imp, forall_eq]
  exact ⟨hread₂ 0 _ (by simp) hlen₂.ge hroot₂ (.inl zero_le),
    hread₄ 0 _ (by simp) hlen₄.ge hroot₄ (.inl zero_le)⟩

/-- Before the first flush no block can be read. -/
theorem crypto_log_read_fails :
    Reached plainEnv oneBlock ⟨[[7]], 0, none⟩ ∧ nblocks oneBlock = 1 ∧
      read plainEnv oneBlock 0 [[0]] =
        .err ⟨.notFound, "root MHT node not found"⟩ (SearchCtx.new 0 [[0]]) :=
  ⟨reached_oneBlock, rfl, rfl⟩

end CryptoLogOp

end Asterinas.Mlsdisk
