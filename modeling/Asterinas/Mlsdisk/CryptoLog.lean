import Mathlib.Algebra.Order.Floor.Div
import Asterinas.Framework.Exec
import Asterinas.Mlsdisk.Aead
import Asterinas.Mlsdisk.Error

/-!
# The encrypted log

`1-crypto/crypto_log.rs`: an append-only log of data blocks under a Merkle hash tree.  Appended
blocks wait in a queue of nodes and then, encrypted and written, in a queue of entries; a build
takes the entries and makes a new version of the right border of the tree.

The backing log returns what was appended to it.  The cache of nodes is left out, since it returns
what a read of the log would return.
-/

namespace Asterinas.Mlsdisk

open Framework Exec

/-- `MHT_NBRANCHES`: as many entries as fit into a block. -/
def mhtNbranches : ℕ := 102

/-- `MhtNodeEntry`: where a child is, with its key and its MAC. -/
structure MhtNodeEntry (K M : Type) where
  pos : ℕ
  key : K
  mac : M

/-- `MhtNode`, with the fields of its header. -/
structure MhtNode (K M : Type) where
  height : ℕ
  numDataNodes : ℕ
  numValidEntries : ℕ
  entries : List (MhtNodeEntry K M)

/-- `RootMhtMeta`: where the root is, with its MAC and its IV, as the key of the log opens it. -/
structure RootMhtMeta (M : Type) where
  pos : ℕ
  mac : M
  iv : ℕ

/-- The encryption, the bytes of a node, and the random keys and IVs, by the positions of the blocks
that they are for. -/
structure MhtEnv (K M : Type) where
  aead : Aead K M
  asBytes : MhtNode K M → List UInt8
  fromBytes : List UInt8 → MhtNode K M
  fromBytes_asBytes : ∀ node, fromBytes (asBytes node) = node
  randomKey : ℕ → K
  randomIv : ℕ → ℕ
  zeroed : MhtNodeEntry K M
  /-- The error of the backing log for a block that it does not have. -/
  readFailed : Error

variable {K M : Type}

namespace MhtNode

/-- `MhtNode::max_num_data_nodes`: the data nodes below a complete node. -/
def maxNumDataNodes (height : ℕ) : ℕ := mhtNbranches ^ height

/-- `MhtNode::is_incomplete`: there are fewer data nodes below the node than there can be. -/
def isIncomplete (node : MhtNode K M) : Bool := node.numDataNodes != maxNumDataNodes node.height

/-- `MhtNode::num_complete_children`, which takes the last child for complete when the count is a
multiple. -/
def numCompleteChildren (node : MhtNode K M) : ℕ :=
  if mhtNbranches ∣ node.numDataNodes ∨ node.height = 1 then node.numValidEntries
  else node.numValidEntries - 1

end MhtNode

/-! ### The storage -/

/-- The blocks of the backing log. -/
abbrev BlockLog := List (List UInt8)

namespace MhtStorage

variable (env : MhtEnv K M)

section

variable (log : BlockLog) (pos : ℕ) (key : K) (mac : M) (iv : ℕ)

/-- Read a block and decrypt it. -/
def readBlock : Except Error (List UInt8) :=
  match log[pos]? with
  | none => .error env.readFailed
  | some cipher =>
    match env.aead.decrypt cipher key iv none mac with
    | none => .error ⟨.decryptFailed, "aes-128-gcm decryption failed"⟩
    | some plain => .ok plain

/-- `MhtStorage::read_mht_node`: a node, decrypted and decoded. -/
def readMhtNode : Except Error (MhtNode K M) :=
  (readBlock env log pos key mac iv).map env.fromBytes

end

section

variable (log : BlockLog) (entry : MhtNodeEntry K M)

/-- The node that an entry is about. -/
def readChild : Except Error (MhtNode K M) :=
  readMhtNode env log entry.pos entry.key entry.mac 0

/-- `MhtStorage::read_data_node`: a data block, decrypted. -/
def readDataNode : Except Error (List UInt8) :=
  readBlock env log entry.pos entry.key entry.mac 0

end

/-- Encrypt blocks for the positions from here on: the entries and the encrypted blocks. -/
def encryptAll : ℕ → List (List UInt8) → List (MhtNodeEntry K M × List UInt8)
  | _, [] => []
  | pos, plain :: rest =>
    let (cipher, mac) := env.aead.encrypt plain (env.randomKey pos) 0 none
    (⟨pos, env.randomKey pos, mac⟩, cipher) :: encryptAll (pos + 1) rest

/-- Append encrypted blocks. -/
def appendBlocks (log : BlockLog) (blocks : List (List UInt8)) :
    List (MhtNodeEntry K M) × BlockLog :=
  let encrypted := encryptAll env log.length blocks
  (encrypted.map Prod.fst, log ++ encrypted.map Prod.snd)

/-- `MhtStorage::append_root_mht_node`: the root is encrypted with the key of the log and a random
IV. -/
def appendRootMhtNode (log : BlockLog) (rootKey : K) (node : MhtNode K M) :
    RootMhtMeta M × BlockLog :=
  let iv := env.randomIv log.length
  let (cipher, mac) := env.aead.encrypt (env.asBytes node) rootKey iv none
  (⟨log.length, mac, iv⟩, log ++ [cipher])

end MhtStorage

/-! ### The buffer of appended data -/

/-- `AppendDataBuf`: the data that are not in the tree yet, written out or not. -/
structure AppendDataBuf (K M : Type) where
  nodeQueue : List (List UInt8)
  nodeQueueCap : ℕ
  entryQueue : List (MhtNodeEntry K M)
  entryQueueCap : ℕ
  startPos : ℕ

/-- `Mht`, with its backing log. -/
structure Mht (K M : Type) where
  root : Option (RootMhtMeta M × MhtNode K M)
  rootKey : K
  dataBuf : AppendDataBuf K M
  blockLog : BlockLog

/-- Programs on a log. -/
abbrev MhtProg (K M α : Type) := Exec Error (Mht K M) α

namespace AppendDataBuf

/-- `MAX_ENTRY_QUEUE_CAP`: the data nodes of a complete tree of height 3. -/
def maxEntryQueueCap : ℕ := mhtNbranches ^ 3

/-- `AppendDataBuf::calc_queue_cap`, for entries of 40 bytes.  The subtraction of `append_pos` can
underflow. -/
def calcQueueCap (capacity appendPos : ℕ) : Option (ℕ × ℕ) :=
  if maxEntryQueueCap < appendPos then none
  else
    let nodeQueueCap := capacity / 2
    let maxCap := maxEntryQueueCap - appendPos
    let remainCap := (capacity - nodeQueueCap) * 4096 / 40
    some (nodeQueueCap, min maxCap remainCap)

/-- `AppendDataBuf::new`, with the capacity shared between the two queues; `none` is a panic. -/
def new (capacity startPos : ℕ) : Option (AppendDataBuf K M) :=
  (calcQueueCap capacity startPos).map fun caps => ⟨[], caps.1, [], caps.2, startPos⟩

/-- `AppendDataBuf::num_append`: the data nodes in the buffer. -/
def numAppend (buf : AppendDataBuf K M) : ℕ := buf.nodeQueue.length + buf.entryQueue.length

/-- `AppendDataBuf::is_full`: there are as many entries as one build takes. -/
def isFull (buf : AppendDataBuf K M) : Bool := buf.entryQueueCap ≤ buf.entryQueue.length

end AppendDataBuf

namespace Mht

variable (env : MhtEnv K M)

/-- Change the buffer of appended data. -/
def setDataBuf (f : AppendDataBuf K M → AppendDataBuf K M) : MhtProg K M Unit :=
  modify fun mht => { mht with dataBuf := f mht.dataBuf }

/-- `MhtStorage::append_data_nodes`. -/
def storeDataNodes (nodes : List (List UInt8)) : MhtProg K M (List (MhtNodeEntry K M)) := do
  let mht ← get
  let (entries, log) := MhtStorage.appendBlocks env mht.blockLog nodes
  modify fun mht => { mht with blockLog := log }
  return entries

/-- `MhtStorage::append_mht_nodes`.  There is no buffer of no blocks. -/
def storeMhtNodes (nodes : List (MhtNode K M)) : MhtProg K M (List (MhtNodeEntry K M)) := do
  failIf (nodes.length = 0) ⟨.invalidArgs, "num_blocks must be greater than 0 for allocation"⟩
  let mht ← get
  let (entries, log) := MhtStorage.appendBlocks env mht.blockLog (nodes.map env.asBytes)
  modify fun mht => { mht with blockLog := log }
  return entries

/-- `AppendDataBuf::flush_node_queue`: the waiting nodes are written and become entries. -/
def flushNodeQueue : MhtProg K M Unit := do
  let mht ← get
  let entries ← storeDataNodes env mht.dataBuf.nodeQueue
  setDataBuf fun buf => { buf with entryQueue := buf.entryQueue ++ entries, nodeQueue := [] }

/-- `AppendDataBuf::append_data_nodes`. -/
def bufferDataNodes (nodes : List (List UInt8)) : MhtProg K M Unit := do
  let mht ← get
  failIf (mht.dataBuf.isFull = true) ⟨.outOfMemory, "cache out of capacity"⟩
  setDataBuf fun buf => { buf with nodeQueue := buf.nodeQueue ++ nodes }
  let mht ← get
  if mht.dataBuf.nodeQueueCap ≤ mht.dataBuf.nodeQueue.length then flushNodeQueue env
  else pure ()

/-- `AppendDataBuf::flush`. -/
def flushDataBuf : MhtProg K M (List (MhtNodeEntry K M)) := do
  flushNodeQueue env
  let mht ← get
  let entries := mht.dataBuf.entryQueue
  setDataBuf fun buf => { buf with entryQueue := [], startPos := buf.startPos + entries.length }
  return entries

end Mht

/-! ### Building the tree -/

/-- `align_up`: the first multiple of `align` from `x` on. -/
def alignUp (x align : ℕ) : ℕ := x ⌈/⌉ align * align

/-- `LevelBuilder`: the entries of one level, behind those of the incomplete node of the last
build. -/
structure LevelBuilder (K M : Type) where
  levelEntries : List (MhtNodeEntry K M)
  totalDataNodes : ℕ
  height : ℕ
  previousIncompleteNode : Option (MhtNode K M)

namespace LevelBuilder

variable (env : MhtEnv K M)

section

variable (builder : LevelBuilder K M)

/-- The entries of the level: those of the previous node that stay, and the new ones. -/
def allLevelEntries : List (MhtNodeEntry K M) :=
  match builder.previousIncompleteNode with
  | some node => node.entries.take node.numCompleteChildren ++ builder.levelEntries
  | none => builder.levelEntries

/-- `LevelBuilder::build_last_node`: the last node of a level, filled up with zeroed entries. -/
def buildLastNode (entries : List (MhtNodeEntry K M)) : MhtNode K M :=
  let maxDataNodes := MhtNode.maxNumDataNodes builder.height
  let incompleteNodes := builder.totalDataNodes % maxDataNodes
  { height := builder.height
    numDataNodes := if incompleteNodes = 0 then maxDataNodes else incompleteNodes
    numValidEntries := entries.length
    entries := entries ++ List.replicate (mhtNbranches - entries.length) env.zeroed }

/-- `LevelBuilder::build`: the nodes of a level, all complete but for the last one. -/
def build : List (MhtNode K M) :=
  let all := builder.allLevelEntries
  let numBuild := alignUp all.length mhtNbranches / mhtNbranches
  (List.range numBuild).map fun nth =>
    let entries := (all.drop (nth * mhtNbranches)).take mhtNbranches
    if nth = numBuild - 1 then builder.buildLastNode env entries
    else ⟨builder.height, MhtNode.maxNumDataNodes builder.height, mhtNbranches, entries⟩

end

end LevelBuilder

/-- `PreviousBuild`: the root and the incomplete nodes below it, by their height. -/
structure PreviousBuild (K M : Type) where
  root : MhtNode K M
  internalIncompleteNodes : ℕ → Option (MhtNode K M)

namespace PreviousBuild

variable (env : MhtEnv K M)

/-- The last child of a node; without one, or when it cannot be read, the source panics. -/
def lastChild (log : BlockLog) (node : MhtNode K M) : Option (MhtNode K M) :=
  if node.numValidEntries = 0 then none
  else (node.entries[node.numValidEntries - 1]?).bind fun entry =>
    (MhtStorage.readChild env log entry).toOption

/-- The loop of `PreviousBuild::collect_incomplete_nodes`, for at most so many levels. -/
def collectLoop (log : BlockLog) :
    ℕ → MhtNode K M → (ℕ → Option (MhtNode K M)) → Option (ℕ → Option (MhtNode K M))
  | 0, _, _ => none
  | levels + 1, lookup, found =>
    if lookup.isIncomplete then
      let found := Function.update found lookup.height (some lookup)
      if lookup.height = 1 then some found
      else (lastChild env log lookup).bind fun child => collectLoop log levels child found
    else some found

/-- `PreviousBuild::collect_incomplete_nodes`: the right border, down to the first complete node. -/
def collectIncompleteNodes (log : BlockLog) (root : MhtNode K M) :
    Option (ℕ → Option (MhtNode K M)) :=
  if ¬ root.isIncomplete ∨ root.height = 1 then some fun _ => none
  else (lastChild env log root).bind fun child => collectLoop env log root.height child fun _ =>
    none

/-- `PreviousBuild::new`: the root with the incomplete nodes that are read below it. -/
def new (log : BlockLog) (root : MhtNode K M) : Option (PreviousBuild K M) :=
  (collectIncompleteNodes env log root).map fun nodes => ⟨root, nodes⟩

/-- `PreviousBuild::target_node`: the node of a height that the next build continues. -/
def targetNode (previous : PreviousBuild K M) (height : ℕ) : Option (MhtNode K M) :=
  if height = previous.root.height then some previous.root
  else previous.internalIncompleteNodes height

end PreviousBuild

namespace TreeBuilder

variable (env : MhtEnv K M)

/-- `TreeBuilder::previous_built_root`: nothing for a log without a root; the outer `none` is a
panic. -/
def previousBuiltRoot (log : BlockLog) :
    Option (MhtNode K M) → Option (Option (PreviousBuild K M))
  | none => some none
  | some root => (PreviousBuild.new env log root).map some

/-- `TreeBuilder::calc_target_height`; the logarithm of zero panics. -/
def calcTargetHeight (total : ℕ) : Option ℕ :=
  if total = 0 then none
  else
    let height := Nat.log mhtNbranches total
    some (if mhtNbranches ^ height < total ∨ height = 0 then height + 1 else height)

/-- The nodes of a level. -/
def levelNodes (previous : Option (PreviousBuild K M)) (total height : ℕ)
    (entries : List (MhtNodeEntry K M)) : List (MhtNode K M) :=
  LevelBuilder.build env ⟨entries, total, height, previous.bind fun p => p.targetNode height⟩

/-- `TreeBuilder::build_hierarchy`, by the number of levels above this one. -/
def buildHierarchy (previous : Option (PreviousBuild K M)) (total : ℕ) :
    ℕ → ℕ → List (MhtNodeEntry K M) → MhtProg K M (MhtNode K M)
  | 0, height, entries => ofOption (levelNodes env previous total height entries).getLast?
  | levels + 1, height, entries => do
    let nextEntries ← Mht.storeMhtNodes env (levelNodes env previous total height entries)
    buildHierarchy previous total levels (height + 1) nextEntries

/-- `TreeBuilder::build`: the levels from the entries of the data nodes up to the new root. -/
def build (previous : Option (PreviousBuild K M)) (entries : List (MhtNodeEntry K M)) :
    MhtProg K M (MhtNode K M) := do
  let total := entries.length + (previous.map fun p => p.root.numDataNodes).getD 0
  let target ← ofOption (calcTargetHeight total)
  buildHierarchy env previous total (target - 1) 1 entries

end TreeBuilder

/-! ### Searching the tree -/

/-- `SearchCtx`: the positions that are asked for and the buffer that is filled. -/
structure SearchCtx where
  pos : ℕ
  dataBuf : List (List UInt8)
  offset : ℕ
  num : ℕ
  isCompleted : Bool

/-- `SearchCtx::new`: a search for as many data nodes as the buffer has room for. -/
def SearchCtx.new (pos : ℕ) (buf : List (List UInt8)) : SearchCtx :=
  ⟨pos, buf, 0, buf.length, false⟩

/-- Programs on a search. -/
abbrev SearchProg (α : Type) := Exec Error SearchCtx α

namespace SearchCtx

variable (env : MhtEnv K M)

/-- Write a block to `SearchCtx::node_buf`, which panics beyond the buffer. -/
def writeNode (offset : ℕ) (block : Except Error (List UInt8)) : SearchProg Unit := do
  let ctx ← get
  require (offset < ctx.dataBuf.length)
  let block ← ofExcept block
  modify fun ctx => { ctx with dataBuf := ctx.dataBuf.set offset block }

/-- The loop over the entry queue, with its start, end and offset. -/
def readEntries (log : BlockLog) :
    List (MhtNodeEntry K M) → ℕ → ℕ → ℕ → SearchProg (ℕ × ℕ × ℕ)
  | [], startNth, endNth, offset => pure (startNth, endNth, offset)
  | entry :: rest, _, endNth, offset => do
    writeNode offset (MhtStorage.readDataNode env log entry)
    readEntries log rest 0 (endNth - 1) (offset + 1)

/-- The loop over the node queue. -/
def copyNodes : List (List UInt8) → ℕ → SearchProg Unit
  | [], _ => pure ()
  | node :: rest, offset => do
    writeNode offset (.ok node)
    copyNodes rest (offset + 1)

/-- The loop over the entries of data nodes. -/
def collectDataNodes (log : BlockLog) : List (MhtNodeEntry K M) → SearchProg Unit
  | [] => pure ()
  | entry :: rest => do
    let ctx ← get
    writeNode ctx.offset (MhtStorage.readDataNode env log entry)
    modify fun ctx => { ctx with offset := ctx.offset + 1 }
    collectDataNodes log rest

end SearchCtx

namespace Mht

variable (env : MhtEnv K M)

/-- The start, the end and the offset of a search in the buffer; what lies before the buffer is left
to the tree. -/
def bufferRange (startPos : ℕ) : SearchProg (ℕ × ℕ × ℕ) := do
  let ctx ← get
  if startPos ≤ ctx.pos then
    return (ctx.pos - startPos, ctx.pos - startPos + ctx.num, 0)
  else do
    let last := ctx.pos + ctx.num - startPos
    modify fun ctx => { ctx with num := ctx.num - last }
    return (0, last, ctx.num - last)

/-- `AppendDataBuf::search_data_nodes`: the part of the search that the buffered data answer. -/
def searchDataNodes (mht : Mht K M) : SearchProg Unit := do
  let ctx ← get
  let buf := mht.dataBuf
  if ctx.pos + ctx.num ≤ buf.startPos then pure ()
  else do
    let (startNth, endNth, offset) ← bufferRange buf.startPos
    let entries := (buf.entryQueue.drop startNth).take (endNth - startNth)
    let (startNth, endNth, offset) ←
      SearchCtx.readEntries env mht.blockLog entries startNth endNth offset
    SearchCtx.copyNodes ((buf.nodeQueue.drop startNth).take (endNth - startNth)) offset
    if buf.startPos ≤ ctx.pos then modify fun ctx => { ctx with isCompleted := true }
    else pure ()

/-- `Mht::search_hierarchy`; the height of a level is not zero. -/
def searchHierarchy (log : BlockLog) : ℕ → List (MhtNode K M) → SearchProg Unit
  | 0, _ => panic
  | height + 1, levelTargets => do
    let ctx ← get
    let nextLevelMax := MhtNode.maxNumDataNodes height
    let skipped := ctx.pos / nextLevelMax
    let pos := ctx.pos - skipped * nextLevelMax
    let needed := alignUp (ctx.num + pos) nextLevelMax / nextLevelMax
    modify fun ctx => { ctx with pos := pos }
    let targetEntries := ((levelTargets.flatMap MhtNode.entries).drop skipped).take needed
    if height = 0 then do
      SearchCtx.collectDataNodes env log targetEntries
      modify fun ctx => { ctx with isCompleted := true }
    else do
      let targets ← ofExcept (targetEntries.mapM (MhtStorage.readChild env log))
      searchHierarchy log height targets

/-- `Mht::total_data_nodes`: those in the buffer and those in the tree. -/
def totalDataNodes (mht : Mht K M) : ℕ :=
  mht.dataBuf.numAppend + (mht.root.map fun root => root.2.numDataNodes).getD 0

/-- `Mht::search`: the buffer is searched first and then the tree. -/
def search (mht : Mht K M) : SearchProg Unit :=
  match mht.root with
  | none => throw ⟨.notFound, "root MHT node not found"⟩
  | some (_, rootNode) => do
    let ctx ← get
    failIf (mht.totalDataNodes < ctx.pos + ctx.num) ⟨.invalidArgs, "search out of MHT capacity"⟩
    searchDataNodes env mht
    let ctx ← get
    if ctx.isCompleted then pure ()
    else searchHierarchy env mht.blockLog rootNode.height [rootNode]

/-- `Mht::do_build`: a new version of the tree, with its root appended to the log. -/
def doBuild (entries : List (MhtNodeEntry K M)) : MhtProg K M Unit := do
  let mht ← get
  let previous ← ofOption (TreeBuilder.previousBuiltRoot env mht.blockLog (mht.root.map Prod.snd))
  let newRoot ← TreeBuilder.build env previous entries
  let mht ← get
  let (rootMeta, log) := MhtStorage.appendRootMhtNode env mht.blockLog mht.rootKey newRoot
  modify fun mht => { mht with root := some (rootMeta, newRoot), blockLog := log }

/-- `Mht::flush`: the buffer is emptied into a new version of the tree. -/
def flush : MhtProg K M Unit := do
  let entries ← flushDataBuf env
  doBuild env entries

/-- `Mht::append_data_nodes`: the nodes are buffered, and flushed when the buffer is full. -/
def appendDataNodes (nodes : List (List UInt8)) : MhtProg K M Unit := do
  bufferDataNodes env nodes
  let mht ← get
  if mht.dataBuf.isFull then flush env else pure ()

/-- `Mht::APPEND_BUF_CAPACITY`: the data nodes that the buffer takes. -/
def appendBufCapacity : ℕ := 2048

/-- `Mht::new`: a log without a root and with an empty buffer. -/
def new (blockLog : BlockLog) (rootKey : K) : Option (Mht K M) :=
  (AppendDataBuf.new appendBufCapacity 0).map fun buf => ⟨none, rootKey, buf, blockLog⟩

/-- `Mht::open`, on the backing log of the state. -/
def openAt (rootKey : K) (rootMeta : RootMhtMeta M) : MhtProg K M Unit := do
  let mht ← get
  let rootNode ← ofExcept
    (MhtStorage.readMhtNode env mht.blockLog rootMeta.pos rootKey rootMeta.mac rootMeta.iv)
  let buf ← ofOption (AppendDataBuf.new appendBufCapacity rootNode.numDataNodes)
  modify fun mht => ⟨some (rootMeta, rootNode), rootKey, buf, mht.blockLog⟩

end Mht

/-! ### `CryptoLog` -/

namespace CryptoLog

variable (env : MhtEnv K M)

/-- `CryptoLog::nblocks`: the length of the log. -/
def nblocks (log : Mht K M) : ℕ := log.totalDataNodes

/-- `CryptoLog::read`: the search, which ends with the filled buffer. -/
def read (log : Mht K M) (pos : ℕ) (buf : List (List UInt8)) : Outcome Error SearchCtx Unit :=
  log.search env (SearchCtx.new pos buf)

/-- `CryptoLog::append`: blocks are appended. -/
def append (blocks : List (List UInt8)) : MhtProg K M Unit := Mht.appendDataNodes env blocks

/-- `CryptoLog::flush`: the appended blocks come into the tree. -/
def flush : MhtProg K M Unit := Mht.flush env

/-- `CryptoLog::open` with the key and the latest metadata of the root, if there are any. -/
def reopen : MhtProg K M Unit := do
  let log ← get
  match log.root with
  | none => pure ()
  | some (rootMeta, _) => Mht.openAt env log.rootKey rootMeta

end CryptoLog

end Asterinas.Mlsdisk
