import Pyrk.ListSuccession

/-!
# Stored masternode lists

The manager answers from a cache in memory, full lists stored from time to time, and diffs. Blocks
come and go inside database transactions, of which the cache knows nothing.
-/

namespace Pyrk.ListManager

open Transaction DeterministicMNList Coins ProviderTx BuildNewList
open BlockAssertions ListDiff ListSuccession

/-- Blocks between two stored lists. -/
def snapshotListPeriod : ℕ := 576

/-- Blocks after which a cached list expires. -/
def listsCacheSize : ℤ := 576

/-- Stored lists and diffs by block. -/
structure CEvoDB where
  /-- How the list of a block differs from the one before. -/
  listDiffs : OrderedMap Uint256 CDeterministicMNListDiff := .empty
  listSnapshots : OrderedMap Uint256 CDeterministicMNList := .empty

/-- The manager with its database and its cache. -/
structure CDeterministicMNManager where
  /-- The database as seen inside the current transaction. -/
  evoDb : CEvoDB := {}
  mnListsCache : OrderedMap Uint256 CDeterministicMNList := .empty

/-- Hash of the last block of a chain. -/
def tipHash (chain : List CBlock) : Uint256 := (chain.getLast?.map CBlock.hash).getD 0

namespace CDeterministicMNManager

/-- Go back to a list that is cached or stored, or to a block without a diff, and collect the diffs
with the oldest in front. -/
def collectDiffs (mgr : CDeterministicMNManager) :
    ℕ → Uint256 → List CDeterministicMNListDiff →
    Checked (CDeterministicMNList×List CDeterministicMNListDiff)
  | 0,_,_ => .error (.assertion .diffLoop)
  | fuel+1,blockHashTmp,listDiff =>
    match mgr.mnListsCache.find blockHashTmp with
    | some list => .ok (list,listDiff)
    | none =>
      match mgr.evoDb.listSnapshots.find blockHashTmp with
      | some snapshot => .ok (snapshot,listDiff)
      | none =>
        match mgr.evoDb.listDiffs.find blockHashTmp with
        | none => .ok ({ blockHash := blockHashTmp },listDiff)
        | some diff => mgr.collectDiffs fuel diff.prevBlockHash (diff::listDiff)

section Lists

variable (serializeHash : UniqueProperty → Uint256)

variable (mgr : CDeterministicMNManager)

/-- List of a block from the cache or the database. -/
def readListForBlock (blockHash : Uint256) : Checked CDeterministicMNList :=
  match mgr.mnListsCache.find blockHash with
  | some list => .ok list
  | none => do
    let found ← mgr.collectDiffs (mgr.evoDb.listDiffs.size+1) blockHash []
    found.2.foldlM (applyListDiff serializeHash) found.1

def getListForBlock (blockHash : Uint256) :
    Checked (CDeterministicMNList×CDeterministicMNManager) := do
  let list ← mgr.readListForBlock serializeHash blockHash
  .ok (list,{ mgr with mnListsCache := mgr.mnListsCache.emplace blockHash list })

/-- Ask for the lists of several blocks. -/
def loadLists (blockHashes : List Uint256) : Checked CDeterministicMNManager :=
  blockHashes.foldlM (fun mgr blockHash => do
    let found ← mgr.getListForBlock serializeHash blockHash
    .ok found.2) mgr

/-- What the manager would answer for each block. -/
def answers (blockHash : Uint256) : CDeterministicMNList :=
  match mgr.readListForBlock serializeHash blockHash with
  | .ok list => list
  | .error _ => { blockHash := blockHash }

end Lists

/-- Forget cached lists that are too old. -/
def cleanupCache (mgr : CDeterministicMNManager) (nHeight : ℤ) : CDeterministicMNManager :=
  { mgr with
    mnListsCache := mgr.mnListsCache.filter (fun entry =>
      !decide (entry.2.nHeight+listsCacheSize<nHeight)) }

/-- Forget everything about a disconnected block. -/
def undoBlock (mgr : CDeterministicMNManager) (block : CBlock) : CDeterministicMNManager where
  evoDb := ⟨mgr.evoDb.listDiffs.erase block.hash,mgr.evoDb.listSnapshots.erase block.hash⟩
  mnListsCache := mgr.mnListsCache.erase block.hash

/-- Store the list of a connected block as a diff, and now and then in full. -/
def storeList (mgr : CDeterministicMNManager) (nHeight : ℕ)
    (oldList newList : CDeterministicMNList) : CDeterministicMNManager :=
  let diff := oldList.buildDiff newList
  { mgr with
    evoDb :=
      { listDiffs := mgr.evoDb.listDiffs.set diff.blockHash diff
        listSnapshots :=
          if nHeight%snapshotListPeriod=0 || oldList.nHeight=-1 then
            mgr.evoDb.listSnapshots.set diff.blockHash newList
          else mgr.evoDb.listSnapshots } }

end CDeterministicMNManager

open CDeterministicMNManager

/-- What a node knows besides the lists when it connects a block. -/
structure NodeState where
  ctx : NodeContext
  pcoinsTip : CoinsView := .empty
  mempool : Uint256 → Option CTransaction := fun _ => none

variable (node : NodeState)

/-- The node at the end of a chain, with the answers of the manager. -/
def NodeState.view (chain : List CBlock) (mgr : CDeterministicMNManager) : ChainView where
  chain := chain
  pcoinsTip := node.pcoinsTip
  mempool := node.mempool
  getListForBlock := mgr.answers node.ctx.serializeHash

/-- Blocks whose lists the checks and the building of a list ask for. -/
def neededLists (chain : List CBlock) (block : CBlock) : List Uint256 :=
  tipHash chain::(listTxs block).flatMap quorumHashes

/-- Build and store the list of the block after a chain. -/
def processBlock (chain : List CBlock) (mgr : CDeterministicMNManager)
    (block : CBlock) : Checked CDeterministicMNManager :=
  if !node.ctx.dip3Active chain then .ok mgr
  else do
    let nHeight := chain.length
    let mgr ← mgr.loadLists node.ctx.serializeHash (neededLists chain block)
    let newList ← buildNewListFromBlock node.ctx (node.view chain mgr) block
    let newList := if newList.nHeight=-1 then { newList with nHeight := nHeight } else newList
    let newList := { newList with blockHash := block.hash }
    let found ← mgr.getListForBlock node.ctx.serializeHash (tipHash chain)
    .ok ((found.2.storeList nHeight found.1 newList).cleanupCache nHeight)

def processSpecialTxsInBlock (chain : List CBlock)
    (mgr : CDeterministicMNManager) (block : CBlock) : Checked CDeterministicMNManager := do
  let mgr ← if node.ctx.dip3Active chain then
      mgr.loadLists node.ctx.serializeHash (neededLists chain block)
    else .ok mgr
  block.vtx.forM (checkSpecialTx node.ctx (node.view chain mgr))
  processBlock node chain mgr block

/-- Hashes name blocks with everything before them, and transactions. -/
structure BlockTree where
  chainOf : Uint256 → List CBlock
  root : chainOf 0=[]
  tip : ∀ blockHash chain block, chainOf blockHash=chain++[block] →
    block.hash=blockHash ∧ chainOf (tipHash chain)=chain
  nodup : ∀ blockHash, (listTxHashes (chainOf blockHash)).Nodup
  hashes : ∀ blockHash, 0∉listTxHashes (chainOf blockHash)

/-- Lists that building along a chain gives, each with its block set. Before
the deployment is active a list is empty and has no height. -/
inductive FoldedList (ctx : NodeContext) : List CBlock → CDeterministicMNList → Prop where
  | start : FoldedList ctx [] {}
  | inactive {chain : List CBlock} (block : CBlock) :
      ctx.dip3Active chain=false →
      FoldedList ctx (chain++[block]) { blockHash := block.hash }
  /-- A checked block on top of the lists of its chain. -/
  | build {rules : NodeContext} {view : ChainView} {block : CBlock} {list : CDeterministicMNList} :
      SameRules ctx rules → ctx.dip3Active view.chain=true →
      (∀ before, before<+:view.chain →
        FoldedList ctx before (view.getListForBlock (tipHash before))) →
      (∀ tx∈block.vtx, checkSpecialTx rules view tx=.ok ()) →
      buildNewListFromBlock rules view block=.ok list → FoldedList ctx (view.chain++[block])
        { list with blockHash := block.hash, nHeight := view.nHeight+1 }

/-- A node while it connects and disconnects blocks. -/
structure RunState where
  chain : List CBlock
  mgr : CDeterministicMNManager := {}
  /-- What a rollback restores, inside a transaction. -/
  saved : Option (List CBlock×CEvoDB) := none

/-- What a node can do. -/
inductive Step where
  | query (blockHash : Uint256)
  | begin
  | process (node : NodeState) (block : CBlock)
  | undo
  | commit
  | rollback
  | cleanup (nHeight : ℤ)

/-- One step. A block that is rejected leaves no trace but queries. -/
inductive Transition (ctx : NodeContext) (tree : BlockTree) :
    RunState → Step → RunState → Prop where
  | query {st : RunState} {blockHash : Uint256} {list : CDeterministicMNList}
      {mgr : CDeterministicMNManager} :
      st.mgr.getListForBlock ctx.serializeHash blockHash=.ok (list,mgr) →
      Transition ctx tree st (.query blockHash) { st with mgr := mgr }
  | begin {st : RunState} :
      st.saved=none → Transition ctx tree st .begin
        { st with saved := some (st.chain,st.mgr.evoDb) }
  | process {st : RunState} {node : NodeState} {block : CBlock}
      {mgr : CDeterministicMNManager} :
      st.saved.isSome=true → SameRules ctx node.ctx →
      tree.chainOf block.hash=st.chain++[block] →
      processSpecialTxsInBlock node st.chain st.mgr block=.ok mgr →
      Transition ctx tree st (.process node block)
        { st with chain := st.chain++[block], mgr := mgr }
  | undo {st : RunState} {chain : List CBlock} {block : CBlock} :
      st.saved.isSome=true → st.chain=chain++[block] → Transition ctx tree st .undo
        { st with chain := chain, mgr := st.mgr.undoBlock block }
  | commit {st : RunState} :
      st.saved.isSome=true → Transition ctx tree st .commit { st with saved := none }
  | rollback {st : RunState} {chain : List CBlock} {evoDb : CEvoDB} :
      st.saved=some (chain,evoDb) → Transition ctx tree st .rollback
        { chain := chain, mgr := { st.mgr with evoDb := evoDb } }
  | cleanup {st : RunState} (nHeight : ℤ) :
      Transition ctx tree st (.cleanup nHeight)
        { st with mgr := st.mgr.cleanupCache nHeight }

/-- States reached from before the deployment by steps that meet a condition. -/
inductive Run (ctx : NodeContext) (tree : BlockTree) (allowed : RunState → Step → Prop) :
    RunState → Prop where
  | start {chain : List CBlock} :
      tree.chainOf (tipHash chain)=chain →
      (∀ before block, before++[block]<+:chain → ctx.dip3Active before=false) →
      Run ctx tree allowed { chain := chain }
  | step {st next : RunState} {action : Step} :
      Run ctx tree allowed st → allowed st action →
      Transition ctx tree st action next → Run ctx tree allowed next

/-- The cache holds the answer for an unknown block. -/
def AnsweredUnknown (mgr : CDeterministicMNManager) (blockHash : Uint256) : Prop :=
  ∃ list, mgr.mnListsCache.find blockHash=some list ∧ list.nHeight=-1

/-- Every connected block with a list is not cached as unknown. -/
def NoneUnknown (ctx : NodeContext) (chain : List CBlock)
    (mgr : CDeterministicMNManager) : Prop :=
  ∀ before block, before++[block]<+:chain → ctx.dip3Active before=true →
    ¬AnsweredUnknown mgr block.hash

/-- Steps after which no connected block is cached as unknown: connected blocks are not cached so or
high enough for the cleanup, and a rollback brings back no such block. -/
def KeepsAnswers (ctx : NodeContext) (st : RunState) : Step → Prop
  | .process _ block => ctx.dip3Active st.chain=true →
      listsCacheSize ≤ st.chain.length ∨ ¬AnsweredUnknown st.mgr block.hash
  | .rollback => ∀ chain evoDb, st.saved=some (chain,evoDb) →
      NoneUnknown ctx chain st.mgr
  | _ => True

end Pyrk.ListManager
