import Pyrk.BlockHeaders

/-!
# The tree of blocks and the state of the chain

Headers enter the tree of blocks first and transactions later, in any order. What their checks say
is given with them.
-/

namespace Pyrk.BlockTree

open BlockHeaders

/-- Stages of the validation of a block. -/
inductive Validity where
  | unknown
  | header
  | tree
  | transactions
  | chain
  | scripts
  deriving DecidableEq

/-- Stages in order. -/
def Validity.level : Validity → ℕ
  | .unknown => 0
  | .header => 1
  | .tree => 2
  | .transactions => 3
  | .chain => 4
  | .scripts => 5

structure BlockStatus where
  validity : Validity := .unknown
  haveData : Bool := false
  haveUndo : Bool := false
  failedValid : Bool := false
  failedChild : Bool := false
  deriving DecidableEq

namespace BlockStatus

variable (nStatus : BlockStatus)

/-- One of the failure flags is set. -/
def failed : Bool := nStatus.failedValid || nStatus.failedChild

def isValid (nUpTo : Validity) : Bool :=
  !nStatus.failed && nUpTo.level≤nStatus.validity.level

/-- Raise the stage of a block that has not failed. -/
def raiseValidity (nUpTo : Validity) : BlockStatus :=
  if nStatus.failed then nStatus
  else if nStatus.validity.level<nUpTo.level then { nStatus with validity := nUpTo }
  else nStatus

end BlockStatus

structure CBlockIndex where
  hash : ℕ
  /-- Hashes of the blocks before it, the last one first. -/
  pprev : List ℕ
  nChainWork : ℕ
  address : ℕ
  nTx : ℕ := 0
  /-- Number of transactions up to the block, once all of them are known. -/
  nChainTx : ℕ := 0
  nStatus : BlockStatus := {}
  nSequenceId : ℤ := 0
  deriving DecidableEq

namespace CBlockIndex

variable (pindex : CBlockIndex)

def nHeight : ℕ := pindex.pprev.length

/-- A block and the blocks before it. -/
def branch : List ℕ := pindex.hash::pindex.pprev

/-- Block of a branch at a height. -/
def getAncestor (height : ℕ) : Option ℕ := pindex.branch.reverse[height]?

/-- Less work, or received later. -/
def worse (pa pb : CBlockIndex) : Bool :=
  if pb.nChainWork<pa.nChainWork then false
  else if pa.nChainWork<pb.nChainWork then true
  else if pa.nSequenceId<pb.nSequenceId then false
  else if pb.nSequenceId<pa.nSequenceId then true
  else pb.address<pa.address

end CBlockIndex

structure ChainState where
  mapBlockIndex : OrderedMap ℕ CBlockIndex
  chainActive : List ℕ
  setBlockIndexCandidates : List ℕ
  /-- Blocks with transactions after a block without, by the block before. -/
  mapBlocksUnlinked : List (ℕ×ℕ)
  nBlockSequenceId : ℤ := 1
  nBlockReverseSequenceId : ℤ := -1
  /-- Work of the tip when a block was last preferred. -/
  nLastPreciousChainwork : ℕ := 0

namespace ChainState

variable (st : ChainState)

variable (hash : ℕ)

/-- Block with a hash. -/
def find : Option CBlockIndex := st.mapBlockIndex.find hash

/-- Last block of the active chain. -/
def tip : Option CBlockIndex := st.chainActive.head?.bind st.find

/-- Change a block. -/
def modify (change : CBlockIndex → CBlockIndex) : ChainState :=
  match st.find hash with
  | none => st
  | some pindex => { st with mapBlockIndex := st.mapBlockIndex.set hash (change pindex) }

/-- Change the status of a block. -/
def setStatus (change : BlockStatus → BlockStatus) : ChainState :=
  st.modify hash (fun pindex => { pindex with nStatus := change pindex.nStatus })

def markFailedValid : ChainState :=
  st.setStatus hash (fun nStatus => { nStatus with failedValid := true })

def markFailedChild : ChainState :=
  st.setStatus hash (fun nStatus => { nStatus with failedChild := true })

/-- Clear the failure flags of a block. -/
def clearFailed : ChainState :=
  st.setStatus hash (fun nStatus => { nStatus with failedValid := false, failedChild := false })

def insertCandidate : ChainState :=
  { st with setBlockIndexCandidates := st.setBlockIndexCandidates.insert hash }

def eraseCandidate : ChainState :=
  { st with
    setBlockIndexCandidates := st.setBlockIndexCandidates.filter (fun other => other≠hash) }

def worseThanTip (pindex : CBlockIndex) : Bool :=
  match st.tip with
  | none => false
  | some pindexTip => pindex.worse pindexTip

end ChainState

/-- A header with what its checks say. -/
structure HeaderArrival where
  hash : ℕ
  hashPrevBlock : ℕ
  nBlockProof : ℕ
  address : ℕ
  checkBlockHeader : Except HeaderReject Unit
  /-- Checks of the header after the block before, with the checkpoints. -/
  contextualCheckBlockHeader : Except HeaderReject Unit

/-- What checking and storing a block comes to. -/
inductive BlockCheck where
  | stored
  | invalid
  | corrupted
  | systemError
  deriving DecidableEq

/-- A block with what its checks say. -/
structure BlockArrival where
  header : HeaderArrival
  nTx : ℕ
  fRequested : Bool
  check : BlockCheck

/-- Blocks may not be further ahead of the tip, unless they were asked for. -/
def minBlocksToKeep : ℕ := 288

variable (hashGenesis : ℕ)

/-- Add a header to the tree. -/
def addToBlockIndex (st : ChainState) (block : HeaderArrival) : ChainState×CBlockIndex :=
  match st.find block.hash with
  | some pindex => (st,pindex)
  | none =>
    let nStatus := BlockStatus.raiseValidity {} .tree
    let pindexNew : CBlockIndex :=
      match st.find block.hashPrevBlock with
      | none => { hash := block.hash,pprev := [],nChainWork := block.nBlockProof%2^256
                  address := block.address,nStatus := nStatus }
      | some pindexPrev =>
        { hash := block.hash,pprev := pindexPrev.branch
          nChainWork := (pindexPrev.nChainWork+block.nBlockProof)%2^256
          address := block.address,nStatus := nStatus }
    ({ st with mapBlockIndex := st.mapBlockIndex.set block.hash pindexNew },pindexNew)

def acceptBlockHeader (st : ChainState) (block : HeaderArrival) :
    Except HeaderReject (ChainState×CBlockIndex) :=
  if block.hash=hashGenesis then .ok (addToBlockIndex st block)
  else match st.find block.hash with
    | some pindex => if pindex.nStatus.failed then .error .duplicate else .ok (st,pindex)
    | none => do
      block.checkBlockHeader
      match st.find block.hashPrevBlock with
      | none => .error .prevNotFound
      | some pindexPrev =>
        if pindexPrev.nStatus.failed then .error .prevInvalid
        else do
          block.contextualCheckBlockHeader
          .ok (addToBlockIndex st block)

/-- Number a block whose transactions are complete, and make it a candidate. -/
def linkBlock (st : ChainState) (hash : ℕ) : ChainState :=
  match st.find hash with
  | none => st
  | some pindex =>
    let nChainTxPrev :=
      match pindex.pprev.head?.bind st.find with
      | none => 0
      | some pindexPrev => pindexPrev.nChainTx
    let pindex :=
      { pindex with
        nChainTx := nChainTxPrev+pindex.nTx
        nSequenceId := st.nBlockSequenceId }
    let st :=
      { st with
        mapBlockIndex := st.mapBlockIndex.set hash pindex
        nBlockSequenceId := st.nBlockSequenceId+1 }
    if st.worseThanTip pindex then st else st.insertCandidate hash

/-- Link blocks and those that waited for them. -/
def linkBlocks : ℕ → ChainState → List ℕ → ChainState
  | 0,st,_ => st
  | _,st,[] => st
  | rounds+1,st,hash::queue =>
    let st := linkBlock st hash
    let waiting := (st.mapBlocksUnlinked.filter (fun entry => entry.1=hash)).map Prod.snd
    let st :=
      { st with
        mapBlocksUnlinked := st.mapBlocksUnlinked.filter (fun entry => entry.1≠hash) }
    linkBlocks rounds st (queue++waiting)

def receivedBlockTransactions (st : ChainState) (hash nTx : ℕ) : ChainState :=
  let st := st.modify hash (fun pindex =>
    { pindex with
      nTx := nTx
      nChainTx := 0
      nStatus := { pindex.nStatus with haveData := true }.raiseValidity .transactions })
  match st.find hash with
  | none => st
  | some pindexNew =>
    match pindexNew.pprev.head? with
    | none => linkBlocks (st.mapBlocksUnlinked.length+1) st [hash]
    | some hashPrev =>
      match st.find hashPrev with
      | none => st
      | some pindexPrev =>
        if pindexPrev.nChainTx≠0 then
          linkBlocks (st.mapBlocksUnlinked.length+1) st [hash]
        else if pindexPrev.nStatus.isValid .tree then
          { st with mapBlocksUnlinked := st.mapBlocksUnlinked++[(hashPrev,hash)] }
        else st

def acceptBlock (st : ChainState) (block : BlockArrival) : Bool×ChainState :=
  match acceptBlockHeader hashGenesis st block.header with
  | .error _ => (false,st)
  | .ok (st,pindex) =>
    let fHasMoreWork :=
      match st.tip with
      | none => true
      | some pindexTip => decide (pindexTip.nChainWork<pindex.nChainWork)
    let fTooFarAhead := st.chainActive.length+minBlocksToKeep≤pindex.nHeight
    if pindex.nStatus.haveData then (true,st)
    else if !block.fRequested && (pindex.nTx≠0 || !fHasMoreWork || fTooFarAhead) then (true,st)
    else
      match block.check with
      | .stored => (true,receivedBlockTransactions st pindex.hash block.nTx)
      | .invalid => (false,st.markFailedValid pindex.hash)
      | .corrupted => (false,st)
      | .systemError => (false,st)

end Pyrk.BlockTree
