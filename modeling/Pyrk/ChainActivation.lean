import Pyrk.BlockTree

/-!
# Choosing and changing the active chain

The candidate with the most work becomes the tip step by step. What connecting and disconnecting
come to is a list of outcomes; when it has run out, the node stops.
-/

namespace Pyrk.ChainActivation

open BlockTree

/-- What connecting or disconnecting a block comes to. -/
inductive Outcome where
  | ok
  | invalid
  /-- The block breaks a rule, and perhaps only its copy is damaged. -/
  | corrupted
  | systemError
  deriving DecidableEq

/-- State of the chain and outcomes to come. -/
structure Progress where
  st : ChainState
  outcomes : List Outcome

variable (progress : Progress)

/-- Next outcome; a node that stops reports a system error. -/
def Progress.next : Outcome×Progress :=
  match progress.outcomes with
  | [] => (.systemError,progress)
  | outcome::outcomes => (outcome,{ progress with outcomes := outcomes })

/-- The same outcomes with another state. -/
def Progress.withState (st : ChainState) : Progress :=
  { progress with st := st }

def disconnectTip : Bool×Progress :=
  match progress.next with
  | (.ok,progress) => (true,progress.withState
      { progress.st with chainActive := progress.st.chainActive.tail })
  | (_,progress) => (false,progress)

/-- Remember a block that was connected. -/
def connectedStatus (nStatus : BlockStatus) : BlockStatus :=
  { nStatus with haveUndo := true }.raiseValidity .scripts

variable (st : ChainState)

/-- Make a block the tip; the first block has nothing to check. -/
def connectBlock (pindexNew : CBlockIndex) : ChainState :=
  let st := if pindexNew.pprev=[] then st else st.setStatus pindexNew.hash connectedStatus
  { st with chainActive := pindexNew.branch }

def connectTip (pindexNew : CBlockIndex) : Outcome×Progress :=
  match progress.next with
  | (.ok,progress) => (.ok,progress.withState (connectBlock progress.st pindexNew))
  | (.invalid,progress) => (.invalid,progress.withState
      ((progress.st.markFailedValid pindexNew.hash).eraseCandidate pindexNew.hash))
  | (outcome,progress) => (outcome,progress)

/-- Drop candidates that are worse than the tip. -/
def pruneBlockIndexCandidates : ChainState :=
  { st with
    setBlockIndexCandidates := st.setBlockIndexCandidates.filter (fun hash =>
      match st.find hash with
      | none => true
      | some pindex => !st.worseThanTip pindex) }

/-- One step of the search for the best candidate. -/
def betterCandidate (best : Option CBlockIndex) (pindex : CBlockIndex) : Option CBlockIndex :=
  match best with
  | none => some pindex
  | some other => if other.worse pindex then some pindex else best

def bestCandidate : Option CBlockIndex :=
  (st.setBlockIndexCandidates.filterMap st.find).foldl betterCandidate none

/-- A block failed, or its data is missing. -/
def unusable (hash : ℕ) : Bool :=
  match st.find hash with
  | none => false
  | some pindex => pindex.nStatus.failed || !pindex.nStatus.haveData

/-- A block failed. -/
def failedChain (hash : ℕ) : Bool :=
  match st.find hash with
  | none => false
  | some pindex => pindex.nStatus.failed

/-- Drop a candidate after a block that cannot be used. -/
def dropCandidate (fFailedChain : Bool) (st : ChainState) (hash : ℕ) : ChainState :=
  let st :=
    if fFailedChain then st.markFailedChild hash
    else match (st.find hash).bind (fun pindex => pindex.pprev.head?) with
      | none => st
      | some hashPrev =>
        { st with mapBlocksUnlinked := st.mapBlocksUnlinked++[(hashPrev,hash)] }
  st.eraseCandidate hash

/-- Blocks of a candidate that are not in the active chain. -/
def pathTo (pindexNew : CBlockIndex) : List ℕ :=
  pindexNew.branch.takeWhile (fun hash => hash∉st.chainActive)

/-- Best block that is not known to be invalid; each round drops a candidate. -/
def findMostWorkChain : ℕ → ChainState → Option CBlockIndex×ChainState
  | 0,st => (none,st)
  | rounds+1,st =>
    match bestCandidate st with
    | none => (none,st)
    | some pindexNew =>
      let path := pathTo st pindexNew
      match path.find? (unusable st) with
      | none => (some pindexNew,st)
      | some hashTest =>
        let dropped := (path.takeWhile (fun hash => hash≠hashTest)).foldl
          (dropCandidate (failedChain st hashTest)) st
        findMostWorkChain rounds (dropped.eraseCandidate hashTest)

/-- Disconnect blocks down to a fork. -/
def disconnectTo (pindexFork : Option ℕ) : ℕ → Progress → Bool×Progress
  | 0,progress => (true,progress)
  | blocks+1,progress =>
    if progress.st.chainActive.head?=none ∨ progress.st.chainActive.head?=pindexFork then
      (true,progress)
    else
      match disconnectTip progress with
      | (true,progress) => disconnectTo pindexFork blocks progress
      | (false,progress) => (false,progress)

/-- What a step towards the best chain comes to. -/
inductive StepResult where
  | advanced
  | invalidFound
  | failed
  deriving DecidableEq

/-- Connect blocks until the tip has more work than before. -/
def connectBlocks (nOldWork : Option ℕ) : List ℕ → Progress → StepResult×Progress
  | [],progress => (.advanced,progress)
  | hash::vpindexToConnect,progress =>
    match progress.st.find hash with
    | none => (.failed,progress)
    | some pindexConnect =>
      match connectTip progress pindexConnect with
      | (.ok,progress) =>
        let progress := progress.withState (pruneBlockIndexCandidates progress.st)
        let better :=
          match nOldWork with
          | none => true
          | some nWork => decide (nWork<pindexConnect.nChainWork)
        if better then (.advanced,progress)
        else connectBlocks nOldWork vpindexToConnect progress
      | (.invalid,progress) => (.invalidFound,progress)
      | (.corrupted,progress) => (.invalidFound,progress)
      | (.systemError,progress) => (.failed,progress)

def activateBestChainStep (pindexMostWork : CBlockIndex) : StepResult×Progress :=
  let nOldWork := progress.st.tip.map CBlockIndex.nChainWork
  let pindexFork := pindexMostWork.branch.find? (fun hash => hash∈progress.st.chainActive)
  match disconnectTo pindexFork progress.st.chainActive.length progress with
  | (false,progress) => (.failed,progress)
  | (true,progress) => connectBlocks nOldWork
      (pindexMostWork.branch.takeWhile (fun hash => some hash≠pindexFork)).reverse progress

inductive ActivateResult where
  | done
  | shutdown
  | failed
  deriving DecidableEq

/-- The target that is kept, or a new one. -/
def mostWork (pindexMostWork : Option CBlockIndex) (st : ChainState) :
    Option CBlockIndex×ChainState :=
  match pindexMostWork with
  | some pindex => (some pindex,st)
  | none => findMostWorkChain (st.setBlockIndexCandidates.length+1) st

/-- Steps towards the best chain; each one uses an outcome. -/
def activateSteps : ℕ → Option CBlockIndex → Progress → ActivateResult×Progress
  | 0,_,progress => (.shutdown,progress)
  | rounds+1,pindexMostWork,progress =>
    let found := mostWork pindexMostWork progress.st
    let progress := progress.withState found.2
    match found.1 with
    | none => (.done,progress)
    | some pindexMostWork =>
      if progress.st.chainActive.head?=some pindexMostWork.hash then (.done,progress)
      else
        match activateBestChainStep progress pindexMostWork with
        | (.failed,progress) => (.failed,progress)
        | (.invalidFound,progress) =>
          if progress.st.chainActive=[] then (.done,progress)
          else activateSteps rounds none progress
        | (.advanced,progress) =>
          if progress.st.chainActive.head?=some pindexMostWork.hash then (.done,progress)
          else activateSteps rounds (some pindexMostWork) progress

def activateBestChain : ActivateResult×Progress :=
  activateSteps (progress.outcomes.length+1) none progress

/-- Disconnect blocks as long as one is in the active chain, and mark them. -/
def disconnectFailed (hash : ℕ) : ℕ → Progress → Bool×Progress
  | 0,progress => (true,progress)
  | blocks+1,progress =>
    match progress.st.chainActive with
    | [] => (true,progress)
    | hashWalk::_ =>
      if hash∉progress.st.chainActive then (true,progress)
      else
        let marked := (progress.st.markFailedChild hashWalk).eraseCandidate hashWalk
        match disconnectTip (progress.withState marked) with
        | (true,progress) => disconnectFailed hash blocks progress
        | (false,progress) => (false,progress)

/-- Make a block a candidate again where it is valid and not worse than the tip. -/
def restoreCandidate (pindex : CBlockIndex) : ChainState :=
  if pindex.nStatus.isValid .transactions && pindex.nChainTx≠0 && !st.worseThanTip pindex then
    st.insertCandidate pindex.hash
  else st

def invalidateBlock (hash : ℕ) : Bool×Progress :=
  let marked := (progress.st.markFailedValid hash).eraseCandidate hash
  match disconnectFailed hash marked.chainActive.length (progress.withState marked) with
  | (false,progress) => (false,progress)
  | (true,progress) =>
    if progress.st.chainActive=[] then (false,progress)
    else (true,progress.withState
      (progress.st.mapBlockIndex.values.foldl restoreCandidate progress.st))

/-- Clear the flags of a block that descends from the reconsidered one. -/
def resetDescendant (pindex : CBlockIndex) (st : ChainState) (hash : ℕ) : ChainState :=
  match st.find hash with
  | none => st
  | some entry =>
    if !entry.nStatus.isValid .transactions &&
        entry.getAncestor pindex.nHeight=some pindex.hash then
      let st := st.clearFailed hash
      match st.find hash,st.tip with
      | some cleared,some pindexTip =>
        if cleared.nStatus.isValid .transactions && cleared.nChainTx≠0 && pindexTip.worse cleared
        then st.insertCandidate hash
        else st
      | _,_ => st
    else st

/-- Reconsider a block: clear the flags of its descendants and of the blocks
before it. -/
def resetBlockFailureFlags (hash : ℕ) : ChainState :=
  match st.find hash with
  | none => st
  | some pindex =>
    let st := (st.mapBlockIndex.entries.map Prod.fst).foldl (resetDescendant pindex) st
    pindex.branch.foldl ChainState.clearFailed st

/-- Prefer a block to others with the same work, before the best chain is made
active. -/
def preferBlock (hash : ℕ) : Option ChainState :=
  match st.find hash,st.tip with
  | some pindex,some pindexTip =>
    if pindex.nChainWork<pindexTip.nChainWork then none
    else
      let nReverse :=
        if st.nLastPreciousChainwork<pindexTip.nChainWork then -1
        else st.nBlockReverseSequenceId
      let st := st.eraseCandidate hash
      let st := st.modify hash (fun pindex => { pindex with nSequenceId := nReverse })
      let st := { st with
        nLastPreciousChainwork := pindexTip.nChainWork
        nBlockReverseSequenceId := if -2^31<nReverse then nReverse-1 else nReverse }
      if pindex.nStatus.isValid .transactions && pindex.nChainTx≠0 then
        some (pruneBlockIndexCandidates (st.insertCandidate hash))
      else some st
  | _,_ => none

def preciousBlock (hash : ℕ) : ActivateResult×Progress :=
  match preferBlock progress.st hash with
  | none => (.done,progress)
  | some st => activateBestChain (progress.withState st)

/-- A call that changes the state of the chain. -/
inductive ChainCall where
  | acceptBlockHeader (block : HeaderArrival)
  | acceptBlock (block : BlockArrival)
  | activateBestChain (outcomes : List Outcome)
  | invalidateBlock (hash : ℕ) (outcomes : List Outcome)
  | resetBlockFailureFlags (hash : ℕ)
  | preciousBlock (hash : ℕ) (outcomes : List Outcome)

/-- State after a call. -/
def perform (hashGenesis : ℕ) (st : ChainState) : ChainCall → ChainState
  | .acceptBlockHeader block =>
    match BlockTree.acceptBlockHeader hashGenesis st block with
    | .error _ => st
    | .ok (st,_) => st
  | .acceptBlock block => (BlockTree.acceptBlock hashGenesis st block).2
  | .activateBestChain outcomes => (ChainActivation.activateBestChain ⟨st,outcomes⟩).2.st
  | .invalidateBlock hash outcomes =>
    (ChainActivation.invalidateBlock ⟨st,outcomes⟩ hash).2.st
  | .resetBlockFailureFlags hash => ChainActivation.resetBlockFailureFlags st hash
  | .preciousBlock hash outcomes => (ChainActivation.preciousBlock ⟨st,outcomes⟩ hash).2.st

def runCalls (hashGenesis : ℕ) (st : ChainState) (calls : List ChainCall) : ChainState :=
  calls.foldl (perform hashGenesis) st

end Pyrk.ChainActivation
