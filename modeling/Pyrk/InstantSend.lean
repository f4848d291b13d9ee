import Pyrk.Coins
import Pyrk.OrderedSet

/-!
# InstantSend

A transaction is locked when masternodes have voted for each of its inputs. Votes may come before
the request, which then starts with them.
-/

namespace Pyrk.InstantSend

open Transaction DeterministicMNList

structure CTxLockVote where
  txHash : Uint256
  outpoint : COutPoint
  outpointMasternode : COutPoint
  quorumModifierHash : Uint256 := 0
  masternodeProTxHash : Uint256 := 0
  /-- Height of the transaction, or the default while it has none. -/
  nConfirmedHeight : ℤ := -1
  nTimeCreated : ℤ := 0
  deriving DecidableEq

/-- Votes for one input. -/
structure COutPointLock where
  mapMasternodeVotes : OrderedMap COutPoint CTxLockVote := .empty
  fAttacked : Bool := false
  deriving DecidableEq

/-- Votes that an input needs. -/
def signaturesRequired : ℕ := 6

/-- Masternodes that may vote for an input. -/
def signaturesTotal : ℤ := 10

/-- Seconds for votes after the first one. -/
def lockTimeoutSeconds : ℤ := 15

/-- Seconds that votes of failed locks are kept. -/
def failedTimeoutSeconds : ℤ := 60

namespace COutPointLock

variable (lock : COutPointLock)

def addVote (vote : CTxLockVote) : COutPointLock×Bool :=
  ({ lock with
    mapMasternodeVotes := lock.mapMasternodeVotes.emplace vote.outpointMasternode vote },
    !lock.mapMasternodeVotes.contains vote.outpointMasternode)

def hasMasternodeVoted (outpointMasternode : COutPoint) : Bool :=
  lock.mapMasternodeVotes.contains outpointMasternode

def countVotes : ℕ :=
  if lock.fAttacked then 0 else lock.mapMasternodeVotes.size

/-- Enough votes without an attack. -/
def isReady : Bool := !lock.fAttacked && signaturesRequired≤lock.countVotes

def markAsAttacked : COutPointLock := { lock with fAttacked := true }

end COutPointLock

/-- A transaction that may be locked. -/
structure CTxLockCandidate where
  /-- Height of the transaction, or the default while it has none. -/
  nConfirmedHeight : ℤ := -1
  nTimeCreated : ℤ
  txLockRequest : Option CTransaction := none
  mapOutPointLocks : OrderedMap COutPoint COutPointLock := .empty
  deriving DecidableEq

/-- What a node knows and does not change. -/
structure InstantContext where
  /-- Hash of a vote, without what is only kept in memory. -/
  serializeHash : Uint256×COutPoint×COutPoint×Uint256×Uint256 → Uint256
  emptyRequestHash : Uint256
  nInstantSendKeepLock : ℤ
  nInstantSendConfirmationsRequired : ℤ
  masternodeOutpoint : COutPoint
  masternodeProTxHash : Uint256

/-- What other parts of the node say during a call. -/
structure InstantEnv where
  nTime : ℤ
  fMasternodeMode : Bool := false
  fEnableInstantSend : Bool := true
  fLargeWorkForkFound : Bool := false
  fLargeWorkInvalidChainFound : Bool := false
  fInstantSendActive : Bool := true
  fBlockFilteringActive : Bool := true
  fDeterministicMNsActive : Bool := false
  fMasternodeListSynced : Bool := true
  fCanAutoLock : Bool := false
  nMaxValue : ℤ := 1000
  nChainHeight : ℤ := 0
  getUTXOCoin : COutPoint → Option Coin
  /-- Rank of a masternode for a height, with the quorum. -/
  getMasternodeRank : COutPoint → ℤ → Option (ℤ×Uint256)
  hasMasternode : COutPoint → Bool := fun _ => true
  masternodeOfProTx : Uint256 → Option COutPoint := fun _ => none
  mapNextTx : COutPoint → Option Uint256
  isInBlock : Uint256 → Bool := fun _ => false
  isFinalTx : CTransaction → Bool := fun _ => true
  checkSignature : CTxLockVote → Bool := fun _ => true
  canSign : CTxLockVote → Bool := fun _ => true

def CTxLockVote.getHash (ctx : InstantContext) (vote : CTxLockVote) : Uint256 :=
  ctx.serializeHash (vote.txHash,vote.outpoint,vote.outpointMasternode,
    vote.quorumModifierHash,vote.masternodeProTxHash)

/-- Whether a vote is old enough to forget after its transaction. -/
def CTxLockVote.isExpired (ctx : InstantContext) (vote : CTxLockVote) (nHeight : ℤ) : Bool :=
  vote.nConfirmedHeight≠-1 && ctx.nInstantSendKeepLock<nHeight-vote.nConfirmedHeight

/-- Whether a vote came too early for its request. -/
def CTxLockVote.isTimedOut (env : InstantEnv) (vote : CTxLockVote) : Bool :=
  lockTimeoutSeconds<env.nTime-vote.nTimeCreated

/-- Whether a masternode may vote as it did. -/
def CTxLockVote.isValid (ctx : InstantContext) (env : InstantEnv) (vote : CTxLockVote) : Bool :=
  env.hasMasternode vote.outpointMasternode &&
  (if vote.masternodeProTxHash≠0 then
    env.masternodeOfProTx vote.masternodeProTxHash=some vote.outpointMasternode
  else !env.fDeterministicMNsActive) &&
  match env.getUTXOCoin vote.outpoint with
  | none => false
  | some entry =>
    match env.getMasternodeRank vote.outpointMasternode
      (entry.nHeight+ctx.nInstantSendConfirmationsRequired-2) with
    | none => false
    | some rank =>
      (if vote.quorumModifierHash≠0 then vote.quorumModifierHash=rank.2
      else !env.fDeterministicMNsActive) && rank.1 ≤ signaturesTotal && env.checkSignature vote

def getMinFee (env : InstantEnv) (tx : CTransaction) : ℤ :=
  if env.fCanAutoLock && tx.vin.length≤4 then 0 else max 10000 (tx.vin.length*10000)

/-- Sum of the coins that a request spends, if all of them are old enough. -/
def sumCoins (ctx : InstantContext) (env : InstantEnv) : ℤ → List CTxIn → Option ℤ
  | nValueIn,[] => some nValueIn
  | nValueIn,txin::tail =>
    match env.getUTXOCoin txin.prevout with
    | none => none
    | some entry =>
      if env.nChainHeight-entry.nHeight+1 < ctx.nInstantSendConfirmationsRequired-1 then none
      else sumCoins ctx env (nValueIn+entry.out.nValue) tail

/-- Whether a transaction may be locked. A sum of outputs that is out of range throws. -/
def isValidRequest (ctx : InstantContext) (env : InstantEnv) (tx : CTransaction) : Checked Bool :=
  if tx.vout.length<1 || !env.isFinalTx tx then .ok false
  else match sumCoins ctx env 0 tx.vin with
    | none => .ok false
    | some nValueIn =>
      if env.nMaxValue*coin<nValueIn then .ok false
      else match tx.getValueOut with
        | none => .error (.assertion .valueOut)
        | some nValueOut => .ok (!decide (nValueIn-nValueOut<getMinFee env tx))

namespace CTxLockCandidate

def getHash (ctx : InstantContext) (cand : CTxLockCandidate) : Uint256 :=
  (cand.txLockRequest.map CTransaction.hash).getD ctx.emptyRequestHash

/-- Inputs of the transaction. -/
def vin (cand : CTxLockCandidate) : List CTxIn :=
  (cand.txLockRequest.map CTransaction.vin).getD []

variable (cand : CTxLockCandidate)

/-- Inputs with votes, in order. -/
def outpoints : List COutPoint :=
  cand.mapOutPointLocks.entries.map Prod.fst

/-- Start to count votes for an input. -/
def addOutPointLock (outpoint : COutPoint) : CTxLockCandidate :=
  { cand with mapOutPointLocks := cand.mapOutPointLocks.emplace outpoint {} }

/-- Note an attack on an input. -/
def markOutpointAsAttacked (outpoint : COutPoint) : CTxLockCandidate :=
  match cand.mapOutPointLocks.find outpoint with
  | none => cand
  | some lock => { cand with
      mapOutPointLocks := cand.mapOutPointLocks.set outpoint lock.markAsAttacked }

def addVote (cand : CTxLockCandidate) (vote : CTxLockVote) : CTxLockCandidate×Bool :=
  match cand.mapOutPointLocks.find vote.outpoint with
  | none => (cand,false)
  | some lock => ({ cand with
      mapOutPointLocks := cand.mapOutPointLocks.set vote.outpoint (lock.addVote vote).1 },
      (lock.addVote vote).2)

/-- All inputs have enough votes. -/
def isAllOutPointsReady : Bool :=
  !cand.mapOutPointLocks.entries.isEmpty &&
    cand.mapOutPointLocks.entries.all (fun pair => pair.2.isReady)

def hasMasternodeVoted (cand : CTxLockCandidate) (outpoint outpointMasternode : COutPoint) :
    Bool :=
  ((cand.mapOutPointLocks.find outpoint).map
    (fun lock => lock.hasMasternodeVoted outpointMasternode)).getD false

/-- Whether a candidate is old enough to forget after its transaction. -/
def isExpired (ctx : InstantContext) (cand : CTxLockCandidate) (nHeight : ℤ) : Bool :=
  cand.nConfirmedHeight≠-1 && ctx.nInstantSendKeepLock<nHeight-cand.nConfirmedHeight

/-- Whether votes come too late. -/
def isTimedOut (env : InstantEnv) (cand : CTxLockCandidate) : Bool :=
  lockTimeoutSeconds<env.nTime-cand.nTimeCreated

end CTxLockCandidate

structure CInstantSend where
  nCachedBlockHeight : ℤ := 0
  mapLockRequestAccepted : OrderedSet Uint256 := .empty
  /-- Requests that the pool did not accept, or that failed. -/
  mapLockRequestRejected : OrderedSet Uint256 := .empty
  mapTxLockVotes : OrderedMap Uint256 CTxLockVote := .empty
  mapTxLockVotesOrphan : OrderedMap Uint256 CTxLockVote := .empty
  mapTxLockCandidates : OrderedMap Uint256 CTxLockCandidate := .empty
  mapVotedOutpoints : OrderedMap COutPoint (OrderedSet Uint256) := .empty
  mapLockedOutpoints : OrderedMap COutPoint Uint256 := .empty
  /-- Times of masternodes that voted without a request. -/
  mapMasternodeOrphanVotes : OrderedMap COutPoint ℤ := .empty

namespace CInstantSend

variable (ctx : InstantContext) (env : InstantEnv)

variable (st : CInstantSend)

/-- Store a candidate under a hash. -/
def setCandidate (txHash : Uint256) (cand : CTxLockCandidate) : CInstantSend :=
  { st with mapTxLockCandidates := st.mapTxLockCandidates.set txHash cand }

def changeCandidate (txHash : Uint256)
    (change : CTxLockCandidate → CTxLockCandidate) : CInstantSend :=
  match st.mapTxLockCandidates.find txHash with
  | none => st
  | some cand => st.setCandidate txHash (change cand)

/-- Note that an input was voted for. -/
def addVoted (outpoint : COutPoint) (txHash : Uint256) : CInstantSend :=
  { st with
    mapVotedOutpoints := st.mapVotedOutpoints.set outpoint
      (((st.mapVotedOutpoints.find outpoint).getD .empty).insert txHash) }

/-- Transactions that an input was voted for, in order. -/
def votedHashes (outpoint : COutPoint) : List Uint256 :=
  ((st.mapVotedOutpoints.find outpoint).getD .empty).items

def isLockedInstantSendTransaction (txHash : Uint256) : Bool :=
  env.fEnableInstantSend && !env.fLargeWorkForkFound && !env.fLargeWorkInvalidChainFound &&
  env.fBlockFilteringActive &&
  match st.mapTxLockCandidates.find txHash with
  | none => false
  | some cand => !cand.mapOutPointLocks.entries.isEmpty &&
      cand.outpoints.all (fun outpoint =>
        st.mapLockedOutpoints.find outpoint=some txHash)

/-- Forget a candidate with all locks and votes of its inputs. -/
def removeCandidate (txHash : Uint256) (cand : CTxLockCandidate) : CInstantSend :=
  { st with
    mapLockedOutpoints := cand.outpoints.foldl OrderedMap.erase st.mapLockedOutpoints
    mapVotedOutpoints := cand.outpoints.foldl OrderedMap.erase st.mapVotedOutpoints
    mapLockRequestAccepted := st.mapLockRequestAccepted.erase (cand.getHash ctx)
    mapLockRequestRejected := st.mapLockRequestRejected.erase (cand.getHash ctx)
    mapTxLockCandidates := st.mapTxLockCandidates.erase txHash }

/-- Forget expired candidates. -/
def removeExpired : CInstantSend :=
  st.mapTxLockCandidates.entries.foldl (fun st entry =>
    if entry.2.isExpired ctx st.nCachedBlockHeight then
      st.removeCandidate ctx entry.1 entry.2
    else st) st

/-- Forget votes that are expired, too early or failed. -/
def removeVotes : CInstantSend :=
  let timedOut := (st.mapTxLockVotesOrphan.entries.filter (fun entry =>
    entry.2.isTimedOut env)).map Prod.fst
  { st with
    mapTxLockVotes := (timedOut.foldl OrderedMap.erase (st.mapTxLockVotes.filter (fun entry =>
      !entry.2.isExpired ctx st.nCachedBlockHeight))).filter (fun entry =>
        !(decide (failedTimeoutSeconds<env.nTime-entry.2.nTimeCreated) &&
          !st.isLockedInstantSendTransaction env entry.2.txHash))
    mapTxLockVotesOrphan := timedOut.foldl OrderedMap.erase st.mapTxLockVotesOrphan
    mapMasternodeOrphanVotes := st.mapMasternodeOrphanVotes.filter (fun entry =>
      !decide (entry.2<env.nTime)) }

/-- Forget what is not needed any more. -/
def checkAndRemove : CInstantSend :=
  if !env.fMasternodeListSynced then st
  else (st.removeExpired ctx).removeVotes ctx env

/-- What keeps the lock of an input from being completed. -/
inductive Conflict where
  | lock (hashConflicting : Uint256)
  | mempool
  deriving DecidableEq

def inputConflict (txHash : Uint256) (txin : CTxIn) : Option Conflict :=
  match (st.mapLockedOutpoints.find txin.prevout).filter (fun hash => txHash≠hash) with
  | some hashConflicting => some (.lock hashConflicting)
  | none => if (env.mapNextTx txin.prevout).any (fun hash => txHash≠hash) then some .mempool
    else none

/-- Let two candidates expire. -/
def expireBoth (txHash hashConflicting : Uint256) : CInstantSend :=
  (st.changeCandidate txHash (fun cand => { cand with nConfirmedHeight := 0 }))
    |>.changeCandidate hashConflicting (fun cand => { cand with nConfirmedHeight := 0 })

/-- Drop two completed locks with a common input. -/
def dropBoth (txHash hashConflicting : Uint256) : CInstantSend :=
  if !st.mapTxLockCandidates.contains txHash ||
      !st.mapTxLockCandidates.contains hashConflicting then st
  else
    let st := (st.expireBoth txHash hashConflicting).checkAndRemove ctx env
    { st with mapLockRequestRejected :=
        (st.mapLockRequestRejected.insert txHash).insert hashConflicting }

/-- Whether the lock of a candidate may be completed. -/
def resolveConflicts (cand : CTxLockCandidate) : CInstantSend×Bool :=
  if !cand.isAllOutPointsReady then (st,false)
  else match cand.vin.findSome? (st.inputConflict env (cand.getHash ctx)) with
    | some (.lock hashConflicting) =>
      (st.dropBoth ctx env (cand.getHash ctx) hashConflicting,false)
    | some .mempool => (st,false)
    | none => (st,env.isInBlock (cand.getHash ctx) ||
        cand.vin.all (fun txin => (env.getUTXOCoin txin.prevout).isSome))

def lockTransactionInputs (cand : CTxLockCandidate) : CInstantSend :=
  if !env.fInstantSendActive || !cand.isAllOutPointsReady then st
  else { st with mapLockedOutpoints := cand.outpoints.foldl (fun locked outpoint =>
      locked.emplace outpoint (cand.getHash ctx)) st.mapLockedOutpoints }

/-- Complete the lock of a candidate with enough votes. -/
def tryToFinalizeLockCandidate (cand : CTxLockCandidate) : CInstantSend :=
  if env.fInstantSendActive && cand.isAllOutPointsReady &&
      !st.isLockedInstantSendTransaction env (cand.getHash ctx) then
    let resolved := st.resolveConflicts ctx env cand
    if resolved.2 then resolved.1.lockTransactionInputs ctx env cand else resolved.1
  else st

/-- Start a candidate for a request, or add the request to a candidate without one. -/
def createTxLockCandidate (tx : CTransaction) : Checked (CInstantSend×Bool) := do
  let isValid ← isValidRequest ctx env tx
  if !isValid then .ok (st,false)
  else match st.mapTxLockCandidates.find tx.hash with
    | none => .ok (st.setCandidate tx.hash ((tx.vin.map CTxIn.prevout).foldl
        CTxLockCandidate.addOutPointLock
          { nTimeCreated := env.nTime, txLockRequest := some tx }),true)
    | some cand =>
      if cand.txLockRequest.isSome then .ok (st,true)
      else
        let cand := { cand with txLockRequest := some tx }
        if cand.isTimedOut env then .ok (st.setCandidate tx.hash cand,false)
        else .ok (st.setCandidate tx.hash ((tx.vin.map CTxIn.prevout).foldl
          CTxLockCandidate.addOutPointLock cand),true)

/-- Start a candidate without a request. -/
def createEmptyTxLockCandidate (txHash : Uint256) : CInstantSend :=
  if st.mapTxLockCandidates.contains txHash then st
  else st.setCandidate txHash { nTimeCreated := env.nTime }

/-- Note an attack when a masternode voted for another transaction with the same input. -/
def markConflicting (vote : CTxLockVote) (st : CInstantSend) (hash : Uint256) : CInstantSend :=
  if hash≠vote.txHash && ((st.mapTxLockCandidates.find hash).map (fun cand =>
      cand.hasMasternodeVoted vote.outpoint vote.outpointMasternode)).getD false then
    (st.changeCandidate vote.txHash (fun cand =>
      cand.markOutpointAsAttacked vote.outpoint)).changeCandidate hash (fun cand =>
        cand.markOutpointAsAttacked vote.outpoint)
  else st

/-- Look for conflicting votes, and note that the input was voted for. -/
def updateVotedOutpoints (vote : CTxLockVote) : CInstantSend :=
  ((st.votedHashes vote.outpoint).foldl (markConflicting vote) st).addVoted
    vote.outpoint vote.txHash

def addVoteToCandidate (vote : CTxLockVote) : CInstantSend×Bool :=
  match st.mapTxLockCandidates.find vote.txHash with
  | none => (st,false)
  | some cand =>
    (st.setCandidate vote.txHash (cand.addVote vote).1,(cand.addVote vote).2)

/-- Count a vote for a candidate with a request, unless it is too late. -/
def processOrphanTxLockVote (vote : CTxLockVote) : CInstantSend×Bool :=
  match st.mapTxLockCandidates.find vote.txHash with
  | none => (st,false)
  | some cand =>
    if cand.txLockRequest.isNone || cand.isTimedOut env then (st,false)
    else (st.updateVotedOutpoints vote).addVoteToCandidate vote

/-- Count a vote that came before its request, and forget it when it was counted. -/
def processOrphanEntry (entry : Uint256×CTxLockVote) : CInstantSend :=
  let processed := st.processOrphanTxLockVote env entry.2
  if processed.2 then { processed.1 with
    mapTxLockVotesOrphan := processed.1.mapTxLockVotesOrphan.erase entry.1 }
  else processed.1

/-- Count votes that came before their requests. -/
def processOrphanTxLockVotes : CInstantSend :=
  st.mapTxLockVotesOrphan.entries.foldl (processOrphanEntry env) st

/-- What a call has done when it comes to complete a lock. -/
structure Pending where
  st : CInstantSend
  cand : Option CTxLockCandidate := none
  result : Bool := true
  relayed : List CTxLockVote := []

/-- State after the lock was completed, if it could be. -/
def Pending.finish (pending : Pending) : CInstantSend :=
  match pending.cand with
  | none => pending.st
  | some cand => pending.st.tryToFinalizeLockCandidate ctx env cand

def processTxLockRequest (tx : CTransaction) : Checked Pending := do
  let created ← st.createTxLockCandidate ctx env tx
  if !created.2 then .ok { st := created.1, result := false }
  else
    let st := created.1.processOrphanTxLockVotes env
    match st.mapTxLockCandidates.find tx.hash with
    | none => .error (.assertion .lockCandidate)
    | some cand => .ok { st := st, cand := some cand }

/-- Average time of masternodes that voted without a request. -/
def getAverageMasternodeOrphanVoteTime : ℤ :=
  if st.mapMasternodeOrphanVotes.entries.isEmpty then 0
  else st.mapMasternodeOrphanVotes.entries.foldl (fun total entry => total+entry.2) 0/
    st.mapMasternodeOrphanVotes.size

def keepOrphanVote (vote : CTxLockVote) : CInstantSend×Bool :=
  let st := st.createEmptyTxLockCandidate env vote.txHash
  let st := { st with
    mapTxLockVotesOrphan := st.mapTxLockVotesOrphan.emplace (vote.getHash ctx) vote }
  let refreshed := { st with mapMasternodeOrphanVotes :=
    st.mapMasternodeOrphanVotes.set vote.outpointMasternode (env.nTime+60*10) }
  match st.mapMasternodeOrphanVotes.find vote.outpointMasternode with
  | none => (refreshed,true)
  | some nExpireTime =>
    if env.nTime<nExpireTime && st.getAverageMasternodeOrphanVoteTime<nExpireTime then
      (st,false)
    else (refreshed,true)

/-- A received vote, up to the lock. -/
def processNewTxLockVote (vote : CTxLockVote) : Pending :=
  if !vote.isValid ctx env then { st := st, result := false }
  else match (st.mapTxLockCandidates.find vote.txHash).filter (fun cand =>
      cand.txLockRequest.isSome) with
    | none =>
      let kept := st.keepOrphanVote ctx env vote
      { st := kept.1, result := kept.2 }
    | some cand =>
      if cand.isTimedOut env then { st := st, result := false }
      else
        let added := (st.updateVotedOutpoints vote).addVoteToCandidate vote
        if !added.2 then { st := added.1, result := false }
        else { st := added.1, cand := added.1.mapTxLockCandidates.find vote.txHash }

/-- A vote message. Votes that are known are not processed again. -/
def processMessage (vote : CTxLockVote) : Pending :=
  if !env.fInstantSendActive || !env.fMasternodeListSynced then { st := st, result := false }
  else if st.mapTxLockVotes.contains (vote.getHash ctx) then
    { st := st, result := false }
  else { st with mapTxLockVotes :=
    st.mapTxLockVotes.set (vote.getHash ctx) vote }.processNewTxLockVote ctx env vote

/-- Whether the own masternode voted for an input in one of the candidates. -/
def hasVotedFor (st : CInstantSend) (outpoint : COutPoint) : List Uint256 → Checked Bool
  | [] => .ok false
  | hash::hashes =>
    match st.mapTxLockCandidates.find hash with
    | none => .error (.assertion .lockCandidate)
    | some cand =>
      if cand.hasMasternodeVoted outpoint ctx.masternodeOutpoint then .ok true
      else hasVotedFor st outpoint hashes

def ownVote (txHash : Uint256) (outpoint : COutPoint)
    (quorumModifierHash : Uint256) : CTxLockVote where
  txHash := txHash
  outpoint := outpoint
  outpointMasternode := ctx.masternodeOutpoint
  quorumModifierHash := if env.fDeterministicMNsActive then quorumModifierHash else 0
  masternodeProTxHash := ctx.masternodeProTxHash
  nTimeCreated := env.nTime

/-- State, copy of the candidate and own votes while a node votes. -/
structure Voting where
  st : CInstantSend
  cand : CTxLockCandidate
  relayed : List CTxLockVote := []

/-- Add an own vote to the copy of the candidate and send it. -/
def Voting.castVote (voting : Voting) (vote : CTxLockVote) : Voting :=
  let st := { voting.st with
    mapTxLockVotes := voting.st.mapTxLockVotes.emplace (vote.getHash ctx) vote }
  let added := voting.cand.addVote vote
  if added.2 then
    { st := st.addVoted vote.outpoint vote.txHash
      cand := added.1
      relayed := voting.relayed++[vote] }
  else { voting with st := st, cand := added.1 }

/-- Vote for an input, and tell whether to go on. -/
def voteOutpoint (voting : Voting) (outpoint : COutPoint) : Checked (Voting×Bool) :=
  match env.getUTXOCoin outpoint with
  | none => .ok (voting,false)
  | some entry =>
    match env.getMasternodeRank ctx.masternodeOutpoint
      (entry.nHeight+ctx.nInstantSendConfirmationsRequired-2) with
    | none => .ok (voting,true)
    | some rank =>
      if signaturesTotal < rank.1 then .ok (voting,true)
      else do
        let fAlreadyVoted ← voting.st.hasVotedFor ctx outpoint
          (voting.st.votedHashes outpoint)
        if fAlreadyVoted then .ok (voting,true)
        else
          let vote := ownVote ctx env (voting.cand.getHash ctx) outpoint rank.2
          if !env.canSign vote then .ok (voting,false)
          else .ok (voting.castVote ctx vote,true)

/-- Vote for inputs in order. -/
def voteOutpoints : List COutPoint → Voting → Checked Voting
  | [],voting => .ok voting
  | outpoint::outpoints,voting => do
    let result ← voteOutpoint ctx env voting outpoint
    if result.2 then voteOutpoints outpoints result.1 else .ok result.1

/-- Vote for a copy of a candidate that the pool accepted. -/
def voteCandidate (cand : CTxLockCandidate) : Checked Voting :=
  if !env.fMasternodeMode || !env.fInstantSendActive ||
      !st.mapLockRequestAccepted.contains (cand.getHash ctx) then
    .ok { st := st, cand := cand }
  else voteOutpoints ctx env cand.outpoints { st := st, cand := cand }

/-- Vote for a transaction, up to the lock. -/
def vote (txHash : Uint256) : Checked Pending :=
  match st.mapTxLockCandidates.find txHash with
  | none => .ok { st := st }
  | some cand => do
    let voting ← st.voteCandidate ctx env cand
    .ok { st := voting.st, cand := some voting.cand, relayed := voting.relayed }

/-- Note the height of a transaction in its candidate and its votes. -/
def syncTransaction (tx : CTransaction) (nHeightNew : ℤ) : CInstantSend :=
  if tx.isCoinBase then st
  else
    let confirm (votes : OrderedMap Uint256 CTxLockVote) (hash : Uint256) :=
      match votes.find hash with
      | none => votes
      | some vote => votes.set hash { vote with nConfirmedHeight := nHeightNew }
    let votes := match st.mapTxLockCandidates.find tx.hash with
      | none => st.mapTxLockVotes
      | some cand => (cand.mapOutPointLocks.values.flatMap (fun lock =>
          lock.mapMasternodeVotes.values.map (fun vote => vote.getHash ctx))).foldl confirm
            st.mapTxLockVotes
    let orphans := (st.mapTxLockVotesOrphan.entries.filter (fun entry =>
      entry.2.txHash=tx.hash)).map Prod.fst
    { st.changeCandidate tx.hash (fun cand =>
        { cand with nConfirmedHeight := nHeightNew }) with
      mapTxLockVotes := orphans.foldl (fun votes hash => votes.set hash
        { (votes.find hash).getD ⟨0,COutPoint.null,COutPoint.null,0,0,-1,env.nTime⟩ with
          nConfirmedHeight := nHeightNew }) votes }

end CInstantSend

/-- Calls of InstantSend. -/
inductive Event where
  | request (tx : CTransaction)
  | accept (tx : CTransaction)
  | reject (tx : CTransaction)
  | message (vote : CTxLockVote)
  | newVote (vote : CTxLockVote)
  | vote (txHash : Uint256)
  | sync (tx : CTransaction) (nHeightNew : ℤ)
  | tip (nHeight : ℤ)
  | cleanup

namespace CInstantSend

/-- A call, up to the lock. -/
def process (ctx : InstantContext) (env : InstantEnv) (st : CInstantSend) :
    Event → Checked Pending
  | .request tx => st.processTxLockRequest ctx env tx
  | .accept tx => .ok { st := { st with
      mapLockRequestAccepted := st.mapLockRequestAccepted.insert tx.hash } }
  | .reject tx => .ok { st := { st with
      mapLockRequestRejected := st.mapLockRequestRejected.insert tx.hash } }
  | .message vote => .ok (st.processMessage ctx env vote)
  | .newVote vote => .ok (st.processNewTxLockVote ctx env vote)
  | .vote txHash => st.vote ctx env txHash
  | .sync tx nHeightNew => .ok { st := st.syncTransaction ctx env tx nHeightNew }
  | .tip nHeight => .ok { st := { st with nCachedBlockHeight := nHeight } }
  | .cleanup => .ok { st := st.checkAndRemove ctx env }

/-- A whole call. -/
def step (ctx : InstantContext) (env : InstantEnv) (st : CInstantSend) (event : Event) :
    Checked CInstantSend := do
  let pending ← st.process ctx env event
  .ok (pending.finish ctx env)

end CInstantSend

end Pyrk.InstantSend
