import Pyrk.CacheMultiMap
import Pyrk.Transaction
import Pyrk.ChainParams
import Mathlib.Algebra.Order.Ring.Int

/-!
# Governance objects and their votes

An object keeps the vote that counts for each masternode and signal, and a file of all votes. Some
checks of a vote come after the record was touched.
-/

namespace Pyrk.GovernanceObject

open Transaction ChainParams

/-- Outcome of a record without a vote. -/
def voteOutcomeNone : ℕ := 0
def voteOutcomeYes : ℕ := 1
def voteOutcomeNo : ℕ := 2
/-- Vote that is not counted. -/
def voteOutcomeAbstain : ℕ := 3

def voteSignalNone : ℕ := 0
/-- The object is to be funded. -/
def voteSignalFunding : ℕ := 1
/-- The object is well formed. -/
def voteSignalValid : ℕ := 2
def voteSignalDelete : ℕ := 3
/-- The object is endorsed. -/
def voteSignalEndorsed : ℕ := 4
/-- Greatest signal that is understood. -/
def maxSupportedVoteSignal : ℕ := voteSignalEndorsed

/-- A vote. Signal and outcome are plain integers on the wire. -/
structure CGovernanceVote where
  nVoteSignal : ℤ
  masternodeOutpoint : COutPoint
  nParentHash : Uint256
  nVoteOutcome : ℤ
  nTime : ℤ
  vchSig : List UInt8
  deriving DecidableEq

namespace CGovernanceVote

/-- The signal as a value of its enumeration, which has no negative ones. -/
def getSignal (vote : CGovernanceVote) : ℕ := (vote.nVoteSignal%2^32).toNat

/-- The outcome as a value of its enumeration. -/
def getOutcome (vote : CGovernanceVote) : ℕ := (vote.nVoteOutcome%2^32).toNat

variable (vote1 vote2 : CGovernanceVote)

/-- Comparison of votes; each field is asked to be less and equal at once. -/
def lt : Bool :=
  let fResult := decide (vote1.masternodeOutpoint < vote2.masternodeOutpoint)
  if !fResult then false
  else
    let fResult := decide (vote1.masternodeOutpoint=vote2.masternodeOutpoint)
    let fResult := fResult && decide (vote1.nParentHash < vote2.nParentHash)
    if !fResult then false
    else
      let fResult := fResult && decide (vote1.nParentHash=vote2.nParentHash)
      let fResult := fResult && decide (vote1.nVoteOutcome < vote2.nVoteOutcome)
      if !fResult then false
      else
        let fResult := fResult && decide (vote1.nVoteOutcome=vote2.nVoteOutcome)
        let fResult := fResult && decide (vote1.nVoteSignal=vote2.nVoteSignal)
        if !fResult then false
        else
          let fResult := fResult && decide (vote1.nVoteSignal=vote2.nVoteSignal)
          fResult && decide (vote1.nTime < vote2.nTime)

theorem lt_eq_false : vote1.lt vote2=false := by
  unfold lt
  cases hless : decide (vote1.masternodeOutpoint < vote2.masternodeOutpoint) with
  | false => rfl
  | true =>
    have hne : decide (vote1.masternodeOutpoint=vote2.masternodeOutpoint)=false :=
      decide_eq_false (ne_of_lt (of_decide_eq_true hless))
    simp only [hne,Bool.false_and,Bool.not_false,Bool.not_true,if_true,Bool.false_eq_true,if_false]

end CGovernanceVote

variable (first second : CGovernanceVote×ℤ)

/-- Comparison of votes that wait; their times of expiry are not compared. -/
def ltVoteTime : Bool := first.1.lt second.1

theorem ltVoteTime_eq : ltVoteTime first second=false := CGovernanceVote.lt_eq_false _ _

/-- Vote of a masternode that counts for a signal. -/
structure VoteInstance where
  eOutcome : ℕ := voteOutcomeNone
  /-- Time of the last update, kept for the rate check. -/
  nTime : ℤ := 0
  nCreationTime : ℤ := 0
  deriving DecidableEq

/-- Votes of one masternode by signal. -/
abbrev VoteInstanceMap := OrderedMap ℕ VoteInstance

/-- Votes of the masternodes by collateral. -/
abbrev VoteMap := OrderedMap COutPoint VoteInstanceMap

/-- All votes that an object took. -/
structure CGovernanceObjectVoteFile where
  nMemoryVotes : ℤ := 0
  listVotes : List CGovernanceVote := []
  mapVoteIndex : OrderedMap Uint256 CGovernanceVote := .empty

inductive GovernanceObjectType where
  | unknown
  | proposal
  | trigger
  | watchdog
  deriving DecidableEq

structure CGovernanceObject where
  nObjectType : GovernanceObjectType
  hash : Uint256
  nDeletionTime : ℤ := 0
  fCachedFunding : Bool := false
  fCachedValid : Bool := true
  fCachedDelete : Bool := false
  fCachedEndorsed : Bool := false
  fDirtyCache : Bool := true
  fExpired : Bool := false
  mapCurrentMNVotes : VoteMap := .empty
  cmmapOrphanVotes : CacheMultiMap COutPoint (CGovernanceVote×ℤ) := ⟨0,[]⟩
  fileVotes : CGovernanceObjectVoteFile := {}

/-- What a node knows while it takes a vote. -/
structure VoteContext where
  network : Network
  /-- Hash of the collateral, the object, the signal, the outcome and the time of a vote. -/
  hashVote : COutPoint → Uint256 → ℤ → ℤ → ℤ → Uint256
  has : COutPoint → Bool
  countEnabled : ℕ
  getAdjustedTime : ℤ
  areRateChecksEnabled : Bool
  /-- Signature check with the voting key or the operator key of the masternode. -/
  checkSignature : Bool → CGovernanceVote → Bool

/-- Votes needed at least, whatever the number of masternodes. -/
def nGovernanceMinQuorum : Network → ℕ
  | .main => 10
  | .test => 1
  | .dev => 1
  | .regtest => 1

/-- Least time between two votes of a masternode on a signal. -/
def governanceUpdateMin : ℤ := 60*60

/-- Time that a vote waits for its masternode or its object. -/
def governanceOrphanExpirationTime : ℤ := 10*60

variable (ctx : VoteContext)

/-- Hash of a vote; the signature is not part of it. -/
def getHash (vote : CGovernanceVote) : Uint256 :=
  ctx.hashVote vote.masternodeOutpoint vote.nParentHash vote.nVoteSignal vote.nVoteOutcome
    vote.nTime

/-- Check of a vote by itself. -/
def isValid (useVotingKey : Bool) (vote : CGovernanceVote) : Bool :=
  if ctx.getAdjustedTime+60*60<vote.nTime then false
  else if (maxSupportedVoteSignal : ℤ)<vote.nVoteSignal then false
  else if 3<vote.nVoteOutcome then false
  else if !ctx.has vote.masternodeOutpoint then false
  else ctx.checkSignature useVotingKey vote

namespace CGovernanceObjectVoteFile

variable (file : CGovernanceObjectVoteFile)

def hasVote (nHash : Uint256) : Bool :=
  file.mapVoteIndex.contains nHash

def addVote (vote : CGovernanceVote) : CGovernanceObjectVoteFile :=
  if file.hasVote (getHash ctx vote) then file
  else
    { nMemoryVotes := file.nMemoryVotes+1
      listVotes := vote::file.listVotes
      mapVoteIndex := file.mapVoteIndex.emplace (getHash ctx vote) vote }

end CGovernanceObjectVoteFile

/-- Why a vote is not taken. -/
inductive VoteError where
  | alreadyKnown
  | masternodeNotFound
  | signalNone
  | unsupportedSignal
  | obsolete
  /-- Same timestamp for the different outcome, rejected. -/
  | sameTimestamp
  | tooOften
  | invalid
  | unableToAdd
  deriving DecidableEq

def VoteError.nNodePenalty : VoteError → ℕ
  | .unsupportedSignal => 20
  | .invalid => 20
  | _ => 0

/-- What comes of a vote. -/
structure VoteReport where
  error : Option VoteError
  obj : CGovernanceObject

def VoteReport.ok (report : VoteReport) : Bool := report.error.isNone

variable (votes : VoteMap)

/-- Record of a masternode for a signal. -/
def voteInstance (outpoint : COutPoint) (eSignal : ℕ) : Option VoteInstance :=
  (votes.find outpoint).bind (fun record => record.find eSignal)

/-- Make sure that a masternode has a record for a signal. -/
def emplaceInstance (outpoint : COutPoint) (eSignal : ℕ) : VoteMap :=
  let record := (votes.find outpoint).getD .empty
  votes.set outpoint (record.emplace eSignal {})

/-- Replace the record of a masternode for a signal. -/
def setInstance (outpoint : COutPoint) (eSignal : ℕ) (entry : VoteInstance) : VoteMap :=
  let record := (votes.find outpoint).getD .empty
  votes.set outpoint (record.set eSignal entry)

variable (obj : CGovernanceObject)

def onlyVotingKeyAllowed (vote : CGovernanceVote) : Bool :=
  obj.nObjectType=.proposal && vote.getSignal=voteSignalFunding

/-- Checks of a vote against the record of its masternode and signal. -/
def checkVote (entry : VoteInstance) (vote : CGovernanceVote) : Option VoteError :=
  if vote.nTime<entry.nCreationTime then some .obsolete
  else if vote.nTime=entry.nCreationTime ∧ vote.getOutcome<entry.eOutcome then some .sameTimestamp
  else if ctx.areRateChecksEnabled ∧
      ctx.getAdjustedTime-entry.nTime<governanceUpdateMin then some .tooOften
  else if !isValid ctx (onlyVotingKeyAllowed obj vote) vote then some .invalid
  else if !ctx.has vote.masternodeOutpoint then some .unableToAdd
  else none

/-- Record that a taken vote leaves. -/
def takenInstance (entry : VoteInstance) (vote : CGovernanceVote) : VoteInstance where
  eOutcome := vote.getOutcome
  nTime := if ctx.areRateChecksEnabled then ctx.getAdjustedTime else entry.nTime
  nCreationTime := vote.nTime

/-- Take a vote on an object. -/
def processVote (vote : CGovernanceVote) : VoteReport :=
  let outpoint := vote.masternodeOutpoint
  let eSignal := vote.getSignal
  if obj.fileVotes.hasVote (getHash ctx vote) then ⟨some .alreadyKnown,obj⟩
  else if !ctx.has outpoint then
    ⟨some .masternodeNotFound,{ obj with
      cmmapOrphanVotes := (obj.cmmapOrphanVotes.insert ltVoteTime outpoint
        (vote,ctx.getAdjustedTime+governanceOrphanExpirationTime)).2 }⟩
  else
    let votes := obj.mapCurrentMNVotes.emplace outpoint .empty
    if eSignal=voteSignalNone then
      ⟨some .signalNone,{ obj with mapCurrentMNVotes := votes }⟩
    else if maxSupportedVoteSignal<eSignal then
      ⟨some .unsupportedSignal,{ obj with mapCurrentMNVotes := votes }⟩
    else
      let votes := emplaceInstance votes outpoint eSignal
      let entry := (voteInstance votes outpoint eSignal).getD {}
      match checkVote ctx obj entry vote with
      | some error => ⟨some error,{ obj with mapCurrentMNVotes := votes }⟩
      | none => ⟨none,{ obj with
          mapCurrentMNVotes := setInstance votes outpoint eSignal (takenInstance ctx entry vote)
          fileVotes := obj.fileVotes.addVote ctx vote
          fDirtyCache := true }⟩

/-- Number of masternodes whose vote for a signal has an outcome. -/
def countMatchingVotes (eVoteSignalIn eVoteOutcomeIn : ℕ) : ℕ :=
  obj.mapCurrentMNVotes.values.countP (fun record =>
    match record.find eVoteSignalIn with
    | none => false
    | some entry => decide (entry.eOutcome=eVoteOutcomeIn))

/-- Votes in favour less votes against. -/
def getAbsoluteYesCount (eVoteSignalIn : ℕ) : ℤ :=
  countMatchingVotes obj eVoteSignalIn voteOutcomeYes-
    countMatchingVotes obj eVoteSignalIn voteOutcomeNo

/-- Votes against less votes in favour. -/
def getAbsoluteNoCount (eVoteSignalIn : ℕ) : ℤ :=
  countMatchingVotes obj eVoteSignalIn voteOutcomeNo-
    countMatchingVotes obj eVoteSignalIn voteOutcomeYes

/-- Update the flags from the votes, unless no masternode is enabled. -/
def updateSentinelVariables : CGovernanceObject :=
  if ctx.countEnabled=0 then obj
  else
    let nAbsVoteReq : ℤ := (max (nGovernanceMinQuorum ctx.network) (ctx.countEnabled/10) : ℕ)
    let nAbsDeleteReq : ℤ :=
      (max (nGovernanceMinQuorum ctx.network) (2*ctx.countEnabled/3) : ℕ)
    let deleted := nAbsDeleteReq≤getAbsoluteYesCount obj voteSignalDelete &&
      !obj.fCachedDelete
    { obj with
      fCachedFunding := nAbsVoteReq≤getAbsoluteYesCount obj voteSignalFunding
      fCachedValid := !decide (nAbsVoteReq≤getAbsoluteNoCount obj voteSignalValid)
      fCachedEndorsed := nAbsVoteReq≤getAbsoluteYesCount obj voteSignalEndorsed
      fDirtyCache := false
      fCachedDelete := deleted || obj.fCachedDelete
      nDeletionTime := if deleted && obj.nDeletionTime=0 then ctx.getAdjustedTime
        else obj.nDeletionTime }

end Pyrk.GovernanceObject
