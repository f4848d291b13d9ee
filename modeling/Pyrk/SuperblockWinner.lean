import Pyrk.BlockPayments
import Pyrk.VoteRemoval

/-!
# The funded superblock of a height

Triggers of a height need votes for their funding flag, and the one with the most votes is paid.
While no masternode is enabled the flags are kept as they are.
-/

namespace Pyrk.SuperblockWinner

open Transaction Superblock GovernanceObject GovernanceManager BlockPayments VoteOrder
  OrderedMap List

/-- A node received triggers in an order, and then votes on their objects in an order. -/
structure Received (ctx : VoteContext) (start : Uint256 → CGovernanceObject)
    (triggers : List CSuperblock) (votes : Uint256 → List CGovernanceVote)
    (governance : CGovernanceManager) : Prop where
  mapTrigger : governance.mapTrigger=
    ofEntries (triggers.map (fun pSuperblock => (pSuperblock.nGovObjHash,pSuperblock)))
  mapObjects : ∀ entry∈governance.mapTrigger.entries, entry.1=entry.2.nGovObjHash ∧ ∃ obj,
    governance.mapObjects.find entry.1=some obj ∧ obj.mapCurrentMNVotes=
      (processVotes ctx (start entry.1) (votes entry.1)).mapCurrentMNVotes

/-- Triggers with different hashes, and votes that are valid and not held up by
rate checks. -/
structure Receivable (ctx : VoteContext) (start : Uint256 → CGovernanceObject)
    (triggers : List CSuperblock) (votes : Uint256 → List CGovernanceVote) : Prop where
  distinct : (triggers.map CSuperblock.nGovObjHash).Nodup
  rate : ctx.areRateChecksEnabled=false
  valid : ∀ nHash, ∀ vote∈votes nHash,
    isValid ctx (onlyVotingKeyAllowed (start nHash) vote) vote=true
  hashes : ∀ nHash, CollisionFree ctx (votes nHash)

/-- A funded trigger of the height with no fewer votes than any other one of the height. -/
structure FundedWinner (node : PaymentNode) (nBlockHeight : ℕ) (best : CSuperblock)
    (obj : CGovernanceObject) : Prop where
  active : best∈getActiveTriggers node.governance
  height : best.nBlockHeight=nBlockHeight
  stored : node.governance.mapObjects.find best.nGovObjHash=some obj
  funded : (updateSentinelVariables node.vote obj).fCachedFunding=true
  most : ∀ other∈getActiveTriggers node.governance, other.nBlockHeight=nBlockHeight →
    ∀ otherObject, node.governance.mapObjects.find other.nGovObjHash=some otherObject →
      getAbsoluteYesCount otherObject voteSignalFunding≤
        getAbsoluteYesCount obj voteSignalFunding

section Search

variable {node : PaymentNode} {nBlockHeight : ℕ}

/-- The search ends with the most votes among its start and the triggers. -/
theorem foldl_betterSuperblock (triggers : List CSuperblock) (best : Option CSuperblock×ℤ) :
    ∃ found, triggers.foldl (betterSuperblock node nBlockHeight) best=found ∧ best.2≤found.2 ∧
      (∀ other∈triggers, other.nBlockHeight=nBlockHeight → ∀ obj,
        node.governance.mapObjects.find other.nGovObjHash=some obj →
          getAbsoluteYesCount obj voteSignalFunding≤found.2) ∧
      (found=best ∨ ∃ winner∈triggers, ∃ obj, winner.nBlockHeight=nBlockHeight ∧
        node.governance.mapObjects.find winner.nGovObjHash=some obj ∧
          found=(some winner,getAbsoluteYesCount obj voteSignalFunding)) := by
  induction triggers generalizing best with
  | nil => exact ⟨best,rfl,le_refl _,by simp,.inl rfl⟩
  | cons trigger triggers ih =>
    obtain ⟨found,hfold,hle,hall,hfound⟩ := ih (betterSuperblock node nBlockHeight best trigger)
    refine ⟨found,hfold,?_⟩
    unfold betterSuperblock at hle hfound
    cases hobject : node.governance.mapObjects.find trigger.nGovObjHash <;> grind

theorem funded_iff {ctx : VoteContext} {obj : CGovernanceObject}
    (henabled : ctx.countEnabled≠0) :
    (updateSentinelVariables ctx obj).fCachedFunding=true ↔
      ((max (nGovernanceMinQuorum ctx.network) (ctx.countEnabled/10) : ℕ) : ℤ)≤
        getAbsoluteYesCount obj voteSignalFunding := by
  unfold updateSentinelVariables
  rw [if_neg henabled,decide_eq_true_eq]

theorem exists_funded (htriggered : isSuperblockTriggered node nBlockHeight=true) :
    isValidBlockHeight node.payments.network nBlockHeight=true ∧
      ∃ trigger∈getActiveTriggers node.governance, ∃ obj, trigger.nBlockHeight=nBlockHeight ∧
        node.governance.mapObjects.find trigger.nGovObjHash=some obj ∧
        (updateSentinelVariables node.vote obj).fCachedFunding=true := by
  obtain ⟨hheight,hany⟩ := Bool.and_eq_true_iff.mp htriggered
  obtain ⟨trigger,hm,hfunded⟩ := any_eq_true.mp hany
  refine ⟨hheight,trigger,hm,?_⟩
  cases hobject : node.governance.mapObjects.find trigger.nGovObjHash <;> grind

theorem exists_fundedWinner (henabled : node.vote.countEnabled≠0)
    (htriggered : isSuperblockTriggered node nBlockHeight=true) :
    ∃ best obj, getBestSuperblock node nBlockHeight=some best ∧
      FundedWinner node nBlockHeight best obj := by
  obtain ⟨hvalid,trigger,hm,obj,hheight,hobject,hfunded⟩ := exists_funded htriggered
  obtain ⟨found,hfold,-,hall,hfound⟩ := @foldl_betterSuperblock node nBlockHeight
    (getActiveTriggers node.governance) (none,0)
  have hneeds := (funded_iff henabled).mp hfunded
  have hmost := hall trigger hm hheight obj hobject
  have hquorum : 1≤nGovernanceMinQuorum node.vote.network := by
    cases node.vote.network <;> decide
  have hpos : 0<found.2 := by
    omega
  rcases hfound with rfl | ⟨winner,hwinner,stored,hsame,hstored,rfl⟩
  · exact absurd hpos (lt_irrefl _)
  · refine ⟨winner,stored,?_,hwinner,hsame,hstored,
      (funded_iff henabled).mpr (hneeds.trans hmost),hall⟩
    unfold getBestSuperblock
    rw [hvalid,hfold]
    exact if_pos hpos

end Search

section Orders

variable {ctx : VoteContext} {start : Uint256 → CGovernanceObject}
  {triggers others : List CSuperblock} {votes otherVotes : Uint256 → List CGovernanceVote}
  {node other : PaymentNode}

theorem mapTrigger_perm (hdistinct : (triggers.map CSuperblock.nGovObjHash).Nodup)
    (hperm : triggers.Perm others) :
    ofEntries (triggers.map (fun pSuperblock => (pSuperblock.nGovObjHash,pSuperblock)))=
      ofEntries (others.map (fun pSuperblock => (pSuperblock.nGovObjHash,pSuperblock))) := by
  refine (hperm.map _).foldl_eq' ?_ _
  intro first hfirst second hsecond map
  obtain ⟨one,hone,rfl⟩ := mem_map.mp hfirst
  obtain ⟨two,htwo,rfl⟩ := mem_map.mp hsecond
  by_cases hsame : one.nGovObjHash=two.nGovObjHash
  · rw [inj_on_of_nodup_map hdistinct hone htwo hsame]
  · exact set_comm map hsame _ _

theorem Received.getActiveTriggers_eq (h : Received ctx start triggers votes node.governance) :
    getActiveTriggers node.governance=node.governance.mapTrigger.entries.map Prod.snd := by
  refine congrArg (map Prod.snd) (filter_eq_self.mpr (fun entry hm => ?_))
  obtain ⟨-,obj,hobject,-⟩ := h.mapObjects entry hm
  exact (contains_iff _ _).mpr ⟨obj,hobject⟩

theorem getBestSuperblock_perm (hreceivable : Receivable ctx start triggers votes)
    (hfirst : Received ctx start triggers votes node.governance)
    (htriggers : triggers.Perm others) (hvotes : ∀ nHash, (votes nHash).Perm (otherVotes nHash))
    (hsecond : Received ctx start others otherVotes other.governance)
    (hnetwork : other.payments.network=node.payments.network) (nBlockHeight : ℕ) :
    getBestSuperblock other nBlockHeight=getBestSuperblock node nBlockHeight := by
  have htrigger : other.governance.mapTrigger=node.governance.mapTrigger := by
    rw [hsecond.mapTrigger,← mapTrigger_perm hreceivable.distinct htriggers,hfirst.mapTrigger]
  have hstep : ∀ best, ∀ pSuperblock∈node.governance.mapTrigger.entries.map Prod.snd,
      betterSuperblock other nBlockHeight best pSuperblock=
        betterSuperblock node nBlockHeight best pSuperblock := by
    intro best pSuperblock hm
    obtain ⟨entry,hlisted,rfl⟩ := mem_map.mp hm
    obtain ⟨hkey,first,hfind,hrecords⟩ := hfirst.mapObjects entry hlisted
    obtain ⟨-,second,hfind',hrecords'⟩ := hsecond.mapObjects entry (htrigger ▸ hlisted)
    rw [← mapCurrentMNVotes_perm hreceivable.rate (hreceivable.valid _) (hreceivable.hashes _)
      (hvotes _),← hrecords] at hrecords'
    have hcount : getAbsoluteYesCount second voteSignalFunding=
        getAbsoluteYesCount first voteSignalFunding := by
      unfold getAbsoluteYesCount countMatchingVotes
      rw [hrecords']
    unfold betterSuperblock
    rw [← hkey,hfind,hfind']
    dsimp only
    rw [hcount]
  unfold getBestSuperblock
  rw [hnetwork,hsecond.getActiveTriggers_eq,hfirst.getActiveTriggers_eq,htrigger,
    foldl_ext _ _ _ hstep]

/-- While a masternode is enabled, a triggered superblock pays a funded trigger with the most votes,
whatever the order in which triggers and then votes were received. -/
theorem triggered_winner {nBlockHeight : ℕ} (henabled : node.vote.countEnabled≠0)
    (htriggered : isSuperblockTriggered node nBlockHeight=true) :
    ∃ best obj, getBestSuperblock node nBlockHeight=some best ∧
      FundedWinner node nBlockHeight best obj ∧
      ∀ ctx start triggers others votes otherVotes other,
        Receivable ctx start triggers votes →
        Received ctx start triggers votes node.governance →
        triggers.Perm others → (∀ nHash, (votes nHash).Perm (otherVotes nHash)) →
        Received ctx start others otherVotes other.governance →
        other.payments.network=node.payments.network →
          getBestSuperblock other nBlockHeight=some best := by
  obtain ⟨best,obj,hbest,hwinner⟩ := exists_fundedWinner henabled htriggered
  refine ⟨best,obj,hbest,hwinner,?_⟩
  intro ctx start triggers others votes otherVotes other hreceivable hfirst htriggers hvotes
    hsecond hnetwork
  rw [getBestSuperblock_perm hreceivable hfirst htriggers hvotes hsecond hnetwork,hbest]

end Orders

/-- A trigger without votes. -/
def newTrigger (nHash : Uint256) : CGovernanceObject where
  nObjectType := .trigger
  hash := nHash

def sampleSuperblock (nHash : Uint256) : CSuperblock := ⟨nHash,360,[samplePayment 1]⟩

/-- What the manager of the node knows; each trigger makes one payment at the height 360. -/
def governanceContext : GovernanceContext where
  vote := { VoteOrder.sampleContext with network := .regtest }
  isValidLocally _ := true
  parseSuperblock govobj := some (sampleSuperblock govobj.hash)

/-- Triggers and votes have reached the manager. -/
def votedNode (triggers : List Uint256) (votes : List CGovernanceVote) : PaymentNode :=
  { triggeredNode (samplePayment 1) with
    governance := receiveVotes governanceContext (triggers.foldl (fun mgr nHash =>
      (addGovernanceObject governanceContext mgr (newTrigger nHash)).1)
      { fRateChecksEnabled := false }) votes }

/-- A vote for funding and another one against it, on the trigger with the hash five. -/
def sampleVotes (nHash : Uint256) : List CGovernanceVote :=
  if nHash=5 then [sampleVote 1 2 100,sampleVote 1 1 200] else []

theorem mem_sampleVotes {nHash : Uint256} {vote : CGovernanceVote} (hm : vote∈sampleVotes nHash) :
    vote=sampleVote 1 2 100 ∨ vote=sampleVote 1 1 200 := by
  unfold sampleVotes at hm
  split_ifs at hm
  · exact mem_pair.mp hm
  · cases hm

theorem received_votedNode : Received governanceContext.vote newTrigger
      [sampleSuperblock 5,sampleSuperblock 6] sampleVotes
      (votedNode [5,6] (sampleVotes 5)).governance ∧
    Received governanceContext.vote newTrigger [sampleSuperblock 6,sampleSuperblock 5]
      (fun nHash => (sampleVotes nHash).reverse)
      (votedNode [6,5] (sampleVotes 5).reverse).governance := by
  constructor <;> refine ⟨rfl,fun entry hm => ?_⟩ <;>
    rcases hm with _ | ⟨_,_ | ⟨_,⟨⟩⟩⟩ <;> exact ⟨rfl,_,rfl,rfl⟩

/-- Two triggers and two votes on one of them, in both orders. -/
theorem triggered_winner_sample : ∃ best obj,
    getBestSuperblock (votedNode [5,6] (sampleVotes 5)) 360=some best ∧
      FundedWinner (votedNode [5,6] (sampleVotes 5)) 360 best obj ∧
      getBestSuperblock (votedNode [6,5] (sampleVotes 5).reverse) 360=some best := by
  obtain ⟨best,obj,hbest,hwinner,horders⟩ := @triggered_winner
    (votedNode [5,6] (sampleVotes 5)) 360 (by decide) (by decide)
  refine ⟨best,obj,hbest,hwinner,horders governanceContext.vote newTrigger _ _ sampleVotes
    (fun nHash => (sampleVotes nHash).reverse) _ ⟨by decide,rfl,fun nHash vote hm => ?_,
      fun nHash first hfirst second hsecond hsame => ?_⟩ received_votedNode.1 (.swap _ _ _)
    (fun nHash => (reverse_perm _).symm) received_votedNode.2 rfl⟩
  · rcases mem_sampleVotes hm with rfl | rfl <;> rfl
  · rcases mem_sampleVotes hfirst with rfl | rfl <;> rcases mem_sampleVotes hsecond with rfl | rfl
      <;> first | rfl | cases hsame

/-- The node after its only masternode and its vote are gone, with the flag set before. -/
def abandonedNode : PaymentNode :=
  let node := triggeredNode (samplePayment 1)
  let vote : VoteContext := { node.vote with countEnabled := 0, has := fun _ => false }
  { node with
    governance := { node.governance with
      mapObjects := OrderedMap.empty.set 5
        ((updateSentinelVariables node.vote fundedTrigger).clearMasternodeVotes vote) }
    vote := vote }

/-- Its superblock is triggered, and there is no trigger to pay. -/
theorem triggered_abandoned : isSuperblockTriggered abandonedNode 360=true ∧
    getBestSuperblock abandonedNode 360=none := ⟨by decide,rfl⟩

end Pyrk.SuperblockWinner
