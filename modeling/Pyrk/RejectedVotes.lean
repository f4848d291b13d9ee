import Pyrk.GovernanceManager
import Pyrk.VoteRemoval

/-!
# What a rejected vote leaves

The records of a masternode and of a signal are made before a vote is checked against them, and a
rejected vote leaves them behind.
-/

namespace Pyrk.RejectedVotes

open Transaction GovernanceObject VoteOrder OrderedMap Option
open GovernanceManager (CGovernanceManager)

/-- Records of a masternode, if it has some. -/
def getCurrentMNVotes (obj : CGovernanceObject) (mnCollateralOutpoint : COutPoint) :
    Option VoteInstanceMap := obj.mapCurrentMNVotes.find mnCollateralOutpoint

def recordedVotes (govobj : CGovernanceObject) (nParentHash : Uint256) (outpoint : COutPoint) :
    List CGovernanceVote :=
  match getCurrentMNVotes govobj outpoint with
  | none => []
  | some voteRecord => voteRecord.entries.map (fun entry =>
      recordedVote outpoint nParentHash entry.1 entry.2)

/-- Votes that count on an object, of one masternode or of all. -/
def getCurrentVotes (mgr : CGovernanceManager) (masternodes : List COutPoint)
    (nParentHash : Uint256) (mnCollateralOutpointFilter : COutPoint) : List CGovernanceVote :=
  match mgr.mapObjects.find nParentHash with
  | none => []
  | some govobj =>
    let mapMasternodes := if mnCollateralOutpointFilter.isNull then masternodes
      else masternodes.filter (fun outpoint => outpoint=mnCollateralOutpointFilter)
    mapMasternodes.flatMap (recordedVotes govobj nParentHash)

section Rejection

variable {ctx : VoteContext} {obj : CGovernanceObject} {vote : CGovernanceVote}

/-- A masternode has a record, and one for the signal of a vote if that is understood. -/
def Recorded (obj : CGovernanceObject) (vote : CGovernanceVote) : Prop :=
  obj.mapCurrentMNVotes.contains vote.masternodeOutpoint=true ∧ (Supported vote.getSignal →
      (voteInstance obj.mapCurrentMNVotes vote.masternodeOutpoint vote.getSignal).isSome=true)

instance (obj : CGovernanceObject) (vote : CGovernanceVote) :
    Decidable (Recorded obj vote) := inferInstanceAs (Decidable (_ ∧ _))

/-- Records made for a vote before it is checked. -/
def preparedVotes (votes : VoteMap) (vote : CGovernanceVote) : VoteMap :=
  if Supported vote.getSignal then
    emplaceInstance (votes.emplace vote.masternodeOutpoint .empty)
      vote.masternodeOutpoint vote.getSignal
  else votes.emplace vote.masternodeOutpoint .empty

theorem processVote_rejected (hhas : ctx.has vote.masternodeOutpoint=true)
    (hnew : obj.fileVotes.hasVote (getHash ctx vote)=false)
    (herror : (processVote ctx obj vote).error≠none) :
    (processVote ctx obj vote).obj=
      { obj with mapCurrentMNVotes := preparedVotes obj.mapCurrentMNVotes vote } := by
  revert herror
  dsimp only [processVote,preparedVotes]
  simp only [hnew,hhas,Bool.not_true,Bool.false_eq_true,if_false]
  by_cases hsupp : Supported vote.getSignal
  · rw [if_neg hsupp.1,if_neg (Nat.not_lt.mpr hsupp.2)]
    split
    · intro _
      simp only [if_pos hsupp]
    · intro herror
      exact absurd rfl herror
  · simp only [if_neg hsupp]
    by_cases hnone : vote.getSignal=voteSignalNone
    · simp only [if_pos hnone,implies_true]
    · have hmany : maxSupportedVoteSignal<vote.getSignal :=
        Nat.lt_of_not_le (fun hle => hsupp ⟨hnone,hle⟩)
      simp only [if_neg hnone,if_pos hmany,implies_true]

theorem emplace_eq_self_iff {κ ν : Type} [LinearOrder κ] (map : OrderedMap κ ν) (key : κ)
    (value : ν) : map.emplace key value=map ↔ map.contains key=true := by
  constructor
  · intro heq
    rw [←heq,OrderedMap.contains,find_emplace,if_pos rfl,isSome_some]
  · intro hcontains
    rw [OrderedMap.emplace,if_pos hcontains]

theorem preparedVotes_eq_self_iff :
    preparedVotes obj.mapCurrentMNVotes vote=obj.mapCurrentMNVotes ↔
      Recorded obj vote := by
  rw [preparedVotes,Recorded]
  by_cases hsupp : Supported vote.getSignal
  · simp only [hsupp,if_true,true_implies]
    rw [emplaceInstance_eq,OrderedMap.contains,voteInstance]
    constructor
    · intro heq
      have hfind := congrArg (fun votes => votes.find vote.masternodeOutpoint) heq
      simp only [find_set,if_true] at hfind
      rw [←hfind]
      simp only [isSome_some,bind_some,find_emplace,if_true,and_self]
    · intro hheld
      obtain ⟨hrecord,hinst⟩ := hheld
      obtain ⟨record,hfind⟩ := isSome_iff_exists.mp hrecord
      rw [hfind,bind_some] at hinst
      rw [hfind,getD_some,(emplace_eq_self_iff record _ _).mpr hinst]
      exact set_find hfind
  · simp only [hsupp,if_false,false_implies,and_true]
    exact emplace_eq_self_iff _ _ _

/-- A rejected vote of a known masternode never changes the file. It leaves the records exactly if
it is in the file or all records that it needs are there. -/
theorem rejected_unchanged_iff (hhas : ctx.has vote.masternodeOutpoint=true)
    (herror : (processVote ctx obj vote).error≠none) :
    ((processVote ctx obj vote).obj.mapCurrentMNVotes=obj.mapCurrentMNVotes ∧
        (processVote ctx obj vote).obj.fileVotes=obj.fileVotes ∧
        (processVote ctx obj vote).obj.fDirtyCache=obj.fDirtyCache) ↔
      obj.fileVotes.hasVote (getHash ctx vote)=true ∨ Recorded obj vote := by
  by_cases hknown : obj.fileVotes.hasVote (getHash ctx vote)=true
  · rw [processVote_of_known hknown]
    simp only [hknown,true_or,and_self]
  · rw [processVote_rejected hhas (Bool.eq_false_of_not_eq_true hknown) herror]
    simp only [hknown,and_true,false_or,Bool.false_eq_true]
    exact preparedVotes_eq_self_iff

end Rejection

/-- The masternode of the sample view with a signature that does not fit. -/
def forgedContext : VoteContext := { sampleContext with checkSignature := fun _ _ => false }

/-- A manager with one object. -/
def managerOf (obj : CGovernanceObject) : CGovernanceManager where
  mapObjects := OrderedMap.empty.set 5 obj

/-- A vote with a wrong signature is rejected, and then there is a current vote. -/
theorem forgedVote_leavesTrace :
    forgedContext.has (sampleVote 1 1 100).masternodeOutpoint=true ∧
      (processVote forgedContext newProposal (sampleVote 1 1 100)).error=some .invalid ∧
      newProposal.mapCurrentMNVotes.entries=[] ∧
      (processVote forgedContext newProposal (sampleVote 1 1 100)).obj.mapCurrentMNVotes≠
        newProposal.mapCurrentMNVotes ∧
      getCurrentVotes (managerOf newProposal) [⟨7,0⟩] 5 ⟨7,0⟩=[] ∧
      getCurrentVotes (managerOf (processVote forgedContext newProposal
        (sampleVote 1 1 100)).obj) [⟨7,0⟩] 5 ⟨7,0⟩=[sampleVote 1 0 0] := by
  have hrejected : (processVote forgedContext newProposal (sampleVote 1 1 100)).error=
      some .invalid := by decide
  refine ⟨by decide,hrejected,rfl,?_,by decide,by decide⟩
  intro hsame
  have hfind := congrArg (fun votes => (votes.find ⟨7,0⟩).isSome) hsame
  revert hfind
  decide

/-- A forged vote on an object with a record, and one on an object without. -/
theorem rejected_unchanged_sample :
    (processVote forgedContext (processVote sampleContext newProposal
        (sampleVote 1 1 100)).obj (sampleVote 1 2 200)).obj.mapCurrentMNVotes=
      (processVote sampleContext newProposal (sampleVote 1 1 100)).obj.mapCurrentMNVotes :=
  (((@rejected_unchanged_iff forgedContext
    (processVote sampleContext newProposal (sampleVote 1 1 100)).obj (sampleVote 1 2 200)
    (by decide) (by decide)).mpr (.inr (by decide)))).1

end Pyrk.RejectedVotes
