import Pyrk.GovernanceManager
import Pyrk.VoteRemoval

/-!
# Runs of the governance manager

Objects and votes arrive, votes leave with their masternodes, keys or age, and objects are erased.
Every step has its own view of chain, masternodes and time.
-/

namespace Pyrk.GovernanceRuns

open Transaction GovernanceObject GovernanceManager VoteOrder OrderedMap List

/-- Time that an object stays after it was marked for deletion. -/
def governanceDeletionDelay : ℤ := 10*60

abbrev VoteHasher := COutPoint → Uint256 → ℤ → ℤ → ℤ → Uint256

/-- Hash of a vote; the signature is not part of it. -/
def voteHash (hashVote : VoteHasher) (vote : CGovernanceVote) : Uint256 :=
  hashVote vote.masternodeOutpoint vote.nParentHash vote.nVoteSignal vote.nVoteOutcome vote.nTime

/-- The same knowledge with the hash of votes that all steps share. -/
def hashing (ctx : GovernanceContext) (hashVote : VoteHasher) : GovernanceContext :=
  { ctx with vote := { ctx.vote with hashVote := hashVote } }

/-- Signal and outcome of a vote that was received are 32 bit integers. -/
def OnWire (vote : CGovernanceVote) : Prop :=
  (-2^31 ≤ vote.nVoteSignal ∧ vote.nVoteSignal < 2^31) ∧
    -2^31 ≤ vote.nVoteOutcome ∧ vote.nVoteOutcome < 2^31

instance (vote : CGovernanceVote) : Decidable (OnWire vote) :=
  inferInstanceAs (Decidable ((_ ∧ _) ∧ _))

abbrev WireVote := { vote : CGovernanceVote // OnWire vote }

section Lookups

variable (mgr : CGovernanceManager) (nHash : Uint256)

def objectOfVote : Option CGovernanceObject :=
  (mgr.cmapVoteToObject.get nHash).bind mgr.mapObjects.find

def haveVoteForHash : Bool :=
  match objectOfVote mgr nHash with
  | none => false
  | some govobj => govobj.fileVotes.hasVote nHash

/-- A vote as the manager sends it to a peer. -/
def serializeVoteForHash : Option CGovernanceVote :=
  (objectOfVote mgr nHash).bind (fun govobj => govobj.fileVotes.serializeVote nHash)

end Lookups

def forEachObject (change : CGovernanceManager → Uint256 → CGovernanceObject → CGovernanceManager)
    (mgr : CGovernanceManager) : CGovernanceManager :=
  mgr.mapObjects.entries.foldl (fun st entry => change st entry.1 entry.2) mgr

/-- Forget a vote that an object lost. -/
def eraseVote (mgr : CGovernanceManager) (nHash : Uint256) : CGovernanceManager :=
  { mgr with
    cmapVoteToObject := mgr.cmapVoteToObject.erase nHash
    cmapInvalidVotes := mgr.cmapInvalidVotes.erase nHash
    cmmapOrphanVotes := mgr.cmmapOrphanVotes.eraseKey nHash }

/-- Store an object that lost votes, and forget these. -/
def storeRemoved (mgr : CGovernanceManager) (nHash : Uint256)
    (removed : List Uint256×CGovernanceObject) : CGovernanceManager :=
  removed.1.foldl eraseVote
    { mgr with mapObjects := mgr.mapObjects.set nHash removed.2 }

section Actions

variable (ctx : GovernanceContext) (mgr : CGovernanceManager)

def removeInvalidProposalVotes (changedKeyMNs : List COutPoint) : CGovernanceManager :=
  changedKeyMNs.foldl (fun mgr outpoint => forEachObject (fun mgr nHash obj =>
    storeRemoved mgr nHash (obj.removeInvalidProposalVotes ctx.vote outpoint)) mgr)
    mgr

/-- Drop the votes from before the voting keys. -/
def clearPreDIP3Votes (minVoteTime : ℕ) : CGovernanceManager :=
  forEachObject (fun mgr nHash obj =>
    storeRemoved mgr nHash (obj.removeOldVotes ctx.vote minVoteTime)) mgr

/-- Let an object take a vote that waited for its masternode. -/
def checkOrphanVote (st : CGovernanceManager×CGovernanceObject)
    (item : COutPoint×CGovernanceVote×ℤ) : CGovernanceManager×CGovernanceObject :=
  let fRemove := decide (item.2.2 < ctx.vote.getAdjustedTime)
  if !fRemove && !ctx.vote.has item.2.1.masternodeOutpoint then st
  else
    let report := GovernanceObject.processVote (ctx.voteContext false) st.2 item.2.1
    let obj := report.obj
    (addInvalidVote ctx st.1 item.2.1 report,
      if fRemove || report.ok then { obj with
        cmmapOrphanVotes := obj.cmmapOrphanVotes.erase ltVoteTime item.1 item.2 }
      else obj)

/-- Let the objects take the votes that waited for their masternodes. -/
def checkMasternodeOrphanVotes : CGovernanceManager :=
  forEachObject (fun mgr nHash obj =>
    let st := obj.cmmapOrphanVotes.listItems.foldl (checkOrphanVote ctx) (mgr,obj)
    { st.1 with mapObjects := st.1.mapObjects.set nHash st.2 }) mgr

/-- Drop the held votes whose object did not come in time. -/
def cleanOrphanObjects : CGovernanceManager :=
  let expired := mgr.cmmapOrphanVotes.listItems.filter
    (fun item => item.2.2 < ctx.vote.getAdjustedTime)
  { mgr with
    cmmapOrphanVotes := expired.foldl (fun cache item => cache.erase ltVoteTime item.1 item.2)
      mgr.cmmapOrphanVotes }

/-- What a cleaning reads besides the state of the manager. -/
structure CleanInput where
  /-- Objects that masternodes which are gone voted on. -/
  vecDirtyHashes : List Uint256
  isTriggerDone : CSuperblock → Bool
  validate : CGovernanceObject → Bool

/-- Drop the votes of masternodes that are gone from an object. -/
def clearDirtyObject (nHash : Uint256) : CGovernanceManager :=
  match mgr.mapObjects.find nHash with
  | none => mgr
  | some obj =>
    { mgr with
      mapObjects := mgr.mapObjects.set nHash
        { obj.clearMasternodeVotes ctx.vote with fDirtyCache := true } }

/-- Forget a trigger that is done or has no object, and mark its object. -/
def cleanTrigger (isTriggerDone : CSuperblock → Bool) (entry : Uint256×CSuperblock) :
    CGovernanceManager :=
  match mgr.mapObjects.find entry.1 with
  | none => { mgr with mapTrigger := mgr.mapTrigger.erase entry.1 }
  | some obj =>
    if obj.nObjectType≠.trigger ∨ isTriggerDone entry.2 then
      { mgr with
        mapObjects := mgr.mapObjects.set entry.1 (markDeleted ctx obj)
        mapTrigger := mgr.mapTrigger.erase entry.1 }
    else mgr

/-- Flags of an object when a cleaning comes to it. -/
def refreshObject (obj : CGovernanceObject) : CGovernanceObject :=
  if obj.fDirtyCache then updateSentinelVariables ctx.vote obj else obj

/-- Erase an object whose time is over, with the votes that it took. -/
def cleanObject (validate : CGovernanceObject → Bool) (nHash : Uint256)
    (obj : CGovernanceObject) : CGovernanceManager :=
  let obj := refreshObject ctx obj
  if (obj.fCachedDelete || obj.fExpired) &&
      governanceDeletionDelay ≤ ctx.vote.getAdjustedTime-obj.nDeletionTime then
    let taken := mgr.cmapVoteToObject.listItems.filter (fun item => item.2=nHash)
    { mgr with
      cmapVoteToObject := (taken.map Prod.fst).foldl CacheMap.erase mgr.cmapVoteToObject
      mapObjects := mgr.mapObjects.erase nHash }
  else
    { mgr with
      mapObjects := mgr.mapObjects.set nHash
        (if obj.nObjectType=.proposal ∧ !validate obj then markDeleted ctx obj
        else obj) }

/-- Update the objects and erase those whose time is over. -/
def updateCachesAndClean (input : CleanInput) : CGovernanceManager :=
  let mgr := input.vecDirtyHashes.foldl (clearDirtyObject ctx) mgr
  let mgr := mgr.mapTrigger.entries.foldl
    (fun mgr entry => cleanTrigger ctx mgr input.isTriggerDone entry) mgr
  forEachObject (fun mgr nHash obj =>
    cleanObject ctx mgr input.validate nHash obj) mgr

/-- What a node does with its objects and votes. -/
inductive GovernanceAction where
  | addGovernanceObject (nObjectType : GovernanceObjectType) (nHash : Uint256)
  | processVote (vote : WireVote)
  | checkMasternodeOrphanVotes
  | cleanOrphanObjects
  /-- Masternodes were removed, or the objects are cleaned. -/
  | updateCachesAndClean (input : CleanInput)
  | removeInvalidProposalVotes (changedKeyMNs : List COutPoint)
  | clearPreDIP3Votes (minVoteTime : ℕ)

def applyAction : GovernanceAction → CGovernanceManager
  | .addGovernanceObject nObjectType nHash =>
    (addGovernanceObject ctx mgr (newObject nObjectType nHash)).1
  | .processVote vote => (GovernanceManager.processVote ctx mgr vote.1).2
  | .checkMasternodeOrphanVotes => checkMasternodeOrphanVotes ctx mgr
  | .cleanOrphanObjects => cleanOrphanObjects ctx mgr
  | .updateCachesAndClean input => updateCachesAndClean ctx mgr input
  | .removeInvalidProposalVotes changedKeyMNs =>
    removeInvalidProposalVotes ctx mgr changedKeyMNs
  | .clearPreDIP3Votes minVoteTime => clearPreDIP3Votes ctx mgr minVoteTime

end Actions

/-- An action with what the node knows at that moment. -/
structure GovernanceStep where
  ctx : GovernanceContext
  action : GovernanceAction

def applyStep (hashVote : VoteHasher) (mgr : CGovernanceManager) (step : GovernanceStep) :
    CGovernanceManager :=
  applyAction (hashing step.ctx hashVote) mgr step.action

/-- The manager after steps. -/
def run (hashVote : VoteHasher) (mgr : CGovernanceManager) (steps : List GovernanceStep) :
    CGovernanceManager :=
  steps.foldl (applyStep hashVote) mgr

/-- Every step meets a condition in the state in which it is taken. -/
def Regular (condition : GovernanceContext → CGovernanceManager → GovernanceAction → Prop)
    (hashVote : VoteHasher) : CGovernanceManager → List GovernanceStep → Prop
  | _,[] => True
  | mgr,step::steps => condition (hashing step.ctx hashVote) mgr step.action ∧
    Regular condition hashVote (applyStep hashVote mgr step) steps

section Runs

variable {condition : GovernanceContext → CGovernanceManager → GovernanceAction → Prop}
  {hashVote : VoteHasher}

variable {P : CGovernanceManager → Prop}

theorem run_invariant (hstep : ∀ ctx mgr action, P mgr →
      condition (hashing ctx hashVote) mgr action →
      P (applyAction (hashing ctx hashVote) mgr action))
    {mgr : CGovernanceManager} (h : P mgr) {steps : List GovernanceStep}
    (hregular : Regular condition hashVote mgr steps) (count : ℕ) :
    P (run hashVote mgr (steps.take count)) := by
  induction steps generalizing mgr count with
  | nil =>
    rw [take_nil]
    exact h
  | cons step steps ih =>
    obtain ⟨hfirst,hrest⟩ := hregular
    cases count with
    | zero => exact h
    | succ count => exact ih (hstep step.ctx mgr step.action h hfirst) hrest count

theorem forEachObject_invariant
    {change : CGovernanceManager → Uint256 → CGovernanceObject → CGovernanceManager}
    {Q : Uint256 → CGovernanceObject → Prop}
    (hstep : ∀ st nHash obj, P st → st.mapObjects.find nHash=some obj →
      Q nHash obj → P (change st nHash obj) ∧ ∀ other, other≠nHash →
        (change st nHash obj).mapObjects.find other=st.mapObjects.find other)
    {mgr : CGovernanceManager} (h : P mgr)
    (hobjects : ∀ nHash obj, mgr.mapObjects.find nHash=some obj → Q nHash obj) :
    P (forEachObject change mgr) := by
  have hlist : ∀ (entries : List (Uint256×CGovernanceObject)) (st : CGovernanceManager),
      P st → entries.Pairwise (fun left right => left.1 < right.1) →
      (∀ entry∈entries, st.mapObjects.find entry.1=some entry.2 ∧ Q entry.1 entry.2) →
      P (entries.foldl (fun st entry => change st entry.1 entry.2) st) := by
    intro entries
    induction entries with
    | nil => exact fun _ hp _ _ => hp
    | cons entry entries ih =>
      intro st hp hsorted hentries
      obtain ⟨hhead,htail⟩ := pairwise_cons.mp hsorted
      obtain ⟨hfind,hq⟩ := hentries entry mem_cons_self
      obtain ⟨hnext,hframe⟩ := hstep st entry.1 entry.2 hp hfind hq
      refine ih _ hnext htail ?_
      intro other hm
      have hother := hentries other (mem_cons_of_mem _ hm)
      rw [hframe other.1 (ne_of_gt (hhead other hm))]
      exact hother
  refine hlist mgr.mapObjects.entries mgr h mgr.mapObjects.sorted ?_
  intro entry hm
  have hfind := (mgr.mapObjects.mem_entries_iff entry.1 entry.2).mp hm
  exact ⟨hfind,hobjects _ _ hfind⟩

theorem foldl_eraseVote (hashes : List Uint256) (mgr : CGovernanceManager) :
    (hashes.foldl eraseVote mgr).mapObjects=mgr.mapObjects ∧
      (hashes.foldl eraseVote mgr).cmapVoteToObject=
        hashes.foldl CacheMap.erase mgr.cmapVoteToObject := by
  induction hashes generalizing mgr with
  | nil => exact ⟨rfl,rfl⟩
  | cons nHash hashes ih =>
    rw [foldl_cons,foldl_cons]
    exact ih (eraseVote mgr nHash)

theorem storeRemoved_eq (mgr : CGovernanceManager) (nHash : Uint256)
    (removed : List Uint256×CGovernanceObject) :
    (storeRemoved mgr nHash removed).mapObjects=mgr.mapObjects.set nHash removed.2 ∧
      (storeRemoved mgr nHash removed).cmapVoteToObject=
        removed.1.foldl CacheMap.erase mgr.cmapVoteToObject :=
  foldl_eraseVote removed.1 _

theorem find_storeRemoved (mgr : CGovernanceManager) {nHash other : Uint256}
    (removed : List Uint256×CGovernanceObject) (hne : other≠nHash) :
    (storeRemoved mgr nHash removed).mapObjects.find other=mgr.mapObjects.find other := by
  rw [(storeRemoved_eq mgr nHash removed).1]
  exact find_set_of_ne _ _ hne

section

variable (ctx : GovernanceContext)

include ctx

theorem votes_refreshObject (obj : CGovernanceObject) :
    (refreshObject ctx obj).hash=obj.hash ∧
      (refreshObject ctx obj).mapCurrentMNVotes=obj.mapCurrentMNVotes ∧
      (refreshObject ctx obj).cmmapOrphanVotes=obj.cmmapOrphanVotes ∧
      (refreshObject ctx obj).fileVotes=obj.fileVotes := by
  obtain ⟨hhash,-,hrecords,hwaiting,hfile⟩ := votes_updateSentinelVariables ctx.vote obj
  unfold refreshObject
  split_ifs
  · exact ⟨hhash,hrecords,hwaiting,hfile⟩
  · exact ⟨rfl,rfl,rfl,rfl⟩

theorem find_cleanObject (mgr : CGovernanceManager)
    (validate : CGovernanceObject → Bool) {nHash other : Uint256} (obj : CGovernanceObject)
    (hne : other≠nHash) :
    (cleanObject ctx mgr validate nHash obj).mapObjects.find other=
      mgr.mapObjects.find other := by
  unfold cleanObject
  dsimp only
  split_ifs
  · exact find_erase_of_ne _ hne
  · exact find_set_of_ne _ _ hne
  · exact find_set_of_ne _ _ hne

theorem addInvalidVote_eq (mgr : CGovernanceManager)
    (vote : CGovernanceVote) (report : VoteReport) :
    (addInvalidVote ctx mgr vote report).mapObjects=mgr.mapObjects ∧
      (addInvalidVote ctx mgr vote report).cmapVoteToObject=mgr.cmapVoteToObject := by
  unfold addInvalidVote
  split_ifs
  · exact ⟨rfl,rfl⟩
  · exact ⟨rfl,rfl⟩

theorem checkOrphanVotes_eq (mgr : CGovernanceManager)
    (govobj : CGovernanceObject) :
    (checkOrphanVotes ctx mgr govobj).1.mapObjects=mgr.mapObjects ∧
      (checkOrphanVotes ctx mgr govobj).1.cmapVoteToObject=mgr.cmapVoteToObject := by
  have hlist : ∀ (pairs : List (CGovernanceVote×ℤ)) (st : CGovernanceManager×CGovernanceObject),
      (pairs.foldl (replayVote ctx govobj.hash) st).1.mapObjects=st.1.mapObjects ∧
        (pairs.foldl (replayVote ctx govobj.hash) st).1.cmapVoteToObject=
          st.1.cmapVoteToObject := by
    intro pairs
    induction pairs with
    | nil => exact fun _ => ⟨rfl,rfl⟩
    | cons pair pairs ih =>
      intro st
      have hone : (replayVote ctx govobj.hash st pair).1.mapObjects=st.1.mapObjects ∧
          (replayVote ctx govobj.hash st pair).1.cmapVoteToObject=
            st.1.cmapVoteToObject := by
        unfold replayVote
        dsimp only
        split_ifs
        · exact ⟨rfl,rfl⟩
        · exact addInvalidVote_eq ctx _ _ _
        · exact addInvalidVote_eq ctx _ _ _
      rw [foldl_cons]
      exact ⟨(ih _).1.trans hone.1,(ih _).2.trans hone.2⟩
  exact hlist _ (mgr,govobj)

theorem addGovernanceObject_eq (mgr : CGovernanceManager)
    (govobj : CGovernanceObject) :
    (addGovernanceObject ctx mgr govobj).1.cmapVoteToObject=mgr.cmapVoteToObject ∧
      ((addGovernanceObject ctx mgr govobj).1.mapObjects=mgr.mapObjects ∨
        mgr.mapObjects.find govobj.hash=none ∧ ∃ stored,
          (addGovernanceObject ctx mgr govobj).1.mapObjects=
            mgr.mapObjects.set govobj.hash stored ∧
          (stored=updateSentinelVariables ctx.vote govobj ∨
            stored=markDeleted ctx (updateSentinelVariables ctx.vote govobj))) := by
  unfold addGovernanceObject
  dsimp only
  generalize updateSentinelVariables ctx.vote govobj=updated
  split_ifs with hvalid hknown htrigger
  · exact ⟨rfl,.inl rfl⟩
  · exact ⟨rfl,.inl rfl⟩
  · rw [Bool.not_eq_true,contains_eq_false] at hknown
    unfold addNewTrigger
    split_ifs
    · refine ⟨rfl,.inr ⟨hknown,_,?_,.inr rfl⟩⟩
      exact (set_of_erase _ _ _).symm.trans (by rw [erase_of_set,set_of_erase])
    · cases ((mgr.mapObjects.set govobj.hash updated).find govobj.hash).bind
        ctx.parseSuperblock with
      | none =>
        refine ⟨rfl,.inr ⟨hknown,_,?_,.inr rfl⟩⟩
        exact (set_of_erase _ _ _).symm.trans (by rw [erase_of_set,set_of_erase])
      | some pSuperblock =>
        obtain ⟨hobjects,hvotes⟩ := checkOrphanVotes_eq ctx
          { mgr with
            mapObjects := mgr.mapObjects.set govobj.hash updated
            mapTrigger := mgr.mapTrigger.set govobj.hash pSuperblock } updated
        exact ⟨hvotes,.inr ⟨hknown,updated,hobjects,.inl rfl⟩⟩
  · rw [Bool.not_eq_true,contains_eq_false] at hknown
    obtain ⟨hobjects,hvotes⟩ := checkOrphanVotes_eq ctx
      { mgr with mapObjects := mgr.mapObjects.set govobj.hash updated } updated
    exact ⟨hvotes,.inr ⟨hknown,updated,hobjects,.inl rfl⟩⟩

end

end Runs

/-- A node that knows the masternode of the sample. -/
def presentView : GovernanceContext := sampleGovernance.atTime 10000

/-- A node that knows no masternode. -/
def absentView : GovernanceContext :=
  { presentView with vote := { presentView.vote with has := fun _ => false } }

/-- A node for which the voting key of the masternode is another one. -/
def rekeyedView : GovernanceContext :=
  { presentView with vote := { presentView.vote with checkSignature := fun _ _ => false } }

def receivedVote : WireVote := ⟨sampleVote 1 1 100,by decide⟩

/-- The voting key changes, and changes back before the vote comes again. -/
def rekeyedSteps : List GovernanceStep :=
  [⟨presentView,.addGovernanceObject .proposal 5⟩,⟨presentView,.processVote receivedVote⟩,
    ⟨rekeyedView,.removeInvalidProposalVotes [⟨7,0⟩]⟩,⟨presentView,.processVote receivedVote⟩]

end Pyrk.GovernanceRuns
