import Pyrk.VoteOrder
import Pyrk.Superblock

/-!
# Votes that come before their object

Votes on objects that are not known yet are held. When the object comes, a copy of it is stored, and
the held votes are taken by the object that came.
-/

namespace Pyrk.GovernanceManager

open Transaction Superblock GovernanceObject VoteOrder OrderedMap List

/-- A superblock as scheduled by a trigger. -/
structure CSuperblock where
  nGovObjHash : Uint256
  nBlockHeight : ℤ
  vecPayments : List CGovernancePayment

/-- Entries at which a cache of the manager drops its last one. -/
def maxCacheSize : ℕ := 1000000

structure CGovernanceManager where
  mapObjects : OrderedMap Uint256 CGovernanceObject := .empty
  /-- Object that took a vote, by the hash of the vote. -/
  cmapVoteToObject : CacheMap Uint256 Uint256 := ⟨maxCacheSize,[]⟩
  cmapInvalidVotes : CacheMap Uint256 CGovernanceVote := ⟨maxCacheSize,[]⟩
  /-- Votes on unknown objects, with their time of expiry. -/
  cmmapOrphanVotes : CacheMultiMap Uint256 (CGovernanceVote×ℤ) := ⟨maxCacheSize,[]⟩
  mapTrigger : OrderedMap Uint256 CSuperblock := .empty
  fRateChecksEnabled : Bool := true

/-- What a node knows besides the state of the manager. -/
structure GovernanceContext where
  vote : VoteContext
  isValidLocally : CGovernanceObject → Bool
  /-- Superblock from the data of a trigger, if that is well formed. -/
  parseSuperblock : CGovernanceObject → Option CSuperblock

/-- The same knowledge at another time. -/
def GovernanceContext.atTime (ctx : GovernanceContext) (nTime : ℤ) : GovernanceContext :=
  { ctx with vote := { ctx.vote with getAdjustedTime := nTime } }

/-- What an object reads while the manager checks rates or not. -/
def GovernanceContext.voteContext (ctx : GovernanceContext) (fRateChecksEnabled : Bool) :
    VoteContext :=
  { ctx.vote with areRateChecksEnabled := fRateChecksEnabled }

/-- Remember a vote that is not valid. -/
def addInvalidVote (ctx : GovernanceContext) (mgr : CGovernanceManager)
    (vote : CGovernanceVote) (report : VoteReport) : CGovernanceManager :=
  if report.error=some .invalid then
    { mgr with
      cmapInvalidVotes := (mgr.cmapInvalidVotes.insert (getHash ctx.vote vote) vote).2 }
  else mgr

/-- Take a vote that reaches the manager. -/
def processVote (ctx : GovernanceContext) (mgr : CGovernanceManager)
    (vote : CGovernanceVote) : Bool×CGovernanceManager :=
  let nHashVote := getHash ctx.vote vote
  let nHashGovobj := vote.nParentHash
  if mgr.cmapVoteToObject.hasKey nHashVote then (false,mgr)
  else if mgr.cmapInvalidVotes.hasKey nHashVote then (false,mgr)
  else
    match mgr.mapObjects.find nHashGovobj with
    | none =>
      (false,{ mgr with
        cmmapOrphanVotes := (mgr.cmmapOrphanVotes.insert ltVoteTime nHashGovobj
          (vote,ctx.vote.getAdjustedTime+governanceOrphanExpirationTime)).2 })
    | some govobj =>
      if govobj.fCachedDelete || govobj.fExpired then (false,mgr)
      else
        let report := GovernanceObject.processVote
          (ctx.voteContext mgr.fRateChecksEnabled) govobj vote
        let mgr := addInvalidVote ctx mgr vote report
        let mgr :=
          { mgr with mapObjects := mgr.mapObjects.set nHashGovobj report.obj }
        if report.ok then
          let inserted := mgr.cmapVoteToObject.insert nHashVote nHashGovobj
          (inserted.1,{ mgr with cmapVoteToObject := inserted.2 })
        else (false,mgr)

/-- Take one of the held votes; it is dropped when it has expired or was taken. -/
def replayVote (ctx : GovernanceContext) (nHash : Uint256)
    (st : CGovernanceManager×CGovernanceObject) (pairVote : CGovernanceVote×ℤ) :
    CGovernanceManager×CGovernanceObject :=
  let erased := { st.1 with
    cmmapOrphanVotes := st.1.cmmapOrphanVotes.erase ltVoteTime nHash pairVote }
  if pairVote.2 < ctx.vote.getAdjustedTime then (erased,st.2)
  else
    let report := GovernanceObject.processVote (ctx.voteContext false) st.2 pairVote.1
    (addInvalidVote ctx (if report.ok then erased else st.1) pairVote.1 report,report.obj)

/-- Let an object take the votes that were held for it. -/
def checkOrphanVotes (ctx : GovernanceContext) (mgr : CGovernanceManager)
    (govobj : CGovernanceObject) : CGovernanceManager×CGovernanceObject :=
  (mgr.cmmapOrphanVotes.getAll ltVoteTime govobj.hash).foldl
    (replayVote ctx govobj.hash) (mgr,govobj)

/-- Add the superblock of a trigger that is among the objects. -/
def addNewTrigger (ctx : GovernanceContext) (mgr : CGovernanceManager) (nHash : Uint256) :
    Option CGovernanceManager :=
  if mgr.mapTrigger.contains nHash then none
  else
    match (mgr.mapObjects.find nHash).bind ctx.parseSuperblock with
    | none => none
    | some pSuperblock =>
      some { mgr with mapTrigger := mgr.mapTrigger.set nHash pSuperblock }

/-- Mark an object whose trigger is not usable. -/
def markDeleted (ctx : GovernanceContext) (govobj : CGovernanceObject) : CGovernanceObject :=
  { govobj with
    fCachedDelete := true
    nDeletionTime := if govobj.nDeletionTime=0 then ctx.vote.getAdjustedTime
      else govobj.nDeletionTime }

/-- Add an object; the second result is the object of the caller afterwards. -/
def addGovernanceObject (ctx : GovernanceContext) (mgr : CGovernanceManager)
    (govobj : CGovernanceObject) : CGovernanceManager×CGovernanceObject :=
  let nHash := govobj.hash
  let govobj := updateSentinelVariables ctx.vote govobj
  if !ctx.isValidLocally govobj then (mgr,govobj)
  else if mgr.mapObjects.contains nHash then (mgr,govobj)
  else
    let mgr := { mgr with mapObjects := mgr.mapObjects.set nHash govobj }
    if govobj.nObjectType=.trigger then
      match addNewTrigger ctx mgr nHash with
      | none =>
        ({ mgr with
          mapObjects := mgr.mapObjects.set nHash (markDeleted ctx govobj) },govobj)
      | some mgr => checkOrphanVotes ctx mgr govobj
    else checkOrphanVotes ctx mgr govobj

/-- Votes that reach the manager one after the other. -/
def receiveVotes (ctx : GovernanceContext) (mgr : CGovernanceManager)
    (votes : List CGovernanceVote) : CGovernanceManager :=
  votes.foldl (fun mgr vote => (processVote ctx mgr vote).2) mgr

/-- Votes that reach the manager, each at a time of its own. -/
def receiveArrivals (ctx : GovernanceContext) (mgr : CGovernanceManager)
    (arrivals : List (ℤ×CGovernanceVote)) : CGovernanceManager :=
  arrivals.foldl (fun mgr arrival =>
    (processVote (ctx.atTime arrival.1) mgr arrival.2).2) mgr

/-- An object as it is received. -/
def newObject (nObjectType : GovernanceObjectType) (nHash : Uint256) : CGovernanceObject where
  nObjectType := nObjectType
  hash := nHash

/-- The object is added after some of the votes. -/
def votesFirst (ctx : GovernanceContext) (mgr : CGovernanceManager)
    (govobj : CGovernanceObject) (arrivals : List (ℤ×CGovernanceVote))
    (late : List CGovernanceVote) : CGovernanceManager :=
  receiveVotes ctx
    (addGovernanceObject ctx (receiveArrivals ctx mgr arrivals) govobj).1 late

/-- The object is added before all of the votes. -/
def objectFirst (ctx : GovernanceContext) (mgr : CGovernanceManager)
    (govobj : CGovernanceObject) (arrivals : List (ℤ×CGovernanceVote))
    (late : List CGovernanceVote) : CGovernanceManager :=
  receiveVotes ctx (addGovernanceObject ctx mgr govobj).1 (arrivals.map Prod.snd++late)

/-- Outcome on record in a stored object. -/
def currentOutcome (mgr : CGovernanceManager) (nHash : Uint256) (outpoint : COutPoint)
    (eSignal : ℕ) : ℕ :=
  match mgr.mapObjects.find nHash with
  | none => voteOutcomeNone
  | some govobj => ((voteInstance govobj.mapCurrentMNVotes outpoint eSignal).getD {}).eOutcome

/-- Greatest time and outcome among votes of a masternode on a signal, and no
vote at the time zero. -/
def latestRank (votes : List CGovernanceVote) (outpoint : COutPoint) (eSignal : ℕ) : ℤ×ₗℕ :=
  (votes.filter (fun vote => vote.masternodeOutpoint=outpoint && vote.getSignal=eSignal)).foldl
    (fun best vote => max best (voteRank vote)) (toLex (0,voteOutcomeNone))

section Object

variable {ctx : VoteContext}

theorem error_processVote {obj : CGovernanceObject} {vote : CGovernanceVote}
    (hvalid : isValid ctx (onlyVotingKeyAllowed obj vote) vote=true) :
    (GovernanceObject.processVote ctx obj vote).error≠some .invalid ∧
      ((GovernanceObject.processVote ctx obj vote).ok=true →
        (GovernanceObject.processVote ctx obj vote).obj.fileVotes.hasVote
          (getHash ctx vote)=true) := by
  unfold GovernanceObject.processVote VoteReport.ok
  dsimp only
  split_ifs
  all_goals first | exact ⟨by simp,fun h => by cases h⟩ | skip
  split
  next error herror =>
    refine ⟨?_,fun h => by cases h⟩
    rintro ⟨⟩
    unfold checkVote at herror
    rw [hvalid] at herror
    split_ifs at herror
    all_goals simp_all
  next => exact ⟨by simp,fun _ => (hasVote_addVote _ _ _).mpr (.inl rfl)⟩

theorem updateSentinelVariables_new (nObjectType : GovernanceObjectType) (nHash : Uint256) :
    (updateSentinelVariables ctx (newObject nObjectType nHash)).nObjectType=nObjectType ∧
      (updateSentinelVariables ctx (newObject nObjectType nHash)).hash=nHash ∧
      (updateSentinelVariables ctx (newObject nObjectType nHash)).fCachedDelete=false ∧
      (updateSentinelVariables ctx (newObject nObjectType nHash)).fExpired=false ∧
      (updateSentinelVariables ctx (newObject nObjectType nHash)).mapCurrentMNVotes=.empty ∧
      (updateSentinelVariables ctx (newObject nObjectType nHash)).fileVotes={} := by
  have hquorum : ∀ count : ℕ, ¬((max (nGovernanceMinQuorum ctx.network) count : ℕ) : ℤ)≤
        getAbsoluteYesCount (newObject nObjectType nHash) voteSignalDelete := by
    intro count
    have hzero : getAbsoluteYesCount (newObject nObjectType nHash) voteSignalDelete=0 := rfl
    have hpos : 0<nGovernanceMinQuorum ctx.network := by
      cases ctx.network <;> decide
    rw [hzero]
    omega
  unfold updateSentinelVariables
  split_ifs
  · exact ⟨rfl,rfl,rfl,rfl,rfl,rfl⟩
  · refine ⟨rfl,rfl,?_,rfl,rfl,rfl⟩
    dsimp only
    rw [decide_eq_false (hquorum _)]
    rfl

end Object

section Receive

variable {ctx : GovernanceContext} {nHash : Uint256}

/-- Votes that can be taken: valid ones on an object, none of them known. -/
structure Receivable (ctx : GovernanceContext) (mgr : CGovernanceManager)
    (govobj : CGovernanceObject) (votes : List CGovernanceVote) : Prop where
  parent : ∀ vote∈votes, vote.nParentHash=govobj.hash
  valid : ∀ vote∈votes, isValid ctx.vote (onlyVotingKeyAllowed govobj vote) vote=true
  distinct : CollisionFree ctx.vote votes
  unknown : ∀ vote∈votes, mgr.cmapVoteToObject.hasKey (getHash ctx.vote vote)=false
  /-- They are not remembered as votes that are not valid. -/
  notInvalid : ∀ vote∈votes, mgr.cmapInvalidVotes.hasKey (getHash ctx.vote vote)=false

variable {mgr : CGovernanceManager}

theorem Receivable.mono {govobj : CGovernanceObject}
    {votes part : List CGovernanceVote} (h : Receivable ctx mgr govobj votes)
    (hpart : part ⊆ votes) : Receivable ctx mgr govobj part where
  parent vote hm := h.parent vote (hpart hm)
  valid vote hm := h.valid vote (hpart hm)
  distinct vote hm other ho := h.distinct vote (hpart hm) other (hpart ho)
  unknown vote hm := h.unknown vote (hpart hm)
  notInvalid vote hm := h.notInvalid vote (hpart hm)

/-- What holds after a stored object took votes. -/
structure Received (ctx : GovernanceContext) (base : CGovernanceManager)
    (start : CGovernanceObject) (votes : List CGovernanceVote) (mgr : CGovernanceManager)
    (obj : CGovernanceObject) : Prop where
  stored : mgr.mapObjects.find start.hash=some obj
  taken : Taken (ctx.voteContext false) start votes obj
  active : obj.fCachedDelete=false ∧ obj.fExpired=false
  rate : mgr.fRateChecksEnabled=false
  /-- Votes that became known are in the file of the object. -/
  known : ∀ hash, mgr.cmapVoteToObject.hasKey hash=true →
    base.cmapVoteToObject.hasKey hash=true ∨ obj.fileVotes.hasVote hash=true
  invalid : mgr.cmapInvalidVotes=base.cmapInvalidVotes

theorem Received.processVote {base mgr : CGovernanceManager} {start obj : CGovernanceObject}
    {votes : List CGovernanceVote} {vote : CGovernanceVote}
    (h : Received ctx base start votes mgr obj)
    (hvotes : Receivable ctx base start (votes++[vote])) :
    ∃ next, Received ctx base start (votes++[vote]) (processVote ctx mgr vote).2
      next := by
  have hlast : vote∈votes++[vote] := mem_append_right _ (mem_singleton_self _)
  have hvalid := hvotes.valid vote hlast
  have htaken := h.taken.processVote rfl hvalid hvotes.distinct
  obtain ⟨-,hdelete,hexpired,-⟩ := @frame_processVote (ctx.voteContext false) obj vote
  have hfiles : ∀ hash, obj.fileVotes.hasVote hash=true →
      (GovernanceObject.processVote (ctx.voteContext false) obj vote).obj.fileVotes.hasVote
        hash=true := fun _ => hasVote_processVote obj vote
  have hvalid' : isValid (ctx.voteContext false) (onlyVotingKeyAllowed obj vote) vote=true := by
    unfold onlyVotingKeyAllowed at hvalid ⊢
    rw [h.taken.type]
    exact hvalid
  obtain ⟨herror,hok⟩ := error_processVote hvalid'
  have hhash : getHash (ctx.voteContext false) vote=getHash ctx.vote vote := rfl
  have hbase := hvotes.unknown vote hlast
  have hinvalid := hvotes.notInvalid vote hlast
  unfold GovernanceManager.processVote
  dsimp only
  split_ifs with hknown hremembered
  · refine ⟨obj,h.stored,?_,h.active,h.rate,h.known,h.invalid⟩
    rcases h.known _ hknown with hold | hfile
    · rw [hbase] at hold
      cases hold
    · rw [← hhash] at hfile
      rwa [processVote_of_known hfile] at htaken
  · rw [h.invalid,hinvalid] at hremembered
    cases hremembered
  · rw [hvotes.parent vote hlast,h.stored]
    dsimp only
    rw [h.active.1,h.active.2,h.rate,addInvalidVote,if_neg herror]
    simp only [Bool.or_self,Bool.false_eq_true,if_false]
    generalize GovernanceObject.processVote (ctx.voteContext false) obj vote=report at *
    split_ifs with htook
    · refine ⟨report.obj,?_,htaken,?_,h.rate,?_,h.invalid⟩
      · exact (find_set _ _ _ _).trans (if_pos rfl)
      · exact ⟨hdelete.trans h.active.1,hexpired.trans h.active.2⟩
      · intro hash hkey
        rcases CacheMap.hasKey_insert hkey with rfl | hbefore
        · exact .inr (hok htook)
        · exact (h.known hash hbefore).imp id (hfiles hash)
    · refine ⟨report.obj,?_,htaken,?_,h.rate,?_,h.invalid⟩
      · exact (find_set _ _ _ _).trans (if_pos rfl)
      · exact ⟨hdelete.trans h.active.1,hexpired.trans h.active.2⟩
      · intro hash hkey
        exact (h.known hash hkey).imp id (hfiles hash)

theorem received_receiveVotes {start : CGovernanceObject}
    {votes : List CGovernanceVote} (hstored : mgr.mapObjects.find start.hash=some start)
    (hact : start.fCachedDelete=false ∧ start.fExpired=false)
    (hrate : mgr.fRateChecksEnabled=false)
    (hvotes : Receivable ctx mgr start votes) :
    ∃ obj, Received ctx mgr start votes (receiveVotes ctx mgr votes)
      obj := by
  induction votes using reverseRecOn with
  | nil =>
    exact ⟨start,hstored,⟨rfl,fun _ h => h,fun _ h => .inl h,rfl⟩,hact,hrate,
      fun _ h => .inl h,rfl⟩
  | append_singleton votes vote ih =>
    obtain ⟨obj,hrecv⟩ := ih (hvotes.mono (subset_append_left _ _))
    unfold receiveVotes
    rw [foldl_append]
    exact hrecv.processVote hvotes

/-- What taking held votes leaves as it is. -/
structure Untouched (before after : CGovernanceManager) : Prop where
  objects : after.mapObjects=before.mapObjects
  known : after.cmapVoteToObject=before.cmapVoteToObject
  invalid : after.cmapInvalidVotes=before.cmapInvalidVotes
  triggers : after.mapTrigger=before.mapTrigger
  rate : after.fRateChecksEnabled=before.fRateChecksEnabled

theorem Untouched.trans {first second third : CGovernanceManager} (h : Untouched first second)
    (h' : Untouched second third) : Untouched first third :=
  ⟨h'.objects.trans h.objects,h'.known.trans h.known,h'.invalid.trans h.invalid,
    h'.triggers.trans h.triggers,h'.rate.trans h.rate⟩

theorem untouched_replayVotes {start : CGovernanceObject} (pairs : List (CGovernanceVote×ℤ))
    (st : CGovernanceManager×CGovernanceObject) (htype : st.2.nObjectType=start.nObjectType)
    (hvalid : ∀ pair∈pairs, isValid ctx.vote (onlyVotingKeyAllowed start pair.1) pair.1=true) :
    Untouched st.1 (pairs.foldl (replayVote ctx nHash) st).1 := by
  induction pairs generalizing st with
  | nil => exact ⟨rfl,rfl,rfl,rfl,rfl⟩
  | cons pair pairs ih =>
    rw [foldl_cons]
    have hpair := hvalid pair mem_cons_self
    have hpair' : isValid (ctx.voteContext false) (onlyVotingKeyAllowed st.2 pair.1)
        pair.1=true := by
      unfold onlyVotingKeyAllowed at hpair ⊢
      rw [htype]
      exact hpair
    have hstep : Untouched st.1 (replayVote ctx nHash st pair).1 ∧
        (replayVote ctx nHash st pair).2.nObjectType=st.2.nObjectType := by
      unfold replayVote addInvalidVote
      dsimp only
      rw [if_neg (error_processVote hpair').1]
      split_ifs
      · exact ⟨⟨rfl,rfl,rfl,rfl,rfl⟩,rfl⟩
      · exact ⟨⟨rfl,rfl,rfl,rfl,rfl⟩,(frame_processVote _ _).1⟩
      · exact ⟨⟨rfl,rfl,rfl,rfl,rfl⟩,(frame_processVote _ _).1⟩
    exact hstep.1.trans (ih _ (hstep.2.trans htype)
      (fun other hm => hvalid other (mem_cons_of_mem _ hm)))

theorem untouched_receiveArrivals {mgr : CGovernanceManager}
    {arrivals : List (ℤ×CGovernanceVote)} (hunknown : mgr.mapObjects.find nHash=none)
    (hpar : ∀ vote∈arrivals.map Prod.snd, vote.nParentHash=nHash) :
    Untouched mgr (receiveArrivals ctx mgr arrivals) ∧
      ∀ item∈(receiveArrivals ctx mgr arrivals).cmmapOrphanVotes.listItems,
        item∈mgr.cmmapOrphanVotes.listItems ∨ item.2.1∈arrivals.map Prod.snd := by
  induction arrivals using reverseRecOn with
  | nil => exact ⟨⟨rfl,rfl,rfl,rfl,rfl⟩,fun _ h => .inl h⟩
  | append_singleton arrivals arrival ih =>
    rw [map_append] at hpar ⊢
    obtain ⟨huntouched,hitems⟩ := ih (fun vote hm => hpar vote (mem_append_left _ hm))
    have hlast : arrival.2∈arrivals.map Prod.snd++[arrival].map Prod.snd :=
      mem_append_right _ (mem_singleton_self _)
    have hbefore : ∀ item∈(receiveArrivals ctx mgr arrivals).cmmapOrphanVotes.listItems,
        item∈mgr.cmmapOrphanVotes.listItems ∨
          item.2.1∈arrivals.map Prod.snd++[arrival].map Prod.snd :=
      fun item hm => (hitems item hm).imp id (mem_append_left _)
    unfold receiveArrivals at huntouched hbefore ⊢
    rw [foldl_append,foldl_cons,foldl_nil]
    generalize arrivals.foldl _ mgr=middle at huntouched hbefore ⊢
    unfold processVote
    dsimp only
    rw [hpar _ hlast,huntouched.objects,hunknown]
    split_ifs
    · exact ⟨huntouched,hbefore⟩
    · exact ⟨huntouched,hbefore⟩
    · refine ⟨⟨rfl,huntouched.known,huntouched.invalid,huntouched.triggers,huntouched.rate⟩,?_⟩
      intro item hm
      rcases CacheMultiMap.mem_insert ltVoteTime hm with rfl | hold
      · exact .inr hlast
      · exact hbefore item hold

/-- A new object that the manager can add. -/
structure Addable (ctx : GovernanceContext) (mgr : CGovernanceManager)
    (nObjectType : GovernanceObjectType) (nHash : Uint256) : Prop where
  valid : ctx.isValidLocally
    (updateSentinelVariables ctx.vote (newObject nObjectType nHash))=true
  unknown : mgr.mapObjects.find nHash=none
  /-- The superblock of a trigger is well formed and not known. -/
  trigger : nObjectType=.trigger → mgr.mapTrigger.contains nHash=false ∧
    (ctx.parseSuperblock
      (updateSentinelVariables ctx.vote (newObject nObjectType nHash))).isSome=true

theorem addGovernanceObject_stored
    {nObjectType : GovernanceObjectType} (hadd : Addable ctx mgr nObjectType nHash)
    (hvalid : ∀ pair∈mgr.cmmapOrphanVotes.getAll ltVoteTime nHash,
      isValid ctx.vote (onlyVotingKeyAllowed (newObject nObjectType nHash) pair.1) pair.1=true) :
    (addGovernanceObject ctx mgr (newObject nObjectType nHash)).1.mapObjects.find nHash=
        some (updateSentinelVariables ctx.vote (newObject nObjectType nHash)) ∧
      (addGovernanceObject ctx mgr (newObject nObjectType nHash)).1.cmapVoteToObject=
        mgr.cmapVoteToObject ∧
      (addGovernanceObject ctx mgr (newObject nObjectType nHash)).1.cmapInvalidVotes=
        mgr.cmapInvalidVotes ∧
      (addGovernanceObject ctx mgr (newObject nObjectType nHash)).1.fRateChecksEnabled=
        mgr.fRateChecksEnabled := by
  obtain ⟨htype,hhash,-⟩ := @updateSentinelVariables_new ctx.vote nObjectType nHash
  have hadded := hadd.valid
  have htrigger := hadd.trigger
  unfold addGovernanceObject
  dsimp only
  generalize updateSentinelVariables ctx.vote (newObject nObjectType nHash)=govobj at *
  have hnew : mgr.mapObjects.contains (newObject nObjectType nHash).hash=false :=
    (contains_eq_false _ _).mpr hadd.unknown
  rw [hadded,hnew,htype]
  simp only [Bool.not_true,Bool.false_eq_true,if_false]
  have hreplay : ∀ middle : CGovernanceManager,
      middle.mapObjects=mgr.mapObjects.set nHash govobj →
      middle.cmapVoteToObject=mgr.cmapVoteToObject →
      middle.cmapInvalidVotes=mgr.cmapInvalidVotes →
      middle.fRateChecksEnabled=mgr.fRateChecksEnabled →
      middle.cmmapOrphanVotes=mgr.cmmapOrphanVotes →
      (checkOrphanVotes ctx middle govobj).1.mapObjects.find nHash=some govobj ∧
        (checkOrphanVotes ctx middle govobj).1.cmapVoteToObject=mgr.cmapVoteToObject ∧
        (checkOrphanVotes ctx middle govobj).1.cmapInvalidVotes=mgr.cmapInvalidVotes ∧
        (checkOrphanVotes ctx middle govobj).1.fRateChecksEnabled=
          mgr.fRateChecksEnabled := by
    intro middle hobjects hknown hinvalid hrate horphans
    have huntouched := @untouched_replayVotes ctx govobj.hash (newObject nObjectType nHash)
      (middle.cmmapOrphanVotes.getAll ltVoteTime govobj.hash) (middle,govobj) htype (by
        rw [horphans,hhash]
        exact hvalid)
    unfold checkOrphanVotes
    refine ⟨?_,huntouched.known.trans hknown,huntouched.invalid.trans hinvalid,
      huntouched.rate.trans hrate⟩
    rw [huntouched.objects]
    rw [hobjects,find_set,if_pos rfl]
  split_ifs with hkind
  · obtain ⟨hfree,hparsed⟩ := htrigger hkind
    obtain ⟨pSuperblock,hsuper⟩ := Option.isSome_iff_exists.mp hparsed
    have htriggered : addNewTrigger ctx { mgr with
        mapObjects := mgr.mapObjects.set (newObject nObjectType nHash).hash govobj }
        (newObject nObjectType nHash).hash=some { mgr with
          mapObjects := mgr.mapObjects.set nHash govobj
          mapTrigger := mgr.mapTrigger.set nHash pSuperblock } := by
      unfold addNewTrigger
      rw [show (newObject nObjectType nHash).hash=nHash from rfl,hfree,find_set,
        if_pos rfl,Option.bind_some,hsuper]
      rfl
    rw [htriggered]
    exact hreplay _ rfl rfl rfl rfl rfl
  · exact hreplay _ rfl rfl rfl rfl rfl

end Receive

section Early

variable {ctx : GovernanceContext}

variable (votes : List CGovernanceVote)

theorem recordRank_foldl (outpoint : COutPoint) {eSignal : ℕ} (hsupp : Supported eSignal) :
    recordRank (votes.foldl applyVote .empty) outpoint eSignal=
      latestRank votes outpoint eSignal := by
  unfold latestRank
  induction votes using reverseRecOn with
  | nil => rfl
  | append_singleton votes vote ih =>
    rw [foldl_append,filter_append,foldl_append,← ih]
    rw [foldl_cons,foldl_nil]
    unfold recordRank
    rw [voteInstance_applyVote _ vote outpoint hsupp]
    by_cases hkey : vote.masternodeOutpoint=outpoint ∧ vote.getSignal=eSignal
    · rw [if_pos hkey]
      simp [hkey]
    · grind

theorem voteInstance_unsupported (outpoint : COutPoint)
    {eSignal : ℕ} (hsupp : ¬Supported eSignal) :
    voteInstance (votes.foldl applyVote .empty) outpoint eSignal=none := by
  induction votes using reverseRecOn with
  | nil => rfl
  | append_singleton votes vote ih =>
    rw [foldl_append,foldl_cons,foldl_nil]
    generalize votes.foldl applyVote .empty=before at ih ⊢
    unfold voteInstance applyVote at *
    rw [find_set]
    have hskip : ¬(Supported vote.getSignal ∧ eSignal=vote.getSignal) := by
      rintro ⟨hvote,rfl⟩
      exact hsupp hvote
    split_ifs with hout
    · rw [Option.bind_some,find_applyRecord,if_neg hskip,← hout]
      cases hfound : before.find outpoint with
      | none => rfl
      | some record =>
        rw [hfound] at ih
        exact ih
    · exact ih

theorem currentOutcome_receiveVotes {mgr : CGovernanceManager}
    {nObjectType : GovernanceObjectType} {nHash : Uint256} {votes : List CGovernanceVote}
    (hstored : mgr.mapObjects.find nHash=
      some (updateSentinelVariables ctx.vote (newObject nObjectType nHash)))
    (hrate : mgr.fRateChecksEnabled=false)
    (hvotes : Receivable ctx mgr (newObject nObjectType nHash) votes)
    (outpoint : COutPoint) (eSignal : ℕ) :
    currentOutcome (receiveVotes ctx mgr votes) nHash outpoint eSignal=
      if Supported eSignal then (ofLex (latestRank votes outpoint eSignal)).2
      else voteOutcomeNone := by
  obtain ⟨htype,hhash,hdelete,hexpired,hrecords,hfile⟩ :=
    @updateSentinelVariables_new ctx.vote nObjectType nHash
  generalize updateSentinelVariables ctx.vote (newObject nObjectType nHash)=start at *
  have hvotes' : Receivable ctx mgr start votes := by
    refine ⟨?_,?_,hvotes.distinct,hvotes.unknown,hvotes.notInvalid⟩
    · rw [hhash]
      exact hvotes.parent
    · intro vote hm
      have hvalid := hvotes.valid vote hm
      unfold onlyVotingKeyAllowed at hvalid ⊢
      rw [htype]
      exact hvalid
  obtain ⟨obj,hrecv⟩ := received_receiveVotes (by rw [hhash]; exact hstored)
    ⟨hdelete,hexpired⟩ hrate hvotes'
  have hfresh : freshVotes (ctx.voteContext false) start votes=votes := by
    refine filter_eq_self.mpr (fun vote _ => ?_)
    rw [hfile]
    rfl
  have hmap : obj.mapCurrentMNVotes=votes.foldl applyVote .empty := by
    rw [hrecv.taken.records,hfresh,hrecords]
  have hfound : (receiveVotes ctx mgr votes).mapObjects.find nHash=some obj := by
    rw [← hhash]
    exact hrecv.stored
  unfold currentOutcome
  rw [hfound]
  dsimp only
  rw [hmap]
  split_ifs with hsupp
  · rw [← recordRank_foldl votes outpoint hsupp]
    rfl
  · rw [voteInstance_unsupported votes outpoint hsupp]
    rfl

/-- With rates not checked, votes that come partly before their object leave the same outcomes as
votes after it if and only if the latest late vote always has the outcome of the latest vote. -/
theorem votesFirst_iff {mgr : CGovernanceManager} {nObjectType : GovernanceObjectType}
    {nHash : Uint256} {arrivals : List (ℤ×CGovernanceVote)} {late : List CGovernanceVote}
    (hadd : Addable ctx mgr nObjectType nHash)
    (hrate : mgr.fRateChecksEnabled=false)
    (hheld : ∀ item∈mgr.cmmapOrphanVotes.listItems, item.1≠nHash)
    (hvotes : Receivable ctx mgr (newObject nObjectType nHash)
      (arrivals.map Prod.snd++late)) :
    (∀ outpoint eSignal,
      currentOutcome (votesFirst ctx mgr (newObject nObjectType nHash) arrivals late) nHash
          outpoint eSignal=
        currentOutcome (objectFirst ctx mgr (newObject nObjectType nHash) arrivals late)
          nHash outpoint eSignal) ↔
      ∀ outpoint eSignal, Supported eSignal → (ofLex (latestRank late outpoint eSignal)).2=
          (ofLex (latestRank (arrivals.map Prod.snd++late) outpoint eSignal)).2 := by
  have hpar : ∀ vote∈arrivals.map Prod.snd, vote.nParentHash=nHash :=
    fun vote hm => hvotes.parent vote (mem_append_left _ hm)
  obtain ⟨huntouched,hitems⟩ := @untouched_receiveArrivals ctx nHash mgr arrivals
    hadd.unknown hpar
  have hadd' : Addable ctx (receiveArrivals ctx mgr arrivals) nObjectType nHash := by
    refine ⟨hadd.valid,?_,?_⟩
    · rw [huntouched.objects]
      exact hadd.unknown
    · rw [huntouched.triggers]
      exact hadd.trigger
  have hearly : ∀ pair∈(receiveArrivals ctx mgr arrivals).cmmapOrphanVotes.getAll
      ltVoteTime nHash, isValid ctx.vote
        (onlyVotingKeyAllowed (newObject nObjectType nHash) pair.1) pair.1=true := by
    intro pair hm
    rcases hitems _ ((CacheMultiMap.mem_getAll ltVoteTime).mp hm) with hold | hnew
    · exact absurd rfl (hheld _ hold)
    · exact hvotes.valid _ (mem_append_left _ hnew)
  obtain ⟨hstored,hknown,hinvalid,hchecks⟩ := addGovernanceObject_stored hadd' hearly
  have hnone : ∀ pair∈mgr.cmmapOrphanVotes.getAll ltVoteTime nHash, isValid ctx.vote
      (onlyVotingKeyAllowed (newObject nObjectType nHash) pair.1) pair.1=true :=
    fun pair hm => absurd rfl (hheld _ ((CacheMultiMap.mem_getAll ltVoteTime).mp hm))
  obtain ⟨hstored',hknown',hinvalid',hchecks'⟩ := addGovernanceObject_stored hadd hnone
  have hlate := hvotes.mono (subset_append_right (arrivals.map Prod.snd) late)
  have hfirst := @currentOutcome_receiveVotes ctx _ nObjectType nHash late hstored
    (by rw [hchecks,huntouched.rate]; exact hrate)
    ⟨hlate.parent,hlate.valid,hlate.distinct,
      by rw [hknown,huntouched.known]; exact hlate.unknown,
      by rw [hinvalid,huntouched.invalid]; exact hlate.notInvalid⟩
  have hsecond := @currentOutcome_receiveVotes ctx _ nObjectType nHash
    (arrivals.map Prod.snd++late) hstored' (by rw [hchecks']; exact hrate)
    ⟨hvotes.parent,hvotes.valid,hvotes.distinct,by rw [hknown']; exact hvotes.unknown,
      by rw [hinvalid']; exact hvotes.notInvalid⟩
  unfold votesFirst objectFirst
  grind

end Early

/-- A node that knows one masternode and accepts every object. -/
def sampleGovernance : GovernanceContext where
  vote := sampleContext
  isValidLocally _ := true
  parseSuperblock _ := none

/-- A manager that does not check rates. -/
def sampleManager : CGovernanceManager where
  fRateChecksEnabled := false

theorem addable_sample : Addable sampleGovernance sampleManager .proposal 5 :=
  ⟨rfl,rfl,fun h => by cases h⟩

theorem receivable_sample {votes : List CGovernanceVote}
    (hpar : ∀ vote∈votes, vote.nParentHash=5)
    (hvalid : ∀ vote∈votes, isValid sampleContext
      (onlyVotingKeyAllowed (newObject .proposal 5) vote) vote=true)
    (hdistinct : CollisionFree sampleContext votes) :
    Receivable sampleGovernance sampleManager (newObject .proposal 5) votes :=
  ⟨hpar,hvalid,hdistinct,fun _ _ => rfl,fun _ _ => rfl⟩

/-- An early vote that the masternode repeats later is not missed. -/
theorem votesFirst_repeated :
    currentOutcome (votesFirst sampleGovernance sampleManager (newObject .proposal 5)
        [(900,sampleVote 1 1 100)] [sampleVote 1 1 200]) 5 ⟨7,0⟩ voteSignalFunding=
      voteOutcomeYes ∧
    ∀ outpoint eSignal,
      currentOutcome (votesFirst sampleGovernance sampleManager (newObject .proposal 5)
          [(900,sampleVote 1 1 100)] [sampleVote 1 1 200]) 5 outpoint eSignal=
        currentOutcome (objectFirst sampleGovernance sampleManager (newObject .proposal 5)
          [(900,sampleVote 1 1 100)] [sampleVote 1 1 200]) 5 outpoint eSignal := by
  have hdistinct : CollisionFree sampleContext [sampleVote 1 1 100,sampleVote 1 1 200] := by
    unfold CollisionFree
    decide
  refine ⟨by decide,(votesFirst_iff addable_sample rfl (fun _ h => absurd h not_mem_nil)
    (receivable_sample (by decide) (by decide) hdistinct)).mpr ?_⟩
  intro outpoint eSignal _
  unfold latestRank
  by_cases hkey : (⟨7,0⟩ : COutPoint)=outpoint ∧ 1=eSignal
  · obtain ⟨rfl,rfl⟩ := hkey
    decide
  · have hskip : ∀ nTime, (decide ((sampleVote 1 1 nTime).masternodeOutpoint=outpoint) &&
        decide ((sampleVote 1 1 nTime).getSignal=eSignal))=false := by
      intro nTime
      rw [← Bool.not_eq_true,Bool.and_eq_true,decide_eq_true_eq,decide_eq_true_eq]
      exact hkey
    simp [hskip]

/-- A vote that comes first is held, and it is lost when its object comes. -/
theorem votesFirst_lost :
    (receiveArrivals sampleGovernance sampleManager
        [(900,sampleVote 1 1 100)]).cmmapOrphanVotes.getAll ltVoteTime 5=
        [(sampleVote 1 1 100,1500)] ∧
      isValid sampleContext (onlyVotingKeyAllowed (newObject .proposal 5) (sampleVote 1 1 100))
        (sampleVote 1 1 100)=true ∧
      currentOutcome (votesFirst sampleGovernance sampleManager (newObject .proposal 5)
        [(900,sampleVote 1 1 100)] []) 5 ⟨7,0⟩ voteSignalFunding=voteOutcomeNone ∧
      currentOutcome (objectFirst sampleGovernance sampleManager (newObject .proposal 5)
        [(900,sampleVote 1 1 100)] []) 5 ⟨7,0⟩ voteSignalFunding=voteOutcomeYes := by
  decide

end Pyrk.GovernanceManager
