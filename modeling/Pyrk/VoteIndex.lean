import Pyrk.GovernanceRuns
import Pyrk.HeldIndex

/-!
# The index of known votes

The manager remembers for every vote which object took it, but not votes that an object takes or
drops by itself.
-/

namespace Pyrk.VoteIndex

open CacheMap

open Transaction GovernanceObject GovernanceManager GovernanceRuns VoteOrder OrderedMap List

/-- An object has a vote with a hash in its file. -/
def Holds (mgr : CGovernanceManager) (nGovobj nHash : Uint256) : Prop :=
  ∃ govobj, mgr.mapObjects.find nGovobj=some govobj ∧ govobj.fileVotes.hasVote nHash=true

/-- An object has a vote in the list of its file. -/
def Stored (mgr : CGovernanceManager) (vote : CGovernanceVote) : Prop :=
  ∃ nGovobj govobj, mgr.mapObjects.find nGovobj=some govobj ∧ vote∈govobj.fileVotes.listVotes

/-- The object of a vote is of interest and takes it. -/
def Taken (ctx : GovernanceContext) (mgr : CGovernanceManager) (vote : CGovernanceVote) :
    Prop :=
  ∃ govobj, mgr.mapObjects.find vote.nParentHash=some govobj ∧
    (govobj.fCachedDelete=false ∧ govobj.fExpired=false) ∧
    govobj.accepts (ctx.voteContext mgr.fRateChecksEnabled) vote=true

/-- Known votes are exactly the stored votes. -/
structure KnownVotes (hashVote : VoteHasher) (mgr : CGovernanceManager) : Prop where
  /-- A hash is a key when some object has a vote with it. -/
  keys : ∀ nHash, mgr.cmapVoteToObject.hasKey nHash=true ↔ ∃ nGovobj, Holds mgr nGovobj nHash
  /-- The manager has a vote when some object has it. -/
  have_iff : ∀ nHash, haveVoteForHash mgr nHash=true ↔
    ∃ vote, Stored mgr vote ∧ voteHash hashVote vote=nHash
  /-- The votes that can be sent are the stored ones. -/
  sent : ∀ nHash vote, serializeVoteForHash mgr nHash=some vote ↔
    Stored mgr vote ∧ voteHash hashVote vote=nHash
  /-- A vote that no object has is taken when it is not remembered as one that
  is not valid and its object takes it. -/
  retaken : ∀ ctx vote, (∀ nGovobj, ¬Holds mgr nGovobj (voteHash hashVote vote)) →
    ((GovernanceManager.processVote (hashing ctx hashVote) mgr vote).1=true ↔
      mgr.cmapInvalidVotes.hasKey (voteHash hashVote vote)=false ∧
        Taken (hashing ctx hashVote) mgr vote)

/-- A step may not fill the index, take a vote that waited for its masternode, or drop votes of one
that is gone. -/
def IndexSafe (ctx : GovernanceContext) (mgr : CGovernanceManager) :
    GovernanceAction → Prop
  | .processVote _ => mgr.cmapVoteToObject.BelowCapacity
  | .checkMasternodeOrphanVotes => ∀ entry∈mgr.mapObjects.entries,
    ∀ item∈entry.2.cmmapOrphanVotes.listItems,
      entry.2.accepts (ctx.voteContext false) item.2.1=false
  | .updateCachesAndClean input => ∀ entry∈mgr.mapObjects.entries,
    entry.1∈input.vecDirtyHashes → Spared ctx.vote entry.2
  | _ => True

/-- The index names the object of every vote in a file, and the files are in order. -/
structure Indexed (hashVote : VoteHasher) (mgr : CGovernanceManager) : Prop where
  exact : HeldIndex.Exact mgr.cmapVoteToObject.get (Holds mgr)
  files : ∀ nGovobj govobj, mgr.mapObjects.find nGovobj=some govobj →
    govobj.fileVotes.Consistent (voteHash hashVote)
  distinct : mgr.cmapVoteToObject.Distinct

section Known

variable {hashVote : VoteHasher} {mgr : CGovernanceManager}

section

variable (h : Indexed hashVote mgr) (nHash : Uint256)

include h nHash

theorem Indexed.hasKey_iff :
    mgr.cmapVoteToObject.hasKey nHash=true ↔ ∃ nGovobj, Holds mgr nGovobj nHash := by
  rw [hasKey_iff_get]
  exact h.exact.isSome_iff nHash

theorem Indexed.objectOfVote_eq_some
    (govobj : CGovernanceObject) : objectOfVote mgr nHash=some govobj ↔
      ∃ nGovobj, mgr.mapObjects.find nGovobj=some govobj ∧
        govobj.fileVotes.hasVote nHash=true := by
  unfold objectOfVote
  rw [Option.bind_eq_some_iff]
  constructor
  · rintro ⟨nGovobj,hget,hfind⟩
    obtain ⟨other,hother,hvote⟩ := (h.exact nHash nGovobj).mp hget
    rw [hfind] at hother
    cases hother
    exact ⟨nGovobj,hfind,hvote⟩
  · rintro ⟨nGovobj,hfind,hvote⟩
    exact ⟨nGovobj,(h.exact nHash nGovobj).mpr ⟨govobj,hfind,hvote⟩,hfind⟩

theorem Indexed.serializeVoteForHash_eq
    (vote : CGovernanceVote) : serializeVoteForHash mgr nHash=some vote ↔
      Stored mgr vote ∧ voteHash hashVote vote=nHash := by
  unfold serializeVoteForHash
  rw [Option.bind_eq_some_iff]
  constructor
  · rintro ⟨govobj,hobject,hsent⟩
    obtain ⟨nGovobj,hfind,-⟩ := (h.objectOfVote_eq_some nHash govobj).mp hobject
    obtain ⟨hm,hhash⟩ := ((h.files nGovobj govobj hfind).indexed nHash vote).mp hsent
    exact ⟨⟨nGovobj,govobj,hfind,hm⟩,hhash⟩
  · rintro ⟨⟨nGovobj,govobj,hfind,hm⟩,hhash⟩
    have hfile := h.files nGovobj govobj hfind
    exact ⟨govobj,(h.objectOfVote_eq_some nHash govobj).mpr
      ⟨nGovobj,hfind,(hfile.hasVote_iff nHash).mpr ⟨vote,hm,hhash⟩⟩,
      (hfile.indexed nHash vote).mpr ⟨hm,hhash⟩⟩

end

theorem haveVoteForHash_iff (mgr : CGovernanceManager) (nHash : Uint256) :
    haveVoteForHash mgr nHash=true ↔ ∃ vote, serializeVoteForHash mgr nHash=some vote := by
  unfold haveVoteForHash serializeVoteForHash
  cases objectOfVote mgr nHash with
  | none => simp
  | some govobj =>
    rw [Option.bind_some]
    exact contains_iff _ _

theorem processVote_unknown (ctx : GovernanceContext) {vote : CGovernanceVote}
    (hunknown : mgr.cmapVoteToObject.hasKey (getHash ctx.vote vote)=false) :
    (GovernanceManager.processVote ctx mgr vote).1=true ↔
      mgr.cmapInvalidVotes.hasKey (getHash ctx.vote vote)=false ∧
        Taken ctx mgr vote := by
  unfold GovernanceManager.processVote Taken
  dsimp only
  rw [hunknown]
  cases hinvalid : mgr.cmapInvalidVotes.hasKey (getHash ctx.vote vote) with
  | true => simp
  | false =>
    cases mgr.mapObjects.find vote.nParentHash with
    | none => simp
    | some govobj =>
      have hinserted : ∀ nGovobj : Uint256,
          ((addInvalidVote ctx mgr vote (GovernanceObject.processVote
            (ctx.voteContext mgr.fRateChecksEnabled) govobj vote)).cmapVoteToObject.insert
              (getHash ctx.vote vote) nGovobj).1=true := by
        intro nGovobj
        rw [(addInvalidVote_eq _ _ _ _).2]
        unfold CacheMap.insert
        rw [hunknown]
        rfl
      simp only [Bool.false_eq_true,if_false,true_and,Option.some.injEq,exists_eq_left',
        ok_processVote]
      cases govobj.fCachedDelete <;> cases govobj.fExpired <;>
        cases govobj.accepts (ctx.voteContext mgr.fRateChecksEnabled) vote <;>
        simp [hinserted]

theorem Indexed.knownVotes (h : Indexed hashVote mgr) : KnownVotes hashVote mgr := by
  refine ⟨h.hasKey_iff,?_,h.serializeVoteForHash_eq,?_⟩
  · intro nHash
    rw [haveVoteForHash_iff]
    exact exists_congr (fun vote => h.serializeVoteForHash_eq nHash vote)
  · intro ctx vote hnone
    refine processVote_unknown (hashing ctx hashVote) ?_
    rw [← Bool.not_eq_true]
    intro hkey
    obtain ⟨nGovobj,hheld⟩ := (h.hasKey_iff _).mp hkey
    exact hnone nGovobj hheld

end Known

section Steps

variable {hashVote : VoteHasher} {mgr after : CGovernanceManager}

def SameFiles (before after : CGovernanceManager) : Prop :=
  ∀ nGovobj, (after.mapObjects.find nGovobj).map CGovernanceObject.fileVotes=
    (before.mapObjects.find nGovobj).map CGovernanceObject.fileVotes

variable {nGovobj : Uint256} {govobj stored : CGovernanceObject}

theorem sameFiles_set (hfind : mgr.mapObjects.find nGovobj=some govobj)
    (hobjects : after.mapObjects=mgr.mapObjects.set nGovobj stored)
    (hfile : stored.fileVotes=govobj.fileVotes) : SameFiles mgr after := by
  intro other
  rw [hobjects,find_set]
  split_ifs with hsame
  · rw [hsame,hfind,Option.map_some,Option.map_some,hfile]
  · rfl

theorem Indexed.congr (h : Indexed hashVote mgr)
    (hindex : after.cmapVoteToObject=mgr.cmapVoteToObject) (hfiles : SameFiles mgr after) :
    Indexed hashVote after := by
  have hstored : ∀ nGovobj govobj, after.mapObjects.find nGovobj=some govobj →
      ∃ before, mgr.mapObjects.find nGovobj=some before ∧
        govobj.fileVotes=before.fileVotes := by
    intro nGovobj govobj hfind
    have hsame := hfiles nGovobj
    rw [hfind,Option.map_some] at hsame
    obtain ⟨before,hbefore,hfile⟩ := Option.map_eq_some_iff.mp hsame.symm
    exact ⟨before,hbefore,hfile.symm⟩
  refine ⟨h.exact.congr (fun _ => by rw [hindex]) ?_,?_,?_⟩
  · intro nGovobj nHash
    constructor
    · rintro ⟨govobj,hfind,hvote⟩
      obtain ⟨before,hbefore,hfile⟩ := hstored nGovobj govobj hfind
      exact ⟨before,hbefore,hfile ▸ hvote⟩
    · rintro ⟨before,hbefore,hvote⟩
      have hsame := hfiles nGovobj
      rw [hbefore,Option.map_some] at hsame
      obtain ⟨govobj,hfind,hfile⟩ := Option.map_eq_some_iff.mp hsame
      exact ⟨govobj,hfind,hfile ▸ hvote⟩
  · intro nGovobj govobj hfind
    obtain ⟨before,hbefore,hfile⟩ := hstored nGovobj govobj hfind
    rw [hfile]
    exact h.files nGovobj before hbefore
  · rw [hindex]
    exact h.distinct

variable {stored : CGovernanceObject}

theorem holds_set
    (hobjects : after.mapObjects=mgr.mapObjects.set nGovobj stored) (other nHash : Uint256) :
    Holds after other nHash ↔ if other=nGovobj then stored.fileVotes.hasVote nHash=true
      else Holds mgr other nHash := by
  unfold Holds
  rw [hobjects,find_set]
  split_ifs
  · simp
  · rfl

section

variable (h : Indexed hashVote mgr)

include h

theorem files_set (hobjects : after.mapObjects=mgr.mapObjects.set nGovobj stored)
    (hfile : stored.fileVotes.Consistent (voteHash hashVote)) :
    ∀ other govobj, after.mapObjects.find other=some govobj →
      govobj.fileVotes.Consistent (voteHash hashVote) := by
  intro other govobj hfind
  rw [hobjects,find_set] at hfind
  split_ifs at hfind
  · cases hfind
    exact hfile
  · exact h.files other govobj hfind

theorem Indexed.store_new (hfree : mgr.mapObjects.find nGovobj=none)
    (hempty : stored.fileVotes={}) (hindex : after.cmapVoteToObject=mgr.cmapVoteToObject)
    (hobjects : after.mapObjects=mgr.mapObjects.set nGovobj stored) :
    Indexed hashVote after := by
  refine ⟨h.exact.congr (fun _ => by rw [hindex]) ?_,?_,?_⟩
  · intro other nHash
    rw [holds_set hobjects]
    split_ifs with hsame
    · unfold Holds
      rw [hsame,hfree,hempty]
      simp [CGovernanceObjectVoteFile.hasVote,OrderedMap.contains]
    · rfl
  · refine files_set h hobjects ?_
    rw [hempty]
    exact consistent_empty
  · rw [hindex]
    exact h.distinct

theorem Indexed.addGovernanceObject (ctx : GovernanceContext)
    (nObjectType : GovernanceObjectType) (nHash : Uint256) :
    Indexed hashVote (addGovernanceObject ctx mgr (newObject nObjectType nHash)).1 := by
  have hnew := (votes_updateSentinelVariables ctx.vote (newObject nObjectType nHash)).2.2.2.2
  obtain ⟨hindex,hsame | ⟨hfree,stored,hobjects,hstored⟩⟩ :=
    addGovernanceObject_eq ctx mgr (newObject nObjectType nHash)
  · exact h.congr hindex (fun _ => by rw [hsame])
  · refine h.store_new hfree ?_ hindex hobjects
    rcases hstored with rfl | rfl
    · exact hnew
    · exact hnew

theorem Indexed.store_vote (ctx : VoteContext)
    (hhash : getHash ctx=voteHash hashVote) (hroom : mgr.cmapVoteToObject.BelowCapacity)
    {vote : CGovernanceVote}
    (hfind : mgr.mapObjects.find nGovobj=some govobj)
    (hunknown : mgr.cmapVoteToObject.hasKey (getHash ctx vote)=false)
    (hacc : Accepted ctx govobj vote stored)
    (hindex : after.cmapVoteToObject=
      (mgr.cmapVoteToObject.insert (getHash ctx vote) nGovobj).2)
    (hobjects : after.mapObjects=mgr.mapObjects.set nGovobj stored) :
    Indexed hashVote after := by
  have hget := fun other => (get_insert hroom hunknown nGovobj other).2
  have hfile := h.files nGovobj govobj hfind
  refine ⟨?_,?_,?_⟩
  · refine h.exact.gain nGovobj (getHash ctx vote) ?_ ?_ ?_ ?_
    · rw [hasKey_iff_get,Option.isSome_eq_false_iff,Option.isNone_iff_eq_none] at hunknown
      exact hunknown
    · rw [hindex,hget,if_pos rfl]
    · intro other hne
      rw [hindex,hget,if_neg hne]
    · intro other nHash
      rw [holds_set hobjects,hacc.file]
      split_ifs with hsame
      · rw [hasVote_addVote,hsame]
        unfold Holds
        rw [hfind]
        simp [or_comm]
      · simp [hsame]
  · refine files_set h hobjects ?_
    rw [hacc.file,← hhash]
    rw [← hhash] at hfile
    exact hfile.addVote hacc.fresh
  · rw [hindex]
    exact h.distinct.insert _ _

theorem Indexed.processVote (ctx : GovernanceContext)
    (hroom : mgr.cmapVoteToObject.BelowCapacity) (vote : CGovernanceVote) :
    Indexed hashVote (GovernanceManager.processVote (hashing ctx hashVote) mgr vote).2 := by
  unfold GovernanceManager.processVote
  dsimp only
  split_ifs with hknown hinvalid
  · exact h
  · exact h
  · rw [Bool.not_eq_true] at hknown
    cases hfind : mgr.mapObjects.find vote.nParentHash with
    | none => exact h.congr rfl (fun _ => rfl)
    | some govobj =>
      dsimp only
      rw [ok_processVote]
      split_ifs with hover haccepts
      · exact h
      · obtain ⟨-,hacc⟩ := processVote_accepted haccepts
        refine h.store_vote ((hashing ctx hashVote).voteContext mgr.fRateChecksEnabled) rfl hroom
          hfind hknown hacc ?_ ?_
        · dsimp only
          rw [(addInvalidVote_eq _ _ _ _).2]
          rfl
        · dsimp only
          rw [(addInvalidVote_eq _ _ _ _).1]
      · rw [Bool.not_eq_true] at haccepts
        obtain ⟨-,hrejected⟩ := processVote_rejected haccepts
        refine h.congr (addInvalidVote_eq _ _ _ _).2 (sameFiles_set hfind ?_ hrejected.file)
        rw [(addInvalidVote_eq _ _ _ _).1]

theorem Indexed.storeRemoved {ctx : VoteContext}
    (hhash : getHash ctx=voteHash hashVote) {govobj : CGovernanceObject}
    (hfind : mgr.mapObjects.find nGovobj=some govobj)
    {removed : List Uint256×CGovernanceObject} (hremoved : Removed ctx govobj removed) :
    Indexed hashVote (storeRemoved mgr nGovobj removed) := by
  obtain ⟨hobjects,hindex⟩ := storeRemoved_eq mgr nGovobj removed
  obtain ⟨pick,hpicked,hkept⟩ := hremoved.file
  have hfile := h.files nGovobj govobj hfind
  rw [← hhash] at hfile
  refine ⟨?_,?_,?_⟩
  · refine h.exact.lose nGovobj (fun nHash => nHash∈removed.1) ?_ ?_ ?_ ?_
    · intro nHash hm
      rw [hpicked] at hm
      exact ⟨govobj,hfind,hfile.hasVote_of_picked hm⟩
    · intro nHash hm
      rw [hindex,get_foldl_erase,if_pos hm]
    · intro nHash hm
      rw [hindex,get_foldl_erase,if_neg hm]
    · intro other nHash
      rw [holds_set hobjects,hkept,hpicked]
      split_ifs with hsame
      · rw [hfile.hasVote_removeVotes,hsame]
        unfold Holds
        rw [hfind]
        simp
      · simp [hsame]
  · refine files_set h hobjects ?_
    rw [hkept,← hhash]
    exact hfile.removeVotes pick
  · rw [hindex]
    exact h.distinct.foldl_erase _

end

theorem checkOrphanVotes_rejected (ctx : GovernanceContext)
    (items : List (COutPoint×CGovernanceVote×ℤ)) (st : CGovernanceManager×CGovernanceObject)
    (hrejected : ∀ item∈items, st.2.accepts (ctx.voteContext false) item.2.1=false) :
    (items.foldl (checkOrphanVote ctx) st).1.mapObjects=st.1.mapObjects ∧
      (items.foldl (checkOrphanVote ctx) st).1.cmapVoteToObject=st.1.cmapVoteToObject ∧
      (items.foldl (checkOrphanVote ctx) st).2.fileVotes=st.2.fileVotes := by
  induction items generalizing st with
  | nil => exact ⟨rfl,rfl,rfl⟩
  | cons item items ih =>
    have hstep : (checkOrphanVote ctx st item).1.mapObjects=st.1.mapObjects ∧
        (checkOrphanVote ctx st item).1.cmapVoteToObject=st.1.cmapVoteToObject ∧
        (checkOrphanVote ctx st item).2.fileVotes=st.2.fileVotes ∧
        ∀ vote, (checkOrphanVote ctx st item).2.accepts (ctx.voteContext false) vote=
          st.2.accepts (ctx.voteContext false) vote := by
      obtain ⟨-,hreport⟩ := processVote_rejected (hrejected item mem_cons_self)
      have hinvalid := addInvalidVote_eq ctx st.1 item.2.1
        (GovernanceObject.processVote (ctx.voteContext false) st.2 item.2.1)
      have haccepts := fun vote => @Rejected.accepts_eq (ctx.voteContext false) _ _ _ hreport vote
      unfold checkOrphanVote
      dsimp only
      split_ifs
      · exact ⟨rfl,rfl,rfl,fun _ => rfl⟩
      · exact ⟨hinvalid.1,hinvalid.2,hreport.file,haccepts⟩
      · exact ⟨hinvalid.1,hinvalid.2,hreport.file,haccepts⟩
    obtain ⟨hobjects,hindex,hfile,haccepts⟩ := hstep
    have hrest := ih (checkOrphanVote ctx st item) (fun other hm => by
      rw [haccepts]
      exact hrejected other (mem_cons_of_mem _ hm))
    rw [foldl_cons]
    exact ⟨hrest.1.trans hobjects,hrest.2.1.trans hindex,hrest.2.2.trans hfile⟩

variable {ctx : GovernanceContext}

section

variable (h : Indexed hashVote mgr)

include h

theorem Indexed.checkMasternodeOrphanVotes
    (hrejected : ∀ entry∈mgr.mapObjects.entries, ∀ item∈entry.2.cmmapOrphanVotes.listItems,
        entry.2.accepts (ctx.voteContext false) item.2.1=false) :
    Indexed hashVote (checkMasternodeOrphanVotes ctx mgr) := by
  refine forEachObject_invariant (Q := fun _ obj => ∀ item∈obj.cmmapOrphanVotes.listItems,
    obj.accepts (ctx.voteContext false) item.2.1=false) ?_ h ?_
  · intro st nHash obj hstate hfind hnone
    obtain ⟨hobjects,hindex,hfile⟩ := checkOrphanVotes_rejected ctx
      obj.cmmapOrphanVotes.listItems (st,obj) hnone
    refine ⟨hstate.congr hindex (sameFiles_set hfind (by dsimp only; rw [hobjects]) hfile),?_⟩
    intro other hne
    dsimp only
    rw [hobjects]
    exact find_set_of_ne _ _ hne
  · intro nHash obj hfind
    exact hrejected (nHash,obj) ((mgr.mapObjects.mem_entries_iff _ _).mpr hfind)

theorem Indexed.removeInvalidProposalVotes
    (ctx : GovernanceContext) (changedKeyMNs : List COutPoint) :
    Indexed hashVote
      (removeInvalidProposalVotes (hashing ctx hashVote) mgr changedKeyMNs) := by
  induction changedKeyMNs generalizing mgr with
  | nil => exact h
  | cons outpoint changedKeyMNs ih =>
    refine ih (forEachObject_invariant (Q := fun _ _ => True) ?_ h (fun _ _ _ => trivial))
    intro st nHash obj hstate hfind _
    exact ⟨hstate.storeRemoved rfl hfind
      (removed_removeInvalidProposalVotes (hashing ctx hashVote).vote obj outpoint),
      fun _ => find_storeRemoved st _⟩

theorem Indexed.clearPreDIP3Votes (ctx : GovernanceContext)
    (minVoteTime : ℕ) :
    Indexed hashVote (clearPreDIP3Votes (hashing ctx hashVote) mgr minVoteTime) := by
  refine forEachObject_invariant (Q := fun _ _ => True) ?_ h (fun _ _ _ => trivial)
  intro st nHash obj hstate hfind _
  exact ⟨hstate.storeRemoved rfl hfind
    (removed_removeOldVotes (hashing ctx hashVote).vote obj minVoteTime),
    fun _ => find_storeRemoved st _⟩

theorem Indexed.clearDirtyObjects {vecDirtyHashes : List Uint256}
    (hspared : ∀ nHash∈vecDirtyHashes, ∀ obj, mgr.mapObjects.find nHash=some obj →
      Spared ctx.vote obj) :
    Indexed hashVote (vecDirtyHashes.foldl (clearDirtyObject ctx) mgr) := by
  induction vecDirtyHashes generalizing mgr with
  | nil => exact h
  | cons nHash vecDirtyHashes ih =>
    rw [foldl_cons]
    have hrest := fun other hm => hspared other (mem_cons_of_mem _ hm)
    cases hfind : mgr.mapObjects.find nHash with
    | none =>
      have hsame : clearDirtyObject ctx mgr nHash=mgr := by
        unfold clearDirtyObject
        rw [hfind]
      rw [hsame]
      exact ih h hrest
    | some obj =>
      have hset : clearDirtyObject ctx mgr nHash={ mgr with
          mapObjects := mgr.mapObjects.set nHash
            { obj.clearMasternodeVotes ctx.vote with fDirtyCache := true } } := by
        unfold clearDirtyObject
        rw [hfind]
      have hobject := hspared nHash mem_cons_self obj hfind
      rw [hset]
      refine ih (h.congr rfl (sameFiles_set hfind rfl hobject.fileVotes_eq)) ?_
      intro other hm found hother
      rw [find_set] at hother
      split_ifs at hother
      · cases hother
        exact hobject.again
      · exact hrest other hm found hother

theorem Indexed.cleanTrigger (ctx : GovernanceContext)
    (isTriggerDone : CSuperblock → Bool) (entry : Uint256×CSuperblock) :
    Indexed hashVote (cleanTrigger ctx mgr isTriggerDone entry) := by
  unfold GovernanceRuns.cleanTrigger
  cases hfind : mgr.mapObjects.find entry.1 with
  | none => exact h.congr rfl (fun _ => rfl)
  | some obj =>
    dsimp only
    split_ifs
    · exact h.congr rfl (sameFiles_set hfind rfl rfl)
    · exact h

theorem Indexed.erase_object (nHash : Uint256)
    (hindex : after.cmapVoteToObject=((mgr.cmapVoteToObject.listItems.filter
      (fun item => item.2=nHash)).map Prod.fst).foldl CacheMap.erase mgr.cmapVoteToObject)
    (hobjects : after.mapObjects=mgr.mapObjects.erase nHash) : Indexed hashVote after := by
  have htaken : ∀ key, key∈(mgr.cmapVoteToObject.listItems.filter
      (fun item => item.2=nHash)).map Prod.fst ↔ mgr.cmapVoteToObject.get key=some nHash := by
    intro key
    rw [h.distinct.get_eq_some,mem_map]
    constructor
    · grind
    · intro hm
      exact ⟨_,mem_filter.mpr ⟨hm,decide_eq_true rfl⟩,rfl⟩
  refine ⟨?_,?_,?_⟩
  · refine h.exact.leave nHash ?_ ?_ ?_
    · intro key hfound
      rw [hindex,get_foldl_erase,if_pos ((htaken key).mpr hfound)]
    · intro key hother
      rw [hindex,get_foldl_erase,if_neg (fun hm => hother ((htaken key).mp hm))]
    · intro other key
      unfold Holds
      rw [hobjects,find_erase]
      by_cases hsame : other=nHash
      · simp [hsame]
      · simp [hsame]
  · intro other govobj hfind
    rw [hobjects,find_erase] at hfind
    split_ifs at hfind
    exact h.files other govobj hfind
  · rw [hindex]
    exact h.distinct.foldl_erase _

theorem Indexed.cleanObject (ctx : GovernanceContext)
    (validate : CGovernanceObject → Bool) {nHash : Uint256} {obj : CGovernanceObject}
    (hfind : mgr.mapObjects.find nHash=some obj) :
    Indexed hashVote (cleanObject ctx mgr validate nHash obj) := by
  obtain ⟨-,-,-,hrefresh⟩ := votes_refreshObject ctx obj
  unfold GovernanceRuns.cleanObject
  generalize refreshObject ctx obj=refreshed at *
  dsimp only
  split_ifs
  · exact h.erase_object nHash rfl rfl
  · exact h.congr rfl (sameFiles_set hfind rfl hrefresh)
  · exact h.congr rfl (sameFiles_set hfind rfl hrefresh)

theorem Indexed.updateCachesAndClean {input : CleanInput}
    (hspared : ∀ entry∈mgr.mapObjects.entries, entry.1∈input.vecDirtyHashes →
      Spared ctx.vote entry.2) :
    Indexed hashVote (updateCachesAndClean ctx mgr input) := by
  unfold GovernanceRuns.updateCachesAndClean
  have hcleared := h.clearDirtyObjects (fun nHash hm obj hfind =>
    hspared (nHash,obj) ((mgr.mapObjects.mem_entries_iff _ _).mpr hfind) hm)
  generalize input.vecDirtyHashes.foldl (clearDirtyObject ctx) mgr=cleared at hcleared ⊢
  have htriggers : Indexed hashVote (cleared.mapTrigger.entries.foldl (fun mgr entry =>
      GovernanceRuns.cleanTrigger ctx mgr input.isTriggerDone entry) cleared) :=
    List.foldlRecOn _ _ hcleared (fun _ hstate entry _ =>
      hstate.cleanTrigger ctx input.isTriggerDone entry)
  refine forEachObject_invariant (Q := fun _ _ => True) ?_ htriggers (fun _ _ _ => trivial)
  intro st nHash obj hstate hfind _
  exact ⟨hstate.cleanObject ctx input.validate hfind,
    fun _ => find_cleanObject ctx st input.validate obj⟩

theorem Indexed.applyAction (ctx : GovernanceContext)
    (action : GovernanceAction)
    (hsafe : IndexSafe (hashing ctx hashVote) mgr action) :
    Indexed hashVote (applyAction (hashing ctx hashVote) mgr action) := by
  cases action with
  | addGovernanceObject nObjectType nHash => exact h.addGovernanceObject _ nObjectType nHash
  | processVote vote => exact h.processVote ctx hsafe vote.1
  | checkMasternodeOrphanVotes => exact h.checkMasternodeOrphanVotes hsafe
  | cleanOrphanObjects => exact h.congr rfl (fun _ => rfl)
  | updateCachesAndClean input => exact h.updateCachesAndClean hsafe
  | removeInvalidProposalVotes changedKeyMNs => exact h.removeInvalidProposalVotes ctx _
  | clearPreDIP3Votes minVoteTime => exact h.clearPreDIP3Votes ctx minVoteTime

end

theorem indexed_empty : Indexed hashVote {} := by
  refine ⟨HeldIndex.exact_empty.congr (fun _ => rfl) ?_,?_,nodup_nil⟩
  · intro nGovobj nHash
    constructor
    · rintro ⟨govobj,hfind,-⟩
      cases hfind
    · exact False.elim
  · intro nGovobj govobj hfind
    cases hfind

end Steps

/-- In every run with room in the index, in which no held vote is taken and no vote is dropped with
its masternode, known votes are exactly the stored votes. -/
theorem knownVotes_of_regular (hashVote : VoteHasher) (steps : List GovernanceStep)
    (hregular : Regular IndexSafe hashVote {} steps) (count : ℕ) :
    KnownVotes hashVote (run hashVote {} (steps.take count)) :=
  (run_invariant (P := Indexed hashVote)
    (fun ctx _ action h hsafe => h.applyAction ctx action hsafe) indexed_empty hregular
    count).knownVotes

/-- Hash of the vote of the sample. -/
def receivedHash : Uint256 := voteHash sampleContext.hashVote receivedVote.1

/-- The masternode is gone after its vote was taken. -/
def clearedSteps : List GovernanceStep :=
  [⟨presentView,.addGovernanceObject .proposal 5⟩,⟨presentView,.processVote receivedVote⟩,
    ⟨absentView,.updateCachesAndClean ⟨[5],fun _ => false,fun _ => true⟩⟩]

/-- The masternode appears after its vote came. -/
def waitedSteps : List GovernanceStep :=
  [⟨absentView,.addGovernanceObject .proposal 5⟩,⟨absentView,.processVote receivedVote⟩,
    ⟨presentView,.checkMasternodeOrphanVotes⟩]

/-- A vote that was dropped when its key changed is taken again. -/
theorem knownVotes_rekeyed :
    KnownVotes sampleContext.hashVote (run sampleContext.hashVote {} (rekeyedSteps.take 4)) ∧
      (run sampleContext.hashVote {} (rekeyedSteps.take 3)).cmapVoteToObject.hasKey
        receivedHash=false ∧
      (run sampleContext.hashVote {} (rekeyedSteps.take 4)).cmapVoteToObject.hasKey
        receivedHash=true := by
  have hregular : Regular IndexSafe sampleContext.hashVote {} rekeyedSteps := by
    refine ⟨trivial,?_,trivial,?_,trivial⟩
    · change CacheMap.BelowCapacity _
      decide
    · change CacheMap.BelowCapacity _
      decide
  exact ⟨knownVotes_of_regular sampleContext.hashVote rekeyedSteps hregular 4,by decide,by decide⟩

/-- A vote that was dropped with its masternode stays known, and a vote that waited for its
masternode is stored and not known. -/
theorem knownVotes_fail :
    ((run sampleContext.hashVote {} clearedSteps).cmapVoteToObject.hasKey receivedHash=true ∧
      haveVoteForHash (run sampleContext.hashVote {} clearedSteps) receivedHash=false ∧
      (∃ govobj, (run sampleContext.hashVote {} clearedSteps).mapObjects.find 5=some govobj ∧
        govobj.accepts (presentView.voteContext true) receivedVote.1=true) ∧
      (GovernanceManager.processVote presentView (run sampleContext.hashVote {} clearedSteps)
        receivedVote.1).1=false ∧
      ¬KnownVotes sampleContext.hashVote (run sampleContext.hashVote {} clearedSteps)) ∧
    (Holds (run sampleContext.hashVote {} waitedSteps) 5 receivedHash ∧
      (run sampleContext.hashVote {} waitedSteps).cmapVoteToObject.hasKey receivedHash=false ∧
      haveVoteForHash (run sampleContext.hashVote {} waitedSteps) receivedHash=false ∧
      ¬KnownVotes sampleContext.hashVote (run sampleContext.hashVote {} waitedSteps)) := by
  have haccepts : ((run sampleContext.hashVote {} clearedSteps).mapObjects.find 5).any
      (fun govobj => govobj.accepts (presentView.voteContext true) receivedVote.1)=true := by decide
  have hstored : ((run sampleContext.hashVote {} waitedSteps).mapObjects.find 5).any
      (fun govobj => govobj.fileVotes.hasVote receivedHash)=true := by decide
  have hdropped : ∀ entry∈(run sampleContext.hashVote {} clearedSteps).mapObjects.entries,
      entry.2.fileVotes.hasVote receivedHash=false := by decide
  have hknown : (run sampleContext.hashVote {} clearedSteps).cmapVoteToObject.hasKey
      receivedHash=true := by decide
  have hunknown : (run sampleContext.hashVote {} waitedSteps).cmapVoteToObject.hasKey
      receivedHash=false := by decide
  have hholds : Holds (run sampleContext.hashVote {} waitedSteps) 5 receivedHash :=
    (Option.any_eq_true _ _).mp hstored
  refine ⟨⟨hknown,by decide,(Option.any_eq_true _ _).mp haccepts,by decide,?_⟩,
    hholds,hunknown,by decide,?_⟩
  · intro h
    obtain ⟨nGovobj,govobj,hfind,hvote⟩ := (h.keys receivedHash).mp hknown
    rw [hdropped _ ((mem_entries_iff _ _ _).mpr hfind)] at hvote
    cases hvote
  · intro h
    rw [(h.keys receivedHash).mpr ⟨5,hholds⟩] at hunknown
    cases hunknown

end Pyrk.VoteIndex
