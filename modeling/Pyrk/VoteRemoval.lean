import Pyrk.VoteOrder

/-!
# Votes that leave an object

Votes leave the file of an object with their masternode, when they are no longer valid, or too old,
and the records lose the votes that count.
-/

namespace Pyrk.GovernanceObject

open Transaction VoteOrder OrderedMap Option CGovernanceObjectVoteFile CGovernanceObject

section Definitions

variable (ctx : VoteContext)

namespace CGovernanceObjectVoteFile

def pickedHashes (file : CGovernanceObjectVoteFile) (pick : CGovernanceVote → Bool) :
    List Uint256 :=
  (file.listVotes.filter pick).map (getHash ctx)

/-- Drop the votes that a test picks. -/
def removeVotes (file : CGovernanceObjectVoteFile) (pick : CGovernanceVote → Bool) :
    CGovernanceObjectVoteFile where
  nMemoryVotes := file.nMemoryVotes-(file.listVotes.countP pick : ℕ)
  listVotes := file.listVotes.filter (fun vote => !pick vote)
  mapVoteIndex := (file.pickedHashes ctx pick).foldl OrderedMap.erase file.mapVoteIndex

def removeVotesFromMasternode (file : CGovernanceObjectVoteFile)
    (outpointMasternode : COutPoint) : CGovernanceObjectVoteFile :=
  file.removeVotes ctx (fun vote => vote.masternodeOutpoint=outpointMasternode)

/-- Funding vote of a masternode that its voting key did not sign. -/
def isInvalidProposalVote (outpointMasternode : COutPoint) (vote : CGovernanceVote) : Bool :=
  vote.getSignal=voteSignalFunding && vote.masternodeOutpoint=outpointMasternode &&
    !isValid ctx true vote

/-- Drop the funding votes of a masternode that are not valid, and tell their hashes. -/
def removeInvalidProposalVotes (file : CGovernanceObjectVoteFile)
    (outpointMasternode : COutPoint) : List Uint256×CGovernanceObjectVoteFile :=
  let pick := isInvalidProposalVote ctx outpointMasternode
  (file.pickedHashes ctx pick,file.removeVotes ctx pick)

/-- Drop the votes before a time, and tell their hashes. -/
def removeOldVotes (file : CGovernanceObjectVoteFile) (nMinTime : ℕ) :
    List Uint256×CGovernanceObjectVoteFile :=
  let pick := fun vote : CGovernanceVote => decide (vote.nTime < (nMinTime : ℤ))
  (file.pickedHashes ctx pick,file.removeVotes ctx pick)

/-- The vote with a hash, as it is sent to a peer. -/
def serializeVote (file : CGovernanceObjectVoteFile) (nHash : Uint256) : Option CGovernanceVote :=
  file.mapVoteIndex.find nHash

/-- The list and the map of a file agree. -/
structure Consistent (hashOf : CGovernanceVote → Uint256) (file : CGovernanceObjectVoteFile) :
    Prop where
  indexed : ∀ nHash vote, file.mapVoteIndex.find nHash=some vote ↔
    vote∈file.listVotes ∧ hashOf vote=nHash
  distinct : (file.listVotes.map hashOf).Nodup
  counted : file.nMemoryVotes=file.listVotes.length

end CGovernanceObjectVoteFile

/-- Value of an enumeration as a signed integer. -/
def enumToInt (value : ℕ) : ℤ := Int.bmod value (2^32)

def recordedVote (mnOutpoint : COutPoint) (nParentHash : Uint256) (eSignal : ℕ)
    (entry : VoteInstance) : CGovernanceVote where
  nVoteSignal := enumToInt eSignal
  masternodeOutpoint := mnOutpoint
  nParentHash := nParentHash
  nVoteOutcome := enumToInt entry.eOutcome
  nTime := entry.nCreationTime
  vchSig := []

namespace CGovernanceObject

def clearMasternodeVotes (obj : CGovernanceObject) : CGovernanceObject :=
  let gone := obj.mapCurrentMNVotes.entries.filter (fun entry => !ctx.has entry.1)
  { obj with
    fileVotes := gone.foldl (fun file entry => file.removeVotesFromMasternode ctx entry.1)
      obj.fileVotes
    mapCurrentMNVotes := obj.mapCurrentMNVotes.filter (fun entry => ctx.has entry.1) }

/-- Records of a masternode without the votes whose hashes were removed. -/
def keptInstances (obj : CGovernanceObject) (mnOutpoint : COutPoint)
    (removedVotes : List Uint256) (record : VoteInstanceMap) : VoteInstanceMap :=
  record.filter (fun entry => !removedVotes.contains
    (getHash ctx (recordedVote mnOutpoint obj.hash entry.1 entry.2)))

/-- Store the records of a masternode, or forget it when none are left. -/
def storeRecord (votes : VoteMap) (mnOutpoint : COutPoint) (record : VoteInstanceMap) : VoteMap :=
  if record.entries.isEmpty then votes.erase mnOutpoint else votes.set mnOutpoint record

/-- Drop the funding votes of a masternode on a proposal that are not valid any more. -/
def removeInvalidProposalVotes (obj : CGovernanceObject) (mnOutpoint : COutPoint) :
    List Uint256×CGovernanceObject :=
  if obj.nObjectType≠.proposal then ([],obj)
  else
    match obj.mapCurrentMNVotes.find mnOutpoint with
    | none => ([],obj)
    | some record =>
      let removed := obj.fileVotes.removeInvalidProposalVotes ctx mnOutpoint
      if removed.1.isEmpty then ([],{ obj with fileVotes := removed.2 })
      else
        (removed.1,{ obj with
          fileVotes := removed.2
          mapCurrentMNVotes := storeRecord obj.mapCurrentMNVotes mnOutpoint
            (keptInstances ctx obj mnOutpoint removed.1 record)
          fDirtyCache := true })

/-- Records without the votes before a time. -/
def recentRecords (votes : VoteMap) (nMinTime : ℕ) : VoteMap :=
  (votes.mapValues (fun record =>
    record.filter (fun entry => !decide (entry.2.nCreationTime < (nMinTime : ℤ))))).filter
      (fun entry => !entry.2.entries.isEmpty)

/-- Drop the votes before a time. -/
def removeOldVotes (obj : CGovernanceObject) (nMinTime : ℕ) : List Uint256×CGovernanceObject :=
  let removed := obj.fileVotes.removeOldVotes ctx nMinTime
  (removed.1,{ obj with
    fileVotes := removed.2
    mapCurrentMNVotes := recentRecords obj.mapCurrentMNVotes nMinTime
    fDirtyCache := !removed.1.isEmpty || obj.fDirtyCache })

/-- Whether an object takes a vote. -/
def accepts (obj : CGovernanceObject) (vote : CGovernanceVote) : Bool :=
  !obj.fileVotes.hasVote (getHash ctx vote) && ctx.has vote.masternodeOutpoint &&
    decide (Supported vote.getSignal) &&
    (checkVote ctx obj
      ((voteInstance obj.mapCurrentMNVotes vote.masternodeOutpoint vote.getSignal).getD {})
      vote).isNone

end CGovernanceObject

end Definitions

section File

open CGovernanceObjectVoteFile

variable {ctx : VoteContext} {file : CGovernanceObjectVoteFile}
  {hashOf : CGovernanceVote → Uint256}

theorem consistent_empty : Consistent hashOf {} := by
  refine ⟨?_,List.nodup_nil,rfl⟩
  intro nHash vote
  simp

theorem CGovernanceObjectVoteFile.Consistent.hasVote_iff (h : Consistent hashOf file)
    (nHash : Uint256) : file.hasVote nHash=true ↔ ∃ vote∈file.listVotes, hashOf vote=nHash := by
  unfold hasVote
  rw [contains_iff]
  exact exists_congr (fun vote => h.indexed nHash vote)

theorem CGovernanceObjectVoteFile.Consistent.addVote (h : Consistent (getHash ctx) file)
    {vote : CGovernanceVote} (hnew : file.hasVote (getHash ctx vote)=false) :
    Consistent (getHash ctx) (file.addVote ctx vote) := by
  have hnone := (contains_eq_false _ _).mp hnew
  have hfresh : ∀ other∈file.listVotes, getHash ctx other≠getHash ctx vote := by
    intro other hm heq
    rw [(h.indexed _ other).mpr ⟨hm,heq⟩] at hnone
    cases hnone
  unfold CGovernanceObjectVoteFile.addVote
  rw [if_neg (by rw [hnew]; exact Bool.false_ne_true)]
  refine ⟨?_,?_,?_⟩
  · intro nHash other
    rw [find_emplace,hnone,getD_none,List.mem_cons]
    by_cases hkey : nHash=getHash ctx vote
    · grind
    · rw [if_neg hkey,h.indexed]
      grind
  · rw [List.map_cons,List.nodup_cons]
    refine ⟨?_,h.distinct⟩
    intro hm
    obtain ⟨other,hother,heq⟩ := List.mem_map.mp hm
    exact hfresh other hother heq
  · have hcount := h.counted
    dsimp only
    rw [List.length_cons]
    omega

variable {pick : CGovernanceVote → Bool}

theorem removeVotes_of_none
    (hnone : ∀ vote∈file.listVotes, pick vote=false) : file.removeVotes ctx pick=file := by
  have hpicked : file.listVotes.filter pick=[] := by
    rw [List.filter_eq_nil_iff]
    intro vote hm
    rw [hnone vote hm]
    exact Bool.false_ne_true
  have hkept : file.listVotes.filter (fun vote => !pick vote)=file.listVotes := by
    rw [List.filter_eq_self]
    intro vote hm
    rw [hnone vote hm]
    rfl
  have hcount : file.listVotes.countP pick=0 := by
    rw [List.countP_eq_length_filter,hpicked,List.length_nil]
  unfold removeVotes pickedHashes
  rw [hpicked,hkept,hcount,Nat.cast_zero,Int.sub_zero]
  rfl

theorem CGovernanceObjectVoteFile.Consistent.mem_pickedHashes
    (h : Consistent (getHash ctx) file) (pick : CGovernanceVote → Bool)
    {vote : CGovernanceVote} (hm : vote∈file.listVotes) :
    getHash ctx vote∈file.pickedHashes ctx pick ↔ pick vote=true := by
  unfold pickedHashes
  rw [List.mem_map]
  constructor
  · rintro ⟨other,hother,heq⟩
    obtain ⟨hlist,hpick⟩ := List.mem_filter.mp hother
    rwa [← List.inj_on_of_nodup_map h.distinct hlist hm heq]
  · intro hpick
    exact ⟨vote,List.mem_filter.mpr ⟨hm,hpick⟩,rfl⟩

theorem CGovernanceObjectVoteFile.Consistent.removeVotes (h : Consistent (getHash ctx) file)
    (pick : CGovernanceVote → Bool) :
    Consistent (getHash ctx) (file.removeVotes ctx pick) := by
  refine ⟨?_,?_,?_⟩
  · intro nHash vote
    unfold CGovernanceObjectVoteFile.removeVotes
    rw [find_foldl_erase,List.mem_filter]
    split_ifs with hpicked
    · constructor
      · intro hnone
        cases hnone
      · rintro ⟨⟨hm,hkeep⟩,rfl⟩
        rw [(h.mem_pickedHashes pick hm).mp hpicked] at hkeep
        cases hkeep
    · rw [h.indexed]
      constructor
      · rintro ⟨hm,rfl⟩
        refine ⟨⟨hm,?_⟩,rfl⟩
        rw [h.mem_pickedHashes pick hm,Bool.not_eq_true] at hpicked
        rw [hpicked]
        rfl
      · rintro ⟨⟨hm,-⟩,heq⟩
        exact ⟨hm,heq⟩
  · exact (List.filter_sublist.map _).nodup h.distinct
  · have hcount := h.counted
    have hlen := List.length_eq_countP_add_countP pick (l := file.listVotes)
    unfold CGovernanceObjectVoteFile.removeVotes
    rw [hcount,hlen,← List.countP_eq_length_filter]
    simp only [Bool.not_eq_true,Bool.decide_eq_false]
    omega

theorem CGovernanceObjectVoteFile.Consistent.hasVote_removeVotes
    (h : Consistent (getHash ctx) file) (pick : CGovernanceVote → Bool) (nHash : Uint256) :
    (file.removeVotes ctx pick).hasVote nHash=true ↔
      file.hasVote nHash=true ∧ nHash∉file.pickedHashes ctx pick := by
  rw [(h.removeVotes pick).hasVote_iff,h.hasVote_iff]
  constructor
  · rintro ⟨vote,hm,rfl⟩
    obtain ⟨hlist,hkeep⟩ := List.mem_filter.mp hm
    refine ⟨⟨vote,hlist,rfl⟩,?_⟩
    rw [h.mem_pickedHashes pick hlist]
    intro hpick
    rw [hpick] at hkeep
    cases hkeep
  · rintro ⟨⟨vote,hlist,rfl⟩,hnot⟩
    refine ⟨vote,List.mem_filter.mpr ⟨hlist,?_⟩,rfl⟩
    rw [h.mem_pickedHashes pick hlist,Bool.not_eq_true] at hnot
    rw [hnot]
    rfl

theorem CGovernanceObjectVoteFile.Consistent.hasVote_of_picked
    (h : Consistent (getHash ctx) file) {nHash : Uint256}
    (hm : nHash∈file.pickedHashes ctx pick) : file.hasVote nHash=true := by
  obtain ⟨vote,hvote,rfl⟩ := List.mem_map.mp hm
  exact (h.hasVote_iff _).mpr ⟨vote,(List.mem_filter.mp hvote).1,rfl⟩

end File

section Vote

variable {ctx : VoteContext} {obj : CGovernanceObject} {vote : CGovernanceVote}

variable (votes : VoteMap)

theorem voteInstance_emplace_empty (mnOutpoint outpoint : COutPoint)
    (eSignal : ℕ) : voteInstance (votes.emplace mnOutpoint .empty) outpoint eSignal=
      voteInstance votes outpoint eSignal := by
  unfold voteInstance
  rw [find_emplace]
  by_cases hsame : outpoint=mnOutpoint
  · subst hsame
    rw [if_pos rfl,bind_some]
    cases votes.find outpoint <;> rfl
  · rw [if_neg hsame]

theorem voteInstance_set (mnOutpoint outpoint : COutPoint) (signal eSignal : ℕ)
    (entry : VoteInstance) :
    voteInstance (votes.set mnOutpoint
        (((votes.find mnOutpoint).getD .empty).set signal entry)) outpoint eSignal=
      if outpoint=mnOutpoint ∧ eSignal=signal then some entry
      else voteInstance votes outpoint eSignal := by
  unfold voteInstance
  rw [find_set]
  by_cases hsame : outpoint=mnOutpoint
  · subst hsame
    rw [if_pos rfl,bind_some,find_set]
    simp only [true_and]
    split_ifs
    · rfl
    · cases votes.find outpoint <;> rfl
  · simp only [hsame,false_and,if_false]

theorem emplaceInstance_set (outpoint : COutPoint) (eSignal : ℕ) :
    emplaceInstance (votes.emplace outpoint .empty) outpoint eSignal=
      votes.set outpoint (((votes.find outpoint).getD .empty).set eSignal
        ((voteInstance votes outpoint eSignal).getD {})) := by
  rw [emplaceInstance_eq]
  refine congrArg _ (ext_find (fun key => ?_))
  rw [find_emplace,find_set]
  unfold voteInstance
  cases votes.find outpoint <;> rfl

theorem voteInstance_emplaced (mnOutpoint outpoint : COutPoint) (signal eSignal : ℕ) :
    voteInstance (emplaceInstance (votes.emplace mnOutpoint .empty) mnOutpoint signal)
        outpoint eSignal=
      if outpoint=mnOutpoint ∧ eSignal=signal then
        some ((voteInstance votes mnOutpoint signal).getD {})
      else voteInstance votes outpoint eSignal := by
  rw [emplaceInstance_set,voteInstance_set]

/-- What a vote that is not taken changes. -/
structure Rejected (obj : CGovernanceObject) (vote : CGovernanceVote)
    (after : CGovernanceObject) : Prop where
  file : after.fileVotes=obj.fileVotes
  hash : after.hash=obj.hash
  type : after.nObjectType=obj.nObjectType
  records : ∀ outpoint eSignal, voteInstance after.mapCurrentMNVotes outpoint eSignal=
        voteInstance obj.mapCurrentMNVotes outpoint eSignal ∨
      voteInstance obj.mapCurrentMNVotes outpoint eSignal=none ∧
        voteInstance after.mapCurrentMNVotes outpoint eSignal=some {}
  waiting : ∀ item∈after.cmmapOrphanVotes.listItems,
    item∈obj.cmmapOrphanVotes.listItems ∨ item.2.1=vote

/-- What a vote that is taken changes. -/
structure Accepted (ctx : VoteContext) (obj : CGovernanceObject) (vote : CGovernanceVote)
    (after : CGovernanceObject) : Prop where
  fresh : obj.fileVotes.hasVote (getHash ctx vote)=false
  file : after.fileVotes=obj.fileVotes.addVote ctx vote
  hash : after.hash=obj.hash
  type : after.nObjectType=obj.nObjectType
  notOlder : ((voteInstance obj.mapCurrentMNVotes vote.masternodeOutpoint
    vote.getSignal).getD {}).nCreationTime ≤ vote.nTime
  records : ∀ outpoint eSignal, voteInstance after.mapCurrentMNVotes outpoint eSignal=
    if outpoint=vote.masternodeOutpoint ∧ eSignal=vote.getSignal then
      some (takenInstance ctx ((voteInstance obj.mapCurrentMNVotes vote.masternodeOutpoint
        vote.getSignal).getD {}) vote)
    else voteInstance obj.mapCurrentMNVotes outpoint eSignal
  waiting : after.cmmapOrphanVotes=obj.cmmapOrphanVotes

theorem notOlder_of_checkVote {entry : VoteInstance}
    (h : checkVote ctx obj entry vote=none) : entry.nCreationTime ≤ vote.nTime := by
  unfold checkVote at h
  split_ifs at h with hobsolete
  all_goals omega

theorem processVote_accepted (h : obj.accepts ctx vote=true) :
    (processVote ctx obj vote).ok=true ∧
      Accepted ctx obj vote (processVote ctx obj vote).obj := by
  unfold accepts at h
  simp only [Bool.and_eq_true,Bool.not_eq_true',decide_eq_true_eq,isNone_iff_eq_none] at h
  obtain ⟨⟨⟨hfresh,hhas⟩,hsupp⟩,hcheck⟩ := h
  have hentry := voteInstance_emplaced obj.mapCurrentMNVotes vote.masternodeOutpoint
    vote.masternodeOutpoint vote.getSignal vote.getSignal
  rw [if_pos ⟨rfl,rfl⟩] at hentry
  have hres : processVote ctx obj vote=⟨none,{ obj with
      mapCurrentMNVotes := setInstance (emplaceInstance (obj.mapCurrentMNVotes.emplace
        vote.masternodeOutpoint .empty) vote.masternodeOutpoint vote.getSignal)
        vote.masternodeOutpoint vote.getSignal (takenInstance ctx
          ((voteInstance obj.mapCurrentMNVotes vote.masternodeOutpoint vote.getSignal).getD {})
          vote)
      fileVotes := obj.fileVotes.addVote ctx vote
      fDirtyCache := true }⟩ := by
    unfold processVote
    dsimp only
    rw [hfresh,hhas,if_neg Bool.false_ne_true,if_neg (by decide),if_neg hsupp.1,
      if_neg (Nat.not_lt.mpr hsupp.2),hentry,getD_some,hcheck]
  rw [hres]
  refine ⟨rfl,hfresh,rfl,rfl,rfl,notOlder_of_checkVote hcheck,?_,rfl⟩
  intro outpoint eSignal
  rw [setInstance_eq,voteInstance_set]

theorem processVote_rejected (h : obj.accepts ctx vote=false) :
    (processVote ctx obj vote).ok=false ∧
      Rejected obj vote (processVote ctx obj vote).obj := by
  have hentry := voteInstance_emplaced obj.mapCurrentMNVotes vote.masternodeOutpoint
    vote.masternodeOutpoint vote.getSignal vote.getSignal
  rw [if_pos ⟨rfl,rfl⟩] at hentry
  unfold processVote
  dsimp only
  rw [hentry,getD_some]
  split_ifs with hknown hhas hnone hmany
  · exact ⟨rfl,rfl,rfl,rfl,fun _ _ => .inl rfl,fun _ hm => .inl hm⟩
  · refine ⟨rfl,rfl,rfl,rfl,fun _ _ => .inl rfl,?_⟩
    intro item hm
    rcases CacheMultiMap.mem_insert ltVoteTime hm with rfl | hold
    · exact .inr rfl
    · exact .inl hold
  · exact ⟨rfl,rfl,rfl,rfl,fun _ _ => .inl (voteInstance_emplace_empty _ _ _ _),fun _ hm => .inl hm⟩
  · exact ⟨rfl,rfl,rfl,rfl,fun _ _ => .inl (voteInstance_emplace_empty _ _ _ _),fun _ hm => .inl hm⟩
  · cases hcheck : checkVote ctx obj
      ((voteInstance obj.mapCurrentMNVotes vote.masternodeOutpoint vote.getSignal).getD {})
      vote with
    | some error =>
      refine ⟨rfl,rfl,rfl,rfl,?_,fun _ hm => .inl hm⟩
      intro outpoint eSignal
      rw [voteInstance_emplaced]
      split_ifs with hkey
      · obtain ⟨rfl,rfl⟩ := hkey
        cases voteInstance obj.mapCurrentMNVotes vote.masternodeOutpoint vote.getSignal with
        | none => exact .inr ⟨rfl,rfl⟩
        | some entry => exact .inl rfl
      · exact .inl rfl
    | none =>
      have haccepts : obj.accepts ctx vote=true := by
        unfold accepts
        rw [Bool.not_eq_true] at hknown
        rw [Bool.not_eq_true,Bool.not_eq_false'] at hhas
        rw [hcheck,hknown,hhas,decide_eq_true (show Supported vote.getSignal from
          ⟨hnone,Nat.not_lt.mp hmany⟩)]
        rfl
      rw [h] at haccepts
      cases haccepts

theorem ok_processVote (obj : CGovernanceObject) (vote : CGovernanceVote) :
    (processVote ctx obj vote).ok=obj.accepts ctx vote := by
  cases h : obj.accepts ctx vote with
  | true => exact (processVote_accepted h).1
  | false => exact (processVote_rejected h).1

theorem Rejected.accepts_eq {after : CGovernanceObject} (h : Rejected obj vote after)
    (other : CGovernanceVote) : after.accepts ctx other=obj.accepts ctx other := by
  have hentry : (voteInstance after.mapCurrentMNVotes other.masternodeOutpoint
      other.getSignal).getD {}=(voteInstance obj.mapCurrentMNVotes other.masternodeOutpoint
        other.getSignal).getD {} := by
    rcases h.records other.masternodeOutpoint other.getSignal with heq | ⟨hnone,hempty⟩
    · rw [heq]
    · rw [hnone,hempty]
      rfl
  unfold accepts checkVote onlyVotingKeyAllowed
  rw [hentry,h.file,h.type]

end Vote

variable {ctx : VoteContext} {obj : CGovernanceObject}

theorem votes_updateSentinelVariables (ctx : VoteContext) (obj : CGovernanceObject) :
    (updateSentinelVariables ctx obj).hash=obj.hash ∧
      (updateSentinelVariables ctx obj).nObjectType=obj.nObjectType ∧
      (updateSentinelVariables ctx obj).mapCurrentMNVotes=obj.mapCurrentMNVotes ∧
      (updateSentinelVariables ctx obj).cmmapOrphanVotes=obj.cmmapOrphanVotes ∧
      (updateSentinelVariables ctx obj).fileVotes=obj.fileVotes := by
  unfold updateSentinelVariables
  split_ifs
  · exact ⟨rfl,rfl,rfl,rfl,rfl⟩
  · exact ⟨rfl,rfl,rfl,rfl,rfl⟩

/-- What an object is when it lost votes. -/
structure Removed (ctx : VoteContext) (obj : CGovernanceObject)
    (removed : List Uint256×CGovernanceObject) : Prop where
  hash : removed.2.hash=obj.hash
  type : removed.2.nObjectType=obj.nObjectType
  waiting : removed.2.cmmapOrphanVotes=obj.cmmapOrphanVotes
  /-- The votes whose hashes are told are dropped from the file. -/
  file : ∃ pick, removed.1=obj.fileVotes.pickedHashes ctx pick ∧
    removed.2.fileVotes=obj.fileVotes.removeVotes ctx pick

theorem removed_none (ctx : VoteContext) (obj : CGovernanceObject) :
    Removed ctx obj ([],obj) := by
  refine ⟨rfl,rfl,rfl,fun _ => false,?_,?_⟩
  · unfold pickedHashes
    rw [List.filter_false,List.map_nil]
  · exact (removeVotes_of_none (fun _ _ => rfl)).symm

theorem removed_removeInvalidProposalVotes (ctx : VoteContext) (obj : CGovernanceObject)
    (mnOutpoint : COutPoint) :
    Removed ctx obj (obj.removeInvalidProposalVotes ctx mnOutpoint) := by
  unfold CGovernanceObject.removeInvalidProposalVotes
  by_cases htype : obj.nObjectType≠.proposal
  · rw [if_pos htype]
    exact removed_none ctx obj
  · rw [if_neg htype]
    cases obj.mapCurrentMNVotes.find mnOutpoint with
    | none => exact removed_none ctx obj
    | some record =>
      dsimp only
      split_ifs with hempty
      · exact ⟨rfl,rfl,rfl,_,(List.isEmpty_iff.mp hempty).symm,rfl⟩
      · exact ⟨rfl,rfl,rfl,_,rfl,rfl⟩

theorem removed_removeOldVotes (ctx : VoteContext) (obj : CGovernanceObject)
    (nMinTime : ℕ) : Removed ctx obj (obj.removeOldVotes ctx nMinTime) :=
  ⟨rfl,rfl,rfl,_,rfl,rfl⟩

theorem mem_clearMasternodeVotes (ctx : VoteContext) (obj : CGovernanceObject)
    (vote : CGovernanceVote) :
    vote∈(obj.clearMasternodeVotes ctx).fileVotes.listVotes ↔
      vote∈obj.fileVotes.listVotes ∧
        (obj.mapCurrentMNVotes.contains vote.masternodeOutpoint=true →
          ctx.has vote.masternodeOutpoint=true) := by
  have hlist : ∀ (gone : List (COutPoint×VoteInstanceMap)) (file : CGovernanceObjectVoteFile),
      vote∈(gone.foldl (fun file entry => file.removeVotesFromMasternode ctx entry.1)
          file).listVotes ↔
        vote∈file.listVotes ∧ ∀ entry∈gone, vote.masternodeOutpoint≠entry.1 := by
    intro gone
    induction gone with
    | nil => simp
    | cons entry gone ih =>
      intro file
      rw [List.foldl_cons,ih,List.forall_mem_cons,← and_assoc]
      refine and_congr_left (fun _ => ?_)
      unfold removeVotesFromMasternode CGovernanceObjectVoteFile.removeVotes
      rw [List.mem_filter,Bool.not_eq_true',decide_eq_false_iff_not]
  unfold clearMasternodeVotes
  rw [hlist]
  refine and_congr_right (fun _ => ?_)
  constructor
  · intro hnot hcontains
    obtain ⟨record,hfind⟩ := (contains_iff _ _).mp hcontains
    by_contra hgone
    refine hnot (vote.masternodeOutpoint,record) (List.mem_filter.mpr ⟨?_,?_⟩) rfl
    · exact (obj.mapCurrentMNVotes.mem_entries_iff _ _).mpr hfind
    · rw [Bool.not_eq_true] at hgone
      rw [hgone]
      rfl
  · intro hhas entry hm heq
    obtain ⟨hentry,hgone⟩ := List.mem_filter.mp hm
    have hfind := (obj.mapCurrentMNVotes.mem_entries_iff entry.1 entry.2).mp hentry
    have hpresent := hhas ((contains_iff _ _).mpr ⟨entry.2,by rw [heq]; exact hfind⟩)
    rw [← heq,hpresent] at hgone
    cases hgone

/-- The file has no vote of a recorded masternode that is gone. -/
def Spared (ctx : VoteContext) (obj : CGovernanceObject) : Prop :=
  ∀ vote∈obj.fileVotes.listVotes,
    obj.mapCurrentMNVotes.contains vote.masternodeOutpoint=true →
      ctx.has vote.masternodeOutpoint=true

instance (ctx : VoteContext) (obj : CGovernanceObject) : Decidable (Spared ctx obj) :=
  inferInstanceAs (Decidable (∀ vote∈_, _ → _))

theorem Spared.fileVotes_eq (h : Spared ctx obj) :
    (obj.clearMasternodeVotes ctx).fileVotes=obj.fileVotes := by
  have hlist : ∀ gone : List (COutPoint×VoteInstanceMap),
      (∀ entry∈gone, ∀ vote∈obj.fileVotes.listVotes, vote.masternodeOutpoint≠entry.1) →
      gone.foldl (fun file entry => file.removeVotesFromMasternode ctx entry.1)
        obj.fileVotes=obj.fileVotes := by
    intro gone
    induction gone with
    | nil => exact fun _ => rfl
    | cons entry gone ih =>
      intro hgone
      rw [List.foldl_cons]
      have hsame : obj.fileVotes.removeVotesFromMasternode ctx entry.1=obj.fileVotes :=
        removeVotes_of_none (fun vote hm =>
          decide_eq_false (hgone entry List.mem_cons_self vote hm))
      rw [hsame]
      exact ih (fun other hm => hgone other (List.mem_cons_of_mem _ hm))
  refine hlist _ ?_
  intro entry hm vote hvote heq
  obtain ⟨hentry,hgone⟩ := List.mem_filter.mp hm
  have hfind := (obj.mapCurrentMNVotes.mem_entries_iff entry.1 entry.2).mp hentry
  have hpresent := h vote hvote ((contains_iff _ _).mpr ⟨entry.2,by rw [heq]; exact hfind⟩)
  rw [heq] at hpresent
  rw [hpresent] at hgone
  cases hgone

theorem Spared.again (h : Spared ctx obj) :
    Spared ctx (obj.clearMasternodeVotes ctx) := by
  intro vote hm hcontains
  rw [h.fileVotes_eq] at hm
  refine h vote hm ?_
  rw [contains_iff] at hcontains ⊢
  obtain ⟨record,hfind⟩ := hcontains
  unfold clearMasternodeVotes at hfind
  rw [find_filter] at hfind
  exact ⟨record,(filter_eq_some_iff.mp hfind).1⟩

end Pyrk.GovernanceObject
