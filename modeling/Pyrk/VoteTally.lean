import Pyrk.GovernanceRuns

/-!
# Counted votes and stored votes

A vote on record is in the file and is the latest one there, as long as no vote leaves the record
while one for the same signal stays in the file.
-/

namespace Pyrk.VoteTally

open Option Bool

open Transaction GovernanceObject GovernanceManager GovernanceRuns VoteOrder OrderedMap List

/-- A vote is one of a masternode for a signal. -/
def VoteOf (outpoint : COutPoint) (eSignal : ℕ) (vote : CGovernanceVote) : Prop :=
  vote.masternodeOutpoint=outpoint ∧ vote.getSignal=eSignal

/-- Votes on record with an outcome are backed by the file, and they are the
latest ones there. -/
structure CountedBacked (obj : CGovernanceObject) : Prop where
  backed : ∀ outpoint eSignal entry,
    voteInstance obj.mapCurrentMNVotes outpoint eSignal=some entry →
    entry.eOutcome≠voteOutcomeNone → ∃ vote∈obj.fileVotes.listVotes,
      VoteOf outpoint eSignal vote ∧ vote.getOutcome=entry.eOutcome ∧ vote.nTime=entry.nCreationTime
  newest : ∀ outpoint eSignal entry,
    voteInstance obj.mapCurrentMNVotes outpoint eSignal=some entry →
    entry.eOutcome≠voteOutcomeNone → ∀ vote∈obj.fileVotes.listVotes,
      VoteOf outpoint eSignal vote → vote.nTime≤entry.nCreationTime

/-- A vote on a stored object as it is received. -/
def OnObject (nHash : Uint256) (vote : CGovernanceVote) : Prop :=
  vote.nParentHash=nHash ∧ OnWire vote

/-- Records and file of a stored object agree. -/
structure Tallied (nHash : Uint256) (obj : CGovernanceObject) : Prop where
  hash : obj.hash=nHash
  stored : ∀ vote∈obj.fileVotes.listVotes, OnObject nHash vote
  waiting : ∀ item∈obj.cmmapOrphanVotes.listItems, OnObject nHash item.2.1
  /-- A vote on record with an outcome is in the file. -/
  backed : ∀ outpoint eSignal entry,
    voteInstance obj.mapCurrentMNVotes outpoint eSignal=some entry →
    entry.eOutcome≠voteOutcomeNone → ∃ vote∈obj.fileVotes.listVotes,
      VoteOf outpoint eSignal vote ∧ vote.getOutcome=entry.eOutcome ∧ vote.nTime=entry.nCreationTime
  /-- A vote in the file has a record that is not earlier. -/
  recorded : ∀ vote∈obj.fileVotes.listVotes, ∃ entry,
    voteInstance obj.mapCurrentMNVotes vote.masternodeOutpoint vote.getSignal=some entry ∧
      vote.nTime≤entry.nCreationTime

/-- When the vote on record is among the dropped ones, no vote of the masternode
for the signal stays. -/
def KeepsRecords (ctx : VoteContext) (obj : CGovernanceObject) (outpoint : COutPoint) :
    Prop :=
  obj.nObjectType=.proposal → ∀ eSignal entry,
    voteInstance obj.mapCurrentMNVotes outpoint eSignal=some entry →
    getHash ctx (recordedVote outpoint obj.hash eSignal entry)∈
      obj.fileVotes.pickedHashes ctx
        (CGovernanceObjectVoteFile.isInvalidProposalVote ctx outpoint) →
    ∀ vote∈obj.fileVotes.listVotes, VoteOf outpoint eSignal vote →
      CGovernanceObjectVoteFile.isInvalidProposalVote ctx outpoint vote=true

/-- Dropping votes whose keys changed may not leave an earlier vote behind. -/
def TallySafe (ctx : GovernanceContext) (mgr : CGovernanceManager) :
    GovernanceAction → Prop
  | .removeInvalidProposalVotes changedKeyMNs => ∀ nHash obj,
    mgr.mapObjects.find nHash=some obj →
      ∀ outpoint∈changedKeyMNs, KeepsRecords ctx.vote obj outpoint
  | _ => True

/-- All stored objects are tallied. -/
def AllTallied (mgr : CGovernanceManager) : Prop :=
  ∀ nHash obj, mgr.mapObjects.find nHash=some obj → Tallied nHash obj

section Objects

variable {ctx : VoteContext} {nHash : Uint256} {obj after : CGovernanceObject}

theorem Tallied.countedBacked (h : Tallied nHash obj) : CountedBacked obj := by
  refine ⟨h.backed,?_⟩
  rintro outpoint eSignal entry hentry - vote hm ⟨rfl,rfl⟩
  obtain ⟨found,hfound,hle⟩ := h.recorded vote hm
  rw [hentry] at hfound
  cases hfound
  exact hle

theorem Tallied.congr (h : Tallied nHash obj) (hhash : after.hash=obj.hash)
    (hrecords : after.mapCurrentMNVotes=obj.mapCurrentMNVotes)
    (hfile : after.fileVotes=obj.fileVotes)
    (hwaiting : ∀ item∈after.cmmapOrphanVotes.listItems,
      item∈obj.cmmapOrphanVotes.listItems) : Tallied nHash after := by
  refine ⟨hhash.trans h.hash,?_,fun item hm => h.waiting item (hwaiting item hm),?_,?_⟩
  · rw [hfile]
    exact h.stored
  · rw [hrecords,hfile]
    exact h.backed
  · rw [hrecords,hfile]
    exact h.recorded

theorem tallied_new (hhash : obj.hash=nHash) (hrecords : obj.mapCurrentMNVotes=.empty)
    (hfile : obj.fileVotes={}) (hwaiting : obj.cmmapOrphanVotes.listItems=[]) :
    Tallied nHash obj := by
  refine ⟨hhash,?_,?_,?_,?_⟩
  · rw [hfile]
    exact fun _ hm => absurd hm not_mem_nil
  · rw [hwaiting]
    exact fun _ hm => absurd hm not_mem_nil
  · rw [hrecords]
    intro outpoint eSignal entry hentry
    cases hentry
  · rw [hfile]
    exact fun _ hm => absurd hm not_mem_nil

variable {vote : CGovernanceVote}

section

variable (h : Tallied nHash obj)

include h

theorem Tallied.rejected (hvote : OnObject nHash vote) (hrejected : Rejected obj vote after) :
    Tallied nHash after := by
  refine ⟨hrejected.hash.trans h.hash,?_,?_,?_,?_⟩
  · rw [hrejected.file]
    exact h.stored
  · intro item hm
    rcases hrejected.waiting item hm with hold | hnew
    · exact h.waiting item hold
    · rw [hnew]
      exact hvote
  · intro outpoint eSignal entry hentry houtcome
    rw [hrejected.file]
    rcases hrejected.records outpoint eSignal with hsame | ⟨-,hempty⟩
    · rw [hsame] at hentry
      exact h.backed outpoint eSignal entry hentry houtcome
    · rw [hempty] at hentry
      cases hentry
      exact absurd rfl houtcome
  · intro other hm
    rw [hrejected.file] at hm
    obtain ⟨entry,hentry,hle⟩ := h.recorded other hm
    refine ⟨entry,?_,hle⟩
    rcases hrejected.records other.masternodeOutpoint other.getSignal with hsame | ⟨hnone,-⟩
    · rw [hsame]
      exact hentry
    · rw [hnone] at hentry
      cases hentry

theorem Tallied.accepted (hvote : OnObject nHash vote) (hacc : Accepted ctx obj vote after) :
    Tallied nHash after := by
  have hlist : after.fileVotes.listVotes=vote::obj.fileVotes.listVotes := by
    rw [hacc.file]
    unfold CGovernanceObjectVoteFile.addVote
    rw [hacc.fresh,if_neg Bool.false_ne_true]
  have hrecords := hacc.records
  refine ⟨hacc.hash.trans h.hash,?_,?_,?_,?_⟩
  · rw [hlist]
    intro other hm
    rcases mem_cons.mp hm with rfl | hold
    · exact hvote
    · exact h.stored other hold
  · rw [hacc.waiting]
    exact h.waiting
  · intro outpoint eSignal entry hentry houtcome
    rw [hlist]
    rw [hrecords] at hentry
    split_ifs at hentry with hkey
    · cases hentry
      exact ⟨vote,mem_cons_self,⟨hkey.1.symm,hkey.2.symm⟩,rfl,rfl⟩
    · obtain ⟨other,hm,hfacts⟩ := h.backed outpoint eSignal entry hentry houtcome
      exact ⟨other,mem_cons_of_mem _ hm,hfacts⟩
  · rw [hlist]
    intro other hm
    rw [hrecords]
    rcases mem_cons.mp hm with rfl | hold
    · rw [if_pos ⟨rfl,rfl⟩]
      exact ⟨_,rfl,le_refl _⟩
    · obtain ⟨entry,hentry,hle⟩ := h.recorded other hold
      split_ifs with hkey
      · have hbefore := hacc.notOlder
        rw [← hkey.1,← hkey.2,hentry,getD_some] at hbefore
        exact ⟨_,rfl,hle.trans hbefore⟩
      · exact ⟨entry,hentry,hle⟩

theorem Tallied.processVote (ctx : VoteContext)
    {vote : CGovernanceVote}
    (hvote : OnObject nHash vote) :
    Tallied nHash (GovernanceObject.processVote ctx obj vote).obj := by
  cases haccepts : obj.accepts ctx vote with
  | true => exact h.accepted hvote (processVote_accepted haccepts).2
  | false => exact h.rejected hvote (processVote_rejected haccepts).2

theorem Tallied.remove (hhash : after.hash=obj.hash)
    (hwaiting : after.cmmapOrphanVotes=obj.cmmapOrphanVotes)
    (hfile : ∀ vote∈after.fileVotes.listVotes, vote∈obj.fileVotes.listVotes)
    (hrecords : ∀ outpoint eSignal entry,
      voteInstance after.mapCurrentMNVotes outpoint eSignal=some entry →
        voteInstance obj.mapCurrentMNVotes outpoint eSignal=some entry)
    (hbacked : ∀ outpoint eSignal entry,
      voteInstance after.mapCurrentMNVotes outpoint eSignal=some entry →
      ∀ vote∈obj.fileVotes.listVotes, VoteOf outpoint eSignal vote →
      vote.getOutcome=entry.eOutcome → vote.nTime=entry.nCreationTime →
        vote∈after.fileVotes.listVotes)
    (hkept : ∀ vote∈after.fileVotes.listVotes, ∀ entry,
      voteInstance obj.mapCurrentMNVotes vote.masternodeOutpoint vote.getSignal=some entry →
      vote.nTime≤entry.nCreationTime →
        voteInstance after.mapCurrentMNVotes vote.masternodeOutpoint vote.getSignal=some entry) :
    Tallied nHash after := by
  refine ⟨hhash.trans h.hash,fun vote hm => h.stored vote (hfile vote hm),?_,?_,?_⟩
  · rw [hwaiting]
    exact h.waiting
  · intro outpoint eSignal entry hentry houtcome
    obtain ⟨vote,hm,hof,heOutcome,htime⟩ :=
      h.backed outpoint eSignal entry (hrecords outpoint eSignal entry hentry) houtcome
    exact ⟨vote,hbacked outpoint eSignal entry hentry vote hm hof heOutcome htime,hof,heOutcome,
      htime⟩
  · intro vote hm
    obtain ⟨entry,hentry,hle⟩ := h.recorded vote (hfile vote hm)
    exact ⟨entry,hkept vote hm entry hentry hle,hle⟩

end

variable (votes : VoteMap)

theorem voteInstance_filter_has (has : COutPoint → Bool) (outpoint : COutPoint)
    (eSignal : ℕ) : voteInstance (votes.filter (fun entry => has entry.1)) outpoint eSignal=
      if has outpoint then voteInstance votes outpoint eSignal else none := by
  unfold voteInstance
  rw [find_filter]
  cases votes.find outpoint with
  | none => split_ifs <;> rfl
  | some record =>
    rw [filter_some]
    split_ifs <;> rfl

theorem Tallied.clearMasternodeVotes (h : Tallied nHash obj) (ctx : VoteContext) :
    Tallied nHash (obj.clearMasternodeVotes ctx) := by
  have hinst : ∀ outpoint eSignal,
      voteInstance (obj.clearMasternodeVotes ctx).mapCurrentMNVotes outpoint eSignal=
        if ctx.has outpoint then voteInstance obj.mapCurrentMNVotes outpoint eSignal
        else none :=
    voteInstance_filter_has obj.mapCurrentMNVotes ctx.has
  have hmem := mem_clearMasternodeVotes ctx obj
  refine h.remove rfl rfl (fun vote hm => ((hmem vote).mp hm).1) ?_ ?_ ?_
  · grind
  · rintro outpoint eSignal entry hentry vote hm ⟨rfl,-⟩ - -
    grind
  · intro vote hm entry hentry _
    obtain ⟨-,hhas⟩ := (hmem vote).mp hm
    have hcontains : obj.mapCurrentMNVotes.contains vote.masternodeOutpoint=true := by
      obtain ⟨record,hfind,-⟩ := bind_eq_some_iff.mp hentry
      exact (contains_iff _ _).mpr ⟨record,hfind⟩
    rw [hinst,if_pos (hhas hcontains)]
    exact hentry

theorem voteInstance_recentRecords (nMinTime : ℕ) (outpoint : COutPoint) (eSignal : ℕ) :
    voteInstance (CGovernanceObject.recentRecords votes nMinTime) outpoint eSignal=
      (voteInstance votes outpoint eSignal).filter
        (fun entry => !decide (entry.nCreationTime < (nMinTime : ℤ))) := by
  unfold voteInstance CGovernanceObject.recentRecords
  rw [find_filter,find_mapValues]
  cases votes.find outpoint with
  | none => rfl
  | some record =>
    rw [map_some,filter_some,bind_some,← find_filter record
      (fun entry => !decide (entry.2.nCreationTime < (nMinTime : ℤ)))]
    generalize record.filter (fun entry => !decide (entry.2.nCreationTime < (nMinTime : ℤ)))=kept
    cases hempty : kept.entries with
    | nil =>
      unfold OrderedMap.find
      rw [hempty]
      rfl
    | cons first rest => rfl

theorem Tallied.removeOldVotes (h : Tallied nHash obj) (nMinTime : ℕ) :
    Tallied nHash (obj.removeOldVotes ctx nMinTime).2 := by
  have hinst : ∀ outpoint eSignal,
      voteInstance (obj.removeOldVotes ctx nMinTime).2.mapCurrentMNVotes outpoint eSignal=
        (voteInstance obj.mapCurrentMNVotes outpoint eSignal).filter
          (fun entry => !decide (entry.nCreationTime < (nMinTime : ℤ))) :=
    voteInstance_recentRecords obj.mapCurrentMNVotes nMinTime
  have hmem : ∀ vote, vote∈(obj.removeOldVotes ctx nMinTime).2.fileVotes.listVotes ↔
        vote∈obj.fileVotes.listVotes ∧ (nMinTime : ℤ)≤vote.nTime := by
    intro vote
    have hlist : (obj.removeOldVotes ctx nMinTime).2.fileVotes.listVotes=
        obj.fileVotes.listVotes.filter (fun vote => !decide (vote.nTime < (nMinTime : ℤ))) := rfl
    rw [hlist,mem_filter,not_eq_true',decide_eq_false_iff_not,not_lt]
  refine h.remove rfl rfl (fun vote hm => ((hmem vote).mp hm).1) ?_ ?_ ?_
  · intro outpoint eSignal entry hentry
    rw [hinst] at hentry
    exact (filter_eq_some_iff.mp hentry).1
  · intro outpoint eSignal entry hentry vote hm _ _ htime
    rw [hinst] at hentry
    have hrecent := (filter_eq_some_iff.mp hentry).2
    rw [not_eq_true',decide_eq_false_iff_not,not_lt] at hrecent
    exact (hmem vote).mpr ⟨hm,by omega⟩
  · grind

theorem enumToInt_mod {value : ℤ} (hlow : -2^31≤value) (hhigh : value < 2^31) :
    enumToInt (value%2^32).toNat=value := by
  unfold enumToInt
  rw [Int.bmod_def]
  split_ifs
  · omega
  · omega

theorem getHash_recordedVote (hvote : OnObject nHash vote)
    {entry : VoteInstance} (houtcome : vote.getOutcome=entry.eOutcome)
    (htime : vote.nTime=entry.nCreationTime) :
    getHash ctx (recordedVote vote.masternodeOutpoint nHash vote.getSignal entry)=
      getHash ctx vote := by
  obtain ⟨hpar,⟨hsignalLow,hsignalHigh⟩,houtcomeLow,houtcomeHigh⟩ := hvote
  have hsignal : enumToInt vote.getSignal=vote.nVoteSignal := enumToInt_mod hsignalLow hsignalHigh
  have houtcome' : enumToInt vote.getOutcome=vote.nVoteOutcome :=
    enumToInt_mod houtcomeLow houtcomeHigh
  unfold getHash recordedVote
  rw [hsignal,← houtcome,houtcome',← htime,hpar]

theorem voteInstance_storeRecord (mnOutpoint outpoint : COutPoint)
    (record : VoteInstanceMap) (eSignal : ℕ) :
    voteInstance (CGovernanceObject.storeRecord votes mnOutpoint record) outpoint eSignal=
      if outpoint=mnOutpoint then record.find eSignal
      else voteInstance votes outpoint eSignal := by
  unfold voteInstance CGovernanceObject.storeRecord
  by_cases hempty : record.entries.isEmpty=true
  · have hnone : record.find eSignal=none := by
      unfold OrderedMap.find
      rw [isEmpty_iff.mp hempty]
      rfl
    rw [if_pos hempty,find_erase]
    split_ifs
    · rw [hnone]
      rfl
    · rfl
  · rw [if_neg hempty,find_set]
    split_ifs <;> rfl

/-- Funding votes of a masternode that are not valid any more leave the file, and the records lose
those whose votes left. -/
theorem removeInvalidProposalVotes_cases (ctx : VoteContext) (obj : CGovernanceObject)
    (mnOutpoint : COutPoint) :
    obj.removeInvalidProposalVotes ctx mnOutpoint=([],obj) ∨
      obj.nObjectType=.proposal ∧
      (∀ vote, vote∈(obj.removeInvalidProposalVotes ctx mnOutpoint).2.fileVotes.listVotes ↔
        vote∈obj.fileVotes.listVotes ∧
          CGovernanceObjectVoteFile.isInvalidProposalVote ctx mnOutpoint vote=false) ∧
      ∀ outpoint eSignal, voteInstance
          (obj.removeInvalidProposalVotes ctx mnOutpoint).2.mapCurrentMNVotes outpoint
          eSignal=
        if outpoint=mnOutpoint then
          (voteInstance obj.mapCurrentMNVotes mnOutpoint eSignal).filter (fun entry =>
            !(obj.fileVotes.pickedHashes ctx
              (CGovernanceObjectVoteFile.isInvalidProposalVote ctx mnOutpoint)).contains
                (getHash ctx (recordedVote mnOutpoint obj.hash eSignal entry)))
        else voteInstance obj.mapCurrentMNVotes outpoint eSignal := by
  unfold CGovernanceObject.removeInvalidProposalVotes
  by_cases htype : obj.nObjectType≠.proposal
  · exact Or.inl (if_pos htype)
  · rw [if_neg htype]
    cases hfind : obj.mapCurrentMNVotes.find mnOutpoint with
    | none => exact Or.inl rfl
    | some record =>
      unfold CGovernanceObjectVoteFile.removeInvalidProposalVotes
      dsimp only
      generalize CGovernanceObjectVoteFile.isInvalidProposalVote ctx mnOutpoint=pick
      split_ifs with hempty
      · have hnone : ∀ vote∈obj.fileVotes.listVotes, pick vote=false := by
          intro vote hm
          rw [← not_eq_true]
          intro htrue
          have hsome : getHash ctx vote∈obj.fileVotes.pickedHashes ctx pick :=
            mem_map.mpr ⟨vote,mem_filter.mpr ⟨hm,htrue⟩,rfl⟩
          rw [isEmpty_iff.mp hempty] at hsome
          exact not_mem_nil hsome
        rw [removeVotes_of_none hnone]
        exact Or.inl rfl
      · refine Or.inr ⟨not_not.mp htype,?_,?_⟩
        · intro vote
          unfold CGovernanceObjectVoteFile.removeVotes
          rw [mem_filter,not_eq_true']
        · intro outpoint eSignal
          have hrecord : voteInstance obj.mapCurrentMNVotes mnOutpoint eSignal=
              record.find eSignal := by
            unfold voteInstance
            rw [hfind,bind_some]
          rw [voteInstance_storeRecord,hrecord]
          unfold CGovernanceObject.keptInstances
          rw [find_filter]

theorem removeInvalidProposalVotes_subset (ctx : VoteContext) (obj : CGovernanceObject)
    (mnOutpoint : COutPoint) :
    (∀ vote∈(obj.removeInvalidProposalVotes ctx mnOutpoint).2.fileVotes.listVotes,
        vote∈obj.fileVotes.listVotes) ∧
      ∀ outpoint eSignal entry, voteInstance
          (obj.removeInvalidProposalVotes ctx mnOutpoint).2.mapCurrentMNVotes outpoint
          eSignal=some entry →
        voteInstance obj.mapCurrentMNVotes outpoint eSignal=some entry := by
  rcases removeInvalidProposalVotes_cases ctx obj mnOutpoint with
    hsame | ⟨-,hmem,hinst⟩
  · rw [hsame]
    exact ⟨fun _ hm => hm,fun _ _ _ hentry => hentry⟩
  · refine ⟨fun vote hm => ((hmem vote).mp hm).1,?_⟩
    intro outpoint eSignal entry hentry
    rw [hinst] at hentry
    split_ifs at hentry with hout
    · rw [hout]
      exact (filter_eq_some_iff.mp hentry).1
    · exact hentry

/-- Funding votes that are not valid any more are dropped from the file and the
records, and no earlier one stays behind. -/
theorem Tallied.removeInvalidProposalVotes (h : Tallied nHash obj) {mnOutpoint : COutPoint}
    (hkeeps : KeepsRecords ctx obj mnOutpoint) :
    Tallied nHash (obj.removeInvalidProposalVotes ctx mnOutpoint).2 := by
  have hremoved := removed_removeInvalidProposalVotes ctx obj mnOutpoint
  obtain ⟨hfile,hrecords⟩ := removeInvalidProposalVotes_subset ctx obj mnOutpoint
  rcases removeInvalidProposalVotes_cases ctx obj mnOutpoint with
    hsame | ⟨hproposal,hmem,hinst⟩
  · rw [hsame]
    exact h
  · refine h.remove hremoved.hash hremoved.waiting hfile hrecords ?_ ?_
    · rintro outpoint eSignal entry hentry vote hm ⟨rfl,rfl⟩ houtcome htime
      refine (hmem vote).mpr ⟨hm,?_⟩
      -- the record that is made again has the hash of its vote
      by_contra hinvalid
      rw [not_eq_false] at hinvalid
      have hout : vote.masternodeOutpoint=mnOutpoint := by
        unfold CGovernanceObjectVoteFile.isInvalidProposalVote at hinvalid
        simp only [and_eq_true,decide_eq_true_eq] at hinvalid
        exact hinvalid.1.2
      have hpicked : getHash ctx vote∈obj.fileVotes.pickedHashes ctx
          (CGovernanceObjectVoteFile.isInvalidProposalVote ctx mnOutpoint) :=
        mem_map.mpr ⟨vote,mem_filter.mpr ⟨hm,hinvalid⟩,rfl⟩
      rw [hinst,if_pos hout] at hentry
      have hkept := (filter_eq_some_iff.mp hentry).2
      rw [← hout,h.hash,getHash_recordedVote (h.stored vote hm) houtcome htime,hout,
        contains_iff_mem.mpr hpicked] at hkept
      cases hkept
    · intro vote hm entry hentry _
      obtain ⟨hold,hvalid⟩ := (hmem vote).mp hm
      rw [hinst]
      split_ifs with hout
      · rw [hout] at hentry
        rw [hentry,filter_some,if_pos]
        rw [not_eq_true',← not_eq_true,contains_iff_mem]
        intro hdropped
        have hinvalid := hkeeps hproposal vote.getSignal entry hentry hdropped vote hold
          ⟨hout,rfl⟩
        rw [hvalid] at hinvalid
        cases hinvalid
      · exact hentry

theorem KeepsRecords.mono {outpoint : COutPoint} (h : KeepsRecords ctx obj outpoint)
    (htype : after.nObjectType=obj.nObjectType) (hhash : after.hash=obj.hash)
    (hfile : ∀ vote∈after.fileVotes.listVotes, vote∈obj.fileVotes.listVotes)
    (hrecords : ∀ outpoint eSignal entry,
      voteInstance after.mapCurrentMNVotes outpoint eSignal=some entry →
        voteInstance obj.mapCurrentMNVotes outpoint eSignal=some entry) :
    KeepsRecords ctx after outpoint := by
  intro hproposal eSignal entry hentry hdropped vote hm hof
  rw [htype] at hproposal
  rw [hhash] at hdropped
  refine h hproposal eSignal entry (hrecords outpoint eSignal entry hentry) ?_ vote (hfile vote hm)
    hof
  obtain ⟨other,hother,heq⟩ := mem_map.mp hdropped
  obtain ⟨hlist,hpick⟩ := mem_filter.mp hother
  exact mem_map.mpr ⟨other,mem_filter.mpr ⟨hfile other hlist,hpick⟩,heq⟩

end Objects

section Steps

variable {hashVote : VoteHasher} {mgr after : CGovernanceManager}

theorem AllTallied.set (h : AllTallied mgr) {nHash : Uint256} {obj : CGovernanceObject}
    (hobject : Tallied nHash obj)
    (hobjects : after.mapObjects=mgr.mapObjects.set nHash obj) : AllTallied after := by
  intro other found hfind
  rw [hobjects,find_set] at hfind
  split_ifs at hfind with hsame
  · cases hfind
    rw [hsame]
    exact hobject
  · exact h other found hfind

theorem AllTallied.congr (h : AllTallied mgr) (hobjects : after.mapObjects=mgr.mapObjects) :
    AllTallied after := by
  intro nHash obj hfind
  rw [hobjects] at hfind
  exact h nHash obj hfind

theorem AllTallied.addGovernanceObject (h : AllTallied mgr) (ctx : GovernanceContext)
    (nObjectType : GovernanceObjectType) (nHash : Uint256) :
    AllTallied (addGovernanceObject ctx mgr (newObject nObjectType nHash)).1 := by
  obtain ⟨hhash,-,hrecords,hwaiting,hfile⟩ :=
    votes_updateSentinelVariables ctx.vote (newObject nObjectType nHash)
  have hnew : Tallied nHash (updateSentinelVariables ctx.vote (newObject nObjectType nHash)) :=
    tallied_new hhash hrecords hfile (by rw [hwaiting]; rfl)
  obtain ⟨-,hsame | ⟨-,stored,hobjects,hstored⟩⟩ :=
    addGovernanceObject_eq ctx mgr (newObject nObjectType nHash)
  · exact h.congr hsame
  · refine h.set ?_ hobjects
    rcases hstored with rfl | rfl
    · exact hnew
    · exact hnew.congr rfl rfl rfl (fun _ hm => hm)

theorem AllTallied.processVote (h : AllTallied mgr) (ctx : GovernanceContext)
    {vote : CGovernanceVote} (hvote : OnWire vote) :
    AllTallied (GovernanceManager.processVote ctx mgr vote).2 := by
  unfold GovernanceManager.processVote
  dsimp only
  split_ifs
  · exact h
  · exact h
  · cases hfind : mgr.mapObjects.find vote.nParentHash with
    | none => exact h.congr rfl
    | some govobj =>
      have hnext := (h vote.nParentHash govobj hfind).processVote
        (ctx.voteContext mgr.fRateChecksEnabled) ⟨rfl,hvote⟩
      dsimp only
      split_ifs
      · exact h
      · refine h.set hnext ?_
        rw [(addInvalidVote_eq _ _ _ _).1]
      · refine h.set hnext ?_
        rw [(addInvalidVote_eq _ _ _ _).1]

theorem checkOrphanVotes_tallied (ctx : GovernanceContext) {nHash : Uint256}
    (items : List (COutPoint×CGovernanceVote×ℤ)) (st : CGovernanceManager×CGovernanceObject)
    (h : Tallied nHash st.2) (hitems : ∀ item∈items, OnObject nHash item.2.1) :
    (items.foldl (checkOrphanVote ctx) st).1.mapObjects=st.1.mapObjects ∧
      Tallied nHash (items.foldl (checkOrphanVote ctx) st).2 := by
  induction items generalizing st with
  | nil => exact ⟨rfl,h⟩
  | cons item items ih =>
    have hstep : (checkOrphanVote ctx st item).1.mapObjects=st.1.mapObjects ∧
        Tallied nHash (checkOrphanVote ctx st item).2 := by
      have hnext := h.processVote (ctx.voteContext false) (hitems item mem_cons_self)
      unfold checkOrphanVote
      dsimp only
      split_ifs
      · exact ⟨rfl,h⟩
      · exact ⟨(addInvalidVote_eq _ _ _ _).1,
          hnext.congr rfl rfl rfl (fun _ hm => mem_of_mem_eraseP hm)⟩
      · exact ⟨(addInvalidVote_eq _ _ _ _).1,hnext⟩
    have hrest := ih (checkOrphanVote ctx st item) hstep.2
      (fun other hm => hitems other (mem_cons_of_mem _ hm))
    rw [foldl_cons]
    exact ⟨hrest.1.trans hstep.1,hrest.2⟩

section

variable (h : AllTallied mgr) (ctx : GovernanceContext)

include h ctx

theorem AllTallied.checkMasternodeOrphanVotes : AllTallied
    (checkMasternodeOrphanVotes ctx mgr) := by
  refine forEachObject_invariant (Q := fun nHash obj => Tallied nHash obj) ?_ h h
  intro st nHash obj hstate _ hobject
  obtain ⟨hobjects,hnext⟩ := checkOrphanVotes_tallied ctx obj.cmmapOrphanVotes.listItems
    (st,obj) hobject hobject.waiting
  refine ⟨hstate.set hnext (by dsimp only; rw [hobjects]),?_⟩
  intro other hne
  dsimp only
  rw [hobjects]
  exact find_set_of_ne _ _ hne

theorem AllTallied.clearDirtyObject
    (nHash : Uint256) : AllTallied (clearDirtyObject ctx mgr nHash) := by
  unfold GovernanceRuns.clearDirtyObject
  cases hfind : mgr.mapObjects.find nHash with
  | none => exact h
  | some obj =>
    have hcleared := (h nHash obj hfind).clearMasternodeVotes ctx.vote
    refine h.set ?_ rfl
    exact hcleared.congr rfl rfl rfl (fun _ hm => hm)

theorem AllTallied.cleanTrigger (isTriggerDone : CSuperblock → Bool) (entry : Uint256×CSuperblock) :
    AllTallied (cleanTrigger ctx mgr isTriggerDone entry) := by
  unfold GovernanceRuns.cleanTrigger
  cases hfind : mgr.mapObjects.find entry.1 with
  | none => exact h.congr rfl
  | some obj =>
    dsimp only
    split_ifs
    · refine h.set ?_ rfl
      exact (h entry.1 obj hfind).congr rfl rfl rfl (fun _ hm => hm)
    · exact h

theorem AllTallied.cleanObject
    (validate : CGovernanceObject → Bool) {nHash : Uint256} {obj : CGovernanceObject}
    (hobject : Tallied nHash obj) :
    AllTallied (cleanObject ctx mgr validate nHash obj) := by
  obtain ⟨hhash,hrecords,hwaiting,hfile⟩ := votes_refreshObject ctx obj
  have hrefresh : Tallied nHash (refreshObject ctx obj) :=
    hobject.congr hhash hrecords hfile (by rw [hwaiting]; exact fun _ hm => hm)
  unfold GovernanceRuns.cleanObject
  generalize refreshObject ctx obj=refreshed at *
  dsimp only
  split_ifs
  · intro other found hfind
    rw [find_erase] at hfind
    split_ifs at hfind
    exact h other found hfind
  · refine h.set ?_ rfl
    exact hrefresh.congr rfl rfl rfl (fun _ hm => hm)
  · exact h.set hrefresh rfl

theorem AllTallied.updateCachesAndClean
    (input : CleanInput) : AllTallied (updateCachesAndClean ctx mgr input) := by
  unfold GovernanceRuns.updateCachesAndClean
  have hcleared : AllTallied (input.vecDirtyHashes.foldl (GovernanceRuns.clearDirtyObject ctx)
      mgr) :=
    List.foldlRecOn _ _ h (fun _ hstate nHash _ => hstate.clearDirtyObject ctx nHash)
  generalize input.vecDirtyHashes.foldl (GovernanceRuns.clearDirtyObject ctx) mgr=cleared
    at hcleared ⊢
  have hready : AllTallied (cleared.mapTrigger.entries.foldl (fun mgr entry =>
      GovernanceRuns.cleanTrigger ctx mgr input.isTriggerDone entry) cleared) :=
    List.foldlRecOn _ _ hcleared (fun _ hstate entry _ =>
      hstate.cleanTrigger ctx input.isTriggerDone entry)
  refine forEachObject_invariant (Q := fun nHash obj => Tallied nHash obj) ?_ hready hready
  intro st nHash obj hstate _ hobject
  exact ⟨hstate.cleanObject ctx input.validate hobject,
    fun _ => find_cleanObject ctx st input.validate obj⟩

theorem AllTallied.clearPreDIP3Votes
    (minVoteTime : ℕ) : AllTallied (clearPreDIP3Votes ctx mgr minVoteTime) := by
  refine forEachObject_invariant (Q := fun nHash obj => Tallied nHash obj) ?_ h h
  intro st nHash obj hstate _ hobject
  exact ⟨hstate.set (hobject.removeOldVotes minVoteTime) (storeRemoved_eq st nHash _).1,
    fun _ => find_storeRemoved st _⟩

end

/-- Removals for all of some masternodes are safe in all objects. -/
def AllKeep (ctx : VoteContext) (changedKeyMNs : List COutPoint)
    (mgr : CGovernanceManager) : Prop :=
  ∀ nHash obj, mgr.mapObjects.find nHash=some obj →
    ∀ outpoint∈changedKeyMNs, KeepsRecords ctx obj outpoint

theorem AllTallied.removeInvalidProposalVotes (h : AllTallied mgr)
    (ctx : GovernanceContext) {changedKeyMNs : List COutPoint}
    (hkeep : AllKeep ctx.vote changedKeyMNs mgr) :
    AllTallied (removeInvalidProposalVotes ctx mgr changedKeyMNs) := by
  induction changedKeyMNs generalizing mgr with
  | nil => exact h
  | cons mnOutpoint changedKeyMNs ih =>
    have hnext : AllTallied (forEachObject (fun mgr nHash obj => storeRemoved mgr nHash
          (obj.removeInvalidProposalVotes ctx.vote mnOutpoint)) mgr) ∧
        AllKeep ctx.vote changedKeyMNs (forEachObject (fun mgr nHash obj =>
          storeRemoved mgr nHash
            (obj.removeInvalidProposalVotes ctx.vote mnOutpoint)) mgr) := by
      refine forEachObject_invariant
        (P := fun st => AllTallied st ∧ AllKeep ctx.vote changedKeyMNs st)
        (Q := fun nHash obj => Tallied nHash obj ∧
          KeepsRecords ctx.vote obj mnOutpoint) ?_ ⟨h,?_⟩ ?_
      · intro st nHash obj hstate hfind hobject
        have hobjects := (storeRemoved_eq st nHash
          (obj.removeInvalidProposalVotes ctx.vote mnOutpoint)).1
        have hremoved := removed_removeInvalidProposalVotes ctx.vote obj mnOutpoint
        obtain ⟨hfile,hrecords⟩ :=
          removeInvalidProposalVotes_subset ctx.vote obj mnOutpoint
        refine ⟨⟨hstate.1.set (hobject.1.removeInvalidProposalVotes hobject.2) hobjects,?_⟩,
          fun _ => find_storeRemoved st _⟩
        intro other found hother outpoint hm
        rw [hobjects,find_set] at hother
        split_ifs at hother
        · cases hother
          exact (hstate.2 nHash obj hfind outpoint hm).mono hremoved.type hremoved.hash hfile
            hrecords
        · exact hstate.2 other found hother outpoint hm
      · exact fun nHash obj hfind outpoint hm =>
          hkeep nHash obj hfind outpoint (mem_cons_of_mem _ hm)
      · exact fun nHash obj hfind =>
          ⟨h nHash obj hfind,hkeep nHash obj hfind mnOutpoint mem_cons_self⟩
    exact ih hnext.1 hnext.2

theorem AllTallied.applyAction (h : AllTallied mgr) (ctx : GovernanceContext)
    (action : GovernanceAction) (hsafe : TallySafe ctx mgr action) :
    AllTallied (applyAction ctx mgr action) := by
  cases action with
  | addGovernanceObject nObjectType nHash => exact h.addGovernanceObject ctx nObjectType nHash
  | processVote vote => exact h.processVote ctx vote.2
  | checkMasternodeOrphanVotes => exact h.checkMasternodeOrphanVotes ctx
  | cleanOrphanObjects => exact h.congr rfl
  | updateCachesAndClean input => exact h.updateCachesAndClean ctx input
  | removeInvalidProposalVotes changedKeyMNs => exact h.removeInvalidProposalVotes ctx hsafe
  | clearPreDIP3Votes minVoteTime => exact h.clearPreDIP3Votes ctx minVoteTime

end Steps

/-- In every run in which no vote that leaves the record leaves another one of its masternode for
the signal in the file, the votes on record are backed by the files. -/
theorem countedBacked_of_regular (hashVote : VoteHasher) (steps : List GovernanceStep)
    (hregular : Regular TallySafe hashVote {} steps) (count : ℕ) (nHash : Uint256)
    (obj : CGovernanceObject)
    (hfind : (run hashVote {} (steps.take count)).mapObjects.find nHash=some obj) :
    CountedBacked obj := by
  have hall : AllTallied (run hashVote {} (steps.take count)) :=
    run_invariant (P := AllTallied)
      (fun ctx _ action h hsafe => h.applyAction (hashing ctx hashVote) action hsafe)
      (fun _ _ hnone => by cases hnone) hregular count
  exact (hall nHash obj hfind).countedBacked

/-- A vote that was dropped when its key changed and taken again is on record. -/
theorem countedBacked_rekeyed :
    ∃ obj, (run sampleContext.hashVote {} (rekeyedSteps.take 4)).mapObjects.find 5=some obj ∧
      voteInstance obj.mapCurrentMNVotes ⟨7,0⟩ voteSignalFunding=
        some ⟨voteOutcomeYes,10000,100⟩ ∧
      CountedBacked obj := by
  have hinvalid : ∀ entry∈(run sampleContext.hashVote {} (rekeyedSteps.take 2)).mapObjects.entries,
      ∀ vote∈entry.2.fileVotes.listVotes, CGovernanceObjectVoteFile.isInvalidProposalVote
        (hashing rekeyedView sampleContext.hashVote).vote ⟨7,0⟩ vote=true := by decide
  have hregular : Regular TallySafe sampleContext.hashVote {} rekeyedSteps := by
    refine ⟨trivial,trivial,?_,trivial,trivial⟩
    intro nHash obj hfind outpoint hm
    rw [mem_singleton.mp hm]
    intro _ eSignal entry _ _ vote hvote _
    exact hinvalid (nHash,obj) ((mem_entries_iff _ _ _).mpr hfind) vote hvote
  have hrecord : ((run sampleContext.hashVote {} (rekeyedSteps.take 4)).mapObjects.find 5).any
      (fun obj => voteInstance obj.mapCurrentMNVotes ⟨7,0⟩ voteSignalFunding=
        some ⟨voteOutcomeYes,10000,100⟩)=true := by decide
  obtain ⟨obj,hfind,hentry⟩ := (any_eq_true _ _).mp hrecord
  exact ⟨obj,hfind,of_decide_eq_true hentry,
    countedBacked_of_regular sampleContext.hashVote rekeyedSteps hregular 4 5 obj hfind⟩

/-- The clock goes back after a vote from an hour ahead. The vote is dropped when its masternode is
registered again, an earlier vote stays, and a still earlier one comes. -/
def setBackSteps : List GovernanceStep :=
  [⟨presentView,.addGovernanceObject .proposal 5⟩,
    ⟨presentView,.processVote ⟨sampleVote 1 1 10000,by decide⟩⟩,
    ⟨presentView.atTime 20000,.processVote ⟨sampleVote 1 2 23600,by decide⟩⟩,
    ⟨presentView.atTime 19999,.removeInvalidProposalVotes [⟨7,0⟩]⟩,
    ⟨presentView.atTime 20000,.processVote ⟨sampleVote 1 3 9000,by decide⟩⟩]

/-- The vote on record is earlier than one in the file. -/
theorem countedBacked_fails :
    ∃ obj, (run sampleContext.hashVote {} setBackSteps).mapObjects.find 5=some obj ∧
      voteInstance obj.mapCurrentMNVotes ⟨7,0⟩ voteSignalFunding=
        some ⟨voteOutcomeAbstain,20000,9000⟩ ∧
      sampleVote 1 1 10000∈obj.fileVotes.listVotes ∧ ¬CountedBacked obj := by
  have hrecord : ((run sampleContext.hashVote {} setBackSteps).mapObjects.find 5).any
      (fun obj => decide (voteInstance obj.mapCurrentMNVotes ⟨7,0⟩ voteSignalFunding=
          some ⟨voteOutcomeAbstain,20000,9000⟩) &&
        decide (sampleVote 1 1 10000∈obj.fileVotes.listVotes))=true := by decide
  obtain ⟨obj,hfind,hboth⟩ := (any_eq_true _ _).mp hrecord
  rw [and_eq_true,decide_eq_true_eq,decide_eq_true_eq] at hboth
  refine ⟨obj,hfind,hboth.1,hboth.2,?_⟩
  intro h
  have hnewest := h.newest ⟨7,0⟩ voteSignalFunding _ hboth.1 (by decide) _ hboth.2 ⟨rfl,by decide⟩
  revert hnewest
  decide

end Pyrk.VoteTally
