import Pyrk.GovernanceObject
import Mathlib.Data.List.Induction
import Mathlib.Data.List.Perm.Basic
import Mathlib.Order.Bounds.Basic

/-!
# The order of votes

A valid vote changes the records of an object by taking a maximum of times and outcomes, which does
not depend on an order.
-/

namespace Pyrk.VoteOrder

open Transaction GovernanceObject OrderedMap List Option

/-- Time and outcome of a record, the time first. -/
def instanceRank (entry : VoteInstance) : ℤ×ₗℕ := toLex (entry.nCreationTime,entry.eOutcome)

/-- Time and outcome of a vote, the time first. -/
def voteRank (vote : CGovernanceVote) : ℤ×ₗℕ := toLex (vote.nTime,vote.getOutcome)

/-- Signals that are understood. -/
def Supported (eSignal : ℕ) : Prop := eSignal≠voteSignalNone ∧ eSignal ≤ maxSupportedVoteSignal

instance (eSignal : ℕ) : Decidable (Supported eSignal) := inferInstanceAs (Decidable (_ ∧ _))

/-- Record with the greater one of its own time and outcome and those of a vote. -/
def mergeInstance (entry : VoteInstance) (vote : CGovernanceVote) : VoteInstance :=
  let best := max (instanceRank entry) (voteRank vote)
  ⟨(ofLex best).2,entry.nTime,(ofLex best).1⟩

/-- Records of a masternode after a vote. -/
def applyRecord (record : VoteInstanceMap) (vote : CGovernanceVote) : VoteInstanceMap :=
  if Supported vote.getSignal then
    record.set vote.getSignal (mergeInstance ((record.find vote.getSignal).getD {}) vote)
  else record

/-- Records of the masternodes after a vote. -/
def applyVote (votes : VoteMap) (vote : CGovernanceVote) : VoteMap :=
  votes.set vote.masternodeOutpoint
    (applyRecord ((votes.find vote.masternodeOutpoint).getD .empty) vote)

/-- Take votes one after the other. -/
def processVotes (ctx : VoteContext) (obj : CGovernanceObject)
    (votes : List CGovernanceVote) : CGovernanceObject :=
  votes.foldl (fun obj vote => (processVote ctx obj vote).obj) obj

/-- Votes with the same hash differ in their signature only. -/
def CollisionFree (ctx : VoteContext) (votes : List CGovernanceVote) : Prop :=
  ∀ vote∈votes, ∀ other∈votes, getHash ctx vote=getHash ctx other →
    { vote with vchSig := [] }={ other with vchSig := [] }

section Merge

theorem instance_ext {first second : VoteInstance} (hrank : instanceRank first=instanceRank second)
    (htime : first.nTime=second.nTime) : first=second := by
  have hpair : (first.nCreationTime,first.eOutcome)=(second.nCreationTime,second.eOutcome) :=
    toLex.injective hrank
  rw [Prod.mk.injEq] at hpair
  cases first
  cases second
  cases hpair.1
  cases hpair.2
  cases htime
  rfl

variable (entry : VoteInstance)

@[simp]
theorem instanceRank_mergeInstance (vote : CGovernanceVote) :
    instanceRank (mergeInstance entry vote)=max (instanceRank entry) (voteRank vote) := rfl

theorem mergeInstance_comm (first second : CGovernanceVote) :
    mergeInstance (mergeInstance entry first) second=
      mergeInstance (mergeInstance entry second) first := by
  refine instance_ext ?_ rfl
  exact sup_right_comm _ _ _

theorem mergeInstance_self (vote : CGovernanceVote) :
    mergeInstance (mergeInstance entry vote) vote=mergeInstance entry vote := by
  refine instance_ext ?_ rfl
  simp only [instanceRank_mergeInstance,max_assoc,max_self]

variable (record : VoteInstanceMap)

theorem find_applyRecord (vote : CGovernanceVote) (eSignal : ℕ) :
    (applyRecord record vote).find eSignal=
      if Supported vote.getSignal ∧ eSignal=vote.getSignal then
        some (mergeInstance ((record.find vote.getSignal).getD {}) vote)
      else record.find eSignal := by
  unfold applyRecord
  by_cases hsupp : Supported vote.getSignal
  · simp only [hsupp,if_true,true_and,find_set]
  · simp only [hsupp,if_false,false_and]

theorem applyRecord_unsupported {vote : CGovernanceVote}
    (h : ¬Supported vote.getSignal) : applyRecord record vote=record := if_neg h

theorem applyRecord_comm (first second : CGovernanceVote) :
    applyRecord (applyRecord record first) second=applyRecord
      (applyRecord record second) first := by
  by_cases hfirst : Supported first.getSignal
  · by_cases hsecond : Supported second.getSignal
    · refine ext_find (fun eSignal => ?_)
      simp only [find_applyRecord,hfirst,hsecond,true_and]
      by_cases hsame : first.getSignal=second.getSignal
      · simp only [hsame,if_true,getD_some,mergeInstance_comm]
        split_ifs <;> rfl
      · grind
    · rw [applyRecord_unsupported _ hsecond,applyRecord_unsupported _ hsecond]
  · rw [applyRecord_unsupported _ hfirst,applyRecord_unsupported _ hfirst]

theorem applyRecord_self (vote : CGovernanceVote) :
    applyRecord (applyRecord record vote) vote=applyRecord record vote := by
  by_cases hsupp : Supported vote.getSignal
  · refine ext_find (fun eSignal => ?_)
    simp only [find_applyRecord,hsupp,true_and,if_true,getD_some,mergeInstance_self]
    split_ifs <;> rfl
  · rw [applyRecord_unsupported _ hsupp,applyRecord_unsupported _ hsupp]

variable (votes : VoteMap)

theorem applyVote_comm (first second : CGovernanceVote) :
    applyVote (applyVote votes first) second=applyVote (applyVote votes second) first := by
  refine ext_find (fun outpoint => ?_)
  unfold applyVote
  simp only [find_set]
  by_cases hsame : first.masternodeOutpoint=second.masternodeOutpoint
  · simp only [hsame,if_true,getD_some,applyRecord_comm]
    split_ifs <;> rfl
  · grind

theorem applyVote_self (vote : CGovernanceVote) :
    applyVote (applyVote votes vote) vote=applyVote votes vote := by
  refine ext_find (fun outpoint => ?_)
  unfold applyVote
  simp only [find_set]
  simp only [if_true,getD_some,applyRecord_self]
  split_ifs <;> rfl

theorem applyVote_congr {first second : CGovernanceVote}
    (h : { first with vchSig := [] }={ second with vchSig := [] }) :
    applyVote votes first=applyVote votes second := by
  have hclean : ∀ vote : CGovernanceVote,
      applyVote votes { vote with vchSig := [] }=applyVote votes vote := fun _ => rfl
  rw [← hclean first,h,hclean second]

end Merge

section Process

variable {ctx : VoteContext}

variable {vote : CGovernanceVote}

theorem has_of_isValid {useVotingKey : Bool}
    (h : isValid ctx useVotingKey vote=true) : ctx.has vote.masternodeOutpoint=true := by
  unfold isValid at h
  split_ifs at h with _ _ _ hhas
  simpa using hhas

theorem checkVote_eq {obj : CGovernanceObject} {entry : VoteInstance} {vote : CGovernanceVote}
    (hrate : ctx.areRateChecksEnabled=false)
    (hvalid : isValid ctx (onlyVotingKeyAllowed obj vote) vote=true) :
    checkVote ctx obj entry vote=none ↔ instanceRank entry ≤ voteRank vote := by
  have hhas := has_of_isValid hvalid
  have hle : instanceRank entry ≤ voteRank vote ↔ entry.nCreationTime<vote.nTime ∨
      entry.nCreationTime=vote.nTime ∧ entry.eOutcome≤vote.getOutcome := Prod.Lex.le_iff
  unfold checkVote
  rw [hle,hrate,hvalid,hhas]
  split_ifs with hobsolete hsame hoften hinvalid
  · simp only [false_iff]
    omega
  · simp only [false_iff]
    omega
  · exact absurd hoften.1 (by decide)
  · exact absurd hinvalid (by decide)
  · simp only [true_iff]
    omega

variable (votes : VoteMap)

theorem emplaceInstance_eq (outpoint : COutPoint) (eSignal : ℕ) :
    emplaceInstance (votes.emplace outpoint .empty) outpoint eSignal=votes.set outpoint
        (((votes.find outpoint).getD .empty).emplace eSignal {}) := by
  refine ext_find (fun other => ?_)
  unfold emplaceInstance
  simp only [find_set,find_emplace,if_true,getD_some]
  split_ifs <;> rfl

theorem setInstance_eq (outpoint : COutPoint) (eSignal : ℕ) (entry : VoteInstance) :
    setInstance (emplaceInstance (votes.emplace outpoint .empty) outpoint eSignal)
        outpoint eSignal entry=
      votes.set outpoint (((votes.find outpoint).getD .empty).set eSignal entry) := by
  rw [emplaceInstance_eq]
  refine ext_find (fun other => ?_)
  unfold setInstance
  simp only [find_set,if_true,getD_some]
  split_ifs
  · refine congrArg some (ext_find (fun key => ?_))
    simp only [find_set,find_emplace]
    split_ifs <;> rfl
  · rfl

theorem applyVote_supported (hsupp : Supported vote.getSignal) :
    applyVote votes vote=votes.set vote.masternodeOutpoint
      (((votes.find vote.masternodeOutpoint).getD .empty).set vote.getSignal
        (mergeInstance ((((votes.find vote.masternodeOutpoint).getD .empty).find
          vote.getSignal).getD {}) vote)) := by
  unfold applyVote applyRecord
  rw [if_pos hsupp]

theorem applyVote_unsupported (hsupp : ¬Supported vote.getSignal) :
    applyVote votes vote=votes.emplace vote.masternodeOutpoint .empty := by
  refine ext_find (fun outpoint => ?_)
  unfold applyVote
  rw [applyRecord_unsupported _ hsupp,find_set,find_emplace]

theorem voteInstance_emplaceInstance (outpoint : COutPoint) (eSignal : ℕ) :
    (voteInstance (emplaceInstance (votes.emplace outpoint .empty) outpoint eSignal)
      outpoint eSignal).getD {}=(((votes.find outpoint).getD .empty).find eSignal).getD {} := by
  rw [emplaceInstance_eq]
  unfold voteInstance
  simp only [find_set,if_true,bind_some,find_emplace,getD_some]

variable {obj : CGovernanceObject}

/-- Without rate checks a valid vote that is not in the file changes the
records by a maximum. -/
theorem processVote_of_fresh (hrate : ctx.areRateChecksEnabled=false)
    (hvalid : isValid ctx (onlyVotingKeyAllowed obj vote) vote=true)
    (hfresh : obj.fileVotes.hasVote (getHash ctx vote)=false) :
    (processVote ctx obj vote).obj.mapCurrentMNVotes=
      applyVote obj.mapCurrentMNVotes vote := by
  have hhas := has_of_isValid hvalid
  unfold processVote
  simp only [hfresh,hhas,Bool.not_true,Bool.false_eq_true,if_false]
  by_cases hsupp : Supported vote.getSignal
  · rw [if_neg hsupp.1,if_neg (Nat.not_lt.mpr hsupp.2),voteInstance_emplaceInstance,
      applyVote_supported _ hsupp]
    generalize hrecord :
      (obj.mapCurrentMNVotes.find vote.masternodeOutpoint).getD .empty=record
    generalize hold : (record.find vote.getSignal).getD {}=entry
    have hcheck := @checkVote_eq ctx obj entry vote hrate hvalid
    cases hres : checkVote ctx obj entry vote with
    | some error =>
      have hgreater : ¬instanceRank entry ≤ voteRank vote := by
        rw [← hcheck,hres]
        simp
      have hmerge : mergeInstance entry vote=entry :=
        instance_ext (max_eq_left (le_of_not_ge hgreater)) rfl
      change emplaceInstance _ _ _=_
      rw [emplaceInstance_eq,hrecord,hmerge]
      refine congrArg _ (ext_find (fun key => ?_))
      rw [find_emplace,find_set,hold]
    | none =>
      have hmerge : mergeInstance entry vote=takenInstance ctx entry vote := by
        refine instance_ext (max_eq_right (hcheck.mp hres)) ?_
        unfold takenInstance
        rw [hrate]
        rfl
      change setInstance _ _ _ _=_
      rw [setInstance_eq,hrecord,hmerge]
  · rw [applyVote_unsupported _ hsupp]
    split_ifs with hnone hmany
    · rfl
    · rfl
    · exact absurd ⟨hnone,Nat.not_lt.mp hmany⟩ hsupp

theorem hasVote_addVote (file : CGovernanceObjectVoteFile) (vote : CGovernanceVote)
    (nHash : Uint256) :
    (file.addVote ctx vote).hasVote nHash=true ↔
      nHash=getHash ctx vote ∨ file.hasVote nHash=true := by
  unfold CGovernanceObjectVoteFile.addVote
  split_ifs with hknown
  · grind
  · unfold CGovernanceObjectVoteFile.hasVote OrderedMap.contains
    rw [find_emplace]
    split_ifs with heq <;> simp [heq]

theorem processVote_of_known (hknown : obj.fileVotes.hasVote (getHash ctx vote)=true) :
    (processVote ctx obj vote).obj=obj := by
  unfold processVote
  rw [if_pos hknown]

theorem frame_processVote (obj : CGovernanceObject) (vote : CGovernanceVote) :
    (processVote ctx obj vote).obj.nObjectType=obj.nObjectType ∧
      (processVote ctx obj vote).obj.fCachedDelete=obj.fCachedDelete ∧
      (processVote ctx obj vote).obj.fExpired=obj.fExpired ∧
      ((processVote ctx obj vote).obj.fileVotes=obj.fileVotes ∨
        (processVote ctx obj vote).obj.fileVotes=
          obj.fileVotes.addVote ctx vote) := by
  unfold processVote
  dsimp only
  split_ifs
  all_goals first | exact ⟨rfl,rfl,rfl,.inl rfl⟩ | skip
  split
  · exact ⟨rfl,rfl,rfl,.inl rfl⟩
  · exact ⟨rfl,rfl,rfl,.inr rfl⟩

theorem hasVote_processVote (obj : CGovernanceObject) (vote : CGovernanceVote)
    {nHash : Uint256} (h : obj.fileVotes.hasVote nHash=true) :
    (processVote ctx obj vote).obj.fileVotes.hasVote nHash=true := by
  rcases (@frame_processVote ctx obj vote).2.2.2 with heq | heq <;> rw [heq]
  · exact h
  · exact (hasVote_addVote _ _ _).mpr (.inr h)

/-- Votes of a list that an object has not taken yet. -/
def freshVotes (ctx : VoteContext) (obj : CGovernanceObject)
    (votes : List CGovernanceVote) : List CGovernanceVote :=
  votes.filter (fun vote => !obj.fileVotes.hasVote (getHash ctx vote))

/-- What holds after votes were taken from an object on. -/
structure Taken (ctx : VoteContext) (start : CGovernanceObject) (votes : List CGovernanceVote)
    (obj : CGovernanceObject) : Prop where
  type : obj.nObjectType=start.nObjectType
  kept : ∀ nHash, start.fileVotes.hasVote nHash=true → obj.fileVotes.hasVote nHash=true
  added : ∀ nHash, obj.fileVotes.hasVote nHash=true → start.fileVotes.hasVote nHash=true ∨
    ∃ vote∈votes, getHash ctx vote=nHash ∧
      applyVote obj.mapCurrentMNVotes vote=obj.mapCurrentMNVotes
  records : obj.mapCurrentMNVotes=
    (freshVotes ctx start votes).foldl applyVote start.mapCurrentMNVotes

theorem Taken.processVote {start obj : CGovernanceObject} {votes : List CGovernanceVote}
    {vote : CGovernanceVote} (h : Taken ctx start votes obj)
    (hrate : ctx.areRateChecksEnabled=false)
    (hvalid : isValid ctx (onlyVotingKeyAllowed start vote) vote=true)
    (hhash : CollisionFree ctx (votes++[vote])) :
    Taken ctx start (votes++[vote]) (processVote ctx obj vote).obj := by
  have hvalid' : isValid ctx (onlyVotingKeyAllowed obj vote) vote=true := by
    unfold onlyVotingKeyAllowed at hvalid ⊢
    rwa [h.type]
  have hlast : vote∈votes++[vote] := mem_append_right _ (mem_singleton_self _)
  by_cases hknown : obj.fileVotes.hasVote (getHash ctx vote)=true
  · rw [processVote_of_known hknown]
    refine ⟨h.type,h.kept,?_,?_⟩
    · intro nHash hfile
      refine (h.added nHash hfile).imp id ?_
      rintro ⟨earlier,hm,hfacts⟩
      exact ⟨earlier,mem_append_left _ hm,hfacts⟩
    · unfold freshVotes
      rw [filter_append,foldl_append]
      by_cases hold : start.fileVotes.hasVote (getHash ctx vote)=true
      · simp only [hold,filter_cons,Bool.not_true,Bool.false_eq_true,if_false,filter_nil,foldl_nil]
        exact h.records
      · rw [Bool.not_eq_true] at hold
        rcases h.added _ hknown with hfile | ⟨earlier,hm,heq,hsame⟩
        · rw [hold] at hfile
          cases hfile
        · simp only [hold,filter_cons,Bool.not_false,if_true,filter_nil,foldl_cons,foldl_nil]
          have hcongr := hhash earlier (mem_append_left _ hm) vote hlast heq
          change _=applyVote ((freshVotes ctx start votes).foldl applyVote _) vote
          rw [← h.records,← applyVote_congr _ hcongr,hsame]
  · rw [Bool.not_eq_true] at hknown
    have hrecords := processVote_of_fresh hrate hvalid' hknown
    obtain ⟨htype,-,-,hfile⟩ := @frame_processVote ctx obj vote
    have hold : start.fileVotes.hasVote (getHash ctx vote)=false := by
      rw [← Bool.not_eq_true]
      intro hstart
      rw [h.kept _ hstart] at hknown
      cases hknown
    refine ⟨htype.trans h.type,?_,?_,?_⟩
    · intro nHash hstart
      exact hasVote_processVote obj vote (h.kept nHash hstart)
    · intro nHash hnew
      have hcases : nHash=getHash ctx vote ∨ obj.fileVotes.hasVote nHash=true := by
        rcases hfile with heq | heq <;> rw [heq] at hnew
        · exact .inr hnew
        · exact (hasVote_addVote _ _ _).mp hnew
      rw [hrecords]
      rcases hcases with rfl | hbefore
      · exact .inr ⟨vote,hlast,rfl,applyVote_self _ _⟩
      · refine (h.added nHash hbefore).imp id ?_
        rintro ⟨earlier,hm,heq,hsame⟩
        refine ⟨earlier,mem_append_left _ hm,heq,?_⟩
        rw [applyVote_comm,hsame]
    · rw [hrecords,h.records]
      unfold freshVotes
      rw [filter_append,foldl_append]
      simp only [hold,filter_cons,Bool.not_false,if_true,filter_nil,foldl_cons,foldl_nil]

theorem taken_processVotes {votes : List CGovernanceVote}
    (hrate : ctx.areRateChecksEnabled=false)
    (hvalid : ∀ vote∈votes, isValid ctx (onlyVotingKeyAllowed obj vote) vote=true)
    (hhash : CollisionFree ctx votes) :
    Taken ctx obj votes (processVotes ctx obj votes) := by
  induction votes using List.reverseRecOn with
  | nil => exact ⟨rfl,fun _ h => h,fun _ h => .inl h,rfl⟩
  | append_singleton votes vote ih =>
    have hstep := ih (fun other hm => hvalid other (mem_append_left _ hm))
      (fun first hf second hs => hhash first (mem_append_left _ hf) second (mem_append_left _ hs))
    unfold processVotes
    rw [foldl_append]
    exact hstep.processVote hrate (hvalid vote (mem_append_right _ (mem_singleton_self _))) hhash

end Process

/-- Time and outcome on record for a masternode and a signal; a record that is
not there counts as one without a vote. -/
def recordRank (votes : VoteMap) (outpoint : COutPoint) (eSignal : ℕ) : ℤ×ₗℕ :=
  instanceRank ((voteInstance votes outpoint eSignal).getD {})

/-- Times and outcomes of the votes of a masternode on a signal. -/
def voteRanks (votes : List CGovernanceVote) (outpoint : COutPoint) (eSignal : ℕ) : Set (ℤ×ₗℕ) :=
  { rank | ∃ vote∈votes, vote.masternodeOutpoint=outpoint ∧ vote.getSignal=eSignal ∧
    voteRank vote=rank }

theorem voteInstance_applyVote (votes : VoteMap) (vote : CGovernanceVote) (outpoint : COutPoint)
    {eSignal : ℕ} (hsupp : Supported eSignal) :
    voteInstance (applyVote votes vote) outpoint eSignal=
      if vote.masternodeOutpoint=outpoint ∧ vote.getSignal=eSignal then
        some (mergeInstance ((voteInstance votes outpoint eSignal).getD {}) vote)
      else voteInstance votes outpoint eSignal := by
  unfold voteInstance applyVote
  rw [find_set]
  by_cases hout : outpoint=vote.masternodeOutpoint
  · subst hout
    simp only [if_true,bind_some,find_applyRecord,true_and]
    by_cases hsignal : vote.getSignal=eSignal
    · subst hsignal
      simp only [hsupp,and_self,if_true]
      cases votes.find vote.masternodeOutpoint <;> rfl
    · have hne : ¬eSignal=vote.getSignal := fun h => hsignal h.symm
      simp only [hsignal,hne,and_false,if_false]
      cases votes.find vote.masternodeOutpoint <;> rfl
  · have hne : ¬vote.masternodeOutpoint=outpoint := fun h => hout h.symm
    simp only [hout,hne,if_false,false_and]

/-- A record after votes is the greatest one of the record before and the votes. -/
theorem isGreatest_foldl (list : List CGovernanceVote) (votes : VoteMap) (outpoint : COutPoint)
    {eSignal : ℕ} (hsupp : Supported eSignal) :
    IsGreatest (insert (recordRank votes outpoint eSignal) (voteRanks list outpoint eSignal))
      (recordRank (list.foldl applyVote votes) outpoint eSignal) := by
  induction list generalizing votes with
  | nil =>
    refine ⟨Set.mem_insert _ _,?_⟩
    rintro rank (rfl | ⟨vote,hm,-⟩)
    · exact le_refl _
    · exact absurd hm not_mem_nil
  | cons vote list ih =>
    obtain ⟨hmem,hupper⟩ := ih (applyVote votes vote)
    rw [foldl_cons]
    have hnext : recordRank (applyVote votes vote) outpoint eSignal=
        if vote.masternodeOutpoint=outpoint ∧ vote.getSignal=eSignal then
          max (recordRank votes outpoint eSignal) (voteRank vote)
        else recordRank votes outpoint eSignal := by
      unfold recordRank
      rw [voteInstance_applyVote votes vote outpoint hsupp]
      split_ifs <;> rfl
    have hbefore : recordRank votes outpoint eSignal≤
        recordRank (applyVote votes vote) outpoint eSignal := by
      rw [hnext]
      split_ifs
      · exact le_max_left _ _
      · exact le_refl _
    constructor
    · rcases hmem with heq | ⟨other,hm,hfacts⟩
      · rw [heq,hnext]
        split_ifs with hkey
        · rcases max_choice (recordRank votes outpoint eSignal) (voteRank vote) with hmax | hmax
          · rw [hmax]
            exact .inl rfl
          · rw [hmax]
            exact .inr ⟨vote,mem_cons_self,hkey.1,hkey.2,rfl⟩
        · exact .inl rfl
      · exact .inr ⟨other,mem_cons_of_mem _ hm,hfacts⟩
    · rintro rank (rfl | ⟨other,hm,hout,hsignal,rfl⟩)
      · exact hbefore.trans (hupper (Set.mem_insert _ _))
      · rcases mem_cons.mp hm with rfl | hrest
        · refine le_trans ?_ (hupper (Set.mem_insert _ _))
          rw [hnext,if_pos ⟨hout,hsignal⟩]
          exact le_max_right _ _
        · exact hupper (.inr ⟨other,hrest,hout,hsignal,rfl⟩)

theorem voteInstance_foldl (list : List CGovernanceVote) (votes : VoteMap) (outpoint : COutPoint)
    {eSignal : ℕ} (hsupp : Supported eSignal) :
    (voteInstance (list.foldl applyVote votes) outpoint eSignal).isSome=true ↔
      (voteInstance votes outpoint eSignal).isSome=true ∨
        ∃ vote∈list, vote.masternodeOutpoint=outpoint ∧ vote.getSignal=eSignal := by
  induction list generalizing votes with
  | nil => simp
  | cons vote list ih =>
    rw [foldl_cons,ih,voteInstance_applyVote votes vote outpoint hsupp]
    grind

theorem mapCurrentMNVotes_perm {ctx : VoteContext} {obj : CGovernanceObject}
    {votes other : List CGovernanceVote} (hrate : ctx.areRateChecksEnabled=false)
    (hvalid : ∀ vote∈votes, isValid ctx (onlyVotingKeyAllowed obj vote) vote=true)
    (hhash : CollisionFree ctx votes) (hperm : votes.Perm other) :
    (processVotes ctx obj votes).mapCurrentMNVotes=
      (processVotes ctx obj other).mapCurrentMNVotes := by
  have hsecond := (taken_processVotes hrate (fun vote hm => hvalid vote (hperm.mem_iff.mpr hm))
    (fun vote hv second hs => hhash vote (hperm.mem_iff.mpr hv) second (hperm.mem_iff.mpr hs))
    : Taken ctx obj other (processVotes ctx obj other)).records
  rw [(taken_processVotes hrate hvalid hhash).records,hsecond]
  exact (hperm.filter _).foldl_eq' (fun first _ second _ before =>
    applyVote_comm before first second) _

/-- The records after valid votes do not depend on their order: they have the greatest time and
outcome among the record before and the fresh votes. -/
theorem processVotes_order {ctx : VoteContext} {obj : CGovernanceObject}
    {votes other : List CGovernanceVote} (hrate : ctx.areRateChecksEnabled=false)
    (hvalid : ∀ vote∈votes, isValid ctx (onlyVotingKeyAllowed obj vote) vote=true)
    (hhash : CollisionFree ctx votes) (hperm : votes.Perm other) :
    (processVotes ctx obj votes).mapCurrentMNVotes=
        (processVotes ctx obj other).mapCurrentMNVotes ∧
      ∀ outpoint eSignal, Supported eSignal → (∃ vote∈freshVotes ctx obj votes,
          vote.masternodeOutpoint=outpoint ∧ vote.getSignal=eSignal) →
        ∃ entry, voteInstance (processVotes ctx obj votes).mapCurrentMNVotes outpoint
            eSignal=some entry ∧
          IsGreatest (insert (recordRank obj.mapCurrentMNVotes outpoint eSignal)
            (voteRanks (freshVotes ctx obj votes) outpoint eSignal))
            (instanceRank entry) := by
  refine ⟨mapCurrentMNVotes_perm hrate hvalid hhash hperm,?_⟩
  intro outpoint eSignal hsupp hvoted
  rw [(taken_processVotes hrate hvalid hhash).records]
  have hsome := (voteInstance_foldl (freshVotes ctx obj votes) obj.mapCurrentMNVotes
    outpoint hsupp).mpr (.inr hvoted)
  obtain ⟨entry,hentry⟩ := isSome_iff_exists.mp hsome
  have hgreatest := isGreatest_foldl (freshVotes ctx obj votes)
    obj.mapCurrentMNVotes outpoint hsupp
  refine ⟨entry,hentry,?_⟩
  unfold recordRank at hgreatest ⊢
  rwa [hentry] at hgreatest

/-- A node that knows one masternode and does not check rates. -/
def sampleContext : VoteContext where
  network := .main
  hashVote outpoint _ nVoteSignal nVoteOutcome nTime :=
    outpoint.hash+10*nVoteSignal.toNat+100*nVoteOutcome.toNat+1000*nTime.toNat
  has outpoint := outpoint=⟨7,0⟩
  countEnabled := 1
  getAdjustedTime := 1000
  areRateChecksEnabled := false
  checkSignature _ _ := true

/-- A vote of this masternode on the object with the hash five. -/
def sampleVote (nVoteSignal nVoteOutcome nTime : ℤ) : CGovernanceVote :=
  ⟨nVoteSignal,⟨7,0⟩,5,nVoteOutcome,nTime,[]⟩

/-- A proposal without votes. -/
def newProposal : CGovernanceObject where
  nObjectType := .proposal
  hash := 5

/-- Two votes in both orders; the later one counts. -/
theorem processVotes_order_sample :
    (processVotes sampleContext newProposal
        [sampleVote 1 1 100,sampleVote 1 2 200]).mapCurrentMNVotes=
      (processVotes sampleContext newProposal
        [sampleVote 1 2 200,sampleVote 1 1 100]).mapCurrentMNVotes ∧
      voteInstance (processVotes sampleContext newProposal
        [sampleVote 1 1 100,sampleVote 1 2 200]).mapCurrentMNVotes ⟨7,0⟩ voteSignalFunding=
        some ⟨voteOutcomeNo,0,200⟩ := by
  have hhash : CollisionFree sampleContext [sampleVote 1 1 100,sampleVote 1 2 200] := by
    unfold CollisionFree
    decide
  exact ⟨(processVotes_order rfl (by decide) hhash (List.Perm.swap _ _ [])).1,by decide⟩

/-- A valid vote from before the time zero is not recorded, nor is one without
a signal. -/
theorem processVotes_not_recorded :
    isValid sampleContext (onlyVotingKeyAllowed newProposal (sampleVote 1 1 (-1)))
        (sampleVote 1 1 (-1))=true ∧
      voteInstance (processVotes sampleContext newProposal
        [sampleVote 1 1 (-1)]).mapCurrentMNVotes ⟨7,0⟩ voteSignalFunding=some {} ∧
      instanceRank {}≠voteRank (sampleVote 1 1 (-1)) ∧
      isValid sampleContext (onlyVotingKeyAllowed newProposal (sampleVote 0 1 100))
        (sampleVote 0 1 100)=true ∧
      voteInstance (processVotes sampleContext newProposal
        [sampleVote 0 1 100]).mapCurrentMNVotes ⟨7,0⟩ voteSignalNone=none := by
  decide

end Pyrk.VoteOrder
