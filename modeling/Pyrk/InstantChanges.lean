import Pyrk.InstantSend

/-!
# What calls of InstantSend change

Every call is a chain of a few kinds of changes to candidates and inputs, so that an invariant is
checked for each of them.
-/

namespace Pyrk.InstantSend

open Transaction OrderedMap OrderedSet Function Option

namespace CTxLockCandidate

/-- Whether votes are counted for an input. -/
def hasLock (cand : CTxLockCandidate) (outpoint : COutPoint) : Bool :=
  cand.mapOutPointLocks.contains outpoint

/-- Whether an attack on an input was noted. -/
def attacked (cand : CTxLockCandidate) (outpoint : COutPoint) : Bool :=
  ((cand.mapOutPointLocks.find outpoint).map COutPointLock.fAttacked).getD false

/-- Masternodes that voted for an input. -/
def voters (cand : CTxLockCandidate) (outpoint : COutPoint) : ℕ :=
  ((cand.mapOutPointLocks.find outpoint).map (fun lock => lock.mapMasternodeVotes.size)).getD 0

/-- Masternodes that voted for an input, in order. -/
def voterList (cand : CTxLockCandidate) (outpoint : COutPoint) : List COutPoint :=
  ((cand.mapOutPointLocks.find outpoint).map
    (fun lock => lock.mapMasternodeVotes.entries.map Prod.fst)).getD []

variable {cand : CTxLockCandidate} {outpoint other masternode : COutPoint} {vote : CTxLockVote}

theorem mem_outpoints_iff : outpoint∈cand.outpoints ↔ cand.hasLock outpoint=true := by
  rw [outpoints,List.mem_map,hasLock,contains_iff]
  constructor
  · rintro ⟨pair,hm,rfl⟩
    exact ⟨pair.2,(cand.mapOutPointLocks.mem_entries_iff _ _).mp hm⟩
  · rintro ⟨lock,hlock⟩
    exact ⟨(outpoint,lock),(cand.mapOutPointLocks.mem_entries_iff _ _).mpr hlock,rfl⟩

theorem hasLock_of_voted (h : cand.hasMasternodeVoted outpoint masternode=true) :
    cand.hasLock outpoint=true := by
  unfold hasMasternodeVoted at h
  unfold hasLock OrderedMap.contains
  cases hfind : cand.mapOutPointLocks.find outpoint with
  | none => simp [hfind] at h
  | some lock => rfl

@[simp] theorem txLockRequest_mark :
    (cand.markOutpointAsAttacked outpoint).txLockRequest=cand.txLockRequest := by
  unfold markOutpointAsAttacked
  split <;> rfl

@[simp] theorem nTimeCreated_mark :
    (cand.markOutpointAsAttacked outpoint).nTimeCreated=cand.nTimeCreated := by
  unfold markOutpointAsAttacked
  split <;> rfl

theorem find_mark : (cand.markOutpointAsAttacked outpoint).mapOutPointLocks.find other=
    (cand.mapOutPointLocks.find other).map (fun lock =>
      if other=outpoint then lock.markAsAttacked else lock) := by
  unfold markOutpointAsAttacked
  cases hfind : cand.mapOutPointLocks.find outpoint with
  | none =>
    by_cases he : other=outpoint
    · rw [he,hfind]
      rfl
    · simp [he]
  | some lock =>
    rw [find_set]
    split_ifs with he
    · rw [he,hfind]
      rfl
    · simp

@[simp] theorem hasLock_mark :
    (cand.markOutpointAsAttacked outpoint).hasLock other=cand.hasLock other := by
  rw [hasLock,hasLock,OrderedMap.contains,OrderedMap.contains,find_mark,isSome_map]

@[simp] theorem hasMasternodeVoted_mark :
    (cand.markOutpointAsAttacked outpoint).hasMasternodeVoted other masternode=
      cand.hasMasternodeVoted other masternode := by
  rw [hasMasternodeVoted,hasMasternodeVoted,find_mark,map_map]
  congr 2
  funext lock
  rw [comp_apply]
  split_ifs <;> rfl

@[simp] theorem attacked_mark :
    (cand.markOutpointAsAttacked outpoint).attacked other=
      (cand.attacked other || decide (other=outpoint) && cand.hasLock other) := by
  rw [attacked,attacked,find_mark,hasLock,OrderedMap.contains]
  cases cand.mapOutPointLocks.find other with
  | none => simp
  | some lock =>
    by_cases he : other=outpoint
    · simp [he,COutPointLock.markAsAttacked]
    · simp [he]

@[simp] theorem mark_mark : (cand.markOutpointAsAttacked outpoint).markOutpointAsAttacked outpoint=
    cand.markOutpointAsAttacked outpoint := by
  have hlocks : ((cand.markOutpointAsAttacked outpoint).markOutpointAsAttacked
      outpoint).mapOutPointLocks=(cand.markOutpointAsAttacked outpoint).mapOutPointLocks := by
    refine ext_find (fun other => ?_)
    rw [find_mark,find_mark,map_map]
    congr 1
    funext lock
    rw [comp_apply]
    split_ifs <;> rfl
  have hrest : ∀ cand : CTxLockCandidate, cand.markOutpointAsAttacked outpoint=
      { cand with
        mapOutPointLocks := (cand.markOutpointAsAttacked outpoint).mapOutPointLocks } := by
    intro cand
    unfold markOutpointAsAttacked
    split <;> rfl
  rw [hrest (cand.markOutpointAsAttacked outpoint),hlocks]

@[simp] theorem txLockRequest_addVote :
    (cand.addVote vote).1.txLockRequest=cand.txLockRequest := by
  unfold addVote
  split <;> rfl

@[simp] theorem nTimeCreated_addVote :
    (cand.addVote vote).1.nTimeCreated=cand.nTimeCreated := by
  unfold addVote
  split <;> rfl

theorem find_addVote : (cand.addVote vote).1.mapOutPointLocks.find other=
    (cand.mapOutPointLocks.find other).map (fun lock =>
      if other=vote.outpoint then (lock.addVote vote).1 else lock) := by
  unfold addVote
  cases hfind : cand.mapOutPointLocks.find vote.outpoint with
  | none =>
    by_cases he : other=vote.outpoint
    · rw [he,hfind]
      rfl
    · simp [he]
  | some lock =>
    rw [find_set]
    split_ifs with he
    · rw [he,hfind]
      rfl
    · simp

@[simp] theorem hasLock_addVote :
    (cand.addVote vote).1.hasLock other=cand.hasLock other := by
  rw [hasLock,hasLock,OrderedMap.contains,OrderedMap.contains,find_addVote,isSome_map]

@[simp] theorem attacked_addVote :
    (cand.addVote vote).1.attacked other=cand.attacked other := by
  rw [attacked,attacked,find_addVote,map_map]
  congr 2
  funext lock
  rw [comp_apply]
  split_ifs <;> rfl

@[simp] theorem hasMasternodeVoted_addVote :
    (cand.addVote vote).1.hasMasternodeVoted other masternode=
      (cand.hasMasternodeVoted other masternode ||
        (decide (other=vote.outpoint) && decide (masternode=vote.outpointMasternode) &&
          cand.hasLock other)) := by
  rw [hasMasternodeVoted,hasMasternodeVoted,find_addVote,hasLock,OrderedMap.contains]
  cases cand.mapOutPointLocks.find other with
  | none => simp
  | some lock =>
    by_cases he : other=vote.outpoint
    · simp only [he,COutPointLock.hasMasternodeVoted,COutPointLock.addVote,OrderedMap.contains,
        map_some,getD_some,find_emplace,if_true,decide_true,isSome_some,Bool.true_and,Bool.and_true]
      grind
    · simp [he]

theorem addVote_snd : (cand.addVote vote).2=(cand.hasLock vote.outpoint &&
      !cand.hasMasternodeVoted vote.outpoint vote.outpointMasternode) := by
  unfold addVote hasLock hasMasternodeVoted OrderedMap.contains
  cases cand.mapOutPointLocks.find vote.outpoint with
  | none => rfl
  | some lock => rfl

theorem mem_voterList : masternode∈cand.voterList outpoint ↔
    cand.hasMasternodeVoted outpoint masternode=true := by
  unfold voterList hasMasternodeVoted
  cases cand.mapOutPointLocks.find outpoint with
  | none => simp
  | some lock =>
    simp only [map_some,getD_some,COutPointLock.hasMasternodeVoted,
      contains_iff,← mem_entries_iff,List.mem_map,Prod.exists,exists_and_right,exists_eq_right]

theorem nodup_voterList : (cand.voterList outpoint).Nodup := by
  unfold voterList
  cases cand.mapOutPointLocks.find outpoint with
  | none => exact List.nodup_nil
  | some lock => exact lock.mapMasternodeVotes.nodup_keys

theorem length_voterList : (cand.voterList outpoint).length=cand.voters outpoint := by
  unfold voterList voters
  cases cand.mapOutPointLocks.find outpoint with
  | none => rfl
  | some lock => exact List.length_map _

theorem ready_iff : cand.isAllOutPointsReady=true ↔
    (∃ outpoint, cand.hasLock outpoint=true) ∧ ∀ outpoint, cand.hasLock outpoint=true →
      cand.attacked outpoint=false ∧ signaturesRequired ≤ cand.voters outpoint := by
  rw [isAllOutPointsReady,Bool.and_eq_true,Bool.not_eq_true',List.isEmpty_eq_false_iff,
    List.all_eq_true]
  refine and_congr ?_ ?_
  · simp only [← mem_outpoints_iff,outpoints,List.mem_map]
    constructor
    · intro hne
      obtain ⟨pair,hm⟩ := List.exists_mem_of_ne_nil _ hne
      exact ⟨pair.1,pair,hm,rfl⟩
    · rintro ⟨_,pair,hm,-⟩
      exact List.ne_nil_of_mem hm
  · have hlock : ∀ (outpoint : COutPoint) (lock : COutPointLock),
        cand.mapOutPointLocks.find outpoint=some lock → (lock.isReady=true ↔
          cand.attacked outpoint=false ∧ signaturesRequired ≤ cand.voters outpoint) := by
      intro outpoint lock hfind
      rw [attacked,voters,hfind,COutPointLock.isReady,COutPointLock.countVotes]
      cases hattacked : lock.fAttacked <;> simp [hattacked]
    constructor
    · intro hall outpoint hhas
      rw [hasLock,contains_iff] at hhas
      obtain ⟨lock,hfind⟩ := hhas
      exact (hlock outpoint lock hfind).mp
        (hall (outpoint,lock) ((cand.mapOutPointLocks.mem_entries_iff _ _).mpr hfind))
    · intro hall pair hm
      have hfind := (cand.mapOutPointLocks.mem_entries_iff pair.1 pair.2).mp hm
      refine (hlock pair.1 pair.2 hfind).mpr (hall pair.1 ?_)
      rw [hasLock,contains_iff]
      exact ⟨pair.2,hfind⟩

end CTxLockCandidate

namespace CInstantSend

/-- States that differ in candidates, votes and rejected requests only. -/
structure SameIndexes (st next : CInstantSend) : Prop where
  voted : next.mapVotedOutpoints=st.mapVotedOutpoints
  locked : next.mapLockedOutpoints=st.mapLockedOutpoints
  height : next.nCachedBlockHeight=st.nCachedBlockHeight
  orphans : next.mapTxLockVotesOrphan=st.mapTxLockVotesOrphan
  accepted : next.mapLockRequestAccepted=st.mapLockRequestAccepted

theorem SameIndexes.refl (st : CInstantSend) : SameIndexes st st := ⟨rfl,rfl,rfl,rfl,rfl⟩

theorem SameIndexes.trans {first second third : CInstantSend} (h : SameIndexes first second)
    (hnext : SameIndexes second third) : SameIndexes first third :=
  ⟨hnext.voted.trans h.voted,hnext.locked.trans h.locked,hnext.height.trans h.height,
    hnext.orphans.trans h.orphans,hnext.accepted.trans h.accepted⟩

section Lookups

variable {st : CInstantSend} {txHash other hash : Uint256} {outpoint : COutPoint}
variable {change : CTxLockCandidate → CTxLockCandidate} {vote : CTxLockVote}

theorem find_changeCandidate :
    (st.changeCandidate txHash change).mapTxLockCandidates.find other=
      (st.mapTxLockCandidates.find other).map (fun cand =>
        if other=txHash then change cand else cand) := by
  unfold changeCandidate
  cases hfind : st.mapTxLockCandidates.find txHash with
  | none =>
    by_cases he : other=txHash
    · rw [he,hfind]
      rfl
    · simp [he]
  | some cand =>
    dsimp only [setCandidate]
    rw [find_set]
    split_ifs with he
    · rw [he,hfind]
      rfl
    · simp

theorem sameIndexes_changeCandidate : SameIndexes st (st.changeCandidate txHash change) := by
  unfold changeCandidate
  split
  · exact SameIndexes.refl st
  · exact ⟨rfl,rfl,rfl,rfl,rfl⟩

theorem mem_votedHashes_addVoted {st : CInstantSend} {voted : COutPoint} :
    hash∈(st.addVoted outpoint txHash).votedHashes voted ↔
      (voted=outpoint ∧ hash=txHash) ∨ hash∈st.votedHashes voted := by
  unfold votedHashes addVoted
  rw [mem_items,mem_items,find_set]
  split_ifs with he
  · rw [getD_some,mem_insert,he]
    simp
  · simp [he]

/-- A masternode voted for an input in another candidate. -/
def Conflicting (st : CInstantSend) (vote : CTxLockVote) (hash : Uint256) : Prop :=
  hash≠vote.txHash ∧ ∃ cand, st.mapTxLockCandidates.find hash=some cand ∧
    cand.hasMasternodeVoted vote.outpoint vote.outpointMasternode=true

/-- Two conflicting candidates are both marked. -/
theorem find_markConflicting :
    (markConflicting vote st hash).mapTxLockCandidates.find other=
      (st.mapTxLockCandidates.find other).map (fun cand => open Classical in
        if st.Conflicting vote hash ∧ (other=vote.txHash ∨ other=hash) then
          cand.markOutpointAsAttacked vote.outpoint
        else cand) := by
  have hcond : (hash≠vote.txHash && ((st.mapTxLockCandidates.find hash).map (fun cand =>
      cand.hasMasternodeVoted vote.outpoint vote.outpointMasternode)).getD false)=true ↔
      st.Conflicting vote hash := by
    rw [Conflicting,Bool.and_eq_true,decide_eq_true_eq]
    cases st.mapTxLockCandidates.find hash <;> simp
  unfold markConflicting
  by_cases hclash : st.Conflicting vote hash
  · rw [if_pos (hcond.mpr hclash),find_changeCandidate,find_changeCandidate,map_map]
    congr 1
    grind
  · rw [if_neg (fun h => hclash (hcond.mp h))]
    simp [hclash]

theorem sameIndexes_markConflicting : SameIndexes st (markConflicting vote st hash) := by
  unfold markConflicting
  split_ifs
  · exact sameIndexes_changeCandidate.trans sameIndexes_changeCandidate
  · exact SameIndexes.refl st

theorem conflicting_markConflicting {found : Uint256} :
    (markConflicting vote st found).Conflicting vote hash ↔ st.Conflicting vote hash := by
  refine and_congr_right (fun _ => ?_)
  rw [find_markConflicting]
  cases st.mapTxLockCandidates.find hash with
  | none => simp
  | some cand =>
    simp only [map_some,Option.some.injEq,exists_eq_left']
    split_ifs
    · rw [CTxLockCandidate.hasMasternodeVoted_mark]
    · rfl

/-- A vote makes that an attack on a candidate is noted. -/
def Attacks (st : CInstantSend) (vote : CTxLockVote) (hashes : List Uint256) (other : Uint256) :
    Prop :=
  ∃ hash∈hashes, st.Conflicting vote hash ∧ (other=vote.txHash ∨ other=hash)

theorem find_foldl_markConflicting (hashes : List Uint256) :
    (hashes.foldl (markConflicting vote) st).mapTxLockCandidates.find other=
      (st.mapTxLockCandidates.find other).map (fun cand => open Classical in
        if st.Attacks vote hashes other then cand.markOutpointAsAttacked vote.outpoint
        else cand) ∧ SameIndexes st (hashes.foldl (markConflicting vote) st) := by
  induction hashes generalizing st with
  | nil => simp [Attacks,SameIndexes.refl]
  | cons hash hashes ih =>
    rw [List.foldl_cons]
    obtain ⟨hfind,hsame⟩ := @ih (markConflicting vote st hash)
    refine ⟨?_,sameIndexes_markConflicting.trans hsame⟩
    have hattacks : (markConflicting vote st hash).Attacks vote hashes other ↔
        st.Attacks vote hashes other := by
      simp only [Attacks,conflicting_markConflicting]
    have hcons : st.Attacks vote (hash::hashes) other ↔
        (st.Conflicting vote hash ∧ (other=vote.txHash ∨ other=hash)) ∨
          st.Attacks vote hashes other := by
      simp only [Attacks,List.exists_mem_cons_iff]
    rw [hfind,find_markConflicting,map_map]
    congr 1
    funext cand
    rw [comp_apply]
    by_cases hfirst : st.Conflicting vote hash ∧ (other=vote.txHash ∨ other=hash)
    · by_cases hlater : st.Attacks vote hashes other
      · simp [hcons,hattacks,hfirst,hlater]
      · simp [hcons,hattacks,hfirst,hlater]
    · grind

/-- Count a vote for its candidate. -/
def recordVote (st : CInstantSend) (vote : CTxLockVote) : CInstantSend×Bool :=
  (st.updateVotedOutpoints vote).addVoteToCandidate vote

/-- Candidates after a vote is recorded. -/
theorem find_recordVote :
    (st.recordVote vote).1.mapTxLockCandidates.find other=
      (st.mapTxLockCandidates.find other).map (fun cand => open Classical in
        let marked := if st.Attacks vote (st.votedHashes vote.outpoint) other then
          cand.markOutpointAsAttacked vote.outpoint else cand
        if other=vote.txHash then (marked.addVote vote).1 else marked) := by
  obtain ⟨hfind,-⟩ := @find_foldl_markConflicting st other vote (st.votedHashes vote.outpoint)
  have hupdate : (st.updateVotedOutpoints vote).mapTxLockCandidates=
      ((st.votedHashes vote.outpoint).foldl (markConflicting vote) st).mapTxLockCandidates := rfl
  unfold recordVote addVoteToCandidate
  cases hown : (st.updateVotedOutpoints vote).mapTxLockCandidates.find vote.txHash with
  | none =>
    rw [hupdate,hfind]
    by_cases he : other=vote.txHash
    · rw [hupdate,← he,hfind] at hown
      rw [map_eq_none_iff] at hown
      rw [hown]
      rfl
    · simp [he]
  | some cand =>
    dsimp only [setCandidate]
    rw [find_set]
    by_cases he : other=vote.txHash
    · rw [hupdate,← he,hfind,map_eq_some_iff] at hown
      obtain ⟨found,hfound,rfl⟩ := hown
      rw [if_pos he,hfound,map_some,if_pos he]
    · rw [if_neg he,hupdate,hfind]
      simp [he]

theorem recordVote_other :
    (st.recordVote vote).1.mapVotedOutpoints=
      (st.addVoted vote.outpoint vote.txHash).mapVotedOutpoints ∧
    (st.recordVote vote).1.mapLockedOutpoints=st.mapLockedOutpoints ∧
    (st.recordVote vote).1.nCachedBlockHeight=st.nCachedBlockHeight ∧
    (st.recordVote vote).1.mapTxLockVotesOrphan=st.mapTxLockVotesOrphan := by
  obtain ⟨-,hsame⟩ := @find_foldl_markConflicting st 0 vote (st.votedHashes vote.outpoint)
  have hadded : ∀ st : CInstantSend,
      (st.addVoteToCandidate vote).1.mapVotedOutpoints=st.mapVotedOutpoints ∧
      (st.addVoteToCandidate vote).1.mapLockedOutpoints=st.mapLockedOutpoints ∧
      (st.addVoteToCandidate vote).1.nCachedBlockHeight=st.nCachedBlockHeight ∧
      (st.addVoteToCandidate vote).1.mapTxLockVotesOrphan=st.mapTxLockVotesOrphan := by
    intro st
    unfold addVoteToCandidate
    split
    · exact ⟨rfl,rfl,rfl,rfl⟩
    · exact ⟨rfl,rfl,rfl,rfl⟩
  obtain ⟨hvoted,hlocked,hheight,horphans⟩ := hadded (st.updateVotedOutpoints vote)
  refine ⟨hvoted.trans ?_,hlocked.trans hsame.locked,hheight.trans hsame.height,
    horphans.trans hsame.orphans⟩
  unfold updateVotedOutpoints addVoted
  rw [hsame.voted]

end Lookups

variable {ctx : InstantContext} {env : InstantEnv} {st : CInstantSend}

theorem removeExpired_foldl (entries : List (Uint256×CTxLockCandidate)) (nHeight : ℤ)
    (hheight : st.nCachedBlockHeight=nHeight) :
    let next := entries.foldl (fun st entry =>
      if entry.2.isExpired ctx st.nCachedBlockHeight then
        st.removeCandidate ctx entry.1 entry.2
      else st) st
    (∀ hash cand, next.mapTxLockCandidates.find hash=some cand ↔
      st.mapTxLockCandidates.find hash=some cand ∧
        ∀ entry∈entries, entry.2.isExpired ctx nHeight=true → entry.1≠hash) ∧
    (∀ outpoint hashes, next.mapVotedOutpoints.find outpoint=some hashes ↔
      st.mapVotedOutpoints.find outpoint=some hashes ∧
        ∀ entry∈entries, entry.2.isExpired ctx nHeight=true → entry.2.hasLock outpoint=false) ∧
    (∀ outpoint hash, next.mapLockedOutpoints.find outpoint=some hash ↔
      st.mapLockedOutpoints.find outpoint=some hash ∧
        ∀ entry∈entries, entry.2.isExpired ctx nHeight=true → entry.2.hasLock outpoint=false) := by
  induction entries generalizing st with
  | nil => simp
  | cons entry entries ih =>
    rw [List.foldl_cons,hheight]
    by_cases hexpired : entry.2.isExpired ctx nHeight=true
    · rw [if_pos hexpired]
      obtain ⟨hcands,hvoted,hlocked⟩ :=
        @ih (st.removeCandidate ctx entry.1 entry.2) hheight
      have herase : ∀ {α : Type} (map : OrderedMap COutPoint α) (outpoint : COutPoint) (value : α),
          (entry.2.outpoints.foldl OrderedMap.erase map).find outpoint=some value ↔
            map.find outpoint=some value ∧ entry.2.hasLock outpoint=false := by
        intro α map outpoint value
        rw [find_foldl_erase]
        simp only [CTxLockCandidate.mem_outpoints_iff]
        cases entry.2.hasLock outpoint <;> simp
      refine ⟨fun hash cand => ?_,fun outpoint hashes => ?_,fun outpoint hash => ?_⟩
      · rw [hcands]
        simp only [removeCandidate,find_erase,List.forall_mem_cons,hexpired,true_imp_iff]
        by_cases he : hash=entry.1
        · simp [he]
        · simp [he,Ne.symm he]
      · rw [hvoted]
        simp only [removeCandidate,herase,List.forall_mem_cons,hexpired,true_imp_iff,and_assoc]
      · rw [hlocked]
        simp only [removeCandidate,herase,List.forall_mem_cons,hexpired,true_imp_iff,and_assoc]
    · rw [if_neg hexpired]
      obtain ⟨hcands,hvoted,hlocked⟩ := @ih st hheight
      refine ⟨fun hash cand => ?_,fun outpoint hashes => ?_,fun outpoint hash => ?_⟩
      · rw [hcands]
        simp only [List.forall_mem_cons,hexpired,false_imp_iff,true_and,Bool.false_eq_true]
      · rw [hvoted]
        simp only [List.forall_mem_cons,hexpired,false_imp_iff,true_and,Bool.false_eq_true]
      · rw [hlocked]
        simp only [List.forall_mem_cons,hexpired,false_imp_iff,true_and,Bool.false_eq_true]

/-- A candidate with an input expires. -/
def Expires (ctx : InstantContext) (st : CInstantSend) (outpoint : COutPoint) : Prop :=
  ∃ hash cand, st.mapTxLockCandidates.find hash=some cand ∧
    cand.isExpired ctx st.nCachedBlockHeight=true ∧ cand.hasLock outpoint=true

/-- What stays is what does not expire. -/
theorem find_removeExpired :
    (∀ hash cand, (st.removeExpired ctx).mapTxLockCandidates.find hash=some cand ↔
      st.mapTxLockCandidates.find hash=some cand ∧
        cand.isExpired ctx st.nCachedBlockHeight=false) ∧
    (∀ outpoint hashes, (st.removeExpired ctx).mapVotedOutpoints.find outpoint=some hashes ↔
      st.mapVotedOutpoints.find outpoint=some hashes ∧ ¬st.Expires ctx outpoint) ∧
    (∀ outpoint hash, (st.removeExpired ctx).mapLockedOutpoints.find outpoint=some hash ↔
      st.mapLockedOutpoints.find outpoint=some hash ∧ ¬st.Expires ctx outpoint) := by
  obtain ⟨hcands,hvoted,hlocked⟩ := @removeExpired_foldl ctx st
    st.mapTxLockCandidates.entries st.nCachedBlockHeight rfl
  have hexpires : ∀ outpoint, (∀ entry∈st.mapTxLockCandidates.entries,
      entry.2.isExpired ctx st.nCachedBlockHeight=true → entry.2.hasLock outpoint=false) ↔
        ¬st.Expires ctx outpoint := by
    intro outpoint
    simp only [Expires,Prod.forall,mem_entries_iff,not_exists,not_and,Bool.not_eq_true]
  refine ⟨fun hash cand => ?_,fun outpoint hashes => ?_,fun outpoint hash => ?_⟩
  · refine (hcands hash cand).trans (and_congr_right (fun hfind => ?_))
    simp only [Prod.forall,mem_entries_iff]
    grind
  · rw [← hexpires]
    exact hvoted outpoint hashes
  · rw [← hexpires]
    exact hlocked outpoint hash

end CInstantSend

end Pyrk.InstantSend
