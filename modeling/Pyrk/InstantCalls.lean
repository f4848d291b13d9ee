import Pyrk.InstantRuns

/-!
# Calls of InstantSend

Own votes go to a copy of the candidate. A call completes a lock when the inputs of the
candidate are free, and drops both transactions when one of them is not.
-/

namespace Pyrk.InstantSend

open Transaction CInstantSend OrderedMap List CTxLockCandidate CInstantSend

/-- The own masternode is not known to have voted for an input. -/
def Unvoted (ctx : InstantContext) (st : CInstantSend) (outpoint : COutPoint) : Prop :=
  ∀ hash∈st.votedHashes outpoint, ∃ cand, st.mapTxLockCandidates.find hash=some cand ∧
    cand.hasMasternodeVoted outpoint ctx.masternodeOutpoint=false

/-- The own masternode may vote for an input. -/
def MayVote (ctx : InstantContext) (env : InstantEnv) (outpoint : COutPoint) : Prop :=
  ∃ entry rank, env.getUTXOCoin outpoint=some entry ∧
    env.getMasternodeRank ctx.masternodeOutpoint
      (entry.nHeight+ctx.nInstantSendConfirmationsRequired-2)=some rank ∧ rank.1 ≤ signaturesTotal

/-- An own vote is made. -/
structure Cast (ctx : InstantContext) (env : InstantEnv) (voting next : Voting)
    (vote : CTxLockVote) : Prop where
  txHash : vote.txHash=voting.cand.getHash ctx
  hasLock : voting.cand.hasLock vote.outpoint=true
  masternode : vote.outpointMasternode=ctx.masternodeOutpoint
  mayVote : MayVote ctx env vote.outpoint
  unvoted : Unvoted ctx voting.st vote.outpoint
  result : next=voting.castVote ctx vote

/-- Chains of own votes. -/
abbrev Casts (ctx : InstantContext) (env : InstantEnv) : Voting → Voting → Prop :=
  Relation.ReflTransGen (fun voting next => ∃ vote, Cast ctx env voting next vote)

section Voting

variable {ctx : InstantContext} {env : InstantEnv} {strict : Prop}
variable {okClean : CInstantSend → Prop} {st : CInstantSend} {voting next : Voting}

variable {outpoint : COutPoint}

theorem hasVotedFor_eq_false {hashes : List Uint256} :
    st.hasVotedFor ctx outpoint hashes=.ok false ↔
      ∀ hash∈hashes, ∃ cand, st.mapTxLockCandidates.find hash=some cand ∧
        cand.hasMasternodeVoted outpoint ctx.masternodeOutpoint=false := by
  induction hashes with
  | nil => simp [hasVotedFor]
  | cons hash hashes ih =>
    rw [hasVotedFor,forall_mem_cons]
    cases hfind : st.mapTxLockCandidates.find hash with
    | none => simp
    | some cand =>
      cases hvoted : cand.hasMasternodeVoted outpoint ctx.masternodeOutpoint with
      | false => simp [hvoted,ih]
      | true => simp [hvoted]

theorem hasVotedFor_ok {outpoint : COutPoint} {hashes : List Uint256}
    (h : ∀ hash∈hashes, (st.mapTxLockCandidates.find hash).isSome=true) :
    ∃ voted, st.hasVotedFor ctx outpoint hashes=.ok voted := by
  induction hashes with
  | nil => exact ⟨false,rfl⟩
  | cons hash hashes ih =>
    rw [hasVotedFor]
    grind

/-- A round of the vote loop casts a vote or changes nothing. -/
theorem voteOutpoint_cases {result : Voting×Bool}
    (h : voteOutpoint ctx env voting outpoint=.ok result)
    (hlock : voting.cand.hasLock outpoint=true) :
    result.1=voting ∨ ∃ vote, vote.outpoint=outpoint ∧ Cast ctx env voting result.1 vote := by
  unfold voteOutpoint at h
  split at h
  · cases h
    exact .inl rfl
  · rename_i entry hentry
    split at h
    · cases h
      exact .inl rfl
    · rename_i rank hrank
      split_ifs at h with hlow
      · cases h
        exact .inl rfl
      · rw [bind_eq_ok] at h
        obtain ⟨fAlreadyVoted,hvoted,h⟩ := h
        split_ifs at h with hskip
        · cases h
          exact .inl rfl
        · rw [Bool.not_eq_true] at hskip
          rw [hskip,hasVotedFor_eq_false] at hvoted
          dsimp only at h
          split_ifs at h
          · cases h
            exact .inl rfl
          · cases h
            exact .inr ⟨ownVote ctx env (voting.cand.getHash ctx) outpoint rank.2,rfl,
              ⟨rfl,hlock,rfl,⟨entry,rank,hentry,hrank,Int.not_lt.mp hlow⟩,hvoted,rfl⟩⟩

theorem Cast.shape {vote : CTxLockVote} (h : Cast ctx env voting next vote) :
    SameShape voting.cand next.cand := by
  rw [h.result,Voting.castVote]
  split_ifs
  · exact ⟨by simp,by simp,by simp⟩
  · exact ⟨by simp,by simp,by simp⟩

/-- Casting votes keeps request, time and outpoints. -/
theorem Casts.shape (h : Casts ctx env voting next) : SameShape voting.cand next.cand := by
  induction h with
  | refl => exact SameShape.refl _
  | tail _ hlast ih =>
    obtain ⟨vote,hcast⟩ := hlast
    exact ih.trans hcast.shape

theorem voteOutpoints_casts {outpoints : List COutPoint}
    (h : voteOutpoints ctx env outpoints voting=.ok next)
    (hlocks : ∀ outpoint∈outpoints, voting.cand.hasLock outpoint=true) :
    Casts ctx env voting next := by
  induction outpoints generalizing voting with
  | nil =>
    rw [voteOutpoints,Except.ok.injEq] at h
    rw [h]
  | cons outpoint outpoints ih =>
    obtain ⟨hfirst,hrest⟩ := forall_mem_cons.mp hlocks
    rw [voteOutpoints,bind_eq_ok] at h
    obtain ⟨result,hres,h⟩ := h
    have hone : Casts ctx env voting result.1 := by
      rcases voteOutpoint_cases hres hfirst with he | ⟨vote,-,hcast⟩
      · rw [he]
      · exact .single ⟨vote,hcast⟩
    split_ifs at h
    · refine hone.trans (ih h (fun other hm => ?_))
      rw [hone.shape.hasLock]
      exact hrest other hm
    · cases h
      exact hone

theorem voteOutpoint_ok {outpoint : COutPoint} (h : ∀ hash∈voting.st.votedHashes outpoint,
      (voting.st.mapTxLockCandidates.find hash).isSome=true) :
    ∃ result, voteOutpoint ctx env voting outpoint=.ok result := by
  unfold voteOutpoint
  split
  · exact ⟨_,rfl⟩
  · split
    · exact ⟨_,rfl⟩
    · obtain ⟨voted,hvoted⟩ := @hasVotedFor_ok ctx voting.st outpoint _ h
      rw [hvoted]
      split_ifs
      · exact ⟨_,rfl⟩
      · rw [ok_bind]
        split_ifs
        · exact ⟨_,rfl⟩
        · dsimp only
          split_ifs
          · exact ⟨_,rfl⟩
          · exact ⟨_,rfl⟩

theorem voteOutpoints_ok {first : Voting}
    (hknown : ∀ current, Casts ctx env first current → ∀ outpoint,
      first.cand.hasLock outpoint=true → ∀ hash∈current.st.votedHashes outpoint,
        (current.st.mapTxLockCandidates.find hash).isSome=true)
    (hcasts : Casts ctx env first voting) {outpoints : List COutPoint}
    (hlocks : ∀ outpoint∈outpoints, first.cand.hasLock outpoint=true) :
    ∃ result, voteOutpoints ctx env outpoints voting=.ok result := by
  induction outpoints generalizing voting with
  | nil => exact ⟨voting,rfl⟩
  | cons outpoint outpoints ih =>
    obtain ⟨hfirst,hrest⟩ := forall_mem_cons.mp hlocks
    obtain ⟨result,hres⟩ := @voteOutpoint_ok ctx env voting outpoint
      (hknown voting hcasts outpoint hfirst)
    have hone : Casts ctx env voting result.1 := by
      rcases voteOutpoint_cases hres (by rwa [hcasts.shape.hasLock]) with he | ⟨vote,-,hcast⟩
      · rw [he]
      · exact .single ⟨vote,hcast⟩
    rw [voteOutpoints,hres,ok_bind]
    split_ifs
    · exact ih (hcasts.trans hone) hrest
    · exact ⟨_,rfl⟩

variable {txHash : Uint256}

theorem Sound.getHash (h : Sound st) {stored cand : CTxLockCandidate}
    (hfind : st.mapTxLockCandidates.find txHash=some stored) (hshape : SameShape stored cand)
    (hlock : cand.hasLock outpoint=true) :
    cand.getHash ctx=txHash := by
  rw [hshape.hasLock] at hlock
  rcases h.inputs txHash stored hfind with hempty | ⟨tx,htx,-⟩
  · rw [hempty outpoint] at hlock
    cases hlock
  · rw [CTxLockCandidate.getHash,hshape.request,htx]
    exact h.keyed txHash stored tx hfind htx

theorem castVote_other (vote : CTxLockVote) :
    (voting.castVote ctx vote).st.mapTxLockCandidates=voting.st.mapTxLockCandidates ∧
    (voting.castVote ctx vote).st.mapLockedOutpoints=voting.st.mapLockedOutpoints ∧
    (voting.castVote ctx vote).st.nCachedBlockHeight=voting.st.nCachedBlockHeight := by
  unfold Voting.castVote
  dsimp only
  split_ifs
  · exact ⟨rfl,rfl,rfl⟩
  · exact ⟨rfl,rfl,rfl⟩

theorem castVote_changes {vote : CTxLockVote} {stored : CTxLockCandidate}
    (hfind : voting.st.mapTxLockCandidates.find vote.txHash=some stored)
    (hlock : stored.hasLock vote.outpoint=true) :
    Changes ctx strict okClean voting.st (voting.castVote ctx vote).st := by
  unfold Voting.castVote
  dsimp only
  split_ifs
  · exact Relation.ReflTransGen.head (@Change.other ctx strict okClean voting.st
      { voting.st with
        mapTxLockVotes := voting.st.mapTxLockVotes.emplace (vote.getHash ctx) vote }
      rfl rfl rfl) (.single (.index hfind hlock))
  · exact .single (.other rfl rfl rfl)

theorem Casts.changes (h : Casts ctx env voting next) (hsound : Sound voting.st)
    {txHash : Uint256} {stored : CTxLockCandidate}
    (hfind : voting.st.mapTxLockCandidates.find txHash=some stored)
    (hshape : SameShape stored voting.cand) :
    Changes ctx strict okClean voting.st next.st ∧
      next.st.mapTxLockCandidates=voting.st.mapTxLockCandidates ∧
      next.st.mapLockedOutpoints=voting.st.mapLockedOutpoints := by
  induction h with
  | refl => exact ⟨.refl,rfl,rfl⟩
  | @tail current final hfirst hlast ih =>
    obtain ⟨vote,hcast⟩ := hlast
    obtain ⟨hchanges,hcands,hlocked⟩ := ih
    have hsame := hshape.trans (Casts.shape hfirst)
    have hkey : vote.txHash=txHash := by
      rw [hcast.txHash]
      rw [← hcands] at hfind
      exact (hchanges.invariant (fun _ _ h => h.sound) hsound).getHash hfind hsame hcast.hasLock
    obtain ⟨hother,hkept,-⟩ := @castVote_other ctx current vote
    rw [hcast.result]
    refine ⟨hchanges.trans (castVote_changes (by rw [hcands,hkey]; exact hfind) ?_),
      hother.trans hcands,hkept.trans hlocked⟩
    rw [← hsame.hasLock]
    exact hcast.hasLock

theorem voteCandidate_casts {cand : CTxLockCandidate}
    (h : st.voteCandidate ctx env cand=.ok next) :
    Casts ctx env { st := st, cand := cand } next := by
  unfold voteCandidate at h
  split_ifs at h
  · cases h
    exact .refl
  · exact voteOutpoints_casts h (fun outpoint hm => mem_outpoints_iff.mp hm)

theorem vote_cases {pending : Pending} (h : st.vote ctx env txHash=.ok pending) :
    (st.mapTxLockCandidates.find txHash=none ∧ pending={ st := st }) ∨
    ∃ stored voting, st.mapTxLockCandidates.find txHash=some stored ∧
      Casts ctx env { st := st, cand := stored } voting ∧
      pending={ st := voting.st, cand := some voting.cand, relayed := voting.relayed } := by
  unfold vote at h
  split at h
  · rename_i hfind
    cases h
    exact .inl ⟨hfind,rfl⟩
  · rename_i stored hfind
    rw [bind_eq_ok] at h
    obtain ⟨voting,hvoting,h⟩ := h
    cases h
    exact .inr ⟨stored,voting,hfind,voteCandidate_casts hvoting,rfl⟩

theorem vote_changes (hsound : Sound st) {pending : Pending}
    (h : st.vote ctx env txHash=.ok pending) :
    Changes ctx strict okClean st pending.st ∧ PendingFor pending := by
  rcases vote_cases h with ⟨-,rfl⟩ | ⟨stored,voting,hfind,hcasts,rfl⟩
  · exact ⟨.refl,fun _ hsome => by cases hsome⟩
  · obtain ⟨hchanges,hcands,-⟩ :=
      @Casts.changes ctx env strict okClean _ _ hcasts hsound txHash stored hfind
        (SameShape.refl stored)
    refine ⟨hchanges,fun cand hcand => ⟨txHash,stored,?_,?_⟩⟩
    · exact (congrArg (fun map => map.find txHash) hcands).trans hfind
    · rw [Option.some.injEq] at hcand
      rw [← hcand]
      exact hcasts.shape

end Voting

section Completion

variable {ctx : InstantContext} {env : InstantEnv} {strict : Prop}
variable {okClean : CInstantSend → Prop} {st : CInstantSend} {cand : CTxLockCandidate}

/-- The lock of a candidate is completed. -/
structure Completes (ctx : InstantContext) (env : InstantEnv) (st : CInstantSend)
    (cand : CTxLockCandidate) : Prop where
  active : env.fInstantSendActive=true
  ready : cand.isAllOutPointsReady=true
  unlocked : st.isLockedInstantSendTransaction env (cand.getHash ctx)=false
  resolved : st.resolveConflicts ctx env cand=(st,true)

theorem Completes.conflict (h : Completes ctx env st cand) :
    cand.vin.findSome? (st.inputConflict env (cand.getHash ctx))=none := by
  have hresolved := h.resolved
  unfold resolveConflicts at hresolved
  grind

theorem resolveConflicts_fst (h : (st.resolveConflicts ctx env cand).2=true) :
    (st.resolveConflicts ctx env cand).1=st := by
  unfold resolveConflicts at h ⊢
  split_ifs at h ⊢
  revert h
  split
  · intro h
    cases h
  · intro h
    cases h
  · exact fun _ => rfl

/-- Whether the lock of a candidate is completed can be computed. -/
instance : Decidable (Completes ctx env st cand) :=
  decidable_of_iff ((env.fInstantSendActive && cand.isAllOutPointsReady &&
    !st.isLockedInstantSendTransaction env (cand.getHash ctx) &&
      (st.resolveConflicts ctx env cand).2)=true) (by
    rw [Bool.and_eq_true,Bool.and_eq_true,Bool.and_eq_true,Bool.not_eq_true']
    constructor
    · rintro ⟨⟨⟨hact,hready⟩,hunlocked⟩,hresolved⟩
      exact ⟨hact,hready,hunlocked,Prod.ext (resolveConflicts_fst hresolved) hresolved⟩
    · rintro ⟨hact,hready,hunlocked,hresolved⟩
      exact ⟨⟨⟨hact,hready⟩,hunlocked⟩,by rw [hresolved]⟩)

theorem tryToFinalizeLockCandidate_cases (st : CInstantSend) (cand : CTxLockCandidate) :
    (Completes ctx env st cand ∧ st.tryToFinalizeLockCandidate ctx env cand=
        st.lockTransactionInputs ctx env cand) ∨
    (∃ hashConflicting : Uint256, (env.fInstantSendActive && cand.isAllOutPointsReady &&
        !st.isLockedInstantSendTransaction env (cand.getHash ctx))=true ∧
      cand.vin.findSome? (st.inputConflict env (cand.getHash ctx))=
        some (.lock hashConflicting) ∧
      st.tryToFinalizeLockCandidate ctx env cand=
        st.dropBoth ctx env (cand.getHash ctx) hashConflicting) ∨
    (¬Completes ctx env st cand ∧
      st.tryToFinalizeLockCandidate ctx env cand=st) := by
  unfold tryToFinalizeLockCandidate
  by_cases htry : (env.fInstantSendActive && cand.isAllOutPointsReady &&
      !st.isLockedInstantSendTransaction env (cand.getHash ctx))=true
  · rw [if_pos htry]
    have hcond := htry
    rw [Bool.and_eq_true,Bool.and_eq_true,Bool.not_eq_true'] at hcond
    obtain ⟨⟨hact,hready⟩,hunlocked⟩ := hcond
    cases hclash : cand.vin.findSome?
        (st.inputConflict env (cand.getHash ctx)) with
    | none =>
      have hresolve : st.resolveConflicts ctx env cand=
          (st,env.isInBlock (cand.getHash ctx) ||
            cand.vin.all (fun txin => (env.getUTXOCoin txin.prevout).isSome)) := by
        simp [resolveConflicts,hready,hclash]
      rw [hresolve]
      dsimp only
      split_ifs with hcoins
      · rw [hcoins] at hresolve
        exact .inl ⟨⟨hact,hready,hunlocked,hresolve⟩,rfl⟩
      · refine .inr (.inr ⟨fun hcompletes => ?_,rfl⟩)
        have hresolved := hcompletes.resolved
        rw [hresolve,Prod.mk.injEq] at hresolved
        exact hcoins hresolved.2
    | some conflict =>
      cases conflict with
      | lock hashConflicting =>
        refine .inr (.inl ⟨hashConflicting,htry,rfl,?_⟩)
        simp [resolveConflicts,hready,hclash]
      | mempool =>
        refine .inr (.inr ⟨fun hcompletes => ?_,?_⟩)
        · have hnone := hcompletes.conflict
          rw [hclash] at hnone
          cases hnone
        · simp [resolveConflicts,hready,hclash]
  · rw [if_neg htry]
    refine .inr (.inr ⟨fun hcompletes => htry ?_,rfl⟩)
    rw [hcompletes.active,hcompletes.ready,hcompletes.unlocked]
    rfl

theorem find_foldl_emplace (outpoints : List COutPoint) (locked : OrderedMap COutPoint Uint256)
    (txHash : Uint256) (outpoint : COutPoint) :
    (outpoints.foldl (fun locked outpoint => locked.emplace outpoint txHash) locked).find outpoint=
      if outpoint∈outpoints then some ((locked.find outpoint).getD txHash)
      else locked.find outpoint := by
  induction outpoints generalizing locked with
  | nil => simp
  | cons first outpoints ih =>
    rw [foldl_cons,ih]
    have hfind : (locked.emplace first txHash).find outpoint=
        if outpoint=first then some ((locked.find first).getD txHash) else
          locked.find outpoint := by
      rw [find_emplace]
      congr
    rw [hfind]
    by_cases he : outpoint=first
    · simp [he]
    · simp [he]

theorem lockTransactionInputs_change (hsound : Sound st) {txHash : Uint256}
    {stored : CTxLockCandidate} (hfind : st.mapTxLockCandidates.find txHash=some stored)
    (hshape : SameShape stored cand) (hcompletes : Completes ctx env st cand) :
    Change ctx strict okClean st (st.lockTransactionInputs ctx env cand) := by
  obtain ⟨⟨first,hfirst⟩,-⟩ := ready_iff.mp hcompletes.ready
  have hkey : cand.getHash ctx=txHash := hsound.getHash hfind hshape hfirst
  have hfree : ∀ outpoint, stored.hasLock outpoint=true → ∀ hash,
      st.mapLockedOutpoints.find outpoint=some hash → hash=txHash := by
    intro outpoint hlock hash hlocked
    rcases hsound.inputs txHash stored hfind with hempty | ⟨tx,htx,hinputs⟩
    · rw [hempty outpoint] at hlock
      cases hlock
    · obtain ⟨txin,hin,rfl⟩ := mem_map.mp ((hinputs outpoint).mp hlock)
      have hvin : txin∈cand.vin := by
        rw [vin,hshape.request,htx]
        exact hin
      have hnone := List.findSome?_eq_none_iff.mp hcompletes.conflict txin hvin
      by_contra hne
      have hother : (some hash).filter (fun hash => decide (txHash≠hash))=some hash := by
        simp [Ne.symm hne]
      rw [inputConflict,hkey,hlocked,hother] at hnone
      cases hnone
  have hres : st.lockTransactionInputs ctx env cand={ st with
      mapLockedOutpoints := cand.outpoints.foldl (fun locked outpoint =>
        locked.emplace outpoint txHash) st.mapLockedOutpoints } := by
    simp [lockTransactionInputs,hcompletes.active,hcompletes.ready,hkey]
  rw [hres]
  refine .lock hfind hfree rfl rfl (fun outpoint => ?_)
  rw [find_foldl_emplace]
  by_cases hlock : stored.hasLock outpoint=true
  · rw [if_pos hlock,if_pos (mem_outpoints_iff.mpr (by rwa [hshape.hasLock]))]
    cases hlocked : st.mapLockedOutpoints.find outpoint with
    | none => rfl
    | some hash => rw [hfree outpoint hlock hash hlocked,Option.getD_some]
  · rw [if_neg hlock,if_neg (fun hm => hlock ?_)]
    rw [← hshape.hasLock]
    exact mem_outpoints_iff.mp hm

theorem dropBoth_changes {txHash hashConflicting : Uint256}
    (hclean : st.mapTxLockCandidates.contains txHash=true →
      st.mapTxLockCandidates.contains hashConflicting=true → env.fMasternodeListSynced=true →
      okClean (st.expireBoth txHash hashConflicting)) :
    Changes ctx strict okClean st (st.dropBoth ctx env txHash hashConflicting) := by
  unfold dropBoth
  split_ifs with hknown
  · exact .refl
  · rw [Bool.or_eq_true,Bool.not_eq_true',Bool.not_eq_true',not_or,Bool.not_eq_false,
      Bool.not_eq_false] at hknown
    have hexpire : Changes ctx strict okClean st (st.expireBoth txHash hashConflicting) :=
      Relation.ReflTransGen.head (.confirm txHash 0) (.single (.confirm hashConflicting 0))
    refine @Relation.ReflTransGen.tail _ _ _ ((st.expireBoth txHash hashConflicting).checkAndRemove
      ctx env) _ ?_ (.other rfl rfl rfl)
    unfold checkAndRemove
    split_ifs with hsynced
    · exact hexpire
    · have hok := hclean hknown.1 hknown.2 (by simpa using hsynced)
      exact (hexpire.tail (.clean hok)).tail (.other rfl rfl rfl)

theorem finish_changes {pending : Pending} (hsound : Sound pending.st) (hfor : PendingFor pending)
    (hclean : ∀ next∈pending.cleanups ctx env, okClean next) :
    Changes ctx strict okClean pending.st (pending.finish ctx env) := by
  unfold Pending.finish
  cases hcand : pending.cand with
  | none => exact .refl
  | some cand =>
    obtain ⟨txHash,stored,hfind,hshape⟩ := hfor cand hcand
    rcases @tryToFinalizeLockCandidate_cases ctx env pending.st cand with
      ⟨hcompletes,he⟩ | ⟨hashConflicting,htry,hclash,he⟩ | ⟨-,he⟩
    · dsimp only
      rw [he]
      exact .single (lockTransactionInputs_change hsound hfind hshape hcompletes)
    · dsimp only
      rw [he]
      refine dropBoth_changes (fun hknown hother hsynced => hclean _ ?_)
      unfold Pending.cleanups
      grind
    · dsimp only
      rw [he]

end Completion

section Steps

variable {ctx : InstantContext} {env : InstantEnv} {strict : Prop}
variable {okClean : CInstantSend → Prop} {st next : CInstantSend} {event : Event}

theorem processMessage_changes {vote : CTxLockVote} (hnames : strict → NamesInput env st vote) :
    Changes ctx strict okClean st (st.processMessage ctx env vote).st ∧
      PendingStored (st.processMessage ctx env vote) := by
  unfold processMessage
  split_ifs
  · exact ⟨.refl,rfl,fun _ hsome => by cases hsome⟩
  · exact ⟨.refl,rfl,fun _ hsome => by cases hsome⟩
  · obtain ⟨hchanges,hstored⟩ := @processNewTxLockVote_changes ctx env strict okClean
      { st with mapTxLockVotes := st.mapTxLockVotes.set (vote.getHash ctx) vote } vote hnames
    exact ⟨Relation.ReflTransGen.head (@Change.other ctx strict okClean st
      { st with mapTxLockVotes := st.mapTxLockVotes.set (vote.getHash ctx) vote }
      rfl rfl rfl) hchanges,hstored⟩

theorem syncTransaction_changes (tx : CTransaction) (nHeightNew : ℤ) :
    Changes ctx strict okClean st (st.syncTransaction ctx env tx nHeightNew) := by
  unfold syncTransaction
  split_ifs
  · exact .refl
  · exact Relation.ReflTransGen.head (.confirm tx.hash nHeightNew) (.single (.other rfl rfl rfl))

/-- Every call is a sequence of small changes. -/
theorem process_changes (hsound : Sound st) {pending : Pending}
    (h : st.process ctx env event=.ok pending)
    (hvotes : strict → VotesInputs ctx env st event)
    (hclean : ∀ next∈st.cleanups ctx env event, okClean next) :
    Changes ctx strict okClean st pending.st ∧ PendingFor pending ∧
      ((∀ txHash, event≠.vote txHash) → PendingStored pending) := by
  have hboth : ∀ {pending : Pending}, Changes ctx strict okClean st pending.st ∧
      PendingStored pending → Changes ctx strict okClean st pending.st ∧
        PendingFor pending ∧ ((∀ txHash, event≠.vote txHash) → PendingStored pending) :=
    fun h => ⟨h.1,h.2.pendingFor,fun _ => h.2⟩
  cases event with
  | request tx => exact hboth (processTxLockRequest_changes hsound h hvotes)
  | message vote =>
    cases h
    exact hboth (processMessage_changes hvotes)
  | newVote vote =>
    cases h
    exact hboth (processNewTxLockVote_changes hvotes)
  | vote txHash =>
    obtain ⟨hchanges,hfor⟩ := vote_changes hsound h
    exact ⟨hchanges,hfor,fun hnot => absurd rfl (hnot txHash)⟩
  | sync tx nHeightNew =>
    cases h
    exact hboth ⟨syncTransaction_changes tx nHeightNew,rfl,fun _ hsome => by cases hsome⟩
  | cleanup =>
    cases h
    refine hboth ⟨?_,rfl,fun _ hsome => by cases hsome⟩
    unfold checkAndRemove
    split_ifs with hsynced
    · exact .refl
    · refine Relation.ReflTransGen.head (.clean (hclean st ?_)) (.single (.other rfl rfl rfl))
      exact mem_append_left _ (by simpa using hsynced)
  | accept tx =>
    cases h
    exact hboth ⟨.single (.other rfl rfl rfl),rfl,fun _ hsome => by cases hsome⟩
  | reject tx =>
    cases h
    exact hboth ⟨.single (.other rfl rfl rfl),rfl,fun _ hsome => by cases hsome⟩
  | tip nHeight =>
    cases h
    exact hboth ⟨.single (.other rfl rfl rfl),rfl,fun _ hsome => by cases hsome⟩

/-- So is every event. -/
theorem step_changes (hsound : Sound st) (h : st.step ctx env event=.ok next)
    (hvotes : strict → VotesInputs ctx env st event)
    (hclean : ∀ next∈st.cleanups ctx env event, okClean next) :
    Changes ctx strict okClean st next := by
  unfold step at h
  rw [bind_eq_ok] at h
  obtain ⟨pending,hpending,h⟩ := h
  cases h
  obtain ⟨hchanges,hfor,-⟩ := process_changes hsound hpending hvotes hclean
  refine hchanges.trans (finish_changes (hchanges.invariant (fun _ _ h => h.sound) hsound) hfor
    (fun cleaned hm => hclean cleaned ?_))
  unfold cleanups
  rw [hpending]
  exact mem_append_right _ hm

end Steps

/-- States that calls lead to, each of them in surroundings of its own. -/
inductive Run (ctx : InstantContext) (ok : InstantEnv → CInstantSend → Event → Prop) :
    CInstantSend → Prop where
  | start : Run ctx ok {}
  | step {st next : CInstantSend} (env : InstantEnv) (event : Event) (hrun : Run ctx ok st)
      (hok : ok env st event) (hstep : st.step ctx env event=.ok next) :
      Run ctx ok next

variable {ok : InstantEnv → CInstantSend → Event → Prop}

theorem Run.sound {ctx : InstantContext}
    {st : CInstantSend} (h : Run ctx ok st) : Sound st := by
  induction h with
  | start =>
    exact ⟨(fun _ _ _ hfind => by simp [find_empty] at hfind),
      (fun _ _ hfind => by simp [find_empty] at hfind)⟩
  | @step st next env event hrun hok hstep ih =>
    exact Changes.invariant (fun _ _ h => h.sound)
      (@step_changes ctx env False (fun _ => True) st next event ih hstep
        (fun hstrict => hstrict.elim) (fun _ _ => trivial)) ih

/-- Make calls as long as each of them passes a check. -/
def CInstantSend.steps (ctx : InstantContext) (check : InstantEnv → CInstantSend → Event → Bool) :
    List (InstantEnv×Event) → CInstantSend → Option CInstantSend
  | [],st => some st
  | call::calls,st =>
    if check call.1 st call.2 then
      (st.step ctx call.1 call.2).toOption.bind (CInstantSend.steps ctx check calls)
    else none

theorem Run.steps {ctx : InstantContext} {check : InstantEnv → CInstantSend → Event → Bool}
    (hcheck : ∀ env st event, check env st event=true → ok env st event)
    {calls : List (InstantEnv×Event)} {st next : CInstantSend} (h : Run ctx ok st)
    (hsteps : st.steps ctx check calls=some next) : Run ctx ok next := by
  induction calls generalizing st with
  | nil =>
    rw [CInstantSend.steps,Option.some.injEq] at hsteps
    rwa [← hsteps]
  | cons call calls ih =>
    rw [CInstantSend.steps] at hsteps
    split_ifs at hsteps with hcall
    cases hstep : st.step ctx call.1 call.2 with
    | error failure =>
      rw [hstep] at hsteps
      cases hsteps
    | ok found =>
      rw [hstep] at hsteps
      exact ih (h.step call.1 call.2 (hcheck _ _ _ hcall) hstep) hsteps

end Pyrk.InstantSend
