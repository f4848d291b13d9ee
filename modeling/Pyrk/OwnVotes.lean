import Pyrk.LockSafety

/-!
# Own votes

A node looks for its own earlier votes in stored candidates, but adds the new vote to a copy.
-/

namespace Pyrk.InstantSend

open Transaction DeterministicMNList CInstantSend List CTxLockVote

/-- Own votes whose candidates have not expired. -/
def openVotes (ctx : InstantContext) (st : CInstantSend) (votes : List CTxLockVote) :
    List CTxLockVote :=
  votes.filter (fun vote => (st.mapTxLockCandidates.find vote.txHash).any (fun cand =>
    !cand.isExpired ctx st.nCachedBlockHeight))

/-- Runs with the own votes that are open. -/
inductive OwnRun (ctx : InstantContext)
    (ok : InstantEnv → CInstantSend → List CTxLockVote → Event → Prop) :
    CInstantSend → List CTxLockVote → Prop where
  | start : OwnRun ctx ok {} []
  /-- Votes of a call are open until their candidates expire. -/
  | step {st : CInstantSend} {votes : List CTxLockVote} {pending : Pending} (env : InstantEnv)
      (event : Event) (hrun : OwnRun ctx ok st votes) (hok : ok env st votes event)
      (hprocess : st.process ctx env event=.ok pending) :
      OwnRun ctx ok (pending.finish ctx env)
        (openVotes ctx (pending.finish ctx env) (votes++pending.relayed))

/-- A node that votes for a transaction finds its open votes for the inputs: they are in a candidate
that the index names, or in the candidate of the transaction. -/
def FindsOpenVotes (ctx : InstantContext) (env : InstantEnv) (st : CInstantSend)
    (votes : List CTxLockVote) : Event → Prop
  | .vote txHash => ∀ cand vote, st.mapTxLockCandidates.find txHash=some cand →
      vote∈votes → cand.hasLock vote.outpoint=true → env.fMasternodeMode=true →
      env.fInstantSendActive=true →
      st.mapLockRequestAccepted.contains (cand.getHash ctx)=true →
      MayVote ctx env vote.outpoint →
      cand.hasMasternodeVoted vote.outpoint ctx.masternodeOutpoint=true ∨
        ∃ hash∈st.votedHashes vote.outpoint, ∃ found,
          st.mapTxLockCandidates.find hash=some found ∧
          found.hasMasternodeVoted vote.outpoint ctx.masternodeOutpoint=true
  | _ => True

section Votes

variable {ctx : InstantContext} {env : InstantEnv} {st : CInstantSend}

/-- What is known of the own votes of a call. -/
structure CastVotes (ctx : InstantContext) (env : InstantEnv) (first voting : Voting) : Prop where
  candidates : voting.st.mapTxLockCandidates=first.st.mapTxLockCandidates
  voted : ∀ outpoint hash, hash∈first.st.votedHashes outpoint →
    hash∈voting.st.votedHashes outpoint
  grows : ∀ outpoint masternode, first.cand.hasMasternodeVoted outpoint masternode=true →
    voting.cand.hasMasternodeVoted outpoint masternode=true
  known : ∀ vote∈voting.relayed,
    voting.cand.hasMasternodeVoted vote.outpoint ctx.masternodeOutpoint=true
  nodup : (voting.relayed.map outpoint).Nodup
  fresh : ∀ vote∈voting.relayed, first.cand.hasLock vote.outpoint=true ∧
    MayVote ctx env vote.outpoint ∧ Unvoted ctx first.st vote.outpoint ∧
    first.cand.hasMasternodeVoted vote.outpoint ctx.masternodeOutpoint=false

theorem castVote_added {voting : Voting} {vote : CTxLockVote}
    (h : (voting.cand.addVote vote).2=true) :
    (voting.castVote ctx vote).relayed=voting.relayed++[vote] ∧
    (voting.castVote ctx vote).cand=(voting.cand.addVote vote).1 ∧
    voting.cand.hasMasternodeVoted vote.outpoint vote.outpointMasternode=false := by
  refine ⟨by simp [Voting.castVote,h],by simp [Voting.castVote,h],?_⟩
  rw [CTxLockCandidate.addVote_snd,Bool.and_eq_true,Bool.not_eq_true'] at h
  exact h.2

theorem castVote_skipped {voting : Voting} {vote : CTxLockVote}
    (h : ¬(voting.cand.addVote vote).2=true) :
    (voting.castVote ctx vote).relayed=voting.relayed ∧
    (voting.castVote ctx vote).cand=(voting.cand.addVote vote).1 ∧
    ∀ outpoint, (voting.castVote ctx vote).st.votedHashes outpoint=
      voting.st.votedHashes outpoint := by
  refine ⟨by simp [Voting.castVote,h],by simp [Voting.castVote,h],fun outpoint => ?_⟩
  refine votedHashes_eq ?_ outpoint
  simp [Voting.castVote,h]

theorem castVote_voted {voting : Voting} {vote : CTxLockVote} {outpoint : COutPoint}
    {hash : Uint256}
    (h : hash∈voting.st.votedHashes outpoint) :
    hash∈(voting.castVote ctx vote).st.votedHashes outpoint := by
  by_cases hadded : (voting.cand.addVote vote).2=true
  · have hstate : (voting.castVote ctx vote).st=CInstantSend.addVoted { voting.st with
        mapTxLockVotes := voting.st.mapTxLockVotes.emplace (vote.getHash ctx) vote }
          vote.outpoint vote.txHash := by
      simp [Voting.castVote,hadded]
    rw [hstate,mem_votedHashes_addVoted]
    exact Or.inr h
  · rw [(castVote_skipped hadded).2.2]
    exact h

theorem Casts.castVotes {first voting : Voting} (h : Casts ctx env first voting)
    (hempty : first.relayed=[]) : CastVotes ctx env first voting := by
  induction h with
  | refl =>
    refine ⟨rfl,fun _ _ hm => hm,fun _ _ hvote => hvote,?_,?_,?_⟩
    · simp [hempty]
    · simp [hempty]
    · simp [hempty]
  | @tail current final hcasts hlast ih =>
    obtain ⟨vote,hcast⟩ := hlast
    obtain ⟨hcands,hvoted,hgrows,hknown,hnodup,hfresh⟩ := ih
    rw [hcast.result]
    have hgrown : ∀ outpoint masternode,
        current.cand.hasMasternodeVoted outpoint masternode=true →
        (current.cand.addVote vote).1.hasMasternodeVoted outpoint masternode=true := by
      intro outpoint masternode hvote
      rw [CTxLockCandidate.hasMasternodeVoted_addVote,hvote]
      rfl
    have hmore : ∀ outpoint hash, hash∈first.st.votedHashes outpoint →
        hash∈(current.castVote ctx vote).st.votedHashes outpoint :=
      fun outpoint hash hm => castVote_voted (hvoted outpoint hash hm)
    by_cases hadded : (current.cand.addVote vote).2=true
    · obtain ⟨hrelayed,hcand,hunvoted⟩ := @castVote_added ctx current vote hadded
      rw [hcast.masternode] at hunvoted
      have hnew : ∀ own∈current.relayed, own.outpoint≠vote.outpoint := by
        intro own hm he
        have hold := hknown own hm
        rw [he,hunvoted] at hold
        cases hold
      refine ⟨(castVote_other vote).1.trans hcands,hmore,?_,?_,?_,?_⟩
      · rw [hcand]
        exact fun outpoint masternode hvote => hgrown _ _ (hgrows outpoint masternode hvote)
      · rw [hrelayed,hcand]
        intro own hm
        rcases mem_append.mp hm with hm | hm
        · exact hgrown _ _ (hknown own hm)
        · rw [mem_singleton.mp hm]
          simp [hcast.masternode,hcast.hasLock]
      · grind
      · rw [hrelayed]
        intro own hm
        rcases mem_append.mp hm with hm | hm
        · exact hfresh own hm
        · rw [mem_singleton.mp hm]
          refine ⟨?_,hcast.mayVote,fun hash hm => ?_,?_⟩
          · rw [← (Casts.shape hcasts).hasLock]
            exact hcast.hasLock
          · rw [← hcands]
            exact hcast.unvoted hash (hvoted vote.outpoint hash hm)
          · grind
    · obtain ⟨hrelayed,hcand,-⟩ := @castVote_skipped ctx current vote hadded
      refine ⟨(castVote_other vote).1.trans hcands,hmore,?_,?_,by rwa [hrelayed],by rwa [hrelayed]⟩
      · rw [hcand]
        exact fun outpoint masternode hvote => hgrown _ _ (hgrows outpoint masternode hvote)
      · rw [hrelayed,hcand]
        exact fun own hm => hgrown _ _ (hknown own hm)

theorem voteCandidate_relayed {cand : CTxLockCandidate} {voting : Voting} {vote : CTxLockVote}
    (h : st.voteCandidate ctx env cand=.ok voting) (hm : vote∈voting.relayed) :
    env.fMasternodeMode=true ∧ env.fInstantSendActive=true ∧
      st.mapLockRequestAccepted.contains (cand.getHash ctx)=true := by
  unfold voteCandidate at h
  split_ifs at h with hskip
  · cases h
    cases hm
  · simpa [not_or,and_assoc] using hskip

/-- Own votes of a call are for other inputs than open votes that are found. -/
theorem process_relayed (hsound : Sound st) {votes : List CTxLockVote} {event : Event}
    {pending : Pending} (hok : FindsOpenVotes ctx env st votes event)
    (h : st.process ctx env event=.ok pending) :
    (pending.relayed.map outpoint).Nodup ∧
      ∀ own∈pending.relayed, ∀ vote∈votes, vote.outpoint≠own.outpoint := by
  by_cases hvote : ∃ txHash, event=.vote txHash
  · obtain ⟨txHash,rfl⟩ := hvote
    change st.vote ctx env txHash=.ok pending at h
    unfold CInstantSend.vote at h
    split at h
    · cases h
      exact ⟨nodup_nil,fun own hm => by cases hm⟩
    · rename_i cand hfind
      rw [bind_eq_ok] at h
      obtain ⟨voting,hvoting,h⟩ := h
      cases h
      have hcast := (voteCandidate_casts hvoting).castVotes rfl
      refine ⟨hcast.nodup,fun own hm vote hopen he => ?_⟩
      obtain ⟨hmode,hact,hacc⟩ := voteCandidate_relayed hvoting hm
      obtain ⟨hlock,hmay,hunvoted,hown⟩ := hcast.fresh own hm
      rw [← he] at hlock hmay hunvoted hown
      rcases hok cand vote hfind hopen hlock hmode hact hacc hmay with
        hvoted | ⟨hash,hlisted,found,hfound,hvoted⟩
      · rw [hown] at hvoted
        cases hvoted
      · obtain ⟨other,hother,hnot⟩ := hunvoted hash hlisted
        rw [hfound,Option.some.injEq] at hother
        rw [← hother,hvoted] at hnot
        cases hnot
  · obtain ⟨-,-,hstored⟩ := @process_changes ctx env False (fun _ => True) st event hsound
      pending h (fun hstrict => hstrict.elim) (fun _ _ => trivial)
    rw [(hstored (fun txHash he => hvote ⟨txHash,he⟩)).1]
    exact ⟨nodup_nil,fun own hm => by cases hm⟩

end Votes

variable {ok : InstantEnv → CInstantSend → List CTxLockVote → Event → Prop}

theorem OwnRun.sound {ctx : InstantContext} {st : CInstantSend}
    {votes : List CTxLockVote} (h : OwnRun ctx ok st votes) : Sound st := by
  induction h with
  | start => exact (@Run.start ctx (fun _ _ _ => True)).sound
  | @step st votes pending env event hrun hok hprocess ih =>
    have hstep : st.step ctx env event=.ok (pending.finish ctx env) := by
      rw [CInstantSend.step,hprocess]
      rfl
    exact Changes.invariant (fun _ _ h => h.sound)
      (@step_changes ctx env False (fun _ => True) st _ event ih hstep
        (fun hstrict => hstrict.elim) (fun _ _ => trivial)) ih

/-- In every run in which a node finds its open votes, it votes for an input once. -/
theorem OwnRun.votesOnce {ctx : InstantContext} {st : CInstantSend} {votes : List CTxLockVote}
    (h : OwnRun ctx (FindsOpenVotes ctx) st votes) (env : InstantEnv) (event : Event)
    (pending : Pending) (hok : FindsOpenVotes ctx env st votes event)
    (hprocess : st.process ctx env event=.ok pending) :
    ((votes++pending.relayed).map outpoint).Nodup := by
  have hone : ∀ {st : CInstantSend} {votes : List CTxLockVote} {env : InstantEnv} {event : Event}
      {pending : Pending}, Sound st → (votes.map outpoint).Nodup →
      FindsOpenVotes ctx env st votes event → st.process ctx env event=.ok pending →
      ((votes++pending.relayed).map outpoint).Nodup := by
    intro st votes env event pending hsound hnodup hok hprocess
    obtain ⟨hrelayed,hdisjoint⟩ := process_relayed hsound hok hprocess
    grind
  have hnodup : (votes.map outpoint).Nodup := by
    clear hok hprocess
    induction h with
    | start => exact nodup_nil
    | step env event hrun hok hprocess ih =>
      exact (hone hrun.sound ih hok hprocess).sublist (filter_sublist.map _)
  exact hone h.sound hnodup hok hprocess

/-- Make calls with own votes as long as each of them passes a check. -/
def ownSteps (ctx : InstantContext)
    (check : InstantEnv → CInstantSend → List CTxLockVote → Event → Bool) :
    List (InstantEnv×Event) → CInstantSend → List CTxLockVote →
      Option (CInstantSend×List CTxLockVote)
  | [],st,votes => some (st,votes)
  | call::calls,st,votes =>
    if check call.1 st votes call.2 then
      (st.process ctx call.1 call.2).toOption.bind (fun pending =>
        ownSteps ctx check calls (pending.finish ctx call.1)
          (openVotes ctx (pending.finish ctx call.1) (votes++pending.relayed)))
    else none

theorem OwnRun.steps {ctx : InstantContext}
    {check : InstantEnv → CInstantSend → List CTxLockVote → Event → Bool}
    (hcheck : ∀ env st votes event, check env st votes event=true → ok env st votes event)
    {calls : List (InstantEnv×Event)} {st next : CInstantSend} {votes later : List CTxLockVote}
    (h : OwnRun ctx ok st votes)
    (hsteps : ownSteps ctx check calls st votes=some (next,later)) :
    OwnRun ctx ok next later := by
  induction calls generalizing st votes with
  | nil =>
    rw [ownSteps,Option.some.injEq,Prod.mk.injEq] at hsteps
    rwa [← hsteps.1,← hsteps.2]
  | cons call calls ih =>
    rw [ownSteps] at hsteps
    split_ifs at hsteps with hcall
    cases hprocess : st.process ctx call.1 call.2 with
    | error failure =>
      rw [hprocess] at hsteps
      cases hsteps
    | ok pending =>
      rw [hprocess] at hsteps
      exact ih (h.step call.1 call.2 (hcheck _ _ _ _ hcall) hprocess) hsteps

/-- A request that is accepted, and a node that votes for it. -/
def sampleVoting (txHash spent : Uint256) : List (InstantEnv×Event) :=
  [(sampleEnv,.request (sampleRequest txHash [spent])),
    (sampleEnv,.accept (sampleRequest txHash [spent])),(sampleMasternodeEnv,.vote txHash)]

/-- A call of a node, with the own votes that are open before it and those that it makes. -/
def ownCall (check : InstantEnv → CInstantSend → List CTxLockVote → Event → Bool)
    (calls : List (InstantEnv×Event)) (last : InstantEnv×Event)
    (property : List CTxLockVote → List CTxLockVote → Bool) : Bool :=
  (ownSteps sampleContext check calls {} []).any (fun result =>
    check last.1 result.1 result.2 last.2 &&
      (result.1.process sampleContext last.1 last.2).toOption.any (fun pending =>
        property result.2 pending.relayed))

theorem exists_ownCall {ok : InstantEnv → CInstantSend → List CTxLockVote → Event → Prop}
    {check : InstantEnv → CInstantSend → List CTxLockVote → Event → Bool}
    (hcheck : ∀ env st votes event, check env st votes event=true → ok env st votes event)
    {calls : List (InstantEnv×Event)} {last : InstantEnv×Event}
    {property : List CTxLockVote → List CTxLockVote → Bool}
    (h : ownCall check calls last property=true) :
    ∃ st votes pending, OwnRun sampleContext ok st votes ∧ ok last.1 st votes last.2 ∧
      st.process sampleContext last.1 last.2=.ok pending ∧
      property votes pending.relayed=true := by
  obtain ⟨⟨st,votes⟩,hsteps,hstate⟩ := (Option.any_eq_true _ _).mp h
  rw [Bool.and_eq_true] at hstate
  obtain ⟨pending,hpending,hprop⟩ := (Option.any_eq_true _ _).mp hstate.2
  refine ⟨st,votes,pending,OwnRun.start.steps hcheck hsteps,hcheck _ _ _ _ hstate.1,?_,hprop⟩
  revert hpending
  cases st.process sampleContext last.1 last.2 with
  | error failure =>
    intro hnone
    cases hnone
  | ok found =>
    intro hsome
    rw [Except.toOption,Option.some.injEq] at hsome
    rw [hsome]

/-- A node votes for other inputs than those of its open votes. -/
def votesElsewhere (st : CInstantSend) (votes : List CTxLockVote) : Event → Bool
  | .vote txHash => (st.mapTxLockCandidates.find txHash).all (fun cand =>
      votes.all (fun vote => !cand.hasLock vote.outpoint))
  | _ => true

/-- A node votes for two transactions with different inputs. -/
theorem OwnRun.votesOnce_sample :
    ∃ st votes pending, OwnRun sampleContext (FindsOpenVotes sampleContext) st votes ∧
      st.process sampleContext sampleMasternodeEnv (.vote 32)=.ok pending ∧
      votes.length=1 ∧ pending.relayed.length=1 ∧
      ((votes++pending.relayed).map outpoint).Nodup := by
  obtain ⟨st,votes,pending,hrun,hok,hprocess,hprop⟩ :=
    @exists_ownCall (FindsOpenVotes sampleContext) (fun _ => votesElsewhere)
      (fun env st votes event hcheck => by
        cases event with
        | vote txHash =>
          intro cand vote hfind hm hlock
          rw [votesElsewhere,hfind,Option.all_some,all_eq_true] at hcheck
          have hnone := hcheck vote hm
          rw [hlock] at hnone
          cases hnone
        | _ => trivial)
      (sampleVoting 31 1++[(sampleEnv,.request (sampleRequest 32 [2])),
        (sampleEnv,.accept (sampleRequest 32 [2]))])
      (sampleMasternodeEnv,.vote 32)
      (fun votes relayed => decide (votes.length=1) && decide (relayed.length=1)) rfl
  rw [Bool.and_eq_true,decide_eq_true_eq,decide_eq_true_eq] at hprop
  exact ⟨st,votes,pending,hrun,hprocess,hprop.1,hprop.2,
    hrun.votesOnce sampleMasternodeEnv (.vote 32) pending hok hprocess⟩

/-- A node votes for two transactions with the same input. -/
theorem votesOnce_sameInput :
    ∃ st votes pending, OwnRun sampleContext (fun _ _ _ _ => True) st votes ∧
      st.process sampleContext sampleMasternodeEnv (.vote 32)=.ok pending ∧
      ¬((votes++pending.relayed).map outpoint).Nodup := by
  obtain ⟨st,votes,pending,hrun,-,hprocess,hprop⟩ :=
    @exists_ownCall (fun _ _ _ _ => True) (fun _ _ _ _ => true) (fun _ _ _ _ _ => trivial)
      (sampleVoting 31 1++[(sampleEnv,.request (sampleRequest 32 [1])),
        (sampleEnv,.accept (sampleRequest 32 [1]))])
      (sampleMasternodeEnv,.vote 32)
      (fun votes relayed => decide ((votes++relayed).map outpoint=[⟨1,0⟩,⟨1,0⟩])) rfl
  grind

end Pyrk.InstantSend
