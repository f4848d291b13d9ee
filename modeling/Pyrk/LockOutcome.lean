import Pyrk.ArrivalOrder

/-!
# Outcome of a lock

A transaction is locked if the received votes are enough, or if those that some call to vote had
were enough. An own vote that is made before the last votes come does not count with them.
-/

namespace Pyrk.InstantSend

open Transaction CInstantSend List CTxLockCandidate

section Calls

variable {ctx : InstantContext} {env : InstantEnv} {st : CInstantSend} {tx : CTransaction}
variable {start : ℤ} {votes received : List CTxLockVote} {tally : Tally}

variable {cand : CTxLockCandidate}

theorem Counts.addVote {vote : CTxLockVote}
    (h : Counts tx received cand) (hin : vote.outpoint∈tx.vin.map CTxIn.prevout) :
    Counts tx (received++[vote]) (cand.addVote vote).1 := by
  refine ⟨by rw [txLockRequest_addVote,h.request],fun outpoint => by rw [hasLock_addVote,h.hasLock],
    fun outpoint => by rw [attacked_addVote,h.attacked],fun outpoint masternode => ?_⟩
  rw [hasMasternodeVoted_addVote,Bool.or_eq_true,h.voted,heard_append,heard_singleton]
  refine or_congr_right ?_
  simp only [Bool.and_eq_true,decide_eq_true_eq,h.hasLock]
  grind

/-- What a node that votes for the request has. -/
structure Voted (tx : CTransaction) (received : List CTxLockVote) (st : CInstantSend)
    (voting : Voting) : Prop where
  candidates : voting.st.mapTxLockCandidates=st.mapTxLockCandidates
  locked : voting.st.mapLockedOutpoints=st.mapLockedOutpoints
  orphans : voting.st.mapTxLockVotesOrphan=st.mapTxLockVotesOrphan
  voted : ∀ txin∈tx.vin, ∀ hash∈voting.st.votedHashes txin.prevout, hash=tx.hash
  counts : Counts tx (received++voting.relayed) voting.cand

theorem Casts.voted {first voting : Voting} (h : Casts ctx env first voting)
    (hfirst : Voted tx received st first) : Voted tx received st voting := by
  induction h with
  | refl => exact hfirst
  | @tail current final hcasts hlast ih =>
    obtain ⟨vote,hcast⟩ := hlast
    obtain ⟨hcands,hlocked,horphans,hvoted,hcounts⟩ := ih
    have hin := (hcounts.hasLock vote.outpoint).mp hcast.hasLock
    have hhash : vote.txHash=tx.hash := hcast.txHash.trans hcounts.getHash
    obtain ⟨hsame,hkept,-⟩ := @castVote_other ctx current vote
    rw [hcast.result]
    have horphansCast : (current.castVote ctx vote).st.mapTxLockVotesOrphan=
        current.st.mapTxLockVotesOrphan := by
      unfold Voting.castVote
      dsimp only
      split_ifs
      · rfl
      · rfl
    by_cases hadded : (current.cand.addVote vote).2=true
    · obtain ⟨hrelayed,hcand,-⟩ := @castVote_added ctx current vote hadded
      refine ⟨hsame.trans hcands,hkept.trans hlocked,horphansCast.trans horphans,
        fun txin hm hash hlisted => ?_,?_⟩
      · have hstate : (current.castVote ctx vote).st=CInstantSend.addVoted { current.st with
            mapTxLockVotes := current.st.mapTxLockVotes.emplace (vote.getHash ctx) vote }
              vote.outpoint vote.txHash := by
          simp [Voting.castVote,hadded]
        rw [hstate,mem_votedHashes_addVoted] at hlisted
        rcases hlisted with ⟨-,rfl⟩ | hold
        · exact hhash
        · exact hvoted txin hm hash hold
      · rw [hrelayed,hcand,← append_assoc]
        exact hcounts.addVote hin
    · obtain ⟨hrelayed,hcand,hindex⟩ := @castVote_skipped ctx current vote hadded
      refine ⟨hsame.trans hcands,hkept.trans hlocked,horphansCast.trans horphans,
        fun txin hm hash hlisted => hvoted txin hm hash (by rwa [← hindex]),?_⟩
      rw [hrelayed,hcand]
      refine (hcounts.addVote hin).congr (fun outpoint masternode => ?_)
      rw [heard_append]
      refine or_iff_left_of_imp (fun hnew => ?_)
      obtain ⟨rfl,rfl⟩ := heard_singleton.mp hnew
      rw [addVote_snd,hcast.hasLock,Bool.true_and,Bool.not_eq_true'] at hadded
      exact (hcounts.voted _ _).mp (by simpa using hadded)

theorem tryToFinalize_empty (hnil : cand.mapOutPointLocks.entries=[]) :
    st.tryToFinalizeLockCandidate ctx env cand=st := by
  simp [tryToFinalizeLockCandidate,isAllOutPointsReady,hnil]

section

variable (h : Arrived ctx tx start votes st tally)

include h

theorem Arrived.vote (hvin : tx.vin≠[])
    (htimely : Timely tx start env) :
    ∃ pending, st.process ctx env (.vote tx.hash)=.ok pending ∧
      Arrived ctx tx start votes (pending.finish ctx env)
        (tally.after pending.relayed (.vote tx.hash)) := by
  cases hphase : tally.requested with
  | false =>
    obtain ⟨hwaiting,hcounted⟩ := h.waiting hphase
    have hpending : ∃ pending, st.process ctx env (.vote tx.hash)=.ok pending ∧
        pending.finish ctx env=st ∧ pending.relayed=[] := by
      cases hfind : st.mapTxLockCandidates.find tx.hash with
      | none =>
        refine ⟨{ st := st },?_,rfl,rfl⟩
        unfold process CInstantSend.vote
        dsimp only
        rw [hfind]
      | some cand =>
        obtain ⟨-,-,hnil⟩ := hwaiting.cand cand hfind
        refine ⟨{ st := st, cand := some cand },?_,tryToFinalize_empty hnil,rfl⟩
        have hvoting : st.voteCandidate ctx env cand=
            .ok { st := st, cand := cand } := by
          unfold voteCandidate
          rw [outpoints,hnil]
          split_ifs
          · rfl
          · rfl
        unfold process CInstantSend.vote
        dsimp only
        rw [hfind]
        dsimp only
        rw [hvoting]
        rfl
    obtain ⟨pending,hprocess,hfinish,hrelayed⟩ := hpending
    refine ⟨pending,hprocess,?_⟩
    rw [hfinish,hrelayed]
    refine ⟨h.orphans,fun _ => ⟨hwaiting,?_⟩,fun hreq => ?_⟩
    · simp [Tally.after,hphase,hcounted]
    · rw [Tally.after,hphase] at hreq
      cases hreq
  | true =>
    obtain ⟨hreq,hlocked⟩ := h.requested hphase
    obtain ⟨cand,hfind,hcreated,hcounts⟩ := hreq.stored
    have hfirst : Voted tx tally.received st { st := st, cand := cand } :=
      ⟨rfl,rfl,rfl,hreq.voted,by rwa [append_nil]⟩
    have hvoting : ∃ voting, st.voteCandidate ctx env cand=.ok voting := by
      unfold voteCandidate
      split_ifs
      · exact ⟨_,rfl⟩
      · refine @voteOutpoints_ok ctx env { st := st, cand := cand } _ ?_ .refl _
          (fun outpoint hm => mem_outpoints_iff.mp hm)
        intro current hcasts outpoint hlock hash hlisted
        have hnow := hcasts.voted hfirst
        obtain ⟨txin,hin,rfl⟩ := mem_map.mp ((hcounts.hasLock outpoint).mp hlock)
        rw [hnow.voted txin hin hash hlisted,hnow.candidates,hfind]
        rfl
    obtain ⟨voting,hvoting⟩ := hvoting
    obtain ⟨hcands,hlockedSame,horphans,hindex,hcountsCopy⟩ :=
      (voteCandidate_casts hvoting).voted hfirst
    have hrequestedNow : Requested tx start tally.received voting.st :=
      ⟨⟨cand,by rw [hcands,hfind],hcreated,hcounts⟩,hindex⟩
    have hlockedNow : (Done tx tally ∧ LockedFor tx voting.st) ∨
        (¬Done tx tally ∧ Free tx voting.st) := by
      refine hlocked.imp (fun hlocked => ⟨hlocked.1,fun txin hm => ?_⟩)
        (fun hfree => ⟨hfree.1,fun txin hm => ?_⟩)
      · rw [hlockedSame]
        exact hlocked.2 txin hm
      · rw [hlockedSame]
        exact hfree.2 txin hm
    have hdone : Done tx (tally.after voting.relayed (.vote tx.hash)) ↔
        Done tx tally ∨ Enough tx (tally.received++voting.relayed) := by
      simp [Done,Tally.after,hphase,or_and_right,exists_or,or_assoc]
    obtain ⟨hend,horphansEnd,hlockedEnd⟩ := @Requested.finish ctx env voting.st tx start _
      hrequestedNow hvin _ voting.cand hcountsCopy htimely _ _ hlockedNow hdone
    refine ⟨{ st := voting.st, cand := some voting.cand, relayed := voting.relayed },
      ?_,?_,(fun hwaiting => ?_),fun _ => ⟨hend,hlockedEnd⟩⟩
    · unfold process CInstantSend.vote
      dsimp only
      rw [hfind]
      dsimp only
      rw [hvoting]
      rfl
    · refine h.orphans.mono (fun key other hother => ?_) (List.Subset.refl _)
      rwa [← horphans,← horphansEnd]
    · rw [Tally.after,hphase] at hwaiting
      cases hwaiting

theorem Arrived.accept :
    Arrived ctx tx start votes { st with
      mapLockRequestAccepted := st.mapLockRequestAccepted.insert tx.hash } tally := by
  refine ⟨h.orphans,fun hwaiting => ?_,fun hreq => ?_⟩
  · obtain ⟨⟨hcand,hvoted,hfree,hkept⟩,hcounted⟩ := h.waiting hwaiting
    exact ⟨⟨hcand,hvoted,hfree,hkept⟩,hcounted⟩
  · obtain ⟨⟨hstored,hvoted⟩,hlocked⟩ := h.requested hreq
    exact ⟨⟨hstored,hvoted⟩,hlocked⟩

theorem Arrived.step (hvin : tx.vin≠[])
    (htimely : Timely tx start env) {event : Event} (harrives : Arrives ctx tx env event)
    (hsubset : (tally.after [] event).received⊆votes) (hcollisionless : Collisionless ctx votes) :
    ∃ pending, st.process ctx env event=.ok pending ∧
      Arrived ctx tx start votes (pending.finish ctx env)
        (tally.after pending.relayed event) := by
  cases event with
  | request other =>
    obtain ⟨rfl,hvalid⟩ := harrives
    exact h.request hvin htimely hvalid
  | accept other =>
    cases harrives
    exact ⟨_,rfl,h.accept⟩
  | newVote vote =>
    obtain ⟨hvote,hvalid⟩ := harrives
    exact ⟨_,rfl,h.newVote hvin htimely hvote hvalid (hsubset (mem_append_right _ mem_cons_self))
      (fun other hm => hsubset (mem_append_left _ hm)) hcollisionless⟩
  | vote txHash =>
    cases harrives
    exact h.vote hvin htimely
  | reject other => exact harrives.elim
  | message vote => exact harrives.elim
  | sync other nHeightNew => exact harrives.elim
  | tip nHeight => exact harrives.elim
  | cleanup => exact harrives.elim

end

theorem received_after (relayed : List CTxLockVote) (event : Event) :
    (tally.after relayed event).received=(tally.after [] event).received := by
  cases event <;> rfl

theorem subset_received_after (event : Event) : tally.received⊆(tally.after [] event).received := by
  cases event with
  | newVote vote => exact subset_append_left _ _
  | _ => exact List.Subset.refl _

variable {first : CInstantSend}

section

variable (h : Interleaving ctx tx start first st tally)

include h

theorem Interleaving.arrived (hvin : tx.vin≠[])
    (huntouched : Untouched ctx tx votes first) (hsubset : tally.received⊆votes)
    (hcollisionless : Collisionless ctx votes) :
    Arrived ctx tx start votes st tally := by
  induction h with
  | start =>
    refine ⟨fun key vote hfind => .inr (huntouched.orphans key vote hfind),
      fun _ => ⟨⟨fun cand hfind => ?_,huntouched.voted,huntouched.free,
        fun vote hm => by cases hm⟩,rfl⟩,fun hreq => by cases hreq⟩
    rw [huntouched.cand] at hfind
    cases hfind
  | @step st tally pending env event hrun htimely harrives hprocess ih =>
    rw [received_after] at hsubset
    obtain ⟨found,hfound,harrived⟩ :=
      (ih (fun vote hm => hsubset (subset_received_after event hm))).step
      hvin htimely harrives hsubset hcollisionless
    rw [hprocess,Except.ok.injEq] at hfound
    rw [hfound]
    exact harrived

theorem Interleaving.counted_subset :
    ∀ counted∈tally.counted, counted⊆tally.received++tally.signed := by
  induction h with
  | start => exact fun counted hm => by cases hm
  | @step st tally pending env event hrun htimely harrives hprocess ih =>
    cases event with
    | newVote vote =>
      intro counted hm other hother
      rcases mem_append.mp (ih counted hm hother) with hrecv | hsigned
      · exact mem_append_left _ (mem_append_left _ hrecv)
      · exact mem_append_right _ hsigned
    | vote txHash =>
      have hold : ∀ counted∈tally.counted,
          counted⊆tally.received++(tally.signed++pending.relayed) := by
        grind
      simp only [Tally.after]
      grind
    | _ => exact ih

theorem Interleaving.isLocked_iff (hvin : tx.vin≠[])
    (huntouched : Untouched ctx tx tally.received first)
    (hcollisionless : Collisionless ctx tally.received) (hreq : tally.requested=true)
    (hreported : env.fEnableInstantSend=true ∧ env.fLargeWorkForkFound=false ∧
      env.fLargeWorkInvalidChainFound=false ∧ env.fBlockFilteringActive=true) :
    st.isLockedInstantSendTransaction env tx.hash=true ↔ Done tx tally := by
  obtain ⟨hcounting,hlocked⟩ :=
    (h.arrived hvin huntouched (List.Subset.refl _) hcollisionless).requested hreq
  rw [hcounting.isLocked_iff hvin]
  obtain ⟨first,hfirst⟩ := exists_mem_of_ne_nil _ hvin
  rcases hlocked with ⟨hdone,hlocked⟩ | ⟨hnot,hfree⟩
  · exact ⟨fun _ => hdone,fun _ => ⟨hreported,hlocked⟩⟩
  · refine ⟨fun hall => ?_,fun hdone => absurd hdone hnot⟩
    have hboth := hall.2 first hfirst
    rw [hfree first hfirst] at hboth
    cases hboth

end

/-- When request and votes have come in any order, the transaction is locked exactly when every
input has votes of enough masternodes, if and only if received ones alone or those of some call to
vote were enough. -/
theorem Interleaving.locked_iff_enough {first : CInstantSend}
    (h : Interleaving ctx tx start first st tally) (hvin : tx.vin≠[])
    (huntouched : Untouched ctx tx tally.received first)
    (hcollisionless : Collisionless ctx tally.received) (hreq : tally.requested=true)
    (hreported : env.fEnableInstantSend=true ∧ env.fLargeWorkForkFound=false ∧
      env.fLargeWorkInvalidChainFound=false ∧ env.fBlockFilteringActive=true) :
    ((st.isLockedInstantSendTransaction env tx.hash=true ↔
        Enough tx (tally.received++tally.signed)) ↔
      (Enough tx (tally.received++tally.signed) →
        Enough tx tally.received ∨ ∃ counted∈tally.counted, Enough tx counted)) ∧
    ∀ env event, Timely tx start env → Arrives ctx tx env event →
      ∃ pending, st.process ctx env event=.ok pending := by
  constructor
  · rw [h.isLocked_iff hvin huntouched hcollisionless hreq hreported]
    have hdone : Done tx tally → Enough tx (tally.received++tally.signed) := by
      rintro (henough | ⟨counted,hm,henough⟩)
      · exact henough.mono (fun _ _ hheard => hheard.subset (subset_append_left _ _))
      · exact henough.mono (fun _ _ hheard => hheard.subset (h.counted_subset counted hm))
    exact ⟨fun hiff => hiff.mpr,fun henough => ⟨hdone,henough⟩⟩
  · intro env event htimely harrives
    have harrived := h.arrived hvin huntouched (List.Subset.refl _) hcollisionless
    cases event with
    | newVote vote => exact ⟨_,rfl⟩
    | _ =>
      obtain ⟨pending,hprocess,-⟩ := harrived.step hvin htimely harrives (List.Subset.refl _)
        hcollisionless
      exact ⟨pending,hprocess⟩

end Calls

/-- Whether votes are enough can be computed. -/
instance (tx : CTransaction) (votes : List CTxLockVote) : Decidable (Enough tx votes) :=
  inferInstanceAs (Decidable (∀ txin∈tx.vin,
    signaturesRequired≤(masternodesFor votes txin.prevout).length))

/-- Whether votes have different hashes can be computed. -/
instance (ctx : InstantContext) (votes : List CTxLockVote) :
    Decidable (Collisionless ctx votes) :=
  inferInstanceAs (Decidable (∀ vote∈votes, ∀ other∈votes,
    vote.getHash ctx=other.getHash ctx →
      vote.outpoint=other.outpoint ∧ vote.outpointMasternode=other.outpointMasternode))

/-- Whether a call is for a request can be computed. -/
instance (ctx : InstantContext) (tx : CTransaction) (env : InstantEnv) (event : Event) :
    Decidable (Arrives ctx tx env event) :=
  match event with
  | .request other => decidable_of_iff
      (other=tx ∧ (isValidRequest ctx env tx).toOption=some true) (by
        unfold Arrives
        generalize isValidRequest ctx env tx=result
        cases result with
        | error failure => simp [Except.toOption]
        | ok valid => simp [Except.toOption])
  | .accept other => inferInstanceAs (Decidable (other=tx))
  | .newVote vote => inferInstanceAs (Decidable ((vote.txHash=tx.hash ∧
      vote.outpoint∈tx.vin.map CTxIn.prevout) ∧ vote.isValid ctx env=true))
  | .vote txHash => inferInstanceAs (Decidable (txHash=tx.hash))
  | .reject _ => isFalse id
  | .message _ => isFalse id
  | .sync _ _ => isFalse id
  | .tip _ => isFalse id
  | .cleanup => isFalse id

/-- Make calls for a request. -/
def arrivals (ctx : InstantContext) (tx : CTransaction) :
    List (InstantEnv×Event) → CInstantSend → Tally → Option (CInstantSend×Tally)
  | [],st,tally => some (st,tally)
  | call::calls,st,tally =>
    if Arrives ctx tx call.1 call.2 then
      (st.process ctx call.1 call.2).toOption.bind (fun pending =>
        arrivals ctx tx calls (pending.finish ctx call.1)
          (tally.after pending.relayed call.2))
    else none

theorem Interleaving.arrivals {ctx : InstantContext} {tx : CTransaction} {start : ℤ}
    {first st next : CInstantSend} {tally later : Tally} {calls : List (InstantEnv×Event)}
    (htimely : ∀ call∈calls, Timely tx start call.1)
    (h : Interleaving ctx tx start first st tally)
    (hcalls : InstantSend.arrivals ctx tx calls st tally=some (next,later)) :
    Interleaving ctx tx start first next later := by
  induction calls generalizing st tally with
  | nil =>
    rw [InstantSend.arrivals,Option.some.injEq,Prod.mk.injEq] at hcalls
    rwa [← hcalls.1,← hcalls.2]
  | cons call calls ih =>
    obtain ⟨hcall,hrest⟩ := forall_mem_cons.mp htimely
    rw [InstantSend.arrivals] at hcalls
    split_ifs at hcalls with harrives
    cases hprocess : st.process ctx call.1 call.2 with
    | error failure =>
      rw [hprocess] at hcalls
      cases hcalls
    | ok pending =>
      rw [hprocess] at hcalls
      exact ih hrest (h.step call.1 call.2 hcall harrives hprocess) hcalls

/-- A request for which the own masternode votes first, and then others. -/
def sampleArrivals (masternodes : List ℕ) : List (InstantEnv×Event) :=
  sampleVoting 41 1++sampleVotes 41 1 masternodes

theorem timely_sample (masternodes : List ℕ) :
    ∀ call∈sampleArrivals masternodes, Timely (sampleRequest 41 [1]) 0 call.1 := by
  intro call hm
  have henv : call.1=sampleEnv ∨ call.1=sampleMasternodeEnv := by
    simp only [sampleArrivals,sampleVoting,sampleVotes,cons_append,nil_append,mem_cons,
      mem_map] at hm
    rcases hm with rfl | rfl | rfl | ⟨masternode,-,rfl⟩
    · exact .inl rfl
    · exact .inl rfl
    · exact .inr rfl
    · exact .inl rfl
  have hpool : ∀ txin∈(sampleRequest 41 [1]).vin, ∀ hash, (none : Option Uint256)=some hash →
      hash=(sampleRequest 41 [1]).hash := fun txin _ hash hnone => by cases hnone
  rcases henv with he | he
  · rw [he]
    exact ⟨by decide,by decide,rfl,.inr (fun _ _ => rfl),hpool⟩
  · rw [he]
    exact ⟨by decide,by decide,rfl,.inr (fun _ _ => rfl),hpool⟩

theorem untouched_empty (votes : List CTxLockVote) :
    Untouched sampleContext (sampleRequest 41 [1]) votes {} :=
  ⟨rfl,(fun _ _ => rfl),(fun _ _ => rfl),fun key vote hfind => by
    rw [OrderedMap.find_empty] at hfind
    cases hfind⟩

theorem exists_arrivals {masternodes : List ℕ} {property : CInstantSend → Tally → Bool}
    (h : (InstantSend.arrivals sampleContext (sampleRequest 41 [1]) (sampleArrivals masternodes) {}
      {}).any (fun result => property result.1 result.2 && (result.2.requested &&
        decide (Collisionless sampleContext result.2.received)))=true) :
    ∃ st tally, Interleaving sampleContext (sampleRequest 41 [1]) 0 {} st tally ∧
      property st tally=true ∧ tally.requested=true ∧
      Collisionless sampleContext tally.received := by
  obtain ⟨⟨st,tally⟩,hcalls,hprop⟩ := (Option.any_eq_true _ _).mp h
  rw [Bool.and_eq_true,Bool.and_eq_true,decide_eq_true_eq] at hprop
  exact ⟨st,tally,Interleaving.start.arrivals (timely_sample masternodes) hcalls,hprop⟩

/-- Six votes besides the own one lock the transaction. -/
theorem Interleaving.locked_iff_enough_sample :
    ∃ st tally, Interleaving sampleContext (sampleRequest 41 [1]) 0 {} st tally ∧
      tally.signed.length=1 ∧ Enough (sampleRequest 41 [1]) tally.received ∧
      (st.isLockedInstantSendTransaction sampleEnv 41=true ↔
        Enough (sampleRequest 41 [1]) (tally.received++tally.signed)) := by
  obtain ⟨st,tally,hrun,hprop,hreq,hcollisionless⟩ :=
    @exists_arrivals [2,3,4,5,6,7] (fun _ tally => decide (tally.signed.length=1) &&
      decide (Enough (sampleRequest 41 [1]) tally.received)) rfl
  rw [Bool.and_eq_true,decide_eq_true_eq,decide_eq_true_eq] at hprop
  exact ⟨st,tally,hrun,hprop.1,hprop.2,(hrun.locked_iff_enough (by decide)
    (untouched_empty _) hcollisionless hreq ⟨rfl,rfl,rfl,rfl⟩).1.mpr
      (fun _ => .inl hprop.2)⟩

/-- An own vote that is made first does not count with five later ones. -/
theorem locked_iff_enough_ownVoteFirst :
    ∃ st tally, Interleaving sampleContext (sampleRequest 41 [1]) 0 {} st tally ∧
      Untouched sampleContext (sampleRequest 41 [1]) tally.received {} ∧
      Collisionless sampleContext tally.received ∧ tally.requested=true ∧
      ¬(st.isLockedInstantSendTransaction sampleEnv 41=true ↔
        Enough (sampleRequest 41 [1]) (tally.received++tally.signed)) := by
  obtain ⟨st,tally,hrun,hprop,hreq,hcollisionless⟩ :=
    @exists_arrivals [2,3,4,5,6] (fun st tally =>
      !st.isLockedInstantSendTransaction sampleEnv 41 &&
        decide (Enough (sampleRequest 41 [1]) (tally.received++tally.signed))) rfl
  rw [Bool.and_eq_true,Bool.not_eq_true',decide_eq_true_eq] at hprop
  refine ⟨st,tally,hrun,untouched_empty _,hcollisionless,hreq,fun hiff => ?_⟩
  rw [hiff.mpr hprop.2] at hprop
  cases hprop.1

end Pyrk.InstantSend
