import Pyrk.VotedOutpoints

/-!
# Safety of locks

A masternode that votes twice for an input is noticed, because the index names the first
transaction. A cleanup that leaves a counted vote without the index breaks this.
-/

namespace Pyrk.InstantSend

open Transaction CInstantSend OrderedMap List Bool CTxLockCandidate

/-- Counted votes are in the index, and masternodes that voted twice were noticed. -/
structure Tracked (st : CInstantSend) : Prop where
  indexed : ∀ hash cand outpoint masternode,
    st.mapTxLockCandidates.find hash=some cand →
      cand.hasMasternodeVoted outpoint masternode=true → hash∈st.votedHashes outpoint
  noticed : ∀ hash other cand found outpoint masternode, hash≠other →
    st.mapTxLockCandidates.find hash=some cand →
    st.mapTxLockCandidates.find other=some found →
    cand.hasMasternodeVoted outpoint masternode=true →
    found.hasMasternodeVoted outpoint masternode=true → cand.attacked outpoint=true

/-- Candidates that a cleanup leaves have no votes for inputs of those that it removes. -/
def KeepsVotes (ctx : InstantContext) (st : CInstantSend) : Prop :=
  ∀ outpoint hash cand masternode, st.Expires ctx outpoint →
    st.mapTxLockCandidates.find hash=some cand →
    cand.isExpired ctx st.nCachedBlockHeight=false →
      cand.hasMasternodeVoted outpoint masternode=false

section Tracking

variable {ctx : InstantContext} {st next : CInstantSend}

theorem Tracked.of_votes (h : Tracked st)
    (hvotes : ∀ hash cand, next.mapTxLockCandidates.find hash=some cand →
      (∀ outpoint masternode, cand.hasMasternodeVoted outpoint masternode=false) ∨
      ∃ old, st.mapTxLockCandidates.find hash=some old ∧
        (∀ outpoint masternode, cand.hasMasternodeVoted outpoint masternode=
          old.hasMasternodeVoted outpoint masternode) ∧
        ∀ outpoint, cand.attacked outpoint=old.attacked outpoint)
    (hvoted : ∀ hash outpoint cand masternode, hash∈st.votedHashes outpoint →
      next.mapTxLockCandidates.find hash=some cand →
      cand.hasMasternodeVoted outpoint masternode=true → hash∈next.votedHashes outpoint) :
    Tracked next := by
  have hold : ∀ hash cand outpoint masternode, next.mapTxLockCandidates.find hash=some cand →
      cand.hasMasternodeVoted outpoint masternode=true →
      ∃ old, st.mapTxLockCandidates.find hash=some old ∧
        old.hasMasternodeVoted outpoint masternode=true ∧
        cand.attacked outpoint=old.attacked outpoint := by
    grind
  refine ⟨fun hash cand outpoint masternode hfind hvote => ?_,
    fun hash other cand found outpoint masternode hne hfind hfound hvote hother => ?_⟩
  · obtain ⟨old,hfindOld,hvoteOld,-⟩ := hold hash cand outpoint masternode hfind hvote
    exact hvoted hash outpoint cand masternode
      (h.indexed hash old outpoint masternode hfindOld hvoteOld) hfind hvote
  · obtain ⟨first,hfirst,hvoteFirst,hattacked⟩ := hold hash cand outpoint masternode hfind hvote
    obtain ⟨second,hsecond,hvoteSecond,-⟩ := hold other found outpoint masternode hfound hother
    rw [hattacked]
    exact h.noticed hash other first second outpoint masternode hne hfirst hsecond hvoteFirst
      hvoteSecond

variable {cand : CTxLockCandidate}

theorem recordVote_votes {vote : CTxLockVote} {hash : Uint256}
    (hfind : (st.recordVote vote).1.mapTxLockCandidates.find hash=some cand) :
    ∃ old, st.mapTxLockCandidates.find hash=some old ∧
      (∀ outpoint masternode, cand.hasMasternodeVoted outpoint masternode=
        (old.hasMasternodeVoted outpoint masternode || (decide (hash=vote.txHash) &&
          (decide (outpoint=vote.outpoint) && decide (masternode=vote.outpointMasternode) &&
            old.hasLock outpoint)))) ∧
      ∀ outpoint, cand.attacked outpoint=true ↔ old.attacked outpoint=true ∨
        (st.Attacks vote (st.votedHashes vote.outpoint) hash ∧ outpoint=vote.outpoint ∧
          old.hasLock outpoint=true) := by
  rw [find_recordVote,Option.map_eq_some_iff] at hfind
  obtain ⟨old,hold,rfl⟩ := hfind
  refine ⟨old,hold,fun outpoint masternode => ?_,fun outpoint => ?_⟩
  · dsimp only
    split_ifs with hown <;> simp [hown]
  · dsimp only
    by_cases hattacks : st.Attacks vote (st.votedHashes vote.outpoint) hash
    · split_ifs <;> simp [hattacks]
    · split_ifs <;> simp [hattacks]

theorem Tracked.record (h : Tracked st) (vote : CTxLockVote) :
    Tracked (st.recordVote vote).1 := by
  obtain ⟨hvoted,-⟩ := @recordVote_other st vote
  refine ⟨fun hash cand outpoint masternode hfind hvote => ?_,
    fun hash other cand found outpoint masternode hne hfind hfound hvote hother => ?_⟩
  · obtain ⟨old,hold,hvotes,-⟩ := recordVote_votes hfind
    rw [votedHashes_eq hvoted,mem_votedHashes_addVoted]
    rw [hvotes,or_eq_true] at hvote
    rcases hvote with hvote | hnew
    · exact .inr (h.indexed hash old outpoint masternode hold hvote)
    · simp only [and_eq_true,decide_eq_true_eq] at hnew
      exact .inl ⟨hnew.2.1.1,hnew.1⟩
  · obtain ⟨first,hfirst,hvotesFirst,hattackedFirst⟩ := recordVote_votes hfind
    obtain ⟨second,hsecond,hvotesSecond,-⟩ := recordVote_votes hfound
    rw [hvotesFirst,or_eq_true] at hvote
    rw [hvotesSecond,or_eq_true] at hother
    simp only [and_eq_true,decide_eq_true_eq] at hvote hother
    rw [hattackedFirst]
    rcases hvote with hvote | ⟨rfl,⟨rfl,rfl⟩,hlock⟩
    · rcases hother with hother | ⟨rfl,⟨rfl,rfl⟩,-⟩
      · exact .inl (h.noticed hash other first second outpoint masternode hne hfirst hsecond hvote
          hother)
      · -- the new vote is for the other candidate, and this one is found in the index
        refine .inr ⟨⟨hash,h.indexed hash first _ _ hfirst hvote,⟨hne,first,hfirst,hvote⟩,
          .inr rfl⟩,rfl,hasLock_of_voted hvote⟩
    · rcases hother with hother | ⟨he,-,-⟩
      · exact .inr ⟨⟨other,h.indexed other second _ _ hsecond hother,
          ⟨Ne.symm hne,second,hsecond,hother⟩,.inl rfl⟩,rfl,hlock⟩
      · exact absurd he.symm hne

theorem Change.tracked (h : Change ctx False (KeepsVotes ctx) st next)
    (hinv : Sound st ∧ Tracked st) : Sound next ∧ Tracked next := by
  refine ⟨h.sound hinv.1,?_⟩
  obtain ⟨-,htracked⟩ := hinv
  have hsame : ∀ {next : CInstantSend}, next.mapTxLockCandidates=st.mapTxLockCandidates →
      ∀ hash cand, next.mapTxLockCandidates.find hash=some cand →
      (∀ outpoint masternode, cand.hasMasternodeVoted outpoint masternode=false) ∨
      ∃ old, st.mapTxLockCandidates.find hash=some old ∧
        (∀ outpoint masternode, cand.hasMasternodeVoted outpoint masternode=
          old.hasMasternodeVoted outpoint masternode) ∧
        ∀ outpoint, cand.attacked outpoint=old.attacked outpoint := by
    grind
  cases h with
  | other hcands hvoted hlocked =>
    refine htracked.of_votes (hsame hcands) (fun hash outpoint _ _ hm _ _ => ?_)
    rwa [votedHashes_eq hvoted]
  | @start txHash started hstarted =>
    refine htracked.of_votes (fun hash cand hfind => ?_) (fun _ _ _ _ hm _ _ => hm)
    by_cases he : hash=txHash
    · rw [he,setCandidate,find_set_self,Option.some.injEq] at hfind
      rw [← hfind]
      exact .inl hstarted.fresh
    · rw [setCandidate,find_set_of_ne _ _ he] at hfind
      exact .inr ⟨cand,hfind,fun _ _ => rfl,fun _ => rfl⟩
  | confirm txHash nHeight =>
    refine htracked.of_votes (fun hash cand hfind => ?_) (fun hash outpoint _ _ hm _ _ => ?_)
    · obtain ⟨old,hold,-,hlocks⟩ := confirm_shape hfind
      refine .inr ⟨old,hold,fun outpoint masternode => ?_,fun outpoint => ?_⟩
      · rw [hasMasternodeVoted,hlocks,hasMasternodeVoted]
      · rw [attacked,hlocks,attacked]
    · rwa [votedHashes_eq sameIndexes_changeCandidate.voted]
  | record hfind hstrict => exact htracked.record _
  | index hfind hlock =>
    exact htracked.of_votes (hsame rfl)
      (fun hash outpoint _ _ hm _ _ => mem_votedHashes_addVoted.mpr (.inr hm))
  | lock hfind hfree hcands hvoted hlocked =>
    refine htracked.of_votes (hsame hcands) (fun hash outpoint _ _ hm _ _ => ?_)
    rwa [votedHashes_eq hvoted]
  | clean hok =>
    obtain ⟨hcands,-,-⟩ := @find_removeExpired ctx st
    refine htracked.of_votes (fun hash cand hfind => ?_)
      (fun hash outpoint cand masternode hm hfind hvote => ?_)
    · exact .inr ⟨cand,((hcands hash cand).mp hfind).1,fun _ _ => rfl,fun _ => rfl⟩
    · refine mem_votedHashes_removeExpired.mpr ⟨hm,fun hexpires => ?_⟩
      obtain ⟨hold,hlive⟩ := (hcands hash cand).mp hfind
      rw [hok outpoint hash cand masternode hexpires hold hlive] at hvote
      cases hvote

theorem Cast.votes {voting result : Voting} {vote : CTxLockVote}
    (h : Cast ctx env voting result vote) :
    (∀ outpoint, result.cand.attacked outpoint=voting.cand.attacked outpoint) ∧
    (∀ own∈voting.relayed, own∈result.relayed) ∧
    ∀ outpoint masternode, result.cand.hasMasternodeVoted outpoint masternode=true →
      voting.cand.hasMasternodeVoted outpoint masternode=true ∨
        (vote∈result.relayed ∧ vote.outpoint=outpoint ∧ vote.outpointMasternode=masternode) := by
  rw [h.result,Voting.castVote]
  have hvotes : ∀ outpoint masternode,
      (voting.cand.addVote vote).1.hasMasternodeVoted outpoint masternode=true →
      voting.cand.hasMasternodeVoted outpoint masternode=true ∨
        ((voting.cand.addVote vote).2=true ∧ vote.outpoint=outpoint ∧
          vote.outpointMasternode=masternode) := by
    intro outpoint masternode hvote
    rw [hasMasternodeVoted_addVote,or_eq_true] at hvote
    rcases hvote with hold | hnew
    · exact .inl hold
    · simp only [and_eq_true,decide_eq_true_eq] at hnew
      obtain ⟨⟨rfl,rfl⟩,hlock⟩ := hnew
      cases hold : voting.cand.hasMasternodeVoted vote.outpoint vote.outpointMasternode with
      | true => exact .inl rfl
      | false =>
        refine .inr ⟨?_,rfl,rfl⟩
        rw [addVote_snd,hlock,hold]
        rfl
  split_ifs with hadded
  · refine ⟨fun outpoint => by simp,fun own hm => mem_append_left _ hm,
      fun outpoint masternode hvote => ?_⟩
    grind
  · refine ⟨fun outpoint => by simp,fun own hm => hm,fun outpoint masternode hvote => ?_⟩
    grind

theorem Casts.votes {first voting : Voting} (h : Casts ctx env first voting)
    (hsound : Sound first.st) (htracked : Tracked first.st) {txHash : Uint256}
    {stored : CTxLockCandidate} (hfind : first.st.mapTxLockCandidates.find txHash=some stored)
    (hshape : SameShape stored first.cand) :
    (∀ outpoint, voting.cand.attacked outpoint=first.cand.attacked outpoint) ∧
    ∀ outpoint masternode, voting.cand.hasMasternodeVoted outpoint masternode=true →
      first.cand.hasMasternodeVoted outpoint masternode=true ∨
      ((∃ vote∈voting.relayed, vote.outpoint=outpoint ∧ vote.outpointMasternode=masternode) ∧
        ∀ hash other, first.st.mapTxLockCandidates.find hash=some other →
          other.hasMasternodeVoted outpoint masternode=false) := by
  induction h with
  | refl => exact ⟨fun _ => rfl,fun _ _ hvote => .inl hvote⟩
  | @tail current final hcasts hlast ih =>
    obtain ⟨vote,hcast⟩ := hlast
    obtain ⟨hattacked,hvotes⟩ := ih
    obtain ⟨hattackedLast,hrelayed,hvotesLast⟩ := hcast.votes
    refine ⟨fun outpoint => (hattackedLast outpoint).trans (hattacked outpoint),
      fun outpoint masternode hvote => ?_⟩
    rcases hvotesLast outpoint masternode hvote with hold | ⟨hm,rfl,rfl⟩
    · grind
    · obtain ⟨hchanges,hcands,-⟩ :=
        @Casts.changes ctx env False (KeepsVotes ctx) _ _ hcasts hsound txHash stored hfind hshape
      have hnow := (hchanges.invariant (fun _ _ h => h.tracked) ⟨hsound,htracked⟩).2
      refine .inr ⟨⟨vote,hm,rfl,rfl⟩,fun hash other hother => ?_⟩
      rw [← hcands] at hother
      by_contra hvoted
      rw [not_eq_false,hcast.masternode] at hvoted
      obtain ⟨found,hfound,hunvoted⟩ := hcast.unvoted hash
        (hnow.indexed hash other vote.outpoint ctx.masternodeOutpoint hother hvoted)
      grind

/-- Votes of a candidate that a call comes to complete are votes of the stored one or own votes. -/
structure PendingVotes (pending : Pending) (cand : CTxLockCandidate) (txHash : Uint256)
    (stored : CTxLockCandidate) : Prop where
  find : pending.st.mapTxLockCandidates.find txHash=some stored
  shape : SameShape stored cand
  attacked : ∀ outpoint, cand.attacked outpoint=stored.attacked outpoint
  /-- Votes are stored, or own ones for inputs without a vote of the own masternode. -/
  votes : ∀ outpoint masternode, cand.hasMasternodeVoted outpoint masternode=true →
    stored.hasMasternodeVoted outpoint masternode=true ∨
    ((∃ vote∈pending.relayed, vote.outpoint=outpoint ∧ vote.outpointMasternode=masternode) ∧
      ∀ hash other, pending.st.mapTxLockCandidates.find hash=some other →
        other.hasMasternodeVoted outpoint masternode=false)

theorem process_pendingVotes {env : InstantEnv} {event : Event} {pending : Pending}
    (hinv : Sound st ∧ Tracked st) (h : st.process ctx env event=.ok pending)
    (hclean : ∀ next∈st.cleanups ctx env event, KeepsVotes ctx next)
    (hcand : pending.cand=some cand) :
    (Sound pending.st ∧ Tracked pending.st) ∧
      ∃ txHash stored, PendingVotes pending cand txHash stored := by
  obtain ⟨hchanges,-,hstored⟩ :=
    @process_changes ctx env False (KeepsVotes ctx) st event hinv.1 pending h
      (fun hstrict => hstrict.elim) hclean
  refine ⟨hchanges.invariant (fun _ _ h => h.tracked) hinv,?_⟩
  by_cases hvote : ∃ txHash, event=.vote txHash
  · obtain ⟨txHash,rfl⟩ := hvote
    rcases vote_cases h with ⟨-,rfl⟩ | ⟨stored,voting,hfind,hcasts,rfl⟩
    · cases hcand
    · obtain ⟨-,hcands,-⟩ := @Casts.changes ctx env False (KeepsVotes ctx) _ _ hcasts hinv.1
        txHash stored hfind (SameShape.refl stored)
      obtain ⟨hattacked,hvotes⟩ := hcasts.votes hinv.1 hinv.2 hfind (SameShape.refl stored)
      cases hcand
      refine ⟨txHash,stored,?_,hcasts.shape,hattacked,?_⟩
      · exact (congrArg (fun map => map.find txHash) hcands).trans hfind
      · grind
  · obtain ⟨txHash,hfind⟩ := (hstored (fun txHash he => hvote ⟨txHash,he⟩)).2 cand hcand
    exact ⟨txHash,cand,hfind,SameShape.refl cand,fun _ => rfl,fun _ _ hvoted => .inl hvoted⟩

end Tracking

/-- What a lock rests on: for every input there are enough masternodes whose votes are recorded, and
that have no recorded vote for the input in another candidate. -/
def LockIsSafe (ctx : InstantContext) (pending : Pending) (cand : CTxLockCandidate) : Prop :=
  ∃ stored, pending.st.mapTxLockCandidates.find (cand.getHash ctx)=some stored ∧
    ∀ txin∈cand.vin, ∃ masternodes : List COutPoint, masternodes.Nodup ∧
      signaturesRequired ≤ masternodes.length ∧ ∀ masternode∈masternodes,
        cand.hasMasternodeVoted txin.prevout masternode=true ∧
        (stored.hasMasternodeVoted txin.prevout masternode=true ∨
          ∃ vote∈pending.relayed, vote.outpoint=txin.prevout ∧ vote.outpointMasternode=masternode) ∧
        ∀ hash other, hash≠cand.getHash ctx →
          pending.st.mapTxLockCandidates.find hash=some other →
            other.hasMasternodeVoted txin.prevout masternode=false

theorem Completes.lockIsSafe {ctx : InstantContext} {env : InstantEnv} {pending : Pending}
    {cand stored : CTxLockCandidate} {txHash : Uint256}
    (h : Completes ctx env pending.st cand)
    (hvotes : PendingVotes pending cand txHash stored)
    (hinv : Sound pending.st ∧ Tracked pending.st) : LockIsSafe ctx pending cand := by
  obtain ⟨⟨first,hfirst⟩,hready⟩ := ready_iff.mp h.ready
  have hkey : cand.getHash ctx=txHash := hinv.1.getHash hvotes.find hvotes.shape hfirst
  refine ⟨stored,by rw [hkey]; exact hvotes.find,fun txin hm => ?_⟩
  have hlock : cand.hasLock txin.prevout=true := by
    rw [hvotes.shape.hasLock] at hfirst ⊢
    rcases hinv.1.inputs txHash stored hvotes.find with hempty | ⟨tx,htx,hinputs⟩
    · rw [hempty first] at hfirst
      cases hfirst
    · rw [vin,hvotes.shape.request,htx] at hm
      exact (hinputs txin.prevout).mpr (mem_map_of_mem hm)
  obtain ⟨hunattacked,henough⟩ := hready txin.prevout hlock
  refine ⟨cand.voterList txin.prevout,nodup_voterList,
    by rwa [length_voterList],fun masternode hmn => ?_⟩
  have hvoted := mem_voterList.mp hmn
  refine ⟨hvoted,?_,fun hash other hne hother => ?_⟩
  · rcases hvotes.votes txin.prevout masternode hvoted with hold | ⟨hown,-⟩
    · exact .inl hold
    · exact .inr hown
  · rcases hvotes.votes txin.prevout masternode hvoted with hold | ⟨-,hnone⟩
    · by_contra hclash
      have hattacked := hinv.2.noticed txHash hash stored other txin.prevout masternode
        (by rw [hkey] at hne; exact Ne.symm hne) hvotes.find hother hold (by simpa using hclash)
      rw [← hvotes.attacked,hunattacked] at hattacked
      cases hattacked
    · exact hnone hash other hother

theorem isLocked_disjoint {st : CInstantSend} (hsound : Sound st) {env : InstantEnv}
    {hash other : Uint256} {cand found : CTxLockCandidate} {tx conflicting : CTransaction}
    {txin spent : CTxIn} (hne : hash≠other)
    (hfind : st.mapTxLockCandidates.find hash=some cand)
    (hfound : st.mapTxLockCandidates.find other=some found)
    (htx : cand.txLockRequest=some tx) (hconflicting : found.txLockRequest=some conflicting)
    (hin : txin∈tx.vin) (hspent : spent∈conflicting.vin) (hshared : txin.prevout=spent.prevout) :
    ¬(st.isLockedInstantSendTransaction env hash=true ∧
      st.isLockedInstantSendTransaction env other=true) := by
  have hlocked : ∀ hash cand tx txin, st.mapTxLockCandidates.find hash=some cand →
      cand.txLockRequest=some tx → txin∈tx.vin →
      st.isLockedInstantSendTransaction env hash=true →
      st.mapLockedOutpoints.find txin.prevout=some hash := by
    intro hash cand tx txin hfind htx hin hreported
    unfold isLockedInstantSendTransaction at hreported
    rw [hfind] at hreported
    simp only [and_eq_true,not_eq_true',isEmpty_eq_false_iff,all_eq_true,
      decide_eq_true_eq] at hreported
    obtain ⟨-,hnonempty,hall⟩ := hreported
    obtain ⟨entry,hentry⟩ := exists_mem_of_ne_nil _ hnonempty
    have hsome : cand.hasLock entry.1=true :=
      mem_outpoints_iff.mp (mem_map_of_mem hentry)
    rcases hsound.inputs hash cand hfind with hempty | ⟨request,hrequest,hinputs⟩
    · rw [hempty] at hsome
      cases hsome
    · rw [htx,Option.some.injEq] at hrequest
      subst hrequest
      exact hall txin.prevout (mem_outpoints_iff.mpr
        ((hinputs txin.prevout).mpr (mem_map_of_mem hin)))
  grind

/-- Cleanups of a call leave counted votes in the index. -/
def KeepsVoteIndex (ctx : InstantContext) (env : InstantEnv) (st : CInstantSend)
    (event : Event) : Prop :=
  ∀ next∈st.cleanups ctx env event, KeepsVotes ctx next

theorem Run.tracked {ctx : InstantContext} {st : CInstantSend}
    (h : Run ctx (KeepsVoteIndex ctx) st) : Sound st ∧ Tracked st := by
  induction h with
  | start =>
    refine ⟨(@Run.start ctx (KeepsVoteIndex ctx)).sound,?_⟩
    exact ⟨(fun _ _ _ _ hfind => by simp [find_empty] at hfind),
      (fun _ _ _ _ _ _ _ hfind => by simp [find_empty] at hfind)⟩
  | step env event hrun hok hstep ih =>
    exact (step_changes ih.1 hstep (fun hstrict => hstrict.elim) hok).invariant
      (fun _ _ h => h.tracked) ih

/-- In every run in which cleanups leave counted votes in the index, one at most of two transactions
with a common input is locked. -/
theorem Run.lockSafety {ctx : InstantContext} {st : CInstantSend}
    (h : Run ctx (KeepsVoteIndex ctx) st) :
    (∀ env event pending cand, KeepsVoteIndex ctx env st event →
      st.process ctx env event=.ok pending → pending.cand=some cand →
      Completes ctx env pending.st cand → LockIsSafe ctx pending cand) ∧
    ∀ env hash other cand found tx conflicting txin spent, hash≠other →
      st.mapTxLockCandidates.find hash=some cand →
      st.mapTxLockCandidates.find other=some found → cand.txLockRequest=some tx →
      found.txLockRequest=some conflicting → txin∈tx.vin → spent∈conflicting.vin →
      txin.prevout=spent.prevout → ¬(st.isLockedInstantSendTransaction env hash=true ∧
        st.isLockedInstantSendTransaction env other=true) := by
  refine ⟨fun env event pending cand hok hprocess hcand hcompletes => ?_,?_⟩
  · obtain ⟨hinv,txHash,stored,hvotes⟩ := process_pendingVotes h.tracked hprocess hok hcand
    exact hcompletes.lockIsSafe hvotes hinv
  · intro env hash other cand found tx conflicting txin spent hne hfind hfound htx hconflicting
      hin hspent hshared
    exact isLocked_disjoint h.sound hne hfind hfound htx hconflicting hin hspent hshared

/-- A call that comes to complete a candidate, after other calls. -/
def completing (ctx : InstantContext) (check : InstantEnv → CInstantSend → Event → Bool)
    (calls : List (InstantEnv×Event)) (last : InstantEnv×Event)
    (property : CInstantSend → Pending → CTxLockCandidate → Bool) : Bool :=
  (({} : CInstantSend).steps ctx check calls).any (fun st =>
    check last.1 st last.2 && (st.process ctx last.1 last.2).toOption.any (fun pending =>
      pending.cand.any (fun cand => decide (Completes ctx last.1 pending.st cand) &&
        property st pending cand)))

theorem exists_completing {ctx : InstantContext} {ok : InstantEnv → CInstantSend → Event → Prop}
    {check : InstantEnv → CInstantSend → Event → Bool}
    (hcheck : ∀ env st event, check env st event=true → ok env st event)
    {calls : List (InstantEnv×Event)} {last : InstantEnv×Event}
    {property : CInstantSend → Pending → CTxLockCandidate → Bool}
    (h : completing ctx check calls last property=true) :
    ∃ st pending cand, Run ctx ok st ∧ ok last.1 st last.2 ∧
      st.process ctx last.1 last.2=.ok pending ∧ pending.cand=some cand ∧
      Completes ctx last.1 pending.st cand ∧ property st pending cand=true := by
  obtain ⟨st,hsteps,hstate⟩ := (Option.any_eq_true _ _).mp h
  rw [and_eq_true] at hstate
  obtain ⟨pending,hpending,hlast⟩ := (Option.any_eq_true _ _).mp hstate.2
  obtain ⟨cand,hcand,hprop⟩ := (Option.any_eq_true _ _).mp hlast
  rw [and_eq_true,decide_eq_true_eq] at hprop
  refine ⟨st,pending,cand,Run.start.steps hcheck hsteps,hcheck _ _ _ hstate.1,?_,hcand,
    hprop⟩
  revert hpending
  cases st.process ctx last.1 last.2 with
  | error failure =>
    intro hnone
    cases hnone
  | ok found =>
    intro hsome
    rw [Except.toOption,Option.some.injEq] at hsome
    rw [hsome]

/-- Votes of masternodes in order for a transaction with one input. -/
def sampleVotes (txHash spent : Uint256) (masternodes : List ℕ) : List (InstantEnv×Event) :=
  masternodes.map (fun masternode => (sampleEnv,.newVote (sampleVote txHash spent masternode)))

/-- Six votes of different masternodes complete a safe lock. -/
theorem Run.lockSafety_sample :
    ∃ st pending cand, Run sampleContext (KeepsVoteIndex sampleContext) st ∧
      st.process sampleContext sampleEnv (.newVote (sampleVote 21 1 7))=.ok pending ∧
      pending.cand=some cand ∧ Completes sampleContext sampleEnv pending.st cand ∧
      LockIsSafe sampleContext pending cand := by
  obtain ⟨st,pending,cand,hrun,hok,hprocess,hcand,hcompletes,-⟩ :=
    @exists_completing sampleContext (KeepsVoteIndex sampleContext)
      (fun env st event => (st.cleanups sampleContext env event).isEmpty)
      (fun env st event hcheck next hm => by
        rw [isEmpty_iff.mp hcheck] at hm
        cases hm)
      ((sampleEnv,.request (sampleRequest 21 [1]))::sampleVotes 21 1 [2,3,4,5,6])
      (sampleEnv,.newVote (sampleVote 21 1 7)) (fun _ _ _ => true) rfl
  exact ⟨st,pending,cand,hrun,hprocess,hcand,hcompletes,
    hrun.lockSafety.1 sampleEnv _ pending cand hok hprocess hcand hcompletes⟩

/-- A vote is forgotten when another transaction with the same input expires, and its masternode
counts for a third one. -/
theorem lockSafety_forgottenVote :
    ∃ st pending cand, Run sampleContext (fun _ _ _ => True) st ∧
      st.process sampleContext sampleEnv (.newVote (sampleVote 23 1 7))=.ok pending ∧
      pending.cand=some cand ∧ Completes sampleContext sampleEnv pending.st cand ∧
      ¬LockIsSafe sampleContext pending cand := by
  obtain ⟨st,pending,cand,hrun,-,hprocess,hcand,hcompletes,hprop⟩ :=
    @exists_completing sampleContext (fun _ _ _ => True) (fun _ _ _ => true)
      (fun _ _ _ _ => trivial)
      ([(sampleEnv,.request (sampleRequest 21 [1])),(sampleEnv,.request (sampleRequest 22 [1])),
        (sampleEnv,.newVote (sampleVote 22 1 2)),(sampleEnv,.sync (sampleRequest 21 [1]) 100),
        (sampleEnv,.tip 125),(sampleEnv,.cleanup),(sampleEnv,.request (sampleRequest 23 [1]))]++
          sampleVotes 23 1 [2,3,4,5,6])
      (sampleEnv,.newVote (sampleVote 23 1 7)) (fun _ pending cand =>
        decide (cand.getHash sampleContext=23) &&
        decide (cand.vin=[⟨⟨1,0⟩,[]⟩]) &&
        decide (cand.voterList ⟨1,0⟩=[⟨9,2⟩,⟨9,3⟩,⟨9,4⟩,⟨9,5⟩,⟨9,6⟩,⟨9,7⟩]) &&
        (pending.st.mapTxLockCandidates.find 22).any (fun other =>
          other.hasMasternodeVoted ⟨1,0⟩ ⟨9,2⟩)) rfl
  refine ⟨st,pending,cand,hrun,hprocess,hcand,hcompletes,fun hsafe => ?_⟩
  rw [and_eq_true,and_eq_true,and_eq_true,decide_eq_true_eq,decide_eq_true_eq,
    decide_eq_true_eq,Option.any_eq_true] at hprop
  obtain ⟨⟨⟨hhash,hvin⟩,hvoters⟩,other,hother,hforgotten⟩ := hprop
  obtain ⟨stored,-,hinputs⟩ := hsafe
  obtain ⟨masternodes,hnodup,hlen,hall⟩ := hinputs ⟨⟨1,0⟩,[]⟩ (by rw [hvin]; simp)
  -- without the masternode that voted twice there are five
  have hsubset : masternodes⊆[⟨9,3⟩,⟨9,4⟩,⟨9,5⟩,⟨9,6⟩,⟨9,7⟩] := by
    intro masternode hm
    obtain ⟨hvoted,-,hnone⟩ := hall masternode hm
    have hlisted := mem_voterList.mpr hvoted
    grind
  have hfive := (subperm_of_subset hnodup hsubset).length_le
  simp only [signaturesRequired,length_cons,length_nil] at hlen hfive
  omega

end Pyrk.InstantSend
