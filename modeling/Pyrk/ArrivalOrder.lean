import Pyrk.VoteArrivals

/-!
# Order of arrival

Received votes are all counted in the stored candidate, wherever the request comes among them. Own
votes only count in the call that makes them, together with the votes received before it.
-/

namespace Pyrk.InstantSend

open Transaction CInstantSend OrderedMap List CTxLockCandidate

/-- What came until now. -/
structure Tally where
  requested : Bool := false
  received : List CTxLockVote := []
  signed : List CTxLockVote := []
  /-- Votes that calls to vote had, with the own votes that they made. -/
  counted : List (List CTxLockVote) := []

/-- What came after a call. -/
def Tally.after (tally : Tally) (relayed : List CTxLockVote) : Event → Tally
  | .request _ => { tally with requested := true }
  | .newVote vote => { tally with received := tally.received++[vote] }
  | .vote _ => { tally with
      signed := tally.signed++relayed
      counted := if tally.requested then tally.counted++[tally.received++relayed]
        else tally.counted }
  | _ => tally

/-- Calls for a request: the valid request, its acceptance, valid votes, and calls to vote. -/
def Arrives (ctx : InstantContext) (tx : CTransaction) (env : InstantEnv) : Event → Prop
  | .request other => other=tx ∧ isValidRequest ctx env tx=.ok true
  | .accept other => other=tx
  | .newVote vote => ForRequest tx vote ∧ vote.isValid ctx env=true
  | .vote txHash => txHash=tx.hash
  | _ => False

/-- Runs of calls for a request in any order, each in surroundings of its own. -/
inductive Interleaving (ctx : InstantContext) (tx : CTransaction) (start : ℤ)
    (first : CInstantSend) : CInstantSend → Tally → Prop where
  | start : Interleaving ctx tx start first first {}
  | step {st : CInstantSend} {tally : Tally} {pending : Pending} (env : InstantEnv) (event : Event)
      (hrun : Interleaving ctx tx start first st tally) (htimely : Timely tx start env)
      (harrives : Arrives ctx tx env event)
      (hprocess : st.process ctx env event=.ok pending) :
      Interleaving ctx tx start first (pending.finish ctx env)
        (tally.after pending.relayed event)

/-- A state that does not know the request, nor votes for it or its inputs. -/
structure Untouched (ctx : InstantContext) (tx : CTransaction) (votes : List CTxLockVote)
    (st : CInstantSend) : Prop where
  cand : st.mapTxLockCandidates.find tx.hash=none
  voted : ∀ txin∈tx.vin, st.votedHashes txin.prevout=[]
  free : Free tx st
  /-- Votes without a request are for other transactions and outputs. -/
  orphans : ∀ key vote, st.mapTxLockVotesOrphan.find key=some vote → Foreign tx vote ∧
    ∀ other∈votes, other.getHash ctx≠key

/-- Different votes have different hashes. -/
def Collisionless (ctx : InstantContext) (votes : List CTxLockVote) : Prop :=
  ∀ vote∈votes, ∀ other∈votes, vote.getHash ctx=other.getHash ctx →
    vote.outpoint=other.outpoint ∧ vote.outpointMasternode=other.outpointMasternode

/-- The lock was completed, if it could be. -/
def Done (tx : CTransaction) (tally : Tally) : Prop :=
  Enough tx tally.received ∨ ∃ counted∈tally.counted, Enough tx counted

/-- Votes without a request are received ones or foreign. -/
def OrphansKnown (ctx : InstantContext) (tx : CTransaction) (votes received : List CTxLockVote)
    (st : CInstantSend) : Prop :=
  ∀ key vote, st.mapTxLockVotesOrphan.find key=some vote →
    (vote∈received ∧ key=vote.getHash ctx ∧ ForRequest tx vote) ∨
    (Foreign tx vote ∧ ∀ other∈votes, other.getHash ctx≠key)

/-- Before the request all votes are kept. -/
structure Waiting (tx : CTransaction) (start : ℤ) (received : List CTxLockVote)
    (st : CInstantSend) : Prop where
  cand : ∀ cand, st.mapTxLockCandidates.find tx.hash=some cand →
    cand.txLockRequest=none ∧ start ≤ cand.nTimeCreated ∧ cand.mapOutPointLocks.entries=[]
  voted : ∀ txin∈tx.vin, st.votedHashes txin.prevout=[]
  free : Free tx st
  kept : ∀ vote∈received, ∃ key other, st.mapTxLockVotesOrphan.find key=some other ∧
    other.txHash=tx.hash ∧ other.outpoint=vote.outpoint ∧
    other.outpointMasternode=vote.outpointMasternode

/-- What holds after calls for a request. -/
structure Arrived (ctx : InstantContext) (tx : CTransaction) (start : ℤ)
    (votes : List CTxLockVote) (st : CInstantSend) (tally : Tally) : Prop where
  orphans : OrphansKnown ctx tx votes tally.received st
  waiting : tally.requested=false → Waiting tx start tally.received st ∧ tally.counted=[]
  requested : tally.requested=true → Requested tx start tally.received st ∧
    ((Done tx tally ∧ LockedFor tx st) ∨ (¬Done tx tally ∧ Free tx st))

variable {ctx : InstantContext} {env : InstantEnv} {st : CInstantSend} {tx : CTransaction}
variable {start : ℤ} {votes received : List CTxLockVote} {tally : Tally}

theorem keepOrphanVote_find (vote : CTxLockVote) :
    (st.keepOrphanVote ctx env vote).1.mapTxLockCandidates=
      (st.createEmptyTxLockCandidate env vote.txHash).mapTxLockCandidates ∧
    (st.keepOrphanVote ctx env vote).1.mapVotedOutpoints=st.mapVotedOutpoints ∧
    (st.keepOrphanVote ctx env vote).1.mapLockedOutpoints=st.mapLockedOutpoints ∧
    (st.keepOrphanVote ctx env vote).1.mapTxLockVotesOrphan=
      st.mapTxLockVotesOrphan.emplace (vote.getHash ctx) vote := by
  have hempty : (st.createEmptyTxLockCandidate env vote.txHash).mapVotedOutpoints=
      st.mapVotedOutpoints ∧
      (st.createEmptyTxLockCandidate env vote.txHash).mapLockedOutpoints=st.mapLockedOutpoints ∧
      (st.createEmptyTxLockCandidate env vote.txHash).mapTxLockVotesOrphan=
        st.mapTxLockVotesOrphan := by
    unfold createEmptyTxLockCandidate
    split_ifs
    · exact ⟨rfl,rfl,rfl⟩
    · exact ⟨rfl,rfl,rfl⟩
  obtain ⟨hvoted,hlocked,horphans⟩ := hempty
  unfold keepOrphanVote
  grind

theorem Waiting.newVote (h : Waiting tx start received st) (htimely : Timely tx start env)
    (hknown : OrphansKnown ctx tx votes received st) {vote : CTxLockVote}
    (hvote : ForRequest tx vote) (hm : vote∈votes) (hsubset : received⊆votes)
    (hcollisionless : Collisionless ctx votes) :
    Waiting tx start (received++[vote]) (st.keepOrphanVote ctx env vote).1 ∧
      OrphansKnown ctx tx votes (received++[vote]) (st.keepOrphanVote ctx env vote).1 := by
  obtain ⟨hcands,hvoted,hlocked,horphans⟩ := @keepOrphanVote_find ctx env st vote
  have hfind : ∀ key, (st.keepOrphanVote ctx env vote).1.mapTxLockVotesOrphan.find key=
      if key=vote.getHash ctx then
        some ((st.mapTxLockVotesOrphan.find (vote.getHash ctx)).getD vote)
      else st.mapTxLockVotesOrphan.find key := by
    intro key
    rw [horphans,find_emplace]
  refine ⟨⟨fun cand hcand => ?_,?_,?_,?_⟩,?_⟩
  · rw [hcands,hvote.1] at hcand
    unfold createEmptyTxLockCandidate at hcand
    split_ifs at hcand
    · exact h.cand cand hcand
    · rw [setCandidate,find_set_self,Option.some.injEq] at hcand
      rw [← hcand]
      exact ⟨rfl,htimely.after,rfl⟩
  · intro txin hin
    rw [votedHashes_eq hvoted]
    exact h.voted txin hin
  · intro txin hin
    rw [hlocked]
    exact h.free txin hin
  · intro other hother
    rcases mem_append.mp hother with hold | hnew
    · obtain ⟨key,found,hfound,hsame⟩ := h.kept other hold
      grind
    · rw [mem_singleton.mp hnew]
      refine ⟨vote.getHash ctx,
        (st.mapTxLockVotesOrphan.find (vote.getHash ctx)).getD vote,
        by rw [hfind,if_pos rfl],?_⟩
      cases hfound : st.mapTxLockVotesOrphan.find (vote.getHash ctx) with
      | none => exact ⟨hvote.1,rfl,rfl⟩
      | some found =>
        rcases hknown _ found hfound with ⟨hrecv,hkey,hfor⟩ | ⟨-,hother⟩
        · obtain ⟨hout,hmn⟩ := hcollisionless found (hsubset hrecv) vote hm hkey.symm
          exact ⟨hfor.1,hout,hmn⟩
        · exact absurd rfl (hother vote hm)
  · intro key found hfound
    rw [hfind] at hfound
    have hold : ∀ found, st.mapTxLockVotesOrphan.find key=some found →
        (found∈received++[vote] ∧ key=found.getHash ctx ∧ ForRequest tx found) ∨
        (Foreign tx found ∧ ∀ other∈votes, other.getHash ctx≠key) := by
      intro found hfound
      rcases hknown key found hfound with ⟨hrecv,hrest⟩ | hforeign
      · exact .inl ⟨mem_append_left _ hrecv,hrest⟩
      · exact .inr hforeign
    split_ifs at hfound with he
    · subst he
      cases hbefore : st.mapTxLockVotesOrphan.find (vote.getHash ctx) with
      | none =>
        grind
      | some before =>
        grind
    · exact hold found hfound

section

variable (h : OrphansKnown ctx tx votes received st)

include h

theorem OrphansKnown.mono {next : CInstantSend}
    {later : List CTxLockVote} (hkept : OrphansKept st next) (hsubset : received⊆later) :
    OrphansKnown ctx tx votes later next := by
  intro key vote hfind
  rcases h key vote (hkept key vote hfind) with ⟨hm,hrest⟩ | hforeign
  · exact .inl ⟨hsubset hm,hrest⟩
  · exact .inr hforeign

theorem OrphansKnown.entries :
    ∀ entry∈st.mapTxLockVotesOrphan.entries, ForRequest tx entry.2 ∨ Foreign tx entry.2 := by
  intro entry hm
  rcases h entry.1 entry.2 ((mem_entries_iff _ _ _).mp hm) with ⟨-,-,hfor⟩ | ⟨hforeign,-⟩
  · exact .inl hfor
  · exact .inr hforeign

theorem OrphansKnown.requestVotes :
    requestVotes tx st.mapTxLockVotesOrphan.entries⊆received := by
  intro vote hm
  obtain ⟨hlisted,hhash⟩ := mem_filter.mp hm
  obtain ⟨entry,hentry,rfl⟩ := mem_map.mp hlisted
  rcases h entry.1 entry.2 ((mem_entries_iff _ _ _).mp hentry) with
    ⟨hrecv,-,-⟩ | ⟨hforeign,-⟩
  · exact hrecv
  · exact absurd (of_decide_eq_true hhash) hforeign.1

end

theorem Waiting.create (h : Waiting tx start received st) (htimely : Timely tx start env)
    (hvalid : isValidRequest ctx env tx=.ok true) :
    ∃ next, st.createTxLockCandidate ctx env tx=.ok (next,true) ∧
      Requested tx start [] next ∧ next.mapLockedOutpoints=st.mapLockedOutpoints ∧
      next.mapTxLockVotesOrphan=st.mapTxLockVotesOrphan := by
  have hstarted : ∀ cand : CTxLockCandidate, cand.txLockRequest=some tx →
      start ≤ cand.nTimeCreated → cand.mapOutPointLocks.entries=[] →
      Requested tx start [] (st.setCandidate tx.hash ((tx.vin.map CTxIn.prevout).foldl
        addOutPointLock cand)) := by
    intro cand hrequest hcreated hnil
    have hfind : ∀ outpoint, cand.mapOutPointLocks.find outpoint=none := by
      intro outpoint
      rw [OrderedMap.find,hnil]
      rfl
    obtain ⟨hfold,htime,hlock,hvoted,hattacked⟩ :=
      foldl_addOutPointLock (tx.vin.map CTxIn.prevout) cand
    refine ⟨⟨_,find_set_self _ _ _,by rwa [htime],⟨by rw [hfold,hrequest],
      fun outpoint => ?_,fun outpoint => ?_,fun outpoint masternode => ?_⟩⟩,
      fun txin hin hash hm => ?_⟩
    · rw [hlock,hasLock,OrderedMap.contains,hfind]
      simp
    · rw [hattacked,attacked,hfind]
      rfl
    · rw [hvoted,hasMasternodeVoted,hfind]
      simp [Heard]
    · have hnone := h.voted txin hin
      rw [votedHashes] at hm hnone
      rw [setCandidate,hnone] at hm
      cases hm
  unfold createTxLockCandidate
  rw [hvalid,ok_bind]
  cases hfind : st.mapTxLockCandidates.find tx.hash with
  | none => exact ⟨_,rfl,hstarted _ rfl htimely.after rfl,rfl,rfl⟩
  | some cand =>
    obtain ⟨hnone,hcreated,hnil⟩ := h.cand cand hfind
    have hlate : ({ cand with txLockRequest := some tx } : CTxLockCandidate).isTimedOut env=
        false := by
      rw [isTimedOut,decide_eq_false_iff_not]
      have hbefore := htimely.before
      dsimp only
      omega
    refine ⟨st.setCandidate tx.hash ((tx.vin.map CTxIn.prevout).foldl
      addOutPointLock { cand with txLockRequest := some tx }),?_,
      hstarted _ rfl hcreated hnil,rfl,rfl⟩
    dsimp only
    rw [hlate]
    simp [hnone]

theorem Waiting.heard (h : Waiting tx start received st)
    (hknown : OrphansKnown ctx tx votes received st) (outpoint masternode : COutPoint) :
    Heard (requestVotes tx st.mapTxLockVotesOrphan.entries) outpoint masternode ↔
      Heard received outpoint masternode := by
  constructor
  · exact fun hheard => hheard.subset hknown.requestVotes
  · rintro ⟨vote,hm,rfl,rfl⟩
    obtain ⟨key,other,hfind,hhash,hout,hmn⟩ := h.kept vote hm
    refine ⟨other,mem_filter.mpr ⟨mem_map.mpr ⟨(key,other),
      (mem_entries_iff _ _ _).mpr hfind,rfl⟩,decide_eq_true hhash⟩,hout,hmn⟩

section

variable (h : Requested tx start received st)

include h

theorem Requested.processRequest {before : CInstantSend}
    (hcreate : before.createTxLockCandidate ctx env tx=.ok (st,true))
    {others : List CTxLockVote} (hknown : OrphansKnown ctx tx votes others st)
    (htimely : Timely tx start env) :
    ∃ final cand, before.processTxLockRequest ctx env tx=
        .ok { st := final, cand := some cand } ∧
      Requested tx start (received++requestVotes tx st.mapTxLockVotesOrphan.entries) final ∧
      Counts tx (received++requestVotes tx st.mapTxLockVotesOrphan.entries) cand ∧
      final.mapLockedOutpoints=st.mapLockedOutpoints ∧ OrphansKept st final := by
  obtain ⟨hreq,hlocked,hkept⟩ := h.orphans hknown.entries htimely.before
  obtain ⟨cand,hfind,-,hcounts⟩ := hreq.stored
  refine ⟨st.processOrphanTxLockVotes env,cand,?_,hreq,hcounts,hlocked,hkept⟩
  have hfinal : (st.processOrphanTxLockVotes env).mapTxLockCandidates.find tx.hash=some cand :=
    hfind
  unfold processTxLockRequest
  rw [hcreate,ok_bind]
  dsimp only
  rw [hfinal]
  rfl

theorem Requested.congr {others : List CTxLockVote}
    (hsame : ∀ outpoint masternode, Heard received outpoint masternode ↔
      Heard others outpoint masternode) : Requested tx start others st := by
  obtain ⟨cand,hfind,hcreated,hcounts⟩ := h.stored
  exact ⟨⟨cand,hfind,hcreated,hcounts.congr hsame⟩,h.voted⟩

theorem Requested.finish (hvin : tx.vin≠[])
    {counted : List CTxLockVote} {cand : CTxLockCandidate} (hcounts : Counts tx counted cand)
    (htimely : Timely tx start env) {before now : Prop}
    (hlocked : (before ∧ LockedFor tx st) ∨ (¬before ∧ Free tx st))
    (hnow : now ↔ before ∨ Enough tx counted) :
    Requested tx start received (st.tryToFinalizeLockCandidate ctx env cand) ∧
    (st.tryToFinalizeLockCandidate ctx env cand).mapTxLockVotesOrphan=
      st.mapTxLockVotesOrphan ∧
    ((now ∧ LockedFor tx (st.tryToFinalizeLockCandidate ctx env cand)) ∨
      (¬now ∧ Free tx (st.tryToFinalizeLockCandidate ctx env cand))) := by
  obtain ⟨hreq,horphans,hres⟩ := @Requested.finalize ctx env st tx start received
    counted cand h hvin hcounts htimely (hlocked.imp And.right And.right)
  refine ⟨hreq,horphans,?_⟩
  rcases hres with ⟨henough,hlockedNow⟩ | ⟨hnot,hsame⟩
  · exact .inl ⟨hnow.mpr (.inr henough),hlockedNow⟩
  · rcases hlocked with ⟨hbefore,hlocked⟩ | ⟨hbefore,hfree⟩
    · refine .inl ⟨hnow.mpr (.inl hbefore),fun txin hm => ?_⟩
      rw [hsame]
      exact hlocked txin hm
    · refine .inr ⟨fun h => (hnow.mp h).elim hbefore hnot,fun txin hm => ?_⟩
      rw [hsame]
      exact hfree txin hm

end

section

variable (h : Arrived ctx tx start votes st tally) (hvin : tx.vin≠[])
variable (htimely : Timely tx start env)

include h hvin htimely

theorem Arrived.request (hvalid : isValidRequest ctx env tx=.ok true) :
    ∃ pending, st.process ctx env (.request tx)=.ok pending ∧
      Arrived ctx tx start votes (pending.finish ctx env)
        (tally.after pending.relayed (.request tx)) := by
  have hcreated : ∃ created next, st.createTxLockCandidate ctx env tx=.ok (next,true) ∧
      Requested tx start created next ∧ next.mapTxLockVotesOrphan=st.mapTxLockVotesOrphan ∧
      (∀ outpoint masternode,
        Heard (created++requestVotes tx st.mapTxLockVotesOrphan.entries) outpoint masternode ↔
          Heard tally.received outpoint masternode) ∧
      ∃ before : Prop, ((before ∧ LockedFor tx next) ∨ (¬before ∧ Free tx next)) ∧
        (Done tx (tally.after [] (.request tx)) ↔ before ∨ Enough tx tally.received) := by
    cases hphase : tally.requested with
    | false =>
      obtain ⟨hwaiting,hcounted⟩ := h.waiting hphase
      obtain ⟨next,hcreate,hreq,hlocked,horphans⟩ := hwaiting.create htimely hvalid
      refine ⟨[],next,hcreate,hreq,horphans,hwaiting.heard h.orphans,False,
        .inr ⟨not_false,fun txin hm => by rw [hlocked]; exact hwaiting.free txin hm⟩,?_⟩
      simp [Done,Tally.after,hcounted]
    | true =>
      obtain ⟨hreq,hlocked⟩ := h.requested hphase
      obtain ⟨cand,hfind,-,hcounts⟩ := hreq.stored
      refine ⟨tally.received,st,?_,hreq,rfl,fun outpoint masternode => ?_,Done tx tally,
        hlocked,?_⟩
      · unfold createTxLockCandidate
        rw [hvalid,ok_bind,hfind]
        simp [hcounts.request]
      · rw [heard_append]
        exact or_iff_left_of_imp (fun hheard => hheard.subset h.orphans.requestVotes)
      · simp only [Done,Tally.after]
        exact ⟨.inl,fun hdone => hdone.elim id .inl⟩
  obtain ⟨created,next,hcreate,hreq,horphans,hheard,before,hlocked,hdone⟩ := hcreated
  have hknown : OrphansKnown ctx tx votes tally.received next := by
    intro key vote hfind
    exact h.orphans key vote (horphans ▸ hfind)
  obtain ⟨final,cand,hprocess,hfinal,hcounts,hsame,hkept⟩ :=
    hreq.processRequest hcreate hknown htimely
  rw [horphans] at hfinal hcounts
  have hlockedFinal : (before ∧ LockedFor tx final) ∨ (¬before ∧ Free tx final) := by
    refine hlocked.imp (fun hlocked => ⟨hlocked.1,fun txin hm => ?_⟩)
      (fun hfree => ⟨hfree.1,fun txin hm => ?_⟩)
    · rw [hsame]
      exact hlocked.2 txin hm
    · rw [hsame]
      exact hfree.2 txin hm
  obtain ⟨hend,horphansEnd,hlockedEnd⟩ := @Requested.finish ctx env final tx start tally.received
    (hfinal.congr hheard) hvin tally.received cand (hcounts.congr hheard) htimely _ _
    hlockedFinal hdone
  refine ⟨_,hprocess,⟨?_,(fun hwaiting => by cases hwaiting),fun _ => ⟨hend,hlockedEnd⟩⟩⟩
  refine hknown.mono (fun key vote hfind => hkept key vote ?_) (List.Subset.refl _)
  rwa [← horphansEnd]

theorem Arrived.newVote {vote : CTxLockVote} (hvote : ForRequest tx vote)
    (hvalid : vote.isValid ctx env=true) (hm : vote∈votes) (hsubset : tally.received⊆votes)
    (hcollisionless : Collisionless ctx votes) :
    Arrived ctx tx start votes
      ((st.processNewTxLockVote ctx env vote).finish ctx env)
      (tally.after (st.processNewTxLockVote ctx env vote).relayed (.newVote vote)) := by
  cases hphase : tally.requested with
  | false =>
    obtain ⟨hwaiting,hcounted⟩ := h.waiting hphase
    have hnone : (st.mapTxLockCandidates.find vote.txHash).filter
        (fun cand => cand.txLockRequest.isSome)=none := by
      rw [hvote.1]
      cases hfind : st.mapTxLockCandidates.find tx.hash with
      | none => rfl
      | some cand =>
        rw [Option.filter_eq_none_iff]
        intro found hfound
        rw [Option.some.injEq] at hfound
        rw [← hfound,(hwaiting.cand cand hfind).1]
        decide
    have hprocess : st.processNewTxLockVote ctx env vote=
        { st := (st.keepOrphanVote ctx env vote).1,
          result := (st.keepOrphanVote ctx env vote).2 } := by
      unfold processNewTxLockVote
      rw [hvalid,hnone]
      rfl
    obtain ⟨hkept,hknown⟩ := hwaiting.newVote htimely h.orphans hvote hm hsubset hcollisionless
    rw [hprocess]
    exact ⟨hknown,fun _ => ⟨hkept,hcounted⟩,
      fun hreq => by rw [Tally.after,hphase] at hreq; cases hreq⟩
  | true =>
    obtain ⟨hreq,hlocked⟩ := h.requested hphase
    obtain ⟨cand,hfind,hcreated,hcounts⟩ := hreq.stored
    obtain ⟨hrec,hseen⟩ := hreq.record hvote
    obtain ⟨-,hlockedSame,-,horphansSame⟩ := @recordVote_other st vote
    have hsome : (st.mapTxLockCandidates.find vote.txHash).filter
        (fun cand => cand.txLockRequest.isSome)=some cand := by
      rw [hvote.1,hfind]
      simp [hcounts.request]
    have hlate : cand.isTimedOut env=false := by
      rw [isTimedOut,decide_eq_false_iff_not]
      have hbefore := htimely.before
      omega
    have hlockedRecorded : (Done tx tally ∧ LockedFor tx (st.recordVote vote).1) ∨
        (¬Done tx tally ∧ Free tx (st.recordVote vote).1) := by
      refine hlocked.imp (fun hlocked => ⟨hlocked.1,fun txin hm => ?_⟩)
        (fun hfree => ⟨hfree.1,fun txin hm => ?_⟩)
      · rw [hlockedSame]
        exact hlocked.2 txin hm
      · rw [hlockedSame]
        exact hfree.2 txin hm
    have hknown : OrphansKnown ctx tx votes (tally.received++[vote]) (st.recordVote vote).1 := by
      refine h.orphans.mono (fun key other hother => ?_) (subset_append_left _ _)
      rwa [← horphansSame]
    have hdone : ∀ relayed, Done tx (tally.after relayed (.newVote vote)) ↔
        Done tx tally ∨ Enough tx (tally.received++[vote]) := by
      intro relayed
      simp only [Done,Tally.after]
      constructor
      · grind
      · rintro ((henough | hcounted) | henough)
        · exact .inl (henough.mono (fun _ _ hheard => heard_append.mpr (.inl hheard)))
        · exact .inr hcounted
        · exact .inl henough
    cases hadded : (st.recordVote vote).2 with
    | false =>
      have hprocess : st.processNewTxLockVote ctx env vote=
          { st := (st.recordVote vote).1, result := false } := by
        unfold processNewTxLockVote
        rw [hvalid,hsome]
        dsimp only
        rw [hlate]
        rw [recordVote] at hadded
        simp [hadded,recordVote]
      rw [hprocess]
      refine ⟨hknown,(fun hwaiting => by rw [Tally.after,hphase] at hwaiting; cases hwaiting),
        fun _ => ⟨hrec,?_⟩⟩
      -- the masternode was heard before
      have hsame : Enough tx (tally.received++[vote]) → Done tx tally := by
        refine fun henough => .inl (henough.mono (fun outpoint masternode hheard => ?_))
        rcases heard_append.mp hheard with hold | hnew
        · exact hold
        · obtain ⟨rfl,rfl⟩ := heard_singleton.mp hnew
          exact hseen hadded
      rw [hdone]
      exact hlockedRecorded.imp (fun hlocked => ⟨.inl hlocked.1,hlocked.2⟩)
        (fun hfree => ⟨fun hnow => hfree.1 (hnow.elim id hsame),hfree.2⟩)
    | true =>
      obtain ⟨kept,hkept,-,hcountsKept⟩ := hrec.stored
      have hprocess : st.processNewTxLockVote ctx env vote=
          { st := (st.recordVote vote).1, cand := some kept } := by
        unfold processNewTxLockVote
        rw [hvalid,hsome]
        dsimp only
        rw [hlate]
        rw [← hvote.1] at hkept
        rw [recordVote] at hadded hkept
        simp [hadded,hkept,recordVote]
      rw [hprocess]
      obtain ⟨hend,horphansEnd,hlockedEnd⟩ := @Requested.finish ctx env (st.recordVote vote).1 tx
        start _ hrec hvin _ kept hcountsKept htimely _ _ hlockedRecorded (hdone [])
      refine ⟨?_,(fun hwaiting => by rw [Tally.after,hphase] at hwaiting; cases hwaiting),
        fun _ => ⟨hend,hlockedEnd⟩⟩
      refine hknown.mono (fun key other hother => ?_) (List.Subset.refl _)
      rwa [← horphansEnd]

end

end Pyrk.InstantSend
