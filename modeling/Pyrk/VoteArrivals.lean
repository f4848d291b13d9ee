import Pyrk.OwnVotes

/-!
# Arrival of votes

Votes for a request that nothing contests are only counted: none of them is an attack, and
every masternode counts once for an input. Completing the lock depends on the counted
votes alone.
-/

namespace Pyrk.InstantSend

open Transaction CInstantSend List CTxLockCandidate

/-- A masternode is among the voters for an input. -/
def Heard (votes : List CTxLockVote) (outpoint masternode : COutPoint) : Prop :=
  ∃ vote∈votes, vote.outpoint=outpoint ∧ vote.outpointMasternode=masternode

/-- Different masternodes that voted for an input. -/
def masternodesFor (votes : List CTxLockVote) (outpoint : COutPoint) : List COutPoint :=
  ((votes.filter (fun vote => decide (vote.outpoint=outpoint))).map
    CTxLockVote.outpointMasternode).dedup

/-- Every input has votes of enough different masternodes. -/
def Enough (tx : CTransaction) (votes : List CTxLockVote) : Prop :=
  ∀ txin∈tx.vin, signaturesRequired≤(masternodesFor votes txin.prevout).length

/-- A vote for an input of the request. -/
def ForRequest (tx : CTransaction) (vote : CTxLockVote) : Prop :=
  vote.txHash=tx.hash ∧ vote.outpoint∈tx.vin.map CTxIn.prevout

/-- A vote for another transaction and another output. -/
def Foreign (tx : CTransaction) (vote : CTxLockVote) : Prop :=
  vote.txHash≠tx.hash ∧ vote.outpoint∉tx.vin.map CTxIn.prevout

section Voters

variable {tx : CTransaction} {votes others : List CTxLockVote} {outpoint masternode : COutPoint}

theorem mem_masternodesFor : masternode∈masternodesFor votes outpoint ↔
    Heard votes outpoint masternode := by
  simp [masternodesFor,Heard,and_assoc]

theorem heard_append : Heard (votes++others) outpoint masternode ↔
    Heard votes outpoint masternode ∨ Heard others outpoint masternode := by
  simp only [Heard,mem_append,or_and_right,exists_or]

theorem heard_singleton {vote : CTxLockVote} : Heard [vote] outpoint masternode ↔
    vote.outpoint=outpoint ∧ vote.outpointMasternode=masternode := by
  simp [Heard]

theorem Heard.subset (hsubset : votes⊆others) (h : Heard votes outpoint masternode) :
    Heard others outpoint masternode := by
  obtain ⟨vote,hm,hvote⟩ := h
  exact ⟨vote,hsubset hm,hvote⟩

/-- More votes are enough as well. -/
theorem Enough.mono (hsubset : ∀ outpoint masternode, Heard votes outpoint masternode →
    Heard others outpoint masternode) (h : Enough tx votes) : Enough tx others := by
  intro txin hm
  refine (h txin hm).trans (subperm_of_subset (nodup_dedup _) ?_).length_le
  intro masternode hmn
  exact mem_masternodesFor.mpr (hsubset _ _ (mem_masternodesFor.mp hmn))

end Voters

/-- A candidate of the request that counts votes. -/
structure Counts (tx : CTransaction) (votes : List CTxLockVote) (cand : CTxLockCandidate) :
    Prop where
  request : cand.txLockRequest=some tx
  hasLock : ∀ outpoint, cand.hasLock outpoint=true ↔ outpoint∈tx.vin.map CTxIn.prevout
  attacked : ∀ outpoint, cand.attacked outpoint=false
  voted : ∀ outpoint masternode, cand.hasMasternodeVoted outpoint masternode=true ↔
    Heard votes outpoint masternode

section Counting

variable {ctx : InstantContext} {tx : CTransaction} {votes others : List CTxLockVote}
variable {cand : CTxLockCandidate}

section

variable (h : Counts tx votes cand)

include h

theorem Counts.getHash : cand.getHash ctx=tx.hash := by
  rw [CTxLockCandidate.getHash,h.request]
  rfl

theorem Counts.vin : cand.vin=tx.vin := by
  rw [CTxLockCandidate.vin,h.request]
  rfl

theorem Counts.congr (hsame : ∀ outpoint masternode,
    Heard votes outpoint masternode ↔ Heard others outpoint masternode) :
    Counts tx others cand :=
  ⟨h.request,h.hasLock,h.attacked,
    fun outpoint masternode => (h.voted outpoint masternode).trans (hsame outpoint masternode)⟩

theorem Counts.voters (outpoint : COutPoint) :
    cand.voters outpoint=(masternodesFor votes outpoint).length := by
  rw [← length_voterList]
  refine ((perm_ext_iff_of_nodup nodup_voterList (nodup_dedup _)).mpr
    (fun masternode => ?_)).length_eq
  rw [mem_voterList,h.voted,← mem_masternodesFor,masternodesFor]

/-- All inputs are ready exactly if the votes are enough. -/
theorem Counts.ready (hvin : tx.vin≠[]) :
    cand.isAllOutPointsReady=true ↔ Enough tx votes := by
  rw [ready_iff]
  simp only [h.hasLock,h.attacked,h.voters,true_and]
  constructor
  · rintro ⟨-,hall⟩ txin hm
    exact hall txin.prevout (mem_map_of_mem hm)
  · intro hall
    obtain ⟨first,hfirst⟩ := exists_mem_of_ne_nil _ hvin
    refine ⟨⟨first.prevout,mem_map_of_mem hfirst⟩,fun outpoint hm => ?_⟩
    obtain ⟨txin,hin,rfl⟩ := mem_map.mp hm
    exact hall txin hin

end

end Counting

/-- States that count votes for the request. -/
structure Requested (tx : CTransaction) (start : ℤ) (votes : List CTxLockVote)
    (st : CInstantSend) : Prop where
  stored : ∃ cand, st.mapTxLockCandidates.find tx.hash=some cand ∧
    start ≤ cand.nTimeCreated ∧ Counts tx votes cand
  voted : ∀ txin∈tx.vin, ∀ hash∈st.votedHashes txin.prevout, hash=tx.hash

/-- All inputs of the request are locked for it. -/
def LockedFor (tx : CTransaction) (st : CInstantSend) : Prop :=
  ∀ txin∈tx.vin, st.mapLockedOutpoints.find txin.prevout=some tx.hash

/-- No input of the request is locked. -/
def Free (tx : CTransaction) (st : CInstantSend) : Prop :=
  ∀ txin∈tx.vin, st.mapLockedOutpoints.find txin.prevout=none

/-- Votes without a request stay as they are or are forgotten. -/
def OrphansKept (st next : CInstantSend) : Prop :=
  ∀ key vote, next.mapTxLockVotesOrphan.find key=some vote →
    st.mapTxLockVotesOrphan.find key=some vote

section Recording

variable {ctx : InstantContext} {env : InstantEnv} {st : CInstantSend} {tx : CTransaction}
variable {start : ℤ} {votes others : List CTxLockVote} {vote : CTxLockVote}

theorem mem_votedHashes_recordVote {outpoint : COutPoint} {hash : Uint256} :
    hash∈(st.recordVote vote).1.votedHashes outpoint ↔
      (outpoint=vote.outpoint ∧ hash=vote.txHash) ∨ hash∈st.votedHashes outpoint := by
  rw [votedHashes_eq recordVote_other.1,mem_votedHashes_addVoted]

theorem recordVote_snd {cand : CTxLockCandidate}
    (hfind : st.mapTxLockCandidates.find vote.txHash=some cand) :
    (st.recordVote vote).2=(cand.hasLock vote.outpoint &&
      !cand.hasMasternodeVoted vote.outpoint vote.outpointMasternode) := by
  obtain ⟨hmarked,-⟩ :=
    @find_foldl_markConflicting st vote.txHash vote (st.votedHashes vote.outpoint)
  rw [hfind,Option.map_some] at hmarked
  have hupdate : (st.updateVotedOutpoints vote).mapTxLockCandidates=
      ((st.votedHashes vote.outpoint).foldl (markConflicting vote) st).mapTxLockCandidates := rfl
  rw [recordVote,addVoteToCandidate,hupdate,hmarked]
  rw [addVote_snd]
  split_ifs
  · rw [hasLock_mark,hasMasternodeVoted_mark]
  · rfl

/-- A vote for the request is counted, once. -/
theorem Requested.record (h : Requested tx start votes st) (hvote : ForRequest tx vote) :
    Requested tx start (votes++[vote]) (st.recordVote vote).1 ∧
      ((st.recordVote vote).2=false → Heard votes vote.outpoint vote.outpointMasternode) := by
  obtain ⟨⟨cand,hfind,htime,hcounts⟩,hvoted⟩ := h
  obtain ⟨hhash,hin⟩ := hvote
  refine ⟨⟨?_,?_⟩,?_⟩
  · obtain ⟨kept,hkept,hshape⟩ := @recordVote_known st vote tx.hash cand hfind
    obtain ⟨old,hold,hvotes,hattacked⟩ := recordVote_votes hkept
    rw [hfind,Option.some.injEq] at hold
    subst hold
    refine ⟨kept,hkept,by rwa [hshape.time],⟨by rw [hshape.request,hcounts.request],
      fun outpoint => by rw [hshape.hasLock,hcounts.hasLock],fun outpoint => ?_,
      fun outpoint masternode => ?_⟩⟩
    · by_contra hnoted
      rw [Bool.not_eq_false,hattacked,hcounts.attacked] at hnoted
      obtain ⟨⟨hash,hlisted,hclash,-⟩,-⟩ := hnoted.resolve_left (by simp)
      obtain ⟨txin,htxin,he⟩ := mem_map.mp hin
      rw [← he] at hlisted
      exact hclash.1 ((hvoted txin htxin hash hlisted).trans hhash.symm)
    · rw [hvotes,Bool.or_eq_true,hcounts.voted,heard_append,heard_singleton]
      refine or_congr_right ?_
      simp only [Bool.and_eq_true,decide_eq_true_eq,hcounts.hasLock]
      grind
  · intro txin hm hash hlisted
    rcases mem_votedHashes_recordVote.mp hlisted with ⟨-,rfl⟩ | hold
    · exact hhash
    · exact hvoted txin hm hash hold
  · intro hseen
    rw [← hhash] at hfind
    rw [recordVote_snd hfind,(hcounts.hasLock vote.outpoint).mpr hin,Bool.true_and,
      Bool.not_eq_false'] at hseen
    exact (hcounts.voted _ _).mp hseen

/-- Votes for others change nothing. -/
theorem Requested.record_foreign (h : Requested tx start votes st) (hvote : Foreign tx vote) :
    Requested tx start votes (st.recordVote vote).1 := by
  obtain ⟨⟨cand,hfind,htime,hcounts⟩,hvoted⟩ := h
  refine ⟨?_,fun txin hm hash hlisted => ?_⟩
  · obtain ⟨kept,hkept,hshape⟩ := @recordVote_known st vote tx.hash cand hfind
    obtain ⟨old,hold,hvotes,hattacked⟩ := recordVote_votes hkept
    rw [hfind,Option.some.injEq] at hold
    subst hold
    refine ⟨kept,hkept,by rwa [hshape.time],⟨by rw [hshape.request,hcounts.request],
      fun outpoint => by rw [hshape.hasLock,hcounts.hasLock],fun outpoint => ?_,
      fun outpoint masternode => ?_⟩⟩
    · by_contra hnoted
      rw [Bool.not_eq_false,hattacked,hcounts.attacked] at hnoted
      obtain ⟨-,rfl,hlock⟩ := hnoted.resolve_left (by simp)
      exact hvote.2 ((hcounts.hasLock _).mp hlock)
    · rw [hvotes,← hcounts.voted]
      simp [Ne.symm hvote.1]
  · rcases mem_votedHashes_recordVote.mp hlisted with ⟨he,-⟩ | hold
    · exact absurd (he ▸ mem_map_of_mem hm) hvote.2
    · exact hvoted txin hm hash hold

/-- The part of votes that is for the request. -/
def requestVotes (tx : CTransaction) (entries : List (Uint256×CTxLockVote)) : List CTxLockVote :=
  (entries.map Prod.snd).filter (fun vote => decide (vote.txHash=tx.hash))

theorem Requested.orphan (h : Requested tx start votes st) {entry : Uint256×CTxLockVote}
    (hentry : ForRequest tx entry.2 ∨ Foreign tx entry.2)
    (htime : env.nTime ≤ start+lockTimeoutSeconds) :
    Requested tx start (votes++requestVotes tx [entry]) (processOrphanEntry env st entry) ∧
    (processOrphanEntry env st entry).mapLockedOutpoints=st.mapLockedOutpoints ∧
    OrphansKept st (processOrphanEntry env st entry) := by
  have hprocess : (st.processOrphanTxLockVote env entry.2=(st,false) ∧ Foreign tx entry.2) ∨
      st.processOrphanTxLockVote env entry.2=st.recordVote entry.2 := by
    unfold processOrphanTxLockVote
    rcases hentry with hown | hforeign
    · obtain ⟨cand,hfind,hcreated,hcounts⟩ := h.stored
      have hlate : cand.isTimedOut env=false := by
        rw [isTimedOut,decide_eq_false_iff_not]
        omega
      rw [hown.1,hfind]
      simp [hcounts.request,hlate,recordVote]
    · split
      · exact Or.inl ⟨rfl,hforeign⟩
      · split_ifs
        · exact Or.inl ⟨rfl,hforeign⟩
        · exact Or.inr rfl
  have hres : Requested tx start (votes++requestVotes tx [entry])
      (st.processOrphanTxLockVote env entry.2).1 ∧
      (st.processOrphanTxLockVote env entry.2).1.mapLockedOutpoints=st.mapLockedOutpoints ∧
      (st.processOrphanTxLockVote env entry.2).1.mapTxLockVotesOrphan=
        st.mapTxLockVotesOrphan := by
    obtain ⟨-,hlocked,-,horphans⟩ := @recordVote_other st entry.2
    rcases hentry with hown | hforeign
    · have hvotes : requestVotes tx [entry]=[entry.2] := by simp [requestVotes,hown.1]
      rcases hprocess with ⟨-,hforeign⟩ | he
      · exact absurd hown.1 hforeign.1
      · rw [he,hvotes]
        exact ⟨(h.record hown).1,hlocked,horphans⟩
    · have hvotes : requestVotes tx [entry]=[] := by simp [requestVotes,hforeign.1]
      rw [hvotes,append_nil]
      rcases hprocess with ⟨he,-⟩ | he
      · rw [he]
        exact ⟨h,rfl,rfl⟩
      · rw [he]
        exact ⟨h.record_foreign hforeign,hlocked,horphans⟩
  obtain ⟨hreq,hlocked,horphans⟩ := hres
  unfold processOrphanEntry
  dsimp only
  split_ifs
  · refine ⟨⟨hreq.stored,hreq.voted⟩,hlocked,fun key vote hfind => ?_⟩
    rw [OrderedMap.find_erase,horphans] at hfind
    split_ifs at hfind
    exact hfind
  · refine ⟨hreq,hlocked,fun key vote hfind => ?_⟩
    rwa [horphans] at hfind

theorem Requested.orphans (h : Requested tx start votes st)
    {entries : List (Uint256×CTxLockVote)}
    (hentries : ∀ entry∈entries, ForRequest tx entry.2 ∨ Foreign tx entry.2)
    (htime : env.nTime ≤ start+lockTimeoutSeconds) :
    Requested tx start (votes++requestVotes tx entries)
      (entries.foldl (processOrphanEntry env) st) ∧
    (entries.foldl (processOrphanEntry env) st).mapLockedOutpoints=st.mapLockedOutpoints ∧
    OrphansKept st (entries.foldl (processOrphanEntry env) st) := by
  induction entries generalizing st votes with
  | nil =>
    rw [requestVotes,map_nil,filter_nil,append_nil]
    exact ⟨h,rfl,fun _ _ hfind => hfind⟩
  | cons entry entries ih =>
    obtain ⟨hfirst,hrest⟩ := forall_mem_cons.mp hentries
    obtain ⟨hreq,hlocked,hkept⟩ := h.orphan hfirst htime
    obtain ⟨hlast,hlockedLast,hkeptLast⟩ := ih hreq hrest
    have hvotes : requestVotes tx (entry::entries)=
        requestVotes tx [entry]++requestVotes tx entries := by
      rw [requestVotes,requestVotes,requestVotes,← filter_append,← map_append,singleton_append]
    rw [foldl_cons,hvotes,← append_assoc]
    exact ⟨hlast,hlockedLast.trans hlocked,fun key vote hfind =>
      hkept key vote (hkeptLast key vote hfind)⟩

end Recording

/-- While the votes arrive no other transaction of the pool spends the inputs, they are unspent or
the transaction is in a block, and the lock does not time out. -/
structure Timely (tx : CTransaction) (start : ℤ) (env : InstantEnv) : Prop where
  after : start≤env.nTime
  before : env.nTime ≤ start+lockTimeoutSeconds
  active : env.fInstantSendActive=true
  /-- Inputs are unspent, or spent by the transaction. -/
  coins : env.isInBlock tx.hash=true ∨ ∀ txin∈tx.vin, (env.getUTXOCoin txin.prevout).isSome=true
  pool : ∀ txin∈tx.vin, ∀ hash, env.mapNextTx txin.prevout=some hash → hash=tx.hash

variable {ctx : InstantContext} {env : InstantEnv} {st : CInstantSend} {tx : CTransaction}
variable {start : ℤ} {votes counted : List CTxLockVote} {cand : CTxLockCandidate}

theorem Requested.isLocked_iff (h : Requested tx start votes st) (hvin : tx.vin≠[]) :
    st.isLockedInstantSendTransaction env tx.hash=true ↔
      (env.fEnableInstantSend=true ∧ env.fLargeWorkForkFound=false ∧
        env.fLargeWorkInvalidChainFound=false ∧ env.fBlockFilteringActive=true) ∧
      LockedFor tx st := by
  obtain ⟨cand,hfind,-,hcounts⟩ := h.stored
  unfold isLockedInstantSendTransaction
  rw [hfind]
  simp only [Bool.and_eq_true,Bool.not_eq_true',isEmpty_eq_false_iff,all_eq_true,
    decide_eq_true_eq,mem_outpoints_iff,hcounts.hasLock,and_assoc]
  refine and_congr_right (fun _ => and_congr_right (fun _ => and_congr_right (fun _ =>
    and_congr_right (fun _ => ?_))))
  constructor
  · rintro ⟨-,hall⟩ txin hm
    exact hall txin.prevout (mem_map_of_mem hm)
  · intro hall
    obtain ⟨first,hfirst⟩ := exists_mem_of_ne_nil _ hvin
    refine ⟨fun hnil => ?_,fun outpoint hm => ?_⟩
    · have hlock := (hcounts.hasLock first.prevout).mpr (mem_map_of_mem hfirst)
      rw [← mem_outpoints_iff,outpoints,hnil] at hlock
      cases hlock
    · obtain ⟨txin,hin,rfl⟩ := mem_map.mp hm
      exact hall txin hin

theorem findSome_inputConflict (hcounts : Counts tx counted cand) (htimely : Timely tx start env)
    (hlocked : LockedFor tx st ∨ Free tx st) :
    cand.vin.findSome? (st.inputConflict env (cand.getHash ctx))=none := by
  rw [List.findSome?_eq_none_iff,hcounts.vin,hcounts.getHash]
  intro txin hm
  have hpool : (env.mapNextTx txin.prevout).any (fun hash => decide (tx.hash≠hash))=false := by
    cases hnext : env.mapNextTx txin.prevout with
    | none => rfl
    | some hash => simp [htimely.pool txin hm hash hnext]
  have hfree : (st.mapLockedOutpoints.find txin.prevout).filter
      (fun hash => decide (tx.hash≠hash))=none := by
    rcases hlocked with hlocked | hfree
    · rw [hlocked txin hm]
      simp
    · rw [hfree txin hm]
      rfl
  rw [inputConflict,hfree]
  rw [hpool]
  rfl

/-- Enough votes lock all inputs. -/
theorem Requested.finalize (h : Requested tx start votes st) (hvin : tx.vin≠[])
    (hcounts : Counts tx counted cand) (htimely : Timely tx start env)
    (hlocked : LockedFor tx st ∨ Free tx st) :
    Requested tx start votes (st.tryToFinalizeLockCandidate ctx env cand) ∧
    (st.tryToFinalizeLockCandidate ctx env cand).mapTxLockVotesOrphan=
      st.mapTxLockVotesOrphan ∧
    ((Enough tx counted ∧ LockedFor tx (st.tryToFinalizeLockCandidate ctx env cand)) ∨
      (¬Enough tx counted ∧ (st.tryToFinalizeLockCandidate ctx env cand).mapLockedOutpoints=
        st.mapLockedOutpoints)) := by
  have hnone := @findSome_inputConflict ctx env st tx start counted cand hcounts htimely
    hlocked
  rcases @tryToFinalizeLockCandidate_cases ctx env st cand with
    ⟨hcompletes,he⟩ | ⟨hashConflicting,-,hclash,-⟩ | ⟨hnot,he⟩
  · have hres : st.lockTransactionInputs ctx env cand={ st with
        mapLockedOutpoints := cand.outpoints.foldl (fun locked outpoint =>
          locked.emplace outpoint tx.hash) st.mapLockedOutpoints } := by
      simp [lockTransactionInputs,hcompletes.active,hcompletes.ready,hcounts.getHash]
    rw [he,hres]
    refine ⟨⟨h.stored,h.voted⟩,rfl,Or.inl ⟨(hcounts.ready hvin).mp hcompletes.ready,
      fun txin hm => ?_⟩⟩
    rw [find_foldl_emplace,if_pos (mem_outpoints_iff.mpr
      ((hcounts.hasLock txin.prevout).mpr (mem_map_of_mem hm)))]
    rcases hlocked with hlocked | hfree
    · rw [hlocked txin hm]
      rfl
    · rw [hfree txin hm]
      rfl
  · rw [hnone] at hclash
    cases hclash
  · rw [he]
    refine ⟨h,rfl,?_⟩
    by_cases henough : Enough tx counted
    · refine Or.inl ⟨henough,?_⟩
      by_contra hunlocked
      have hready := (hcounts.ready hvin).mpr henough
      refine hnot ⟨htimely.active,hready,?_,?_⟩
      · rw [hcounts.getHash,← Bool.not_eq_true,h.isLocked_iff hvin]
        exact fun hreported => hunlocked hreported.2
      · have hcoins : (env.isInBlock tx.hash || tx.vin.all (fun txin =>
            (env.getUTXOCoin txin.prevout).isSome))=true := by
          rcases htimely.coins with hblock | hcoins
          · rw [hblock,Bool.true_or]
          · rw [all_eq_true.mpr hcoins,Bool.or_true]
        unfold resolveConflicts
        rw [hready,hnone,hcounts.getHash,hcounts.vin,hcoins]
        rfl
    · exact Or.inr ⟨henough,rfl⟩

end Pyrk.InstantSend
