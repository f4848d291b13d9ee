import Pyrk.InstantCalls

/-!
# Indexes of InstantSend

Voted and locked inputs name transactions, and a node that votes looks them up without a check, so
they have to name live candidates.
-/

namespace Pyrk.InstantSend

open Transaction CInstantSend OrderedMap Option Bool

/-- Indexes name candidates that count votes for the input. -/
structure Live (st : CInstantSend) : Prop where
  voted : ∀ outpoint hash, hash∈st.votedHashes outpoint → ∃ cand,
    st.mapTxLockCandidates.find hash=some cand ∧ cand.hasLock outpoint=true
  locked : ∀ outpoint hash, st.mapLockedOutpoints.find outpoint=some hash → ∃ cand,
    st.mapTxLockCandidates.find hash=some cand ∧ cand.hasLock outpoint=true ∧
      ∀ other, cand.hasLock other=true → st.mapLockedOutpoints.find other=some hash

/-- A cleanup forgets the locks of a transaction for all of its inputs or for none. -/
def KeepsLocks (ctx : InstantContext) (st : CInstantSend) : Prop :=
  ∀ first second hash, st.mapLockedOutpoints.find first=some hash →
    st.mapLockedOutpoints.find second=some hash → st.Expires ctx first →
      st.Expires ctx second

section Changes

variable {ctx : InstantContext} {st next : CInstantSend}

theorem votedHashes_eq {first second : CInstantSend}
    (h : first.mapVotedOutpoints=second.mapVotedOutpoints) (outpoint : COutPoint) :
    first.votedHashes outpoint=second.votedHashes outpoint := by
  rw [votedHashes,votedHashes,h]

theorem mem_votedHashes_removeExpired {outpoint : COutPoint} {hash : Uint256} :
    hash∈(st.removeExpired ctx).votedHashes outpoint ↔
      hash∈st.votedHashes outpoint ∧ ¬st.Expires ctx outpoint := by
  obtain ⟨-,hvoted,-⟩ := @find_removeExpired ctx st
  have hmem : ∀ st : CInstantSend, hash∈st.votedHashes outpoint ↔
      ∃ hashes, st.mapVotedOutpoints.find outpoint=some hashes ∧ hash∈hashes.items := by
    intro st
    rw [votedHashes]
    cases st.mapVotedOutpoints.find outpoint with
    | none => simp
    | some hashes => simp
  grind

theorem Live.of_shape (h : Live st)
    (hknown : ∀ hash cand, st.mapTxLockCandidates.find hash=some cand →
      cand.hasLock=(fun _ => false) ∨ ∃ kept, next.mapTxLockCandidates.find hash=some kept ∧
        ∀ outpoint, kept.hasLock outpoint=cand.hasLock outpoint)
    (hvoted : ∀ outpoint hash, hash∈next.votedHashes outpoint → hash∈st.votedHashes outpoint ∨
      ∃ cand, next.mapTxLockCandidates.find hash=some cand ∧
        cand.hasLock outpoint=true)
    (hlocked : next.mapLockedOutpoints=st.mapLockedOutpoints) : Live next := by
  refine ⟨fun outpoint hash hm => ?_,fun outpoint hash hfind => ?_⟩
  · rcases hvoted outpoint hash hm with hold | hnew
    · obtain ⟨cand,hcand,hlock⟩ := h.voted outpoint hash hold
      grind
    · exact hnew
  · rw [hlocked] at hfind ⊢
    obtain ⟨cand,hcand,hlock,hall⟩ := h.locked outpoint hash hfind
    grind

theorem Live.lock (h : Live st) {txHash : Uint256} {cand : CTxLockCandidate}
    (hfind : st.mapTxLockCandidates.find txHash=some cand)
    (hfree : ∀ outpoint, cand.hasLock outpoint=true → ∀ hash,
      st.mapLockedOutpoints.find outpoint=some hash → hash=txHash)
    (hcands : next.mapTxLockCandidates=st.mapTxLockCandidates)
    (hvoted : next.mapVotedOutpoints=st.mapVotedOutpoints)
    (hlocked : ∀ outpoint, next.mapLockedOutpoints.find outpoint=
      if cand.hasLock outpoint=true then some txHash
      else st.mapLockedOutpoints.find outpoint) : Live next := by
  refine ⟨fun outpoint hash hm => ?_,fun outpoint hash hhash => ?_⟩
  · rw [hcands]
    rw [votedHashes_eq hvoted] at hm
    exact h.voted outpoint hash hm
  · rw [hcands]
    rw [hlocked] at hhash
    by_cases hown : cand.hasLock outpoint=true
    · grind
    · rw [if_neg hown] at hhash
      obtain ⟨found,hfound,hlock,hall⟩ := h.locked outpoint hash hhash
      grind

theorem Live.clean (h : Live st) (hkeeps : KeepsLocks ctx st) :
    Live (st.removeExpired ctx) := by
  obtain ⟨hcands,-,hlocked⟩ := @find_removeExpired ctx st
  have hlive : ∀ outpoint hash cand, st.mapTxLockCandidates.find hash=some cand →
      cand.hasLock outpoint=true → ¬st.Expires ctx outpoint →
      (st.removeExpired ctx).mapTxLockCandidates.find hash=some cand := by
    intro outpoint hash cand hfind hlock hnone
    refine (hcands hash cand).mpr ⟨hfind,?_⟩
    by_contra hexpired
    exact hnone ⟨hash,cand,hfind,by simpa using hexpired,hlock⟩
  refine ⟨fun outpoint hash hm => ?_,fun outpoint hash hhash => ?_⟩
  · obtain ⟨hm,hnone⟩ := mem_votedHashes_removeExpired.mp hm
    obtain ⟨cand,hfind,hlock⟩ := h.voted outpoint hash hm
    exact ⟨cand,hlive outpoint hash cand hfind hlock hnone,hlock⟩
  · obtain ⟨hhash,hnone⟩ := (hlocked outpoint hash).mp hhash
    obtain ⟨cand,hfind,hlock,hall⟩ := h.locked outpoint hash hhash
    refine ⟨cand,hlive outpoint hash cand hfind hlock hnone,hlock,fun other hother => ?_⟩
    exact (hlocked other hash).mpr ⟨hall other hother,
      fun hexpires => hnone (hkeeps other outpoint hash (hall other hother) hhash hexpires)⟩

theorem Change.live (h : Change ctx True (KeepsLocks ctx) st next)
    (hinv : Sound st ∧ Live st) : Sound next ∧ Live next := by
  refine ⟨h.sound hinv.1,?_⟩
  obtain ⟨hsound,hlive⟩ := hinv
  cases h with
  | other hcands hvoted hlocked =>
    refine hlive.of_shape (fun hash cand hfind => .inr ⟨cand,?_,fun _ => rfl⟩)
      (fun outpoint hash hm => .inl ?_) hlocked
    · rwa [hcands]
    · rwa [votedHashes_eq hvoted] at hm
  | @start txHash started hstarted =>
    refine hlive.of_shape (fun hash cand hfind => ?_) (fun outpoint hash hm => .inl hm) rfl
    by_cases he : hash=txHash
    · subst he
      exact .inl (funext (hsound.no_lock hfind (hstarted.unknown cand hfind)))
    · refine .inr ⟨cand,?_,fun _ => rfl⟩
      rwa [setCandidate,find_set_of_ne _ _ he]
  | confirm txHash nHeight =>
    refine hlive.of_shape (fun hash cand hfind => .inr ?_) (fun outpoint hash hm => .inl ?_)
      sameIndexes_changeCandidate.locked
    · rw [find_changeCandidate,hfind,map_some]
      refine ⟨_,rfl,fun outpoint => ?_⟩
      split_ifs <;> rfl
    · rwa [votedHashes_eq sameIndexes_changeCandidate.voted] at hm
  | @record vote cand hfind hstrict =>
    obtain ⟨hvoted,hlocked,-,-⟩ := @recordVote_other st vote
    refine hlive.of_shape (fun hash cand hfind => .inr ?_) (fun outpoint hash hm => ?_) hlocked
    · obtain ⟨kept,hkept,hshape⟩ := @recordVote_known st vote hash cand hfind
      exact ⟨kept,hkept,hshape.hasLock⟩
    · rw [votedHashes_eq hvoted,mem_votedHashes_addVoted] at hm
      rcases hm with ⟨rfl,rfl⟩ | hold
      · obtain ⟨kept,hkept,hshape⟩ := @recordVote_known st vote vote.txHash cand hfind
        exact .inr ⟨kept,hkept,by rw [hshape.hasLock,hstrict trivial]⟩
      · exact .inl hold
  | @index txHash cand outpoint hfind hlock =>
    refine hlive.of_shape (fun hash found hfound => .inr ⟨found,hfound,fun _ => rfl⟩)
      (fun other hash hm => ?_) rfl
    rcases mem_votedHashes_addVoted.mp hm with ⟨rfl,rfl⟩ | hold
    · exact .inr ⟨cand,hfind,hlock⟩
    · exact .inl hold
  | lock hfind hfree hcands hvoted hlocked =>
    exact hlive.lock hfind hfree hcands hvoted hlocked
  | clean hok => exact hlive.clean hok

theorem Live.vote_ok (hlive : Live st) (hsound : Sound st) (env : InstantEnv)
    (txHash : Uint256) : ∃ pending, st.vote ctx env txHash=.ok pending := by
  unfold CInstantSend.vote
  cases hfind : st.mapTxLockCandidates.find txHash with
  | none => exact ⟨_,rfl⟩
  | some stored =>
    have hvoting : ∃ voting, st.voteCandidate ctx env stored=.ok voting := by
      unfold voteCandidate
      split_ifs
      · exact ⟨_,rfl⟩
      · refine @voteOutpoints_ok ctx env { st := st, cand := stored } _ ?_ .refl _
          (fun outpoint hm => CTxLockCandidate.mem_outpoints_iff.mp hm)
        intro current hcasts outpoint hlock hash hm
        obtain ⟨hchanges,-,-⟩ := @Casts.changes ctx env True (KeepsLocks ctx) _ _ hcasts hsound
          txHash stored hfind (SameShape.refl stored)
        obtain ⟨-,hnow⟩ := hchanges.invariant (fun _ _ h => h.live) ⟨hsound,hlive⟩
        obtain ⟨cand,hcand,-⟩ := hnow.voted outpoint hash hm
        rw [hcand]
        rfl
    obtain ⟨voting,hvoting⟩ := hvoting
    dsimp only
    rw [hvoting]
    exact ⟨_,rfl⟩

end Changes

/-- Indexes name live candidates with the input,
  and locked inputs are all inputs of a transaction. -/
structure IndexesLive (st : CInstantSend) : Prop where
  voted : ∀ outpoint hash, hash∈st.votedHashes outpoint → ∃ cand,
    st.mapTxLockCandidates.find hash=some cand ∧ cand.hasLock outpoint=true
  locked : ∀ outpoint hash, st.mapLockedOutpoints.find outpoint=some hash → ∃ cand tx,
    st.mapTxLockCandidates.find hash=some cand ∧ cand.txLockRequest=some tx ∧
      tx.hash=hash ∧ ∀ txin∈tx.vin, st.mapLockedOutpoints.find txin.prevout=some hash

/-- Counted votes are for inputs, and cleanups keep locks together. -/
def KeepsIndexes (ctx : InstantContext) (env : InstantEnv) (st : CInstantSend)
    (event : Event) : Prop :=
  VotesInputs ctx env st event ∧
    ∀ next∈st.cleanups ctx env event, KeepsLocks ctx next

theorem Live.allInputs {st : CInstantSend} (h : Live st) (hsound : Sound st) :
    IndexesLive st := by
  refine ⟨h.voted,fun outpoint hash hfind => ?_⟩
  obtain ⟨cand,hcand,hlock,hall⟩ := h.locked outpoint hash hfind
  rcases hsound.inputs hash cand hcand with hempty | ⟨tx,htx,hinputs⟩
  · rw [hempty outpoint] at hlock
    cases hlock
  · exact ⟨cand,tx,hcand,htx,hsound.keyed hash cand tx hcand htx,
      fun txin hm => hall txin.prevout ((hinputs txin.prevout).mpr (List.mem_map_of_mem hm))⟩

/-- In every run in which counted votes are for inputs and cleanups keep locks together, indexes are
live and a node can vote. -/
theorem Run.indexesLive {ctx : InstantContext} {st : CInstantSend}
    (h : Run ctx (KeepsIndexes ctx) st) :
    IndexesLive st ∧ ∀ env txHash, ∃ pending, st.vote ctx env txHash=.ok pending := by
  have hlive : Sound st ∧ Live st := by
    induction h with
    | start =>
      refine ⟨(@Run.start ctx (KeepsIndexes ctx)).sound,?_⟩
      exact ⟨(fun _ _ hm => by simp [votedHashes,find_empty] at hm),
        (fun _ _ hfind => by simp [find_empty] at hfind)⟩
    | step env event hrun hok hstep ih =>
      exact (step_changes ih.1 hstep (fun _ => hok.1) hok.2).invariant (fun _ _ h => h.live) ih
  exact ⟨hlive.2.allInputs hlive.1,hlive.2.vote_ok hlive.1⟩

/-- Whether a vote names an input can be computed. -/
instance (env : InstantEnv) (st : CInstantSend) (vote : CTxLockVote) :
    Decidable (NamesInput env st vote) :=
  decidable_of_iff ((st.mapTxLockCandidates.find vote.txHash).all (fun cand =>
    !cand.txLockRequest.isSome || cand.isTimedOut env ||
      cand.hasLock vote.outpoint)=true) (by
    rw [NamesInput]
    cases st.mapTxLockCandidates.find vote.txHash with
    | none => simp
    | some cand =>
      simp only [all_some,or_eq_true,not_eq_true',some.injEq,forall_eq']
      cases cand.txLockRequest.isSome <;> cases cand.isTimedOut env <;> simp)

/-- Whether counted votes name inputs can be computed. -/
instance (ctx : InstantContext) (env : InstantEnv) (st : CInstantSend) (event : Event) :
    Decidable (VotesInputs ctx env st event) :=
  match event with
  | .newVote vote => inferInstanceAs (Decidable (NamesInput env st vote))
  | .message vote => inferInstanceAs (Decidable (NamesInput env st vote))
  | .request tx =>
    decidable_of_iff ((st.createTxLockCandidate ctx env tx).toOption.all (fun created =>
      decide (∀ entry∈created.1.mapTxLockVotesOrphan.entries,
        NamesInput env created.1 entry.2))=true)
      (by
        unfold VotesInputs
        dsimp only
        generalize st.createTxLockCandidate ctx env tx=result
        cases result with
        | error failure => simp [Except.toOption]
        | ok created => simp [Except.toOption])
  | .accept _ => isTrue trivial
  | .reject _ => isTrue trivial
  | .vote _ => isTrue trivial
  | .sync _ _ => isTrue trivial
  | .tip _ => isTrue trivial
  | .cleanup => isTrue trivial

/-- A node with an own masternode. -/
def sampleContext : InstantContext where
  serializeHash := fun vote => 1000000*vote.1+10000*vote.2.1.hash+100*vote.2.1.n+vote.2.2.1.n
  emptyRequestHash := 0
  nInstantSendKeepLock := 24
  nInstantSendConfirmationsRequired := 6
  masternodeOutpoint := ⟨9,1⟩
  masternodeProTxHash := 0

/-- Surroundings in which coins are old, and every masternode may vote. -/
def sampleEnv : InstantEnv where
  nTime := 0
  nChainHeight := 100
  getUTXOCoin := fun _ => some ⟨⟨2*coin,[]⟩,false,1⟩
  getMasternodeRank := fun _ _ => some (1,7)
  mapNextTx := fun _ => none

/-- The same surroundings for a masternode. -/
def sampleMasternodeEnv : InstantEnv := { sampleEnv with fMasternodeMode := true }

/-- A transaction that spends outputs of other transactions. -/
def sampleRequest (hash : Uint256) (spent : List Uint256) : CTransaction where
  hash := hash
  vin := spent.map (fun hash => ⟨⟨hash,0⟩,[]⟩)
  vout := [⟨coin,[]⟩]
  payload_special := CTransaction.payload_plain

/-- A vote for an output of a transaction. -/
def sampleVote (txHash spent : Uint256) (masternode : ℕ) : CTxLockVote :=
  ⟨txHash,⟨spent,0⟩,⟨9,masternode⟩,0,0,-1,0⟩

def SingleLock (st : CInstantSend) : Prop :=
  ∀ first∈st.mapLockedOutpoints.entries, ∀ second∈st.mapLockedOutpoints.entries, first.1=second.1

theorem keepsLocks_of_single {ctx : InstantContext} {st : CInstantSend} (hsingle : SingleLock st) :
    KeepsLocks ctx st := by
  intro first second hash hfirst hsecond hexpires
  have hsame : first=second := hsingle _ ((OrderedMap.mem_entries_iff _ _ _).mpr hfirst) _
    ((OrderedMap.mem_entries_iff _ _ _).mpr hsecond)
  exact hsame ▸ hexpires

instance (st : CInstantSend) : Decidable (SingleLock st) :=
  inferInstanceAs (Decidable (∀ first∈st.mapLockedOutpoints.entries,
    ∀ second∈st.mapLockedOutpoints.entries, first.1=second.1))

/-- Six masternodes vote for the input of a request. -/
def lockEvents : List (InstantEnv×Event) :=
  (sampleEnv,.request (sampleRequest 11 [1]))::
    [3,4,5,6,7,8].map (fun masternode => (sampleEnv,.newVote (sampleVote 11 1 masternode)))

/-- The request expires after a block, when another one waits. -/
def expiryEvents : List (InstantEnv×Event) :=
  [(sampleEnv,.sync (sampleRequest 11 [1]) 100),(sampleEnv,.request (sampleRequest 12 [2])),
    (sampleEnv,.newVote (sampleVote 12 2 3)),(sampleEnv,.tip 125),(sampleEnv,.cleanup)]

theorem exists_indexesLive {events : List (InstantEnv×Event)} {check : CInstantSend → Bool}
    (hrun : ((({} : CInstantSend).steps sampleContext (fun env st event =>
      decide (VotesInputs sampleContext env st event) &&
        (st.cleanups sampleContext env event).all (fun next => decide (SingleLock next)))
      events).any check)=true) :
    ∃ st, Run sampleContext (KeepsIndexes sampleContext) st ∧ check st=true := by
  obtain ⟨st,hsteps,hcheck⟩ := (any_eq_true _ _).mp hrun
  refine ⟨st,Run.start.steps (fun env st event hcond => ?_) hsteps,hcheck⟩
  rw [and_eq_true,decide_eq_true_eq,List.all_eq_true] at hcond
  exact ⟨hcond.1,fun next hm => keepsLocks_of_single (of_decide_eq_true (hcond.2 next hm))⟩

/-- Indexes stay live while an input is locked, and when the lock is gone and a vote is left. -/
theorem Run.indexesLive_sample :
    (∃ st, Run sampleContext (KeepsIndexes sampleContext) st ∧
      st.mapLockedOutpoints.find ⟨1,0⟩=some 11 ∧ IndexesLive st) ∧
    ∃ st, Run sampleContext (KeepsIndexes sampleContext) st ∧
      st.mapTxLockCandidates.find 11=none ∧ 12∈st.votedHashes ⟨2,0⟩ ∧ IndexesLive st ∧
        ∀ env txHash, ∃ pending, st.vote sampleContext env txHash=.ok pending := by
  obtain ⟨locked,hlocked,hlock⟩ := @exists_indexesLive lockEvents
    (fun st => st.mapLockedOutpoints.find ⟨1,0⟩=some 11) rfl
  obtain ⟨st,hstate,hleft⟩ := @exists_indexesLive (lockEvents++expiryEvents)
    (fun st => st.mapTxLockCandidates.find 11=none && 12∈st.votedHashes ⟨2,0⟩) rfl
  rw [and_eq_true,decide_eq_true_eq,decide_eq_true_eq] at hleft
  exact ⟨⟨locked,hlocked,of_decide_eq_true hlock,hlocked.indexesLive.1⟩,
    st,hstate,hleft.1,hleft.2,hstate.indexesLive⟩

/-- A vote for something else than an input stays in the index when its candidate is gone, which a
node that votes then looks up. -/
theorem indexesLive_otherInput :
    ∃ st, Run sampleContext (fun _ _ _ => True) st ∧ ¬IndexesLive st ∧
      ¬∃ pending, st.vote sampleContext sampleMasternodeEnv 12=.ok pending := by
  have hrun : ((({} : CInstantSend).steps sampleContext (fun _ _ _ => true)
      [(sampleEnv,.request (sampleRequest 11 [1])),(sampleEnv,.newVote (sampleVote 11 2 3)),
        (sampleEnv,.sync (sampleRequest 11 [1]) 100),(sampleEnv,.tip 125),(sampleEnv,.cleanup),
        (sampleEnv,.request (sampleRequest 12 [2])),(sampleEnv,.accept (sampleRequest 12 [2]))]).any
        (fun st => decide (11∈st.votedHashes ⟨2,0⟩) &&
          (st.mapTxLockCandidates.find 11).isNone &&
          (st.vote sampleContext sampleMasternodeEnv 12).toOption.isNone))=true := rfl
  rw [any_eq_true] at hrun
  obtain ⟨st,hsteps,hstate⟩ := hrun
  rw [and_eq_true,and_eq_true,decide_eq_true_eq,isNone_iff_eq_none,isNone_iff_eq_none] at hstate
  obtain ⟨⟨hvoted,hgone⟩,hvote⟩ := hstate
  refine ⟨st,Run.start.steps (fun _ _ _ _ => trivial) hsteps,fun hlive => ?_,?_⟩
  · obtain ⟨cand,hfind,-⟩ := hlive.voted ⟨2,0⟩ 11 hvoted
    rw [hgone] at hfind
    cases hfind
  · rintro ⟨pending,hpending⟩
    rw [hpending] at hvote
    cases hvote

end Pyrk.InstantSend
