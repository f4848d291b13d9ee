import Pyrk.InstantChanges

/-!
# Runs of InstantSend

A call is a chain of changes, and a run is a chain of calls. Candidates are always stored under the
hash of their transaction.
-/

namespace Pyrk.InstantSend

open Transaction CInstantSend OrderedMap Option CTxLockCandidate

/-- A candidate that is stored first, or that gets its request. -/
structure Started (old : Option CTxLockCandidate) (txHash : Uint256) (cand : CTxLockCandidate) :
    Prop where
  unknown : ∀ found, old=some found → found.txLockRequest=none
  keyed : ∀ tx, cand.txLockRequest=some tx → tx.hash=txHash
  /-- Votes are counted for no input or for all of them. -/
  inputs : (∀ outpoint, cand.hasLock outpoint=false) ∨ ∃ tx, cand.txLockRequest=some tx ∧
      ∀ outpoint, cand.hasLock outpoint=true ↔ outpoint∈tx.vin.map CTxIn.prevout
  fresh : ∀ outpoint masternode, cand.hasMasternodeVoted outpoint masternode=false

/-- Kinds of changes, with conditions on counted votes and on cleanups. -/
inductive Change (ctx : InstantContext) (strict : Prop) (okClean : CInstantSend → Prop) :
    CInstantSend → CInstantSend → Prop where
  | other {st next : CInstantSend}
      (hcands : next.mapTxLockCandidates=st.mapTxLockCandidates)
      (hvoted : next.mapVotedOutpoints=st.mapVotedOutpoints)
      (hlocked : next.mapLockedOutpoints=st.mapLockedOutpoints) :
      Change ctx strict okClean st next
  | start {st : CInstantSend} {txHash : Uint256} {cand : CTxLockCandidate}
      (hstarted : Started (st.mapTxLockCandidates.find txHash) txHash cand) :
      Change ctx strict okClean st (st.setCandidate txHash cand)
  | confirm {st : CInstantSend} (txHash : Uint256) (nHeight : ℤ) :
      Change ctx strict okClean st (st.changeCandidate txHash (fun cand =>
        { cand with nConfirmedHeight := nHeight }))
  | record {st : CInstantSend} {vote : CTxLockVote} {cand : CTxLockCandidate}
      (hfind : st.mapTxLockCandidates.find vote.txHash=some cand)
      (hstrict : strict → cand.hasLock vote.outpoint=true) :
      Change ctx strict okClean st (st.recordVote vote).1
  | index {st : CInstantSend} {txHash : Uint256} {cand : CTxLockCandidate}
      {outpoint : COutPoint} (hfind : st.mapTxLockCandidates.find txHash=some cand)
      (hlock : cand.hasLock outpoint=true) :
      Change ctx strict okClean st (st.addVoted outpoint txHash)
  | lock {st next : CInstantSend} {txHash : Uint256} {cand : CTxLockCandidate}
      (hfind : st.mapTxLockCandidates.find txHash=some cand)
      (hfree : ∀ outpoint, cand.hasLock outpoint=true → ∀ hash,
        st.mapLockedOutpoints.find outpoint=some hash → hash=txHash)
      (hcands : next.mapTxLockCandidates=st.mapTxLockCandidates)
      (hvoted : next.mapVotedOutpoints=st.mapVotedOutpoints)
      (hlocked : ∀ outpoint, next.mapLockedOutpoints.find outpoint=
        if cand.hasLock outpoint=true then some txHash
        else st.mapLockedOutpoints.find outpoint) :
      Change ctx strict okClean st next
  | clean {st : CInstantSend} (hok : okClean st) :
      Change ctx strict okClean st (st.removeExpired ctx)

abbrev Changes (ctx : InstantContext) (strict : Prop) (okClean : CInstantSend → Prop) :
    CInstantSend → CInstantSend → Prop :=
  Relation.ReflTransGen (Change ctx strict okClean)

/-- Candidates under the hashes of their transactions, with votes for inputs only. -/
structure Sound (st : CInstantSend) : Prop where
  keyed : ∀ txHash cand tx, st.mapTxLockCandidates.find txHash=some cand →
    cand.txLockRequest=some tx → tx.hash=txHash
  /-- Votes are counted for no input or for all of them. -/
  inputs : ∀ txHash cand, st.mapTxLockCandidates.find txHash=some cand →
    (∀ outpoint, cand.hasLock outpoint=false) ∨ ∃ tx, cand.txLockRequest=some tx ∧
        ∀ outpoint, cand.hasLock outpoint=true ↔ outpoint∈tx.vin.map CTxIn.prevout

/-- Candidates with the same request and the same inputs. -/
structure SameShape (first second : CTxLockCandidate) : Prop where
  request : second.txLockRequest=first.txLockRequest
  time : second.nTimeCreated=first.nTimeCreated
  hasLock : ∀ outpoint, second.hasLock outpoint=first.hasLock outpoint

section Shapes

variable {st : CInstantSend} {vote : CTxLockVote} {txHash hash : Uint256}
variable {cand : CTxLockCandidate}

theorem SameShape.refl (cand : CTxLockCandidate) : SameShape cand cand :=
  ⟨rfl,rfl,fun _ => rfl⟩

theorem SameShape.trans {first second third : CTxLockCandidate} (h : SameShape first second)
    (hnext : SameShape second third) : SameShape first third :=
  ⟨hnext.request.trans h.request,hnext.time.trans h.time,
    fun outpoint => (hnext.hasLock outpoint).trans (h.hasLock outpoint)⟩

theorem Sound.no_lock (h : Sound st) (hfind : st.mapTxLockCandidates.find txHash=some cand)
    (hnone : cand.txLockRequest=none) (outpoint : COutPoint) :
    cand.hasLock outpoint=false := by
  rcases h.inputs txHash cand hfind with hempty | ⟨tx,htx,-⟩
  · exact hempty outpoint
  · rw [hnone] at htx
    cases htx

theorem recordVote_shape
    (hfind : (st.recordVote vote).1.mapTxLockCandidates.find hash=some cand) :
    ∃ old, st.mapTxLockCandidates.find hash=some old ∧ SameShape old cand := by
  rw [find_recordVote,map_eq_some_iff] at hfind
  obtain ⟨old,hold,rfl⟩ := hfind
  refine ⟨old,hold,?_⟩
  split_ifs
  · exact ⟨by simp,by simp,by simp⟩
  · exact ⟨by simp,by simp,by simp⟩
  · exact ⟨by simp,by simp,by simp⟩
  · exact SameShape.refl old

theorem recordVote_known {old : CTxLockCandidate}
    (hfind : st.mapTxLockCandidates.find hash=some old) :
    ∃ cand, (st.recordVote vote).1.mapTxLockCandidates.find hash=some cand ∧
      SameShape old cand := by
  have hsome : ∃ cand, (st.recordVote vote).1.mapTxLockCandidates.find hash=
      some cand := by
    rw [find_recordVote,hfind]
    exact ⟨_,rfl⟩
  obtain ⟨cand,hcand⟩ := hsome
  obtain ⟨found,hfound,hshape⟩ := recordVote_shape hcand
  rw [hfind,some.injEq] at hfound
  exact ⟨cand,hcand,hfound ▸ hshape⟩

theorem confirm_shape {nHeight : ℤ} (hfind : (st.changeCandidate txHash (fun cand =>
    { cand with nConfirmedHeight := nHeight })).mapTxLockCandidates.find hash=some cand) :
    ∃ old, st.mapTxLockCandidates.find hash=some old ∧ SameShape old cand ∧
      cand.mapOutPointLocks=old.mapOutPointLocks := by
  rw [find_changeCandidate,map_eq_some_iff] at hfind
  obtain ⟨old,hold,rfl⟩ := hfind
  refine ⟨old,hold,?_⟩
  split_ifs
  · exact ⟨⟨rfl,rfl,fun _ => rfl⟩,rfl⟩
  · exact ⟨SameShape.refl old,rfl⟩

theorem Sound.of_shape (h : Sound st) {next : CInstantSend}
    (hshape : ∀ hash cand, next.mapTxLockCandidates.find hash=some cand →
      ∃ old, st.mapTxLockCandidates.find hash=some old ∧ SameShape old cand) :
    Sound next := by
  refine ⟨fun txHash cand tx hfind htx => ?_,fun txHash cand hfind => ?_⟩
  · obtain ⟨old,hold,hsame⟩ := hshape txHash cand hfind
    exact h.keyed txHash old tx hold (hsame.request ▸ htx)
  · obtain ⟨old,hold,hsame⟩ := hshape txHash cand hfind
    rw [hsame.request]
    simp only [hsame.hasLock]
    exact h.inputs txHash old hold

end Shapes

theorem Change.sound {ctx : InstantContext} {strict : Prop} {okClean : CInstantSend → Prop}
    {st next : CInstantSend} (h : Change ctx strict okClean st next)
    (hsound : Sound st) : Sound next := by
  cases h with
  | other hcands hvoted hlocked =>
    refine hsound.of_shape (fun hash cand hfind => ⟨cand,?_,SameShape.refl cand⟩)
    rwa [hcands] at hfind
  | @start txHash started hstarted =>
    have hother : ∀ hash cand, hash≠txHash →
        (st.setCandidate txHash started).mapTxLockCandidates.find hash=some cand →
        st.mapTxLockCandidates.find hash=some cand := by
      intro hash cand hne hfind
      rwa [setCandidate,find_set_of_ne _ _ hne] at hfind
    have hown : ∀ cand,
        (st.setCandidate txHash started).mapTxLockCandidates.find txHash=some cand →
        cand=started := by
      intro cand hfind
      rw [setCandidate,find_set_self,some.injEq] at hfind
      exact hfind.symm
    refine ⟨fun hash cand tx hfind htx => ?_,fun hash cand hfind => ?_⟩
    · by_cases he : hash=txHash
      · subst he
        rw [hown cand hfind] at htx
        exact hstarted.keyed tx htx
      · exact hsound.keyed hash cand tx (hother hash cand he hfind) htx
    · by_cases he : hash=txHash
      · subst he
        rw [hown cand hfind]
        exact hstarted.inputs
      · exact hsound.inputs hash cand (hother hash cand he hfind)
  | confirm txHash nHeight =>
    refine hsound.of_shape (fun hash cand hfind => ?_)
    obtain ⟨old,hold,hshape,-⟩ := confirm_shape hfind
    exact ⟨old,hold,hshape⟩
  | record hfind hstrict => exact hsound.of_shape (fun hash cand h => recordVote_shape h)
  | index hfind hlock =>
    exact hsound.of_shape (fun hash cand h => ⟨cand,h,SameShape.refl cand⟩)
  | lock hfind hfree hcands hvoted hlocked =>
    refine hsound.of_shape (fun hash cand h => ⟨cand,?_,SameShape.refl cand⟩)
    rwa [hcands] at h
  | clean hok =>
    refine hsound.of_shape (fun hash cand h => ⟨cand,?_,SameShape.refl cand⟩)
    exact ((find_removeExpired.1 hash cand).mp h).1

theorem Changes.invariant {ctx : InstantContext} {strict : Prop}
    {okClean : CInstantSend → Prop} {P : CInstantSend → Prop}
    (hstep : ∀ st next, Change ctx strict okClean st next → P st → P next)
    {st next : CInstantSend} (h : Changes ctx strict okClean st next) (hstart : P st) :
    P next := by
  induction h with
  | refl => exact hstart
  | tail _ hlast ih => exact hstep _ _ hlast ih

/-- A vote that would be counted names an input. -/
def NamesInput (env : InstantEnv) (st : CInstantSend) (vote : CTxLockVote) : Prop :=
  ∀ cand, st.mapTxLockCandidates.find vote.txHash=some cand →
    cand.txLockRequest.isSome=true → cand.isTimedOut env=false →
    cand.hasLock vote.outpoint=true

/-- Votes that a call counts name inputs. -/
def VotesInputs (ctx : InstantContext) (env : InstantEnv) (st : CInstantSend) : Event → Prop
  | .newVote vote => NamesInput env st vote
  | .message vote => NamesInput env st vote
  | .request tx => ∀ created, st.createTxLockCandidate ctx env tx=.ok created →
      ∀ entry∈created.1.mapTxLockVotesOrphan.entries, NamesInput env created.1 entry.2
  | _ => True

/-- States in which completing a lock removes candidates. -/
def CInstantSend.Pending.cleanups (ctx : InstantContext) (env : InstantEnv) (pending : Pending) :
    List CInstantSend :=
  match pending.cand with
  | none => []
  | some cand =>
    if env.fInstantSendActive && cand.isAllOutPointsReady &&
        !pending.st.isLockedInstantSendTransaction env (cand.getHash ctx) then
      match cand.vin.findSome? (pending.st.inputConflict env (cand.getHash ctx)) with
      | some (.lock hashConflicting) =>
        if pending.st.mapTxLockCandidates.contains (cand.getHash ctx) &&
            pending.st.mapTxLockCandidates.contains hashConflicting &&
            env.fMasternodeListSynced then
          [pending.st.expireBoth (cand.getHash ctx) hashConflicting]
        else []
      | _ => []
    else []

/-- States in which a call removes candidates. -/
def CInstantSend.cleanups (ctx : InstantContext) (env : InstantEnv) (st : CInstantSend)
    (event : Event) : List CInstantSend :=
  (match event with
    | .cleanup => if env.fMasternodeListSynced then [st] else []
    | _ => [])++
    match st.process ctx env event with
    | .ok pending => pending.cleanups ctx env
    | .error _ => []

variable {ctx : InstantContext} {env : InstantEnv} {strict : Prop}
variable {okClean : CInstantSend → Prop} {st : CInstantSend}

theorem foldl_addOutPointLock (outpoints : List COutPoint) (cand : CTxLockCandidate) :
    let result := outpoints.foldl addOutPointLock cand
    result.txLockRequest=cand.txLockRequest ∧ result.nTimeCreated=cand.nTimeCreated ∧
    (∀ outpoint, result.hasLock outpoint=
      (cand.hasLock outpoint || decide (outpoint∈outpoints))) ∧
    (∀ outpoint masternode, result.hasMasternodeVoted outpoint masternode=
      cand.hasMasternodeVoted outpoint masternode) ∧
    ∀ outpoint, result.attacked outpoint=cand.attacked outpoint := by
  induction outpoints generalizing cand with
  | nil => simp
  | cons first outpoints ih =>
    obtain ⟨hrequest,htime,hlock,hvoted,hattacked⟩ := ih (cand.addOutPointLock first)
    have hfind : ∀ outpoint, (cand.addOutPointLock first).mapOutPointLocks.find outpoint=
        if outpoint=first then some ((cand.mapOutPointLocks.find first).getD {})
        else cand.mapOutPointLocks.find outpoint := by
      intro outpoint
      rw [addOutPointLock,find_emplace]
      congr
    refine ⟨hrequest,htime,fun outpoint => (hlock outpoint).trans ?_,
      fun outpoint masternode => (hvoted outpoint masternode).trans ?_,
      fun outpoint => (hattacked outpoint).trans ?_⟩
    · rw [hasLock,hasLock,OrderedMap.contains,OrderedMap.contains,hfind]
      by_cases he : outpoint=first
      · simp [he]
      · simp [he]
    · rw [hasMasternodeVoted,hasMasternodeVoted,hfind]
      split_ifs with he
      · rw [he]
        cases cand.mapOutPointLocks.find first <;> rfl
      · rfl
    · rw [attacked,attacked,hfind]
      split_ifs with he
      · rw [he]
        cases cand.mapOutPointLocks.find first <;> rfl
      · rfl

theorem started_request {old : Option CTxLockCandidate} {tx : CTransaction}
    {cand : CTxLockCandidate} (hunknown : ∀ found, old=some found → found.txLockRequest=none)
    (hrequest : cand.txLockRequest=some tx)
    (hempty : ∀ outpoint, cand.hasLock outpoint=false) :
    Started old tx.hash cand ∧ Started old tx.hash ((tx.vin.map CTxIn.prevout).foldl
        addOutPointLock cand) := by
  have hvotes : ∀ outpoint masternode, cand.hasMasternodeVoted outpoint masternode=false := by
    intro outpoint masternode
    by_contra hvoted
    have hlock := hasLock_of_voted (by simpa using hvoted)
    rw [hempty outpoint] at hlock
    cases hlock
  have hkeyed : ∀ found, cand.txLockRequest=some found → found.hash=tx.hash := by
    intro found hfound
    rw [hrequest,some.injEq] at hfound
    rw [hfound]
  obtain ⟨hfold,-,hlock,hvoted,-⟩ := foldl_addOutPointLock (tx.vin.map CTxIn.prevout) cand
  refine ⟨⟨hunknown,hkeyed,.inl hempty,hvotes⟩,
    ⟨hunknown,by rw [hfold]; exact hkeyed,.inr ⟨tx,by rw [hfold,hrequest],fun outpoint => ?_⟩,
      fun outpoint masternode => ?_⟩⟩
  · rw [hlock,hempty,Bool.false_or,decide_eq_true_eq]
  · rw [hvoted,hvotes]

theorem createTxLockCandidate_changes (hsound : Sound st) {tx : CTransaction}
    {created : CInstantSend×Bool} (h : st.createTxLockCandidate ctx env tx=.ok created) :
    Changes ctx strict okClean st created.1 := by
  unfold createTxLockCandidate at h
  rw [bind_eq_ok] at h
  obtain ⟨isValid,-,h⟩ := h
  split_ifs at h with hinvalid
  · cases h
    exact .refl
  · split at h
    · rename_i hfind
      cases h
      refine .single (.start ?_)
      rw [hfind]
      exact (@started_request none tx { nTimeCreated := env.nTime, txLockRequest := some tx }
        (fun _ hnone => by cases hnone) rfl (fun _ => rfl)).2
    · rename_i cand hfind
      split_ifs at h with hknown
      · cases h
        exact .refl
      · have hnone : cand.txLockRequest=none := by
          rwa [Bool.not_eq_true,isSome_eq_false_iff,isNone_iff_eq_none] at hknown
        have hstarted := @started_request (some cand) tx
          { cand with txLockRequest := some tx }
          (fun found hsome => by rw [some.injEq] at hsome; rwa [← hsome]) rfl
          (fun outpoint => hsound.no_lock hfind hnone outpoint)
        rw [← hfind] at hstarted
        dsimp only at h
        split_ifs at h
        · cases h
          exact .single (.start hstarted.1)
        · cases h
          exact .single (.start hstarted.2)

theorem createEmptyTxLockCandidate_changes (txHash : Uint256) :
    Changes ctx strict okClean st (st.createEmptyTxLockCandidate env txHash) := by
  unfold createEmptyTxLockCandidate
  split_ifs with hknown
  · exact .refl
  · rw [Bool.not_eq_true,contains_eq_false] at hknown
    refine .single (.start ?_)
    rw [hknown]
    exact ⟨(fun _ hsome => by cases hsome),(fun _ hsome => by cases hsome),.inl (fun _ => rfl),
      fun _ _ => rfl⟩

theorem NamesInput.recordVote {vote other : CTxLockVote} (h : NamesInput env st other) :
    NamesInput env (st.recordVote vote).1 other := by
  intro cand hfind hrequest htime
  obtain ⟨old,hold,hshape⟩ := recordVote_shape hfind
  rw [hshape.hasLock]
  refine h old hold (by rwa [hshape.request] at hrequest) ?_
  rwa [isTimedOut,hshape.time] at htime

theorem processOrphanTxLockVote_changes {vote : CTxLockVote}
    (hnames : strict → NamesInput env st vote) :
    Changes ctx strict okClean st (st.processOrphanTxLockVote env vote).1 ∧
      ∀ other, NamesInput env st other →
        NamesInput env (st.processOrphanTxLockVote env vote).1 other := by
  unfold processOrphanTxLockVote
  cases hfind : st.mapTxLockCandidates.find vote.txHash with
  | none => exact ⟨.refl,fun _ h => h⟩
  | some cand =>
    dsimp only
    split_ifs with hskip
    · exact ⟨.refl,fun _ h => h⟩
    · rw [Bool.or_eq_true,not_or,Bool.not_eq_true,Bool.not_eq_true] at hskip
      refine ⟨.single (.record hfind (fun hstrict => ?_)),fun _ h => h.recordVote⟩
      exact hnames hstrict cand hfind (by simpa using hskip.1) hskip.2

theorem processOrphanEntry_changes {entry : Uint256×CTxLockVote}
    (hnames : strict → NamesInput env st entry.2) :
    Changes ctx strict okClean st (processOrphanEntry env st entry) ∧
      ∀ other, NamesInput env st other →
        NamesInput env (processOrphanEntry env st entry) other := by
  obtain ⟨hchanges,hkeeps⟩ := @processOrphanTxLockVote_changes ctx env strict okClean st
    entry.2 hnames
  unfold processOrphanEntry
  dsimp only
  split_ifs
  · exact ⟨hchanges.tail (.other rfl rfl rfl),hkeeps⟩
  · exact ⟨hchanges,hkeeps⟩

theorem processOrphanTxLockVotes_changes
    (hnames : strict → ∀ entry∈st.mapTxLockVotesOrphan.entries, NamesInput env st entry.2) :
    Changes ctx strict okClean st (st.processOrphanTxLockVotes env) := by
  unfold processOrphanTxLockVotes
  revert hnames
  generalize st.mapTxLockVotesOrphan.entries=entries
  intro hnames
  induction entries generalizing st with
  | nil => exact .refl
  | cons entry entries ih =>
    obtain ⟨hchanges,hkeeps⟩ := @processOrphanEntry_changes ctx env strict okClean st
      entry (fun hstrict => hnames hstrict entry List.mem_cons_self)
    rw [List.foldl_cons]
    exact hchanges.trans (ih (fun hstrict other hm =>
      hkeeps other.2 (hnames hstrict other (List.mem_cons_of_mem _ hm))))

/-- The candidate that a call comes to complete has the shape of a stored one. -/
def PendingFor (pending : Pending) : Prop :=
  ∀ cand, pending.cand=some cand → ∃ txHash stored,
    pending.st.mapTxLockCandidates.find txHash=some stored ∧ SameShape stored cand

/-- The candidate that a call comes to complete is stored, and there are no own votes. -/
def PendingStored (pending : Pending) : Prop :=
  pending.relayed=[] ∧ ∀ cand, pending.cand=some cand → ∃ txHash,
    pending.st.mapTxLockCandidates.find txHash=some cand

theorem PendingStored.pendingFor {pending : Pending} (h : PendingStored pending) :
    PendingFor pending := by
  intro cand hcand
  obtain ⟨txHash,hfind⟩ := h.2 cand hcand
  exact ⟨txHash,cand,hfind,SameShape.refl cand⟩

theorem processTxLockRequest_changes (hsound : Sound st) {tx : CTransaction} {pending : Pending}
    (h : st.processTxLockRequest ctx env tx=.ok pending)
    (hvotes : strict → VotesInputs ctx env st (.request tx)) :
    Changes ctx strict okClean st pending.st ∧ PendingStored pending := by
  unfold processTxLockRequest at h
  rw [bind_eq_ok] at h
  obtain ⟨created,hcreated,h⟩ := h
  have hstart := @createTxLockCandidate_changes ctx env strict okClean st hsound tx created
    hcreated
  split_ifs at h
  · cases h
    exact ⟨hstart,rfl,fun _ hsome => by cases hsome⟩
  · dsimp only at h
    split at h
    · cases h
    · rename_i cand hfind
      cases h
      refine ⟨hstart.trans (processOrphanTxLockVotes_changes (fun hstrict => hvotes hstrict created
        hcreated)),rfl,?_⟩
      intro found hfound
      cases hfound
      exact ⟨tx.hash,hfind⟩

theorem keepOrphanVote_changes (vote : CTxLockVote) :
    Changes ctx strict okClean st (st.keepOrphanVote ctx env vote).1 := by
  have hstart := @createEmptyTxLockCandidate_changes ctx env strict okClean st vote.txHash
  unfold keepOrphanVote
  dsimp only
  split
  · exact hstart.tail (.other rfl rfl rfl)
  · split_ifs
    · exact hstart.tail (.other rfl rfl rfl)
    · exact hstart.tail (.other rfl rfl rfl)

theorem processNewTxLockVote_changes {vote : CTxLockVote}
    (hnames : strict → NamesInput env st vote) :
    Changes ctx strict okClean st (st.processNewTxLockVote ctx env vote).st ∧
      PendingStored (st.processNewTxLockVote ctx env vote) := by
  unfold processNewTxLockVote
  split_ifs
  · exact ⟨.refl,rfl,fun _ hsome => by cases hsome⟩
  · split
    · exact ⟨keepOrphanVote_changes vote,rfl,fun _ hsome => by cases hsome⟩
    · rename_i cand hcand
      rw [filter_eq_some_iff] at hcand
      obtain ⟨hfind,hrequest⟩ := hcand
      split_ifs with htime
      · exact ⟨.refl,rfl,fun _ hsome => by cases hsome⟩
      · have hrecord : Changes ctx strict okClean st (st.recordVote vote).1 :=
          .single (.record hfind (fun hstrict => hnames hstrict cand hfind hrequest
            (by simpa using htime)))
        dsimp only
        split_ifs
        · exact ⟨hrecord,rfl,fun _ hsome => by cases hsome⟩
        · exact ⟨hrecord,rfl,fun found hfound => ⟨vote.txHash,hfound⟩⟩

end Pyrk.InstantSend
