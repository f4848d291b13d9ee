import Pyrk.VoteOrder

/-!
# Votes that wait for their masternode

A loop takes votes of masternodes that are known by now and drops those that waited too long. It
takes each of these once more before, but the cache has room for one vote of a masternode only, and
the old entry is still there.
-/

namespace Pyrk.OrphanVotes

open Transaction GovernanceObject VoteOrder List Bool

/-- A vote that waits: its masternode, the vote and its time of expiry. -/
abbrev OrphanVote := COutPoint×(CGovernanceVote×ℤ)

/-- Votes that wait for an object, the newest first. -/
abbrev orphanVotes (obj : CGovernanceObject) : List OrphanVote :=
  obj.cmmapOrphanVotes.listItems

section Loop

variable (ctx : VoteContext)

/-- A vote waited too long. -/
def Expired (item : OrphanVote) : Prop := item.2.2 < ctx.getAdjustedTime

instance (item : OrphanVote) : Decidable (Expired ctx item) :=
  inferInstanceAs (Decidable (_ < _))

/-- Drop a vote that waited. -/
def eraseOrphanVote (obj : CGovernanceObject) (item : OrphanVote) : CGovernanceObject :=
  { obj with cmmapOrphanVotes := obj.cmmapOrphanVotes.erase ltVoteTime item.1 item.2 }

/-- One round of the loop over the votes that wait. -/
def checkOrphanVote (obj : CGovernanceObject) (item : OrphanVote) : CGovernanceObject :=
  let fRemove := decide (Expired ctx item)
  if !fRemove && !ctx.has item.2.1.masternodeOutpoint then obj
  else
    let report := processVote ctx obj item.2.1
    let fRemove := fRemove || report.ok
    if fRemove then eraseOrphanVote report.obj item else report.obj

/-- The loop with its iterator that many entries before the end of the list, and the entries it
comes to. -/
def checkOrphanVotesFrom : ℕ → CGovernanceObject → CGovernanceObject×List OrphanVote
  | 0,obj => (obj,[])
  | ahead+1,obj =>
    match (orphanVotes obj).reverse[ahead]? with
    | none => (obj,[])
    | some item =>
      let rest := checkOrphanVotesFrom ahead (checkOrphanVote ctx obj item)
      (rest.1,item::rest.2)

/-- Go through the votes that wait. -/
def checkOrphanVotes (obj : CGovernanceObject) : CGovernanceObject×List OrphanVote :=
  checkOrphanVotesFrom ctx (orphanVotes obj).length obj

end Loop

/-- What holds of the votes that wait for an object. -/
structure WellKept (obj : CGovernanceObject) : Prop where
  /-- Each entry is under the masternode of its vote. -/
  keyed : ∀ item∈orphanVotes obj, item.1=item.2.1.masternodeOutpoint
  /-- No masternode has two votes that wait. -/
  distinct : ((orphanVotes obj).map Prod.fst).Nodup

section Steps

variable {ctx : VoteContext} {obj : CGovernanceObject} {vote : CGovernanceVote}

/-- The comparison tells no two votes apart, whatever their times of expiry are. -/
theorem equivalent_eq (first second : CGovernanceVote×ℤ) :
    CacheMultiMap.equivalent ltVoteTime first second=true := by
  rw [CacheMultiMap.equivalent,ltVoteTime_eq,ltVoteTime_eq]
  rfl

/-- A vote of a masternode that is not known waits, unless one of this masternode does already. -/
theorem orphanVotes_processVote (obj : CGovernanceObject) (vote : CGovernanceVote) :
    orphanVotes (processVote ctx obj vote).obj=orphanVotes obj ∨
      (ctx.has vote.masternodeOutpoint=false ∧
        (∀ item∈orphanVotes obj,item.1≠vote.masternodeOutpoint) ∧
        ∃ nTime,orphanVotes (processVote ctx obj vote).obj=
          pushItem obj.cmmapOrphanVotes.nMaxSize (vote.masternodeOutpoint,(vote,nTime))
            (orphanVotes obj)) := by
  by_cases hknown : obj.fileVotes.hasVote (getHash ctx vote)=true
  · exact .inl (by rw [processVote_of_known hknown])
  · have hfresh := eq_false_of_not_eq_true hknown
    cases hhas : ctx.has vote.masternodeOutpoint with
    | true =>
      left
      dsimp only [processVote]
      grind
    | false =>
      have hobject : (processVote ctx obj vote).obj={ obj with
          cmmapOrphanVotes := (obj.cmmapOrphanVotes.insert ltVoteTime vote.masternodeOutpoint
            (vote,ctx.getAdjustedTime+governanceOrphanExpirationTime)).2 } := by
        dsimp only [processVote]
        simp only [hfresh,hhas,Bool.not_false,Bool.false_eq_true,if_false,if_true]
      rw [orphanVotes,hobject]
      dsimp only [CacheMultiMap.insert]
      split
      next => exact .inl rfl
      next hany =>
        refine .inr ⟨rfl,fun item hm hkey => hany (any_eq_true.mpr ⟨item,hm,?_⟩),_,rfl⟩
        rw [hkey,equivalent_eq,Bool.and_true]
        exact decide_eq_true_iff.mpr rfl

theorem WellKept.processVote (h : WellKept obj) :
    WellKept (processVote ctx obj vote).obj := by
  obtain hsame | ⟨-,hfree,nTime,hpushed⟩ := orphanVotes_processVote obj vote
  · exact ⟨by rw [hsame]; exact h.keyed,by rw [hsame]; exact h.distinct⟩
  · have hrest : (if (orphanVotes obj).length=obj.cmmapOrphanVotes.nMaxSize
        then (orphanVotes obj).dropLast else orphanVotes obj).Sublist
          (orphanVotes obj) := by
      split
      · exact dropLast_sublist _
      · exact Sublist.refl _
    constructor
    · intro item hm
      rw [hpushed] at hm
      obtain rfl | hold := mem_pushItem hm
      · rfl
      · exact h.keyed item hold
    · rw [hpushed,pushItem,map_cons,nodup_cons]
      refine ⟨fun hm => ?_,(hrest.map _).nodup h.distinct⟩
      obtain ⟨item,hitem,hkey⟩ := mem_map.mp hm
      exact hfree item (hrest.subset hitem) hkey

theorem wellKept_of_new (hlist : obj.cmmapOrphanVotes=⟨0,[]⟩) : WellKept obj := by
  constructor
  · intro item hm
    rw [orphanVotes,hlist] at hm
    exact absurd hm not_mem_nil
  · rw [orphanVotes,hlist]
    exact nodup_nil

variable {front tail : List OrphanVote} {item : OrphanVote}

section

variable (h : WellKept obj) (hlist : orphanVotes obj=front++item::tail)

include h hlist

/-- The entry of a masternode is found by any of its votes, and it is the one of the loop. -/
theorem orphanVotes_erase :
    orphanVotes (eraseOrphanVote obj item)=front++tail := by
  have hdistinct := h.distinct
  rw [hlist,map_append,nodup_append] at hdistinct
  rw [orphanVotes,eraseOrphanVote]
  change List.eraseP _ (orphanVotes obj)=_
  rw [hlist,eraseP_append_right]
  · rw [eraseP_cons_of_pos]
    rw [equivalent_eq,Bool.and_true]
    exact decide_eq_true_iff.mpr rfl
  · intro other hm hother
    rw [and_eq_true,decide_eq_true_eq] at hother
    exact hdistinct.2.2 _ (mem_map_of_mem hm) _ (mem_map_of_mem mem_cons_self) hother.1

theorem WellKept.erase :
    WellKept (eraseOrphanVote obj item) := by
  have hpart : (front++tail).Sublist (orphanVotes obj) := by
    rw [hlist]
    exact (sublist_cons_self item tail).append_left front
  constructor
  · rw [orphanVotes_erase h hlist]
    exact fun other hm => h.keyed other (hpart.subset hm)
  · rw [orphanVotes_erase h hlist]
    exact (hpart.map _).nodup h.distinct

/-- A round of the loop adds nothing, and it drops the entry or leaves it, if it has not expired. -/
theorem orphanVotes_checkOrphanVote :
    WellKept (checkOrphanVote ctx obj item) ∧
      (orphanVotes (checkOrphanVote ctx obj item)=front++tail ∨
        (¬Expired ctx item ∧
          orphanVotes (checkOrphanVote ctx obj item)=front++item::tail)) := by
  have hm : item∈orphanVotes obj := by
    rw [hlist]
    exact mem_append_right _ mem_cons_self
  have htaken := @WellKept.processVote ctx obj item.2.1 h
  -- the vote of an entry is not put in again, as its own entry is in the way
  have hsame : orphanVotes (processVote ctx obj item.2.1).obj=front++item::tail := by
    obtain hsame | ⟨-,hfree,-⟩ := @orphanVotes_processVote ctx obj item.2.1
    · exact hsame.trans hlist
    · exact absurd (h.keyed item hm) (hfree item hm)
  dsimp only [checkOrphanVote]
  by_cases hexpired : Expired ctx item
  · rw [decide_eq_true hexpired]
    exact ⟨htaken.erase hsame,.inl (orphanVotes_erase htaken hsame)⟩
  · rw [decide_eq_false hexpired]
    split
    next => exact ⟨h,.inr ⟨hexpired,hlist⟩⟩
    next =>
      split
      next => exact ⟨htaken.erase hsame,.inl (orphanVotes_erase htaken hsame)⟩
      next => exact ⟨htaken,.inr ⟨hexpired,hsame⟩⟩

end

end Steps

section Runs

variable {ctx : VoteContext} {obj : CGovernanceObject}

/-- The loop from a point on: it comes to the entries behind its iterator, each of them once, and
leaves of them some that have not expired. -/
theorem checkOrphanVotesFrom_spec (tail : List OrphanVote) :
    ∀ {obj : CGovernanceObject} {front : List OrphanVote}, WellKept obj →
    orphanVotes obj=front++tail → (checkOrphanVotesFrom ctx tail.length obj).2=tail ∧
      WellKept (checkOrphanVotesFrom ctx tail.length obj).1 ∧
      ∃ rest,orphanVotes (checkOrphanVotesFrom ctx tail.length obj).1=front++rest ∧
        rest.Sublist tail ∧ ∀ item∈rest,¬Expired ctx item := by
  induction tail with
  | nil =>
    intro obj front h hlist
    exact ⟨rfl,h,[],hlist,Sublist.refl _,fun _ hm => absurd hm not_mem_nil⟩
  | cons item tail ih =>
    intro obj front h hlist
    have hvisit : (orphanVotes obj).reverse[tail.length]?=some item := by
      rw [hlist,reverse_append,reverse_cons,append_assoc,
        List.getElem?_append_right (by rw [length_reverse]),length_reverse,Nat.sub_self]
      rfl
    have hrun : checkOrphanVotesFrom ctx (item::tail).length obj=
        ((checkOrphanVotesFrom ctx tail.length (checkOrphanVote ctx obj item)).1,
          item::(checkOrphanVotesFrom ctx tail.length
            (checkOrphanVote ctx obj item)).2) := by
      rw [length_cons,checkOrphanVotesFrom,hvisit]
    rw [hrun]
    obtain ⟨hkept,hnext | ⟨hfresh,hnext⟩⟩ := orphanVotes_checkOrphanVote h hlist
    · obtain ⟨hlog,hwell,rest,hrest,hsub,hwaits⟩ := ih hkept hnext
      exact ⟨congrArg _ hlog,hwell,rest,hrest,hsub.cons item,hwaits⟩
    · have hnext' : orphanVotes (checkOrphanVote ctx obj item)=(front++[item])++tail := by
        rw [hnext,append_assoc,singleton_append]
      obtain ⟨hlog,hwell,rest,hrest,hsub,hwaits⟩ := ih hkept hnext'
      refine ⟨congrArg _ hlog,hwell,item::rest,?_,hsub.cons_cons item,?_⟩
      · rw [hrest,append_assoc,singleton_append]
      · intro other hm
        obtain rfl | hm := mem_cons.mp hm
        · exact hfresh
        · exact hwaits other hm

/-- The loop comes to each entry of its start once, it adds none, and of a vote that waited too long
nothing is left, under any time of expiry. -/
theorem checkOrphanVotes_drops (h : WellKept obj) :
    (checkOrphanVotes ctx obj).2=orphanVotes obj ∧
      (orphanVotes (checkOrphanVotes ctx obj).1).Sublist (orphanVotes obj) ∧
      ∀ item∈orphanVotes obj,Expired ctx item →
        ∀ nTime,(item.1,(item.2.1,nTime))∉orphanVotes (checkOrphanVotes ctx obj).1 := by
  obtain ⟨hlog,-,rest,hrest,hsub,hwaits⟩ :=
    @checkOrphanVotesFrom_spec ctx (orphanVotes obj) obj [] h rfl
  rw [nil_append] at hrest
  refine ⟨hlog,by rw [checkOrphanVotes,hrest]; exact hsub,?_⟩
  intro item hm hexpired nTime hleft
  rw [checkOrphanVotes,hrest] at hleft
  -- keys differ, so the entry that is left is the one that expired
  have hsame := inj_on_of_nodup_map h.distinct hm (hsub.subset hleft) rfl
  exact hwaits _ hleft (by rwa [← hsame])

/-- What changes the votes that wait for an object. -/
inductive OrphanAction where
  | vote (ctx : VoteContext) (vote : CGovernanceVote)
  | check (ctx : VoteContext)

/-- The object after a change. -/
def applyAction (obj : CGovernanceObject) : OrphanAction → CGovernanceObject
  | .vote ctx vote => (processVote ctx obj vote).obj
  | .check ctx => (checkOrphanVotes ctx obj).1

/-- Whatever votes come in and whenever the loop runs, each masternode has one vote that waits at
most, and it is under its outpoint. -/
theorem wellKept_run (hlist : obj.cmmapOrphanVotes=⟨0,[]⟩) (actions : List OrphanAction) :
    WellKept (actions.foldl applyAction obj) := by
  have hstep : ∀ (obj : CGovernanceObject) (action : OrphanAction),
      WellKept obj → WellKept (applyAction obj action) := by
    intro obj action h
    cases action with
    | vote ctx vote => exact h.processVote
    | check ctx => exact (@checkOrphanVotesFrom_spec ctx (orphanVotes obj) obj [] h rfl).2.1
  have hrun : ∀ (actions : List OrphanAction) (obj : CGovernanceObject),
      WellKept obj → WellKept (actions.foldl applyAction obj) := by
    intro actions
    induction actions with
    | nil => exact fun _ h => h
    | cons action actions ih => exact fun obj h => ih _ (hstep obj action h)
  exact hrun actions obj (wellKept_of_new hlist)

end Runs

/-- Votes of two masternodes, and a second one of the first of them. -/
def sampleVotes : List OrphanAction :=
  [.vote sampleContext ⟨1,⟨9,0⟩,5,1,100,[]⟩,.vote sampleContext ⟨1,⟨8,0⟩,5,1,100,[]⟩,
    .vote { sampleContext with getAdjustedTime := 1300 } ⟨1,⟨9,0⟩,5,2,200,[]⟩]

theorem wellKept_run_sample :
    (orphanVotes (sampleVotes.foldl applyAction newProposal)).length=2 ∧
      WellKept (sampleVotes.foldl applyAction newProposal) :=
  ⟨by decide,wellKept_run rfl _⟩

/-- At the time 1601 the votes that came at the time 1000 are dropped, of a masternode that is known
by then and of one that is not. -/
theorem checkOrphanVotes_drops_sample :
    (⟨9,0⟩,(⟨1,⟨9,0⟩,5,1,100,[]⟩,1600))∈orphanVotes (sampleVotes.foldl applyAction newProposal) ∧
    ∀ nTime,(⟨9,0⟩,(⟨1,⟨9,0⟩,5,1,100,[]⟩,nTime))∉orphanVotes
      (checkOrphanVotes
        { sampleContext with getAdjustedTime := 1601, has := fun outpoint => outpoint.hash=8 }
        (sampleVotes.foldl applyAction newProposal)).1 := by
  have hwaits : (⟨9,0⟩,(⟨1,⟨9,0⟩,5,1,100,[]⟩,1600))∈orphanVotes
      (sampleVotes.foldl applyAction newProposal) := by decide
  exact ⟨hwaits,(checkOrphanVotes_drops (wellKept_run rfl sampleVotes)).2.2 _ hwaits (by decide)⟩

end Pyrk.OrphanVotes
