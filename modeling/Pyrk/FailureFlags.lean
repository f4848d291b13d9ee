import Pyrk.ChainEffects

/-!
# Failure flags and reconsidered blocks

A block with a failure flag has a failed block on its branch, except after calls that reconsider a
block.
-/

namespace Pyrk.FailureFlags

open BlockTree ChainActivation ChainEffects List Option

/-- A block of the branch failed. -/
def FailureBefore (st : ChainState) (pindex : CBlockIndex) : Prop :=
  ∃ hash∈pindex.branch, ∃ other, st.find hash=some other ∧ other.nStatus.failedValid=true

/-- Every block with a failure flag has a failed block on its branch. -/
def FlagsJustified (st : ChainState) : Prop :=
  ∀ hash pindex, st.find hash=some pindex →
    pindex.nStatus.failed=true → FailureBefore st pindex

/-- Every marked block apart from a block has a failed block on its branch. -/
def Reconsiderable (st : ChainState) (hash : ℕ) : Prop :=
  ∀ pindex, st.find hash=some pindex → ∀ other entry, st.find other=some entry →
      entry.nStatus.failed=true → hash∉entry.branch → other∉pindex.branch →
        ∃ before∈entry.branch, before∉pindex.branch ∧
          ∃ failing, st.find before=some failing ∧ failing.nStatus.failedValid=true

/-- Reconsidered blocks leave no other branch behind. -/
def SafeCall (st : ChainState) : ChainCall → Prop
  | .resetBlockFailureFlags hash => Reconsiderable st hash
  | _ => True

/-- All calls of a run are safe where they are made. -/
def SafeRun (hashGenesis : ℕ) : ChainState → List ChainCall → Prop
  | _,[] => True
  | st,call::calls =>
    SafeCall st call ∧ SafeRun hashGenesis (perform hashGenesis st call) calls

section Effects

variable {st next : ChainState}

theorem FailureBefore.of_kept {pindex changed : CBlockIndex}
    (hbefore : FailureBefore st pindex) (hbranch : ∀ hash∈pindex.branch, hash∈changed.branch)
    (hkept : ∀ {hash pindex}, st.find hash=some pindex → pindex.nStatus.failedValid=true →
      ∃ kept, next.find hash=some kept ∧ kept.nStatus.failedValid=true) :
    FailureBefore next changed := by
  obtain ⟨hash,hmem,other,hfind,hfail⟩ := hbefore
  exact ⟨hash,hbranch hash hmem,hkept hfind hfail⟩

theorem FlagsJustified.effect (hflags : FlagsJustified st) (hsound : SoundTree st)
    (heffect : Effect False st next) : FlagsJustified next := by
  have hkept : ∀ {hash pindex}, st.find hash=some pindex → pindex.nStatus.failedValid=true →
      ∃ kept, next.find hash=some kept ∧ kept.nStatus.failedValid=true :=
    fun hfind hfail => failedValid_effect heffect hfind hfail
  have hold : ∀ {hash pindex}, st.find hash=some pindex → pindex.nStatus.failed=true →
      FailureBefore next pindex :=
    fun hfind hfail => (hflags _ _ hfind hfail).of_kept (fun _ h => h) hkept
  intro hash pindex hfind hfail
  cases heffect with
  | other hmap _ => exact hold ((find_of_map hmap hash).symm.trans hfind) hfail
  | chain hmap _ => exact hold ((find_of_map hmap hash).symm.trans hfind) hfail
  | @update updated old changed hupdated hmap _ hbranch hchange =>
    rw [find_of_set hmap] at hfind
    split_ifs at hfind with heq
    · cases hfind
      rcases (hchange.resolve_left not_false).justified hfail with
        hflag | hflag | ⟨before,hmem,other,hother,hflag⟩
      · have hbefore := hold hupdated hflag
        unfold FailureBefore at hbefore ⊢
        rwa [hbranch]
      · have hself : pindex.hash=updated :=
          (head_eq_of_cons_eq hbranch).trans (hsound.hash hupdated)
        have hfound : next.find updated=some pindex := by rw [find_of_set hmap,if_pos rfl]
        exact ⟨updated,hself ▸ mem_cons_self,pindex,hfound,hflag⟩
      · obtain ⟨found,hfound,hsuffix⟩ := hsound.find_of_mem hupdated hmem
        rw [hother] at hfound
        cases hfound
        exact (hflags _ _ hother hflag).of_kept (fun _ h => hbranch ▸ hsuffix.subset h) hkept
    · exact hold hfind hfail
  | @insert inserted pindexNew _ hmap _ _ _ hnew =>
    rw [find_of_set hmap] at hfind
    grind

theorem FlagsJustified.effects (hflags : FlagsJustified st) (hsound : SoundTree st)
    (heffects : Effects False st next) : FlagsJustified next := by
  induction heffects with
  | refl => exact hflags
  | tail hbefore heffect ih => exact FlagsJustified.effect ih (hsound.effects hbefore) heffect

theorem effects_perform (hashGenesis : ℕ) (hsound : SoundTree st) {call : ChainCall}
    (hcall : ∀ hash, call≠.resetBlockFailureFlags hash) :
    Effects False st (perform hashGenesis st call) := by
  cases call with
  | acceptBlockHeader block =>
    unfold perform
    dsimp only
    cases haccept : BlockTree.acceptBlockHeader hashGenesis st block with
    | error reject => exact .refl
    | ok result => exact effects_acceptBlockHeader haccept
  | acceptBlock block => exact effects_acceptBlock block
  | activateBestChain outcomes =>
    exact Primitives.effects (@primitives_activateBestChain False ⟨st,outcomes⟩ hsound)
  | invalidateBlock hash outcomes =>
    exact Primitives.effects (@primitives_invalidateBlock ⟨st,outcomes⟩ hsound hash)
  | resetBlockFailureFlags hash => exact absurd rfl (hcall hash)
  | preciousBlock hash outcomes =>
    exact Primitives.effects (@primitives_preciousBlock False ⟨st,outcomes⟩ hsound hash)

theorem soundTree_perform (hashGenesis : ℕ) (hsound : SoundTree st) (call : ChainCall) :
    SoundTree (perform hashGenesis st call) := by
  by_cases hcall : ∀ hash, call≠.resetBlockFailureFlags hash
  · exact hsound.effects (effects_perform hashGenesis hsound hcall)
  · rw [not_forall] at hcall
    obtain ⟨hash,hcall⟩ := hcall
    rw [not_not.mp hcall]
    exact hsound.primitives (primitives_resetBlockFailureFlags st hash)

end Effects

section Reset

variable {st : ChainState} {hash : ℕ} {pindex : CBlockIndex}

/-- A block without failure flags. -/
def cleared (entry : CBlockIndex) : CBlockIndex :=
  { entry with nStatus := { entry.nStatus with failedValid := false, failedChild := false } }

theorem cleared_of_not_failed {entry : CBlockIndex} (hflags : entry.nStatus.failed=false) :
    cleared entry=entry := by
  obtain ⟨hvalid,hchild⟩ := Bool.or_eq_false_iff.mp hflags
  have hstat : ({ entry.nStatus with failedValid := false,failedChild := false } : BlockStatus)=
      { entry.nStatus with
        failedValid := entry.nStatus.failedValid
        failedChild := entry.nStatus.failedChild } := by
    rw [hvalid,hchild]
  exact congrArg (fun nStatus => { entry with nStatus := nStatus }) hstat

/-- What reconsidering a block does to another one first. -/
def resetEntry (pindex entry : CBlockIndex) : CBlockIndex :=
  if !entry.nStatus.isValid .transactions && entry.getAncestor pindex.nHeight=some pindex.hash then
    cleared entry
  else entry

theorem find_foldl {step : ChainState → ℕ → ChainState} {change : CBlockIndex → CBlockIndex}
    (hidem : ∀ entry, change (change entry)=change entry)
    (hstep : ∀ st key other, (step st key).find other=
      if other=key then (st.find other).map change else st.find other)
    (hashes : List ℕ) (st : ChainState) (other : ℕ) :
    (hashes.foldl step st).find other=
      if other∈hashes then (st.find other).map change else st.find other := by
  induction hashes generalizing st with
  | nil => rw [if_neg not_mem_nil,foldl_nil]
  | cons key hashes ih =>
    rw [foldl_cons,ih,hstep]
    by_cases heq : other=key
    · have hcompose : change ∘ change=change := funext hidem
      simp only [heq,if_true,mem_cons,true_or,Option.map_map,hcompose,ite_self]
    · simp only [mem_cons,heq,if_false,false_or]

theorem find_clearFailed (st : ChainState) (key other : ℕ) :
    (st.clearFailed key).find other=
      if other=key then (st.find other).map cleared else st.find other :=
  find_modify st key _ other

theorem find_resetDescendant (pindex : CBlockIndex) (st : ChainState) (key other : ℕ) :
    (resetDescendant pindex st key).find other=
      if other=key then (st.find other).map (resetEntry pindex) else st.find other := by
  unfold resetDescendant
  cases hfind : st.find key with
  | none =>
    split_ifs with heq
    · rw [heq,hfind]
      rfl
    · rfl
  | some entry =>
    dsimp only
    by_cases hreset : (!entry.nStatus.isValid .transactions &&
        decide (entry.getAncestor pindex.nHeight=some pindex.hash))=true
    · have hclear : (if other=key then (st.find other).map cleared else st.find other)=
          if other=key then (st.find other).map (resetEntry pindex) else st.find other := by
        split_ifs with heq
        · rw [heq,hfind,map_some,map_some,resetEntry,if_pos hreset]
        · rfl
      rw [if_pos hreset,← hclear,← find_clearFailed]
      split
      · split_ifs <;> rfl
      · rfl
    · rw [if_neg hreset]
      split_ifs with heq
      · rw [heq,hfind,map_some,resetEntry,if_neg hreset]
      · rfl

section

variable (hsound : SoundTree st) (hfind : st.find hash=some pindex)

include hsound hfind

theorem getAncestor_iff {other : ℕ} {entry : CBlockIndex} (hother : st.find other=some entry) :
    entry.getAncestor pindex.nHeight=some pindex.hash ↔ hash∈entry.branch := by
  unfold CBlockIndex.getAncestor
  rw [hsound.hash hfind]
  constructor
  · intro hget
    exact mem_reverse.mp (mem_of_getElem? hget)
  · intro hmem
    obtain ⟨after,rest,hbranch⟩ := append_of_mem hmem
    obtain ⟨found,hfound,hrest⟩ := hsound.find_of_append hother hbranch
    rw [hfind] at hfound
    cases hfound
    have hpprev : pindex.pprev=rest := tail_eq_of_cons_eq hrest
    rw [hbranch,CBlockIndex.nHeight,hpprev,reverse_append,reverse_cons,
      append_assoc,List.getElem?_append_right (by rw [length_reverse]),length_reverse,Nat.sub_self]
    rfl

/-- Reconsidering a block clears the flags of the blocks before and after it,
and of no others. -/
theorem find_resetBlockFailureFlags (other : ℕ) :
    (resetBlockFailureFlags st hash).find other=(st.find other).map (fun entry =>
      if hash∈entry.branch ∨ other∈pindex.branch then cleared entry else entry) := by
  have hidem : ∀ entry, resetEntry pindex (resetEntry pindex entry)=resetEntry pindex entry := by
    intro entry
    by_cases hreset : (!entry.nStatus.isValid .transactions &&
        decide (entry.getAncestor pindex.nHeight=some pindex.hash))=true
    · have hcleared : resetEntry pindex entry=cleared entry := if_pos hreset
      rw [hcleared]
      unfold resetEntry
      split_ifs <;> rfl
    · have hsame : resetEntry pindex entry=entry := if_neg hreset
      rw [hsame,hsame]
  unfold resetBlockFailureFlags
  rw [hfind]
  rw [@find_foldl _ cleared (fun _ => rfl) find_clearFailed,
    find_foldl hidem (find_resetDescendant pindex)]
  cases hother : st.find other with
  | none => simp
  | some entry =>
    have hkey : other∈st.mapBlockIndex.entries.map Prod.fst :=
      mem_map_of_mem ((st.mapBlockIndex.mem_entries_iff other entry).mpr hother)
    have hreset : resetEntry pindex entry=if hash∈entry.branch then cleared entry else entry := by
      unfold resetEntry
      cases hvalid : entry.nStatus.isValid .transactions with
      | true =>
        have hflags : entry.nStatus.failed=false := by
          unfold BlockStatus.isValid at hvalid
          rw [Bool.and_eq_true,Bool.not_eq_true'] at hvalid
          exact hvalid.1
        rw [cleared_of_not_failed hflags,ite_self,ite_self]
      | false =>
        simp only [Bool.not_false,Bool.true_and,decide_eq_true_eq,
          getAncestor_iff hsound hfind hother]
    rw [if_pos hkey]
    simp only [map_some,hreset]
    by_cases hafter : hash∈entry.branch
    · simp only [hafter,if_true,true_or]
      split_ifs <;> rfl
    · simp only [hafter,if_false,false_or]
      split_ifs <;> rfl

/-- Flags are justified after a block was reconsidered if and only if no marked block of another
branch depends on failures before it. -/
theorem flagsJustified_reset_iff :
    FlagsJustified (resetBlockFailureFlags st hash) ↔ Reconsiderable st hash := by
  have hreset := find_resetBlockFailureFlags hsound hfind
  constructor
  · intro hflags found hfound other entry hother hfail hafter hbefore
    rw [hfind] at hfound
    cases hfound
    have hkept : (resetBlockFailureFlags st hash).find other=some entry := by
      rw [hreset,hother,map_some,if_neg (not_or.mpr ⟨hafter,hbefore⟩)]
    obtain ⟨before,hmem,failing,hfailing,hflag⟩ := hflags _ _ hkept hfail
    rw [hreset] at hfailing
    obtain ⟨old,hold,hchange⟩ := map_eq_some_iff.mp hfailing
    split_ifs at hchange with hline
    · rw [← hchange] at hflag
      cases hflag
    · rw [not_or] at hline
      exact ⟨before,hmem,hline.2,old,hold,hchange ▸ hflag⟩
  · intro hsafe other entry hother hfail
    rw [hreset] at hother
    obtain ⟨old,hold,hchange⟩ := map_eq_some_iff.mp hother
    split_ifs at hchange with hline
    · rw [← hchange] at hfail
      cases hfail
    · rw [not_or] at hline
      rw [hchange] at hold hline
      obtain ⟨before,hmem,hout,failing,hfailing,hflag⟩ :=
        hsafe _ hfind _ _ hold hfail hline.1 hline.2
      obtain ⟨found,hfound,hsuffix⟩ := hsound.find_of_mem hold hmem
      rw [hfailing] at hfound
      cases hfound
      refine ⟨before,hmem,failing,?_,hflag⟩
      have hoff : hash∉failing.branch := fun h => hline.1 (hsuffix.subset h)
      rw [hreset,hfailing,map_some,if_neg (not_or.mpr ⟨hoff,hout⟩)]

end

end Reset

section Run

variable {st : ChainState} {hashGenesis : ℕ}

theorem flagsJustified_perform_iff (hsound : SoundTree st) (hflags : FlagsJustified st)
    (call : ChainCall) :
    FlagsJustified (perform hashGenesis st call) ↔ SafeCall st call := by
  have hsafe : (∀ hash, call≠.resetBlockFailureFlags hash) →
      FlagsJustified (perform hashGenesis st call) :=
    fun hcall => hflags.effects hsound (effects_perform hashGenesis hsound hcall)
  cases call with
  | resetBlockFailureFlags hash =>
    cases hfind : st.find hash with
    | none =>
      have hsame : resetBlockFailureFlags st hash=st := by
        rw [resetBlockFailureFlags,hfind]
      refine iff_of_true ?_ (fun found hfound => ?_)
      · rw [perform,hsame]
        exact hflags
      · rw [hfind] at hfound
        cases hfound
    | some pindex => exact flagsJustified_reset_iff hsound hfind
  | acceptBlockHeader block => exact iff_of_true (hsafe (fun _ h => by cases h)) trivial
  | acceptBlock block => exact iff_of_true (hsafe (fun _ h => by cases h)) trivial
  | activateBestChain outcomes => exact iff_of_true (hsafe (fun _ h => by cases h)) trivial
  | invalidateBlock hash outcomes => exact iff_of_true (hsafe (fun _ h => by cases h)) trivial
  | preciousBlock hash outcomes => exact iff_of_true (hsafe (fun _ h => by cases h)) trivial

/-- In a run from a sound tree the flags stay justified if and only if every reconsidered block
leaves no other branch behind. -/
theorem flagsJustified_run_iff (hsound : SoundTree st) (hflags : FlagsJustified st)
    (calls : List ChainCall) :
    (∀ count, FlagsJustified (runCalls hashGenesis st (calls.take count))) ↔
      SafeRun hashGenesis st calls := by
  induction calls generalizing st with
  | nil =>
    refine iff_of_true (fun count => ?_) trivial
    rw [take_nil]
    exact hflags
  | cons call calls ih =>
    have hperform := @flagsJustified_perform_iff st hashGenesis hsound hflags call
    have hsound' := soundTree_perform hashGenesis hsound call
    constructor
    · intro hall
      have hnext : FlagsJustified (perform hashGenesis st call) := hall 1
      exact ⟨hperform.mp hnext,(ih hsound' hnext).mp (fun count => hall (count+1))⟩
    · intro hsafe count
      have hnext := hperform.mpr hsafe.1
      cases count with
      | zero => exact hflags
      | succ count => exact (ih hsound' hnext).mpr hsafe.2 count

end Run

/-- A node with the first block only. -/
def genesisState : ChainState where
  mapBlockIndex := OrderedMap.empty.set 1
    { hash := 1
      pprev := []
      nChainWork := 1
      address := 1
      nTx := 1
      nChainTx := 1
      nStatus := { validity := .transactions,haveData := true } }
  chainActive := [1]
  setBlockIndexCandidates := [1]
  mapBlocksUnlinked := []

/-- A valid block with one transaction that was asked for. -/
def sampleBlock (hash hashPrevBlock : ℕ) : BlockArrival where
  header := ⟨hash,hashPrevBlock,1,hash,.ok (),.ok ()⟩
  nTx := 1
  fRequested := true
  check := .stored

/-- Of two blocks after the second one, one is active; the second block is declared invalid, and a
block is reconsidered. -/
def reconsiderCalls (hash : ℕ) : List ChainCall :=
  [.acceptBlock (sampleBlock 2 1),.acceptBlock (sampleBlock 3 2),.activateBestChain [.ok,.ok],
    .acceptBlock (sampleBlock 4 2),.invalidateBlock 2 [.ok,.ok],.activateBestChain [],
    .resetBlockFailureFlags hash]

theorem find_genesisState {hash : ℕ} {pindex : CBlockIndex}
    (hfind : genesisState.find hash=some pindex) :
    hash=1 ∧ pindex.hash=1 ∧ pindex.pprev=[] ∧ pindex.nStatus.failed=false := by
  have hset := @find_of_set ⟨.empty,[],[],[],1,-1,0⟩ genesisState 1 _ rfl hash
  rw [hset] at hfind
  split_ifs at hfind with heq
  · cases hfind
    exact ⟨heq,rfl,rfl,rfl⟩
  · cases hfind

theorem soundTree_genesisState : SoundTree genesisState := by
  refine ⟨?_,?_,.inr ⟨1,_,rfl,rfl⟩⟩
  · intro hash pindex hfind
    have hfacts := find_genesisState hfind
    omega
  · intro hash hashPrev pindex before hfind hprev
    rw [(find_genesisState hfind).2.2.1] at hprev
    cases hprev

theorem flagsJustified_genesisState : FlagsJustified genesisState := by
  intro hash pindex hfind hfail
  rw [(find_genesisState hfind).2.2.2] at hfail
  cases hfail

theorem reconsiderable_of_entries {st : ChainState} {hash : ℕ}
    (hentries : ∀ entry∈st.mapBlockIndex.entries,
      entry.2.nStatus.failed=true → hash∈entry.2.branch) : Reconsiderable st hash := by
  intro pindex _ other entry hother hfail hafter _
  have hmem := (st.mapBlockIndex.mem_entries_iff other entry).mpr hother
  exact absurd (hentries _ hmem hfail) hafter

theorem not_flagsJustified_of_entries {st : ChainState}
    (hmarked : ∃ entry∈st.mapBlockIndex.entries, entry.2.nStatus.failed=true)
    (hnone : ∀ entry∈st.mapBlockIndex.entries, entry.2.nStatus.failedValid=false) :
    ¬FlagsJustified st := by
  intro hflags
  obtain ⟨⟨hash,pindex⟩,hmem,hfail⟩ := hmarked
  have hfind := (st.mapBlockIndex.mem_entries_iff hash pindex).mp hmem
  obtain ⟨before,-,failing,hfailing,hflag⟩ := hflags hash pindex hfind hfail
  have hlisted := (st.mapBlockIndex.mem_entries_iff before failing).mpr hfailing
  rw [hnone _ hlisted] at hflag
  cases hflag

/-- When the failed block itself is reconsidered, no flag is left. -/
theorem flagsJustified_reconsider_failed :
    SafeRun 1 genesisState (reconsiderCalls 2) ∧
      ∀ count, FlagsJustified (runCalls 1 genesisState ((reconsiderCalls 2).take count)) := by
  have hsafe : SafeRun 1 genesisState (reconsiderCalls 2) := by
    refine ⟨trivial,trivial,trivial,trivial,trivial,trivial,?_,trivial⟩
    exact reconsiderable_of_entries (by decide)
  exact ⟨hsafe,(flagsJustified_run_iff soundTree_genesisState flagsJustified_genesisState
    _).mpr hsafe⟩

/-- The other block after the failed one stays marked, and no block of its branch is failed any
more. -/
theorem reconsider_leaves_sibling :
    SoundTree genesisState ∧ FlagsJustified genesisState ∧
      (runCalls 1 genesisState (reconsiderCalls 3)).mapBlockIndex.entries.map (fun entry =>
        (entry.1,entry.2.pprev,entry.2.nStatus.failedValid,entry.2.nStatus.failedChild))=
        [(1,[],false,false),(2,[1],false,false),(3,[2,1],false,false),(4,[2,1],false,true)] ∧
      ¬FlagsJustified (runCalls 1 genesisState (reconsiderCalls 3)) := by
  exact ⟨soundTree_genesisState,flagsJustified_genesisState,by decide,
    not_flagsJustified_of_entries (by decide) (by decide)⟩

end Pyrk.FailureFlags
