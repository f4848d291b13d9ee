import Pyrk.FailureFlags

/-!
# Blocks whose transactions arrived

A block is linked once all transactions before it are known; until then it waits under the block
before it, unless that one is failed and not linked.
-/

namespace Pyrk.BlockLinks

open BlockTree ChainActivation ChainEffects FailureFlags List CBlockIndex

/-- The block before a block is linked, if there is one. -/
def ParentLinked (st : ChainState) (pindex : CBlockIndex) : Prop :=
  ∀ hashPrev∈pindex.pprev.head?,
    ∃ pindexPrev, st.find hashPrev=some pindexPrev ∧ pindexPrev.nChainTx≠0

/-- Number of transactions before a block, as it is known to the block before. -/
def nChainTxPrev (st : ChainState) (pindex : CBlockIndex) : ℕ :=
  match pindex.pprev.head?.bind st.find with
  | none => 0
  | some pindexPrev => pindexPrev.nChainTx

/-- How blocks are linked, while those of a queue are about to be. Strays wait nowhere. -/
structure Links (strays : Prop) (queue : List ℕ) (st : ChainState) : Prop where
  stage : ∀ {hash pindex}, st.find hash=some pindex →
    Validity.tree.level≤pindex.nStatus.validity.level
  /-- Blocks have transactions once they were received. -/
  data : ∀ {hash pindex}, st.find hash=some pindex →
    (pindex.nStatus.haveData=true ↔ pindex.nTx≠0)
  /-- A linked block was received after a linked block. -/
  linked : ∀ {hash pindex}, st.find hash=some pindex → pindex.nChainTx≠0 →
    pindex.nStatus.haveData=true ∧ ParentLinked st pindex ∧
      pindex.nChainTx=nChainTxPrev st pindex+pindex.nTx
  /-- A received block that is not linked waits, unless it is a stray. -/
  waits : ∀ {hash pindex}, st.find hash=some pindex → pindex.nStatus.haveData=true →
    pindex.nChainTx=0 → hash∈queue ∨
      (∃ hashPrev, pindex.pprev.head?=some hashPrev ∧ (hashPrev,hash)∈st.mapBlocksUnlinked) ∨
      strays ∧ FailureBefore st pindex
  queued : ∀ {hash}, hash∈queue → ∃ pindex, st.find hash=some pindex ∧
    pindex.nStatus.haveData=true ∧ pindex.nChainTx=0 ∧ ParentLinked st pindex
  /-- Waiting blocks were received and wait for a block that is not linked. -/
  unlinked : ∀ {hashPrev hash}, (hashPrev,hash)∈st.mapBlocksUnlinked →
    ∃ pindex, st.find hash=some pindex ∧ pindex.pprev.head?=some hashPrev ∧
      pindex.nStatus.haveData=true ∧ pindex.nChainTx=0 ∧
      ∀ pindexPrev, st.find hashPrev=some pindexPrev → pindexPrev.nChainTx=0
  once : (queue++st.mapBlocksUnlinked.map Prod.snd).Nodup
  candidates : ∀ {hash}, hash∈st.setBlockIndexCandidates →
    ∃ pindex, st.find hash=some pindex ∧ pindex.nChainTx≠0

section Frame

variable {clears strays : Prop} {queue : List ℕ} {st next : ChainState}

/-- What a block keeps where no block is received. -/
structure BlockKept (pindex changed : CBlockIndex) : Prop where
  branch : changed.branch=pindex.branch
  nTx : changed.nTx=pindex.nTx
  /-- The number of transactions up to the block stays. -/
  nChainTx : changed.nChainTx=pindex.nChainTx
  haveData : changed.nStatus.haveData=pindex.nStatus.haveData
  validity : pindex.nStatus.validity.level ≤ changed.nStatus.validity.level

/-- What a step keeps that receives no block. -/
structure LinksKept (st next : ChainState) : Prop where
  kept : ∀ {hash pindex}, st.find hash=some pindex →
    ∃ changed, next.find hash=some changed ∧ BlockKept pindex changed
  old : ∀ {hash changed}, next.find hash=some changed →
    ∃ pindex, st.find hash=some pindex ∧ BlockKept pindex changed
  unlinked : next.mapBlocksUnlinked=st.mapBlocksUnlinked
  candidates : ∀ {hash}, hash∈next.setBlockIndexCandidates → hash∈st.setBlockIndexCandidates ∨
      ∃ pindex, st.find hash=some pindex ∧ pindex.nChainTx≠0

theorem BlockKept.refl (pindex : CBlockIndex) : BlockKept pindex pindex :=
  ⟨rfl,rfl,rfl,rfl,le_rfl⟩

variable {pindex changed : CBlockIndex}

theorem BlockKept.pprev (hkept : BlockKept pindex changed) : changed.pprev=pindex.pprev :=
  tail_eq_of_cons_eq hkept.branch

theorem linksKept_of_map (hmap : next.mapBlockIndex=st.mapBlockIndex)
    (hunlinked : next.mapBlocksUnlinked=st.mapBlocksUnlinked)
    (hcands : ∀ {hash}, hash∈next.setBlockIndexCandidates →
      hash∈st.setBlockIndexCandidates ∨
        ∃ pindex, st.find hash=some pindex ∧ pindex.nChainTx≠0) : LinksKept st next :=
  ⟨fun {hash pindex} hfind => ⟨pindex,(find_of_map hmap hash).trans hfind,.refl _⟩,
    fun {hash pindex} hfind => ⟨pindex,(find_of_map hmap hash).symm.trans hfind,.refl _⟩,
    hunlinked,hcands⟩

theorem linksKept_modify {hash : ℕ} {change : CBlockIndex → CBlockIndex}
    (hchange : ∀ pindex, BlockKept pindex (change pindex)) :
    LinksKept st (st.modify hash change) := by
  refine ⟨?_,?_,?_,?_⟩
  · intro other pindex hfind
    rw [find_modify]
    split_ifs with heq
    · exact ⟨change pindex,by rw [hfind]; rfl,hchange pindex⟩
    · exact ⟨pindex,hfind,.refl _⟩
  · intro other changed hfind
    rw [find_modify] at hfind
    split_ifs at hfind with heq
    · obtain ⟨pindex,hidx,rfl⟩ := Option.map_eq_some_iff.mp hfind
      exact ⟨pindex,hidx,hchange pindex⟩
    · exact ⟨changed,hfind,.refl _⟩
  · unfold ChainState.modify
    split <;> rfl
  · intro other hmem
    refine .inl ?_
    unfold ChainState.modify at hmem
    split at hmem <;> exact hmem

theorem ParentLinked.kept (hpar : ParentLinked st pindex)
    (hkept : ∀ {hash pindex}, st.find hash=some pindex → pindex.nChainTx≠0 →
      ∃ changed, next.find hash=some changed ∧ changed.nChainTx≠0)
    (hpprev : changed.pprev=pindex.pprev) : ParentLinked next changed := by
  intro hashPrev hmem
  rw [hpprev] at hmem
  obtain ⟨pindexPrev,hfind,hlink⟩ := hpar hashPrev hmem
  exact hkept hfind hlink

theorem nChainTxPrev_eq (hpar : ParentLinked st pindex)
    (hkept : ∀ {hash pindex}, st.find hash=some pindex → pindex.nChainTx≠0 →
      ∃ changed, next.find hash=some changed ∧ changed.nChainTx=pindex.nChainTx)
    (hpprev : changed.pprev=pindex.pprev) :
    nChainTxPrev next changed=nChainTxPrev st pindex := by
  unfold nChainTxPrev
  rw [hpprev]
  cases hhead : pindex.pprev.head? with
  | none => rfl
  | some hashPrev =>
    obtain ⟨pindexPrev,hfind,hlink⟩ := hpar hashPrev hhead
    grind

theorem Links.kept (hlinks : Links strays queue st) (hkept : LinksKept st next)
    (hfailures : strays → ∀ {hash pindex}, st.find hash=some pindex →
      pindex.nStatus.failedValid=true →
        ∃ kept, next.find hash=some kept ∧ kept.nStatus.failedValid=true) :
    Links strays queue next := by
  have hparents : ∀ {hash pindex}, st.find hash=some pindex → pindex.nChainTx≠0 →
      ∃ changed, next.find hash=some changed ∧ changed.nChainTx=pindex.nChainTx := by
    intro hash pindex hfind _
    obtain ⟨changed,hchanged,hsame⟩ := hkept.kept hfind
    exact ⟨changed,hchanged,hsame.nChainTx⟩
  have hnonzero : ∀ {hash pindex}, st.find hash=some pindex → pindex.nChainTx≠0 →
      ∃ changed, next.find hash=some changed ∧ changed.nChainTx≠0 := by
    grind
  refine ⟨?_,?_,?_,?_,?_,?_,?_,?_⟩
  · intro hash changed hfind
    obtain ⟨pindex,hidx,hsame⟩ := hkept.old hfind
    exact (hlinks.stage hidx).trans hsame.validity
  · intro hash changed hfind
    obtain ⟨pindex,hidx,hsame⟩ := hkept.old hfind
    rw [hsame.haveData,hsame.nTx]
    exact hlinks.data hidx
  · intro hash changed hfind hlink
    obtain ⟨pindex,hidx,hsame⟩ := hkept.old hfind
    rw [hsame.nChainTx] at hlink
    obtain ⟨hdata,hpar,hcount⟩ := hlinks.linked hidx hlink
    refine ⟨hsame.haveData.trans hdata,hpar.kept hnonzero hsame.pprev,?_⟩
    rw [hsame.nChainTx,hsame.nTx,nChainTxPrev_eq hpar hparents hsame.pprev]
    exact hcount
  · intro hash changed hfind hdata hzero
    obtain ⟨pindex,hidx,hsame⟩ := hkept.old hfind
    rw [hsame.haveData] at hdata
    rw [hsame.nChainTx] at hzero
    rcases hlinks.waits hidx hdata hzero with hqueue | ⟨hashPrev,hhead,hwait⟩ | ⟨hstray,hbefore⟩
    · exact .inl hqueue
    · refine .inr (.inl ⟨hashPrev,?_,?_⟩)
      · rw [hsame.pprev]
        exact hhead
      · rw [hkept.unlinked]
        exact hwait
    · exact .inr (.inr ⟨hstray,hbefore.of_kept (fun _ h => hsame.branch ▸ h) (hfailures hstray)⟩)
  · intro hash hmem
    obtain ⟨pindex,hidx,hdata,hzero,hpar⟩ := hlinks.queued hmem
    obtain ⟨changed,hchanged,hsame⟩ := hkept.kept hidx
    exact ⟨changed,hchanged,hsame.haveData.trans hdata,hsame.nChainTx.trans hzero,
      hpar.kept hnonzero hsame.pprev⟩
  · intro hashPrev hash hmem
    rw [hkept.unlinked] at hmem
    obtain ⟨pindex,hidx,hhead,hdata,hzero,hprev⟩ := hlinks.unlinked hmem
    obtain ⟨changed,hchanged,hsame⟩ := hkept.kept hidx
    refine ⟨changed,hchanged,by rw [hsame.pprev]; exact hhead,hsame.haveData.trans hdata,
      hsame.nChainTx.trans hzero,?_⟩
    intro changedPrev hfindPrev
    obtain ⟨pindexPrev,hpindexPrev,hsamePrev⟩ := hkept.old hfindPrev
    exact hsamePrev.nChainTx.trans (hprev pindexPrev hpindexPrev)
  · rw [hkept.unlinked]
    exact hlinks.once
  · intro hash hmem
    rcases hkept.candidates hmem with hold | ⟨pindex,hidx,hlink⟩
    · obtain ⟨pindex,hidx,hlink⟩ := hlinks.candidates hold
      exact hnonzero hidx hlink
    · exact hnonzero hidx hlink

theorem Links.linked_branch (hlinks : Links strays queue st) (hsound : SoundTree st)
    {hash : ℕ} {pindex : CBlockIndex} (hfind : st.find hash=some pindex)
    (hlink : pindex.nChainTx≠0) {before : ℕ} (hmem : before∈pindex.branch) :
    ∃ other, st.find before=some other ∧ other.nChainTx≠0 := by
  generalize hpprev : pindex.pprev=blocks at *
  induction blocks generalizing hash pindex with
  | nil =>
    rw [branch,hpprev,mem_singleton,hsound.hash hfind] at hmem
    exact ⟨pindex,hmem ▸ hfind,hlink⟩
  | cons hashPrev blocks ih =>
    rw [branch,hpprev,mem_cons,hsound.hash hfind] at hmem
    rcases hmem with rfl | hmem
    · exact ⟨pindex,hfind,hlink⟩
    · obtain ⟨pindexPrev,hfindPrev,hrest⟩ := hsound.parent hfind hpprev
      obtain ⟨other,hother,hlinkedPrev⟩ :=
        (hlinks.linked hfind hlink).2.1 hashPrev (by rw [hpprev]; rfl)
      rw [hfindPrev] at hother
      cases hother
      refine ih hfindPrev hlinkedPrev ?_ hrest
      rwa [branch,hrest,hsound.hash hfindPrev]

/-- A block is linked once it and all blocks before it were received, if it is
no stray. -/
theorem Links.linked_of_received (hlinks : Links strays [] st) (hsound : SoundTree st)
    {hash : ℕ} {pindex : CBlockIndex} (hfind : st.find hash=some pindex)
    (hrecv : ∀ before∈pindex.branch,
      ∃ other, st.find before=some other ∧ other.nStatus.haveData=true)
    (hunfailed : strays → ¬FailureBefore st pindex) : pindex.nChainTx≠0 := by
  have hself := hsound.hash hfind
  have hdata : pindex.nStatus.haveData=true := by
    obtain ⟨other,hother,hdata⟩ := hrecv hash (hself ▸ mem_cons_self)
    rw [hfind] at hother
    cases hother
    exact hdata
  generalize hpprev : pindex.pprev=blocks
  induction blocks generalizing hash pindex with
  | nil =>
    intro hzero
    rcases hlinks.waits hfind hdata hzero with hmem | ⟨hashPrev,hhead,-⟩ | ⟨hstray,hbefore⟩
    · cases hmem
    · rw [hpprev] at hhead
      cases hhead
    · exact hunfailed hstray hbefore
  | cons hashPrev blocks ih =>
    intro hzero
    obtain ⟨pindexPrev,hfindPrev,hrest⟩ := hsound.parent hfind hpprev
    have hselfPrev := hsound.hash hfindPrev
    have hsub : ∀ before∈pindexPrev.branch, before∈pindex.branch := by
      intro before hmem
      rw [branch,hselfPrev,hrest] at hmem
      rw [branch,hpprev]
      exact mem_cons_of_mem _ hmem
    have hdataPrev : pindexPrev.nStatus.haveData=true := by
      obtain ⟨other,hother,hdata⟩ :=
        hrecv hashPrev (hsub hashPrev (hselfPrev ▸ mem_cons_self))
      rw [hfindPrev] at hother
      cases hother
      exact hdata
    have hpar : pindexPrev.nChainTx≠0 := by
      refine ih hfindPrev (fun before hmem => hrecv before (hsub before hmem)) ?_ hselfPrev
        hdataPrev hrest
      exact fun hstray hbefore =>
        hunfailed hstray (hbefore.of_kept hsub (fun hfind hfail => ⟨_,hfind,hfail⟩))
    rcases hlinks.waits hfind hdata hzero with hmem | ⟨other,hhead,hwait⟩ | ⟨hstray,hbefore⟩
    · cases hmem
    · rw [hpprev,head?_cons] at hhead
      cases hhead
      obtain ⟨-,-,-,-,-,hunlinked⟩ := hlinks.unlinked hwait
      exact hpar (hunlinked pindexPrev hfindPrev)
    · exact hunfailed hstray hbefore

theorem Links.primitive (hlinks : Links strays queue st) (hsound : SoundTree st)
    (hclears : strays → ¬clears) (hstep : Primitive clears st next) :
    Links strays queue next := by
  have heffects := hstep.effects
  have hfailures : strays → ∀ {hash pindex}, st.find hash=some pindex →
      pindex.nStatus.failedValid=true →
        ∃ kept, next.find hash=some kept ∧ kept.nStatus.failedValid=true := by
    intro hstray hash pindex hfind hfail
    rw [eq_false (hclears hstray)] at heffects
    exact failedValid_effects heffects hfind hfail
  refine hlinks.kept ?_ hfailures
  cases hstep with
  | chain hchain => exact linksKept_of_map rfl rfl .inl
  | status hkept _ =>
    exact linksKept_modify
      (fun pindex => ⟨rfl,rfl,rfl,(hkept pindex.nStatus).haveData,(hkept pindex.nStatus).validity⟩)
  | sequence => exact linksKept_modify (fun pindex => ⟨rfl,rfl,rfl,rfl,le_rfl⟩)
  | numbers => exact linksKept_of_map rfl rfl .inl
  | drop hsub => exact linksKept_of_map rfl rfl (fun hmem => .inl (hsub hmem))
  | @cand hash pindex hfind hfull =>
    refine linksKept_of_map rfl rfl (fun {other} hmem => ?_)
    rcases mem_insert_iff.mp hmem with rfl | hmem
    · exact .inr ⟨pindex,hfind,hfull⟩
    · exact .inl hmem
  | missing hmissing _ _ =>
    obtain ⟨hash,hmem,pindex,hfind,before,hbefore,other,hother,hdata⟩ := hmissing
    obtain ⟨found,hfound,hlink⟩ := hlinks.candidates hmem
    rw [hfind] at hfound
    cases hfound
    obtain ⟨found,hfound,hlink⟩ := hlinks.linked_branch hsound hfind hlink hbefore
    rw [hother] at hfound
    cases hfound
    rw [(hlinks.linked hother hlink).1] at hdata
    cases hdata

theorem Links.primitives (hlinks : Links strays queue st) (hsound : SoundTree st)
    (hclears : strays → ¬clears) (hsteps : Primitives clears st next) :
    Links strays queue next := by
  induction hsteps with
  | refl => exact hlinks
  | tail hbefore hstep ih => exact ih.primitive (hsound.primitives hbefore) hclears hstep

end Frame

section Receive

variable {strays : Prop} {hashGenesis : ℕ} {queue : List ℕ} {st next : ChainState}

theorem Links.insert (hlinks : Links strays queue st) {hash : ℕ} {pindexNew : CBlockIndex}
    (hnone : st.find hash=none)
    (hmap : next.mapBlockIndex=st.mapBlockIndex.set hash pindexNew)
    (hunlinked : next.mapBlocksUnlinked=st.mapBlocksUnlinked)
    (hcands : next.setBlockIndexCandidates=st.setBlockIndexCandidates)
    (hstage : Validity.tree.level≤pindexNew.nStatus.validity.level)
    (hdata : pindexNew.nStatus.haveData=false) (hnTx : pindexNew.nTx=0)
    (hnChainTx : pindexNew.nChainTx=0) : Links strays queue next := by
  have hnext := find_of_set hmap
  have hkept : ∀ {other entry}, st.find other=some entry → next.find other=some entry :=
    fun hother => find_of_insert hnone hmap hother
  have hold : ∀ {other entry}, next.find other=some entry →
      entry=pindexNew ∨ st.find other=some entry := by
    grind
  refine ⟨?_,?_,?_,?_,?_,?_,?_,?_⟩
  · intro other entry hfind
    rcases hold hfind with rfl | hfind
    · exact hstage
    · exact hlinks.stage hfind
  · intro other entry hfind
    rcases hold hfind with rfl | hfind
    · simp only [hdata,hnTx,Bool.false_eq_true,ne_eq,not_true_eq_false]
    · exact hlinks.data hfind
  · intro other entry hfind hlink
    rcases hold hfind with rfl | hfind
    · exact absurd hnChainTx hlink
    · obtain ⟨hdata,hpar,hcount⟩ := hlinks.linked hfind hlink
      refine ⟨hdata,hpar.kept (fun hfind hlink => ⟨_,hkept hfind,hlink⟩) rfl,?_⟩
      rw [nChainTxPrev_eq hpar (fun hfind _ => ⟨_,hkept hfind,rfl⟩) rfl]
      exact hcount
  · intro other entry hfind hrecv hzero
    rcases hold hfind with rfl | hfind
    · rw [hdata] at hrecv
      cases hrecv
    · rw [hunlinked]
      rcases hlinks.waits hfind hrecv hzero with hqueue | hwait | ⟨hstray,hbefore⟩
      · exact .inl hqueue
      · exact .inr (.inl hwait)
      · exact .inr (.inr ⟨hstray,hbefore.of_kept (fun _ h => h)
          (fun hfind hfail => ⟨_,hkept hfind,hfail⟩)⟩)
  · intro other hmem
    obtain ⟨entry,hfind,hrecv,hzero,hpar⟩ := hlinks.queued hmem
    exact ⟨entry,hkept hfind,hrecv,hzero,
      hpar.kept (fun hfind hlink => ⟨_,hkept hfind,hlink⟩) rfl⟩
  · intro hashPrev other hmem
    rw [hunlinked] at hmem
    obtain ⟨entry,hfind,hhead,hrecv,hzero,hprev⟩ := hlinks.unlinked hmem
    grind
  · rw [hunlinked]
    exact hlinks.once
  · intro other hmem
    rw [hcands] at hmem
    obtain ⟨entry,hfind,hlink⟩ := hlinks.candidates hmem
    exact ⟨entry,hkept hfind,hlink⟩

theorem Links.addToBlockIndex (hlinks : Links strays queue st) (block : HeaderArrival) :
    Links strays queue (BlockTree.addToBlockIndex st block).1 := by
  unfold BlockTree.addToBlockIndex
  cases hfind : st.find block.hash with
  | some pindex => exact hlinks
  | none =>
    cases hprev : st.find block.hashPrevBlock with
    | none => exact hlinks.insert hfind rfl rfl rfl le_rfl rfl rfl rfl
    | some pindexPrev => exact hlinks.insert hfind rfl rfl rfl le_rfl rfl rfl rfl

theorem Links.acceptBlockHeader (hlinks : Links strays queue st) {block : HeaderArrival}
    {result : ChainState×CBlockIndex}
    (haccept : BlockTree.acceptBlockHeader hashGenesis st block=.ok result) :
    Links strays queue result.1 := by
  rcases acceptBlockHeader_ok haccept with ⟨hsame,-⟩ | ⟨-,hadd,-⟩
  · rw [hsame]
    exact hlinks
  · rw [hadd]
    exact hlinks.addToBlockIndex block

/-- Blocks that wait for a block. -/
def waiting (st : ChainState) (hash : ℕ) : List ℕ :=
  (st.mapBlocksUnlinked.filter (fun entry => entry.1=hash)).map Prod.snd

/-- Link a block and take the blocks that waited for it out. -/
def linkNext (st : ChainState) (hash : ℕ) : ChainState :=
  { linkBlock st hash with
    mapBlocksUnlinked :=
      (linkBlock st hash).mapBlocksUnlinked.filter (fun entry => entry.1≠hash) }

def linkedIndex (st : ChainState) (pindex : CBlockIndex) : CBlockIndex :=
  { pindex with
    nChainTx := nChainTxPrev st pindex+pindex.nTx
    nSequenceId := st.nBlockSequenceId }

theorem mapBlocksUnlinked_linkBlock (st : ChainState) (hash : ℕ) :
    (linkBlock st hash).mapBlocksUnlinked=st.mapBlocksUnlinked := by
  unfold linkBlock
  split
  · rfl
  · dsimp only
    split_ifs <;> rfl

variable {hash : ℕ} {pindex : CBlockIndex}

theorem find_linkBlock (hfind : st.find hash=some pindex)
    (other : ℕ) : (linkBlock st hash).find other=
      if other=hash then some (linkedIndex st pindex) else st.find other := by
  have hmap : (linkBlock st hash).mapBlockIndex=
      st.mapBlockIndex.set hash (linkedIndex st pindex) := by
    unfold linkBlock
    rw [hfind]
    dsimp only
    split_ifs <;> rfl
  exact find_of_set hmap other

theorem candidates_linkBlock {hash other : ℕ}
    (hmem : other∈(linkBlock st hash).setBlockIndexCandidates) :
    other=hash ∨ other∈st.setBlockIndexCandidates := by
  unfold linkBlock at hmem
  split at hmem
  · exact .inr hmem
  · dsimp only at hmem
    split_ifs at hmem
    · exact .inr hmem
    · exact mem_insert_iff.mp hmem

theorem linkBlocks_succ (rounds : ℕ) (st : ChainState) (hash : ℕ) (queue : List ℕ) :
    linkBlocks (rounds+1) st (hash::queue)=
      linkBlocks rounds (linkNext st hash) (queue++waiting st hash) := by
  rw [linkBlocks,waiting,← mapBlocksUnlinked_linkBlock st hash]
  rfl

theorem waiting_perm (st : ChainState) (hash : ℕ) :
    (waiting st hash++(linkNext st hash).mapBlocksUnlinked.map Prod.snd).Perm
      (st.mapBlocksUnlinked.map Prod.snd) := by
  have hsplit := filter_append_perm (fun entry : ℕ×ℕ => decide (entry.1=hash))
    st.mapBlocksUnlinked
  have hmap := hsplit.map Prod.snd
  rw [map_append] at hmap
  rw [linkNext,mapBlocksUnlinked_linkBlock,waiting]
  simpa only [ne_eq,decide_not] using hmap

theorem Links.linkNext (hlinks : Links strays (hash::queue) st) :
    Links strays (queue++waiting st hash) (BlockLinks.linkNext st hash) := by
  obtain ⟨pindex,hidx,hdata,hzero,hpar⟩ := hlinks.queued mem_cons_self
  have hnTx : pindex.nTx≠0 := (hlinks.data hidx).mp hdata
  have hcount : (linkedIndex st pindex).nChainTx≠0 := by
    dsimp only [linkedIndex]
    omega
  have hnext : ∀ other, (BlockLinks.linkNext st hash).find other=
      if other=hash then some (linkedIndex st pindex) else st.find other :=
    find_linkBlock hidx
  have hself : (BlockLinks.linkNext st hash).find hash=some (linkedIndex st pindex) := by
    rw [hnext,if_pos rfl]
  have hkept : ∀ {other entry}, st.find other=some entry → entry.nChainTx≠0 →
      ∃ changed, (BlockLinks.linkNext st hash).find other=some changed ∧
        changed.nChainTx=entry.nChainTx := by
    grind
  have hnonzero : ∀ {other entry}, st.find other=some entry → entry.nChainTx≠0 →
      ∃ changed, (BlockLinks.linkNext st hash).find other=some changed ∧ changed.nChainTx≠0 := by
    grind
  have hfailures : ∀ {other entry}, st.find other=some entry →
      entry.nStatus.failedValid=true → ∃ kept,
        (BlockLinks.linkNext st hash).find other=some kept ∧ kept.nStatus.failedValid=true := by
    intro other entry hfind hfail
    rw [hnext]
    split_ifs with heq
    · rw [heq,hidx] at hfind
      cases hfind
      exact ⟨_,rfl,hfail⟩
    · exact ⟨entry,hfind,hfail⟩
  have hmember : ∀ {hashPrev other}, (hashPrev,other)∈st.mapBlocksUnlinked →
      hashPrev≠hash → (hashPrev,other)∈(BlockLinks.linkNext st hash).mapBlocksUnlinked := by
    intro hashPrev other hmem hne
    rw [BlockLinks.linkNext,mapBlocksUnlinked_linkBlock]
    exact mem_filter.mpr ⟨hmem,decide_eq_true hne⟩
  have honce := hlinks.once
  rw [cons_append,nodup_cons] at honce
  refine ⟨?_,?_,?_,?_,?_,?_,?_,?_⟩
  · intro other entry hfind
    rw [hnext] at hfind
    split_ifs at hfind
    · cases hfind
      have hstage := hlinks.stage hidx
      exact hstage
    · exact hlinks.stage hfind
  · intro other entry hfind
    rw [hnext] at hfind
    split_ifs at hfind
    · cases hfind
      have hrecv := hlinks.data hidx
      exact hrecv
    · exact hlinks.data hfind
  · intro other entry hfind hlink
    rw [hnext] at hfind
    split_ifs at hfind
    · cases hfind
      refine ⟨hdata,hpar.kept hnonzero rfl,?_⟩
      have hprev : nChainTxPrev (BlockLinks.linkNext st hash) (linkedIndex st pindex)=
          nChainTxPrev st pindex := nChainTxPrev_eq hpar hkept rfl
      rw [hprev]
      rfl
    · obtain ⟨hrecv,hprev,hsum⟩ := hlinks.linked hfind hlink
      refine ⟨hrecv,hprev.kept hnonzero rfl,?_⟩
      rw [nChainTxPrev_eq hprev hkept rfl]
      exact hsum
  · intro other entry hfind hrecv hunset
    rw [hnext] at hfind
    split_ifs at hfind with heq
    · cases hfind
      exact absurd hunset hcount
    · rcases hlinks.waits hfind hrecv hunset with
        hqueue | ⟨hashPrev,hhead,hwait⟩ | ⟨hstray,hbefore⟩
      · exact .inl (mem_append_left _ ((mem_cons.mp hqueue).resolve_left heq))
      · by_cases hprev : hashPrev=hash
        · refine .inl (mem_append_right _ (mem_map.mpr ⟨(hashPrev,other),?_,rfl⟩))
          exact mem_filter.mpr ⟨hwait,decide_eq_true hprev⟩
        · exact .inr (.inl ⟨hashPrev,hhead,hmember hwait hprev⟩)
      · exact .inr (.inr ⟨hstray,hbefore.of_kept (fun _ h => h) hfailures⟩)
  · intro other hmem
    rcases mem_append.mp hmem with hmem | hmem
    · obtain ⟨entry,hfind,hrecv,hunset,hprev⟩ := hlinks.queued (mem_cons_of_mem _ hmem)
      have hne : other≠hash := fun heq => honce.1 (mem_append_left _ (heq ▸ hmem))
      exact ⟨entry,by rw [hnext,if_neg hne,hfind],hrecv,hunset,hprev.kept hnonzero rfl⟩
    · obtain ⟨⟨hashPrev,hashNext⟩,hentry,rfl⟩ := mem_map.mp hmem
      obtain ⟨hentry,hprev⟩ := mem_filter.mp hentry
      have hprev : hashPrev=hash := of_decide_eq_true hprev
      obtain ⟨entry,hfind,hhead,hrecv,hunset,-⟩ := hlinks.unlinked hentry
      have hne : hashNext≠hash := fun heq =>
        honce.1 (mem_append_right _ (mem_map.mpr ⟨_,hentry,heq⟩))
      refine ⟨entry,by rw [hnext,if_neg hne,hfind],hrecv,hunset,?_⟩
      intro hashBefore hbefore
      grind
  · intro hashPrev other hmem
    rw [BlockLinks.linkNext,mapBlocksUnlinked_linkBlock] at hmem
    obtain ⟨hmem,hne⟩ := mem_filter.mp hmem
    have hne : hashPrev≠hash := of_decide_eq_true hne
    obtain ⟨entry,hfind,hhead,hrecv,hunset,hprev⟩ := hlinks.unlinked hmem
    grind
  · rw [append_assoc]
    exact ((waiting_perm st hash).append_left queue).nodup_iff.mpr honce.2
  · intro other hmem
    rcases candidates_linkBlock hmem with rfl | hmem
    · exact ⟨_,hself,hcount⟩
    · obtain ⟨entry,hfind,hlink⟩ := hlinks.candidates hmem
      exact hnonzero hfind hlink

theorem soundTree_linkNext (hsound : SoundTree st) (hash : ℕ) :
    SoundTree (linkNext st hash) := by
  have heffects := (@effects_linkBlock False st hash).trans
    (@effects_other False _ (linkNext st hash) rfl rfl)
  exact hsound.effects heffects

theorem linkBlocks_run {holds : ChainState → Prop}
    (hround : ∀ {st : ChainState} {hash : ℕ} {queue : List ℕ}, SoundTree st →
      Links strays (hash::queue) st → holds st → holds (linkNext st hash))
    {rounds : ℕ} {st : ChainState} {queue : List ℕ} (hsound : SoundTree st)
    (hlinks : Links strays queue st) (hholds : holds st)
    (henough : queue.length+st.mapBlocksUnlinked.length ≤ rounds) :
    Links strays [] (linkBlocks rounds st queue) ∧
      SoundTree (linkBlocks rounds st queue) ∧ holds (linkBlocks rounds st queue) := by
  induction rounds generalizing st queue with
  | zero =>
    have hempty : queue=[] := eq_nil_of_length_eq_zero (by omega)
    rw [hempty] at hlinks
    exact ⟨hlinks,hsound,hholds⟩
  | succ rounds ih =>
    cases queue with
    | nil => exact ⟨hlinks,hsound,hholds⟩
    | cons hash queue =>
      rw [linkBlocks_succ]
      refine ih (soundTree_linkNext hsound hash) hlinks.linkNext (hround hsound hlinks hholds) ?_
      have hperm := (waiting_perm st hash).length_eq
      rw [length_append,length_map,length_map] at hperm
      rw [length_cons] at henough
      rw [length_append]
      omega

/-- A block is received: it can be linked, or it waits, or it is a stray. -/
theorem Links.received (hlinks : Links strays [] st) {pindex changed : CBlockIndex}
    {later : List (ℕ×ℕ)} (hfind : st.find hash=some pindex)
    (hnone : pindex.nStatus.haveData=false)
    (hnext : ∀ other, next.find other=if other=hash then some changed else st.find other)
    (hunlinked : next.mapBlocksUnlinked=st.mapBlocksUnlinked++later)
    (hcands : next.setBlockIndexCandidates=st.setBlockIndexCandidates)
    (hbranch : changed.branch=pindex.branch)
    (hfail : changed.nStatus.failedValid=pindex.nStatus.failedValid)
    (hstage : pindex.nStatus.validity.level ≤ changed.nStatus.validity.level)
    (hdata : changed.nStatus.haveData=true) (hnTx : changed.nTx≠0) (hzero : changed.nChainTx=0)
    (hqueue : ∀ other∈queue, other=hash ∧ ParentLinked st pindex)
    (hlater : ∀ entry∈later, entry.2=hash ∧ pindex.pprev.head?=some entry.1 ∧
      ∀ pindexPrev, st.find entry.1=some pindexPrev → pindexPrev.nChainTx=0)
    (honce : (queue++later.map Prod.snd).Nodup)
    (hwaits : hash∈queue ∨ later≠[] ∨ strays ∧ FailureBefore st pindex) :
    Links strays queue next := by
  have hunset : pindex.nChainTx=0 := by
    by_contra hlink
    rw [(hlinks.linked hfind hlink).1] at hnone
    cases hnone
  have hpprev : changed.pprev=pindex.pprev := tail_eq_of_cons_eq hbranch
  have hself : next.find hash=some changed := by rw [hnext,if_pos rfl]
  have hkept : ∀ {other entry}, st.find other=some entry → entry.nChainTx≠0 →
      ∃ after, next.find other=some after ∧ after.nChainTx=entry.nChainTx := by
    grind
  have hnonzero : ∀ {other entry}, st.find other=some entry → entry.nChainTx≠0 →
      ∃ after, next.find other=some after ∧ after.nChainTx≠0 := by
    grind
  have hprevs : ∀ {hashPrev}, (∀ entry, st.find hashPrev=some entry → entry.nChainTx=0) →
      ∀ entry, next.find hashPrev=some entry → entry.nChainTx=0 := by
    grind
  have hfailures : ∀ {other entry}, st.find other=some entry → entry.nStatus.failedValid=true →
        ∃ kept, next.find other=some kept ∧ kept.nStatus.failedValid=true := by
    grind
  have hfresh : hash∉st.mapBlocksUnlinked.map Prod.snd := by
    intro hmem
    obtain ⟨⟨hashPrev,_⟩,hentry,rfl⟩ := mem_map.mp hmem
    obtain ⟨other,hother,-,hrecv,-⟩ := hlinks.unlinked hentry
    rw [hfind] at hother
    cases hother
    rw [hnone] at hrecv
    cases hrecv
  refine ⟨?_,?_,?_,?_,?_,?_,?_,?_⟩
  · intro other entry hother
    rw [hnext] at hother
    split_ifs at hother
    · cases hother
      exact (hlinks.stage hfind).trans hstage
    · exact hlinks.stage hother
  · intro other entry hother
    rw [hnext] at hother
    split_ifs at hother
    · cases hother
      exact iff_of_true hdata hnTx
    · exact hlinks.data hother
  · intro other entry hother hlink
    rw [hnext] at hother
    split_ifs at hother
    · cases hother
      exact absurd hzero hlink
    · obtain ⟨hrecv,hpar,hcount⟩ := hlinks.linked hother hlink
      refine ⟨hrecv,hpar.kept hnonzero rfl,?_⟩
      rw [nChainTxPrev_eq hpar hkept rfl]
      exact hcount
  · intro other entry hother hrecv hempty
    rw [hunlinked]
    rw [hnext] at hother
    split_ifs at hother with heq
    · cases hother
      rw [heq]
      rcases hwaits with hmem | hmem | ⟨hstray,hbefore⟩
      · exact .inl hmem
      · obtain ⟨⟨hashPrev,hashNext⟩,hentry⟩ := exists_mem_of_ne_nil later hmem
        obtain ⟨rfl,hhead,-⟩ := hlater _ hentry
        exact .inr (.inl ⟨hashPrev,hpprev ▸ hhead,mem_append_right _ hentry⟩)
      · exact .inr (.inr ⟨hstray,hbefore.of_kept (fun _ h => hbranch ▸ h) hfailures⟩)
    · rcases hlinks.waits hother hrecv hempty with
        hmem | ⟨hashPrev,hhead,hwait⟩ | ⟨hstray,hbefore⟩
      · cases hmem
      · exact .inr (.inl ⟨hashPrev,hhead,mem_append_left _ hwait⟩)
      · exact .inr (.inr ⟨hstray,hbefore.of_kept (fun _ h => h) hfailures⟩)
  · intro other hmem
    obtain ⟨rfl,hpar⟩ := hqueue other hmem
    exact ⟨changed,hself,hdata,hzero,hpar.kept hnonzero hpprev⟩
  · intro hashPrev other hmem
    rw [hunlinked] at hmem
    rcases mem_append.mp hmem with hmem | hmem
    · obtain ⟨entry,hentry,hhead,hrecv,hempty,hprev⟩ := hlinks.unlinked hmem
      have hne : other≠hash := fun heq => hfresh (mem_map.mpr ⟨_,hmem,heq⟩)
      exact ⟨entry,by rw [hnext,if_neg hne,hentry],hhead,hrecv,hempty,hprevs hprev⟩
    · obtain ⟨rfl,hhead,hprev⟩ := hlater _ hmem
      exact ⟨changed,hself,hpprev ▸ hhead,hdata,hzero,hprevs hprev⟩
  · rw [hunlinked,map_append]
    have hold := hlinks.once
    grind
  · intro other hmem
    rw [hcands] at hmem
    obtain ⟨entry,hentry,hlink⟩ := hlinks.candidates hmem
    exact hnonzero hentry hlink

/-- A block with its transactions. -/
def receivedIndex (nTx : ℕ) (pindex : CBlockIndex) : CBlockIndex :=
  { pindex with
    nTx := nTx
    nChainTx := 0
    nStatus := { pindex.nStatus with haveData := true }.raiseValidity .transactions }

theorem receivedBlockTransactions_cases (hsound : SoundTree st) (hlinks : Links strays [] st)
    (hfind : st.find hash=some pindex) (nTx : ℕ) :
    (ParentLinked st pindex ∧ receivedBlockTransactions st hash nTx=
      linkBlocks (st.mapBlocksUnlinked.length+1)
        (st.modify hash (receivedIndex nTx)) [hash]) ∨
    ∃ hashPrev pindexPrev, pindex.pprev.head?=some hashPrev ∧
      st.find hashPrev=some pindexPrev ∧ pindexPrev.nChainTx=0 ∧
      ((pindexPrev.nStatus.failed=false ∧ receivedBlockTransactions st hash nTx=
        { st.modify hash (receivedIndex nTx) with
          mapBlocksUnlinked := st.mapBlocksUnlinked++[(hashPrev,hash)] }) ∨
      (pindexPrev.nStatus.failed=true ∧
        receivedBlockTransactions st hash nTx=st.modify hash (receivedIndex nTx))) := by
  have hmodified : (st.modify hash (receivedIndex nTx)).find hash=
      some (receivedIndex nTx pindex) := by
    rw [find_modify,if_pos rfl,hfind]
    rfl
  have hunlinked : (st.modify hash (receivedIndex nTx)).mapBlocksUnlinked=
      st.mapBlocksUnlinked := by
    unfold ChainState.modify
    rw [hfind]
  have hindex : (fun pindex : CBlockIndex =>
      { pindex with
        nTx := nTx
        nChainTx := 0
        nStatus := { pindex.nStatus with haveData := true }.raiseValidity .transactions })=
      receivedIndex nTx := rfl
  have hprev : (receivedIndex nTx pindex).pprev=pindex.pprev := rfl
  have hbody := Eq.refl (receivedBlockTransactions st hash nTx)
  nth_rewrite 2 [receivedBlockTransactions] at hbody
  rw [hindex,hmodified] at hbody
  dsimp only at hbody
  rw [hprev,hunlinked] at hbody
  cases hhead : pindex.pprev.head? with
  | none =>
    rw [hhead] at hbody
    refine .inl ⟨?_,hbody⟩
    intro hashPrev hmem
    rw [hhead] at hmem
    cases hmem
  | some hashPrev =>
    obtain ⟨before,hpprev⟩ := head?_eq_some_iff.mp hhead
    obtain ⟨pindexPrev,hfindPrev,hrest⟩ := hsound.parent hfind hpprev
    have hne : hashPrev≠hash := by
      rintro rfl
      rw [hfind] at hfindPrev
      cases hfindPrev
      rw [hpprev] at hrest
      exact absurd hrest (cons_ne_self _ _)
    rw [hhead] at hbody
    dsimp only at hbody
    rw [find_modify,if_neg hne,hfindPrev] at hbody
    dsimp only at hbody
    by_cases hlink : pindexPrev.nChainTx≠0
    · rw [if_pos hlink] at hbody
      refine .inl ⟨?_,hbody⟩
      intro other hmem
      rw [hhead,Option.mem_some_iff] at hmem
      exact hmem ▸ ⟨pindexPrev,hfindPrev,hlink⟩
    · rw [if_neg hlink] at hbody
      refine .inr ⟨hashPrev,pindexPrev,rfl,hfindPrev,not_not.mp hlink,?_⟩
      have hstage := hlinks.stage hfindPrev
      cases hfail : pindexPrev.nStatus.failed with
      | false =>
        rw [BlockStatus.isValid,hfail,decide_eq_true hstage] at hbody
        exact .inl ⟨rfl,hbody⟩
      | true =>
        rw [BlockStatus.isValid,hfail] at hbody
        exact .inr ⟨rfl,hbody⟩

theorem receivedBlockTransactions_run {holds : ChainState → Prop}
    (hround : ∀ {st : ChainState} {hash : ℕ} {queue : List ℕ}, SoundTree st →
      Links strays (hash::queue) st → holds st → holds (linkNext st hash))
    (hwait : ∀ {st : ChainState} {waits : List (ℕ×ℕ)}, holds st →
      holds { st with mapBlocksUnlinked := waits })
    (hsound : SoundTree st) (hlinks : Links strays [] st) {hash nTx : ℕ}
    (hfind : st.find hash=some pindex)
    (hdata : pindex.nStatus.haveData=false) (hnTx : nTx≠0)
    (hstray : ∀ hashPrev pindexPrev, pindex.pprev.head?=some hashPrev →
      st.find hashPrev=some pindexPrev → pindexPrev.nChainTx=0 →
        pindexPrev.nStatus.failed=true → strays ∧ FailureBefore st pindex)
    (hholds : holds (st.modify hash (receivedIndex nTx))) :
    Links strays [] (receivedBlockTransactions st hash nTx) ∧
      holds (receivedBlockTransactions st hash nTx) := by
  have hnext : ∀ other, (st.modify hash (receivedIndex nTx)).find other=
      if other=hash then some (receivedIndex nTx pindex) else st.find other := by
    intro other
    rw [find_modify]
    split_ifs with heq
    · rw [heq,hfind]
      rfl
    · rfl
  have hunlinked : (st.modify hash (receivedIndex nTx)).mapBlocksUnlinked=
      st.mapBlocksUnlinked++[] := by
    unfold ChainState.modify
    rw [hfind,append_nil]
  have hcands : (st.modify hash (receivedIndex nTx)).setBlockIndexCandidates=
      st.setBlockIndexCandidates := by
    unfold ChainState.modify
    rw [hfind]
  have hraise := stageKept_raiseValidity { pindex.nStatus with haveData := true } .transactions
  have hflags := flags_raiseValidity { pindex.nStatus with haveData := true } .transactions
  rcases receivedBlockTransactions_cases hsound hlinks hfind nTx with
    ⟨hpar,hbody⟩ | ⟨hashPrev,pindexPrev,hhead,hfindPrev,hzero,⟨hvalid,hbody⟩ | ⟨hfail,hbody⟩⟩
  · rw [hbody]
    have hqueue : Links strays [hash] (st.modify hash (receivedIndex nTx)) :=
      hlinks.received hfind hdata hnext hunlinked hcands rfl hflags.1 hraise.validity
        hraise.haveData hnTx rfl (fun other hmem => ⟨mem_singleton.mp hmem,hpar⟩)
        (fun entry hmem => absurd hmem not_mem_nil) (nodup_singleton hash)
        (.inl mem_cons_self)
    have hsound' : SoundTree (st.modify hash (receivedIndex nTx)) :=
      hsound.effects (@effects_modify False _ _ _ (fun _ => rfl) (fun entry _ =>
        have hsame := flags_raiseValidity { entry.nStatus with haveData := true } .transactions
        .inr (flagsKept_of_same hsame.1 hsame.2)))
    obtain ⟨hend,-,hholdsEnd⟩ := linkBlocks_run hround hsound' hqueue hholds
      (show 1+_ ≤ st.mapBlocksUnlinked.length+1 by
        rw [hunlinked,append_nil]
        omega)
    exact ⟨hend,hholdsEnd⟩
  · rw [hbody]
    refine ⟨hlinks.received hfind hdata hnext rfl hcands rfl hflags.1 hraise.validity
      hraise.haveData hnTx rfl (fun other hmem => absurd hmem not_mem_nil) ?_
      (nodup_singleton hash) (.inr (.inl (cons_ne_nil _ _))),hwait hholds⟩
    grind
  · rw [hbody]
    exact ⟨hlinks.received hfind hdata hnext hunlinked hcands rfl hflags.1 hraise.validity
      hraise.haveData hnTx rfl (fun other hmem => absurd hmem not_mem_nil)
      (fun entry hmem => absurd hmem not_mem_nil) nodup_nil
      (.inr (.inr (hstray hashPrev pindexPrev hhead hfindPrev hzero hfail))),hholds⟩

end Receive

section Calls

variable {strays : Prop} {hashGenesis : ℕ} {st : ChainState}

/-- All branches start with the first block. -/
def Rooted (hashGenesis : ℕ) (st : ChainState) : Prop :=
  ∀ hash pindex, st.find hash=some pindex → pindex.branch.getLast?=some hashGenesis

theorem Rooted.of_branches {next : ChainState} (hrooted : Rooted hashGenesis st)
    (hold : ∀ {hash entry}, next.find hash=some entry →
      ∃ before, st.find hash=some before ∧ entry.branch=before.branch) :
    Rooted hashGenesis next := by
  intro hash entry hfind
  obtain ⟨before,hbefore,hbranch⟩ := hold hfind
  rw [hbranch]
  exact hrooted hash before hbefore

theorem Rooted.genesis_known (hrooted : Rooted hashGenesis st) (hsound : SoundTree st)
    {hash : ℕ} {pindex : CBlockIndex} (hfind : st.find hash=some pindex) :
    ∃ genesis, st.find hashGenesis=some genesis := by
  have hmem := mem_of_getLast? (hrooted hash pindex hfind)
  obtain ⟨genesis,hgenesis,-⟩ := hsound.find_of_mem hfind hmem
  exact ⟨genesis,hgenesis⟩

variable {block : HeaderArrival} {result : ChainState×CBlockIndex}

theorem Rooted.acceptBlockHeader (hrooted : Rooted hashGenesis st)
    (haccept : BlockTree.acceptBlockHeader hashGenesis st block=.ok result) :
    Rooted hashGenesis result.1 := by
  rcases acceptBlockHeader_ok haccept with ⟨hsame,-⟩ | ⟨hnone,hadd,hafter⟩
  · rw [hsame]
    exact hrooted
  · intro hash pindex hfind
    rw [hadd] at hfind
    unfold addToBlockIndex at hfind
    rw [hnone] at hfind
    rw [find_of_set rfl] at hfind
    split_ifs at hfind
    · cases hprev : st.find block.hashPrevBlock with
      | none =>
        have hgenesis : block.hash=hashGenesis := by
          grind
        rw [hprev] at hfind
        cases hfind
        rw [branch,hgenesis]
        rfl
      | some pindexPrev =>
        rw [hprev] at hfind
        cases hfind
        have hlast := hrooted _ _ hprev
        rw [branch,getLast?_cons,hlast]
        rfl
    · exact hrooted hash pindex hfind

theorem acceptBlockHeader_find (hsound : SoundTree st)
    (haccept : acceptBlockHeader hashGenesis st block=.ok result) :
    result.2.hash=block.hash ∧ result.1.find block.hash=some result.2 := by
  rcases acceptBlockHeader_ok haccept with ⟨hsame,hfind,-⟩ | ⟨hnone,hadd,-⟩
  · rw [hsame]
    exact ⟨hsound.hash hfind,hfind⟩
  · rw [hadd]
    unfold addToBlockIndex
    rw [hnone]
    cases hprev : st.find block.hashPrevBlock with
    | none => exact ⟨rfl,by rw [find_of_set rfl,if_pos rfl]⟩
    | some pindexPrev => exact ⟨rfl,by rw [find_of_set rfl,if_pos rfl]⟩

/-- Work and distance of a block that nobody asked for are good enough. -/
def goodUnrequested (st : ChainState) (pindex : CBlockIndex) : Bool :=
  (match st.tip with
    | none => true
    | some pindexTip => decide (pindexTip.nChainWork<pindex.nChainWork)) &&
    pindex.nHeight < st.chainActive.length+minBlocksToKeep

/-- The transactions of a block are looked at. -/
def wanted (st : ChainState) (block : BlockArrival) (pindex : CBlockIndex) : Bool :=
  !pindex.nStatus.haveData && (block.fRequested || (pindex.nTx=0 && goodUnrequested st pindex))

theorem acceptBlock_cases (block : BlockArrival) :
    (acceptBlock hashGenesis st block).2=st ∨
    ∃ result, acceptBlockHeader hashGenesis st block.header=.ok result ∧
      ((acceptBlock hashGenesis st block).2=result.1 ∨ wanted result.1 block result.2=true ∧
        (((acceptBlock hashGenesis st block).2=result.1.markFailedValid result.2.hash) ∨
        block.check=.stored ∧ (acceptBlock hashGenesis st block).2=
          receivedBlockTransactions result.1 result.2.hash block.nTx)) := by
  unfold acceptBlock
  cases haccept : acceptBlockHeader hashGenesis st block.header with
  | error reject => exact .inl rfl
  | ok result =>
    refine .inr ⟨result,rfl,?_⟩
    dsimp only
    split_ifs with hdata hskip
    · exact .inl rfl
    · exact .inl rfl
    · have hwanted : wanted result.1 block result.2=true := by
        unfold wanted goodUnrequested
        rw [Bool.eq_false_of_not_eq_true hdata]
        cases hasked : block.fRequested with
        | true => rfl
        | false =>
          rw [hasked] at hskip
          cases htip : result.1.tip with
          | none =>
            rw [htip] at hskip
            simpa using hskip
          | some pindexTip =>
            rw [htip] at hskip
            simpa [and_assoc] using hskip
      cases hcheck : block.check with
      | stored => exact .inr ⟨hwanted,.inr ⟨rfl,rfl⟩⟩
      | invalid => exact .inr ⟨hwanted,.inl rfl⟩
      | corrupted => exact .inl rfl
      | systemError => exact .inl rfl

theorem Rooted.genesis_pprev (hrooted : Rooted hashGenesis st) (hsound : SoundTree st)
    {genesis : CBlockIndex} (hfind : st.find hashGenesis=some genesis) :
    genesis.pprev=[] := by
  have hlast := hrooted _ _ hfind
  have hhash := hsound.hash hfind
  cases hpprev : genesis.pprev with
  | nil => rfl
  | cons hashPrev before =>
    rw [branch,hpprev,getLast?_cons_cons] at hlast
    obtain ⟨after,rest,hsplit⟩ := append_of_mem (mem_of_getLast? hlast)
    have hbranch : genesis.branch=(genesis.hash::after)++hashGenesis::rest := by
      rw [branch,hpprev,hsplit,cons_append]
    obtain ⟨other,hother,hrest⟩ := hsound.find_of_append hfind hbranch
    grind

theorem branch_of_modify {hash other : ℕ} {change : CBlockIndex → CBlockIndex}
    {entry : CBlockIndex} (hfind : (st.modify hash change).find other=some entry)
    (hbranch : ∀ pindex, (change pindex).branch=pindex.branch) :
    ∃ before, st.find other=some before ∧ entry.branch=before.branch := by
  rw [find_modify] at hfind
  split_ifs at hfind
  · obtain ⟨before,hbefore,rfl⟩ := Option.map_eq_some_iff.mp hfind
    exact ⟨before,hbefore,hbranch before⟩
  · exact ⟨entry,hfind,rfl⟩

theorem branch_of_primitive {clears : Prop} {next : ChainState}
    (hstep : Primitive clears st next) {hash : ℕ} {entry : CBlockIndex}
    (hfind : next.find hash=some entry) :
    ∃ before, st.find hash=some before ∧ entry.branch=before.branch := by
  cases hstep with
  | chain _ => exact ⟨entry,hfind,rfl⟩
  | status _ _ => exact branch_of_modify hfind (fun _ => rfl)
  | sequence => exact branch_of_modify hfind (fun _ => rfl)
  | numbers => exact ⟨entry,hfind,rfl⟩
  | drop _ => exact ⟨entry,hfind,rfl⟩
  | cand _ _ => exact ⟨entry,hfind,rfl⟩
  | missing _ hmap _ => exact ⟨entry,(find_of_map hmap hash).symm.trans hfind,rfl⟩

theorem Rooted.primitives {clears : Prop} {next : ChainState}
    (hrooted : Rooted hashGenesis st) (hsteps : Primitives clears st next) :
    Rooted hashGenesis next := by
  induction hsteps with
  | refl => exact hrooted
  | tail _ hstep ih => exact ih.of_branches (fun hfind => branch_of_primitive hstep hfind)

theorem Rooted.linkNext (hrooted : Rooted hashGenesis st) {queue : List ℕ} {hash : ℕ}
    (hlinks : Links strays (hash::queue) st) :
    Rooted hashGenesis (BlockLinks.linkNext st hash) := by
  obtain ⟨pindex,hidx,-⟩ := hlinks.queued mem_cons_self
  refine hrooted.of_branches (fun {other entry} hfind => ?_)
  have hnext := find_linkBlock hidx other
  rw [show (BlockLinks.linkNext st hash).find other=_ from hnext] at hfind
  split_ifs at hfind with heq
  · cases hfind
    exact ⟨pindex,heq ▸ hidx,rfl⟩
  · exact ⟨entry,hfind,rfl⟩

theorem Rooted.receive (hrooted : Rooted hashGenesis st) (hash nTx : ℕ) :
    Rooted hashGenesis (st.modify hash (receivedIndex nTx)) :=
  hrooted.of_branches (fun hfind => branch_of_modify hfind (fun _ => rfl))

/-- A tree that is sound, with one root and blocks that are linked. -/
structure LinkedTree (strays : Prop) (hashGenesis : ℕ) (st : ChainState) : Prop where
  sound : SoundTree st
  rooted : Rooted hashGenesis st
  links : Links strays [] st

theorem LinkedTree.primitives {clears : Prop} {next : ChainState}
    (htree : LinkedTree strays hashGenesis st) (hclears : strays → ¬clears)
    (hsteps : Primitives clears st next) : LinkedTree strays hashGenesis next :=
  ⟨htree.sound.primitives hsteps,htree.rooted.primitives hsteps,
    htree.links.primitives htree.sound hclears hsteps⟩

theorem LinkedTree.acceptBlockHeader (htree : LinkedTree strays hashGenesis st)
    (haccept : BlockTree.acceptBlockHeader hashGenesis st block=.ok result) :
    LinkedTree strays hashGenesis result.1 :=
  ⟨htree.sound.effects (@effects_acceptBlockHeader False _ _ _ _ haccept),
    htree.rooted.acceptBlockHeader haccept,htree.links.acceptBlockHeader haccept⟩

theorem acceptBlockHeader_prev (htree : LinkedTree strays hashGenesis st)
    (haccept : acceptBlockHeader hashGenesis st block=.ok result) {hashPrev : ℕ}
    {pindexPrev : CBlockIndex} (hhead : result.2.pprev.head?=some hashPrev)
    (hfindPrev : result.1.find hashPrev=some pindexPrev)
    (hfail : pindexPrev.nStatus.failed=true) :
    result.1=st ∧ st.find block.hash=some result.2 ∧ result.2.nStatus.failed=false := by
  rcases acceptBlockHeader_ok haccept with ⟨hsame,hfind,hunfailed⟩ | ⟨hnone,hadd,hafter⟩
  · refine ⟨hsame,hfind,hunfailed.resolve_left (fun hgenesis => ?_)⟩
    rw [hgenesis] at hfind
    rw [htree.rooted.genesis_pprev htree.sound hfind] at hhead
    cases hhead
  · exfalso
    rw [hadd] at hhead hfindPrev
    unfold addToBlockIndex at hhead hfindPrev
    rw [hnone] at hhead hfindPrev
    cases hprev : st.find block.hashPrevBlock with
    | none =>
      rw [hprev] at hhead
      cases hhead
    | some pindexBefore =>
      rw [hprev] at hhead hfindPrev
      have hhash : pindexBefore.hash=hashPrev := Option.some.inj hhead
      rw [htree.sound.hash hprev] at hhash
      rw [find_of_insert hnone rfl (hhash ▸ hprev)] at hfindPrev
      cases hfindPrev
      rcases hafter with hgenesis | ⟨other,hother,hunfailed⟩
      · obtain ⟨genesis,hknown⟩ := htree.rooted.genesis_known htree.sound hprev
        rw [hgenesis,hknown] at hnone
        cases hnone
      · rw [hprev] at hother
        cases hother
        rw [hunfailed] at hfail
        cases hfail

end Calls

/-- Every call of a run meets a condition where it is made. -/
def RunMeets (condition : ChainState → ChainCall → Prop) (hashGenesis : ℕ) :
    ChainState → List ChainCall → Prop
  | _,[] => True
  | st,call::calls => condition st call ∧
      RunMeets condition hashGenesis (perform hashGenesis st call) calls

theorem runCalls_invariant {condition : ChainState → ChainCall → Prop} {hashGenesis : ℕ}
    {holds : ChainState → Prop}
    (hcall : ∀ {st call}, holds st → condition st call →
      holds (perform hashGenesis st call))
    {st : ChainState} {calls : List ChainCall} (hholds : holds st)
    (hrun : RunMeets condition hashGenesis st calls) :
    holds (runCalls hashGenesis st calls) := by
  induction calls generalizing st with
  | nil => exact hholds
  | cons call calls ih =>
    obtain ⟨hmeets,hrest⟩ := hrun
    exact ih (hcall hholds hmeets) hrest

/-- No block is known yet. -/
def noBlocks : ChainState where
  mapBlockIndex := .empty
  chainActive := []
  setBlockIndexCandidates := []
  mapBlocksUnlinked := []

theorem find_noBlocks (hash : ℕ) : noBlocks.find hash=none :=
  OrderedMap.find_empty hash

theorem linkedTree_noBlocks (strays : Prop) (hashGenesis : ℕ) :
    LinkedTree strays hashGenesis noBlocks := by
  have hnone : ∀ {hash pindex} {holds : Prop}, noBlocks.find hash=some pindex → holds := by
    intro hash pindex holds hfind
    rw [find_noBlocks] at hfind
    cases hfind
  exact ⟨⟨hnone,fun hfind => hnone hfind,.inl rfl⟩,fun hash pindex hfind => hnone hfind,
    ⟨hnone,hnone,fun hfind => hnone hfind,fun hfind => hnone hfind,
      fun hmem => absurd hmem not_mem_nil,fun hmem => absurd hmem not_mem_nil,
      nodup_nil,fun hmem => absurd hmem not_mem_nil⟩⟩

end Pyrk.BlockLinks
