import Pyrk.ChainActivation

/-!
# What the calls do to the tree

Every call is a sequence of a few effects, which keep the tree sound. Unless flags may be cleared,
a block is marked only for a failed block on its branch.
-/

namespace Pyrk.ChainEffects

open BlockTree ChainActivation List Bool ChainState

/-- The blocks before a block are in the tree, and the active chain is a
branch. -/
structure SoundTree (st : ChainState) : Prop where
  hash : ∀ {hash : ℕ} {pindex : CBlockIndex}, st.find hash=some pindex → pindex.hash=hash
  /-- The block before a block has the rest of its branch. -/
  parent : ∀ {hash hashPrev : ℕ} {pindex : CBlockIndex} {before : List ℕ},
    st.find hash=some pindex → pindex.pprev=hashPrev::before →
      ∃ pindexPrev, st.find hashPrev=some pindexPrev ∧ pindexPrev.pprev=before
  /-- The active chain is empty or the branch of a block. -/
  active : st.chainActive=[] ∨
    ∃ hash pindex, st.find hash=some pindex ∧ st.chainActive=pindex.branch

/-- No failure is forgotten, and a new flag has a failed block on the branch. -/
structure FlagsKept (st : ChainState) (pindex changed : CBlockIndex) : Prop where
  kept : pindex.nStatus.failedValid=true → changed.nStatus.failedValid=true
  /-- A flag is old, or it is a failure, or there is a flag on the branch. -/
  justified : changed.nStatus.failed=true →
    pindex.nStatus.failed=true ∨ changed.nStatus.failedValid=true ∨
      ∃ hash∈pindex.branch, ∃ other, st.find hash=some other ∧ other.nStatus.failed=true

inductive Effect (clears : Prop) (st next : ChainState) : Prop where
  | other (hmap : next.mapBlockIndex=st.mapBlockIndex)
      (hchain : next.chainActive=st.chainActive)
  | chain (hmap : next.mapBlockIndex=st.mapBlockIndex)
      (hchain : next.chainActive=[] ∨
        ∃ hash pindex, st.find hash=some pindex ∧ next.chainActive=pindex.branch)
  | update {hash : ℕ} {pindex changed : CBlockIndex} (hfind : st.find hash=some pindex)
      (hmap : next.mapBlockIndex=st.mapBlockIndex.set hash changed)
      (hchain : next.chainActive=st.chainActive) (hbranch : changed.branch=pindex.branch)
      (hflags : clears ∨ FlagsKept st pindex changed)
  | insert {hash : ℕ} {pindexNew : CBlockIndex} (hnone : st.find hash=none)
      (hmap : next.mapBlockIndex=st.mapBlockIndex.set hash pindexNew)
      (hchain : next.chainActive=st.chainActive) (hhash : pindexNew.hash=hash)
      (hprev : pindexNew.pprev=[] ∨ ∃ hashPrev pindexPrev,
        st.find hashPrev=some pindexPrev ∧ pindexNew.pprev=pindexPrev.branch)
      (hflags : pindexNew.nStatus.failed=false)

/-- Effects one after the other. -/
abbrev Effects (clears : Prop) : ChainState → ChainState → Prop :=
  Relation.ReflTransGen (Effect clears)

section Tree

variable {clears : Prop} {st next : ChainState}

theorem find_of_set {hash : ℕ} {changed : CBlockIndex}
    (hmap : next.mapBlockIndex=st.mapBlockIndex.set hash changed) (other : ℕ) :
    next.find other=if other=hash then some changed else st.find other := by
  unfold ChainState.find
  rw [hmap,OrderedMap.find_set]

section

variable (hsound : SoundTree st)

include hsound

/-- Every block of a branch is known, with the rest as its own branch. -/
theorem SoundTree.find_of_append {hash before : ℕ}
    {pindex : CBlockIndex} {after rest : List ℕ} (hfind : st.find hash=some pindex)
    (hbranch : pindex.branch=after++before::rest) :
    ∃ other, st.find before=some other ∧ other.branch=before::rest := by
  induction after generalizing hash pindex with
  | nil =>
    have hself : pindex.hash=before := head_eq_of_cons_eq hbranch
    rw [hsound.hash hfind] at hself
    exact ⟨pindex,hself ▸ hfind,hbranch⟩
  | cons first after ih =>
    have hpprev : pindex.pprev=after++before::rest := tail_eq_of_cons_eq hbranch
    obtain ⟨hashPrev,others,hcons⟩ : ∃ hashPrev others, pindex.pprev=hashPrev::others :=
      exists_cons_of_ne_nil (by rw [hpprev]; simp)
    obtain ⟨pindexPrev,hfindPrev,hothers⟩ := hsound.parent hfind hcons
    refine ih hfindPrev ?_
    rw [CBlockIndex.branch,hsound.hash hfindPrev,hothers,← hcons,hpprev]

theorem SoundTree.find_of_mem {hash before : ℕ} {pindex : CBlockIndex}
    (hfind : st.find hash=some pindex) (hmem : before∈pindex.branch) :
    ∃ other, st.find before=some other ∧ other.branch <:+ pindex.branch := by
  obtain ⟨after,rest,hbranch⟩ := append_of_mem hmem
  obtain ⟨other,hother,hrest⟩ := hsound.find_of_append hfind hbranch
  exact ⟨other,hother,after,by rw [hrest,hbranch]⟩

theorem SoundTree.tip_branch {hash : ℕ} {before : List ℕ}
    (hact : st.chainActive=hash::before) :
    ∃ pindex, st.find hash=some pindex ∧ pindex.branch=hash::before := by
  rcases hsound.active with hnone | ⟨other,pindex,hfind,hbranch⟩
  · rw [hnone] at hact
    cases hact
  · rw [hact] at hbranch
    have hself : hash=pindex.hash := head_eq_of_cons_eq hbranch
    rw [hself,hsound.hash hfind]
    refine ⟨pindex,hfind,?_⟩
    rw [← hbranch,hself,hsound.hash hfind]

/-- Blocks of the active chain are known. -/
theorem SoundTree.find_active {hash : ℕ}
    (hmem : hash∈st.chainActive) : ∃ pindex, st.find hash=some pindex := by
  rcases hsound.active with hnil | ⟨hashTip,pindexTip,hfindTip,hbranch⟩
  · rw [hnil] at hmem
    cases hmem
  · rw [hbranch] at hmem
    obtain ⟨pindex,hfind,-⟩ := hsound.find_of_mem hfindTip hmem
    exact ⟨pindex,hfind⟩

theorem SoundTree.tail_branch :
    st.chainActive.tail=[] ∨
      ∃ hash pindex, st.find hash=some pindex ∧ st.chainActive.tail=pindex.branch := by
  cases hact : st.chainActive with
  | nil => exact .inl rfl
  | cons hash before =>
    cases before with
    | nil => exact .inl rfl
    | cons hashPrev others =>
      obtain ⟨pindex,hfind,hbranch⟩ := hsound.tip_branch hact
      obtain ⟨other,hother,hrest⟩ := @SoundTree.find_of_append st hsound hash hashPrev pindex
        [hash] others hfind hbranch
      exact .inr ⟨hashPrev,other,hother,hrest.symm⟩

/-- A tree with the same branches is sound as well. -/
theorem SoundTree.of_branches (hold : ∀ {hash entry}, next.find hash=some entry →
      ∃ before, st.find hash=some before ∧ entry.branch=before.branch)
    (hnew : ∀ {hash entry}, st.find hash=some entry →
      ∃ after, next.find hash=some after ∧ after.branch=entry.branch)
    (hact : next.chainActive=[] ∨
      ∃ hash pindex, st.find hash=some pindex ∧ next.chainActive=pindex.branch) :
    SoundTree next := by
  refine ⟨?_,?_,?_⟩
  · intro hash entry h
    obtain ⟨before,hbefore,heq⟩ := hold h
    rw [head_eq_of_cons_eq heq]
    exact hsound.hash hbefore
  · intro hash hashPrev entry before h hprev
    obtain ⟨old,hfound,heq⟩ := hold h
    have hrest : entry.pprev=old.pprev := tail_eq_of_cons_eq heq
    obtain ⟨pindexPrev,hfindPrev,hbefore⟩ := hsound.parent hfound (hrest ▸ hprev)
    obtain ⟨after,hafter,hsame⟩ := hnew hfindPrev
    exact ⟨after,hafter,(tail_eq_of_cons_eq hsame).trans hbefore⟩
  · grind

end

theorem find_of_map (hmap : next.mapBlockIndex=st.mapBlockIndex) (hash : ℕ) :
    next.find hash=st.find hash := by
  rw [ChainState.find,hmap,ChainState.find]

theorem SoundTree.of_map (hsound : SoundTree st) (hmap : next.mapBlockIndex=st.mapBlockIndex)
    (hchain : next.chainActive=[] ∨
      ∃ hash pindex, st.find hash=some pindex ∧ next.chainActive=pindex.branch) :
    SoundTree next := by
  have hfind := find_of_map hmap
  exact hsound.of_branches (fun {hash entry} h => ⟨entry,(hfind hash).symm.trans h,rfl⟩)
    (fun {hash entry} h => ⟨entry,(hfind hash).trans h,rfl⟩) hchain

theorem SoundTree.update (hsound : SoundTree st) {hash : ℕ} {pindex changed : CBlockIndex}
    (hfind : st.find hash=some pindex)
    (hmap : next.mapBlockIndex=st.mapBlockIndex.set hash changed)
    (hchain : next.chainActive=st.chainActive) (hbranch : changed.branch=pindex.branch) :
    SoundTree next := by
  have hnext := find_of_set hmap
  refine hsound.of_branches ?_ ?_ (hchain ▸ hsound.active)
  · grind
  · grind

theorem find_of_insert {hash : ℕ} {pindexNew : CBlockIndex} (hnone : st.find hash=none)
    (hmap : next.mapBlockIndex=st.mapBlockIndex.set hash pindexNew) {other : ℕ}
    {entry : CBlockIndex} (hother : st.find other=some entry) : next.find other=some entry := by
  have hne : other≠hash := by
    rintro rfl
    rw [hnone] at hother
    cases hother
  rw [find_of_set hmap,if_neg hne,hother]

/-- A new block on a known one keeps the tree sound. -/
theorem SoundTree.insert (hsound : SoundTree st) {hash : ℕ} {pindexNew : CBlockIndex}
    (hnone : st.find hash=none)
    (hmap : next.mapBlockIndex=st.mapBlockIndex.set hash pindexNew)
    (hchain : next.chainActive=st.chainActive) (hhash : pindexNew.hash=hash)
    (hprev : pindexNew.pprev=[] ∨ ∃ hashPrev pindexPrev,
      st.find hashPrev=some pindexPrev ∧ pindexNew.pprev=pindexPrev.branch) :
    SoundTree next := by
  have hnext := find_of_set hmap
  refine ⟨?_,?_,?_⟩
  · intro other entry h
    rw [hnext] at h
    split_ifs at h with heq
    · cases h
      exact hhash.trans heq.symm
    · exact hsound.hash h
  · intro other hashPrev entry before h hbefore
    rw [hnext] at h
    split_ifs at h with heq
    · cases h
      rcases hprev with hroot | ⟨hashBefore,pindexPrev,hfindPrev,hbranch⟩
      · rw [hroot] at hbefore
        cases hbefore
      · rw [hbranch] at hbefore
        have hself : pindexPrev.hash=hashPrev := head_eq_of_cons_eq hbefore
        rw [hsound.hash hfindPrev] at hself
        exact ⟨pindexPrev,hself ▸ find_of_insert hnone hmap hfindPrev,tail_eq_of_cons_eq hbefore⟩
    · obtain ⟨pindexPrev,hfindPrev,hrest⟩ := hsound.parent h hbefore
      exact ⟨pindexPrev,find_of_insert hnone hmap hfindPrev,hrest⟩
  · rw [hchain]
    refine hsound.active.imp_right ?_
    rintro ⟨other,entry,h,heq⟩
    exact ⟨other,entry,find_of_insert hnone hmap h,heq⟩

theorem SoundTree.effect (hsound : SoundTree st) (heffect : Effect clears st next) :
    SoundTree next := by
  cases heffect with
  | other hmap hchain => exact hsound.of_map hmap (hchain ▸ hsound.active)
  | chain hmap hchain => exact hsound.of_map hmap hchain
  | update hfind hmap hchain hbranch _ => exact hsound.update hfind hmap hchain hbranch
  | insert hnone hmap hchain hhash hprev _ => exact hsound.insert hnone hmap hchain hhash hprev

/-- Changes one after another. -/
theorem SoundTree.effects (hsound : SoundTree st) (heffects : Effects clears st next) :
    SoundTree next := by
  induction heffects with
  | refl => exact hsound
  | tail _ heffect ih => exact ih.effect heffect

end Tree

section Primitive

variable {clears : Prop} {st next : ChainState}

theorem find_modify (st : ChainState) (hash : ℕ) (change : CBlockIndex → CBlockIndex)
    (other : ℕ) : (st.modify hash change).find other=
      if other=hash then (st.find other).map change else st.find other := by
  unfold ChainState.modify
  cases hfind : st.find hash with
  | none =>
    split_ifs with heq
    · rw [heq,hfind]
      rfl
    · rfl
  | some pindex =>
    rw [find_of_set rfl]
    split_ifs with heq
    · rw [heq,hfind]
      rfl
    · rfl

theorem chainActive_modify (st : ChainState) (hash : ℕ) (change : CBlockIndex → CBlockIndex) :
    (st.modify hash change).chainActive=st.chainActive := by
  unfold ChainState.modify
  cases st.find hash with
  | none => rfl
  | some pindex => rfl

theorem effects_other (hmap : next.mapBlockIndex=st.mapBlockIndex)
    (hchain : next.chainActive=st.chainActive) : Effects clears st next :=
  .single (.other hmap hchain)

/-- An entry that keeps its branch and marks is changed. -/
theorem effects_modify {hash : ℕ} {change : CBlockIndex → CBlockIndex}
    (hbranch : ∀ pindex, (change pindex).branch=pindex.branch)
    (hflags : ∀ pindex, st.find hash=some pindex →
      clears ∨ FlagsKept st pindex (change pindex)) :
    Effects clears st (st.modify hash change) := by
  unfold ChainState.modify
  cases hfind : st.find hash with
  | none => exact .refl
  | some pindex =>
    exact .single (.update hfind rfl rfl (hbranch pindex) (hflags pindex hfind))

theorem flagsKept_of_same {pindex changed : CBlockIndex}
    (hvalid : changed.nStatus.failedValid=pindex.nStatus.failedValid)
    (hchild : changed.nStatus.failedChild=pindex.nStatus.failedChild) :
    FlagsKept st pindex changed := by
  refine ⟨fun h => hvalid.trans h,fun h => .inl ?_⟩
  rwa [BlockStatus.failed,hvalid,hchild] at h

theorem flags_raiseValidity (nStatus : BlockStatus) (nUpTo : Validity) :
    (nStatus.raiseValidity nUpTo).failedValid=nStatus.failedValid ∧
      (nStatus.raiseValidity nUpTo).failedChild=nStatus.failedChild := by
  unfold BlockStatus.raiseValidity
  split_ifs <;> exact ⟨rfl,rfl⟩

theorem effects_markFailedValid (hash : ℕ) : Effects clears st (st.markFailedValid hash) :=
  effects_modify (fun _ => rfl) (fun _ _ => .inr ⟨fun _ => rfl,fun _ => .inr (.inl rfl)⟩)

theorem failedValid_effect (heffect : Effect False st next) {hash : ℕ} {pindex : CBlockIndex}
    (hfind : st.find hash=some pindex) (hfail : pindex.nStatus.failedValid=true) :
    ∃ kept, next.find hash=some kept ∧ kept.nStatus.failedValid=true := by
  cases heffect with
  | other hmap _ => exact ⟨pindex,(find_of_map hmap hash).trans hfind,hfail⟩
  | chain hmap _ => exact ⟨pindex,(find_of_map hmap hash).trans hfind,hfail⟩
  | @update other old changed hother hmap _ _ hflags =>
    rw [find_of_set hmap]
    split_ifs with heq
    · rw [heq,hother] at hfind
      cases hfind
      exact ⟨changed,rfl,(hflags.resolve_left not_false).kept hfail⟩
    · exact ⟨pindex,hfind,hfail⟩
  | @insert other pindexNew hnone hmap _ _ _ _ =>
    rw [find_of_set hmap]
    grind

/-- Marks of failed blocks stay while no call clears them. -/
theorem failedValid_effects (heffects : Effects False st next) {hash : ℕ}
    {pindex : CBlockIndex} (hfind : st.find hash=some pindex)
    (hfail : pindex.nStatus.failedValid=true) :
    ∃ kept, next.find hash=some kept ∧ kept.nStatus.failedValid=true := by
  induction heffects with
  | refl => exact ⟨pindex,hfind,hfail⟩
  | tail _ heffect ih =>
    obtain ⟨kept,hkept,hflag⟩ := ih
    exact failedValid_effect heffect hkept hflag

end Primitive

section Accept

variable {clears : Prop} {hashGenesis : ℕ} {st next : ChainState}

theorem effects_linkBlock (hash : ℕ) : Effects clears st (linkBlock st hash) := by
  unfold linkBlock
  cases hfind : st.find hash with
  | none => exact .refl
  | some pindex =>
    dsimp only
    split_ifs
    all_goals exact .single (.update hfind rfl rfl rfl (.inr (flagsKept_of_same rfl rfl)))

theorem effects_linkBlocks (rounds : ℕ) (st : ChainState) (queue : List ℕ) :
    Effects clears st (linkBlocks rounds st queue) := by
  induction rounds generalizing st queue with
  | zero => exact .refl
  | succ rounds ih =>
    cases queue with
    | nil => exact .refl
    | cons hash queue =>
      refine (effects_linkBlock hash).trans (Relation.ReflTransGen.trans ?_ (ih _ _))
      exact effects_other rfl rfl

/-- The transactions of a block come. -/
theorem effects_receivedBlockTransactions (hash nTx : ℕ) :
    Effects clears st (receivedBlockTransactions st hash nTx) := by
  have hmodify : Effects clears st (st.modify hash (fun pindex =>
      { pindex with
        nTx := nTx
        nChainTx := 0
        nStatus := { pindex.nStatus with haveData := true }.raiseValidity .transactions })) := by
    refine effects_modify (fun _ => rfl) ?_
    intro pindex _
    obtain ⟨hvalid,hchild⟩ :=
      flags_raiseValidity { pindex.nStatus with haveData := true } .transactions
    exact .inr (flagsKept_of_same hvalid hchild)
  unfold receivedBlockTransactions
  dsimp only
  refine hmodify.trans ?_
  split
  · exact .refl
  · split
    · exact effects_linkBlocks _ _ _
    · split
      · exact .refl
      · split_ifs
        · exact effects_linkBlocks _ _ _
        · exact effects_other rfl rfl
        · exact .refl

theorem effects_addToBlockIndex (block : HeaderArrival) :
    Effects clears st (addToBlockIndex st block).1 := by
  unfold addToBlockIndex
  cases hfind : st.find block.hash with
  | some pindex => exact .refl
  | none =>
    cases hprev : st.find block.hashPrevBlock with
    | none => exact .single (.insert hfind rfl rfl rfl (.inl rfl) rfl)
    | some pindexPrev =>
      exact .single (.insert hfind rfl rfl rfl (.inr ⟨_,pindexPrev,hprev,rfl⟩) rfl)

/-- An accepted header was known already, or is new behind one that has not failed. -/
theorem acceptBlockHeader_ok {block : HeaderArrival} {result : ChainState×CBlockIndex}
    (haccept : acceptBlockHeader hashGenesis st block=.ok result) :
    (result.1=st ∧ st.find block.hash=some result.2 ∧
      (block.hash=hashGenesis ∨ result.2.nStatus.failed=false)) ∨
    (st.find block.hash=none ∧ result=addToBlockIndex st block ∧
      (block.hash=hashGenesis ∨ ∃ pindexPrev,
        st.find block.hashPrevBlock=some pindexPrev ∧ pindexPrev.nStatus.failed=false)) := by
  unfold acceptBlockHeader at haccept
  split_ifs at haccept with hgenesis
  · have hres := Except.ok.inj haccept
    cases hfind : st.find block.hash with
    | none => exact .inr ⟨rfl,hres.symm,.inl hgenesis⟩
    | some pindex =>
      unfold addToBlockIndex at hres
      rw [hfind] at hres
      rw [← hres]
      exact .inl ⟨rfl,rfl,.inl hgenesis⟩
  · split at haccept
    next known hfind =>
      grind
    next hfind =>
      obtain ⟨-,-,haccept⟩ := bind_eq_ok.mp haccept
      split at haccept
      · cases haccept
      next pindexPrev hprev =>
        split_ifs at haccept with hfail
        obtain ⟨-,-,haccept⟩ := bind_eq_ok.mp haccept
        exact .inr ⟨hfind,(Except.ok.inj haccept).symm,
          .inr ⟨pindexPrev,hprev,eq_false_of_not_eq_true hfail⟩⟩

theorem effects_acceptBlockHeader {block : HeaderArrival} {result : ChainState×CBlockIndex}
    (haccept : acceptBlockHeader hashGenesis st block=.ok result) :
    Effects clears st result.1 := by
  rcases acceptBlockHeader_ok haccept with ⟨hsame,-⟩ | ⟨-,hadd,-⟩
  · rw [hsame]
  · rw [hadd]
    exact effects_addToBlockIndex block

/-- A block that is accepted or not. -/
theorem effects_acceptBlock (block : BlockArrival) :
    Effects clears st (acceptBlock hashGenesis st block).2 := by
  unfold acceptBlock
  cases haccept : acceptBlockHeader hashGenesis st block.header with
  | error reject => exact .refl
  | ok result =>
    have hheader := @effects_acceptBlockHeader clears _ _ _ _ haccept
    dsimp only
    split_ifs
    · exact hheader
    · exact hheader
    · cases block.check with
      | stored => exact hheader.trans (effects_receivedBlockTransactions _ _)
      | invalid => exact hheader.trans (effects_markFailedValid _)
      | corrupted => exact hheader
      | systemError => exact hheader

end Accept

/-- What a change of status keeps: data, undo data and the stage. -/
structure StageKept (nStatus changed : BlockStatus) : Prop where
  haveData : changed.haveData=nStatus.haveData
  haveUndo : nStatus.haveUndo=true → changed.haveUndo=true
  validity : nStatus.validity.level ≤ changed.validity.level

/-- One step of the calls that bring no header and no block. -/
inductive Primitive (clears : Prop) (st : ChainState) : ChainState → Prop where
  | chain {chainActive : List ℕ} (hchain : chainActive=[] ∨
      ∃ hash pindex, st.find hash=some pindex ∧ chainActive=pindex.branch) :
      Primitive clears st { st with chainActive := chainActive }
  | status {hash : ℕ} {change : BlockStatus → BlockStatus}
      (hkept : ∀ nStatus, StageKept nStatus (change nStatus))
      (hflags : ∀ pindex, st.find hash=some pindex →
        clears ∨ FlagsKept st pindex { pindex with nStatus := change pindex.nStatus }) :
      Primitive clears st (st.setStatus hash change)
  | sequence {hash : ℕ} {nSequenceId : ℤ} :
      Primitive clears st
        (st.modify hash (fun pindex => { pindex with nSequenceId := nSequenceId }))
  | numbers {nWork : ℕ} {nReverse : ℤ} :
      Primitive clears st
        { st with nLastPreciousChainwork := nWork,nBlockReverseSequenceId := nReverse }
  | drop {candidates : List ℕ} (hsub : candidates ⊆ st.setBlockIndexCandidates) :
      Primitive clears st { st with setBlockIndexCandidates := candidates }
  /-- A block with all transactions becomes a candidate. -/
  | cand {hash : ℕ} {pindex : CBlockIndex} (hfind : st.find hash=some pindex)
      (hfull : pindex.nChainTx≠0) : Primitive clears st (st.insertCandidate hash)
  /-- A candidate waits for data that is missing on its branch. -/
  | missing {next : ChainState}
      (hmissing : ∃ hash∈st.setBlockIndexCandidates, ∃ pindex, st.find hash=some pindex ∧
        ∃ before∈pindex.branch, ∃ other, st.find before=some other ∧
          other.nStatus.haveData=false)
      (hmap : next.mapBlockIndex=st.mapBlockIndex)
      (hchain : next.chainActive=st.chainActive) : Primitive clears st next

/-- Steps one after the other. -/
abbrev Primitives (clears : Prop) : ChainState → ChainState → Prop :=
  Relation.ReflTransGen (Primitive clears)

section Primitives

variable {clears : Prop} {st next : ChainState}

theorem Primitive.effects (hstep : Primitive clears st next) : Effects clears st next := by
  cases hstep with
  | chain hchain => exact .single (.chain rfl hchain)
  | status _ hflags => exact effects_modify (fun _ => rfl) hflags
  | sequence =>
    exact effects_modify (fun _ => rfl) (fun _ _ => .inr (flagsKept_of_same rfl rfl))
  | numbers => exact effects_other rfl rfl
  | drop _ => exact effects_other rfl rfl
  | cand _ _ => exact effects_other rfl rfl
  | missing _ hmap hchain => exact effects_other hmap hchain

/-- What the primitives do to the tree. -/
theorem Primitives.effects (hsteps : Primitives clears st next) : Effects clears st next := by
  induction hsteps with
  | refl => exact .refl
  | tail _ hstep ih => exact ih.trans hstep.effects

theorem SoundTree.primitives (hsound : SoundTree st) (hsteps : Primitives clears st next) :
    SoundTree next :=
  hsound.effects hsteps.effects

theorem stageKept_raiseValidity (nStatus : BlockStatus) (nUpTo : Validity) :
    StageKept nStatus (nStatus.raiseValidity nUpTo) := by
  unfold BlockStatus.raiseValidity
  split_ifs with hfail hlower
  · exact ⟨rfl,id,le_rfl⟩
  · exact ⟨rfl,id,hlower.le⟩
  · exact ⟨rfl,id,le_rfl⟩

theorem primitives_markFailedValid (hash : ℕ) :
    Primitives clears st (st.markFailedValid hash) :=
  .single (.status (fun _ => ⟨rfl,id,le_rfl⟩)
    (fun _ _ => .inr ⟨fun _ => rfl,fun _ => .inr (.inl rfl)⟩))

theorem primitives_markFailedChild {hash : ℕ} (hfail : ∀ pindex, st.find hash=some pindex →
      ∃ before∈pindex.branch, ∃ other, st.find before=some other ∧ other.nStatus.failed=true) :
    Primitives clears st (st.markFailedChild hash) :=
  .single (.status (fun _ => ⟨rfl,id,le_rfl⟩)
    (fun pindex hfind => .inr ⟨id,fun _ => .inr (.inr (hfail pindex hfind))⟩))

theorem primitives_eraseCandidate (hash : ℕ) :
    Primitives clears st (st.eraseCandidate hash) :=
  .single (.drop (filter_sublist.subset))

theorem primitives_prune : Primitives clears st (pruneBlockIndexCandidates st) :=
  .single (.drop (filter_sublist.subset))

/-- A loop whose rounds are primitives. -/
theorem primitives_foldl {α : Type} {step : ChainState → α → ChainState}
    {holds : ChainState → Prop} {inputs : List α}
    (hstep : ∀ st, holds st → ∀ input∈inputs,
      Primitives clears st (step st input) ∧ holds (step st input))
    (st : ChainState) (hholds : holds st) :
    Primitives clears st (inputs.foldl step st) ∧ holds (inputs.foldl step st) := by
  induction inputs generalizing st with
  | nil => exact ⟨.refl,hholds⟩
  | cons input inputs ih =>
    obtain ⟨hfirst,hnext⟩ := hstep st hholds input mem_cons_self
    obtain ⟨hrest,hend⟩ := ih (fun st h other hm => hstep st h other
      (mem_cons_of_mem _ hm)) _ hnext
    exact ⟨hfirst.trans hrest,hend⟩

end Primitives

variable {clears : Prop} {st : ChainState} {progress : Progress}

theorem state_next (progress : Progress) : progress.next.2.st=progress.st := by
  unfold Progress.next
  cases progress.outcomes with
  | nil => rfl
  | cons outcome outcomes => rfl

theorem primitives_disconnectTip (hsound : SoundTree progress.st) :
    Primitives clears progress.st (disconnectTip progress).2.st := by
  have hstate := state_next progress
  unfold disconnectTip
  split
  next rest hnext =>
    rw [hnext] at hstate
    rw [← hstate] at hsound ⊢
    exact .single (.chain hsound.tail_branch)
  next hnext =>
    rw [hnext] at hstate
    rw [← hstate]

theorem stageKept_connectedStatus (nStatus : BlockStatus) :
    StageKept nStatus (connectedStatus nStatus) := by
  have hraise := stageKept_raiseValidity { nStatus with haveUndo := true } .scripts
  exact ⟨hraise.haveData,fun _ => hraise.haveUndo rfl,hraise.validity⟩

variable {hash : ℕ}

theorem primitives_connectBlock {pindexNew : CBlockIndex}
    (hsound : SoundTree st) (hfind : st.find hash=some pindexNew) :
    Primitives clears st (connectBlock st pindexNew) := by
  unfold connectBlock
  split_ifs
  · exact .single (.chain (.inr ⟨hash,pindexNew,hfind,rfl⟩))
  · have hstat : Primitives clears st (st.setStatus pindexNew.hash connectedStatus) := by
      refine .single (.status stageKept_connectedStatus (fun pindex _ => .inr ?_))
      obtain ⟨hvalid,hchild⟩ :=
        flags_raiseValidity { pindex.nStatus with haveUndo := true } .scripts
      exact flagsKept_of_same hvalid hchild
    refine hstat.trans (.single (.chain (.inr ⟨hash,?_⟩)))
    have hself : hash=pindexNew.hash := (hsound.hash hfind).symm
    refine ⟨{ pindexNew with nStatus := connectedStatus pindexNew.nStatus },?_,rfl⟩
    rw [setStatus,find_modify,if_pos hself,hfind]
    rfl

/-- One block is connected, or found to be invalid. -/
theorem primitives_connectTip {hash : ℕ} {pindexNew : CBlockIndex}
    (hsound : SoundTree progress.st) (hfind : progress.st.find hash=some pindexNew) :
    Primitives clears progress.st (connectTip progress pindexNew).2.st := by
  have hstate := state_next progress
  unfold connectTip
  split
  next rest hnext =>
    rw [hnext] at hstate
    rw [← hstate] at hsound hfind ⊢
    exact primitives_connectBlock hsound hfind
  next rest hnext =>
    rw [hnext] at hstate
    rw [← hstate]
    exact (primitives_markFailedValid _).trans (primitives_eraseCandidate _)
  next hnext =>
    rw [hnext] at hstate
    rw [← hstate]

theorem primitives_disconnectTo (pindexFork : Option ℕ) (blocks : ℕ) {progress : Progress}
    (hsound : SoundTree progress.st) :
    Primitives clears progress.st (disconnectTo pindexFork blocks progress).2.st := by
  induction blocks generalizing progress with
  | zero => exact .refl
  | succ blocks ih =>
    have htip := @primitives_disconnectTip clears progress hsound
    unfold disconnectTo
    split_ifs
    · exact .refl
    · split
      next rest hrest =>
        rw [hrest] at htip
        exact htip.trans (ih (hsound.primitives htip))
      next rest hrest =>
        rw [hrest] at htip
        exact htip

theorem primitives_connectBlocks (nOldWork : Option ℕ) (hashes : List ℕ) {progress : Progress}
    (hsound : SoundTree progress.st) :
    Primitives clears progress.st (connectBlocks nOldWork hashes progress).2.st := by
  induction hashes generalizing progress with
  | nil => exact .refl
  | cons hash hashes ih =>
    unfold connectBlocks
    cases hfind : progress.st.find hash with
    | none => exact .refl
    | some pindexConnect =>
      have hconnect := @primitives_connectTip clears progress _ _ hsound hfind
      dsimp only
      split
      next rest hrest =>
        rw [hrest] at hconnect
        have hprune : Primitives clears progress.st
            (rest.withState (pruneBlockIndexCandidates rest.st)).st :=
          hconnect.trans primitives_prune
        split_ifs
        · exact hprune
        · exact hprune.trans (ih (hsound.primitives hprune))
      all_goals
        next rest hrest =>
          rw [hrest] at hconnect
          exact hconnect

/-- One step towards the best chain. -/
theorem primitives_activateBestChainStep (hsound : SoundTree progress.st)
    (pindexMostWork : CBlockIndex) :
    Primitives clears progress.st (activateBestChainStep progress pindexMostWork).2.st := by
  unfold activateBestChainStep
  dsimp only
  have hdisc := @primitives_disconnectTo clears
    (pindexMostWork.branch.find? (fun hash => hash∈progress.st.chainActive))
    progress.st.chainActive.length progress hsound
  split
  next rest hrest =>
    rw [hrest] at hdisc
    exact hdisc
  next rest hrest =>
    rw [hrest] at hdisc
    exact hdisc.trans (primitives_connectBlocks _ _ (hsound.primitives hdisc))

/-- The best candidate is one of the candidates. -/
theorem bestCandidate_mem {pindex : CBlockIndex} (hbest : bestCandidate st=some pindex) :
    pindex∈st.setBlockIndexCandidates.filterMap st.find := by
  have hfold : ∀ (candidates : List CBlockIndex) (best : Option CBlockIndex),
      candidates.foldl betterCandidate best=some pindex → best=some pindex ∨ pindex∈candidates := by
    intro candidates
    induction candidates with
    | nil => exact fun best h => .inl h
    | cons first candidates ih =>
      intro best h
      rcases ih _ h with hfirst | hrest
      · unfold betterCandidate at hfirst
        cases best with
        | none => exact .inr (Option.some.inj hfirst ▸ mem_cons_self)
        | some other =>
          grind
      · exact .inr (mem_cons_of_mem _ hrest)
  rcases hfold _ _ hbest with hnone | hmem
  · cases hnone
  · exact hmem

theorem append_takeWhile_ne {hashes : List ℕ} (hmem : hash∈hashes) :
    ∃ rest, hashes=hashes.takeWhile (fun other => other≠hash)++hash::rest := by
  induction hashes with
  | nil => cases hmem
  | cons first hashes ih =>
    by_cases heq : first=hash
    · exact ⟨hashes,by simp [heq]⟩
    · obtain ⟨rest,hrest⟩ := ih ((mem_cons.mp hmem).resolve_left (Ne.symm heq))
      refine ⟨rest,?_⟩
      rw [takeWhile_cons_of_pos (by simpa using heq),cons_append,← hrest]

theorem primitives_dropCandidates {hashTest : ℕ} {hashes : List ℕ}
    (hfail : ∃ pindex, st.find hashTest=some pindex ∧ pindex.nStatus.failed=true)
    (hbranch : ∀ hash∈hashes, ∀ pindex, st.find hash=some pindex → hashTest∈pindex.branch) :
    Primitives clears st (hashes.foldl (dropCandidate true) st) := by
  refine (@primitives_foldl clears _ _ (fun st =>
    (∃ pindex, st.find hashTest=some pindex ∧ pindex.nStatus.failed=true) ∧
    ∀ hash∈hashes, ∀ pindex, st.find hash=some pindex → hashTest∈pindex.branch) hashes ?_
    st ⟨hfail,hbranch⟩).1
  rintro st ⟨⟨pindexTest,htest,hflag⟩,hbelow⟩ hash hmem
  have hfind : ∀ other, (dropCandidate true st hash).find other=
      (st.markFailedChild hash).find other := fun _ => rfl
  refine ⟨?_,?_,?_⟩
  · refine Relation.ReflTransGen.trans (primitives_markFailedChild ?_)
      (primitives_eraseCandidate hash)
    intro pindex hidx
    exact ⟨hashTest,hbelow hash hmem pindex hidx,pindexTest,htest,hflag⟩
  · rw [hfind,markFailedChild,setStatus,find_modify,htest]
    split_ifs
    · exact ⟨_,rfl,by simp [BlockStatus.failed]⟩
    · exact ⟨pindexTest,rfl,hflag⟩
  · intro other hother pindex hidx
    rw [hfind,markFailedChild,setStatus,find_modify] at hidx
    split_ifs at hidx
    · obtain ⟨old,hold,rfl⟩ := Option.map_eq_some_iff.mp hidx
      exact hbelow other hother old hold
    · exact hbelow other hother pindex hidx

theorem dropCandidates_missing (hashes : List ℕ) (st : ChainState) :
    (hashes.foldl (dropCandidate false) st).mapBlockIndex=st.mapBlockIndex ∧
      (hashes.foldl (dropCandidate false) st).chainActive=st.chainActive := by
  induction hashes generalizing st with
  | nil => exact ⟨rfl,rfl⟩
  | cons hash hashes ih =>
    have hone : (dropCandidate false st hash).mapBlockIndex=st.mapBlockIndex ∧
        (dropCandidate false st hash).chainActive=st.chainActive := by
      unfold dropCandidate
      simp only [false_eq_true,if_false]
      split <;> exact ⟨rfl,rfl⟩
    obtain ⟨hmap,hchain⟩ := ih (dropCandidate false st hash)
    exact ⟨hmap.trans hone.1,hchain.trans hone.2⟩

theorem mem_branch_of_path (hsound : SoundTree st) {hashNew hashTest hash : ℕ}
    {pindexNew pindex : CBlockIndex} (hnew : st.find hashNew=some pindexNew)
    (htest : hashTest∈pathTo st pindexNew)
    (hbefore : hash∈(pathTo st pindexNew).takeWhile (fun other => other≠hashTest))
    (hfind : st.find hash=some pindex) : hashTest∈pindex.branch := by
  obtain ⟨rest,hpath⟩ := append_takeWhile_ne htest
  obtain ⟨first,last,hsplit⟩ := append_of_mem hbefore
  have hbranch : pindexNew.branch=first++hash::(last++hashTest::(rest++
      pindexNew.branch.dropWhile (fun other => other∉st.chainActive))) := by
    calc pindexNew.branch=pathTo st pindexNew++
          pindexNew.branch.dropWhile (fun other => other∉st.chainActive) :=
        takeWhile_append_dropWhile.symm
      _=_ := by
        rw [hpath,hsplit]
        simp only [append_assoc,cons_append]
  obtain ⟨other,hother,hrest⟩ := hsound.find_of_append hnew hbranch
  rw [hfind] at hother
  cases hother
  rw [hrest]
  simp

theorem find_of_failedChain (hfail : failedChain st hash=true) :
    ∃ pindex, st.find hash=some pindex ∧ pindex.nStatus.failed=true := by
  unfold failedChain at hfail
  cases hfind : st.find hash with
  | none =>
    rw [hfind] at hfail
    cases hfail
  | some pindex =>
    rw [hfind] at hfail
    exact ⟨pindex,rfl,hfail⟩

/-- A block that is not usable has failed or has no data. -/
theorem find_of_unusable (hunusable : unusable st hash=true) :
    ∃ pindex, st.find hash=some pindex ∧
      (pindex.nStatus.failed=true ∨ pindex.nStatus.haveData=false) := by
  unfold unusable at hunusable
  cases hfind : st.find hash with
  | none =>
    rw [hfind] at hunusable
    cases hunusable
  | some pindex =>
    rw [hfind] at hunusable
    refine ⟨pindex,rfl,?_⟩
    simpa using hunusable

theorem primitives_dropRound (hsound : SoundTree st) {pindexNew : CBlockIndex}
    (hbest : bestCandidate st=some pindexNew) {hashTest : ℕ}
    (hunusable : (pathTo st pindexNew).find? (unusable st)=some hashTest) :
    Primitives clears st ((((pathTo st pindexNew).takeWhile (fun hash => hash≠hashTest)).foldl
        (dropCandidate (failedChain st hashTest)) st).eraseCandidate hashTest) := by
  obtain ⟨hashNew,hcand,hfindNew⟩ := mem_filterMap.mp (bestCandidate_mem hbest)
  have hmem := mem_of_find?_eq_some hunusable
  cases hfail : failedChain st hashTest with
  | true =>
    refine (primitives_dropCandidates (find_of_failedChain hfail) ?_).trans
      (primitives_eraseCandidate hashTest)
    exact fun hash hbefore pindex hfind => mem_branch_of_path hsound hfindNew hmem hbefore hfind
  | false =>
    obtain ⟨pindexTest,hfindTest,hbad⟩ := find_of_unusable (List.find?_some hunusable)
    have hdata : pindexTest.nStatus.haveData=false := by
      refine hbad.resolve_left (fun hflag => ?_)
      rw [failedChain,hfindTest] at hfail
      exact absurd hflag (eq_false_iff.mp hfail)
    obtain ⟨hmap,hchain⟩ := dropCandidates_missing
      ((pathTo st pindexNew).takeWhile (fun hash => hash≠hashTest)) st
    exact .single (.missing ⟨hashNew,hcand,pindexNew,hfindNew,hashTest,
      (takeWhile_sublist _).subset hmem,pindexTest,hfindTest,hdata⟩ hmap hchain)

/-- The search for the best chain marks and drops candidates. -/
theorem primitives_findMostWorkChain (rounds : ℕ) {st : ChainState} (hsound : SoundTree st) :
    Primitives clears st (findMostWorkChain rounds st).2 := by
  induction rounds generalizing st with
  | zero => exact .refl
  | succ rounds ih =>
    unfold findMostWorkChain
    split
    · exact .refl
    next pindexNew hbest =>
      dsimp only
      split
      · exact .refl
      next hashTest hunusable =>
        have hround := @primitives_dropRound clears _ hsound _ hbest _ hunusable
        exact hround.trans (ih (hsound.primitives hround))

theorem primitives_activateSteps (rounds : ℕ) (pindexMostWork : Option CBlockIndex)
    {progress : Progress} (hsound : SoundTree progress.st) :
    Primitives clears progress.st (activateSteps rounds pindexMostWork progress).2.st := by
  induction rounds generalizing pindexMostWork progress with
  | zero => exact .refl
  | succ rounds ih =>
    unfold activateSteps
    dsimp only
    have hfind : Primitives clears progress.st (mostWork pindexMostWork progress.st).2 := by
      cases pindexMostWork with
      | some pindex => exact .refl
      | none => exact primitives_findMostWorkChain _ hsound
    have hsound' : SoundTree
        (progress.withState (mostWork pindexMostWork progress.st).2).st :=
      hsound.primitives hfind
    split
    · exact hfind
    next pindex hidx =>
      split_ifs
      · exact hfind
      · have hstep := @primitives_activateBestChainStep clears _ hsound' pindex
        have hall := hfind.trans hstep
        split
        next rest hrest =>
          rw [hrest] at hall
          exact hall
        next rest hrest =>
          rw [hrest] at hall
          split_ifs
          · exact hall
          · exact hall.trans (ih _ (hsound.primitives hall))
        next rest hrest =>
          rw [hrest] at hall
          split_ifs
          · exact hall
          · exact hall.trans (ih _ (hsound.primitives hall))

theorem primitives_activateBestChain (hsound : SoundTree progress.st) :
    Primitives clears progress.st (activateBestChain progress).2.st :=
  primitives_activateSteps _ _ hsound

theorem disconnectFailed_of_notMem (blocks : ℕ) (hout : hash∉progress.st.chainActive) :
    disconnectFailed hash blocks progress=(true,progress) := by
  cases blocks with
  | zero => rfl
  | succ blocks =>
    unfold disconnectFailed
    split
    · rfl
    · rw [if_pos hout]

theorem primitives_disconnectFailed (blocks : ℕ) {progress : Progress}
    {pindex : CBlockIndex} (hsound : SoundTree progress.st)
    (hfind : progress.st.find hash=some pindex) (hfail : pindex.nStatus.failedValid=true) :
    Primitives False progress.st (disconnectFailed hash blocks progress).2.st := by
  induction blocks generalizing progress pindex with
  | zero => exact .refl
  | succ blocks ih =>
    unfold disconnectFailed
    split
    · exact .refl
    next hashWalk before hact =>
      split_ifs with hmem
      · obtain ⟨pindexWalk,hfindWalk,hbranch⟩ := hsound.tip_branch hact
        rw [hact,← hbranch] at hmem
        have hmark : Primitives False progress.st
            (progress.withState ((progress.st.markFailedChild hashWalk).eraseCandidate
              hashWalk)).st := by
          refine Relation.ReflTransGen.trans (primitives_markFailedChild ?_)
            (primitives_eraseCandidate hashWalk)
          intro walk hwalk
          rw [hfindWalk] at hwalk
          cases hwalk
          exact ⟨hash,hmem,pindex,hfind,by rw [BlockStatus.failed,hfail,Bool.true_or]⟩
        have hall := hmark.trans (primitives_disconnectTip (hsound.primitives hmark))
        dsimp only
        split
        next rest hrest =>
          rw [hrest] at hall
          obtain ⟨kept,hkept,hflag⟩ := failedValid_effects (Primitives.effects hall) hfind hfail
          exact hall.trans (ih (hsound.primitives hall) hkept hflag)
        next rest hrest =>
          rw [hrest] at hall
          exact hall
      · exact .refl

theorem primitives_restoreCandidates {blocks : List CBlockIndex}
    (hblocks : ∀ pindex∈blocks, st.find pindex.hash=some pindex) :
    Primitives clears st (blocks.foldl restoreCandidate st) := by
  refine (@primitives_foldl clears _ _ (fun st =>
    ∀ pindex∈blocks, st.find pindex.hash=some pindex) blocks ?_ st hblocks).1
  intro st hfind pindex hmem
  unfold restoreCandidate
  split_ifs with hrestore
  · rw [and_eq_true,and_eq_true,decide_eq_true_eq] at hrestore
    exact ⟨.single (.cand (hfind pindex hmem) hrestore.1.2),hfind⟩
  · exact ⟨.refl,hfind⟩

/-- An invalidated block clears no mark. -/
theorem primitives_invalidateBlock (hsound : SoundTree progress.st) (hash : ℕ) :
    Primitives False progress.st (invalidateBlock progress hash).2.st := by
  have hmark : Primitives False progress.st (progress.withState
      ((progress.st.markFailedValid hash).eraseCandidate hash)).st :=
    (primitives_markFailedValid hash).trans (primitives_eraseCandidate hash)
  have hsound' := hsound.primitives hmark
  have hdisc : Primitives False progress.st (disconnectFailed hash
      ((progress.st.markFailedValid hash).eraseCandidate hash).chainActive.length
      (progress.withState ((progress.st.markFailedValid hash).eraseCandidate
        hash))).2.st := by
    cases hfind : progress.st.find hash with
    | none =>
      rw [disconnectFailed_of_notMem]
      · exact hmark
      · intro hmem
        have hact : hash∈progress.st.chainActive :=
          chainActive_modify progress.st hash _ ▸ hmem
        obtain ⟨other,hother⟩ := hsound.find_active hact
        rw [hfind] at hother
        cases hother
    | some pindex =>
      have hmarked : (progress.st.markFailedValid hash).find hash=
          some { pindex with nStatus := { pindex.nStatus with failedValid := true } } := by
        rw [markFailedValid,setStatus,find_modify,if_pos rfl,hfind]
        rfl
      exact hmark.trans (primitives_disconnectFailed _ hsound' hmarked rfl)
  unfold invalidateBlock
  dsimp only
  split
  next rest hrest =>
    rw [hrest] at hdisc
    exact hdisc
  next rest hrest =>
    rw [hrest] at hdisc
    split_ifs
    · exact hdisc
    · refine hdisc.trans (primitives_restoreCandidates ?_)
      intro pindex hmem
      obtain ⟨key,hkey⟩ := (OrderedMap.mem_values_iff _ _).mp hmem
      have hhash := (hsound.primitives hdisc).hash hkey
      rw [hhash]
      exact hkey

theorem primitives_preferBlock {hash : ℕ} {next : ChainState}
    (hprefer : preferBlock st hash=some next) : Primitives clears st next := by
  unfold preferBlock at hprefer
  cases hfind : st.find hash with
  | none =>
    rw [hfind] at hprefer
    cases hprefer
  | some pindex =>
    cases htip : st.tip with
    | none =>
      rw [hfind,htip] at hprefer
      cases hprefer
    | some pindexTip =>
      rw [hfind,htip] at hprefer
      have hmodify : ∀ nWork nReverse nNext, Primitives clears st
          { (st.eraseCandidate hash).modify hash
              (fun pindex => { pindex with nSequenceId := nReverse }) with
            nLastPreciousChainwork := nWork
            nBlockReverseSequenceId := nNext } := by
        intro nWork nReverse nNext
        exact ((primitives_eraseCandidate hash).tail .sequence).tail .numbers
      have hcand : pindex.nChainTx≠0 → ∀ nWork nReverse nNext, Primitives clears st
          (pruneBlockIndexCandidates (insertCandidate
            { (st.eraseCandidate hash).modify hash
                (fun pindex => { pindex with nSequenceId := nReverse }) with
              nLastPreciousChainwork := nWork
              nBlockReverseSequenceId := nNext } hash)) := by
        intro hfull nWork nReverse nNext
        have hfound : ((st.eraseCandidate hash).modify hash
            (fun pindex => { pindex with nSequenceId := nReverse })).find hash=
              some { pindex with nSequenceId := nReverse } := by
          rw [find_modify,if_pos rfl]
          exact congrArg (Option.map _) hfind
        exact ((hmodify nWork nReverse nNext).tail (.cand hfound hfull)).trans
          primitives_prune
      dsimp only at hprefer
      generalize (if st.nLastPreciousChainwork<pindexTip.nChainWork then (-1 : ℤ)
        else st.nBlockReverseSequenceId)=nReverse at hprefer
      generalize (if -2^31<nReverse then nReverse-1 else nReverse)=nNext at hprefer
      split_ifs at hprefer with hwork hfull
      · cases hprefer
        rw [and_eq_true,decide_eq_true_eq] at hfull
        exact hcand hfull.2 _ _ _
      · cases hprefer
        exact hmodify _ _ _

theorem primitives_preciousBlock (hsound : SoundTree progress.st) (hash : ℕ) :
    Primitives clears progress.st (preciousBlock progress hash).2.st := by
  unfold preciousBlock
  cases hprefer : preferBlock progress.st hash with
  | none => exact .refl
  | some next =>
    have heffects := @primitives_preferBlock clears _ _ _ hprefer
    exact heffects.trans (@primitives_activateBestChain clears (progress.withState next)
      (hsound.primitives heffects))

theorem primitives_clearFailed (st : ChainState) (hash : ℕ) :
    Primitives True st (st.clearFailed hash) :=
  .single (.status (fun _ => ⟨rfl,id,le_rfl⟩) (fun _ _ => .inl trivial))

theorem primitives_resetDescendant (pindex : CBlockIndex) (st : ChainState) (hash : ℕ) :
    Primitives True st (resetDescendant pindex st hash) := by
  have hclear := primitives_clearFailed st hash
  unfold resetDescendant
  split
  · exact .refl
  · split_ifs
    · dsimp only
      split
      next cleared pindexTip hcleared _ =>
        split_ifs with hinsert
        · rw [and_eq_true,and_eq_true,decide_eq_true_eq] at hinsert
          exact hclear.tail (.cand hcleared hinsert.1.2)
        · exact hclear
      · exact hclear
    · exact .refl

theorem primitives_resetBlockFailureFlags (st : ChainState) (hash : ℕ) :
    Primitives True st (resetBlockFailureFlags st hash) := by
  unfold resetBlockFailureFlags
  cases hfind : st.find hash with
  | none => exact .refl
  | some pindex =>
    refine (@primitives_foldl True _ _ (fun _ => True)
      (st.mapBlockIndex.entries.map Prod.fst) ?_ st trivial).1.trans
      (@primitives_foldl True _ _ (fun _ => True) pindex.branch ?_ _ trivial).1
    · exact fun st _ hash _ => ⟨primitives_resetDescendant pindex st hash,trivial⟩
    · exact fun st _ hash _ => ⟨primitives_clearFailed st hash,trivial⟩

end Pyrk.ChainEffects
