import Pyrk.ListManager

/-!
# Stored lists replay the chain

As long as no connected block is cached as unknown, every answer of the manager for a connected
block is the list that building along its chain gives.
-/

namespace Pyrk.ListReplay

open List Option Bool

open Transaction DeterministicMNList ProviderTx BuildNewList Registry OrderedMap
open BlockAssertions ListDiff ListSuccession ListManager CDeterministicMNManager
open MinedCommitments (checkLLMQCommitment_ok forM_eq_ok)

theorem tipHash_concat (chain : List CBlock) (block : CBlock) :
    tipHash (chain++[block])=block.hash := by
  rw [tipHash,getLast?_concat,map_some,getD_some]

theorem prefix_concat_cases {before chain : List CBlock} {block : CBlock}
    (h : before<+:chain++[block]) : before=chain++[block] ∨ before<+:chain :=
  prefix_concat_iff.mp h

theorem concat_inj {first second : List CBlock} {left right : CBlock}
    (h : first++[left]=second++[right]) : first=second ∧ left=right := by
  obtain ⟨hchain,hblock⟩ := append_inj' h rfl
  exact ⟨hchain,singleton_inj.mp hblock⟩

theorem chainOf_initial (tree : BlockTree) {chain before : List CBlock}
    (hchain : tree.chainOf (tipHash chain)=chain) (hbefore : before<+:chain) :
    tree.chainOf (tipHash before)=before := by
  induction chain using reverseRecOn with
  | nil => rw [prefix_nil.mp hbefore,hchain]
  | append_singleton chain block ih =>
    rcases prefix_concat_cases hbefore with rfl | hshorter
    · exact hchain
    · exact ih (tree.tip _ chain block hchain).2 hshorter

theorem chainOf_inj (tree : BlockTree) {chain first second : List CBlock}
    (hchain : tree.chainOf (tipHash chain)=chain) (hfirst : first<+:chain)
    (hsecond : second<+:chain) (h : tipHash first=tipHash second) : first=second := by
  rw [← chainOf_initial tree hchain hfirst,h,chainOf_initial tree hchain hsecond]

section Folded

variable {ctx : NodeContext}

variable {list : CDeterministicMNList}

theorem foldedList_blockHash {chain : List CBlock}
    (h : FoldedList ctx chain list) : list.blockHash=tipHash chain := by
  cases h with
  | start => rfl
  | inactive block _ => rw [tipHash_concat]
  | build _ _ _ _ _ => rw [tipHash_concat]

variable {block : CBlock}

theorem foldedList_inactive {chain : List CBlock}
    (h : FoldedList ctx (chain++[block]) list) (hact : ctx.dip3Active chain=false) :
    list={ blockHash := block.hash } := by
  generalize hc : chain++[block]=whole at h
  cases h with
  | start => exact absurd hc (append_ne_nil_of_right_ne_nil _ (cons_ne_nil _ _))
  | inactive other _ =>
    obtain ⟨-,rfl⟩ := concat_inj hc
    rfl
  | build _ hother _ _ _ =>
    obtain ⟨rfl,-⟩ := concat_inj hc
    rw [hact] at hother
    cases hother

theorem foldedList_active {chain : List CBlock}
    (h : FoldedList ctx (chain++[block]) list) (hact : ctx.dip3Active chain=true) :
    ∃ rules view next, SameRules ctx rules ∧ view.chain=chain ∧ (∀ before, before<+:chain →
        FoldedList ctx before (view.getListForBlock (tipHash before))) ∧
      (∀ tx∈block.vtx, checkSpecialTx rules view tx=.ok ()) ∧
      buildNewListFromBlock rules view block=.ok next ∧
      list={ next with blockHash := block.hash, nHeight := chain.length } := by
  generalize hc : chain++[block]=whole at h
  cases h with
  | start => exact absurd hc (append_ne_nil_of_right_ne_nil _ (cons_ne_nil _ _))
  | inactive other hinactive =>
    obtain ⟨rfl,-⟩ := concat_inj hc
    rw [hact] at hinactive
    cases hinactive
  | @build rules view other next hrules _ hlists hchecks hbuild =>
    obtain ⟨rfl,rfl⟩ := concat_inj hc
    refine ⟨rules,view,next,hrules,rfl,hlists,hchecks,hbuild,?_⟩
    rw [ChainView.nHeight,Int.sub_add_cancel]

theorem quorumHashes_chain {view : ChainView} {tx : CTransaction}
    (hcheck : checkSpecialTx ctx view tx=.ok ()) {quorumHash : Uint256}
    (hm : quorumHash∈quorumHashes tx) : ∃ before, before<+:view.chain ∧
    tipHash before=quorumHash := by
  unfold quorumHashes at hm
  split_ifs at hm with htype
  · unfold checkSpecialTx at hcheck
    rw [if_neg (by rw [htype.1,htype.2]; decide),htype.2] at hcheck
    split_ifs at hcheck
    · cases hcheck
    · obtain ⟨payload,_,nHeight,hpayload,-,hchain,-⟩ := checkLLMQCommitment_ok hcheck
      rw [hpayload] at hm
      dsimp only at hm
      split_ifs at hm
      · exact absurd hm not_mem_nil
      · rw [mem_singleton.mp hm]
        obtain ⟨block,hblock,hhash⟩ := map_eq_some_iff.mp hchain
        refine ⟨view.chain.take nHeight++[block],?_,?_⟩
        · have htake : view.chain.take (nHeight+1)=view.chain.take nHeight++[block] := by
            rw [take_add_one,hblock]
            rfl
          rw [← htake]
          exact take_prefix _ _
        · rw [tipHash_concat,hhash]
  · exact absurd hm not_mem_nil

theorem foldedList_unique {chain : List CBlock} {first second : CDeterministicMNList}
    (hfirst : FoldedList ctx chain first) (hsecond : FoldedList ctx chain second) :
    first=second := by
  induction hfirst generalizing second with
  | start =>
    generalize hc : ([] : List CBlock)=whole at hsecond
    cases hsecond with
    | start => rfl
    | inactive block _ => exact absurd hc.symm (append_ne_nil_of_right_ne_nil _ (cons_ne_nil _ _))
    | build _ _ _ _ _ => exact absurd hc.symm (append_ne_nil_of_right_ne_nil _ (cons_ne_nil _ _))
  | inactive block hact => exact (foldedList_inactive hsecond hact).symm
  | @build rules view block list hrules hact hlists hchecks hbuild ih =>
    obtain ⟨others,other,next,hothers,hchain,hotherLists,-,hotherBuild,rfl⟩ :=
      foldedList_active hsecond hact
    have hsame : ∀ before, before<+:view.chain →
        view.getListForBlock (tipHash before)=other.getListForBlock (tipHash before) :=
      fun before hbefore => ih before hbefore (hotherLists before hbefore)
    have hbetween : SameRules rules others :=
      ⟨hrules.network.symm.trans hothers.network,
        hrules.serializeHash.symm.trans hothers.serializeHash,
        hrules.sha256.symm.trans hothers.sha256,hrules.quorumScore.symm.trans hothers.quorumScore,
        hrules.dip3Active.symm.trans hothers.dip3Active⟩
    have hnext := buildNewListFromBlock_agree hbetween hchain.symm (by
        have htip := hsame view.chain (prefix_refl _)
        unfold ChainView.mnList ChainView.blockHash
        rw [hchain]
        exact htip) (by
        intro tx htx quorumHash hm
        obtain ⟨before,hbefore,rfl⟩ :=
          quorumHashes_chain (hchecks tx (mem_of_mem_drop htx)) hm
        exact hsame before hbefore) _ _ hbuild hotherBuild
    rw [hnext,ChainView.nHeight,Int.sub_add_cancel]

theorem foldedList_height {chain : List CBlock}
    (h : FoldedList ctx chain list) : list.nHeight=-1 ∨ list.nHeight=chain.length-1 := by
  cases h with
  | start => exact .inl rfl
  | inactive block _ => exact .inl rfl
  | @build _ view block next _ _ _ _ _ =>
    refine .inr ?_
    rw [ChainView.nHeight,length_append,length_singleton]
    push_cast
    omega

theorem foldedList_active_height {chain : List CBlock}
    (h : FoldedList ctx (chain++[block]) list)
    (hact : ctx.dip3Active chain=true) : list.nHeight≠-1 := by
  obtain ⟨_,_,_,-,-,-,-,-,rfl⟩ := foldedList_active h hact
  dsimp only
  omega

theorem listTxs_hashes (tree : BlockTree) {chain : List CBlock}
    (hchain : tree.chainOf (tipHash (chain++[block]))=chain++[block]) :
    ∀ tx∈listTxs block, tx.hash≠0 ∧ tx.hash∉listTxHashes chain := by
  intro tx htx
  have hnodup := tree.nodup (tipHash (chain++[block]))
  have hzero := tree.hashes (tipHash (chain++[block]))
  rw [hchain,listTxHashes,flatMap_append,flatMap_singleton] at hnodup hzero
  have hm : tx.hash∈(listTxs block).map CTransaction.hash := mem_map_of_mem htx
  constructor
  · intro he
    rw [he] at hm
    exact hzero (mem_append_right _ hm)
  · intro hold
    exact (nodup_append.mp hnodup).2.2 _ hold _ hm rfl

theorem foldedList_built (tree : BlockTree) {chain : List CBlock}
    (h : FoldedList ctx chain list) (hchain : tree.chainOf (tipHash chain)=chain) :
    BuiltList ctx.serializeHash chain list := by
  induction h with
  | start => exact .empty _ _ _
  | inactive block _ => exact .empty _ _ _
  | @build rules view block next hrules _ _ hchecks hbuild ih =>
    have hbefore : tree.chainOf (tipHash view.chain)=view.chain :=
      chainOf_initial tree hchain (prefix_append _ _)
    exact .build hrules.serializeHash.symm hchecks
      (fun tx htx => (listTxs_hashes tree hchain tx htx).1) _ _
      (ih view.chain (prefix_refl _) hbefore) hbuild

theorem foldedList_diff (hinj : Function.Injective ctx.serializeHash) (tree : BlockTree)
    {chain : List CBlock} {old new : CDeterministicMNList}
    (hchain : tree.chainOf (tipHash (chain++[block]))=chain++[block])
    (hact : ctx.dip3Active chain=true) (hold : FoldedList ctx chain old)
    (hnew : FoldedList ctx (chain++[block]) new) (hheight : old.nHeight≠-1) :
    applyListDiff ctx.serializeHash old (old.buildDiff new)=.ok new := by
  have hnamed := chainOf_initial tree hchain (prefix_append _ _)
  obtain ⟨hgood,hkeys⟩ := builtList_good hinj (foldedList_built tree hold hnamed)
  obtain ⟨rules,view,next,hrules,hview,hlists,hchecks,hbuild,rfl⟩ := foldedList_active hnew hact
  have hlist : view.mnList=old := by
    unfold ChainView.mnList ChainView.blockHash
    rw [hview]
    exact foldedList_unique (hlists chain (prefix_refl _)) hold
  have hhashes := listTxs_hashes tree hchain
  rw [hrules.serializeHash] at hgood hinj ⊢
  rw [← hlist] at hgood hkeys hheight ⊢
  have hsucceeds := buildNewListFromBlock_succeeds hinj hgood hchecks
    (fun tx htx => (hhashes tx htx).1) (fun tx htx => (contains_eq_false _ _).mp (by
      by_contra hknown
      exact (hhashes tx htx).2 (hkeys _ (not_eq_false _ ▸ hknown)))) hbuild block.hash
  -- the built list already stands at the height of the block
  have hnext : next.nHeight=chain.length := by
    obtain ⟨-,hcontinues⟩ := buildNewListFromBlock_continues hgood.exact hbuild
    rw [hcontinues.sameBlock.2,ChainView.nHeight,hview,Int.sub_add_cancel]
  rw [← hnext]
  refine applyListDiff_buildDiff hinj hsucceeds ?_
  rcases foldedList_height hold with hnone | hsome
  · rw [hlist,hnone] at hheight
    exact absurd rfl hheight
  · rw [hlist,hsome,hnext,Int.sub_add_cancel]

end Folded

/-- The database holds a diff for each block with a list, a full list where the diff has none to
start from, and nothing else. -/
structure StoredLists (ctx : NodeContext) (chain : List CBlock) (evoDb : CEvoDB) : Prop where
  stored : ∀ before block, before++[block]<+:chain → ctx.dip3Active before=true →
    ∃ old new, FoldedList ctx before old ∧ FoldedList ctx (before++[block]) new ∧
      evoDb.listDiffs.find block.hash=some (old.buildDiff new) ∧
      (old.nHeight=-1 → evoDb.listSnapshots.find block.hash=some new)
  diffs : ∀ blockHash diff, evoDb.listDiffs.find blockHash=some diff →
    ∃ before block, before++[block]<+:chain ∧ ctx.dip3Active before=true ∧ block.hash=blockHash
  snapshots : ∀ blockHash list, evoDb.listSnapshots.find blockHash=some list →
    ∃ before block, before++[block]<+:chain ∧ ctx.dip3Active before=true ∧
      block.hash=blockHash ∧ FoldedList ctx (before++[block]) list

/-- What the cache holds: lists of named chains, or the answer for an unknown block. -/
def CachedLists (ctx : NodeContext) (tree : BlockTree) (mgr : CDeterministicMNManager) :
    Prop :=
  ∀ blockHash list, mgr.mnListsCache.find blockHash=some list →
    list={ blockHash := blockHash } ∨ FoldedList ctx (tree.chainOf blockHash) list

/-- A manager that answers for a chain. -/
structure Consistent (ctx : NodeContext) (tree : BlockTree) (chain : List CBlock)
    (mgr : CDeterministicMNManager) : Prop where
  named : tree.chainOf (tipHash chain)=chain
  stored : StoredLists ctx chain mgr.evoDb
  cached : CachedLists ctx tree mgr
  noneUnknown : NoneUnknown ctx chain mgr

section Reading

variable {ctx : NodeContext} {tree : BlockTree} {chain : List CBlock}
  {mgr : CDeterministicMNManager}

variable {before : List CBlock}

theorem foldedList_empty
    (h : ∀ chain block, before=chain++[block] → ctx.dip3Active chain=false) :
    FoldedList ctx before { blockHash := tipHash before } := by
  induction before using reverseRecOn with
  | nil => exact .start
  | append_singleton chain block _ =>
    rw [tipHash_concat]
    exact .inactive block (h chain block rfl)

section

variable (h : Consistent ctx tree chain mgr) (hbefore : before<+:chain)

include h hbefore

theorem Consistent.cached_folded {list : CDeterministicMNList}
    (hlist : mgr.mnListsCache.find (tipHash before)=some list) :
    FoldedList ctx before list := by
  rcases h.cached _ _ hlist with rfl | hfolded
  · refine foldedList_empty (fun chain block he => ?_)
    subst he
    by_contra hact
    refine h.noneUnknown chain block hbefore (not_eq_false _ ▸ hact) ?_
    rw [tipHash_concat] at hlist
    exact ⟨_,hlist,rfl⟩
  · rwa [chainOf_initial tree h.named hbefore] at hfolded

theorem Consistent.snapshot_folded {list : CDeterministicMNList}
    (hlist : mgr.evoDb.listSnapshots.find (tipHash before)=some list) :
    FoldedList ctx before list := by
  obtain ⟨other,block,hother,-,hhash,hfolded⟩ := h.stored.snapshots _ _ hlist
  have he := chainOf_inj tree h.named hother hbefore (by rw [tipHash_concat,hhash])
  rwa [he] at hfolded

theorem Consistent.noDiff_folded (hnone : mgr.evoDb.listDiffs.find (tipHash before)=none) :
    FoldedList ctx before { blockHash := tipHash before } := by
  refine foldedList_empty (fun chain block he => ?_)
  subst he
  by_contra hact
  obtain ⟨old,new,-,-,hdiff,-⟩ := h.stored.stored chain block hbefore
    (not_eq_false _ ▸ hact)
  rw [tipHash_concat,hdiff] at hnone
  cases hnone

end

section

variable (hinj : Function.Injective ctx.serializeHash) (h : Consistent ctx tree chain mgr)

include hinj h

theorem Consistent.diff_folded (hbefore : before<+:chain)
    {diff : CDeterministicMNListDiff}
    (hnone : mgr.evoDb.listSnapshots.find (tipHash before)=none)
    (hdiff : mgr.evoDb.listDiffs.find (tipHash before)=some diff) :
    ∃ shorter block old new, before=shorter++[block] ∧ FoldedList ctx shorter old ∧
      FoldedList ctx before new ∧ diff.prevBlockHash=tipHash shorter ∧
      applyListDiff ctx.serializeHash old diff=.ok new := by
  obtain ⟨shorter,block,hinitial,hact,hhash⟩ := h.stored.diffs _ _ hdiff
  have he := chainOf_inj tree h.named hinitial hbefore (by rw [tipHash_concat,hhash])
  subst he
  obtain ⟨old,new,hold,hnew,hstored,hfull⟩ := h.stored.stored shorter block hbefore hact
  rw [tipHash_concat] at hnone hdiff
  rw [hstored] at hdiff
  cases hdiff
  have hheight : old.nHeight≠-1 := by
    intro hunset
    rw [hfull hunset] at hnone
    cases hnone
  exact ⟨shorter,block,old,new,rfl,hold,hnew,foldedList_blockHash hold,
    foldedList_diff hinj tree (chainOf_initial tree h.named hbefore) hact hold hnew hheight⟩

/-- The way back from a connected block ends, and what it collects makes up the folded list, from
different blocks with a diff. -/
theorem Consistent.collectDiffs_folded (fuel : ℕ)
    (hbefore : before<+:chain) (visited : List Uint256) (listDiff : List CDeterministicMNListDiff)
    (hnodup : visited.Nodup)
    (hvisited : ∀ blockHash∈visited, mgr.evoDb.listDiffs.contains blockHash=true ∧
      ∃ longer, longer<+:chain ∧ tipHash longer=blockHash ∧ before.length<longer.length)
    (hfuel : visited.length+fuel=mgr.evoDb.listDiffs.size+1) :
    ∃ snapshot diffs list,
      mgr.collectDiffs fuel (tipHash before) listDiff=.ok (snapshot,diffs++listDiff) ∧
      diffs.foldlM (applyListDiff ctx.serializeHash) snapshot=.ok list ∧
      FoldedList ctx before list := by
  induction fuel generalizing before visited listDiff with
  | zero =>
    -- more visited blocks than diffs
    exfalso
    have hsubset : visited⊆mgr.evoDb.listDiffs.entries.map Prod.fst := by
      intro blockHash hm
      exact mem_keys_iff.mpr ((contains_iff _ _).mp (hvisited blockHash hm).1)
    have hlen := (subperm_of_subset hnodup hsubset).length_le
    rw [length_map] at hlen
    have hsize : mgr.evoDb.listDiffs.size=mgr.evoDb.listDiffs.entries.length := rfl
    omega
  | succ fuel ih =>
    rw [collectDiffs]
    cases hcache : mgr.mnListsCache.find (tipHash before) with
    | some list => exact ⟨list,[],list,rfl,rfl,h.cached_folded hbefore hcache⟩
    | none =>
      cases hsnapshot : mgr.evoDb.listSnapshots.find (tipHash before) with
      | some list => exact ⟨list,[],list,rfl,rfl,h.snapshot_folded hbefore hsnapshot⟩
      | none =>
        cases hdiff : mgr.evoDb.listDiffs.find (tipHash before) with
        | none => exact ⟨_,[],_,rfl,rfl,h.noDiff_folded hbefore hdiff⟩
        | some diff =>
          dsimp only
          obtain ⟨shorter,block,old,new,hsplit,hold,hnew,hprev,happly⟩ :=
            h.diff_folded hinj hbefore hsnapshot hdiff
          have hshorter : shorter<+:chain :=
            (hsplit ▸ prefix_append shorter [block]).trans hbefore
          have hlen : shorter.length<before.length := by
            rw [hsplit,length_append,length_singleton]
            omega
          have hnew' : tipHash before∉visited := by
            intro hm
            obtain ⟨-,longer,hlonger,htip,hlt⟩ := hvisited _ hm
            rw [chainOf_inj tree h.named hlonger hbefore htip] at hlt
            omega
          obtain ⟨snapshot,diffs,list,hcollect,hrun,hfolded⟩ := ih hshorter
            (tipHash before::visited) (diff::listDiff) (nodup_cons.mpr ⟨hnew',hnodup⟩) (by
              intro blockHash hm
              rcases mem_cons.mp hm with rfl | hm
              · exact ⟨(contains_iff _ _).mpr ⟨diff,hdiff⟩,before,hbefore,rfl,hlen⟩
              · obtain ⟨hhas,longer,hlonger,htip,hlt⟩ := hvisited blockHash hm
                exact ⟨hhas,longer,hlonger,htip,hlen.trans hlt⟩)
            (by rw [length_cons]; omega)
          refine ⟨snapshot,diffs++[diff],new,?_,?_,hnew⟩
          · rw [hprev,hcollect,append_assoc,singleton_append]
          · rw [foldlM_append,hrun,foldedList_unique hfolded hold,ok_bind,foldlM_cons,happly]
            rfl

theorem Consistent.readListForBlock_folded (hbefore : before<+:chain) :
    ∃ list, mgr.readListForBlock ctx.serializeHash (tipHash before)=.ok list ∧
      FoldedList ctx before list := by
  unfold readListForBlock
  cases hcache : mgr.mnListsCache.find (tipHash before) with
  | some list => exact ⟨list,rfl,h.cached_folded hbefore hcache⟩
  | none =>
    obtain ⟨snapshot,diffs,list,hcollect,hrun,hfolded⟩ := h.collectDiffs_folded hinj
      (mgr.evoDb.listDiffs.size+1) hbefore [] [] nodup_nil
      (fun _ hm => absurd hm not_mem_nil) (Nat.zero_add _)
    rw [append_nil] at hcollect
    refine ⟨list,?_,hfolded⟩
    rw [hcollect]
    exact hrun

end

theorem Consistent.readListForBlock_unknown (h : Consistent ctx tree chain mgr)
    {blockHash : Uint256} (hnone : mgr.mnListsCache.find blockHash=none)
    (hunknown : ∀ before, before<+:chain → tipHash before≠blockHash) :
    mgr.readListForBlock ctx.serializeHash blockHash=.ok { blockHash := blockHash } := by
  have hsnapshot : mgr.evoDb.listSnapshots.find blockHash=none := by
    cases hfind : mgr.evoDb.listSnapshots.find blockHash with
    | none => rfl
    | some list =>
      obtain ⟨before,block,hbefore,-,hhash,-⟩ := h.stored.snapshots _ _ hfind
      exact absurd ((tipHash_concat before block).trans hhash) (hunknown _ hbefore)
  have hdiff : mgr.evoDb.listDiffs.find blockHash=none := by
    cases hfind : mgr.evoDb.listDiffs.find blockHash with
    | none => rfl
    | some diff =>
      obtain ⟨before,block,hbefore,-,hhash⟩ := h.stored.diffs _ _ hfind
      exact absurd ((tipHash_concat before block).trans hhash) (hunknown _ hbefore)
  unfold readListForBlock
  rw [hnone]
  rw [collectDiffs,hnone]
  rw [hsnapshot]
  rw [hdiff]
  rfl

end Reading

section Steps

variable {ctx : NodeContext} {tree : BlockTree} {chain : List CBlock}
  {mgr next : CDeterministicMNManager}

variable {serializeHash : UniqueProperty → Uint256} {blockHash : Uint256}
  {list : CDeterministicMNList}

theorem getListForBlock_frame
    (h : mgr.getListForBlock serializeHash blockHash=.ok (list,next)) :
    mgr.readListForBlock serializeHash blockHash=.ok list ∧
      next={ mgr with mnListsCache := mgr.mnListsCache.emplace blockHash list } := by
  unfold getListForBlock at h
  rw [bind_eq_ok] at h
  obtain ⟨found,hfound,h⟩ := h
  cases h
  exact ⟨hfound,rfl⟩

theorem Consistent.query (hinj : Function.Injective ctx.serializeHash)
    (h : Consistent ctx tree chain mgr)
    (hget : mgr.getListForBlock ctx.serializeHash blockHash=.ok (list,next)) :
    Consistent ctx tree chain next := by
  obtain ⟨hread,rfl⟩ := getListForBlock_frame hget
  refine ⟨h.named,h.stored,?_,?_⟩
  · intro other found hfound
    rw [find_emplace] at hfound
    split_ifs at hfound with he
    · subst he
      cases hcache : mgr.mnListsCache.find other with
      | some stored =>
        rw [hcache] at hfound
        cases hfound
        exact h.cached _ _ hcache
      | none =>
        rw [hcache] at hfound
        cases hfound
        by_cases hconn : ∃ before, before<+:chain ∧ tipHash before=other
        · obtain ⟨before,hbefore,rfl⟩ := hconn
          obtain ⟨answer,hanswer,hfolded⟩ := h.readListForBlock_folded hinj hbefore
          rw [hread] at hanswer
          cases hanswer
          rw [chainOf_initial tree h.named hbefore]
          exact .inr hfolded
        · rw [h.readListForBlock_unknown hcache
            (fun before hbefore he => hconn ⟨before,hbefore,he⟩)] at hread
          cases hread
          exact .inl rfl
    · exact h.cached _ _ hfound
  · rintro before block hbefore hact ⟨found,hfound,hheight⟩
    rw [find_emplace] at hfound
    split_ifs at hfound with he
    · subst he
      cases hcache : mgr.mnListsCache.find block.hash with
      | some stored =>
        rw [hcache] at hfound
        cases hfound
        exact h.noneUnknown before block hbefore hact ⟨stored,hcache,hheight⟩
      | none =>
        rw [hcache] at hfound
        cases hfound
        obtain ⟨answer,hanswer,hfolded⟩ := h.readListForBlock_folded hinj hbefore
        rw [tipHash_concat,hread] at hanswer
        cases hanswer
        exact foldedList_active_height hfolded hact hheight
    · exact h.noneUnknown before block hbefore hact ⟨found,hfound,hheight⟩

variable {blockHashes : List Uint256}

theorem Consistent.loadLists (hinj : Function.Injective ctx.serializeHash)
    (h : Consistent ctx tree chain mgr)
    (hload : mgr.loadLists ctx.serializeHash blockHashes=.ok next) :
    Consistent ctx tree chain next ∧ ∀ blockHash, blockHash∉blockHashes →
      next.mnListsCache.find blockHash=mgr.mnListsCache.find blockHash := by
  refine @foldlM_invariant _ _ _ _ (fun st => Consistent ctx tree chain st ∧
    ∀ blockHash, blockHash∉blockHashes →
      st.mnListsCache.find blockHash=mgr.mnListsCache.find blockHash)
    blockHashes ?_ mgr next ⟨h,fun _ _ => rfl⟩ hload
  rintro st after blockHash hm ⟨hstate,hframe⟩ hafter
  rw [bind_eq_ok] at hafter
  obtain ⟨found,hfound,hafter⟩ := hafter
  cases hafter
  refine ⟨hstate.query hinj hfound,fun other hother => ?_⟩
  obtain ⟨-,hres⟩ := getListForBlock_frame hfound
  have hne : other≠blockHash := fun he => hother (he ▸ hm)
  rw [hres,find_emplace,if_neg hne,hframe other hother]

theorem Consistent.cleanup (h : Consistent ctx tree chain mgr) (nHeight : ℤ) :
    Consistent ctx tree chain (mgr.cleanupCache nHeight) := by
  have hkept : ∀ {blockHash list},
      (mgr.cleanupCache nHeight).mnListsCache.find blockHash=some list →
      mgr.mnListsCache.find blockHash=some list := by
    intro blockHash list hf
    rw [cleanupCache,find_filter,filter_eq_some_iff] at hf
    exact hf.1
  refine ⟨h.named,h.stored,fun blockHash list hf => h.cached _ _ (hkept hf),?_⟩
  rintro before block hbefore hact ⟨list,hf,hheight⟩
  exact h.noneUnknown before block hbefore hact ⟨list,hkept hf,hheight⟩

theorem Consistent.undo {block : CBlock} (h : Consistent ctx tree (chain++[block]) mgr) :
    Consistent ctx tree chain (mgr.undoBlock block) := by
  have hnamed : tree.chainOf (tipHash chain)=chain :=
    chainOf_initial tree h.named (prefix_append _ _)
  -- the blocks that stay have other hashes
  have hother : ∀ {before : List CBlock} {last : CBlock}, before++[last]<+:chain →
      last.hash≠block.hash := by
    intro before last hbefore he
    have hsame := chainOf_inj tree h.named (hbefore.trans (prefix_append _ _))
      (prefix_refl (chain++[block])) (by rw [tipHash_concat,tipHash_concat,he])
    have hlen := hbefore.length_le
    rw [hsame,length_append,length_singleton] at hlen
    omega
  -- and a block of the longer chain with another hash stays
  have hstays : ∀ {before : List CBlock} {last : CBlock}, before++[last]<+:chain++[block] →
      last.hash≠block.hash → before++[last]<+:chain := by
    intro before last hbefore hne
    rcases prefix_concat_cases hbefore with he | hshorter
    · exact absurd (congrArg CBlock.hash (concat_inj he).2) hne
    · exact hshorter
  refine ⟨hnamed,⟨?_,?_,?_⟩,?_,?_⟩
  · intro before last hbefore hact
    obtain ⟨old,new,hold,hnew,hdiff,hfull⟩ := h.stored.stored before last
      (hbefore.trans (prefix_append _ _)) hact
    refine ⟨old,new,hold,hnew,?_,fun hunset => ?_⟩
    · rw [undoBlock,find_erase_of_ne _ (hother hbefore),hdiff]
    · rw [undoBlock,find_erase_of_ne _ (hother hbefore),hfull hunset]
  · intro blockHash diff hf
    rw [undoBlock,find_erase] at hf
    split_ifs at hf with he
    obtain ⟨before,last,hbefore,hact,rfl⟩ := h.stored.diffs _ _ hf
    exact ⟨before,last,hstays hbefore he,hact,rfl⟩
  · intro blockHash list hf
    rw [undoBlock,find_erase] at hf
    split_ifs at hf with he
    obtain ⟨before,last,hbefore,hact,rfl,hfolded⟩ := h.stored.snapshots _ _ hf
    exact ⟨before,last,hstays hbefore he,hact,rfl,hfolded⟩
  · intro blockHash list hf
    rw [undoBlock,find_erase] at hf
    split_ifs at hf
    exact h.cached _ _ hf
  · rintro before last hbefore hact ⟨list,hf,hheight⟩
    rw [undoBlock,find_erase_of_ne _ (hother hbefore)] at hf
    exact h.noneUnknown before last (hbefore.trans (prefix_append _ _)) hact ⟨list,hf,hheight⟩

variable {block : CBlock}

theorem tipHash_ne_next (hnamed : tree.chainOf (tipHash chain)=chain)
    (htree : tree.chainOf block.hash=chain++[block]) {before : List CBlock}
    (hbefore : before<+:chain) : tipHash before≠block.hash := by
  intro he
  have hsame := chainOf_initial tree hnamed hbefore
  rw [he,htree] at hsame
  have hlen := hbefore.length_le
  rw [← hsame,length_append,length_singleton] at hlen
  omega

theorem Consistent.extend (h : Consistent ctx tree chain mgr)
    (htree : tree.chainOf block.hash=chain++[block])
    (hact : ctx.dip3Active chain=false) :
    Consistent ctx tree (chain++[block]) mgr := by
  have hshorter : ∀ {before : List CBlock} {last : CBlock}, before++[last]<+:chain++[block] →
      ctx.dip3Active before=true → before++[last]<+:chain := by
    intro before last hbefore hother
    rcases prefix_concat_cases hbefore with he | hshorter
    · rw [(concat_inj he).1,hact] at hother
      cases hother
    · exact hshorter
  refine ⟨by rw [tipHash_concat,htree],⟨?_,?_,?_⟩,h.cached,?_⟩
  · exact fun before last hbefore hother => h.stored.stored before last
      (hshorter hbefore hother) hother
  · intro blockHash diff hf
    obtain ⟨before,last,hbefore,hrest⟩ := h.stored.diffs _ _ hf
    exact ⟨before,last,hbefore.trans (prefix_append _ _),hrest⟩
  · intro blockHash list hf
    obtain ⟨before,last,hbefore,hrest⟩ := h.stored.snapshots _ _ hf
    exact ⟨before,last,hbefore.trans (prefix_append _ _),hrest⟩
  · exact fun before last hbefore hother => h.noneUnknown before last
      (hshorter hbefore hother) hother

theorem StoredLists.storeList (hnamed : tree.chainOf (tipHash chain)=chain)
    (htree : tree.chainOf block.hash=chain++[block])
    (h : StoredLists ctx chain mgr.evoDb) (hact : ctx.dip3Active chain=true)
    {old new : CDeterministicMNList} (hold : FoldedList ctx chain old)
    (hnew : FoldedList ctx (chain++[block]) new) :
    StoredLists ctx (chain++[block]) (mgr.storeList chain.length old new).evoDb := by
  have hhash : (old.buildDiff new).blockHash=block.hash :=
    (foldedList_blockHash hnew).trans (tipHash_concat _ _)
  have hother : ∀ {before : List CBlock} {last : CBlock}, before++[last]<+:chain →
      last.hash≠block.hash := by
    intro before last hbefore
    rw [← tipHash_concat before last]
    exact tipHash_ne_next hnamed htree hbefore
  have hsnapshots : ∀ blockHash, blockHash≠block.hash →
      (mgr.storeList chain.length old new).evoDb.listSnapshots.find blockHash=
        mgr.evoDb.listSnapshots.find blockHash := by
    intro blockHash hne
    rw [CDeterministicMNManager.storeList,hhash]
    split_ifs
    · rw [find_set_of_ne _ _ hne]
    · rfl
  constructor
  · intro before last hbefore hlast
    rcases prefix_concat_cases hbefore with he | hshorter
    · obtain ⟨rfl,rfl⟩ := concat_inj he
      refine ⟨old,new,hold,hnew,?_,fun hunset => ?_⟩
      · rw [CDeterministicMNManager.storeList,hhash,find_set_self]
      · rw [CDeterministicMNManager.storeList,hhash]
        rw [if_pos (by rw [hunset,decide_eq_true rfl,Bool.or_true]),find_set_self]
    · obtain ⟨first,second,hfirst,hsecond,hdiff,hfull⟩ := h.stored before last hshorter hlast
      refine ⟨first,second,hfirst,hsecond,?_,fun hunset => ?_⟩
      · rw [CDeterministicMNManager.storeList,hhash,find_set_of_ne _ _ (hother hshorter),hdiff]
      · rw [hsnapshots _ (hother hshorter),hfull hunset]
  · intro blockHash diff hf
    rw [CDeterministicMNManager.storeList,hhash,find_set] at hf
    split_ifs at hf with he
    · exact ⟨chain,block,prefix_refl _,hact,he.symm⟩
    · obtain ⟨before,last,hbefore,hrest⟩ := h.diffs _ _ hf
      exact ⟨before,last,hbefore.trans (prefix_append _ _),hrest⟩
  · intro blockHash list hf
    by_cases he : blockHash=block.hash
    · refine ⟨chain,block,prefix_refl _,hact,he.symm,?_⟩
      rw [CDeterministicMNManager.storeList,hhash,he] at hf
      split_ifs at hf
      · rw [find_set_self] at hf
        cases hf
        exact hnew
      · obtain ⟨before,last,hbefore,-,hlast,-⟩ := h.snapshots _ _ hf
        exact absurd hlast (hother hbefore)
    · rw [hsnapshots _ he] at hf
      obtain ⟨before,last,hbefore,hrest⟩ := h.snapshots _ _ hf
      exact ⟨before,last,hbefore.trans (prefix_append _ _),hrest⟩

theorem getListForBlock_cached (h : mgr.mnListsCache.find blockHash=some list) :
    mgr.getListForBlock serializeHash blockHash=.ok (list,mgr) := by
  have hread : mgr.readListForBlock serializeHash blockHash=.ok list := by
    rw [readListForBlock,h]
  have hhas : mgr.mnListsCache.contains blockHash=true :=
    (contains_iff _ _).mpr ⟨list,h⟩
  rw [getListForBlock,hread,ok_bind,OrderedMap.emplace,if_pos hhas]

theorem loadLists_contains (h : mgr.loadLists serializeHash blockHashes=.ok next)
    (hm : blockHash∈blockHashes ∨ mgr.mnListsCache.contains blockHash=true) :
    next.mnListsCache.contains blockHash=true := by
  unfold CDeterministicMNManager.loadLists at h
  induction blockHashes generalizing mgr with
  | nil =>
    cases h
    exact hm.resolve_left not_mem_nil
  | cons first blockHashes ih =>
    rw [foldlM_cons,bind_eq_ok] at h
    obtain ⟨middle,hmid,hrest⟩ := h
    rw [bind_eq_ok] at hmid
    obtain ⟨found,hfound,hmid⟩ := hmid
    cases hmid
    obtain ⟨-,hres⟩ := getListForBlock_frame hfound
    refine ih hrest ?_
    rw [mem_cons] at hm
    by_cases he : blockHash=first
    · refine .inr ((contains_iff _ _).mpr ?_)
      rw [hres,find_emplace,if_pos he]
      exact ⟨_,rfl⟩
    · refine (hm.imp_left (fun hm => hm.resolve_left he)).imp_right (fun hhas => ?_)
      rw [OrderedMap.contains,hres,find_emplace,if_neg he]
      exact hhas

theorem loadLists_again (h : mgr.loadLists serializeHash blockHashes=.ok next) :
    next.loadLists serializeHash blockHashes=.ok next := by
  have hcached : ∀ blockHash∈blockHashes, next.mnListsCache.contains blockHash=true :=
    fun blockHash hm => loadLists_contains h (.inl hm)
  clear h
  unfold CDeterministicMNManager.loadLists
  induction blockHashes with
  | nil => rfl
  | cons first blockHashes ih =>
    obtain ⟨list,hlist⟩ := (contains_iff _ _).mp (hcached first mem_cons_self)
    rw [foldlM_cons,getListForBlock_cached hlist,ok_bind,ok_bind]
    exact ih (fun blockHash hm => hcached blockHash (mem_cons_of_mem _ hm))

variable {node : NodeState}

theorem processSpecialTxsInBlock_ok (hact : node.ctx.dip3Active chain=true)
    (h : processSpecialTxsInBlock node chain mgr block=.ok next) :
    ∃ loaded newList old,
      mgr.loadLists node.ctx.serializeHash (neededLists chain block)=.ok loaded ∧
      (∀ tx∈block.vtx, checkSpecialTx node.ctx (node.view chain loaded) tx=.ok ()) ∧
      buildNewListFromBlock node.ctx (node.view chain loaded) block=.ok newList ∧
      loaded.getListForBlock node.ctx.serializeHash (tipHash chain)=.ok (old,loaded) ∧
      next=(loaded.storeList chain.length old
        { (if newList.nHeight=-1 then { newList with nHeight := (chain.length : ℤ) } else newList)
          with blockHash := block.hash }).cleanupCache chain.length := by
  unfold processSpecialTxsInBlock processBlock at h
  rw [if_pos hact,bind_eq_ok] at h
  obtain ⟨loaded,hload,h⟩ := h
  rw [bind_eq_ok] at h
  obtain ⟨_,hchecks,h⟩ := h
  rw [hact,Bool.not_true,if_neg Bool.false_ne_true,loadLists_again hload] at h
  rw [ok_bind,bind_eq_ok] at h
  obtain ⟨newList,hbuild,h⟩ := h
  obtain ⟨old,hold⟩ := (contains_iff _ _).mp
    (loadLists_contains hload (.inl (mem_cons_self (a := tipHash chain))))
  rw [getListForBlock_cached hold,ok_bind] at h
  cases h
  refine ⟨loaded,newList,old,hload,?_,hbuild,getListForBlock_cached hold,rfl⟩
  exact forM_eq_ok hchecks

section

variable (hinj : Function.Injective ctx.serializeHash) (h : Consistent ctx tree chain mgr)
variable (hrules : SameRules ctx node.ctx)

include hinj h hrules

theorem Consistent.built_folded (hact : ctx.dip3Active chain=true)
    (hchecks : ∀ tx∈block.vtx, checkSpecialTx node.ctx (node.view chain mgr) tx=.ok ())
    {newList : CDeterministicMNList}
    (hbuild : buildNewListFromBlock node.ctx (node.view chain mgr) block=.ok newList) :
    FoldedList ctx (chain++[block])
      { (if newList.nHeight=-1 then { newList with nHeight := (chain.length : ℤ) } else newList)
        with blockHash := block.hash } := by
  have hlists : ∀ before, before<+:chain →
      FoldedList ctx before ((node.view chain mgr).getListForBlock (tipHash before)) := by
    intro before hbefore
    obtain ⟨list,hread,hfolded⟩ := h.readListForBlock_folded hinj hbefore
    rw [hrules.serializeHash] at hread
    have hanswer : (node.view chain mgr).getListForBlock (tipHash before)=list := by
      change mgr.answers node.ctx.serializeHash (tipHash before)=list
      rw [answers,hread]
    rwa [hanswer]
  have hfolded := @FoldedList.build ctx node.ctx (node.view chain mgr) block newList
    hrules hact hlists hchecks hbuild
  obtain ⟨hgood,-⟩ := builtList_good hinj
    (foldedList_built tree (hlists chain (prefix_refl _)) h.named)
  rw [hrules.serializeHash] at hgood
  obtain ⟨-,hcontinues⟩ := buildNewListFromBlock_continues hgood.exact hbuild
  have hheight : newList.nHeight=(node.view chain mgr).nHeight+1 := hcontinues.sameBlock.2
  have hset : newList.nHeight≠-1 := by
    rw [hheight,ChainView.nHeight]
    omega
  rw [← hheight] at hfolded
  rw [if_neg hset]
  exact hfolded

/-- Connecting a block keeps the answers right, unless the block stays cached as
unknown. -/
theorem Consistent.process (htree : tree.chainOf block.hash=chain++[block])
    (hcond : ctx.dip3Active chain=true →
      listsCacheSize ≤ chain.length ∨ ¬AnsweredUnknown mgr block.hash)
    (hprocess : processSpecialTxsInBlock node chain mgr block=.ok next) :
    Consistent ctx tree (chain++[block]) next := by
  cases hact : ctx.dip3Active chain with
  | false =>
    rw [hrules.dip3Active] at hact
    unfold processSpecialTxsInBlock processBlock at hprocess
    rw [if_neg (not_eq_true _ ▸ hact),ok_bind,bind_eq_ok,hact] at hprocess
    obtain ⟨_,-,hres⟩ := hprocess
    cases hres
    rw [← hrules.dip3Active] at hact
    exact h.extend htree hact
  | true =>
    obtain ⟨loaded,newList,old,hload,hchecks,hbuild,hold,rfl⟩ :=
      processSpecialTxsInBlock_ok (hrules.dip3Active ▸ hact) hprocess
    rw [← hrules.serializeHash] at hload hold
    obtain ⟨hloaded,hframe⟩ := h.loadLists hinj hload
    obtain ⟨answer,hanswer,hfolded⟩ := hloaded.readListForBlock_folded hinj (prefix_refl chain)
    rw [(getListForBlock_frame hold).1] at hanswer
    cases hanswer
    have hnew := hloaded.built_folded hinj hrules hact hchecks hbuild
    have hstored := StoredLists.storeList h.named htree hloaded.stored hact hfolded hnew
    have hclean := hloaded.cleanup chain.length
    refine ⟨by rw [tipHash_concat,htree],hstored,hclean.cached,?_⟩
    intro before last hbefore hlast hunknown
    rcases prefix_concat_cases hbefore with he | hshorter
    · -- the block itself: its entry is as before, or cleaned up
      obtain ⟨rfl,rfl⟩ := concat_inj he
      obtain ⟨list,hlist,hunset⟩ := hunknown
      change (loaded.cleanupCache before.length).mnListsCache.find last.hash=some list at hlist
      rw [cleanupCache,find_filter,filter_eq_some_iff] at hlist
      obtain ⟨hlist,hkept⟩ := hlist
      have hnot : last.hash∉neededLists before last := by
        intro hm
        rcases mem_cons.mp hm with he | hm
        · exact tipHash_ne_next h.named htree (prefix_refl before) he.symm
        · obtain ⟨tx,htx,hquorum⟩ := mem_flatMap.mp hm
          obtain ⟨shorter,hshorter,htip⟩ :=
            quorumHashes_chain (hchecks tx (mem_of_mem_drop htx)) hquorum
          exact tipHash_ne_next h.named htree hshorter htip
      rcases hcond hact with hhigh | hknown
      · simp only [hunset,not_eq_true',decide_eq_false_iff_not,not_lt] at hkept
        omega
      · exact hknown ⟨list,(hframe _ hnot).symm.trans hlist,hunset⟩
    · exact hclean.noneUnknown before last hshorter hlast hunknown

end

end Steps

/-- The manager answers for the chain, and what a rollback restores is right for the chain it
restores. -/
structure RunInvariant (ctx : NodeContext) (tree : BlockTree) (st : RunState) : Prop where
  consistent : Consistent ctx tree st.chain st.mgr
  saved : ∀ chain evoDb, st.saved=some (chain,evoDb) →
    tree.chainOf (tipHash chain)=chain ∧ StoredLists ctx chain evoDb

theorem transition_invariant {ctx : NodeContext}
    (hinj : Function.Injective ctx.serializeHash) {tree : BlockTree} {st next : RunState}
    {action : Step} (h : RunInvariant ctx tree st)
    (hallowed : KeepsAnswers ctx st action)
    (hstep : Transition ctx tree st action next) : RunInvariant ctx tree next := by
  cases hstep with
  | query hget => exact ⟨h.consistent.query hinj hget,h.saved⟩
  | begin _ =>
    refine ⟨h.consistent,fun chain evoDb hsaved => ?_⟩
    cases hsaved
    exact ⟨h.consistent.named,h.consistent.stored⟩
  | process _ hrules htree hprocess =>
    exact ⟨h.consistent.process hinj hrules htree hallowed hprocess,h.saved⟩
  | @undo chain block _ hchain =>
    have hcons := h.consistent
    rw [hchain] at hcons
    exact ⟨hcons.undo,h.saved⟩
  | commit _ => exact ⟨h.consistent,fun _ _ hsaved => by cases hsaved⟩
  | @rollback chain evoDb hsaved =>
    obtain ⟨hnamed,hstored⟩ := h.saved chain evoDb hsaved
    refine ⟨⟨hnamed,hstored,h.consistent.cached,?_⟩,fun _ _ hsaved => by cases hsaved⟩
    exact hallowed chain evoDb hsaved
  | cleanup nHeight => exact ⟨h.consistent.cleanup nHeight,h.saved⟩

theorem run_invariant {ctx : NodeContext} (hinj : Function.Injective ctx.serializeHash)
    {tree : BlockTree} {st : RunState}
    (h : Run ctx tree (KeepsAnswers ctx) st) : RunInvariant ctx tree st := by
  induction h with
  | @start chain hnamed hinactive =>
    refine ⟨⟨hnamed,⟨?_,?_,?_⟩,?_,?_⟩,fun _ _ hsaved => by cases hsaved⟩
    · grind
    · exact fun _ _ hf => by cases hf
    · exact fun _ _ hf => by cases hf
    · exact fun _ _ hf => by cases hf
    · rintro before block - - ⟨list,hf,-⟩
      cases hf
  | step _ hallowed hstep ih => exact transition_invariant hinj ih hallowed hstep

/-- In every run whose steps leave no connected block cached as unknown, the answer for it is the
list built along its chain. -/
theorem run_getListForBlock {ctx : NodeContext}
    (hinj : Function.Injective ctx.serializeHash) {tree : BlockTree} {st : RunState}
    (h : Run ctx tree (KeepsAnswers ctx) st) {before : List CBlock} {block : CBlock}
    (hconn : before++[block]<+:st.chain) :
    ∃ list mgr,
      st.mgr.getListForBlock ctx.serializeHash block.hash=.ok (list,mgr) ∧
      FoldedList ctx (before++[block]) list ∧
      ∀ other, FoldedList ctx (before++[block]) other → other=list := by
  obtain ⟨list,hread,hfolded⟩ :=
    (run_invariant hinj h).consistent.readListForBlock_folded hinj hconn
  rw [tipHash_concat] at hread
  refine ⟨list,{ st.mgr with
    mnListsCache := st.mgr.mnListsCache.emplace block.hash list },?_,hfolded,
    fun other hother => foldedList_unique hother hfolded⟩
  rw [getListForBlock,hread,ok_bind]

/-- Block with nothing but a coinbase at a height. -/
def heightBlock (nHeight : ℕ) : CBlock where
  hash := nHeight+1
  vtx := [{
    nVersion := 3
    nType := .coinbase
    vin := [{ prevout := COutPoint.null }]
    vExtraPayload := .cbTx { nHeight := nHeight }
    hash := 10000+nHeight
    payload_special := fun h => absurd h (by decide) }]

variable (length : ℕ)

def heightChain : List CBlock := (range length).map heightBlock

theorem heightChain_succ : heightChain (length+1)=heightChain length++[heightBlock length] := by
  rw [heightChain,range_succ,map_append]
  rfl

theorem tipHash_heightChain : tipHash (heightChain length)=length := by
  cases length with
  | zero => rfl
  | succ length =>
    rw [heightChain_succ,tipHash_concat]
    rfl

theorem listTxHashes_heightChain : listTxHashes (heightChain length)=[] := by
  unfold listTxHashes heightChain
  rw [flatMap_map]
  exact flatMap_eq_nil_iff.mpr (fun _ _ => rfl)

/-- A single chain of such blocks, each with its height and one as its hash. -/
def heightTree : BlockTree where
  chainOf := heightChain
  root := rfl
  tip := by
    intro blockHash chain block h
    cases blockHash with
    | zero => exact absurd h.symm (append_ne_nil_of_right_ne_nil _ (cons_ne_nil _ _))
    | succ length =>
      rw [heightChain_succ] at h
      obtain ⟨rfl,rfl⟩ := concat_inj h
      exact ⟨rfl,by rw [tipHash_heightChain]⟩
  nodup := fun blockHash => by
    rw [listTxHashes_heightChain]
    exact nodup_nil
  hashes := fun blockHash => by
    rw [listTxHashes_heightChain]
    exact not_mem_nil

/-- The regression test network, where the deployment is active from height 432. -/
def regtestNode : NodeContext := { sampleNode with dip3Active := fun chain => 432 ≤ chain.length }

theorem regtest_start (allowed : RunState → Step → Prop) :
    Run regtestNode heightTree allowed { chain := heightChain 432 } := by
  refine .start ?_ ?_
  · exact congrArg heightChain (tipHash_heightChain 432)
  · intro before block hbefore
    have hlen := hbefore.length_le
    rw [length_append,length_singleton,heightChain,length_map,length_range] at hlen
    exact decide_eq_false (by omega)

theorem run_connect {ctx : NodeContext} {tree : BlockTree}
    {allowed : RunState → Step → Prop} {chain : List CBlock} {mgr next : CDeterministicMNManager}
    {node : NodeState} {block : CBlock}
    (h : Run ctx tree allowed { chain := chain, mgr := mgr })
    (hrules : SameRules ctx node.ctx) (htree : tree.chainOf block.hash=chain++[block])
    (hprocess : processSpecialTxsInBlock node chain mgr block=.ok next)
    (hbegin : allowed ⟨chain,mgr,none⟩ .begin)
    (hallowed : allowed ⟨chain,mgr,some (chain,mgr.evoDb)⟩ (.process node block))
    (hcommit : allowed ⟨chain++[block],next,some (chain,mgr.evoDb)⟩ .commit) :
    Run ctx tree allowed { chain := chain++[block], mgr := next } :=
  ((h.step hbegin (.begin rfl)).step hallowed (.process rfl hrules htree hprocess)).step hcommit
    (.commit rfl)

set_option maxRecDepth 100000 in
/-- The first block with a list, connected while nobody has asked for it. -/
theorem run_getListForBlock_sample :
    ∃ st list mgr, Run regtestNode heightTree (KeepsAnswers regtestNode) st ∧
      st.chain=heightChain 432++[heightBlock 432] ∧
      regtestNode.dip3Active (heightChain 432)=true ∧
      st.mgr.getListForBlock propertyCode 433=.ok (list,mgr) ∧
      FoldedList regtestNode (heightChain 432++[heightBlock 432]) list := by
  obtain ⟨next,hnext⟩ := exists_ok (show (processSpecialTxsInBlock { ctx := regtestNode }
    (heightChain 432) {} (heightBlock 432)).toOption.isSome=true by decide)
  have hrun : Run regtestNode heightTree (KeepsAnswers regtestNode)
      { chain := heightChain 432++[heightBlock 432], mgr := next } := by
    refine run_connect (regtest_start _) ⟨rfl,rfl,rfl,rfl,rfl⟩ (heightChain_succ 432) hnext trivial
      (fun _ => .inr ?_) trivial
    rintro ⟨list,hlist,-⟩
    cases hlist
  obtain ⟨list,mgr,hget,hfolded,-⟩ := run_getListForBlock propertyCode_injective hrun
    (prefix_refl (heightChain 432++[heightBlock 432]))
  exact ⟨_,list,mgr,hrun,rfl,by decide,hget,hfolded⟩

/-- The cache after somebody has asked for a block that is not connected. -/
def askedManager : CDeterministicMNManager where
  mnListsCache := OrderedMap.empty.set 433 { blockHash := 433 }

set_option maxRecDepth 100000 in
/-- A block is connected after somebody has asked for it, and the answer stays. -/
theorem run_getListForBlock_unknown :
    ∃ st list mgr, Run regtestNode heightTree (fun _ _ => True) st ∧
      st.chain=heightChain 432++[heightBlock 432] ∧
      regtestNode.dip3Active (heightChain 432)=true ∧
      st.mgr.getListForBlock propertyCode 433=.ok (list,mgr) ∧
      ¬FoldedList regtestNode (heightChain 432++[heightBlock 432]) list := by
  have hanswer : ((processSpecialTxsInBlock { ctx := regtestNode } (heightChain 432)
      askedManager (heightBlock 432)).toOption.bind (fun mgr =>
        (mgr.getListForBlock propertyCode 433).toOption)).map
          (fun found => found.1.nHeight)=some (-1) := by decide
  obtain ⟨found,hfound,hheight⟩ := map_eq_some_iff.mp hanswer
  obtain ⟨next,hnext,hget⟩ := bind_eq_some_iff.mp hfound
  have hact : regtestNode.dip3Active (heightChain 432)=true := by decide
  have hasked : Run regtestNode heightTree (fun _ _ => True)
      { chain := heightChain 432, mgr := askedManager } :=
    (regtest_start _).step trivial (.query (show
      ({} : CDeterministicMNManager).getListForBlock regtestNode.serializeHash 433=
        .ok ({ blockHash := 433 },askedManager) from rfl))
  have hrun : Run regtestNode heightTree (fun _ _ => True)
      { chain := heightChain 432++[heightBlock 432], mgr := next } :=
    run_connect hasked ⟨rfl,rfl,rfl,rfl,rfl⟩ (heightChain_succ 432) (eq_ok_of_toOption hnext)
      trivial trivial trivial
  refine ⟨_,found.1,found.2,hrun,rfl,hact,eq_ok_of_toOption hget,fun hfolded => ?_⟩
  exact foldedList_active_height hfolded hact hheight

end Pyrk.ListReplay
