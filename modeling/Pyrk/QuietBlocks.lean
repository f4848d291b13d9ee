import Pyrk.BuildNewList
import Pyrk.Rotation

/-!
# Blocks that only pay

A block without special transactions that spends no collateral confirms masternodes, lowers
penalties and marks the masternode that it pays.
-/

namespace Pyrk.QuietBlocks

open Option

open Transaction DeterministicMNList ProviderTx BuildNewList OrderedMap List

/-- A masternode without what blocks without transactions may change. -/
def settled (dmn : CDeterministicMN) : CDeterministicMN :=
  { dmn with pdmnState := { dmn.pdmnState with
    nPoSePenalty := 0, confirmedHash := 0, confirmedHashWithProRegTxHash := 0 } }

/-- A masternode that was paid at a height. -/
def paidMN (nHeight : ℤ) (dmn : CDeterministicMN) : CDeterministicMN :=
  { dmn with pdmnState := { dmn.pdmnState with nLastPaidHeight := nHeight } }

/-- Lists with the same masternodes but for confirmations and penalties. -/
def SameSettled (first second : CDeterministicMNList) : Prop :=
  ∀ proTxHash, (first.mnMap.find proTxHash).map settled=(second.mnMap.find proTxHash).map settled

/-- A block with plain transactions that spend no collateral of a list. -/
structure QuietBlock (list : CDeterministicMNList) (block : CBlock) : Prop where
  plain : ∀ tx∈listTxs block, tx.nVersion≠3 ∨ tx.nType=.normal
  unspent : ∀ tx∈listTxs block, ∀ txin∈tx.vin, ∀ dmn∈list.forEachMN false,
    dmn.collateralOutpoint≠txin.prevout

theorem updateMN_unchanged {serializeHash : UniqueProperty → Uint256}
    {list : CDeterministicMNList} {proTxHash : Uint256} {dmn : CDeterministicMN}
    {pdmnState : CDeterministicMNState} (hfind : list.mnMap.find proTxHash=some dmn)
    (haddr : dmn.pdmnState.addr=pdmnState.addr)
    (howner : dmn.pdmnState.keyIDOwner=pdmnState.keyIDOwner)
    (hop : dmn.pdmnState.pubKeyOperator=pdmnState.pubKeyOperator) :
    list.updateMN serializeHash proTxHash pdmnState=
      .ok { list with mnMap := list.mnMap.set proTxHash { dmn with pdmnState := pdmnState } } := by
  unfold CDeterministicMNList.updateMN
  rw [hfind]
  simp [CDeterministicMNList.updateUniqueProperty,haddr,howner,hop,ok_bind]

section Settled

variable {ctx : NodeContext} {old list : CDeterministicMNList}

theorem settled_properties {first second : CDeterministicMN} (h : settled first=settled second) :
    first.pdmnState.addr=second.pdmnState.addr ∧
    first.pdmnState.keyIDOwner=second.pdmnState.keyIDOwner ∧
    first.pdmnState.pubKeyOperator=second.pdmnState.pubKeyOperator ∧
    first.collateralOutpoint=second.collateralOutpoint := by
  simp only [settled,CDeterministicMN.mk.injEq,CDeterministicMNState.mk.injEq] at h
  simp only [h,and_self]

theorem SameSettled.find (h : SameSettled list old) {proTxHash : Uint256} {dmn : CDeterministicMN}
    (hfind : old.mnMap.find proTxHash=some dmn) :
    ∃ current, list.mnMap.find proTxHash=some current ∧ settled current=settled dmn := by
  have hsame := h proTxHash
  rw [hfind,map_some,map_eq_some_iff] at hsame
  exact hsame

theorem SameSettled.updateMN (h : SameSettled list old) {proTxHash : Uint256}
    {dmn : CDeterministicMN} (hfind : old.mnMap.find proTxHash=some dmn)
    {pdmnState : CDeterministicMNState}
    (hstate : settled { dmn with pdmnState := pdmnState }=settled dmn) :
    ∃ next, list.updateMN ctx.serializeHash proTxHash pdmnState=.ok next ∧
      SameSettled next old ∧ next.nHeight=list.nHeight ∧
      (∀ other, other≠proTxHash → next.mnMap.find other=list.mnMap.find other) := by
  obtain ⟨current,hcurrent,hsettled⟩ := h.find hfind
  obtain ⟨haddr,howner,hop,-⟩ := settled_properties (hsettled.trans hstate.symm)
  refine ⟨_,updateMN_unchanged hcurrent haddr howner hop,fun other => ?_,rfl,
    fun other hne => find_set_of_ne _ _ hne⟩
  rw [find_set]
  split_ifs with he
  · subst he
    have hmn : settled { current with pdmnState := pdmnState }=settled dmn := by
      rw [← hstate]
      have hfields := hsettled
      rw [CDeterministicMN.mk.injEq] at hfields ⊢
      exact ⟨hfields.1,hfields.2.1,hfields.2.2.1,rfl⟩
    rw [hfind,map_some,map_some,hmn]
  · exact h other

theorem confirmMN_next (hkeyed : Keyed old.mnMap) {view : ChainView} {dmn : CDeterministicMN}
    (hdmn : dmn∈old.forEachMN false) (h : SameSettled list old) :
    ∃ next, confirmMN ctx view list dmn=.ok next ∧ SameSettled next old ∧
      next.nHeight=list.nHeight := by
  unfold confirmMN
  dsimp only
  split_ifs
  · exact ⟨list,rfl,h,rfl⟩
  · obtain ⟨next,hnext,hsettled,hheight,-⟩ := @SameSettled.updateMN ctx old list h _ dmn
      (hkeyed.find_of_mem hdmn)
      (dmn.pdmnState.updateConfirmedHash ctx.sha256 dmn.proTxHash view.blockHash) rfl
    exact ⟨next,hnext,hsettled,hheight⟩
  · exact ⟨list,rfl,h,rfl⟩

theorem confirmMN_settled (hkeyed : Keyed old.mnMap) {view : ChainView}
    {dmns : List CDeterministicMN}
    (hdmns : ∀ dmn∈dmns, dmn∈old.forEachMN false) (h : SameSettled list old) :
    ∃ next, dmns.foldlM (confirmMN ctx view) list=.ok next ∧ SameSettled next old ∧
      next.nHeight=list.nHeight := by
  induction dmns generalizing list with
  | nil => exact ⟨list,rfl,h,rfl⟩
  | cons dmn dmns ih =>
    rw [forall_mem_cons] at hdmns
    obtain ⟨next,hnext,hsettled,hheight⟩ := confirmMN_next hkeyed hdmns.1 h
    obtain ⟨final,hfinal,hlast,hsame⟩ := ih hdmns.2 hsettled
    refine ⟨final,?_,hlast,hsame.trans hheight⟩
    rw [foldlM_cons,hnext]
    exact hfinal

/-- A penalty that can be lowered. -/
def IsDue (list : CDeterministicMNList) (proTxHash : Uint256) : Prop :=
  ∃ dmn, list.mnMap.find proTxHash=some dmn ∧ 0 < dmn.pdmnState.nPoSePenalty ∧
    dmn.pdmnState.nPoSeBanHeight=-1

theorem poSeDecrease_settled {hashes : List Uint256} (hnodup : hashes.Nodup)
    (hdue : ∀ proTxHash∈hashes, IsDue list proTxHash) (h : SameSettled list old) :
    ∃ next, hashes.foldlM (poSeDecrease ctx) list=.ok next ∧ SameSettled next old ∧
      next.nHeight=list.nHeight := by
  induction hashes generalizing list with
  | nil => exact ⟨list,rfl,h,rfl⟩
  | cons proTxHash hashes ih =>
    rw [forall_mem_cons] at hdue
    rw [nodup_cons] at hnodup
    obtain ⟨⟨dmn,hfind,hpenalty,hban⟩,hothers⟩ := hdue
    have hself : SameSettled list list := fun _ => rfl
    obtain ⟨next,hnext,hsettled,hheight,hframe⟩ := @SameSettled.updateMN ctx list list hself _ dmn
      hfind { dmn.pdmnState with nPoSePenalty := dmn.pdmnState.nPoSePenalty-1 } rfl
    obtain ⟨final,hfinal,hlast,hsame⟩ := ih hnodup.2 (fun other hm => by
      obtain ⟨found,hfound,hrest⟩ := hothers other hm
      refine ⟨found,?_,hrest⟩
      rw [hframe other (fun he => hnodup.1 (he ▸ hm)),hfound])
      (fun other => (hsettled other).trans (h other))
    refine ⟨final,?_,hlast,hsame.trans hheight⟩
    rw [foldlM_cons,poSeDecrease,CDeterministicMNList.getMN,hfind]
    dsimp only
    rw [assertThat,decide_eq_true hpenalty,decide_eq_true hban,Bool.and_self,if_pos rfl,
      ok_bind,hnext]
    exact hfinal

end Settled

variable {ctx : NodeContext} {view : ChainView} {block : CBlock}

theorem applyTx_plain {list : CDeterministicMNList} {txs : List CTransaction}
    (hplain : ∀ tx∈txs, tx.nVersion≠3 ∨ tx.nType=.normal) :
    txs.foldlM (applyTx ctx view) list=.ok list := by
  induction txs with
  | nil => rfl
  | cons tx txs ih =>
    rw [forall_mem_cons] at hplain
    have htx : applyTx ctx view list tx=.ok list := by
      unfold applyTx
      split_ifs with hver
      · rfl
      · rw [hplain.1.resolve_left hver]
    rw [foldlM_cons,htx,ok_bind,ih hplain.2]

theorem removeSpentCollateral_none {list old : CDeterministicMNList} (h : SameSettled list old)
    {inputs : List CTxIn} (hunspent : ∀ txin∈inputs, ∀ dmn∈old.forEachMN false,
      dmn.collateralOutpoint≠txin.prevout) :
    inputs.foldlM (removeSpentCollateral ctx) list=.ok list := by
  induction inputs with
  | nil => rfl
  | cons txin inputs ih =>
    rw [forall_mem_cons] at hunspent
    have htxin : removeSpentCollateral ctx list txin=.ok list := by
      unfold removeSpentCollateral
      cases hholder : list.getMNByCollateral ctx.serializeHash txin.prevout with
      | none => rfl
      | some dmn =>
        refine if_neg (fun hcoll => ?_)
        unfold CDeterministicMNList.getMNByCollateral
          CDeterministicMNList.getUniquePropertyMN at hholder
        split at hholder
        · cases hholder
        · rename_i entry _
          have hsame := h entry.1
          rw [show list.mnMap.find entry.1=some dmn from hholder,map_some,eq_comm,
            map_eq_some_iff] at hsame
          obtain ⟨found,hfound,hsettled⟩ := hsame
          have hvisited : found∈old.forEachMN false :=
            mem_filter.mpr ⟨(old.mnMap.mem_values_iff found).mpr ⟨entry.1,hfound⟩,rfl⟩
          refine hunspent.1 found hvisited ?_
          rw [(settled_properties hsettled).2.2.2,hcoll]
    rw [foldlM_cons,htxin,ok_bind,ih hunspent.2]

theorem prepareNewList_settled (hkeyed : Keyed view.mnList.mnMap) :
    ∃ next, prepareNewList ctx view=.ok next ∧ SameSettled next view.mnList ∧
      next.nHeight=view.nHeight+1 := by
  obtain ⟨middle,hmid,hsettled,hheight⟩ := @confirmMN_settled ctx view.mnList
    { view.mnList with blockHash := 0, nHeight := view.nHeight+1 } hkeyed view
    (view.mnList.forEachMN false) (fun _ hm => hm) (fun _ => rfl)
  have hmkeyed : Keyed middle.mnMap := by
    intro proTxHash dmn hfind
    have hsame := hsettled proTxHash
    rw [hfind,map_some,eq_comm,map_eq_some_iff] at hsame
    obtain ⟨found,hfound,hsame⟩ := hsame
    rw [← hkeyed proTxHash found hfound]
    exact (congrArg CDeterministicMN.proTxHash hsame).symm
  obtain ⟨next,hnext,hlast,hsame⟩ := @poSeDecrease_settled ctx view.mnList middle
    (((middle.forEachMN true).filter (fun dmn =>
      0<dmn.pdmnState.nPoSePenalty && dmn.pdmnState.nPoSeBanHeight=-1)).map
        CDeterministicMN.proTxHash)
    ((hmkeyed.nodup_forEachMN true).sublist (filter_sublist.map _)) (by
      intro proTxHash hm
      obtain ⟨dmn,hdmn,rfl⟩ := mem_map.mp hm
      obtain ⟨hvisited,hdue⟩ := mem_filter.mp hdmn
      rw [Bool.and_eq_true,decide_eq_true_eq,decide_eq_true_eq] at hdue
      exact ⟨dmn,hmkeyed.find_of_mem hvisited,hdue⟩) hsettled
  refine ⟨next,?_,hlast,hsame.trans hheight⟩
  unfold prepareNewList
  dsimp only
  rw [hmid]
  exact hnext

theorem buildNewListFromBlock_quiet (hkeyed : Keyed view.mnList.mnMap)
    (hquiet : QuietBlock view.mnList block) :
    ∃ next, buildNewListFromBlock ctx view block=.ok next ∧ next.nHeight=view.nHeight+1 ∧
      ∀ proTxHash, (next.mnMap.find proTxHash).map settled=
        (view.mnList.mnMap.find proTxHash).map (fun dmn => settled
          (if (getMNPayee view.mnList).map CDeterministicMN.proTxHash=some proTxHash then
            paidMN (view.nHeight+1) dmn else dmn)) := by
  obtain ⟨prepared,hprepared,hsettled,hheight⟩ := @prepareNewList_settled ctx view hkeyed
  have hpay : ∃ next, payMN ctx (view.nHeight+1) (getMNPayee view.mnList) prepared=.ok next ∧
      next.nHeight=view.nHeight+1 ∧ ∀ proTxHash, (next.mnMap.find proTxHash).map settled=
        (view.mnList.mnMap.find proTxHash).map (fun dmn => settled
          (if (getMNPayee view.mnList).map CDeterministicMN.proTxHash=some proTxHash then
            paidMN (view.nHeight+1) dmn else dmn)) := by
    unfold payMN
    cases hpayee : getMNPayee view.mnList with
    | none => exact ⟨prepared,rfl,hheight,fun proTxHash => by simpa using hsettled proTxHash⟩
    | some payee =>
      dsimp only
      rw [CDeterministicMNList.getMN]
      cases hfind : prepared.mnMap.find payee.proTxHash with
      | none =>
        refine ⟨prepared,rfl,hheight,fun proTxHash => ?_⟩
        by_cases he : payee.proTxHash=proTxHash
        · subst he
          have hsame := hsettled payee.proTxHash
          rw [hfind,map_none,eq_comm,map_eq_none_iff] at hsame
          rw [hfind,hsame]
          rfl
        · simpa [he] using hsettled proTxHash
      | some dmn =>
        refine ⟨_,updateMN_unchanged hfind rfl rfl rfl,hheight,fun proTxHash => ?_⟩
        rw [find_set]
        by_cases he : proTxHash=payee.proTxHash
        · subst he
          have hsame := hsettled payee.proTxHash
          rw [hfind,map_some,eq_comm,map_eq_some_iff] at hsame
          obtain ⟨found,hfound,hsame⟩ := hsame
          rw [if_pos rfl,hfound,map_some,map_some,map_some,if_pos rfl]
          simp only [settled,paidMN,CDeterministicMN.mk.injEq,
            CDeterministicMNState.mk.injEq] at hsame ⊢
          simp only [hsame]
        · rw [if_neg he]
          simpa [Ne.symm he] using hsettled proTxHash
  obtain ⟨next,hnext,hfinal,hfind⟩ := hpay
  refine ⟨next,?_,hfinal,hfind⟩
  have hspent := @removeSpentCollateral_none ctx prepared view.mnList hsettled
    ((listTxs block).flatMap CTransaction.vin) (by
      intro txin hm
      obtain ⟨tx,htx,hin⟩ := mem_flatMap.mp hm
      exact hquiet.unspent tx htx txin hin)
  unfold buildNewListFromBlock
  rw [hprepared,ok_bind,applyTx_plain hquiet.plain,ok_bind,hspent,ok_bind]
  exact hnext

end Pyrk.QuietBlocks
