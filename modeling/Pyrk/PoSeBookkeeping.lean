import Pyrk.HashOrder

/-!
# Penalties and bans

A new list is built in steps that change one masternode each, and every step says what it does to
the penalty and the ban.
-/

namespace Pyrk.PoSeBookkeeping

open List

open Transaction DeterministicMNList FinalCommitment ProviderTx BuildNewList OrderedMap

/-- A step of building a new list. -/
inductive ListStep where
  | confirm (dmn : CDeterministicMN)
  | decrease (proTxHash : Uint256)
  /-- Remove the masternode that has the collateral of a new one. -/
  | replace (outpoint : COutPoint)
  | register (tx : CTransaction) (proTx : CProRegTx)
  | serve (proTx : CProUpServTx)
  | rekey (proTx : CProUpRegTx)
  | revoke (proTx : CProUpRevTx)
  /-- Punish a member of a quorum that did not take part. -/
  | punish (qc : CFinalCommitment) (member : CDeterministicMN×ℕ)
  /-- Remove the masternode whose collateral is spent. -/
  | spend (input : CTxIn)
  | pay (payee : Option CDeterministicMN)

/-- A step with the lists before and after it. -/
structure Moment where
  before : CDeterministicMNList
  step : ListStep
  after : CDeterministicMNList

section Steps

variable (ctx : NodeContext) (view : ChainView)

def applyStep (list : CDeterministicMNList) : ListStep → Checked CDeterministicMNList
  | .confirm dmn => confirmMN ctx view list dmn
  | .decrease proTxHash => poSeDecrease ctx list proTxHash
  | .replace outpoint => removeReplaced ctx list outpoint
  | .register tx proTx => list.addMN ctx.serializeHash (registeredMN (view.nHeight+1) tx proTx)
  | .serve proTx => applyProUpServTx ctx view list proTx
  | .rekey proTx => applyProUpRegTx ctx view list proTx
  | .revoke proTx => applyProUpRevTx ctx view list proTx
  | .punish qc member => punishMember ctx qc list member
  | .spend input => removeSpentCollateral ctx list input
  | .pay payee => payMN ctx (view.nHeight+1) payee list

def txSteps (tx : CTransaction) : List ListStep :=
  if tx.nVersion≠3 then []
  else
    match tx.nType with
    | .providerRegister => (tx.getProRegTx.map (fun proTx =>
        [.replace (collateralOutpoint tx proTx),.register tx proTx])).getD []
    | .providerUpdateService => (tx.getProUpServTx.map (fun proTx => [.serve proTx])).getD []
    | .providerUpdateRegistrar => (tx.getProUpRegTx.map (fun proTx => [.rekey proTx])).getD []
    | .providerUpdateRevoke => (tx.getProUpRevTx.map (fun proTx => [.revoke proTx])).getD []
    | .quorumCommitment => (tx.getFinalCommitment.map (fun qc =>
        if isNull qc.commitment then []
        else (getAllQuorumMembers ctx view.getListForBlock qc.commitment.llmqType
          qc.commitment.quorumHash).zipIdx.map (.punish qc.commitment))).getD []
    | _ => []

def confirmSteps : List ListStep := (view.mnList.forEachMN false).map .confirm

/-- Steps that lower the penalties of a list. -/
def decreaseSteps (list : CDeterministicMNList) : List ListStep :=
  (((list.forEachMN true).filter (fun dmn =>
    0<dmn.pdmnState.nPoSePenalty && dmn.pdmnState.nPoSeBanHeight=-1)).map
      CDeterministicMN.proTxHash).map .decrease

variable (block : CBlock)

/-- Steps of the transactions and the payment of a block. -/
def txsSteps : List ListStep :=
  (listTxs block).flatMap (txSteps ctx view)++
    ((listTxs block).flatMap CTransaction.vin).map .spend++[.pay (getMNPayee view.mnList)]

/-- Lists before and after each step, as long as the steps succeed. -/
def moments (list : CDeterministicMNList) : List ListStep → List Moment
  | [] => []
  | step::steps =>
    match applyStep ctx view list step with
    | .error _ => []
    | .ok next => ⟨list,step,next⟩::moments next steps

def startList : CDeterministicMNList :=
  { view.mnList with blockHash := 0, nHeight := view.nHeight+1 }

/-- Steps of a block; those that lower penalties are known after the confirmations. -/
def blockSteps : List ListStep :=
  match (confirmSteps view).foldlM (applyStep ctx view) (startList view) with
  | .error _ => confirmSteps view
  | .ok confirmed => confirmSteps view++decreaseSteps confirmed++txsSteps ctx view block

/-- Lists before and after each step of a block. -/
def blockMoments : List Moment :=
  moments ctx view (startList view) (blockSteps ctx view block)

/-- Chains of blocks whose lists are built, with all moments on the way. -/
inductive PoSeRun : List Moment → CDeterministicMNList → Prop
  | start (blockHash : Uint256) {nHeight : ℤ} : 0≤nHeight →
    PoSeRun [] { blockHash := blockHash, nHeight := nHeight }
  | block {past : List Moment} {view : ChainView} {block : CBlock} {next : CDeterministicMNList}
    (blockHash : Uint256) : PoSeRun past view.mnList → view.nHeight=view.mnList.nHeight →
    buildNewListFromBlock ctx view block=.ok next →
    PoSeRun (past++blockMoments ctx view block) { next with blockHash := blockHash }

end Steps

section Running

variable {ctx : NodeContext} {view : ChainView}

theorem txSteps_ok {list next : CDeterministicMNList} {tx : CTransaction}
    (h : applyTx ctx view list tx=.ok next) :
    (txSteps ctx view tx).foldlM (applyStep ctx view) list=.ok next := by
  have hone : ∀ {step : ListStep}, applyStep ctx view list step=.ok next →
      [step].foldlM (applyStep ctx view) list=.ok next := by
    intro step hstep
    rw [foldlM_cons,hstep,ok_bind]
    rfl
  unfold applyTx at h
  unfold txSteps
  by_cases hver : tx.nVersion≠3
  · rw [if_pos hver] at h ⊢
    exact h
  · rw [if_neg hver] at h ⊢
    cases htype : tx.nType with
    | normal => rw [htype] at h; exact h
    | coinbase => rw [htype] at h; exact h
    | unknown nType => rw [htype] at h; exact h
    | providerRegister =>
      rw [htype] at h
      cases hpayload : tx.getProRegTx with
      | none => rw [hpayload] at h; cases h
      | some proTx =>
        rw [hpayload] at h
        unfold withPayload at h
        unfold applyProRegTx at h
        simp only [bind_eq_ok] at h
        obtain ⟨_,-,replaced,hrepl,_,-,_,-,hadd⟩ := h
        rw [Option.map_some,Option.getD_some,foldlM_cons]
        have hfirst : applyStep ctx view list (.replace (collateralOutpoint tx proTx))=
            .ok replaced := hrepl
        rw [hfirst,ok_bind,foldlM_cons]
        have hsecond : applyStep ctx view replaced (.register tx proTx)=.ok next := hadd
        rw [hsecond,ok_bind]
        rfl
    | providerUpdateService =>
      rw [htype] at h
      cases hpayload : tx.getProUpServTx with
      | none => rw [hpayload] at h; cases h
      | some proTx => rw [hpayload] at h; exact hone h
    | providerUpdateRegistrar =>
      rw [htype] at h
      cases hpayload : tx.getProUpRegTx with
      | none => rw [hpayload] at h; cases h
      | some proTx => rw [hpayload] at h; exact hone h
    | providerUpdateRevoke =>
      rw [htype] at h
      cases hpayload : tx.getProUpRevTx with
      | none => rw [hpayload] at h; cases h
      | some proTx => rw [hpayload] at h; exact hone h
    | quorumCommitment =>
      rw [htype] at h
      cases hpayload : tx.getFinalCommitment with
      | none => rw [hpayload] at h; cases h
      | some qc =>
        rw [hpayload] at h
        unfold withPayload applyCommitment at h
        dsimp only at h
        rw [Option.map_some,Option.getD_some]
        by_cases hnull : isNull qc.commitment=true
        · rw [if_pos hnull] at h ⊢
          exact h
        · rw [if_neg hnull] at h ⊢
          rw [foldlM_map]
          exact h

theorem blockSteps_ok {block : CBlock} {next : CDeterministicMNList}
    (h : buildNewListFromBlock ctx view block=.ok next) :
    (blockSteps ctx view block).foldlM (applyStep ctx view) (startList view)=.ok next := by
  have htxs : ∀ {txs : List CTransaction} {list final : CDeterministicMNList},
      txs.foldlM (applyTx ctx view) list=.ok final →
      (txs.flatMap (txSteps ctx view)).foldlM (applyStep ctx view) list=.ok final := by
    intro txs
    induction txs with
    | nil => exact fun hrun => hrun
    | cons tx txs ih =>
      intro list final hrun
      rw [foldlM_cons,bind_eq_ok] at hrun
      obtain ⟨middle,hmid,hrest⟩ := hrun
      rw [flatMap_cons,foldlM_append,txSteps_ok hmid,ok_bind]
      exact ih hrest
  unfold buildNewListFromBlock prepareNewList at h
  simp only [bind_eq_ok] at h
  obtain ⟨prepared,⟨confirmed,hconf,hprepared⟩,applied,happlied,spent,hspent,hpaid⟩ := h
  have hconfirm : (confirmSteps view).foldlM (applyStep ctx view) (startList view)=
      .ok confirmed := by
    rw [confirmSteps,foldlM_map]
    exact hconf
  unfold blockSteps
  rw [hconfirm]
  rw [foldlM_append,foldlM_append,hconfirm,ok_bind]
  have hdecrease : (decreaseSteps confirmed).foldlM (applyStep ctx view) confirmed=
      .ok prepared := by
    rw [decreaseSteps,foldlM_map]
    exact hprepared
  rw [hdecrease,ok_bind,txsSteps,foldlM_append,foldlM_append,htxs happlied,ok_bind,foldlM_map]
  have hspend : ((listTxs block).flatMap CTransaction.vin).foldlM
      (fun list input => applyStep ctx view list (.spend input)) applied=.ok spent := hspent
  rw [hspend,ok_bind,foldlM_cons]
  have hpay : applyStep ctx view spent (.pay (getMNPayee view.mnList))=.ok next := hpaid
  rw [hpay,ok_bind]
  rfl

end Running

section Effects

variable {ctx : NodeContext} {view : ChainView} {list next : CDeterministicMNList}

def ListStep.revives (proTxHash : Uint256) : ListStep → Prop
  | .serve proTx => proTx.proTxHash=proTxHash
  | _ => False

def ListStep.punishes (proTxHash : Uint256) : ListStep → Prop
  | .punish qc member => member.1.proTxHash=proTxHash ∧ qc.validMembers[member.2]?=some false
  | _ => False

/-- Penalty for not taking part in a quorum. -/
def memberPenalty (list : CDeterministicMNList) : ℤ := calcMaxPoSePenalty list*66/100

/-- What a step does to the penalty and the ban of a masternode. -/
inductive PoSeChange (view : ChainView) (list : CDeterministicMNList) (step : ListStep)
    (proTxHash : Uint256) (old new : CDeterministicMNState) : Prop
  | kept : new.nPoSePenalty=old.nPoSePenalty → new.nPoSeBanHeight=old.nPoSeBanHeight →
    PoSeChange view list step proTxHash old new
  | lowered : old.nPoSeBanHeight=-1 → 0<old.nPoSePenalty →
    new.nPoSePenalty=old.nPoSePenalty-1 → new.nPoSeBanHeight=-1 →
    PoSeChange view list step proTxHash old new
  | banned : old.nPoSeBanHeight=-1 → new.nPoSePenalty=old.nPoSePenalty →
    new.nPoSeBanHeight=view.nHeight+1 → PoSeChange view list step proTxHash old new
  | revived : step.revives proTxHash → old.nPoSeBanHeight≠-1 → new.nPoSePenalty=0 →
    new.nPoSeBanHeight=-1 → PoSeChange view list step proTxHash old new
  | punished : step.punishes proTxHash → new=punishedState list old (memberPenalty list) →
    PoSeChange view list step proTxHash old new

/-- What a step does to a list. -/
structure StepEffect (ctx : NodeContext) (view : ChainView) (list : CDeterministicMNList)
    (step : ListStep) (next : CDeterministicMNList) : Prop where
  exact : ExactList ctx.serializeHash next
  height : next.nHeight=list.nHeight
  /-- Masternodes are new and without a penalty, or were there before. -/
  find : ∀ proTxHash new, next.mnMap.find proTxHash=some new →
    list.mnMap.find proTxHash=none ∧ new.pdmnState.nPoSePenalty=0 ∨
    ∃ old, list.mnMap.find proTxHash=some old ∧
      PoSeChange view list step proTxHash old.pdmnState new.pdmnState

variable {step : ListStep}

theorem stepEffect_ok (hexact : ExactList ctx.serializeHash list) :
    StepEffect ctx view list step list :=
  ⟨hexact,rfl,fun _ new hfind => .inr ⟨new,hfind,.kept rfl rfl⟩⟩

variable {proTxHash : Uint256}

theorem stepEffect_updateMN
    {pdmnState : CDeterministicMNState} (hexact : ExactList ctx.serializeHash list)
    (h : list.updateMN ctx.serializeHash proTxHash pdmnState=.ok next)
    (hchange : ∀ old, list.mnMap.find proTxHash=some old →
      PoSeChange view list step proTxHash old.pdmnState pdmnState) :
    StepEffect ctx view list step next := by
  obtain ⟨dmn,hdmn,⟨map,rfl⟩,hnext⟩ := CDeterministicMNList.updateMN_exact hexact h
  refine ⟨hnext,rfl,?_⟩
  intro other new hfind
  rw [find_set] at hfind
  split_ifs at hfind with hself
  · cases hfind
    rw [hself]
    exact .inr ⟨dmn,hdmn,hchange dmn hdmn⟩
  · exact .inr ⟨new,hfind,.kept rfl rfl⟩

theorem stepEffect_removeMN (hexact : ExactList ctx.serializeHash list)
    (h : list.removeMN ctx.serializeHash proTxHash=.ok next) :
    StepEffect ctx view list step next := by
  obtain ⟨-,⟨map,rfl⟩,hnext⟩ := CDeterministicMNList.removeMN_exact hexact h
  refine ⟨hnext,rfl,?_⟩
  intro other new hfind
  rw [find_erase] at hfind
  split_ifs at hfind with hself
  exact .inr ⟨new,hfind,.kept rfl rfl⟩

theorem stepEffect_registered {step : ListStep} {proTxHash : Uint256} {reason : String}
    {change : CDeterministicMNState → CDeterministicMNState}
    (hexact : ExactList ctx.serializeHash list)
    (h : (orReject (list.getMN proTxHash) 100 reason>>=fun dmn =>
      list.updateMN ctx.serializeHash proTxHash (change dmn.pdmnState))=.ok next)
    (hchange : ∀ old, PoSeChange view list step proTxHash old (change old)) :
    StepEffect ctx view list step next := by
  rw [bind_eq_ok] at h
  obtain ⟨dmn,hdmn,hupdate⟩ := h
  rw [orReject_eq_ok] at hdmn
  refine stepEffect_updateMN hexact hupdate ?_
  intro old hold
  have hsame : dmn=old := Option.some.inj (hdmn.symm.trans hold)
  rw [hsame]
  exact hchange old.pdmnState

theorem poSeChange_banned
    {old new : CDeterministicMNState} (hpenalty : new.nPoSePenalty=old.nPoSePenalty)
    (hban : new.nPoSeBanHeight=if old.nPoSeBanHeight=-1 then view.nHeight+1
      else old.nPoSeBanHeight) :
    PoSeChange view list step proTxHash old new := by
  by_cases hold : old.nPoSeBanHeight=-1
  · rw [if_pos hold] at hban
    exact .banned hold hpenalty hban
  · rw [if_neg hold] at hban
    exact .kept hpenalty hban

theorem banHeight_reset (st : CDeterministicMNState) (nHeight : ℤ) :
    (st.resetOperatorFields.banIfNotBanned nHeight).nPoSePenalty=st.nPoSePenalty ∧
    (st.resetOperatorFields.banIfNotBanned nHeight).nPoSeBanHeight=
      if st.nPoSeBanHeight=-1 then nHeight else st.nPoSeBanHeight := by
  unfold CDeterministicMNState.banIfNotBanned CDeterministicMNState.resetOperatorFields
  split_ifs with hban
  · exact ⟨rfl,rfl⟩
  · exact ⟨rfl,rfl⟩

/-- A confirmed masternode has the penalty and the ban that the list has. -/
def StepFits (list : CDeterministicMNList) (step : ListStep) : Prop :=
  ∀ dmn, step=.confirm dmn → ∀ current, list.mnMap.find dmn.proTxHash=some current →
    dmn.pdmnState.nPoSePenalty=current.pdmnState.nPoSePenalty ∧
    dmn.pdmnState.nPoSeBanHeight=current.pdmnState.nPoSeBanHeight

theorem poSeChange_served {proTx : CProUpServTx} (nHeight : ℤ) (old : CDeterministicMNState) :
    PoSeChange view list (.serve proTx) proTx.proTxHash old (servedState nHeight proTx old) := by
  unfold servedState
  split_ifs with hrevive
  · simp only [Bool.and_eq_true,decide_eq_true_eq] at hrevive
    exact .revived rfl hrevive.1.1.1 rfl rfl
  · exact .kept rfl rfl

theorem confirmMN_effect {dmn : CDeterministicMN} (hexact : ExactList ctx.serializeHash list)
    (hfits : StepFits list (.confirm dmn)) (h : confirmMN ctx view list dmn=.ok next) :
    StepEffect ctx view list (.confirm dmn) next := by
  unfold confirmMN at h
  dsimp only at h
  split_ifs at h with hconf hdue
  · cases h
    exact stepEffect_ok hexact
  · refine stepEffect_updateMN hexact h ?_
    intro current hcurrent
    have hsame := hfits dmn rfl current hcurrent
    exact .kept hsame.1 hsame.2
  · cases h
    exact stepEffect_ok hexact

theorem poSeDecrease_effect (hexact : ExactList ctx.serializeHash list)
    (h : poSeDecrease ctx list proTxHash=.ok next) :
    StepEffect ctx view list (.decrease proTxHash) next := by
  unfold poSeDecrease CDeterministicMNList.getMN at h
  cases hfind : list.mnMap.find proTxHash with
  | none => rw [hfind] at h; cases h
  | some dmn =>
    rw [hfind] at h
    rw [bind_eq_ok] at h
    obtain ⟨_,hdue,hupdate⟩ := h
    rw [assertThat_eq_ok,Bool.and_eq_true,decide_eq_true_eq,decide_eq_true_eq] at hdue
    refine stepEffect_updateMN hexact hupdate ?_
    intro old hold
    cases hfind.symm.trans hold
    exact .lowered hdue.2 hdue.1 rfl hdue.2

theorem punishMember_effect {qc : CFinalCommitment} {member : CDeterministicMN×ℕ}
    (hexact : ExactList ctx.serializeHash list)
    (h : punishMember ctx qc list member=.ok next) :
    StepEffect ctx view list (.punish qc member) next := by
  unfold punishMember at h
  split_ifs at h with hknown
  · cases h
    exact stepEffect_ok hexact
  · cases hvalid : qc.validMembers[member.2]? with
    | none => rw [hvalid] at h; cases h
    | some valid =>
      rw [hvalid] at h
      dsimp only at h
      cases valid with
      | true =>
        cases h
        exact stepEffect_ok hexact
      | false =>
        rw [if_neg Bool.false_ne_true,bind_eq_ok] at h
        obtain ⟨penalty,hpenalty,hpunish⟩ := h
        unfold calcPenalty at hpenalty
        rw [bind_eq_ok] at hpenalty
        obtain ⟨_,-,hpenalty⟩ := hpenalty
        cases hpenalty
        unfold poSePunish CDeterministicMNList.getMN at hpunish
        rw [bind_eq_ok] at hpunish
        obtain ⟨_,-,hpunish⟩ := hpunish
        cases hfind : list.mnMap.find member.1.proTxHash with
        | none => rw [hfind] at hpunish; cases hpunish
        | some dmn =>
          rw [hfind] at hpunish
          refine stepEffect_updateMN hexact hpunish ?_
          intro old hold
          cases hfind.symm.trans hold
          exact .punished ⟨rfl,hvalid⟩ rfl

theorem removeReplaced_effect {outpoint : COutPoint} (hexact : ExactList ctx.serializeHash list)
    (h : removeReplaced ctx list outpoint=.ok next) :
    StepEffect ctx view list (.replace outpoint) next := by
  unfold removeReplaced at h
  split at h
  · cases h
    exact stepEffect_ok hexact
  · exact stepEffect_removeMN hexact h

theorem addMN_effect {tx : CTransaction} {proTx : CProRegTx}
    (hexact : ExactList ctx.serializeHash list)
    (h : list.addMN ctx.serializeHash (registeredMN (view.nHeight+1) tx proTx)=.ok next) :
    StepEffect ctx view list (.register tx proTx) next := by
  obtain ⟨hnew,-,-,⟨map,rfl⟩,hnext⟩ := CDeterministicMNList.addMN_exact hexact h
  refine ⟨hnext,rfl,?_⟩
  intro other new hfind
  rw [find_set] at hfind
  split_ifs at hfind with hself
  · cases hfind
    exact .inl ⟨hself.symm ▸ hnew,rfl⟩
  · exact .inr ⟨new,hfind,.kept rfl rfl⟩

theorem applyProUpServTx_effect {proTx : CProUpServTx}
    (hexact : ExactList ctx.serializeHash list)
    (h : applyProUpServTx ctx view list proTx=.ok next) :
    StepEffect ctx view list (.serve proTx) next := by
  unfold applyProUpServTx at h
  rw [bind_eq_ok] at h
  obtain ⟨dupAddr,-,h⟩ := h
  rw [bind_eq_ok] at h
  obtain ⟨_,-,h⟩ := h
  have hchange := fun old => @poSeChange_served view list proTx (view.nHeight+1) old
  exact stepEffect_registered hexact h hchange

theorem applyProUpRegTx_effect {proTx : CProUpRegTx} (hexact : ExactList ctx.serializeHash list)
    (h : applyProUpRegTx ctx view list proTx=.ok next) :
    StepEffect ctx view list (.rekey proTx) next := by
  refine @stepEffect_registered _ _ _ _ _ _ _ (registrarState (view.nHeight+1) proTx) hexact h ?_
  intro old
  unfold registrarState
  split_ifs with hkey
  · exact poSeChange_banned (banHeight_reset old _).1 (banHeight_reset old _).2
  · exact .kept rfl rfl

theorem applyProUpRevTx_effect {proTx : CProUpRevTx} (hexact : ExactList ctx.serializeHash list)
    (h : applyProUpRevTx ctx view list proTx=.ok next) :
    StepEffect ctx view list (.revoke proTx) next := by
  refine @stepEffect_registered _ _ _ _ _ _ _ (revokedState (view.nHeight+1) proTx) hexact h ?_
  intro old
  exact poSeChange_banned (banHeight_reset old _).1 (banHeight_reset old _).2

theorem removeSpentCollateral_effect {input : CTxIn} (hexact : ExactList ctx.serializeHash list)
    (h : removeSpentCollateral ctx list input=.ok next) :
    StepEffect ctx view list (.spend input) next := by
  unfold removeSpentCollateral at h
  split at h
  · cases h
    exact stepEffect_ok hexact
  · split_ifs at h
    · exact stepEffect_removeMN hexact h
    · cases h
      exact stepEffect_ok hexact

theorem payMN_effect {payee : Option CDeterministicMN}
    (hexact : ExactList ctx.serializeHash list)
    (h : payMN ctx (view.nHeight+1) payee list=.ok next) :
    StepEffect ctx view list (.pay payee) next := by
  unfold payMN CDeterministicMNList.getMN at h
  cases payee with
  | none =>
    cases h
    exact stepEffect_ok hexact
  | some payee =>
    dsimp only at h
    cases hfind : list.mnMap.find payee.proTxHash with
    | none =>
      rw [hfind] at h
      cases h
      exact stepEffect_ok hexact
    | some dmn =>
      rw [hfind] at h
      refine stepEffect_updateMN hexact h ?_
      intro old hold
      cases hfind.symm.trans hold
      exact .kept rfl rfl

theorem punishes_find {step : ListStep} {proTxHash : Uint256} {old : CDeterministicMN}
    (hexact : ExactList ctx.serializeHash list) (hpunish : step.punishes proTxHash)
    (hold : list.mnMap.find proTxHash=some old) (h : applyStep ctx view list step=.ok next) :
    ∃ new, next.mnMap.find proTxHash=some new ∧
      new.pdmnState=punishedState list old.pdmnState (memberPenalty list) := by
  cases step with
  | punish qc member =>
    obtain ⟨hmember,hvalid⟩ := hpunish
    have h : punishMember ctx qc list member=.ok next := h
    have hknown : list.hasMN member.1.proTxHash=true := by
      rw [hmember]
      unfold CDeterministicMNList.hasMN CDeterministicMNList.getMN
      rw [hold]
      rfl
    unfold punishMember at h
    rw [hknown,hvalid] at h
    dsimp only at h
    rw [if_neg (by simp),if_neg Bool.false_ne_true,bind_eq_ok] at h
    obtain ⟨penalty,hpenalty,h⟩ := h
    unfold calcPenalty at hpenalty
    rw [bind_eq_ok] at hpenalty
    obtain ⟨_,-,hpenalty⟩ := hpenalty
    cases hpenalty
    unfold poSePunish CDeterministicMNList.getMN at h
    rw [hmember,hold,bind_eq_ok] at h
    obtain ⟨_,-,h⟩ := h
    obtain ⟨dmn,hdmn,⟨map,rfl⟩,-⟩ := CDeterministicMNList.updateMN_exact hexact h
    refine ⟨{ dmn with
      pdmnState := punishedState list old.pdmnState (memberPenalty list) },?_,rfl⟩
    exact find_set_self _ _ _
  | _ => exact hpunish.elim

theorem applyStep_effect (hexact : ExactList ctx.serializeHash list)
    (hfits : StepFits list step) (h : applyStep ctx view list step=.ok next) :
    StepEffect ctx view list step next := by
  cases step with
  | confirm dmn => exact confirmMN_effect hexact hfits h
  | decrease proTxHash => exact poSeDecrease_effect hexact h
  | replace outpoint => exact removeReplaced_effect hexact h
  | register tx proTx => exact addMN_effect hexact h
  | serve proTx => exact applyProUpServTx_effect hexact h
  | rekey proTx => exact applyProUpRegTx_effect hexact h
  | revoke proTx => exact applyProUpRevTx_effect hexact h
  | punish qc member => exact punishMember_effect hexact h
  | spend input => exact removeSpentCollateral_effect hexact h
  | pay payee => exact payMN_effect hexact h

end Effects

section Runs

/-- A list as it is on the way: penalties and heights are not negative. -/
structure SoundList (ctx : NodeContext) (list : CDeterministicMNList) : Prop where
  exact : ExactList ctx.serializeHash list
  penalty : ∀ proTxHash dmn, list.mnMap.find proTxHash=some dmn → 0≤dmn.pdmnState.nPoSePenalty
  height : 0≤list.nHeight

/-- What the code says about penalties and bans. -/
structure Booked (moment : Moment) : Prop where
  penalty : ∀ proTxHash new, moment.after.mnMap.find proTxHash=some new →
    0≤new.pdmnState.nPoSePenalty
  maximum : ∀ proTxHash new, moment.step.punishes proTxHash →
    moment.after.mnMap.find proTxHash=some new →
    new.pdmnState.nPoSePenalty=calcMaxPoSePenalty moment.before → new.pdmnState.nPoSeBanHeight≠-1
  /-- A banned masternode stays as it is or is revived by a service update. -/
  banned : ∀ proTxHash old new, moment.before.mnMap.find proTxHash=some old →
    old.pdmnState.nPoSeBanHeight≠-1 → moment.after.mnMap.find proTxHash=some new →
    new.pdmnState.nPoSeBanHeight≠-1 ∧ new.pdmnState.nPoSePenalty=old.pdmnState.nPoSePenalty ∨
    moment.step.revives proTxHash ∧ new.pdmnState.nPoSeBanHeight=-1 ∧ new.pdmnState.nPoSePenalty=0

/-- A punished masternode is not banned, or it has the largest penalty already. -/
def Spares (moment : Moment) : Prop :=
  ∀ proTxHash old, moment.step.punishes proTxHash → moment.before.mnMap.find proTxHash=some old →
    old.pdmnState.nPoSeBanHeight=-1 ∨ old.pdmnState.nPoSePenalty=calcMaxPoSePenalty moment.before

theorem memberPenalty_pos (list : CDeterministicMNList) : 0 < memberPenalty list := by
  have hmax : 100 ≤ calcMaxPoSePenalty list := le_max_left _ _
  unfold memberPenalty
  omega

variable {ctx : NodeContext} {view : ChainView} {list next : CDeterministicMNList}

variable {step : ListStep}

theorem StepEffect.sound (hsound : SoundList ctx list)
    (h : StepEffect ctx view list step next) : SoundList ctx next := by
  have hmax : 100 ≤ calcMaxPoSePenalty list := le_max_left _ _
  have hmember := memberPenalty_pos list
  refine ⟨h.exact,?_,h.height ▸ hsound.height⟩
  intro proTxHash new hnew
  rcases h.find proTxHash new hnew with ⟨-,hpenalty⟩|⟨old,hold,hchange⟩
  · exact hpenalty.ge
  · have hbefore := hsound.penalty proTxHash old hold
    cases hchange with
    | kept hpenalty _ => omega
    | lowered _ _ hpenalty _ => omega
    | banned _ hpenalty _ => omega
    | revived _ _ hpenalty _ => omega
    | punished _ hstate =>
      rw [hstate]
      unfold punishedState
      dsimp only
      omega

theorem booked_of_spares {moment : Moment} (hsound : SoundList ctx moment.before)
    (heffect : StepEffect ctx view moment.before moment.step moment.after)
    (hpunished : ∀ proTxHash old, moment.step.punishes proTxHash →
      moment.before.mnMap.find proTxHash=some old →
      ∃ new, moment.after.mnMap.find proTxHash=some new ∧
        new.pdmnState=punishedState moment.before old.pdmnState (memberPenalty moment.before))
    (hspares : Spares moment) : Booked moment := by
  refine ⟨(heffect.sound hsound).penalty,?_,?_⟩
  · intro proTxHash new hpunish hnew hpenalty
    rcases heffect.find proTxHash new hnew with ⟨_,hzero⟩|⟨old,hold,-⟩
    · have hmax : 100 ≤ calcMaxPoSePenalty moment.before := le_max_left _ _
      omega
    · obtain ⟨current,hcurrent,hstate⟩ := hpunished proTxHash old hpunish hold
      cases hnew.symm.trans hcurrent
      have hheight := hsound.height
      rw [hstate] at hpenalty ⊢
      unfold punishedState at hpenalty ⊢
      grind
  · intro proTxHash old new hold hban hnew
    rcases heffect.find proTxHash new hnew with ⟨hnone,-⟩|⟨found,hfound,hchange⟩
    · rw [hold] at hnone
      cases hnone
    · cases hold.symm.trans hfound
      cases hchange with
      | kept hpenalty hkept => exact .inl ⟨hkept ▸ hban,hpenalty⟩
      | lowered hfree _ _ _ => exact absurd hfree hban
      | banned hfree _ _ => exact absurd hfree hban
      | revived hrevive _ hpenalty hfree => exact .inr ⟨hrevive,hfree,hpenalty⟩
      | punished hpunish hstate =>
        have hmaximum := (hspares proTxHash old hpunish hold).resolve_left hban
        have hmember := memberPenalty_pos moment.before
        rw [hstate]
        unfold punishedState
        grind

theorem spares_of_booked {moment : Moment}
    (hpunished : ∀ proTxHash old, moment.step.punishes proTxHash →
      moment.before.mnMap.find proTxHash=some old →
      ∃ new, moment.after.mnMap.find proTxHash=some new ∧
        new.pdmnState=punishedState moment.before old.pdmnState (memberPenalty moment.before))
    (hbooked : Booked moment) : Spares moment := by
  intro proTxHash old hpunish hold
  by_cases hban : old.pdmnState.nPoSeBanHeight=-1
  · exact .inl hban
  · obtain ⟨new,hnew,hstate⟩ := hpunished proTxHash old hpunish hold
    have hmember := memberPenalty_pos moment.before
    rcases hbooked.banned proTxHash old new hold hban hnew with ⟨-,hpenalty⟩|⟨hrevive,-⟩
    · rw [hstate] at hpenalty
      unfold punishedState at hpenalty
      dsimp only at hpenalty
      exact .inr (by omega)
    · cases hstep : moment.step with
      | serve proTx => rw [hstep] at hpunish; exact hpunish.elim
      | _ => rw [hstep] at hrevive; exact hrevive.elim

/-- A moment between sound lists. -/
structure SoundMoment (ctx : NodeContext) (moment : Moment) : Prop where
  before : SoundList ctx moment.before
  booked : Booked moment ↔ Spares moment

theorem moments_cons (steps : List ListStep) (h : applyStep ctx view list step=.ok next) :
    moments ctx view list (step::steps)=⟨list,step,next⟩::moments ctx view next steps := by
  rw [moments,h]

theorem moments_sound {P : CDeterministicMNList → Prop} {steps : List ListStep}
    (hstep : ∀ step∈steps, ∀ before after, SoundList ctx before → P before →
      applyStep ctx view before step=.ok after → StepFits before step ∧ P after)
    (hrun : steps.foldlM (applyStep ctx view) list=.ok next)
    (hsound : SoundList ctx list) (hP : P list) :
    SoundList ctx next ∧ ∀ moment∈moments ctx view list steps,
      SoundMoment ctx moment := by
  induction steps generalizing list with
  | nil =>
    cases hrun
    exact ⟨hsound,fun _ hm => absurd hm not_mem_nil⟩
  | cons step steps ih =>
    rw [forall_mem_cons] at hstep
    rw [foldlM_cons,bind_eq_ok] at hrun
    obtain ⟨middle,hmid,hrest⟩ := hrun
    obtain ⟨hfits,hPmiddle⟩ := hstep.1 list middle hsound hP hmid
    have heffect := applyStep_effect hsound.exact hfits hmid
    obtain ⟨hfinal,hmoments⟩ := ih hstep.2 hrest (heffect.sound hsound) hPmiddle
    refine ⟨hfinal,?_⟩
    intro moment hm
    rw [moments_cons steps hmid] at hm
    rcases mem_cons.mp hm with rfl|hm
    · have hpunished := fun proTxHash old hpunish hold =>
        @punishes_find ctx view list middle step proTxHash old hsound.exact hpunish hold hmid
      exact ⟨hsound,spares_of_booked hpunished,booked_of_spares hsound heffect hpunished⟩
    · exact hmoments moment hm

theorem moments_append {first second : List ListStep} {middle : CDeterministicMNList}
    (h : first.foldlM (applyStep ctx view) list=.ok middle) :
    moments ctx view list (first++second)=
      moments ctx view list first++moments ctx view middle second := by
  induction first generalizing list with
  | nil => cases h; rfl
  | cons step first ih =>
    rw [foldlM_cons,bind_eq_ok] at h
    obtain ⟨after,hafter,hrest⟩ := h
    rw [cons_append,moments_cons _ hafter,moments_cons _ hafter,ih hrest,cons_append]

theorem mem_moments {first rest : List ListStep} {before after : CDeterministicMNList}
    (hfirst : first.foldlM (applyStep ctx view) list=.ok before)
    (hstep : applyStep ctx view before step=.ok after) :
    ⟨before,step,after⟩∈moments ctx view list (first++step::rest) := by
  rw [moments_append hfirst,moments_cons _ hstep]
  exact mem_append_right _ mem_cons_self

theorem stepFits_confirm {dmn : CDeterministicMN} (hkeyed : Keyed view.mnList.mnMap)
    (hdmn : dmn∈view.mnList.forEachMN false) (hsound : SoundList ctx list)
    (hfits : ∀ other∈view.mnList.forEachMN false, StepFits list (.confirm other))
    (h : applyStep ctx view list (.confirm dmn)=.ok next) :
    ∀ other∈view.mnList.forEachMN false, StepFits next (.confirm other) := by
  intro other hother _ he current hcurrent
  cases he
  have h : confirmMN ctx view list dmn=.ok next := h
  have hbefore : ∀ found, list.mnMap.find other.proTxHash=some found →
      other.pdmnState.nPoSePenalty=found.pdmnState.nPoSePenalty ∧
      other.pdmnState.nPoSeBanHeight=found.pdmnState.nPoSeBanHeight := hfits other hother other rfl
  unfold confirmMN at h
  dsimp only at h
  split_ifs at h with hconf hdue
  · cases h
    exact hbefore current hcurrent
  · obtain ⟨found,hfound,⟨map,rfl⟩,-⟩ := CDeterministicMNList.updateMN_exact hsound.exact h
    rw [find_set] at hcurrent
    split_ifs at hcurrent with hself
    · cases hcurrent
      have hfirst := hkeyed.find_of_mem hother
      rw [hself,hkeyed.find_of_mem hdmn] at hfirst
      cases hfirst
      exact ⟨rfl,rfl⟩
    · exact hbefore current hcurrent
  · cases h
    exact hbefore current hcurrent

theorem stepFits_other (h : ∀ dmn, step≠.confirm dmn) : StepFits list step :=
  fun dmn he => absurd he (h dmn)

theorem txSteps_other {tx : CTransaction}
    (h : step∈txSteps ctx view tx) (dmn : CDeterministicMN) : step≠.confirm dmn := by
  intro he
  subst he
  unfold txSteps at h
  split_ifs at h with hver
  · cases h
  · cases htype : tx.nType with
    | providerRegister => cases hpayload : tx.getProRegTx <;> simp [htype,hpayload] at h
    | providerUpdateService => cases hpayload : tx.getProUpServTx <;> simp [htype,hpayload] at h
    | providerUpdateRegistrar => cases hpayload : tx.getProUpRegTx <;> simp [htype,hpayload] at h
    | providerUpdateRevoke => cases hpayload : tx.getProUpRevTx <;> simp [htype,hpayload] at h
    | quorumCommitment =>
      cases hpayload : tx.getFinalCommitment with
      | none => simp [htype,hpayload] at h
      | some qc => by_cases hnull : isNull qc.commitment=true <;> simp [htype,hpayload,hnull] at h
    | _ => simp [htype] at h

theorem laterSteps_other {confirmed : CDeterministicMNList} {block : CBlock}
    (h : step∈decreaseSteps confirmed++txsSteps ctx view block) (dmn : CDeterministicMN) :
    step≠.confirm dmn := by
  intro he
  subst he
  unfold decreaseSteps txsSteps at h
  simp only [mem_append,mem_map,mem_flatMap,mem_singleton,reduceCtorEq,
    and_false,exists_false,or_false,false_or] at h
  obtain ⟨tx,-,htx⟩ := h
  exact txSteps_other htx dmn rfl

theorem blockMoments_sound {block : CBlock} (hsound : SoundList ctx view.mnList)
    (hheight : view.nHeight=view.mnList.nHeight)
    (h : buildNewListFromBlock ctx view block=.ok next) :
    SoundList ctx next ∧ ∀ moment∈blockMoments ctx view block,
      SoundMoment ctx moment := by
  have hstart : SoundList ctx (startList view) := by
    refine ⟨⟨hsound.exact.keyed,hsound.exact.exact⟩,hsound.penalty,?_⟩
    have hnonneg := hsound.height
    change 0≤view.nHeight+1
    omega
  have hrun := blockSteps_ok h
  unfold blockMoments
  unfold blockSteps at hrun ⊢
  have hconfirm : ∀ step∈confirmSteps view, ∀ before after, SoundList ctx before →
      (∀ other∈view.mnList.forEachMN false, StepFits before (.confirm other)) →
      applyStep ctx view before step=.ok after → StepFits before step ∧
        ∀ other∈view.mnList.forEachMN false, StepFits after (.confirm other) := by
    intro step hm before after hbefore hfits hstep
    obtain ⟨dmn,hdmn,rfl⟩ := mem_map.mp hm
    exact ⟨hfits dmn hdmn,stepFits_confirm hsound.exact.keyed hdmn hbefore hfits hstep⟩
  have hfits : ∀ other∈view.mnList.forEachMN false, StepFits (startList view) (.confirm other) := by
    intro other hother _ he current hcurrent
    cases he
    cases (hsound.exact.keyed.find_of_mem hother).symm.trans hcurrent
    exact ⟨rfl,rfl⟩
  cases hconf : (confirmSteps view).foldlM (applyStep ctx view) (startList view) with
  | error failure =>
    rw [hconf] at hrun
    rw [hconf] at hrun
    cases hrun
  | ok confirmed =>
    rw [hconf] at hrun
    dsimp only at hrun ⊢
    rw [append_assoc,foldlM_append,hconf,ok_bind] at hrun
    obtain ⟨hmid,hfirst⟩ := moments_sound hconfirm hconf hstart hfits
    obtain ⟨hlast,hsecond⟩ := @moments_sound ctx view confirmed next (fun _ => True) _
      (fun step hm before after _ _ _ => ⟨stepFits_other (laterSteps_other hm),trivial⟩)
      hrun hmid trivial
    refine ⟨hlast,?_⟩
    intro moment hm
    rw [append_assoc,moments_append hconf,mem_append] at hm
    rcases hm with hm|hm
    · exact hfirst moment hm
    · exact hsecond moment hm

theorem PoSeRun.sound {all : List Moment} (hrun : PoSeRun ctx all list) :
    SoundList ctx list ∧ ∀ moment∈all, SoundMoment ctx moment := by
  induction hrun with
  | start blockHash hheight =>
    exact ⟨⟨exactList_empty _ blockHash _,fun _ _ hfind => absurd hfind (by simp),hheight⟩,
      fun _ hm => absurd hm not_mem_nil⟩
  | block blockHash _ hheight hbuild ih =>
    obtain ⟨hnext,hmoments⟩ := blockMoments_sound ih.1 hheight hbuild
    refine ⟨⟨⟨hnext.exact.keyed,hnext.exact.exact⟩,hnext.penalty,hnext.height⟩,?_⟩
    grind

/-- Penalties and bans are booked exactly when no banned masternode is punished further. -/
theorem booked_iff_spares {all : List Moment} (hrun : PoSeRun ctx all list) :
    (∀ moment∈all, Booked moment) ↔ ∀ moment∈all, Spares moment := by
  have hsound := hrun.sound.2
  constructor
  · exact fun hbooked moment hm => (hsound moment hm).booked.mp (hbooked moment hm)
  · exact fun hspares moment hm => (hsound moment hm).booked.mpr (hspares moment hm)

end Runs

open BlockAssertions

/-- Masternode of the first sample registration with a state. -/
def soloMN (st : CDeterministicMNState → CDeterministicMNState) : CDeterministicMN :=
  let dmn := registeredMN 1 (sampleRegister 1) (sampleProRegTx 1)
  { dmn with pdmnState := st dmn.pdmnState }

def soloList (nHeight : ℤ) (dmn : CDeterministicMN) : CDeterministicMNList where
  nHeight := nHeight
  mnMap := OrderedMap.ofEntries [(1,dmn)]
  mnUniquePropertyMap := OrderedMap.ofEntries ((uniqueProperties dmn).map
    (fun v => (propertyCode v,(1,1))))

/-- The masternode after the second block, which pays it. -/
def paidSolo : CDeterministicMN := soloMN (fun st => { st with nLastPaidHeight := 2 })

/-- The masternode after the third block: it is confirmed and paid. -/
def confirmedSolo : CDeterministicMN := soloMN (fun st =>
  { st.updateConfirmedHash sampleNode.sha256 1 1002 with nLastPaidHeight := 3 })

/-- Registrar update of the masternode to another operator key. -/
def soloRekey : CProUpRegTx where
  proTxHash := 1
  pubKeyOperator := CBLSWrapper.valid 999
  keyIDVoting := 201
  scriptPayout := sampleScript 7

/-- The masternode after that update, with a penalty. -/
def bannedSolo (nPoSePenalty : ℤ) : CDeterministicMN :=
  { confirmedSolo with pdmnState :=
      { registrarState 4 soloRekey confirmedSolo.pdmnState with nPoSePenalty := nPoSePenalty } }

/-- The masternode after the fourth block. -/
def punishedSolo : CDeterministicMN :=
  { bannedSolo 66 with pdmnState := { (bannedSolo 66).pdmnState with nLastPaidHeight := 4 } }

/-- A commitment of a quorum in which the masternode did not take part. -/
def failedCommitment : CFinalCommitment where
  llmqType := 100
  quorumHash := 1003
  signers := false::List.replicate 9 true
  validMembers := false::List.replicate 9 true

def failedCommitmentTx : CTransaction where
  nVersion := 3
  nType := .quorumCommitment
  vExtraPayload := .finalCommitment { nHeight := 4, commitment := failedCommitment }
  hash := 30
  payload_special := fun h => absurd h (by decide)

/-- Block of a coinbase and other transactions. -/
def soloBlock (nHeight : ℕ) (txs : List CTransaction) : CBlock :=
  ⟨1000+nHeight,0,sampleCoinbase (20+nHeight)::txs⟩

/-- Block that changes the operator key and punishes the masternode. -/
def punishingBlock : CBlock := soloBlock 4 [sampleRekey 1 999,failedCommitmentTx]

/-- Node after some of the blocks, with the list of the last one. -/
def soloView (nHeight : ℕ) (list : CDeterministicMNList) : ChainView where
  chain := (⟨1000,0,[]⟩::[soloBlock 1 [sampleRegister 1],soloBlock 2 [],soloBlock 3 []]).take
    (nHeight+1)
  pcoinsTip := sampleCoins
  getListForBlock := fun blockHash => { list with blockHash := blockHash }

/-- Node before the block that punishes. -/
def punishingView : ChainView := soloView 3 (soloList 3 confirmedSolo)

theorem soloRun : ∃ all, PoSeRun sampleNode all punishingView.mnList := by
  have hregister : buildNewListFromBlock sampleNode (soloView 0 { nHeight := 0 })
      (soloBlock 1 [sampleRegister 1])=.ok (soloList 1 (soloMN id)) := by decide
  have hpay : buildNewListFromBlock sampleNode (soloView 1 (soloList 1 (soloMN id)))
      (soloBlock 2 [])=.ok (soloList 2 paidSolo) := by decide
  have hconfirm : buildNewListFromBlock sampleNode (soloView 2 (soloList 2 paidSolo))
      (soloBlock 3 [])=.ok (soloList 3 confirmedSolo) := by decide
  have hempty : PoSeRun sampleNode [] (soloView 0 { nHeight := 0 }).mnList :=
    .start 1000 (le_refl 0)
  have hfirst : PoSeRun sampleNode _ (soloView 1 (soloList 1 (soloMN id))).mnList :=
    .block 1001 hempty rfl hregister
  have hsecond : PoSeRun sampleNode _ (soloView 2 (soloList 2 paidSolo)).mnList :=
    .block 1002 hfirst rfl hpay
  exact ⟨_,.block 1003 hsecond rfl hconfirm⟩

theorem soloMembers : getAllQuorumMembers sampleNode punishingView.getListForBlock 100 1003=
    [confirmedSolo] := by
  have hscored : ((punishingView.getListForBlock 1003).forEachMN true).filter
      (fun dmn => dmn.pdmnState.confirmedHash≠0)=[confirmedSolo] := by decide
  have hparams : (ChainParams.llmqs sampleNode.network).find 100=some ChainParams.llmq10_60 := by
    decide
  unfold getAllQuorumMembers calculateQuorum
  rw [hparams]
  dsimp only
  rw [hscored,mergeSort_singleton]
  rfl

/-- The last block is accepted, and it punishes the masternode after the ban. -/
theorem punishingBlock_ok :
    buildNewListFromBlock sampleNode punishingView punishingBlock=.ok (soloList 4 punishedSolo) ∧
    ⟨soloList 4 (bannedSolo 0),.punish failedCommitment (confirmedSolo,0),
      soloList 4 (bannedSolo 66)⟩∈blockMoments sampleNode punishingView punishingBlock := by
  have hprepared : prepareNewList sampleNode punishingView=.ok (soloList 4 confirmedSolo) := by
    decide
  have hrekey : applyTx sampleNode punishingView (soloList 4 confirmedSolo) (sampleRekey 1 999)=
      .ok (soloList 4 (bannedSolo 0)) := by decide
  have hpunish : punishMember sampleNode failedCommitment (soloList 4 (bannedSolo 0))
      (confirmedSolo,0)=.ok (soloList 4 (bannedSolo 66)) := by decide
  have hcommit : applyTx sampleNode punishingView (soloList 4 (bannedSolo 0)) failedCommitmentTx=
      .ok (soloList 4 (bannedSolo 66)) := by
    have hhandle : applyTx sampleNode punishingView (soloList 4 (bannedSolo 0)) failedCommitmentTx=
        handleQuorumCommitment sampleNode punishingView.getListForBlock failedCommitment
          (soloList 4 (bannedSolo 0)) := rfl
    have hmembers : getAllQuorumMembers sampleNode punishingView.getListForBlock
        failedCommitment.llmqType failedCommitment.quorumHash=[confirmedSolo] := soloMembers
    rw [hhandle,handleQuorumCommitment,hmembers,zipIdx_singleton,foldlM_cons,hpunish]
    rfl
  have hspent : ((listTxs punishingBlock).flatMap CTransaction.vin).foldlM
      (removeSpentCollateral sampleNode) (soloList 4 (bannedSolo 66))=
        .ok (soloList 4 (bannedSolo 66)) := by decide
  have hpaid : payMN sampleNode 4 (getMNPayee punishingView.mnList) (soloList 4 (bannedSolo 66))=
      .ok (soloList 4 punishedSolo) := by decide
  have htxs : listTxs punishingBlock=[sampleRekey 1 999,failedCommitmentTx] := rfl
  constructor
  · unfold buildNewListFromBlock
    have happlied : (listTxs punishingBlock).foldlM (applyTx sampleNode punishingView)
        (soloList 4 confirmedSolo)=.ok (soloList 4 (bannedSolo 66)) := by
      rw [htxs,foldlM_cons,hrekey,ok_bind,foldlM_cons,hcommit]
      rfl
    rw [hprepared,ok_bind,happlied,ok_bind,hspent,ok_bind]
    exact hpaid
  · have hconf : (confirmSteps punishingView).foldlM (applyStep sampleNode punishingView)
        (startList punishingView)=.ok (soloList 4 confirmedSolo) := by decide
    have hdecrease : decreaseSteps (soloList 4 confirmedSolo)=[] := rfl
    have hrekeySteps : txSteps sampleNode punishingView
      (sampleRekey 1 999)=[.rekey soloRekey] := rfl
    have hcommitSteps : txSteps sampleNode punishingView failedCommitmentTx=
        [.punish failedCommitment (confirmedSolo,0)] := by
      have hsteps : txSteps sampleNode punishingView failedCommitmentTx=
          (getAllQuorumMembers sampleNode punishingView.getListForBlock 100 1003).zipIdx.map
            (.punish failedCommitment) := rfl
      rw [hsteps,soloMembers]
      rfl
    have hsteps : blockSteps sampleNode punishingView punishingBlock=
        (confirmSteps punishingView++[.rekey soloRekey])++
          .punish failedCommitment (confirmedSolo,0)::
            (((listTxs punishingBlock).flatMap CTransaction.vin).map .spend++
              [.pay (getMNPayee punishingView.mnList)]) := by
      unfold blockSteps txsSteps
      grind
    unfold blockMoments
    rw [hsteps]
    refine mem_moments ?_ hpunish
    rw [foldlM_append,hconf,ok_bind,foldlM_cons]
    have hfirst : applyStep sampleNode punishingView (soloList 4 confirmedSolo) (.rekey soloRekey)=
        .ok (soloList 4 (bannedSolo 0)) := hrekey
    rw [hfirst]
    rfl

/-- A banned masternode is punished: its penalty rises from 0 to 66. -/
theorem banned_punished : ∃ all list, PoSeRun sampleNode all list ∧
    ∃ moment∈all, moment.before.getMN 1=some (bannedSolo 0) ∧
      (bannedSolo 0).pdmnState.nPoSeBanHeight=4 ∧ (bannedSolo 0).pdmnState.nPoSePenalty=0 ∧
      moment.after.getMN 1=some (bannedSolo 66) ∧
      (bannedSolo 66).pdmnState.nPoSePenalty=66 ∧ ¬Booked moment := by
  obtain ⟨all,hrun⟩ := soloRun
  obtain ⟨hbuild,hmoment⟩ := punishingBlock_ok
  refine ⟨_,_,.block 1004 hrun rfl hbuild,_,mem_append_right _ hmoment,by decide,by decide,
    by decide,by decide,by decide,?_⟩
  intro hbooked
  have hbanned := hbooked.banned 1 (bannedSolo 0) (bannedSolo 66) (by decide)
    (by decide) (by decide)
  rcases hbanned with ⟨-,hpenalty⟩|⟨hrevive,-⟩
  · exact absurd hpenalty (by decide)
  · exact hrevive.elim

/-- The question at a run with a ban. -/
theorem booked_iff_spares_solo : ∃ all list, PoSeRun sampleNode all list ∧ all≠[] ∧
    ((∀ moment∈all, Booked moment) ↔ ∀ moment∈all, Spares moment) := by
  obtain ⟨all,hrun⟩ := soloRun
  obtain ⟨hbuild,hmoment⟩ := punishingBlock_ok
  have hboth := PoSeRun.block 1004 hrun rfl hbuild
  refine ⟨_,_,hboth,?_,booked_iff_spares hboth⟩
  exact ne_nil_of_mem (mem_append_right _ hmoment)

end Pyrk.PoSeBookkeeping
