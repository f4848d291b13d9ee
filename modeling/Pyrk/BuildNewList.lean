import Pyrk.ProviderTx

/-!
# The masternode list of the next block

The list of a block comes from the one before by confirmations and penalties, then the special
transactions in order, then spent collaterals, and at last the payment.
-/

namespace Pyrk.BuildNewList

open Transaction NetAddress ChainParams DeterministicMNList Coins FinalCommitment
open ProviderTx

/-- Height that the payment order compares. -/
def compareByLastPaidGetHeight (dmn : CDeterministicMN) : ℤ :=
  let height := dmn.pdmnState.nLastPaidHeight
  if dmn.pdmnState.nPoSeRevivedHeight≠-1 && height<dmn.pdmnState.nPoSeRevivedHeight then
    dmn.pdmnState.nPoSeRevivedHeight
  else if height=0 then dmn.pdmnState.nRegisteredHeight
  else height

/-- Payment order; equal heights are decided by the registration hash. -/
def compareByLastPaid (first second : CDeterministicMN) : Bool :=
  let firstHeight := compareByLastPaidGetHeight first
  let secondHeight := compareByLastPaidGetHeight second
  if firstHeight=secondHeight then first.proTxHash < second.proTxHash
  else firstHeight < secondHeight

/-- Keep the better of two candidates for the payment. -/
def betterPayee (best : Option CDeterministicMN) (dmn : CDeterministicMN) :
    Option CDeterministicMN :=
  match best with
  | none => some dmn
  | some other => if compareByLastPaid dmn other then some dmn else best

variable (list : CDeterministicMNList)

/-- Valid masternode that is paid next. -/
def getMNPayee : Option CDeterministicMN :=
  if list.mnMap.size=0 then none else (list.forEachMN true).foldl betterPayee none

/-- Penalty at which a masternode is banned. -/
def calcMaxPoSePenalty : ℤ := max 100 list.getAllMNsCount

/-- A percentage of the largest penalty. -/
def calcPenalty (percent : ℤ) : Checked ℤ := do
  assertThat .calcPenalty (0<percent)
  .ok (calcMaxPoSePenalty list*percent/100)

/-- State after a penalty, with a ban when the largest penalty is reached. -/
def punishedState (st : CDeterministicMNState) (penalty : ℤ) : CDeterministicMNState :=
  let maxPenalty := calcMaxPoSePenalty list
  let nPoSePenalty := min maxPenalty (st.nPoSePenalty+penalty)
  { st with
    nPoSePenalty := nPoSePenalty
    nPoSeBanHeight := if maxPenalty≤nPoSePenalty && st.nPoSeBanHeight=-1 then list.nHeight
      else st.nPoSeBanHeight }

variable (ctx : NodeContext)

variable (list : CDeterministicMNList)

/-- Add a penalty to a masternode. -/
def poSePunish (proTxHash : Uint256) (penalty : ℤ) : Checked CDeterministicMNList := do
  assertThat .poSePunish (0<penalty)
  match list.getMN proTxHash with
  | none => .error (.assertion .poSePunish)
  | some dmn =>
    list.updateMN ctx.serializeHash proTxHash (punishedState list dmn.pdmnState penalty)

/-- Lower the penalty of a masternode by one. -/
def poSeDecrease (proTxHash : Uint256) : Checked CDeterministicMNList :=
  match list.getMN proTxHash with
  | none => .error (.assertion .poSeDecrease)
  | some dmn => do
    assertThat .poSeDecrease (0<dmn.pdmnState.nPoSePenalty && dmn.pdmnState.nPoSeBanHeight=-1)
    list.updateMN ctx.serializeHash proTxHash
      { dmn.pdmnState with nPoSePenalty := dmn.pdmnState.nPoSePenalty-1 }

/-- Lower all penalties of masternodes that are not banned. -/
def decreasePoSePenalties : Checked CDeterministicMNList :=
  let toDecrease := (list.forEachMN true).filter (fun dmn =>
    0<dmn.pdmnState.nPoSePenalty && dmn.pdmnState.nPoSeBanHeight=-1)
  (toDecrease.map CDeterministicMN.proTxHash).foldlM (poSeDecrease ctx) list

/-- Punish a quorum member that did not take part. -/
def punishMember (qc : CFinalCommitment) (list : CDeterministicMNList)
    (member : CDeterministicMN×ℕ) : Checked CDeterministicMNList :=
  if !list.hasMN member.1.proTxHash then .ok list
  else
    match qc.validMembers[member.2]? with
    | none => .error (.assertion .memberIndex)
    | some valid =>
      if valid then .ok list
      else do
        let penalty ← calcPenalty list 66
        poSePunish ctx list member.1.proTxHash penalty

/-- Punish all members of a quorum that did not take part. -/
def handleQuorumCommitment (lists : Uint256 → CDeterministicMNList) (qc : CFinalCommitment)
    (list : CDeterministicMNList) : Checked CDeterministicMNList :=
  (getAllQuorumMembers ctx lists qc.llmqType qc.quorumHash).zipIdx.foldlM
    (punishMember ctx qc) list

/-- Confirmations before a registration counts as confirmed. -/
def nMasternodeMinimumConfirmations : Network → ℤ
  | .main => 15
  | .test => 1
  | .dev => 1
  | .regtest => 1

variable (view : ChainView)

/-- Confirm a masternode of the old list in the new one when it is due. -/
def confirmMN (newList : CDeterministicMNList) (dmn : CDeterministicMN) :
    Checked CDeterministicMNList :=
  if dmn.pdmnState.confirmedHash≠0 then .ok newList
  else
    let nConfirmations := view.nHeight-dmn.pdmnState.nRegisteredHeight
    if nMasternodeMinimumConfirmations ctx.network≤nConfirmations then
      newList.updateMN ctx.serializeHash dmn.proTxHash
        (dmn.pdmnState.updateConfirmedHash ctx.sha256 dmn.proTxHash view.blockHash)
    else .ok newList

variable (nHeight : ℤ)

/-- Masternode of a new registration; without an address it starts banned. -/
def registeredMN (tx : CTransaction) (proTx : CProRegTx) : CDeterministicMN where
  proTxHash := tx.hash
  collateralOutpoint := collateralOutpoint tx proTx
  nOperatorReward := proTx.nOperatorReward
  pdmnState := { CDeterministicMNState.ofProRegTx proTx with
    nRegisteredHeight := nHeight
    nPoSeBanHeight := if proTx.addr=CService.null then nHeight else -1 }

variable (newList : CDeterministicMNList)

/-- Remove the masternode that has a collateral, if there is one. -/
def removeReplaced (outpoint : COutPoint) : Checked CDeterministicMNList :=
  match newList.getMNByCollateral ctx.serializeHash outpoint with
  | none => .ok newList
  | some replacedDmn => newList.removeMN ctx.serializeHash replacedDmn.proTxHash

/-- Apply a registration. A registration with the collateral of another one
replaces it. -/
def applyProRegTx (newList : CDeterministicMNList) (tx : CTransaction)
    (proTx : CProRegTx) : Checked CDeterministicMNList := do
  rejectIf ((proTx.collateralOutpoint.hash≠0 &&
      (getUTXOCoin view.pcoinsTip (collateralOutpoint tx proTx)).isNone) ||
    !validateCollateral view proTx.collateralOutpoint) 100 .invalid "bad-protx-collateral"
  let newList ← removeReplaced ctx newList (collateralOutpoint tx proTx)
  rejectIf (newList.hasUniqueProperty ctx.serializeHash (.service proTx.addr))
    100 .conflict "bad-protx-dup-addr"
  rejectIf (newList.hasUniqueProperty ctx.serializeHash (.owner proTx.keyIDOwner) ||
      newList.hasUniqueProperty ctx.serializeHash (.operator proTx.pubKeyOperator))
    100 .conflict "bad-protx-dup-key"
  newList.addMN ctx.serializeHash (registeredMN (view.nHeight+1) tx proTx)

/-- State after a service update, which revives a banned masternode when all
its keys are set. -/
def servedState (proTx : CProUpServTx) (st : CDeterministicMNState) : CDeterministicMNState :=
  let served := { st with
    addr := proTx.addr
    scriptOperatorPayout := proTx.scriptOperatorPayout }
  if st.nPoSeBanHeight≠-1 && st.pubKeyOperator.fValid && st.keyIDVoting≠0 &&
      st.keyIDOwner≠0 then
    { served with nPoSePenalty := 0, nPoSeBanHeight := -1, nPoSeRevivedHeight := nHeight }
  else served

def applyProUpServTx (newList : CDeterministicMNList) (proTx : CProUpServTx) :
    Checked CDeterministicMNList := do
  let dupAddr ← propertyHolder ctx newList (.service proTx.addr)
    (fun dmn => dmn.proTxHash≠proTx.proTxHash)
  rejectIf dupAddr 100 .conflict "bad-protx-dup-addr"
  let dmn ← orReject (newList.getMN proTx.proTxHash) 100 "bad-protx-hash"
  newList.updateMN ctx.serializeHash proTx.proTxHash
    (servedState (view.nHeight+1) proTx dmn.pdmnState)

/-- State after a registrar update. A new operator key takes the masternode
out of service. -/
def registrarState (proTx : CProUpRegTx) (st : CDeterministicMNState) : CDeterministicMNState :=
  let kept := if st.pubKeyOperator≠proTx.pubKeyOperator then
    st.resetOperatorFields.banIfNotBanned nHeight else st
  { kept with
    pubKeyOperator := proTx.pubKeyOperator
    keyIDVoting := proTx.keyIDVoting
    scriptPayout := proTx.scriptPayout }

/-- Apply a registrar update. The operator key is not looked up again in the list built so far. -/
def applyProUpRegTx (newList : CDeterministicMNList) (proTx : CProUpRegTx) :
    Checked CDeterministicMNList := do
  let dmn ← orReject (newList.getMN proTx.proTxHash) 100 "bad-protx-hash"
  newList.updateMN ctx.serializeHash proTx.proTxHash
    (registrarState (view.nHeight+1) proTx dmn.pdmnState)

def revokedState (proTx : CProUpRevTx) (st : CDeterministicMNState) : CDeterministicMNState :=
  { st.resetOperatorFields.banIfNotBanned nHeight with nRevocationReason := proTx.nReason }

def applyProUpRevTx (newList : CDeterministicMNList) (proTx : CProUpRevTx) :
    Checked CDeterministicMNList := do
  let dmn ← orReject (newList.getMN proTx.proTxHash) 100 "bad-protx-hash"
  newList.updateMN ctx.serializeHash proTx.proTxHash
    (revokedState (view.nHeight+1) proTx dmn.pdmnState)

def applyCommitment (newList : CDeterministicMNList)
    (qc : CFinalCommitmentTxPayload) : Checked CDeterministicMNList :=
  if isNull qc.commitment then .ok newList
  else handleQuorumCommitment ctx view.getListForBlock qc.commitment newList

/-- Continue with the payload that the checks have found. -/
def withPayload {α : Type} (payload : Option α)
    (apply : α → Checked CDeterministicMNList) : Checked CDeterministicMNList :=
  match payload with
  | none => .error (.assertion .txPayload)
  | some value => apply value

/-- Apply one transaction of the block. -/
def applyTx (newList : CDeterministicMNList) (tx : CTransaction) : Checked CDeterministicMNList :=
  if tx.nVersion≠3 then .ok newList
  else
    match tx.nType with
    | .providerRegister => withPayload tx.getProRegTx (applyProRegTx ctx view newList tx)
    | .providerUpdateService =>
      withPayload tx.getProUpServTx (applyProUpServTx ctx view newList)
    | .providerUpdateRegistrar =>
      withPayload tx.getProUpRegTx (applyProUpRegTx ctx view newList)
    | .providerUpdateRevoke => withPayload tx.getProUpRevTx (applyProUpRevTx ctx view newList)
    | .quorumCommitment =>
      withPayload tx.getFinalCommitment (applyCommitment ctx view newList)
    | _ => .ok newList

/-- Remove the masternode whose collateral an input spends. -/
def removeSpentCollateral (input : CTxIn) : Checked CDeterministicMNList :=
  match newList.getMNByCollateral ctx.serializeHash input.prevout with
  | none => .ok newList
  | some dmn =>
    if dmn.collateralOutpoint=input.prevout then
      newList.removeMN ctx.serializeHash dmn.proTxHash
    else .ok newList

/-- Record the payment if the payee is still registered. -/
def payMN (payee : Option CDeterministicMN) (newList : CDeterministicMNList) :
    Checked CDeterministicMNList :=
  match payee with
  | none => .ok newList
  | some payee =>
    match newList.getMN payee.proTxHash with
    | none => .ok newList
    | some dmn => newList.updateMN ctx.serializeHash payee.proTxHash
        { dmn.pdmnState with nLastPaidHeight := nHeight }

/-- Transactions that change the list; the coinbase is skipped. -/
def listTxs (block : CBlock) : List CTransaction := block.vtx.drop 1

/-- Confirmations and penalties before the transactions of a block. -/
def prepareNewList : Checked CDeterministicMNList := do
  let oldList := view.mnList
  let newList := { oldList with blockHash := 0, nHeight := view.nHeight+1 }
  let newList ← (oldList.forEachMN false).foldlM (confirmMN ctx view) newList
  decreasePoSePenalties ctx newList

def buildNewListFromBlock (block : CBlock) : Checked CDeterministicMNList := do
  let newList ← prepareNewList ctx view
  let newList ← (listTxs block).foldlM (applyTx ctx view) newList
  let newList ← ((listTxs block).flatMap CTransaction.vin).foldlM
    (removeSpentCollateral ctx) newList
  payMN ctx (view.nHeight+1) (getMNPayee view.mnList) newList

end Pyrk.BuildNewList
