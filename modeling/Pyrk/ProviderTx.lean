import Pyrk.Coins
import Pyrk.MinedCommitments

/-!
# Checks of special transactions

Each special transaction of a block is checked on its own against the chain
before the block: the masternode list and the coin set of the previous block.
Hashes, signatures and the deployment state are given.
-/

namespace Pyrk.ProviderTx

open Transaction NetAddress Script ChainParams DeterministicMNList Coins FinalCommitment
open MinedCommitments

/-- Settings of the node and the operations it takes from elsewhere. -/
structure NodeContext where
  network : Network
  fLiteMode : Bool
  fAllowPrivateNet : Bool
  /-- Height from which the masternode list is enforced. -/
  spork15Value : ℤ
  hash160 : List UInt8 → ℕ
  serializeHash : UniqueProperty → Uint256
  sha256 : Uint256 → Uint256 → Uint256
  /-- Score of a confirmed registration in the quorum of a type and a block. -/
  quorumScore : Uint256 → ℕ → Uint256 → ℕ
  commitmentHash : CFinalCommitment → Uint256
  crypto : QuorumCrypto
  /-- Whether the deployment is active for the block after a chain. -/
  dip3Active : List CBlock → Bool
  mapBlockIndex : Uint256 → Option ℕ
  calcTxInputsHash : CTransaction → Uint256
  /-- Signature of a registration by the collateral key. -/
  verifyMessage : CKeyID → CProRegTx → Bool
  /-- Signature of a registrar update by the owner key. -/
  verifyHash : CKeyID → CProUpRegTx → Bool
  /-- Signature of a service update by the operator key. -/
  verifyProUpServ : CBLSPublicKey → CProUpServTx → Bool
  verifyProUpRev : CBLSPublicKey → CProUpRevTx → Bool

/-- The node at the previous block. -/
structure ChainView where
  chain : List CBlock
  pcoinsTip : CoinsView := OrderedMap.empty
  mempool : Uint256 → Option CTransaction := fun _ => none
  getListForBlock : Uint256 → CDeterministicMNList

/-- Height of the previous block. -/
def ChainView.nHeight (view : ChainView) : ℤ := view.chain.length-1

def ChainView.blockHash (view : ChainView) : Uint256 :=
  (view.chain.getLast?.map CBlock.hash).getD 0

/-- Masternode list of the previous block. -/
def ChainView.mnList (view : ChainView) : CDeterministicMNList :=
  view.getListForBlock view.blockHash

/-- Reject when a condition holds. -/
def rejectIf (condition : Bool) (dos : ℕ) (code : RejectCode) (reason : String) : Checked Unit :=
  if condition then rejectBlock dos code reason else .ok ()

/-- Reject when a value is missing. -/
def orReject {α : Type} (value : Option α) (dos : ℕ) (reason : String) : Checked α :=
  match value with
  | none => rejectBlock dos .invalid reason
  | some value => .ok value

def mainnetDefaultPort : ℕ := 8118

/-- Check a service address that has to be reachable. -/
def checkService (ctx : NodeContext) (addr : CService) : Checked Unit := do
  rejectIf (!isValid addr) 10 .invalid "bad-protx-addr"
  rejectIf (ctx.network≠.regtest && ctx.network≠.test &&
    !isRoutable ctx.fAllowPrivateNet addr) 10 .invalid "bad-protx-addr"
  rejectIf (if ctx.network=.main then addr.port≠mainnetDefaultPort
    else addr.port=mainnetDefaultPort) 10 .invalid "bad-protx-addr-port"
  rejectIf (!isIPv4 addr) 10 .invalid "bad-protx-addr"

/-- Check a service address only when it is set. -/
def checkServiceIfSet (ctx : NodeContext) (addr : CService) : Checked Unit :=
  if addr≠CService.null then checkService ctx addr else .ok ()

/-- Coin of an outpoint with the waiting transactions on top of the chain. -/
def getCoinMemPool (view : ChainView) (outpoint : COutPoint) : Option Coin :=
  match view.mempool outpoint.hash with
  | some ptx => ptx.vout[outpoint.n]?.map (fun out => ⟨out,false,0x7FFFFFFF⟩)
  | none => getUTXOCoin view.pcoinsTip outpoint

/-- Collateral amounts by height. -/
def validateCollateral (view : ChainView) (collateral : COutPoint) : Bool :=
  match getCoinMemPool view collateral with
  | none => false
  | some entry =>
    let height := view.nHeight
    let collatValue := entry.out.nValue
    if entry.isSpent then false
    else if collatValue≠1000*coin && collatValue≠2500*coin && collatValue≠5000*coin then false
    else if height<100000 then collatValue=1000*coin
    else if height<265000 then collatValue=2500*coin
    else if height<285000 then collatValue=2500*coin || collatValue=5000*coin
    else collatValue=5000*coin

/-- Test the masternode that has a property, if one has it. -/
def propertyHolder (ctx : NodeContext) (list : CDeterministicMNList) (v : UniqueProperty)
    (test : CDeterministicMN → Bool) : Checked Bool :=
  if list.hasUniqueProperty ctx.serializeHash v then
    match list.getUniquePropertyMN ctx.serializeHash v with
    | none => .error (.assertion .nullPointer)
    | some dmn => .ok (test dmn)
  else .ok false

/-- Keys that must not be the destination of an output. -/
def reusesKey (destination : CTxDestination) (keyIDOwner keyIDVoting : CKeyID) : Bool :=
  destination=.keyID keyIDOwner || destination=.keyID keyIDVoting

/-- Before the list is enforced, the voting key has to be the owner key. -/
def checkSameKey (ctx : NodeContext) (view : ChainView) (keyIDOwner keyIDVoting : CKeyID) :
    Checked Unit :=
  rejectIf (!ctx.fLiteMode && !(ctx.spork15Value≤view.nHeight) && keyIDOwner≠keyIDVoting)
    10 .invalid "bad-protx-key-not-same"

/-- The payload names the inputs of its transaction. -/
def checkInputsHash (ctx : NodeContext) (tx : CTransaction) (inputsHash : Uint256) :
    Checked Unit :=
  rejectIf (ctx.calcTxInputsHash tx≠inputsHash) 100 .invalid "bad-protx-inputs-hash"

/-- Payout script and destination that registrations and updates share. -/
def checkPayee (ctx : NodeContext) (scriptPayout : CScript) : Checked CTxDestination := do
  rejectIf (!isPayToPublicKeyHash scriptPayout && !isPayToScriptHash scriptPayout)
    10 .invalid "bad-protx-payee"
  orReject (extractDestination ctx.hash160 scriptPayout) 10 "bad-protx-payee-dest"

/-- Collateral that the registration refers to. -/
def collateralOutpoint (tx : CTransaction) (ptx : CProRegTx) : COutPoint :=
  if ptx.collateralOutpoint.hash=0 then ⟨tx.hash,ptx.collateralOutpoint.n⟩
  else ptx.collateralOutpoint

/-- Key that a destination pays to; script hashes have none. -/
def keyOfDestination : CTxDestination → Option CKeyID
  | .keyID key => some key
  | _ => none

/-- Destination of the collateral and the key that has to sign the payload. -/
def checkCollateral (ctx : NodeContext) (view : ChainView) (tx : CTransaction)
    (ptx : CProRegTx) : Checked (CTxDestination×CKeyID) :=
  if ptx.collateralOutpoint.hash≠0 then do
    let entry ← orReject (getUTXOCoin view.pcoinsTip ptx.collateralOutpoint) 10
      "bad-protx-collateral"
    rejectIf (!validateCollateral view ptx.collateralOutpoint) 10 .invalid "bad-protx-collateral"
    let collateralTxDest ← orReject (extractDestination ctx.hash160 entry.out.scriptPubKey) 10
      "bad-protx-collateral-dest"
    let keyForPayloadSig ← orReject (keyOfDestination collateralTxDest) 10
      "bad-protx-collateral-pkh"
    .ok (collateralTxDest,keyForPayloadSig)
  else do
    let out ← orReject tx.vout[ptx.collateralOutpoint.n]? 10 "bad-protx-collateral-index"
    rejectIf (!validateCollateral view ptx.collateralOutpoint) 10 .invalid "bad-protx-collateral"
    let collateralTxDest ← orReject (extractDestination ctx.hash160 out.scriptPubKey) 10
      "bad-protx-collateral-dest"
    .ok (collateralTxDest,0)

/-- Ownership of an external collateral is proved by its key. -/
def checkCollateralSig (ctx : NodeContext) (ptx : CProRegTx) (keyForPayloadSig : CKeyID) :
    Checked Unit :=
  if keyForPayloadSig≠0 then
    rejectIf (!ctx.verifyMessage keyForPayloadSig ptx) 100 .invalid "bad-protx-sig"
  else rejectIf (!ptx.vchSig.isEmpty) 100 .invalid "bad-protx-sig"

def checkProRegTx (ctx : NodeContext) (view : ChainView) (tx : CTransaction) :
    Checked Unit := do
  rejectIf (tx.nType≠.providerRegister) 100 .invalid "bad-protx-type"
  let ptx ← orReject tx.getProRegTx 100 "bad-protx-payload"
  rejectIf (ptx.nVersion=0 || 1<ptx.nVersion) 100 .invalid "bad-protx-version"
  rejectIf (ptx.nType≠0) 100 .invalid "bad-protx-type"
  rejectIf (ptx.nMode≠0) 100 .invalid "bad-protx-mode"
  rejectIf (ptx.keyIDOwner=0 || !ptx.pubKeyOperator.fValid || ptx.keyIDVoting=0)
    10 .invalid "bad-protx-key-null"
  let payoutDest ← checkPayee ctx ptx.scriptPayout
  rejectIf (reusesKey payoutDest ptx.keyIDOwner ptx.keyIDVoting) 10 .invalid "bad-protx-payee-reuse"
  checkServiceIfSet ctx ptx.addr
  rejectIf (10000<ptx.nOperatorReward) 10 .invalid "bad-protx-operator-reward"
  let collateral ← checkCollateral ctx view tx ptx
  rejectIf (reusesKey collateral.1 ptx.keyIDOwner ptx.keyIDVoting)
    10 .invalid "bad-protx-collateral-reuse"
  let dupAddr ← propertyHolder ctx view.mnList (.service ptx.addr)
    (fun dmn => dmn.collateralOutpoint≠collateralOutpoint tx ptx)
  rejectIf dupAddr 10 .duplicate "bad-protx-dup-addr"
  rejectIf (view.mnList.hasUniqueProperty ctx.serializeHash (.owner ptx.keyIDOwner) ||
    view.mnList.hasUniqueProperty ctx.serializeHash (.operator ptx.pubKeyOperator))
    10 .duplicate "bad-protx-dup-key"
  checkSameKey ctx view ptx.keyIDOwner ptx.keyIDVoting
  checkInputsHash ctx tx ptx.inputsHash
  checkCollateralSig ctx ptx collateral.2

def checkProUpServTx (ctx : NodeContext) (view : ChainView) (tx : CTransaction) :
    Checked Unit := do
  rejectIf (tx.nType≠.providerUpdateService) 100 .invalid "bad-protx-type"
  let ptx ← orReject tx.getProUpServTx 100 "bad-protx-payload"
  rejectIf (ptx.nVersion=0 || 1<ptx.nVersion) 100 .invalid "bad-protx-version"
  checkService ctx ptx.addr
  let mn ← orReject (view.mnList.getMN ptx.proTxHash) 100 "bad-protx-hash"
  let dupAddr ← propertyHolder ctx view.mnList (.service ptx.addr)
    (fun dmn => dmn.proTxHash≠ptx.proTxHash)
  rejectIf dupAddr 10 .duplicate "bad-protx-dup-addr"
  rejectIf (ptx.scriptOperatorPayout≠[] && mn.nOperatorReward=0)
    10 .invalid "bad-protx-operator-payee"
  rejectIf (ptx.scriptOperatorPayout≠[] && !isPayToPublicKeyHash ptx.scriptOperatorPayout &&
    !isPayToScriptHash ptx.scriptOperatorPayout) 10 .invalid "bad-protx-operator-payee"
  checkInputsHash ctx tx ptx.inputsHash
  rejectIf (!ctx.verifyProUpServ mn.pdmnState.pubKeyOperator ptx) 100 .invalid "bad-protx-sig"

/-- Check a registrar update. -/
def checkProUpRegTx (ctx : NodeContext) (view : ChainView) (tx : CTransaction) :
    Checked Unit := do
  rejectIf (tx.nType≠.providerUpdateRegistrar) 100 .invalid "bad-protx-type"
  let ptx ← orReject tx.getProUpRegTx 100 "bad-protx-payload"
  rejectIf (ptx.nVersion=0 || 1<ptx.nVersion) 100 .invalid "bad-protx-version"
  rejectIf (ptx.nMode≠0) 100 .invalid "bad-protx-mode"
  rejectIf (!ptx.pubKeyOperator.fValid || ptx.keyIDVoting=0) 10 .invalid "bad-protx-key-null"
  let payoutDest ← checkPayee ctx ptx.scriptPayout
  let dmn ← orReject (view.mnList.getMN ptx.proTxHash) 100 "bad-protx-hash"
  rejectIf (reusesKey payoutDest dmn.pdmnState.keyIDOwner ptx.keyIDVoting)
    10 .invalid "bad-protx-payee-reuse"
  let entry ← orReject (getUTXOCoin view.pcoinsTip dmn.collateralOutpoint) 100
    "bad-protx-collateral"
  let collateralTxDest ← orReject (extractDestination ctx.hash160 entry.out.scriptPubKey) 100
    "bad-protx-collateral-dest"
  rejectIf (reusesKey collateralTxDest dmn.pdmnState.keyIDOwner ptx.keyIDVoting)
    10 .invalid "bad-protx-collateral-reuse"
  let dupKey ← propertyHolder ctx view.mnList (.operator ptx.pubKeyOperator)
    (fun otherDmn => ptx.proTxHash≠otherDmn.proTxHash)
  rejectIf dupKey 10 .duplicate "bad-protx-dup-key"
  checkSameKey ctx view dmn.pdmnState.keyIDOwner ptx.keyIDVoting
  checkInputsHash ctx tx ptx.inputsHash
  rejectIf (!ctx.verifyHash dmn.pdmnState.keyIDOwner ptx) 100 .invalid "bad-protx-sig"

def checkProUpRevTx (ctx : NodeContext) (view : ChainView) (tx : CTransaction) :
    Checked Unit := do
  rejectIf (tx.nType≠.providerUpdateRevoke) 100 .invalid "bad-protx-type"
  let ptx ← orReject tx.getProUpRevTx 100 "bad-protx-payload"
  rejectIf (ptx.nVersion=0 || 1<ptx.nVersion) 100 .invalid "bad-protx-version"
  rejectIf (3<ptx.nReason) 100 .invalid "bad-protx-reason"
  let dmn ← orReject (view.mnList.getMN ptx.proTxHash) 100 "bad-protx-hash"
  checkInputsHash ctx tx ptx.inputsHash
  rejectIf (!ctx.verifyProUpRev dmn.pdmnState.pubKeyOperator ptx) 100 .invalid "bad-protx-sig"

/-- Check the payload of a coinbase. -/
def checkCbTx (view : ChainView) (tx : CTransaction) : Checked Unit := do
  rejectIf (tx.nType≠.coinbase) 100 .invalid "bad-cbtx-type"
  rejectIf (!tx.isCoinBase) 100 .invalid "bad-cbtx-invalid"
  let cbTx ← orReject tx.getCbTx 100 "bad-cbtx-payload"
  rejectIf (cbTx.nVersion=0 || 1 < cbTx.nVersion) 100 .invalid "bad-cbtx-version"
  rejectIf (view.nHeight+1≠cbTx.nHeight) 100 .invalid "bad-cbtx-height"

/-- Valid and confirmed masternodes by falling score, the collateral deciding
between equal ones. -/
def calculateQuorum (list : CDeterministicMNList) (maxSize : ℕ) (score : CDeterministicMN → ℕ) :
    List CDeterministicMN :=
  let scored := (list.forEachMN true).filter (fun dmn => dmn.pdmnState.confirmedHash≠0)
  (scored.mergeSort (fun first second => score second < score first ||
    (score first=score second && second.collateralOutpoint≤first.collateralOutpoint))).take maxSize

/-- Members of a quorum, from the list of its block. -/
def getAllQuorumMembers (ctx : NodeContext) (lists : Uint256 → CDeterministicMNList)
    (llmqType : ℕ) (quorumHash : Uint256) : List CDeterministicMN :=
  match (llmqs ctx.network).find llmqType with
  | none => []
  | some params => calculateQuorum (lists quorumHash) params.size (fun dmn =>
      ctx.quorumScore dmn.pdmnState.confirmedHashWithProRegTxHash llmqType quorumHash)

/-- What the quorum checks read of the node. -/
def quorumContext (ctx : NodeContext) (lists : Uint256 → CDeterministicMNList) :
    QuorumContext where
  network := ctx.network
  crypto := ctx.crypto
  serializeHash := ctx.commitmentHash
  dip3Active := ctx.dip3Active
  mapBlockIndex := ctx.mapBlockIndex
  getAllQuorumMembers := getAllQuorumMembers ctx lists

/-- Check a special transaction against the previous block. -/
def checkSpecialTx (ctx : NodeContext) (view : ChainView) (tx : CTransaction) : Checked Unit :=
  if tx.nVersion≠3 ∨ tx.nType=.normal then .ok ()
  else if !ctx.dip3Active view.chain then rejectBlock 10 .invalid "bad-tx-type"
  else
    match tx.nType with
    | .providerRegister => checkProRegTx ctx view tx
    | .providerUpdateService => checkProUpServTx ctx view tx
    | .providerUpdateRegistrar => checkProUpRegTx ctx view tx
    | .providerUpdateRevoke => checkProUpRevTx ctx view tx
    | .coinbase => checkCbTx view tx
    | .quorumCommitment =>
      checkLLMQCommitment (quorumContext ctx view.getListForBlock) view.chain tx
    | _ => rejectBlock 10 .invalid "bad-tx-type-check"

theorem rejectIf_eq_ok {condition : Bool} {dos : ℕ} {code : RejectCode} {reason : String}
    {result : Unit} : rejectIf condition dos code reason=.ok result ↔ condition=false := by
  cases condition <;> simp [rejectIf,rejectBlock]

theorem orReject_eq_ok {α : Type} {value : Option α} {dos : ℕ} {reason : String} {result : α} :
    orReject value dos reason=.ok result ↔ value=some result := by
  cases value <;> simp [orReject,rejectBlock]

variable {ctx : NodeContext} {view : ChainView} {tx : CTransaction}

theorem checkCollateral_ok {ptx : CProRegTx} {result : CTxDestination×CKeyID}
    (h : checkCollateral ctx view tx ptx=.ok result) :
    ptx.collateralOutpoint.hash≠0 ∧ view.pcoinsTip.contains (collateralOutpoint tx ptx)=true ∨
      ptx.collateralOutpoint.hash=0 ∧ Creates tx (collateralOutpoint tx ptx) := by
  unfold checkCollateral at h
  by_cases hzero : ptx.collateralOutpoint.hash=0
  · rw [if_neg (not_not.mpr hzero)] at h
    simp only [bind_eq_ok,orReject_eq_ok] at h
    obtain ⟨out,hout,_,-,destination,hdestination,-⟩ := h
    refine Or.inr ⟨hzero,ptx.collateralOutpoint.n,out,hout,?_,?_⟩
    · exact extractDestination_spendable hdestination
    · rw [collateralOutpoint,if_pos hzero]
  · rw [if_pos hzero] at h
    simp only [bind_eq_ok,orReject_eq_ok] at h
    obtain ⟨entry,hentry,-⟩ := h
    refine Or.inl ⟨hzero,?_⟩
    rw [collateralOutpoint,if_neg hzero,OrderedMap.contains_iff]
    exact ⟨entry,hentry⟩

theorem checkProRegTx_ok (h : checkProRegTx ctx view tx=.ok ()) :
    ∃ ptx, tx.getProRegTx=some ptx ∧ ptx.keyIDOwner≠0 ∧ (ptx.collateralOutpoint.hash≠0 ∧
          view.pcoinsTip.contains (collateralOutpoint tx ptx)=true ∨
        ptx.collateralOutpoint.hash=0 ∧ Creates tx (collateralOutpoint tx ptx)) := by
  unfold checkProRegTx at h
  simp only [bind_eq_ok,orReject_eq_ok,rejectIf_eq_ok] at h
  obtain ⟨_,_,ptx,hptx,_,_,_,_,_,_,_,hkeys,_,_,_,_,_,_,_,_,collateral,hcoll,-⟩ := h
  refine ⟨ptx,hptx,?_,checkCollateral_ok hcoll⟩
  simp only [Bool.or_eq_false_iff,decide_eq_false_iff_not] at hkeys
  exact hkeys.1.1

theorem checkProUpServTx_ok
    (h : checkProUpServTx ctx view tx=.ok ()) : ∃ ptx, tx.getProUpServTx=some ptx := by
  unfold checkProUpServTx at h
  simp only [bind_eq_ok,orReject_eq_ok] at h
  obtain ⟨_,_,ptx,hptx,-⟩ := h
  exact ⟨ptx,hptx⟩

theorem checkProUpRegTx_ok
    (h : checkProUpRegTx ctx view tx=.ok ()) : ∃ ptx, tx.getProUpRegTx=some ptx := by
  unfold checkProUpRegTx at h
  simp only [bind_eq_ok,orReject_eq_ok] at h
  obtain ⟨_,_,ptx,hptx,-⟩ := h
  exact ⟨ptx,hptx⟩

theorem checkProUpRevTx_ok
    (h : checkProUpRevTx ctx view tx=.ok ()) : ∃ ptx, tx.getProUpRevTx=some ptx := by
  unfold checkProUpRevTx at h
  simp only [bind_eq_ok,orReject_eq_ok] at h
  obtain ⟨_,_,ptx,hptx,-⟩ := h
  exact ⟨ptx,hptx⟩

variable {lists : Uint256 → CDeterministicMNList}

theorem getAllQuorumMembers_length {llmqType : ℕ} {quorumHash : Uint256}
    {params : LLMQParams} (hparams : (llmqs ctx.network).find llmqType=some params) :
    (getAllQuorumMembers ctx lists llmqType quorumHash).length≤params.size := by
  rw [getAllQuorumMembers,hparams]
  exact List.length_take_le _ _

theorem verify_sizes {crypto : QuorumCrypto} {network : Network} {qc : CFinalCommitment}
    {members : List CDeterministicMN} {checkSigs : Bool} {params : LLMQParams}
    (hparams : (llmqs network).find qc.llmqType=some params)
    (h : verify crypto network qc members checkSigs=true) : verifySizes params qc=true := by
  unfold verify at h
  grind

theorem checkLLMQCommitment_members {chain : List CBlock}
    (h : checkLLMQCommitment (quorumContext ctx lists) chain tx=.ok ()) :
    ∃ payload, tx.getFinalCommitment=some payload ∧ (isNull payload.commitment=false →
      (getAllQuorumMembers ctx lists payload.commitment.llmqType
        payload.commitment.quorumHash).length≤payload.commitment.validMembers.length) := by
  obtain ⟨payload,params,_,hpayload,hparams,-,hverify⟩ := checkLLMQCommitment_ok h
  refine ⟨payload,hpayload,fun hnull => ?_⟩
  have hsizes := verify_sizes hparams (hverify hnull)
  rw [verifySizes,Bool.and_eq_true,decide_eq_true_eq,decide_eq_true_eq] at hsizes
  rw [hsizes.2]
  exact getAllQuorumMembers_length hparams

end Pyrk.ProviderTx
