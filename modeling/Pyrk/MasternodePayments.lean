import Pyrk.BuildNewList
import Pyrk.Superblock

/-!
# Masternode payments in the coinbase

The masternode that is next is paid, and a share goes to its operator. The check looks for each of
the two outputs by itself, so one output is taken for both where they are the same.
-/

namespace Pyrk.MasternodePayments

open ChainParams Script Transaction DeterministicMNList BuildNewList List

/-- Part of the block value that belongs to the masternode. -/
def getMasternodePayment (network : Network) (nHeight : ℕ) (blockValue : ℤ) : ℤ :=
  if nMasternodePaymentsStartBlock network ≤ nHeight ∧ nHeight<nSuperblockStartBlock network then
    blockValue.tdiv 5
  else if nSuperblockStartBlock network ≤ nHeight ∧ nHeight<100000 then blockValue.tdiv 9*2
  else if 100000 ≤ nHeight then blockValue.tdiv 9*3
  else 0

/-- Votes for one payee of a block. -/
structure CMasternodePayee where
  scriptPubKey : CScript
  vecVoteHashes : List Uint256
  deriving DecidableEq

def CMasternodePayee.getVoteCount (payee : CMasternodePayee) : ℕ := payee.vecVoteHashes.length

/-- One step of the search for the payee with the most votes. -/
def betterVoted (best : Option CMasternodePayee) (payee : CMasternodePayee) :
    Option CMasternodePayee :=
  match best with
  | none => some payee
  | some other => if other.getVoteCount<payee.getVoteCount then some payee else best

/-- Payee of a block with the most votes, the first one of several. -/
def getBestPayee (vecPayees : List CMasternodePayee) : Option CScript :=
  (vecPayees.foldl betterVoted none).map CMasternodePayee.scriptPubKey

/-- Votes that a payee needs to be enforced. -/
def mnpaymentsSignaturesRequired : ℕ := 6

/-- What the payment code of a node reads besides the block. -/
structure PaymentState where
  network : Network
  chainHeight : ℤ
  /-- Masternode list after each block of the active chain. -/
  listForBlock : ℕ → CDeterministicMNList
  /-- Height from which the deterministic lists are in force. -/
  spork15Value : ℤ
  /-- Votes for the payees of each height, from before the lists. -/
  mapMasternodeBlocks : OrderedMap ℕ (List CMasternodePayee)
  /-- Script of the masternode that the legacy queue pays next. -/
  getNextMasternodeInQueueForPayment : ℕ → Option CScript
  hash160 : List UInt8 → ℕ

namespace PaymentState

variable (st : PaymentState)

/-- Deterministic lists are in force at a height. -/
def isDeterministicMNsSporkActive (nHeight : ℕ) : Bool := st.spork15Value≤nHeight

/-- Masternode that the deterministic list pays at a height. -/
def payeeAt (nBlockHeight : ℕ) : Option CDeterministicMN :=
  if st.chainHeight<(nBlockHeight : ℤ)-1 then none
  else getMNPayee (st.listForBlock (nBlockHeight-1))

end PaymentState

/-- Part of the masternode payment that goes to the operator. -/
def operatorReward (payee : CDeterministicMN) (masternodeReward : ℤ) : ℤ :=
  if payee.nOperatorReward≠0 ∧ payee.pdmnState.scriptOperatorPayout≠[] then
    (masternodeReward*payee.nOperatorReward).tdiv 10000
  else 0

/-- Outputs for a masternode and its operator; shares of nothing are left out. -/
def payeeTxOuts (payee : CDeterministicMN) (masternodeReward : ℤ) : List CTxOut :=
  let operatorReward := operatorReward payee masternodeReward
  let masternodeReward := masternodeReward-operatorReward
  (if 0 < masternodeReward then [⟨masternodeReward,payee.pdmnState.scriptPayout⟩] else [])++
    if 0<operatorReward then [⟨operatorReward,payee.pdmnState.scriptOperatorPayout⟩] else []

section Payments

variable (st : PaymentState)

/-- Outputs that a block must pay to masternodes, if that is known. -/
def getBlockTxOuts (nBlockHeight : ℕ) (blockReward : ℤ) : Option (List CTxOut) :=
  let masternodeReward := getMasternodePayment st.network nBlockHeight blockReward
  if st.isDeterministicMNsSporkActive nBlockHeight then
    (st.payeeAt nBlockHeight).map (fun payee => payeeTxOuts payee masternodeReward)
  else
    match st.mapMasternodeBlocks.find nBlockHeight with
    | none => none
    | some vecPayees => (getBestPayee vecPayees).map (fun payee => [⟨masternodeReward,payee⟩])

/-- Outputs that a new block pays to masternodes, if there is one to pay. -/
def getMasternodeTxOuts (nBlockHeight : ℕ) (blockReward : ℤ) : Option (List CTxOut) :=
  match getBlockTxOuts st nBlockHeight blockReward with
  | some outs => some outs
  | none =>
    if st.isDeterministicMNsSporkActive nBlockHeight then none
    else
      match st.getNextMasternodeInQueueForPayment nBlockHeight with
      | none => none
      | some payee =>
        let masternodePayment := getMasternodePayment st.network nBlockHeight blockReward
        if masternodePayment=0 then none else some [⟨masternodePayment,payee⟩]

/-- Check of a coinbase against the votes of its height; `none` where the sum
of the outputs throws. -/
def blockPayeesIsTransactionValid (vecPayees : List CMasternodePayee) (txNew : CTransaction)
    (nBlockHeight : ℕ) : Option Bool :=
  match txNew.getValueOut with
  | none => none
  | some nValueOut =>
    let nMasternodePayment := getMasternodePayment st.network nBlockHeight nValueOut
    if vecPayees.all (fun payee => payee.getVoteCount < mnpaymentsSignaturesRequired) then some true
    else some (vecPayees.any (fun payee =>
      mnpaymentsSignaturesRequired≤payee.getVoteCount && txNew.vout.any (fun txout =>
        payee.scriptPubKey=txout.scriptPubKey && nMasternodePayment=txout.nValue)))

/-- Look for each expected output by itself; `none` where a missing one has no destination. -/
def findTxOuts (vout : List CTxOut) : List CTxOut → Option Bool
  | [] => some true
  | txout::txouts =>
    if txout∈vout then findTxOuts vout txouts
    else if extractDestination st.hash160 txout.scriptPubKey=none then none
    else some false

/-- Check of a coinbase for the masternode payment. -/
def isTransactionValid (txNew : CTransaction) (nBlockHeight : ℕ) (blockReward : ℤ) : Option Bool :=
  if st.isDeterministicMNsSporkActive nBlockHeight then
    match getBlockTxOuts st nBlockHeight blockReward with
    | none => some true
    | some voutMasternodePayments => findTxOuts st txNew.vout voutMasternodePayments
  else
    match st.mapMasternodeBlocks.find nBlockHeight with
    | none => some true
    | some vecPayees => blockPayeesIsTransactionValid st vecPayees txNew nBlockHeight

end Payments

theorem getMasternodePayment_bounds (network : Network) (nHeight : ℕ) {blockValue : ℤ}
    (hvalue : 0 ≤ blockValue) :
    0≤getMasternodePayment network nHeight blockValue ∧
      getMasternodePayment network nHeight blockValue ≤ blockValue := by
  have hfifth := Int.tdiv_eq_ediv_of_nonneg hvalue (b := 5)
  have hninth := Int.tdiv_eq_ediv_of_nonneg hvalue (b := 9)
  unfold getMasternodePayment
  rw [hfifth,hninth]
  split_ifs <;> omega

theorem operatorReward_bounds {payee : CDeterministicMN} {masternodeReward : ℤ}
    (hreward : 0 ≤ masternodeReward) (hshare : payee.nOperatorReward≤10000) :
    0≤operatorReward payee masternodeReward ∧
      operatorReward payee masternodeReward ≤ masternodeReward := by
  unfold operatorReward
  split_ifs
  · have hshare' : (payee.nOperatorReward : ℤ)≤10000 := by omega
    have hproduct := mul_le_mul_of_nonneg_left hshare' hreward
    have hnonneg := mul_nonneg hreward (Int.natCast_nonneg payee.nOperatorReward)
    rw [Int.tdiv_eq_ediv_of_nonneg hnonneg]
    omega
  · omega

theorem sum_payeeTxOuts {payee : CDeterministicMN} {masternodeReward : ℤ}
    (hreward : 0 ≤ masternodeReward) (hshare : payee.nOperatorReward≤10000) :
    ((payeeTxOuts payee masternodeReward).map CTxOut.nValue).sum=masternodeReward := by
  obtain ⟨hlow,hhigh⟩ := operatorReward_bounds hreward hshare
  unfold payeeTxOuts
  dsimp only
  split_ifs <;> simp <;> omega

theorem findTxOuts_true_iff (st : PaymentState) (vout txouts : List CTxOut) :
    findTxOuts st vout txouts=some true ↔ ∀ txout∈txouts, txout∈vout := by
  induction txouts with
  | nil => simp [findTxOuts]
  | cons txout txouts ih =>
    unfold findTxOuts
    split_ifs with hfound hdestination
    · simp [hfound,ih]
    · simp [hfound]
    · simp [hfound]

/-- Script that pays to the hash of a key. -/
def payoutScript (byte : UInt8) : CScript := [0x76,0xa9,20]++List.replicate 20 byte++[0x88,0xac]

variable (scriptOperatorPayout : CScript)

/-- A masternode whose operator is paid half of the reward. -/
def halfShareMN : CDeterministicMN :=
  { sampleMN 1 with
    nOperatorReward := 5000
    pdmnState := { (sampleMN 1).pdmnState with
      scriptPayout := payoutScript 1
      scriptOperatorPayout := scriptOperatorPayout } }

/-- A node at height 150000 of the main network with this masternode only. -/
def halfShareState : PaymentState where
  network := .main
  chainHeight := 150000
  listForBlock _ := { sampleList with
    mnMap := OrderedMap.empty.set 1 (halfShareMN scriptOperatorPayout) }
  spork15Value := 0
  mapMasternodeBlocks := .empty
  getNextMasternodeInQueueForPayment _ := none
  hash160 _ := 0

end Pyrk.MasternodePayments
