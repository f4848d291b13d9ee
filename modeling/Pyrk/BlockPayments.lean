import Pyrk.BlockSubsidy
import Pyrk.GovernanceManager
import Pyrk.MasternodePayments

/-!
# Payments of a new block and their check

The same node makes a new block and checks it. The superblock is checked against the payments limit,
and a new block pays it whatever it asks for.
-/

namespace Pyrk.BlockPayments

open ChainParams Transaction Superblock BlockSubsidy GovernanceObject GovernanceManager List
open MasternodePayments

/-- What a node reads when it fills or checks the payments of a block. -/
structure PaymentNode where
  payments : PaymentState
  governance : CGovernanceManager
  /-- What the governance code knows about the masternodes. -/
  vote : VoteContext
  spork8Active : Bool
  spork9Active : Bool
  isSynced : Bool
  fLiteMode : Bool
  network_eq : vote.network=payments.network

/-- Superblocks whose trigger is among the objects. -/
def getActiveTriggers (governance : CGovernanceManager) : List CSuperblock :=
  (governance.mapTrigger.entries.filter (fun entry =>
    governance.mapObjects.contains entry.1)).map Prod.snd

/-- Why the value of a coinbase is refused. -/
inductive ValueError where
  | valueOutOfRange
  /-- More than the reward before there are superblocks, which has no text. -/
  | exceededReward
  | paysTooMuch (nBlockHeight : ℕ) (actual limit : ℤ) (exceeded : String)
  /-- The triggered superblock is not paid as it should be. -/
  | invalidSuperblock (nBlockHeight : ℕ)
  deriving DecidableEq

def ValueError.strErrorRet : ValueError → String
  | .valueOutOfRange => "GetValueOut: value out of range"
  | .exceededReward => ""
  | .paysTooMuch nBlockHeight actual limit exceeded =>
    "coinbase pays too much at height "++toString nBlockHeight++" (actual="++toString actual++
      " vs limit="++toString limit++"), exceeded "++exceeded
  | .invalidSuperblock nBlockHeight =>
    "invalid superblock detected at height "++toString nBlockHeight

/-- Payments that a new block gets. -/
structure FilledPayments where
  vout : List CTxOut
  voutMasternodePayments : List CTxOut
  voutSuperblockPayments : List CTxOut
  deriving DecidableEq

/-- Take a payment from the first output. -/
def subtractPayment (vout : List CTxOut) (txout : CTxOut) : List CTxOut :=
  vout.modifyHead (fun out => { out with nValue := out.nValue-txout.nValue })

section Node

variable (node : PaymentNode)

/-- A trigger of this height has enough votes, after the flags of its object are updated. -/
def isSuperblockTriggered (nBlockHeight : ℕ) : Bool :=
  isValidBlockHeight node.payments.network nBlockHeight &&
    (getActiveTriggers node.governance).any (fun pSuperblock =>
      match node.governance.mapObjects.find pSuperblock.nGovObjHash with
      | none => false
      | some pObj => nBlockHeight=pSuperblock.nBlockHeight &&
        (updateSentinelVariables node.vote pObj).fCachedFunding)

/-- One step of the search for the superblock with the most votes. -/
def betterSuperblock (nBlockHeight : ℕ) (best : Option CSuperblock×ℤ) (pSuperblock : CSuperblock) :
    Option CSuperblock×ℤ :=
  match node.governance.mapObjects.find pSuperblock.nGovObjHash with
  | none => best
  | some pObj =>
    if nBlockHeight≠pSuperblock.nBlockHeight then best
    else
      let nTempYesCount := getAbsoluteYesCount pObj voteSignalFunding
      if best.2<nTempYesCount then (some pSuperblock,nTempYesCount) else best

/-- Superblock of a height with the most votes, if it has any. -/
def getBestSuperblock (nBlockHeight : ℕ) : Option CSuperblock :=
  if !isValidBlockHeight node.payments.network nBlockHeight then none
  else
    let best := (getActiveTriggers node.governance).foldl (betterSuperblock node nBlockHeight)
      (none,0)
    if 0<best.2 then best.1 else none

/-- Outputs that the superblock of a height asks for. -/
def getSuperblockPayments (nBlockHeight : ℕ) : Option (List CTxOut) :=
  (getBestSuperblock node nBlockHeight).map (fun pSuperblock => pSuperblock.vecPayments.map payOut)

/-- Check of a coinbase against the superblock of its height. -/
def superblockIsValid (txNew : CTransaction) (nBlockHeight : ℕ) (blockReward : ℤ) : Option Bool :=
  match getBestSuperblock node nBlockHeight with
  | some pSuperblock =>
    Superblock.isValid (subsidyAt node.payments.network) node.payments.network
      pSuperblock.vecPayments txNew nBlockHeight blockReward
  | none => some false

/-- Complete the coinbase of a new block. -/
def fillBlockPayments (vout : List CTxOut) (nBlockHeight : ℕ) (blockReward : ℤ) : FilledPayments :=
  let voutSuperblockPayments :=
    if node.spork9Active && isSuperblockTriggered node nBlockHeight then
      (getSuperblockPayments node nBlockHeight).getD []
    else []
  let allowSuperblockAndMNReward := node.payments.isDeterministicMNsSporkActive nBlockHeight
  if voutSuperblockPayments≠[] ∧ allowSuperblockAndMNReward=false then
    ⟨vout++voutSuperblockPayments,[],voutSuperblockPayments⟩
  else
    let voutMasternodePayments :=
      (getMasternodeTxOuts node.payments nBlockHeight blockReward).getD []
    ⟨voutMasternodePayments.foldl subtractPayment
      (vout++voutMasternodePayments++voutSuperblockPayments),
      voutMasternodePayments,voutSuperblockPayments⟩

/-- The coinbase is worth no more than the reward, or the error for it. -/
def checkReward (nValueOut blockReward : ℤ) (error : ValueError) : Except ValueError Unit :=
  if nValueOut ≤ blockReward then .ok () else .error error

/-- Check of the value of a coinbase. -/
def isBlockValueValid (txNew : CTransaction) (nBlockHeight : ℕ) (blockReward : ℤ) :
    Except ValueError Unit :=
  match txNew.getValueOut with
  | none => .error .valueOutOfRange
  | some nValueOut =>
    let network := node.payments.network
    if nBlockHeight<nSuperblockStartBlock network then
      checkReward nValueOut blockReward .exceededReward
    else
      let nSuperblockMaxValue :=
        blockReward+getPaymentsLimit (subsidyAt network) network nBlockHeight
      if !isValidBlockHeight network nBlockHeight then
        checkReward nValueOut blockReward (.paysTooMuch nBlockHeight nValueOut blockReward
          "block reward, only regular blocks are allowed at this height")
      else if nSuperblockMaxValue<nValueOut then
        .error (.paysTooMuch nBlockHeight nValueOut nSuperblockMaxValue "superblock max value")
      else if !node.isSynced || node.fLiteMode then .ok ()
      else if !node.spork9Active then
        checkReward nValueOut blockReward (.paysTooMuch nBlockHeight nValueOut blockReward
          "block reward, superblocks are disabled")
      else if !isSuperblockTriggered node nBlockHeight then
        checkReward nValueOut blockReward (.paysTooMuch nBlockHeight nValueOut blockReward
          "block reward, no triggered superblock detected")
      else
        match superblockIsValid node txNew nBlockHeight blockReward with
        | none => .error .valueOutOfRange
        | some false => .error (.invalidSuperblock nBlockHeight)
        | some true => .ok ()

/-- Check of the masternode payment; `none` where it throws or an assertion
fails. -/
def masternodePayeeValid (txNew : CTransaction) (nBlockHeight : ℕ) (blockReward : ℤ) :
    Option Bool :=
  match isTransactionValid node.payments txNew nBlockHeight blockReward with
  | none => none
  | some true => some true
  | some false =>
    if node.payments.isDeterministicMNsSporkActive nBlockHeight then some false
    else some (!node.spork8Active)

/-- Check of the payees of a coinbase. -/
def isBlockPayeeValid (txNew : CTransaction) (nBlockHeight : ℕ) (blockReward : ℤ) : Option Bool :=
  if !node.isSynced || node.fLiteMode then some true
  else if nBlockHeight<nSuperblockStartBlock node.payments.network then some true
  else if node.spork9Active && isSuperblockTriggered node nBlockHeight then
    match superblockIsValid node txNew nBlockHeight blockReward with
    | none => none
    | some false => some false
    | some true =>
      if !node.payments.isDeterministicMNsSporkActive nBlockHeight then some true
      else masternodePayeeValid node txNew nBlockHeight blockReward
  else masternodePayeeValid node txNew nBlockHeight blockReward

/-- Both checks accept a coinbase. -/
def Accepted (txNew : CTransaction) (nBlockHeight : ℕ) (blockReward : ℤ) : Prop :=
  isBlockValueValid node txNew nBlockHeight blockReward=.ok () ∧
    isBlockPayeeValid node txNew nBlockHeight blockReward=some true

def superblockDue (nBlockHeight : ℕ) : Bool :=
  node.spork9Active && isSuperblockTriggered node nBlockHeight

/-- What the superblock of a height asks for, nothing if none is due. -/
def scheduledAmount (nBlockHeight : ℕ) : ℤ :=
  if superblockDue node nBlockHeight then
    match getBestSuperblock node nBlockHeight with
    | some pSuperblock => getPaymentsTotalAmount pSuperblock.vecPayments
    | none => 0
  else 0

/-- A superblock that is due asks for no more than the payments limit. -/
def WithinLimit (nBlockHeight : ℕ) : Prop :=
  superblockDue node nBlockHeight=true →
    ∃ pSuperblock, getBestSuperblock node nBlockHeight=some pSuperblock ∧
      getPaymentsTotalAmount pSuperblock.vecPayments≤
        getPaymentsLimit (subsidyAt node.payments.network) node.payments.network nBlockHeight

end Node

theorem range_of_sumOut {vout : List CTxOut} {start total : ℤ}
    (h : CTransaction.sumOut start vout=some total) :
    (∀ out∈vout, moneyRange out.nValue=true) ∧ (vout≠[] → moneyRange total=true) := by
  induction vout generalizing start with
  | nil => simp
  | cons out tail ih =>
    unfold CTransaction.sumOut at h
    split_ifs at h with hrange
    simp only [Bool.or_eq_true,Bool.not_eq_true',not_or,Bool.not_eq_false] at hrange
    have htail := ih h
    refine ⟨forall_mem_cons.mpr ⟨hrange.1,htail.1⟩,fun _ => ?_⟩
    cases tail with
    | nil =>
      cases h
      exact hrange.2
    | cons next rest => exact htail.2 (cons_ne_nil _ _)

theorem foldl_betterVoted (vecPayees : List CMasternodePayee) (best : CMasternodePayee) :
    ∃ winner, vecPayees.foldl betterVoted (some best)=some winner ∧
      (winner=best ∨ winner∈vecPayees) ∧
      best.getVoteCount≤winner.getVoteCount ∧
      ∀ payee∈vecPayees, payee.getVoteCount≤winner.getVoteCount := by
  induction vecPayees generalizing best with
  | nil => exact ⟨best,rfl,.inl rfl,le_refl _,by simp⟩
  | cons payee payees ih =>
    rw [foldl_cons]
    unfold betterVoted
    dsimp only
    split_ifs with hmore
    · obtain ⟨winner,hfold,hmem,hbest,hall⟩ := ih payee
      refine ⟨winner,hfold,.inr ?_,by omega,forall_mem_cons.mpr ⟨hbest,hall⟩⟩
      rcases hmem with rfl | hmem
      · exact mem_cons_self
      · exact mem_cons_of_mem _ hmem
    · obtain ⟨winner,hfold,hmem,hbest,hall⟩ := ih best
      refine ⟨winner,hfold,?_,hbest,forall_mem_cons.mpr ⟨by omega,hall⟩⟩
      exact hmem.imp_right (mem_cons_of_mem _)

theorem blockPayeesIsTransactionValid_best {st : PaymentState}
    {vecPayees : List CMasternodePayee} {txNew : CTransaction} {nBlockHeight : ℕ} {nValueOut : ℤ}
    (hvalue : txNew.getValueOut=some nValueOut)
    (hpaid : ∀ payee, getBestPayee vecPayees=some payee →
      ⟨getMasternodePayment st.network nBlockHeight nValueOut,payee⟩∈txNew.vout) :
    blockPayeesIsTransactionValid st vecPayees txNew nBlockHeight=some true := by
  unfold blockPayeesIsTransactionValid
  rw [hvalue]
  split_ifs with hfew
  · rfl
  · cases vecPayees with
    | nil => exact absurd rfl hfew
    | cons first payees =>
      obtain ⟨winner,hfold,hmem,hbest,hall⟩ := foldl_betterVoted payees first
      have hwinner : winner∈first::payees := mem_cons.mpr hmem
      have hmost : ∀ payee∈first::payees, payee.getVoteCount≤winner.getVoteCount :=
        forall_mem_cons.mpr ⟨hbest,hall⟩
      have hout := hpaid winner.scriptPubKey (congrArg (Option.map _) hfold)
      have hvotes : mnpaymentsSignaturesRequired≤winner.getVoteCount := by
        grind
      refine congrArg some (any_eq_true.mpr ⟨winner,hwinner,?_⟩)
      simp only [Bool.and_eq_true,decide_eq_true_eq]
      exact ⟨hvotes,any_eq_true.mpr ⟨_,hout,by simp⟩⟩

theorem foldl_subtractPayment (outs : List CTxOut) (out : CTxOut) (tail : List CTxOut) :
    outs.foldl subtractPayment (out::tail)=
      { out with nValue := out.nValue-(outs.map CTxOut.nValue).sum }::tail := by
  induction outs generalizing out with
  | nil => simp
  | cons paid outs ih =>
    rw [foldl_cons,subtractPayment,modifyHead_cons,ih]
    simp only [map_cons,sum_cons,Int.sub_sub]

theorem getMasternodeTxOuts_bounds {st : PaymentState} {nBlockHeight : ℕ} {blockReward : ℤ}
    {outs : List CTxOut} (hreward : 0 ≤ blockReward)
    (hshare : ∀ payee, st.payeeAt nBlockHeight=some payee → payee.nOperatorReward≤10000)
    (houts : getMasternodeTxOuts st nBlockHeight blockReward=some outs) :
    (∀ out∈outs, 0≤out.nValue) ∧ (outs.map CTxOut.nValue).sum≤blockReward := by
  have hbounds := getMasternodePayment_bounds st.network nBlockHeight hreward
  have hsingle : ∀ script, outs=[⟨getMasternodePayment st.network nBlockHeight blockReward,
      script⟩] → (∀ out∈outs, 0≤out.nValue) ∧ (outs.map CTxOut.nValue).sum≤blockReward := by
    rintro script rfl
    simpa using hbounds
  unfold getMasternodeTxOuts getBlockTxOuts at houts
  by_cases hact : st.isDeterministicMNsSporkActive nBlockHeight=true
  · rw [if_pos hact,if_pos hact] at houts
    cases hpayee : st.payeeAt nBlockHeight with
    | none =>
      rw [hpayee] at houts
      cases houts
    | some payee =>
      rw [hpayee] at houts
      cases houts
      have hsum := sum_payeeTxOuts hbounds.1 (hshare payee hpayee)
      refine ⟨?_,hsum.trans_le hbounds.2⟩
      intro out hout
      unfold payeeTxOuts at hout
      grind
  · rw [if_neg hact,if_neg hact] at houts
    split at houts
    next found hfound =>
      cases houts
      split at hfound
      · cases hfound
      · obtain ⟨script,-,hscript⟩ := Option.map_eq_some_iff.mp hfound
        exact hsingle script hscript.symm
    next =>
      grind

section Fill

variable {node : PaymentNode} {nBlockHeight : ℕ} {blockReward : ℤ}

theorem fillBlockPayments_vout (script : Script.CScript) :
    (fillBlockPayments node [⟨blockReward,script⟩] nBlockHeight blockReward).vout=
      ⟨blockReward-((fillBlockPayments node [⟨blockReward,script⟩] nBlockHeight
        blockReward).voutMasternodePayments.map CTxOut.nValue).sum,script⟩::
      ((fillBlockPayments node [⟨blockReward,script⟩] nBlockHeight
        blockReward).voutMasternodePayments++
      (fillBlockPayments node [⟨blockReward,script⟩] nBlockHeight
        blockReward).voutSuperblockPayments) := by
  unfold fillBlockPayments
  dsimp only
  split_ifs
  all_goals simp [foldl_subtractPayment]

variable (vout : List CTxOut)

theorem fillBlockPayments_superblock :
    (fillBlockPayments node vout nBlockHeight blockReward).voutSuperblockPayments=
      if superblockDue node nBlockHeight then
        match getBestSuperblock node nBlockHeight with
        | some pSuperblock => pSuperblock.vecPayments.map payOut
        | none => []
      else [] := by
  have hpay : (getSuperblockPayments node nBlockHeight).getD []=
      match getBestSuperblock node nBlockHeight with
      | some pSuperblock => pSuperblock.vecPayments.map payOut
      | none => [] := by
    unfold getSuperblockPayments
    cases getBestSuperblock node nBlockHeight with
    | none => rfl
    | some pSuperblock => rfl
  unfold fillBlockPayments superblockDue
  dsimp only
  rw [← hpay]
  split_ifs <;> rfl

theorem fillBlockPayments_masternodes :
    (fillBlockPayments node vout nBlockHeight blockReward).voutMasternodePayments=
        (getMasternodeTxOuts node.payments nBlockHeight blockReward).getD [] ∨
      (superblockDue node nBlockHeight=true ∧
        node.payments.isDeterministicMNsSporkActive nBlockHeight=false ∧
        (fillBlockPayments node vout nBlockHeight blockReward).voutMasternodePayments=[]) := by
  unfold fillBlockPayments superblockDue
  grind

theorem sum_superblock :
    (∀ out∈(fillBlockPayments node vout nBlockHeight blockReward).voutSuperblockPayments,
        moneyRange out.nValue=true) ∧
      ((fillBlockPayments node vout nBlockHeight blockReward).voutSuperblockPayments.map
        CTxOut.nValue).sum=scheduledAmount node nBlockHeight := by
  rw [fillBlockPayments_superblock]
  unfold scheduledAmount
  split_ifs
  · cases getBestSuperblock node nBlockHeight with
    | none => simp
    | some pSuperblock =>
      refine ⟨?_,sum_payOut _⟩
      intro out hout
      obtain ⟨payment,-,rfl⟩ := mem_map.mp hout
      exact payment.inRange
  · simp

theorem scheduledAmount_of_not_due (hdue : superblockDue node nBlockHeight=false) :
    scheduledAmount node nBlockHeight=0 := by
  unfold scheduledAmount
  rw [hdue]
  rfl

theorem scheduledAmount_of_best (hdue : superblockDue node nBlockHeight=true)
    {pSuperblock : CSuperblock} (hbest : getBestSuperblock node nBlockHeight=some pSuperblock) :
    scheduledAmount node nBlockHeight=getPaymentsTotalAmount pSuperblock.vecPayments := by
  unfold scheduledAmount
  rw [if_pos hdue,hbest]

theorem scheduledAmount_nonneg : 0 ≤ scheduledAmount node nBlockHeight := by
  unfold scheduledAmount
  split_ifs
  · cases getBestSuperblock node nBlockHeight with
    | none => exact le_refl 0
    | some pSuperblock => exact getPaymentsTotalAmount_nonneg _
  · exact le_refl 0

theorem sum_fillBlockPayments (script : Script.CScript) :
    ((fillBlockPayments node [⟨blockReward,script⟩] nBlockHeight blockReward).vout.map
      CTxOut.nValue).sum=blockReward+scheduledAmount node nBlockHeight := by
  have hscheduled := (@sum_superblock node nBlockHeight blockReward [⟨blockReward,script⟩]).2
  rw [fillBlockPayments_vout,map_cons,sum_cons,map_append,sum_append,hscheduled]
  dsimp only
  omega

theorem sumOut_fillBlockPayments {script : Script.CScript}
    (hreward : 0 ≤ blockReward) (hmax : blockReward+scheduledAmount node nBlockHeight ≤ maxMoney)
    (hshare : ∀ payee, node.payments.payeeAt nBlockHeight=some payee →
      payee.nOperatorReward≤10000) :
    CTransaction.sumOut 0
        (fillBlockPayments node [⟨blockReward,script⟩] nBlockHeight blockReward).vout=
      some (blockReward+scheduledAmount node nBlockHeight) := by
  have hsum := @sum_fillBlockPayments node nBlockHeight blockReward script
  have hnonneg := @scheduledAmount_nonneg node nBlockHeight
  have hmns : (∀ out∈(fillBlockPayments node [⟨blockReward,script⟩] nBlockHeight
        blockReward).voutMasternodePayments, 0≤out.nValue) ∧
      ((fillBlockPayments node [⟨blockReward,script⟩] nBlockHeight
        blockReward).voutMasternodePayments.map CTxOut.nValue).sum≤blockReward := by
    rcases fillBlockPayments_masternodes [⟨blockReward,script⟩] with hpaid | ⟨-,-,hnone⟩
    · rw [hpaid]
      cases houts : getMasternodeTxOuts node.payments nBlockHeight blockReward with
      | none => simpa using hreward
      | some outs => exact getMasternodeTxOuts_bounds hreward hshare houts
    · rw [hnone]
      simpa using hreward
  have hrange : ∀ out∈(fillBlockPayments node [⟨blockReward,script⟩] nBlockHeight
      blockReward).vout, moneyRange out.nValue=true := by
    have hsingle := fun out hout => single_le_sum (l := (fillBlockPayments node
      [⟨blockReward,script⟩] nBlockHeight blockReward).voutMasternodePayments.map CTxOut.nValue)
      (by simpa using hmns.1) out hout
    have htotal := sum_nonneg (l := (fillBlockPayments node
      [⟨blockReward,script⟩] nBlockHeight blockReward).voutMasternodePayments.map CTxOut.nValue)
      (by simpa using hmns.1)
    intro out hout
    rw [fillBlockPayments_vout,mem_cons,mem_append] at hout
    rcases hout with rfl | hout | hout
    · simp only [moneyRange,Bool.and_eq_true,decide_eq_true_eq]
      omega
    · have hle := hsingle out.nValue (mem_map_of_mem hout)
      have hlow := hmns.1 out hout
      simp only [moneyRange,Bool.and_eq_true,decide_eq_true_eq]
      omega
    · exact (sum_superblock _).1 out hout
  have hvalue := sumOut_inRange (le_refl 0) hrange (by omega)
  rw [hvalue,zero_add,hsum]

theorem range_fillBlockPayments {script : Script.CScript} {nValueOut : ℤ}
    (hvalue : CTransaction.sumOut 0
      (fillBlockPayments node [⟨blockReward,script⟩] nBlockHeight blockReward).vout=
        some nValueOut) :
    0≤blockReward ∧ blockReward+scheduledAmount node nBlockHeight ≤ maxMoney := by
  have hsum := @sum_fillBlockPayments node nBlockHeight blockReward script
  have htotal := sumOut_some hvalue
  obtain ⟨hrange,hmax⟩ := range_of_sumOut hvalue
  rw [fillBlockPayments_vout] at hrange hmax
  have hbound := hmax (cons_ne_nil _ _)
  have hfirst := hrange _ mem_cons_self
  have hmns : 0≤((fillBlockPayments node [⟨blockReward,script⟩] nBlockHeight
      blockReward).voutMasternodePayments.map CTxOut.nValue).sum := by
    refine sum_nonneg ?_
    intro value hm
    obtain ⟨out,hout,rfl⟩ := mem_map.mp hm
    have hlow := hrange out (mem_cons_of_mem _ (mem_append_left _ hout))
    simp only [moneyRange,Bool.and_eq_true,decide_eq_true_eq] at hlow
    exact hlow.1
  simp only [moneyRange,Bool.and_eq_true,decide_eq_true_eq] at hfirst hbound
  omega

end Fill

theorem getPaymentsLimit_nonneg (network : Network) (nBlockHeight : ℕ) :
    0≤getPaymentsLimit (subsidyAt network) network nBlockHeight := by
  have hsubsidy : 0 ≤ subsidyAt network nBlockHeight := Int.natCast_nonneg _
  have hpart : 0≤getBlockSubsidy (subsidyAt network) network nBlockHeight true := by
    unfold getBlockSubsidy
    rw [if_pos rfl]
    split_ifs <;> omega
  unfold getPaymentsLimit
  split_ifs
  · exact le_refl 0
  · exact mul_nonneg hpart (Int.natCast_nonneg _)

section Check

variable {node : PaymentNode} {nBlockHeight : ℕ} {blockReward : ℤ} {script : Script.CScript}
  {txNew : CTransaction}

theorem height_of_superblockDue (hdue : superblockDue node nBlockHeight=true) :
    isValidBlockHeight node.payments.network nBlockHeight=true ∧
      nSuperblockStartBlock node.payments.network≤nBlockHeight := by
  unfold superblockDue isSuperblockTriggered at hdue
  simp only [Bool.and_eq_true] at hdue
  have hheight := hdue.2.1
  unfold isValidBlockHeight at hheight
  simp only [Bool.and_eq_true,decide_eq_true_eq] at hheight
  exact ⟨hdue.2.1,hheight.1⟩

/-- The superblock check accepts a new coinbase if and only if the superblock
asks for no more than the limit. -/
theorem superblockIsValid_filled
    (hvout : txNew.vout=(fillBlockPayments node [⟨blockReward,script⟩] nBlockHeight
      blockReward).vout)
    (hvalue : txNew.getValueOut=some (blockReward+scheduledAmount node nBlockHeight))
    (hdue : superblockDue node nBlockHeight=true) :
    ∃ valid, superblockIsValid node txNew nBlockHeight blockReward=some valid ∧
      (valid=true ↔ WithinLimit node nBlockHeight) := by
  have hheight := (height_of_superblockDue hdue).1
  have hsuper := @fillBlockPayments_superblock node nBlockHeight blockReward
    [⟨blockReward,script⟩]
  rw [if_pos hdue] at hsuper
  rw [fillBlockPayments_vout] at hvout
  unfold superblockIsValid WithinLimit
  cases hbest : getBestSuperblock node nBlockHeight with
  | none =>
    grind
  | some pSuperblock =>
    have hscheduled := scheduledAmount_of_best hdue hbest
    rw [hbest] at hsuper
    rw [hsuper] at hvout
    have hcount : ¬txNew.vout.length<pSuperblock.vecPayments.length := by
      rw [hvout]
      simp only [length_cons,length_append,length_map]
      omega
    have hmatch : matchPayments txNew.vout 0 pSuperblock.vecPayments=true := by
      have hsegment := matchPayments_segment (⟨blockReward-((fillBlockPayments node
        [⟨blockReward,script⟩] nBlockHeight blockReward).voutMasternodePayments.map
          CTxOut.nValue).sum,script⟩::(fillBlockPayments node [⟨blockReward,script⟩] nBlockHeight
          blockReward).voutMasternodePayments) [] pSuperblock.vecPayments [] rfl
      rw [append_nil,append_nil,cons_append,← hvout] at hsegment
      exact matchPayments_mono (Nat.zero_le _) hsegment
    unfold Superblock.isValid
    dsimp only
    rw [hheight,hvalue,hscheduled,hmatch]
    simp only [Bool.not_true,Bool.false_eq_true,if_false,if_neg hcount,lt_irrefl]
    split_ifs with hlimit
    · grind
    · exact ⟨true,rfl,iff_of_true rfl (fun _ => ⟨pSuperblock,rfl,not_lt.mp hlimit⟩)⟩

/-- The check of the value accepts a new coinbase if and only if the superblock is within the limit.
-/
theorem isBlockValueValid_filled (hsynced : node.isSynced=true) (hfull : node.fLiteMode=false)
    (hvout : txNew.vout=(fillBlockPayments node [⟨blockReward,script⟩] nBlockHeight
      blockReward).vout)
    (hvalue : txNew.getValueOut=some (blockReward+scheduledAmount node nBlockHeight)) :
    isBlockValueValid node txNew nBlockHeight blockReward=.ok () ↔
      WithinLimit node nBlockHeight := by
  have hlimit := getPaymentsLimit_nonneg node.payments.network nBlockHeight
  cases hdue : superblockDue node nBlockHeight with
  | false =>
    rw [scheduledAmount_of_not_due hdue,add_zero] at hvalue
    have hdue' := hdue
    unfold superblockDue at hdue'
    refine iff_of_true ?_ (fun h => absurd (hdue.symm.trans h) Bool.false_ne_true)
    unfold isBlockValueValid
    rw [hvalue]
    have hbelow : ¬blockReward+getPaymentsLimit (subsidyAt node.payments.network)
        node.payments.network nBlockHeight<blockReward := by omega
    simp only [checkReward,le_refl,if_true,hsynced,hfull,Bool.not_true,Bool.or_self,
      Bool.false_eq_true,if_false,if_neg hbelow]
    cases hspork : node.spork9Active with
    | false => simp
    | true =>
      rw [hspork,Bool.true_and] at hdue'
      simp [hdue']
  | true =>
    obtain ⟨hheight,hstart⟩ := height_of_superblockDue hdue
    obtain ⟨valid,hvalid,hiff⟩ := superblockIsValid_filled hvout hvalue hdue
    have hdue' := hdue
    unfold superblockDue at hdue'
    rw [Bool.and_eq_true] at hdue'
    unfold isBlockValueValid
    rw [hvalue,hvalid]
    simp only [hheight,hsynced,hfull,hdue'.1,hdue'.2,Bool.not_true,Bool.or_self,
      Bool.false_eq_true,if_false,if_neg (not_lt.mpr hstart)]
    split_ifs with hexceeded
    · refine iff_of_false (fun h => by cases h) ?_
      intro hwithin
      obtain ⟨pSuperblock,hbest,hle⟩ := hwithin hdue
      have hscheduled := scheduledAmount_of_best hdue hbest
      omega
    · cases valid with
      | false => exact iff_of_false (fun h => by cases h) (fun h => by cases hiff.mpr h)
      | true => exact iff_of_true rfl (hiff.mp rfl)

theorem masternodePayeeValid_filled
    (hvout : txNew.vout=(fillBlockPayments node [⟨blockReward,script⟩] nBlockHeight
      blockReward).vout)
    (hvalue : txNew.getValueOut=some (blockReward+scheduledAmount node nBlockHeight))
    (hpays : superblockDue node nBlockHeight=true →
      node.payments.isDeterministicMNsSporkActive nBlockHeight=true) :
    masternodePayeeValid node txNew nBlockHeight blockReward=some true := by
  have hpaid : (fillBlockPayments node [⟨blockReward,script⟩] nBlockHeight
      blockReward).voutMasternodePayments=
        (getMasternodeTxOuts node.payments nBlockHeight blockReward).getD [] := by
    rcases fillBlockPayments_masternodes [⟨blockReward,script⟩] with hpaid | ⟨hdue,hlegacy,-⟩
    · exact hpaid
    · rw [hpays hdue] at hlegacy
      cases hlegacy
  have hmember : ∀ outs, getBlockTxOuts node.payments nBlockHeight blockReward=some outs →
      ∀ out∈outs, out∈txNew.vout := by
    intro outs houts out hout
    have hall : getMasternodeTxOuts node.payments nBlockHeight blockReward=some outs := by
      unfold getMasternodeTxOuts
      rw [houts]
    rw [hvout,fillBlockPayments_vout,hpaid,hall]
    exact mem_cons_of_mem _ (mem_append_left _ hout)
  have hvalid : isTransactionValid node.payments txNew nBlockHeight blockReward=some true := by
    unfold isTransactionValid
    cases hact : node.payments.isDeterministicMNsSporkActive nBlockHeight with
    | true =>
      rw [if_pos rfl]
      cases houts : getBlockTxOuts node.payments nBlockHeight blockReward with
      | none => rfl
      | some outs => exact (findTxOuts_true_iff _ _ _).mpr (hmember outs houts)
    | false =>
      rw [if_neg Bool.false_ne_true]
      have hdue : superblockDue node nBlockHeight=false := by
        rw [← Bool.not_eq_true]
        exact fun hdue => absurd (hact.symm.trans (hpays hdue)) Bool.false_ne_true
      rw [scheduledAmount_of_not_due hdue,add_zero] at hvalue
      cases hvotes : node.payments.mapMasternodeBlocks.find nBlockHeight with
      | none => rfl
      | some vecPayees =>
        refine blockPayeesIsTransactionValid_best hvalue ?_
        intro payee hpayee
        refine hmember [⟨getMasternodePayment node.payments.network nBlockHeight blockReward,
          payee⟩] ?_ _ mem_cons_self
        unfold getBlockTxOuts
        rw [hact,hvotes]
        simp only [Bool.false_eq_true,if_false,hpayee,Option.map_some]
  unfold masternodePayeeValid
  rw [hvalid]

theorem isBlockPayeeValid_filled
    (hvout : txNew.vout=(fillBlockPayments node [⟨blockReward,script⟩] nBlockHeight
      blockReward).vout)
    (hvalue : txNew.getValueOut=some (blockReward+scheduledAmount node nBlockHeight))
    (hwithin : WithinLimit node nBlockHeight) :
    isBlockPayeeValid node txNew nBlockHeight blockReward=some true := by
  change (if _ then _ else if _ then _ else if superblockDue node nBlockHeight then _ else _)=_
  cases hdue : superblockDue node nBlockHeight with
  | false =>
    have hpayee := masternodePayeeValid_filled hvout hvalue
      (fun h => absurd (hdue.symm.trans h) Bool.false_ne_true)
    simp only [hpayee,Bool.false_eq_true,if_false,ite_self]
  | true =>
    obtain ⟨valid,hvalid,hiff⟩ := superblockIsValid_filled hvout hvalue hdue
    rw [hiff.mpr hwithin] at hvalid
    rw [hvalid]
    cases hact : node.payments.isDeterministicMNsSporkActive nBlockHeight with
    | false => simp only [Bool.not_false,if_true,ite_self]
    | true =>
      have hpayee := masternodePayeeValid_filled hvout hvalue (fun _ => hact)
      simp only [hpayee,Bool.not_true,Bool.false_eq_true,ite_self]

/-- A synced full node accepts its own coinbase if and only if the reward is not negative, it is
worth no more than all money, and a superblock that is due is within the limit. -/
theorem accepted_fillBlockPayments_iff (hsynced : node.isSynced=true) (hfull : node.fLiteMode=false)
    (hshare : ∀ payee, node.payments.payeeAt nBlockHeight=some payee → payee.nOperatorReward≤10000)
    (hvout : txNew.vout=(fillBlockPayments node [⟨blockReward,script⟩] nBlockHeight
      blockReward).vout) :
    Accepted node txNew nBlockHeight blockReward ↔
      0≤blockReward ∧ blockReward+scheduledAmount node nBlockHeight ≤ maxMoney ∧
        WithinLimit node nBlockHeight := by
  constructor
  · intro hacc
    cases hsum : txNew.getValueOut with
    | none =>
      have hrefused := hacc.1
      unfold isBlockValueValid at hrefused
      rw [hsum] at hrefused
      cases hrefused
    | some nValueOut =>
      have hrange := hsum
      unfold CTransaction.getValueOut at hrange
      rw [hvout] at hrange
      obtain ⟨hreward,hmax⟩ := range_fillBlockPayments hrange
      have hvalue : txNew.getValueOut=some (blockReward+scheduledAmount node nBlockHeight) := by
        unfold CTransaction.getValueOut
        rw [hvout]
        exact sumOut_fillBlockPayments hreward hmax hshare
      exact ⟨hreward,hmax,(isBlockValueValid_filled hsynced hfull hvout hvalue).mp hacc.1⟩
  · rintro ⟨hreward,hmax,hwithin⟩
    have hvalue : txNew.getValueOut=some (blockReward+scheduledAmount node nBlockHeight) := by
      unfold CTransaction.getValueOut
      rw [hvout]
      exact sumOut_fillBlockPayments hreward hmax hshare
    exact ⟨(isBlockValueValid_filled hsynced hfull hvout hvalue).mpr hwithin,
      isBlockPayeeValid_filled hvout hvalue hwithin⟩

end Check

def fundedTrigger : CGovernanceObject where
  nObjectType := .trigger
  hash := 5
  mapCurrentMNVotes := OrderedMap.empty.set ⟨7,0⟩
    (OrderedMap.empty.set voteSignalFunding ⟨voteOutcomeYes,100,100⟩)

variable (payment : CGovernancePayment)

/-- A node whose trigger makes one payment at the height 360. -/
def triggeredNode : PaymentNode where
  payments := { halfShareState (payoutScript 2) with
    network := .regtest
    chainHeight := 359 }
  governance := {
    mapObjects := OrderedMap.empty.set 5 fundedTrigger
    mapTrigger := OrderedMap.empty.set 5 ⟨5,360,[payment]⟩ }
  vote := { VoteOrder.sampleContext with network := .regtest }
  spork8Active := true
  spork9Active := true
  isSynced := true
  fLiteMode := false
  network_eq := rfl

/-- Coinbase that this node fills for a reward of ninety coins. -/
def triggeredCoinbase : CTransaction where
  vin := [{ prevout := COutPoint.null }]
  vout := (fillBlockPayments (triggeredNode payment) [⟨90*coin,payoutScript 9⟩] 360 (90*coin)).vout
  hash := 1
  payload_special := CTransaction.payload_plain

theorem payeeAt_triggeredNode :
    (triggeredNode payment).payments.payeeAt 360=some (halfShareMN (payoutScript 2)) := rfl

/-- A trigger that asks for the whole limit is paid and accepted. -/
theorem accepted_whole_limit :
    superblockDue (triggeredNode ⟨sampleScript 1,400*coin,by decide⟩) 360=true ∧
      Accepted (triggeredNode ⟨sampleScript 1,400*coin,by decide⟩)
        (triggeredCoinbase ⟨sampleScript 1,400*coin,by decide⟩) 360 (90*coin) := by
  refine ⟨by decide,(accepted_fillBlockPayments_iff rfl rfl ?_ rfl).mpr ⟨by decide,by decide,?_⟩⟩
  · intro payee hpayee
    rw [payeeAt_triggeredNode] at hpayee
    cases hpayee
    decide
  · intro _
    exact ⟨⟨5,360,[⟨sampleScript 1,400*coin,by decide⟩]⟩,rfl,by decide⟩

/-- A trigger that asks for one coin more is paid too, and refused. -/
theorem fillBlockPayments_over_limit :
    (triggeredNode ⟨sampleScript 1,401*coin,by decide⟩).isSynced=true ∧
      (triggeredNode ⟨sampleScript 1,401*coin,by decide⟩).fLiteMode=false ∧
      isBlockValueValid (triggeredNode ⟨sampleScript 1,401*coin,by decide⟩)
        (triggeredCoinbase ⟨sampleScript 1,401*coin,by decide⟩) 360 (90*coin)=
          .error (.paysTooMuch 360 (491*coin) (490*coin) "superblock max value") ∧
      ¬Accepted (triggeredNode ⟨sampleScript 1,401*coin,by decide⟩)
        (triggeredCoinbase ⟨sampleScript 1,401*coin,by decide⟩) 360 (90*coin) := by
  have hrefused : isBlockValueValid (triggeredNode ⟨sampleScript 1,401*coin,by decide⟩)
      (triggeredCoinbase ⟨sampleScript 1,401*coin,by decide⟩) 360 (90*coin)=
        .error (.paysTooMuch 360 (491*coin) (490*coin) "superblock max value") := by
    rfl
  refine ⟨rfl,rfl,hrefused,?_⟩
  intro hacc
  rw [Accepted,hrefused] at hacc
  cases hacc.1

end Pyrk.BlockPayments
