import Pyrk.CoinsUndo

/-!
# What a block adds to the coins

A transaction gives no more than it takes, and the coinbase no more than fees, subsidy and
superblock. Fees of a block are added up as 64-bit amounts without a check.
-/

namespace Pyrk.MoneySupply

open List CoinsUndo UndoData

open Transaction DeterministicMNList ChainParams Superblock BlockSubsidy BlockPayments OrderedMap
open ProviderTx ConnectBlock
open Coins (CoinsView spentInputs spendInputs)

variable (coins : CoinsView)

/-- Value of all unspent coins. -/
def totalValue : ℤ := (coins.entries.map (fun entry => entry.2.out.nValue)).sum

/-- No coin has a negative amount. -/
def NoNegative : Prop :=
  ∀ outpoint entry, coins.find outpoint=some entry → 0≤entry.out.nValue

/-- Exact fee of a transaction; a coinbase pays none. -/
def txFee (tx : CTransaction) : ℤ :=
  if tx.isCoinBase then 0 else valueIn coins tx-valueOut tx

/-- Exact fees of transactions, each with the coins it finds. -/
def blockFees (nHeight : ℕ) : CoinsView → List CTransaction → ℤ
  | _,[] => 0
  | coins,tx::vtx => txFee coins tx+
      match Coins.updateCoins coins tx nHeight with
      | .ok result => blockFees nHeight result.2 vtx
      | .error _ => 0

/-- A sum and all others that it goes through while amounts are added. -/
def partialSums : ℤ → List ℤ → List ℤ
  | sum,[] => [sum]
  | sum,amount::amounts => sum::partialSums (sum+amount) amounts

/-- Exact values of all sums that are built for a transaction: inputs, outputs
and their difference. -/
def txSums (tx : CTransaction) : List ℤ :=
  partialSums 0 ((spentInputs tx).map (inputValue coins))++
    partialSums 0 (tx.vout.map CTxOut.nValue)++[txFee coins tx]

/-- Exact values of all sums that are built for transactions, with the fees so
far. -/
def loopSums (nHeight : ℕ) : ℤ → CoinsView → List CTransaction → List ℤ
  | nFees,_,[] => [nFees]
  | nFees,coins,tx::vtx => txSums coins tx++nFees::
      match Coins.updateCoins coins tx nHeight with
      | .ok result => loopSums nHeight (nFees+txFee coins tx) result.2 vtx
      | .error _ => []

/-- Exact values of all sums that are built for a block, the reward last. -/
def blockSums (node : Node) (nHeight : ℕ) (coins : CoinsView) (block : CBlock) : List ℤ :=
  loopSums nHeight 0 coins block.vtx++[blockFees nHeight coins block.vtx+blockSubsidy node nHeight]

/-- No sum is out of the range of 64-bit amounts. -/
def NoOverflow (sums : List ℤ) : Prop := ∀ sum∈sums, -2^63 ≤ sum ∧ sum<2^63

/-- What a block at a height may add. -/
def supplyAllowance (node : Node) (nHeight : ℕ) : ℤ :=
  if isValidBlockHeight node.ctx.network nHeight then
    blockSubsidy node nHeight+paymentsLimit node nHeight
  else blockSubsidy node nHeight

theorem totalValue_erase {coins : CoinsView} {outpoint : COutPoint} {entry : Coin}
    (hfind : coins.find outpoint=some entry) :
    totalValue coins=entry.out.nValue+totalValue (coins.erase outpoint) := by
  unfold totalValue
  rw [((entries_erase_perm hfind).map _).sum_eq,map_cons,sum_cons]

theorem totalValue_set_le {coins : CoinsView} (hcoins : NoNegative coins) (outpoint : COutPoint)
    (entry : Coin) : totalValue (coins.set outpoint entry)≤totalValue coins+entry.out.nValue := by
  have hnew : ∀ coins : CoinsView, coins.find outpoint=none →
      totalValue (coins.set outpoint entry)=entry.out.nValue+totalValue coins := by
    intro coins hfind
    unfold totalValue
    rw [((entries_set_perm entry hfind).map _).sum_eq,map_cons,sum_cons]
  cases hfind : coins.find outpoint with
  | none =>
    rw [hnew coins hfind]
    omega
  | some old =>
    have hold := hcoins outpoint old hfind
    rw [← set_of_erase,hnew _ (find_erase_self coins outpoint),totalValue_erase hfind]
    omega

theorem totalValue_addOutputs {hash : Uint256} {fCoinbase : Bool} {nHeight n : ℕ}
    {coins : CoinsView} {outs : List CTxOut} (hcoins : NoNegative coins)
    (houts : ∀ out∈outs, 0≤out.nValue) :
    totalValue (Coins.addOutputs hash fCoinbase nHeight coins n outs)≤
        totalValue coins+(outs.map CTxOut.nValue).sum ∧
      NoNegative (Coins.addOutputs hash fCoinbase nHeight coins n outs) := by
  induction outs generalizing coins n with
  | nil =>
    rw [Coins.addOutputs,map_nil,sum_nil,Int.add_zero]
    exact ⟨le_refl _,hcoins⟩
  | cons out tail ih =>
    obtain ⟨hout,htail⟩ := forall_mem_cons.mp houts
    have hadd : totalValue (Coins.addCoin coins ⟨hash,n⟩ ⟨out,fCoinbase,nHeight⟩)≤
          totalValue coins+out.nValue ∧
        NoNegative (Coins.addCoin coins ⟨hash,n⟩ ⟨out,fCoinbase,nHeight⟩) := by
      unfold Coins.addCoin
      split_ifs
      · exact ⟨by omega,hcoins⟩
      · refine ⟨totalValue_set_le hcoins _ _,fun outpoint entry hfind => ?_⟩
        rw [find_set] at hfind
        split_ifs at hfind
        · cases hfind
          exact hout
        · exact hcoins outpoint entry hfind
    have hrest := @ih (n+1) _ hadd.2 htail
    rw [Coins.addOutputs,map_cons,sum_cons]
    exact ⟨by omega,hrest.2⟩

theorem totalValue_spendInputs {coins next : CoinsView} {inputs : List CTxIn} {undo : List Coin}
    (hcoins : NoNegative coins) (h : spendInputs coins inputs=.ok (undo,next)) :
    totalValue next=totalValue coins-(inputs.map (inputValue coins)).sum ∧ NoNegative next := by
  have hvalues : inputs.map (inputValue coins)=undo.map (fun entry => entry.out.nValue) := by
    have hundo := congrArg (map (fun found : Option Coin =>
      (found.getD ⟨CTxOut.null,false,0⟩).out.nValue)) (Coins.spendInputs_undo h)
    rw [map_map,map_map] at hundo
    exact hundo.symm
  constructor
  · rw [hvalues]
    clear hvalues
    induction inputs generalizing coins undo with
    | nil =>
      cases h
      rw [map_nil,sum_nil,Int.sub_zero]
    | cons input tail ih =>
      unfold spendInputs at h
      cases hspend : Coins.spendCoin coins input.prevout with
      | none => rw [hspend] at h; cases h
      | some spent =>
        rw [hspend] at h
        obtain ⟨rest,hrest,h⟩ := bind_eq_ok.mp h
        cases h
        obtain ⟨entry,hfind,rfl⟩ := Option.map_eq_some_iff.mp hspend
        have hlater : NoNegative (coins.erase input.prevout) := by
          intro outpoint found hfound
          rw [find_erase] at hfound
          split_ifs at hfound
          exact hcoins outpoint found hfound
        rw [ih hlater hrest,totalValue_erase hfind,map_cons,sum_cons]
        dsimp only
        omega
  · intro outpoint entry hfind
    rw [Coins.spendInputs_find h] at hfind
    split_ifs at hfind
    exact hcoins outpoint entry hfind

section Transactions

variable {node : Node} {nHeight i : ℕ} {block : CBlock}

variable {tx : CTransaction}

theorem totalValue_applied {view next : ViewCache} {undo : List Coin}
    (hcoins : NoNegative view.coins) (hchk : TxChecked node tx)
    (h : Applied nHeight tx view undo next) :
    totalValue next.coins≤totalValue view.coins+valueOut tx-valueIn view.coins tx ∧
      NoNegative next.coins := by
  have hupdate := h.coins
  obtain ⟨spent,hspent,hupdate⟩ := bind_eq_ok.mp hupdate
  obtain ⟨-,hnext⟩ := Prod.mk.inj (Except.ok.inj hupdate)
  obtain ⟨htotal,hrest⟩ := totalValue_spendInputs hcoins hspent
  have houts : ∀ out∈tx.vout, 0≤out.nValue := fun out hm =>
    ((moneyRange_iff _).mp (hchk.range out hm)).1
  have hadded := @totalValue_addOutputs tx.hash tx.isCoinBase nHeight 0 _ _ hrest houts
  rw [← hnext,Coins.addCoins]
  refine ⟨?_,hadded.2⟩
  unfold valueIn valueOut
  omega

theorem partialSums_bounds {amounts : List ℤ} (hamounts : ∀ amount∈amounts, 0≤amount) (start : ℤ) :
    ∀ sum∈partialSums start amounts, start ≤ sum ∧ sum ≤ start+amounts.sum := by
  induction amounts generalizing start with
  | nil =>
    intro sum hm
    rw [partialSums,mem_singleton] at hm
    rw [hm,sum_nil]
    omega
  | cons amount amounts ih =>
    obtain ⟨hamount,hrest⟩ := forall_mem_cons.mp hamounts
    have htotal : 0≤amounts.sum := sum_nonneg hrest
    intro sum hm
    rw [sum_cons]
    rcases mem_cons.mp hm with rfl | hm
    · omega
    · have hbounds := ih hrest (start+amount) sum hm
      omega

theorem valueOut_range (hchk : TxChecked node tx) :
    (∀ amount∈tx.vout.map CTxOut.nValue, 0≤amount) ∧ 0≤valueOut tx ∧ valueOut tx≤10^16 := by
  have houts : ∀ amount∈tx.vout.map CTxOut.nValue, 0≤amount := by
    intro amount hm
    obtain ⟨out,hout,rfl⟩ := mem_map.mp hm
    exact ((moneyRange_iff _).mp (hchk.range out hout)).1
  refine ⟨houts,sum_nonneg houts,?_⟩
  cases hvout : tx.vout with
  | nil =>
    rw [valueOut,hvout]
    decide
  | cons out tail =>
    have hsum := hchk.sum
    have hrange := (range_of_sumOut hsum).2 (by rw [hvout]; exact cons_ne_nil _ _)
    exact ((moneyRange_iff _).mp hrange).2

theorem txConnected_values {st next : LoopState} {undo : List Coin}
    (hcoins : NoNegative st.view.coins) (hchk : TxChecked node tx)
    (h : TxConnected nHeight i st tx undo next) :
    totalValue next.view.coins≤totalValue st.view.coins-txFee st.view.coins tx+
        (if tx.isCoinBase then valueOut tx else 0) ∧
      NoNegative next.view.coins ∧ 0≤txFee st.view.coins tx ∧
      next.nFees=(if tx.isCoinBase then st.nFees else
        toInt64 (st.nFees+txFee st.view.coins tx)) ∧
      NoOverflow (txSums st.view.coins tx) := by
  obtain ⟨htotal,hnext⟩ := totalValue_applied hcoins hchk h.applied
  obtain ⟨houts,hlow,hhigh⟩ := valueOut_range hchk
  have houtSums := partialSums_bounds houts 0
  have hvalueOut : (tx.vout.map CTxOut.nValue).sum=valueOut tx := rfl
  cases hbase : tx.isCoinBase with
  | true =>
    have hinputs : spentInputs tx=[] := by rw [spentInputs,hbase,if_pos rfl]
    have hvalueIn : valueIn st.view.coins tx=0 := by rw [valueIn,hinputs]; rfl
    have hfee : txFee st.view.coins tx=0 := by rw [txFee,hbase,if_pos rfl]
    have hfees := h.fees
    rw [addFees,hbase,if_pos rfl] at hfees
    rw [if_pos rfl,if_pos rfl,hfee]
    refine ⟨by omega,hnext,le_refl _,(Except.ok.inj hfees).symm,?_⟩
    intro sum hm
    rw [txSums,hinputs,hfee,mem_append,mem_append,mem_singleton] at hm
    rcases hm with (hm | hm) | hm
    · rw [map_nil,partialSums,mem_singleton] at hm
      omega
    · have hbounds := houtSums sum hm
      omega
    · omega
  | false =>
    have hinputs : spentInputs tx=tx.vin := by
      rw [spentInputs,hbase,if_neg Bool.false_ne_true]
    have hfee : txFee st.view.coins tx=valueIn st.view.coins tx-valueOut tx := by
      rw [txFee,hbase,if_neg Bool.false_ne_true]
    have hfees := addFees_ok hbase hchk h.fees
    have hpays := hfees.fee
    have hinRange := (moneyRange_iff _).mp hfees.total
    have hins : ∀ amount∈(spentInputs tx).map (inputValue st.view.coins), 0≤amount := by
      intro amount hm
      obtain ⟨input,hinput,rfl⟩ := mem_map.mp hm
      rw [hinputs] at hinput
      obtain ⟨entry,hfind,hrange⟩ := hfees.range input hinput
      rw [inputValue,BlockIndexes.accessCoin,hfind,Option.getD_some]
      exact ((moneyRange_iff _).mp hrange).1
    have hinSums := partialSums_bounds hins 0
    have hvalueIn : ((spentInputs tx).map (inputValue st.view.coins)).sum=
        valueIn st.view.coins tx := rfl
    rw [if_neg Bool.false_ne_true,if_neg Bool.false_ne_true,hfee]
    refine ⟨by omega,hnext,hpays,hfees.next,?_⟩
    intro sum hm
    rw [txSums,hfee,mem_append,mem_append,mem_singleton] at hm
    rcases hm with (hm | hm) | hm
    · have hbounds := hinSums sum hm
      omega
    · have hbounds := houtSums sum hm
      omega
    · omega

theorem toInt64_add (sum amount : ℤ) : toInt64 (toInt64 sum+amount)=toInt64 (sum+amount) :=
  Int.bmod_add_bmod ..

theorem connectTxs_values {vtx : List CTransaction} {st final : LoopState} {nFees : ℤ}
    (hcoins : NoNegative st.view.coins) (hothers : ∀ tx∈vtx, tx.isCoinBase=false)
    (hchk : ∀ tx∈vtx, TxChecked node tx) (hfees : st.nFees=toInt64 nFees)
    (h : connectTxs node block nHeight i st vtx=.ok final) :
    totalValue final.view.coins≤totalValue st.view.coins-blockFees nHeight st.view.coins vtx ∧
      0≤blockFees nHeight st.view.coins vtx ∧
      final.nFees=toInt64 (nFees+blockFees nHeight st.view.coins vtx) ∧
      (0≤nFees → nFees+blockFees nHeight st.view.coins vtx<2^63 →
        NoOverflow (loopSums nHeight nFees st.view.coins vtx)) := by
  induction vtx generalizing i st nFees with
  | nil =>
    cases h
    rw [blockFees,Int.sub_zero,Int.add_zero]
    refine ⟨le_refl _,le_refl _,hfees,fun hlow hhigh sum hm => ?_⟩
    rw [loopSums,mem_singleton] at hm
    omega
  | cons tx vtx ih =>
    obtain ⟨hbase,hlater⟩ := forall_mem_cons.mp hothers
    obtain ⟨htx,htxs⟩ := forall_mem_cons.mp hchk
    obtain ⟨undo,next,hconn,hrest⟩ := connectTxs_cons h
    obtain ⟨htotal,hnext,hfee,hnextFees,hsums⟩ := txConnected_values hcoins htx hconn
    rw [hbase,if_neg Bool.false_ne_true] at htotal hnextFees
    have hupdate := hconn.applied.coins
    have hexact : next.nFees=toInt64 (nFees+txFee st.view.coins tx) := by
      rw [hnextFees,hfees,toInt64_add]
    obtain ⟨hsupply,hmore,hfinal,hloop⟩ := ih hnext hlater htxs hexact hrest
    rw [blockFees,hupdate]
    dsimp only
    refine ⟨by omega,by omega,?_,fun hlow hhigh => ?_⟩
    · rw [hfinal,Int.add_assoc]
    · intro sum hm
      rw [loopSums,hupdate] at hm
      rcases mem_append.mp hm with hm | hm
      · exact hsums sum hm
      · rcases mem_cons.mp hm with rfl | hm
        · omega
        · exact hloop (by omega) (by omega) sum hm

end Transactions

section Blocks

variable {node : Node} {nHeight : ℕ}

theorem blockSubsidy_nonneg (node : Node) (nHeight : ℕ) : 0≤blockSubsidy node nHeight := by
  unfold blockSubsidy getBlockSubsidy
  rw [if_neg Bool.false_ne_true]
  have hsubsidy : 0 ≤ subsidyAt node.ctx.network nHeight := by
    exact Int.natCast_nonneg _
  split_ifs <;> omega

theorem isBlockValueValid_le {payments : PaymentNode} {txNew : CTransaction} {blockReward : ℤ}
    (h : isBlockValueValid payments txNew nHeight blockReward=.ok ()) :
    ∃ nValueOut, txNew.getValueOut=some nValueOut ∧ (nValueOut≤blockReward ∨
      isValidBlockHeight payments.payments.network nHeight=true ∧
      nValueOut≤blockReward+getPaymentsLimit (subsidyAt payments.payments.network)
        payments.payments.network nHeight) := by
  unfold isBlockValueValid at h
  cases hvalue : txNew.getValueOut with
  | none => rw [hvalue] at h; cases h
  | some nValueOut =>
    rw [hvalue] at h
    dsimp only at h
    refine ⟨nValueOut,rfl,?_⟩
    by_cases hearly : nHeight<nSuperblockStartBlock payments.payments.network
    · rw [if_pos hearly,checkReward] at h
      split_ifs at h with hle
      exact Or.inl hle
    · rw [if_neg hearly] at h
      cases hvalid : isValidBlockHeight payments.payments.network nHeight with
      | false =>
        rw [hvalid,Bool.not_false,if_pos rfl,checkReward] at h
        split_ifs at h with hle
        exact Or.inl hle
      | true =>
        grind

/-- A checked coinbase pays no more than the exact reward and what a superblock may pay, as long as
the reward fits. -/
theorem checkPayments_le {txNew : CTransaction} {fees : ℤ} (hchk : TxChecked node txNew)
    (hlow : 0≤fees) (hfits : fees+blockSubsidy node nHeight<2^63)
    (h : checkPayments node txNew nHeight (toInt64 fees)=.ok ()) :
    valueOut txNew≤fees+supplyAllowance node nHeight := by
  have hsubsidy := blockSubsidy_nonneg node nHeight
  have hreward : toInt64 (toInt64 fees+blockSubsidy node nHeight)=fees+blockSubsidy
    node nHeight := by
    rw [toInt64_add]
    exact toInt64_of_fits (by omega) hfits
  unfold checkPayments at h
  dsimp only at h
  rw [hreward] at h
  cases hvalue : checkBlockValue node txNew nHeight (fees+blockSubsidy node nHeight) with
  | error reason => rw [hvalue] at h; cases h
  | ok result =>
    unfold checkBlockValue at hvalue
    rw [hchk.sum] at hvalue
    dsimp only at hvalue
    split_ifs at hvalue with hlimit
    obtain ⟨nValueOut,hout,hbound⟩ := isBlockValueValid_le hvalue
    rw [hchk.sum] at hout
    have hsum : valueOut txNew=nValueOut := Option.some.inj hout
    rw [node.network_eq] at hbound
    rw [hsum]
    have hnonneg : 0≤paymentsLimit node nHeight := by
      unfold paymentsLimit getPaymentsLimit getBlockSubsidy
      rw [if_pos rfl]
      have hnat : 0 ≤ subsidyAt node.ctx.network nHeight := Int.natCast_nonneg _
      split_ifs
      · exact le_refl _
      · exact Int.mul_nonneg (by omega) (Int.natCast_nonneg _)
      · rw [Int.zero_mul]
    unfold supplyAllowance
    rcases hbound with hle | ⟨hvalid,hle⟩
    · split_ifs <;> omega
    · rw [hvalid,if_pos rfl]
      unfold paymentsLimit
      omega

end Blocks

/-- For an accepted block no sum overflows and the coins grow by at most the subsidy and the
superblock, exactly when fees and subsidy together fit into 64 bits. -/
theorem supply_bounded_iff {node : Node} {st : ChainState} {block : CBlock}
    {phashBlock : Option Uint256} {connected : ConnectedBlock}
    (hcoins : NoNegative st.view.coins)
    (hconnect : connectBlock node st block phashBlock=.ok connected) :
    (NoOverflow (blockSums node st.quorum.chain.length st.view.coins block) ∧
        totalValue connected.st.view.coins≤
          totalValue st.view.coins+supplyAllowance node st.quorum.chain.length) ↔
      blockFees st.quorum.chain.length st.view.coins block.vtx+
        blockSubsidy node st.quorum.chain.length<2^63 := by
  obtain ⟨coinbase,vtx,txs,hblock⟩ := connectBlock_ok hconnect
  have hchk := hblock.checked
  have hvtx := hchk.vtx_eq
  have htxs : ∀ tx∈coinbase::vtx, TxChecked node tx := by
    rw [← hvtx]
    exact hchk.txs
  obtain ⟨hfirstChecked,hothersChecked⟩ := forall_mem_cons.mp htxs
  obtain ⟨undo,next,hfirst,hrest⟩ := connectTxs_cons hblock.loop
  obtain ⟨htotal,hnext,-,hnextFees,hfirstSums⟩ := txConnected_values hcoins hfirstChecked hfirst
  rw [hchk.coinbase,if_pos rfl] at htotal hnextFees
  have hzero : txFee st.view.coins coinbase=0 := by
    rw [txFee,hchk.coinbase,if_pos rfl]
  dsimp only at htotal
  rw [hzero] at htotal
  obtain ⟨hsupply,hlow,hfees,hloop⟩ := connectTxs_values hnext hchk.others hothersChecked
    (hnextFees.trans (show (0 : ℤ)=toInt64 0 from rfl)) hrest
  have hblockFees : blockFees st.quorum.chain.length st.view.coins block.vtx=
      blockFees st.quorum.chain.length next.view.coins vtx := by
    rw [hvtx,blockFees,hfirst.applied.coins,hzero,Int.zero_add]
  have hsubsidy := blockSubsidy_nonneg node st.quorum.chain.length
  rw [hblockFees]
  constructor
  · rintro ⟨hsums,-⟩
    have hlast := hsums _ (mem_append_right _ mem_cons_self)
    rw [hblockFees] at hlast
    exact hlast.2
  · intro hfits
    rw [Int.zero_add] at hfees hloop
    refine ⟨fun sum hm => ?_,?_⟩
    · rw [blockSums,hblockFees,hvtx,loopSums,hfirst.applied.coins,hzero] at hm
      rw [Int.add_zero] at hm
      rcases mem_append.mp hm with hm | hm
      · rcases mem_append.mp hm with hm | hm
        · exact hfirstSums sum hm
        · rcases mem_cons.mp hm with rfl | hm
          · decide
          · exact hloop (le_refl _) (by omega) sum hm
      · rw [mem_singleton] at hm
        omega
    · have hpay := hblock.payments
      rw [hfees] at hpay
      have hreward := checkPayments_le hfirstChecked hlow hfits hpay
      rw [hblock.coins]
      omega

/-- An ordinary block keeps the bound. -/
theorem supply_bounded_ordinary :
    ∃ connected, connectBlock earlyNode oneCoinState (spendingBlock .normal)
        (some 3)=.ok connected ∧
      NoOverflow (blockSums earlyNode 2 oneCoinState.view.coins (spendingBlock .normal)) ∧
      totalValue connected.st.view.coins≤
        totalValue oneCoinState.view.coins+supplyAllowance earlyNode 2 := by
  obtain ⟨connected,hconn⟩ := exists_ok (show (connectBlock earlyNode oneCoinState
    (spendingBlock .normal) (some 3)).toOption.isSome=true by decide)
  have hcoins : NoNegative oneCoinState.view.coins := fun outpoint entry hfind =>
    (wellFormed_oneCoinState.coins outpoint entry hfind).value
  have hfits : blockFees 2 oneCoinState.view.coins (spendingBlock .normal).vtx+
      blockSubsidy earlyNode 2<2^63 := by decide
  exact ⟨connected,hconn,(@supply_bounded_iff earlyNode oneCoinState
    (spendingBlock .normal) (some 3) connected hcoins hconn).mpr hfits⟩

section Overflow

def largeCoin : Coin := ⟨⟨maxMoney,[0x51]⟩,false,1⟩

def largeCoins : ℕ → CoinsView
  | 0 => OrderedMap.empty
  | count+1 => (largeCoins count).set ⟨count,0⟩ largeCoin

/-- A transaction that leaves all of a coin to the miner. -/
def feeTx (index : ℕ) : CTransaction where
  vin := [{ prevout := ⟨index,0⟩ }]
  vout := [⟨0,[0x6a]⟩]
  hash := index+1000000
  payload_special := CTransaction.payload_plain

variable (count : ℕ)

/-- A chain of two blocks with large coins. -/
def largeState : ChainState where
  quorum := { chain := [{ hash := 1 },{ hash := 2 }] }
  view := { coins := largeCoins count, hashBlock := 2 }

/-- A block that leaves all large coins to the miner. -/
def feeBlock : CBlock where
  hash := 3
  vtx := earlyCoinbase 5000000 [2,0]::(List.range' 0 count).map feeTx

theorem find_largeCoins (count index : ℕ) :
    (largeCoins count).find ⟨index,0⟩=if index < count then some largeCoin else none := by
  induction count with
  | zero => rfl
  | succ count ih =>
    rw [largeCoins,find_set,ih]
    grind

theorem noNegative_largeCoins : NoNegative (largeCoins count) := by
  induction count with
  | zero =>
    intro outpoint entry hfind
    cases hfind
  | succ count ih =>
    intro outpoint entry hfind
    rw [largeCoins,find_set] at hfind
    split_ifs at hfind
    · cases hfind
      decide
    · exact ih outpoint entry hfind

theorem isCoinBase_feeTx (index : ℕ) : (feeTx index).isCoinBase=false := by
  change (decide (index=0) && decide (0=2^32-1))=false
  exact Bool.and_false _

theorem addFees_feeTx {coins : CoinsView} {index : ℕ} (nFees : ℤ)
    (hfind : coins.find ⟨index,0⟩=some largeCoin) :
    addFees coins 2 nFees (feeTx index)=.ok (toInt64 (nFees+10^16)) := by
  have hhave : Coins.haveInputs coins (feeTx index)=true := by
    rw [Coins.haveInputs,isCoinBase_feeTx]
    change (true && (coins.find ⟨index,0⟩).isSome && true)=true
    rw [hfind]
    rfl
  have hsum : sumInputs coins 2 0 (feeTx index).vin=.ok (10^16) := by
    change sumInputs coins 2 0 [{ prevout := ⟨index,0⟩ }]=_
    rw [sumInputs,hfind]
    rfl
  have hcheck : checkTxInputs coins (feeTx index) 2=.ok () := by
    rw [checkTxInputs,hhave,hsum]
    rfl
  have hvalue : getValueIn coins (feeTx index)=10^16 := by
    rw [getValueIn,isCoinBase_feeTx,if_neg Bool.false_ne_true]
    change toInt64 (0+((coins.find ⟨index,0⟩).getD _).out.nValue)=_
    rw [hfind]
    rfl
  unfold addFees
  rw [isCoinBase_feeTx,if_neg Bool.false_ne_true,hhave,hcheck,hvalue]
  rfl

theorem connectTx_feeTx {block : CBlock} {i index : ℕ} {st : LoopState}
    (hfind : st.view.coins.find ⟨index,0⟩=some largeCoin) :
    ∃ next, connectTx earlyNode block 2 i st (feeTx index)=.ok next ∧
      next.view.coins=st.view.coins.erase ⟨index,0⟩ ∧
      next.nFees=toInt64 (st.nFees+10^16) := by
  have hspent : spendInputs st.view.coins (spentInputs (feeTx index))=
      .ok ([largeCoin],st.view.coins.erase ⟨index,0⟩) := by
    rw [spentInputs,isCoinBase_feeTx,if_neg Bool.false_ne_true]
    change spendInputs st.view.coins [{ prevout := ⟨index,0⟩ }]=_
    rw [spendInputs,Coins.spendCoin,hfind]
    rfl
  unfold connectTx
  rw [addFees_feeTx st.nFees hfind,updateCoins,hspent]
  exact ⟨_,rfl,rfl,rfl⟩

theorem connectTxs_feeTx {block : CBlock} (count start : ℕ) {i : ℕ} {st : LoopState} {fees : ℤ}
    (hfees : st.nFees=toInt64 fees)
    (hfind : ∀ index, start ≤ index → index < start+count →
      st.view.coins.find ⟨index,0⟩=some largeCoin) :
    ∃ final, connectTxs earlyNode block 2 i st ((List.range' start count).map feeTx)=.ok final ∧
      final.nFees=toInt64 (fees+count*10^16) ∧
      blockFees 2 st.view.coins ((List.range' start count).map feeTx)=count*10^16 := by
  induction count generalizing start i st fees with
  | zero =>
    refine ⟨st,rfl,?_,rfl⟩
    rw [Nat.cast_zero,Int.zero_mul,Int.add_zero]
    exact hfees
  | succ count ih =>
    have hhere := hfind start (le_refl _) (by omega)
    obtain ⟨next,hnext,hcoins,hnextFees⟩ := @connectTx_feeTx block i start st hhere
    have hadded : next.nFees=toInt64 (fees+10^16) := by
      rw [hnextFees,hfees,toInt64_add]
    obtain ⟨final,hfinal,hfinalFees,hblockFees⟩ := @ih (start+1) (i+1) next (fees+10^16) hadded (by
      intro index hle hlt
      rw [hcoins,find_erase_of_ne]
      · exact hfind index (by omega) (by omega)
      · intro he
        have hhash : index=start := congrArg COutPoint.hash he
        omega)
    rw [range'_succ,map_cons]
    refine ⟨final,?_,?_,?_⟩
    · rw [connectTxs,hnext]
      exact hfinal
    · rw [hfinalFees]
      congr 1
      push_cast
      ring
    · obtain ⟨undo,hconn⟩ := connectTx_ok hnext
      have hfee : txFee st.view.coins (feeTx start)=10^16 := by
        rw [txFee,isCoinBase_feeTx,if_neg Bool.false_ne_true,valueIn,spentInputs,isCoinBase_feeTx,
          if_neg Bool.false_ne_true]
        change (((st.view.coins.find ⟨start,0⟩).getD _).out.nValue+0)-(0+0)=_
        rw [hhere]
        rfl
      rw [blockFees,hconn.applied.coins]
      dsimp only
      rw [hfee,hblockFees]
      push_cast
      ring

theorem checkTransaction_feeTx (index : ℕ) : checkTransaction earlyNode (feeTx index)=.ok () := by
  have hprevouts : checkPrevouts (feeTx index)=.ok () := by
    rw [checkPrevouts,isCoinBase_feeTx,if_neg Bool.false_ne_true]
    change rejectIf ((decide (index=0) && decide (0=2^32-1)) || false) 10 .invalid _=.ok ()
    rw [show (decide (index=0) && decide (0=2^32-1))=false from Bool.and_false _]
    rfl
  have hnodup : ((feeTx index).vin.map CTxIn.prevout).Nodup := nodup_singleton _
  unfold checkTransaction
  rw [hprevouts,decide_eq_true hnodup]
  rfl

theorem forM_ok {α : Type} {check : α → Checked Unit} {inputs : List α}
    (h : ∀ input∈inputs, check input=.ok ()) : inputs.forM check=.ok () := by
  induction inputs with
  | nil => rfl
  | cons head tail ih =>
    obtain ⟨hhead,htail⟩ := forall_mem_cons.mp h
    change (check head>>=fun _ => tail.forM check)=.ok ()
    rw [hhead]
    exact ih htail

theorem size_feeBlock {count : ℕ} (hcount : count≤20000) :
    ((feeBlock count).vtx.isEmpty || decide (UndoData.maxBlockSize<(feeBlock count).vtx.length) ||
      decide (UndoData.maxBlockSize<blockSize earlyNode.payloadSize (feeBlock count)))=false := by
  have hlen : (feeBlock count).vtx.length=count+1 := by
    change ((range' 0 count).map feeTx).length+1=count+1
    rw [length_map,length_range']
  have hsizes : (((range' 0 count).map feeTx).map (txSize earlyNode.payloadSize)).sum=
      61*count := by
    have hsame : ((range' 0 count).map feeTx).map (txSize earlyNode.payloadSize)=
        (range' 0 count).map (fun _ => 61) := by
      rw [map_map]
      exact map_congr_left (fun index _ => rfl)
    rw [hsame,map_const',sum_replicate_nat,length_range',Nat.mul_comm]
  have hprefix : getSizeOfCompactSize (count+1)≤9 := by
    unfold getSizeOfCompactSize writeCompactSize
    split_ifs
    · rw [length_leBytes]
      omega
    · rw [length_cons,length_leBytes]
      omega
    · rw [length_cons,length_leBytes]
      omega
    · rw [length_cons,length_leBytes]
  have hsize : blockSize earlyNode.payloadSize (feeBlock count)≤UndoData.maxBlockSize := by
    have hbase : txSize earlyNode.payloadSize (earlyCoinbase 5000000 [2,0])≤100 := by decide
    have hmax : UndoData.maxBlockSize=2000000 := rfl
    rw [blockSize,hlen]
    change 80+getSizeOfCompactSize (count+1)+(txSize earlyNode.payloadSize
      (earlyCoinbase 5000000 [2,0])+(((range' 0 count).map feeTx).map
        (txSize earlyNode.payloadSize)).sum)≤UndoData.maxBlockSize
    rw [hsizes]
    omega
  have hmax : UndoData.maxBlockSize=2000000 := rfl
  rw [decide_eq_false (by omega),decide_eq_false (by omega)]
  rfl

theorem checkBlock_feeBlock {count : ℕ} (hcount : count≤20000) :
    checkBlock earlyNode (feeBlock count)=.ok () := by
  have hothers : (feeBlock count).vtx.tail.any CTransaction.isCoinBase=false := by
    rw [any_eq_false]
    intro tx hm
    obtain ⟨index,-,rfl⟩ := mem_map.mp hm
    rw [isCoinBase_feeTx]
    exact Bool.false_ne_true
  have htxs : (feeBlock count).vtx.forM (checkTransaction earlyNode)=.ok () := by
    refine forM_ok (forall_mem_cons.mpr ⟨by decide,fun tx hm => ?_⟩)
    obtain ⟨index,-,rfl⟩ := mem_map.mp hm
    exact checkTransaction_feeTx index
  unfold checkBlock
  rw [size_feeBlock hcount,hothers,htxs]
  rfl

theorem contextualCheckBlock_feeBlock {count : ℕ} (hcount : count≤20000) :
    contextualCheckBlock earlyNode (largeState count).quorum.chain (feeBlock count)=.ok () := by
  have htxs : (feeBlock count).vtx.forM (contextualCheckTransaction earlyNode
      (largeState count).quorum.chain)=.ok () := by
    refine forM_ok (forall_mem_cons.mpr ⟨rfl,fun tx hm => ?_⟩)
    obtain ⟨index,-,rfl⟩ := mem_map.mp hm
    rfl
  have hlimit : (if dip0001Height earlyNode.ctx.network≤(largeState count).quorum.chain.length
      then UndoData.maxBlockSize else maxLegacyBlockSize)=UndoData.maxBlockSize :=
        if_pos (le_refl 2)
  unfold contextualCheckBlock
  dsimp only
  rw [hlimit,size_feeBlock hcount,htxs]
  rfl

theorem processSpecialTxs_feeBlock :
    ∃ result, processSpecialTxsInBlock earlyNode (largeState count) (feeBlock count)=
      .ok result := by
  have htxs : ∀ view, (feeBlock count).vtx.forM (checkSpecialTx earlyNode.ctx view)=.ok () := by
    intro view
    refine forM_ok (forall_mem_cons.mpr ⟨rfl,fun tx hm => ?_⟩)
    obtain ⟨index,-,rfl⟩ := mem_map.mp hm
    rfl
  unfold processSpecialTxsInBlock
  rw [show loadNeededLists earlyNode (largeState count) (feeBlock count)=
    .ok (largeState count).mgr from rfl]
  simp only [htxs,bind,Except.bind]
  exact ⟨_,rfl⟩

/-- Coins after the coinbase. -/
def rewardedView : ViewCache where
  coins := (largeCoins count).set ⟨5000000,0⟩ ⟨⟨100*coin,[0x51]⟩,true,2⟩
  cacheCoins := [⟨5000000,0⟩]
  hashBlock := 2

theorem connectTxs_feeBlock (hcount : count≤20000) :
    ∃ txs, connectTxs earlyNode (feeBlock count) 2 0 { view := (largeState count).view }
        (feeBlock count).vtx=.ok txs ∧ txs.nFees=toInt64 (count*10^16) ∧
      blockFees 2 (largeCoins count) (feeBlock count).vtx=count*10^16 := by
  have hfirst : connectTx earlyNode (feeBlock count) 2 0 { view := (largeState count).view }
      (earlyCoinbase 5000000 [2,0])=.ok { view := rewardedView count } := rfl
  have hfind : ∀ index, 0 ≤ index → index<0+count →
      (rewardedView count).coins.find ⟨index,0⟩=some largeCoin := by
    intro index _ hlt
    rw [rewardedView,find_set_of_ne,find_largeCoins,if_pos (by omega)]
    intro he
    have hhash : index=5000000 := congrArg COutPoint.hash he
    omega
  obtain ⟨txs,htxs,hfees,hblockFees⟩ := @connectTxs_feeTx (feeBlock count) count 0 1
    { view := rewardedView count } 0 rfl hfind
  refine ⟨txs,?_,?_,?_⟩
  · change connectTxs earlyNode (feeBlock count) 2 0 { view := (largeState count).view }
      (earlyCoinbase 5000000 [2,0]::(range' 0 count).map feeTx)=.ok txs
    rw [connectTxs,hfirst]
    exact htxs
  · rw [hfees,Int.zero_add]
  · obtain ⟨undo,hconn⟩ := connectTx_ok hfirst
    have happlied : Coins.updateCoins (largeCoins count) (earlyCoinbase 5000000 [2,0]) 2=
        .ok (undo,(rewardedView count).coins) := hconn.applied.coins
    change blockFees 2 (largeCoins count)
      (earlyCoinbase 5000000 [2,0]::(range' 0 count).map feeTx)=_
    rw [blockFees,happlied]
    dsimp only at hblockFees ⊢
    rw [hblockFees]
    exact Int.zero_add _

end Overflow

/-- Fees pass the range of 64-bit amounts twice over, and the block is accepted. -/
theorem supply_overflow :
    NoNegative (largeState 1845).view.coins ∧
      contextualCheckBlock earlyNode (largeState 1845).quorum.chain (feeBlock 1845)=.ok () ∧
      ∃ connected, connectBlock earlyNode (largeState 1845) (feeBlock 1845) (some 3)=.ok connected ∧
        ¬NoOverflow (blockSums earlyNode 2 (largeState 1845).view.coins (feeBlock 1845)) := by
  have hcount : 1845≤20000 := by decide
  obtain ⟨txs,htxs,hfees,hblockFees⟩ := connectTxs_feeBlock 1845 hcount
  obtain ⟨special,hspecial⟩ := processSpecialTxs_feeBlock 1845
  have hpay : checkPayments earlyNode (earlyCoinbase 5000000 [2,0]) 2 txs.nFees=.ok () := by
    rw [hfees]
    decide
  refine ⟨?_,contextualCheckBlock_feeBlock hcount,?_⟩
  · intro outpoint entry hfind
    exact noNegative_largeCoins 1845 outpoint entry hfind
  · have hloop : connectTxs earlyNode (feeBlock 1845) (largeState 1845).quorum.chain.length 0
        { view := (largeState 1845).view } (feeBlock 1845).vtx=.ok txs := htxs
    have hpaid : checkPayments earlyNode ((feeBlock 1845).vtx.headD { hash := 0 })
        (largeState 1845).quorum.chain.length txs.nFees=.ok () := hpay
    have hbest : assertThat .bestBlock (decide (ListManager.tipHash
        (largeState 1845).quorum.chain=(largeState 1845).view.hashBlock))=.ok () := rfl
    have hnone : enforceBIP30 earlyNode (some 3) (largeState 1845).quorum.chain=false := rfl
    have hconn : ∃ connected,
        connectBlock earlyNode (largeState 1845) (feeBlock 1845) (some 3)=.ok connected := by
      unfold connectBlock
      rw [checkBlock_feeBlock hcount,ok_bind,hbest,ok_bind,hnone,Bool.false_and]
      rw [show rejectIf false 100 .invalid "bad-txns-BIP30"=.ok () from rfl,ok_bind,hloop,ok_bind,
        hspecial,ok_bind]
      rw [show earlyNode.rules.checkLocks (feeBlock 1845)=.ok () from rfl,ok_bind,hpaid]
      exact ⟨_,rfl⟩
    obtain ⟨connected,hconn⟩ := hconn
    refine ⟨connected,hconn,fun hsums => ?_⟩
    have hlast := hsums _ (mem_append_right _ mem_cons_self)
    have hlarge : blockFees 2 (largeState 1845).view.coins (feeBlock 1845).vtx=1845*10^16 :=
      hblockFees
    have hsubsidy := blockSubsidy_nonneg earlyNode 2
    rw [hlarge] at hlast
    omega

end Pyrk.MoneySupply
