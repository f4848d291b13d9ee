import Pyrk.BlockIndexUndo
import Pyrk.BlockPayments
import Pyrk.ListManager
import Pyrk.UndoData

/-!
# Connecting and disconnecting a block

A block is checked, its transactions are applied to the coins one by one, and the coinbase is
compared with the reward. Taking it back reads the spent coins from disk.
-/

namespace Pyrk.ConnectBlock

open List

open Transaction Script DeterministicMNList ChainParams ProviderTx ListManager MinedCommitments
open MinableCommitments Superblock BlockSubsidy BlockPayments UndoData
open Coins (CoinsView haveInputs spentInputs spendInputs)
open BlockIndexes (accessCoin accessByTxid)

/-- Largest block before the limit was raised, and largest transaction. -/
def maxLegacyBlockSize : ℕ := 1000000

def maxTxExtraPayload : ℕ := 10000

/-- Largest transaction that is relayed. -/
def maxStandardTxSize : ℕ := 100000

/-- Blocks after which a coinbase can be spent. -/
def coinbaseMaturity : ℤ := 100

/-- Amounts have 64 bits; a sum that does not fit is taken around. -/
def toInt64 (n : ℤ) : ℤ := Int.bmod n (2^64)

/-- Coins of a cache, with the outpoints that it has entries for and its best
block. -/
structure ViewCache where
  coins : CoinsView
  cacheCoins : List COutPoint := []
  hashBlock : Uint256

/-- Rules that only refuse blocks, and do not change coins or add up amounts. -/
structure OtherRules where
  /-- Proof of work, merkle root and signature operations of a block. -/
  checkBlockHeader : CBlock → Checked Unit
  /-- Lock times and signature operations of a block after a chain. -/
  checkContext : List CBlock → CBlock → Checked Unit
  /-- Signature operations, relative lock times and scripts of the transaction
  at a position. -/
  checkScripts : CBlock → ℕ → CoinsView → Checked Unit
  checkLocks : CBlock → Checked Unit
  /-- Whether a payload has the root of the masternode list after a block. -/
  merkleRootMNList : CBlock → CCbTx → Bool

/-- What a node reads while it connects and disconnects blocks. -/
structure Node where
  /-- Settings and operations of the special transactions. -/
  ctx : NodeContext
  mempool : Uint256 → Option CTransaction
  payments : PaymentNode
  keys : KeyCoding
  hasher : UndoHasher
  payloadSize : ExtraPayload → ℕ
  rules : OtherRules
  network_eq : payments.payments.network=ctx.network

/-- What blocks change: the chain with its commitments, the masternode lists
and the coins. -/
structure ChainState where
  quorum : QuorumState
  mgr : CDeterministicMNManager := {}
  view : ViewCache

section Sizes

variable (payloadSize : ExtraPayload → ℕ)

def getSizeOfCompactSize (nSize : ℕ) : ℕ := (writeCompactSize nSize).length

def inputSize (input : CTxIn) : ℕ :=
  36+getSizeOfCompactSize input.scriptSig.length+input.scriptSig.length+4

def outputSize (out : CTxOut) : ℕ :=
  8+getSizeOfCompactSize out.scriptPubKey.length+out.scriptPubKey.length

/-- Bytes of a transaction. -/
def txSize (tx : CTransaction) : ℕ :=
  4+getSizeOfCompactSize tx.vin.length+(tx.vin.map inputSize).sum+
    getSizeOfCompactSize tx.vout.length+(tx.vout.map outputSize).sum+4+
    if tx.nVersion=3 ∧ tx.nType≠.normal then
      getSizeOfCompactSize (payloadSize tx.vExtraPayload)+payloadSize tx.vExtraPayload
    else 0

def blockSize (block : CBlock) : ℕ :=
  80+getSizeOfCompactSize block.vtx.length+(block.vtx.map (txSize payloadSize)).sum

end Sizes

section Checks

variable (node : Node)

/-- Amounts of outputs and their sum are in range. -/
def checkOutputs : ℤ → List CTxOut → Checked Unit
  | _,[] => .ok ()
  | nValueOut,txout::tail =>
    if txout.nValue<0 then rejectBlock 100 .invalid "bad-txns-vout-negative"
    else if maxMoney<txout.nValue then rejectBlock 100 .invalid "bad-txns-vout-toolarge"
    else if !moneyRange (nValueOut+txout.nValue) then
      rejectBlock 100 .invalid "bad-txns-txouttotal-toolarge"
    else checkOutputs (nValueOut+txout.nValue) tail

/-- The script of a coinbase has a size in bounds, and other inputs spend
something. -/
def checkPrevouts (tx : CTransaction) : Checked Unit :=
  if tx.isCoinBase then
    let minCbSize := if tx.nType=.coinbase then 1 else 2
    let size := (tx.vin.map (fun input => input.scriptSig.length)).sum
    rejectIf (size < minCbSize || 100 < size) 100 .invalid "bad-cb-length"
  else
    rejectIf (tx.vin.any (fun input => input.prevout.isNull)) 10 .invalid "bad-txns-prevout-null"

def checkTransaction (tx : CTransaction) : Checked Unit := do
  let allowEmptyTxInOut := decide (tx.nType=.quorumCommitment)
  rejectIf (!allowEmptyTxInOut && tx.vin.isEmpty) 10 .invalid "bad-txns-vin-empty"
  rejectIf (!allowEmptyTxInOut && tx.vout.isEmpty) 10 .invalid "bad-txns-vout-empty"
  rejectIf (maxLegacyBlockSize<txSize node.payloadSize tx) 100 .invalid "bad-txns-oversize"
  rejectIf (maxTxExtraPayload<node.payloadSize tx.vExtraPayload) 100 .invalid
    "bad-txns-payload-oversize"
  checkOutputs 0 tx.vout
  rejectIf (!decide (tx.vin.map CTxIn.prevout).Nodup) 100 .invalid "bad-txns-inputs-duplicate"
  checkPrevouts tx

def checkBlock (block : CBlock) : Checked Unit := do
  node.rules.checkBlockHeader block
  rejectIf (block.vtx.isEmpty || maxBlockSize<block.vtx.length ||
    maxBlockSize<blockSize node.payloadSize block) 100 .invalid "bad-blk-length"
  rejectIf (!block.vtx.head?.any CTransaction.isCoinBase) 100 .invalid "bad-cb-missing"
  rejectIf (block.vtx.tail.any CTransaction.isCoinBase) 100 .invalid "bad-cb-multiple"
  block.vtx.forM (checkTransaction node)

/-- Bytes of a number that is not negative, with a sign bit that is not set. -/
def scriptNumBytes (n : ℕ) : List UInt8 :=
  if _h : n=0 then []
  else if n<256 then if 128≤n then [UInt8.ofNat n,0] else [UInt8.ofNat n]
  else UInt8.ofNat (n%256)::scriptNumBytes (n/256)
termination_by n
decreasing_by omega

/-- Script that pushes a height. -/
def pushInt64 (n : ℕ) : CScript :=
  if 1≤n ∧ n≤16 then [UInt8.ofNat (n+0x50)]
  else if n=0 then [0]
  else UInt8.ofNat (scriptNumBytes n).length::scriptNumBytes n

/-- Types that a transaction of version three can have. -/
def TxType.known : TxType → Bool
  | .unknown _ => false
  | _ => true

def contextualCheckTransaction (chain : List CBlock) (tx : CTransaction) : Checked Unit := do
  let fDIP0003Active := node.ctx.dip3Active chain
  rejectIf (fDIP0003Active && !(if 3≤tx.nVersion then TxType.known tx.nType else tx.nType=.normal))
    100 .invalid "bad-txns-type"
  rejectIf (fDIP0003Active && 3≤tx.nVersion && tx.isCoinBase && tx.nType≠.coinbase) 100 .invalid
    "bad-txns-cb-type"
  rejectIf (dip0001Height node.ctx.network ≤ chain.length &&
    maxStandardTxSize<txSize node.payloadSize tx) 100 .invalid "bad-txns-oversize"

def contextualCheckBlock (chain : List CBlock) (block : CBlock) : Checked Unit := do
  let nMaxBlockSize :=
    if dip0001Height node.ctx.network ≤ chain.length then maxBlockSize else maxLegacyBlockSize
  rejectIf (block.vtx.isEmpty || nMaxBlockSize<block.vtx.length ||
    nMaxBlockSize<blockSize node.payloadSize block) 10 .invalid "bad-blk-length"
  block.vtx.forM (contextualCheckTransaction node chain)
  node.rules.checkContext chain block
  let scriptSig := ((block.vtx.head?.bind (fun tx => tx.vin.head?)).map CTxIn.scriptSig).getD []
  rejectIf (bip34Height node.ctx.network ≤ chain.length && !node.ctx.dip3Active chain &&
    !(pushInt64 chain.length).isPrefixOf scriptSig) 100 .invalid "bad-cb-height"
  rejectIf (node.ctx.dip3Active chain &&
    !block.vtx.head?.any (fun tx => tx.nType=.coinbase)) 100 .invalid "bad-cb-type"

end Checks

/-- Store a coin. One that may not be overwritten throws where the cache itself holds an unspent
one. -/
def addCoin (view : ViewCache) (outpoint : COutPoint) (entry : Coin) (possible_overwrite : Bool) :
    Checked ViewCache :=
  if entry.isSpent then .error (.assertion .addCoin)
  else if isUnspendable entry.out.scriptPubKey then .ok view
  else if !possible_overwrite && decide (outpoint∈view.cacheCoins) &&
    view.coins.contains outpoint then
    .error (.assertion .addCoin)
  else .ok { view with
    coins := view.coins.set outpoint entry
    cacheCoins := outpoint::view.cacheCoins }

/-- Store outputs of a transaction, counted from an index on. -/
def addOutputs (hash : Uint256) (fCoinbase : Bool) (nHeight : ℕ) :
    ViewCache → ℕ → List CTxOut → Checked ViewCache
  | view,_,[] => .ok view
  | view,n,out::tail => do
    let view ← addCoin view ⟨hash,n⟩ ⟨out,fCoinbase,nHeight⟩ fCoinbase
    addOutputs hash fCoinbase nHeight view (n+1) tail

/-- Store all outputs of a transaction. -/
def addCoins (view : ViewCache) (tx : CTransaction) (nHeight : ℕ) : Checked ViewCache :=
  addOutputs tx.hash tx.isCoinBase nHeight view 0 tx.vout

/-- Apply a transaction to the coins and return the spent ones. -/
def updateCoins (view : ViewCache) (tx : CTransaction) (nHeight : ℕ) :
    Checked (List Coin×ViewCache) := do
  let spent ← spendInputs view.coins (spentInputs tx)
  let view ← addCoins { view with
    coins := spent.2
    cacheCoins := (spentInputs tx).map CTxIn.prevout++view.cacheCoins } tx nHeight
  .ok (spent.1,view)

/-- Sum of the inputs of a transaction. -/
def getValueIn (coins : CoinsView) (tx : CTransaction) : ℤ :=
  if tx.isCoinBase then 0
  else tx.vin.foldl (fun nResult input =>
    toInt64 (nResult+(accessCoin coins input.prevout).out.nValue)) 0

/-- Inputs are old enough and in range, and so is their sum. -/
def sumInputs (coins : CoinsView) (nSpendHeight : ℕ) : ℤ → List CTxIn → Checked ℤ
  | nValueIn,[] => .ok nValueIn
  | nValueIn,input::tail =>
    match coins.find input.prevout with
    | none => .error (.assertion .updateCoins)
    | some entry =>
      let nValueIn := toInt64 (nValueIn+entry.out.nValue)
      if entry.fCoinBase && (nSpendHeight : ℤ)-entry.nHeight < coinbaseMaturity then
        rejectBlock 0 .invalid "bad-txns-premature-spend-of-coinbase"
      else if !moneyRange entry.out.nValue || !moneyRange nValueIn then
        rejectBlock 100 .invalid "bad-txns-inputvalues-outofrange"
      else sumInputs coins nSpendHeight nValueIn tail

def checkTxInputs (coins : CoinsView) (tx : CTransaction) (nSpendHeight : ℕ) : Checked Unit := do
  rejectIf (!haveInputs coins tx) 0 .invalid ""
  let nValueIn ← sumInputs coins nSpendHeight 0 tx.vin
  match tx.getValueOut with
  | none => .error (.assertion .valueOut)
  | some nValueOut => do
    rejectIf (nValueIn<nValueOut) 100 .invalid "bad-txns-in-belowout"
    let nTxFee := toInt64 (nValueIn-nValueOut)
    rejectIf (nTxFee<0) 100 .invalid "bad-txns-fee-negative"
    rejectIf (!moneyRange nTxFee) 100 .invalid "bad-txns-fee-outofrange"

section Connect

variable (node : Node)

/-- A block while its transactions are connected. -/
structure LoopState where
  view : ViewCache
  nFees : ℤ := 0
  /-- Spent coins of each transaction after the coinbase. -/
  vtxundo : List (List Coin) := []

/-- Fees with those of one more transaction. -/
def addFees (coins : CoinsView) (nHeight : ℕ) (nFees : ℤ) (tx : CTransaction) : Checked ℤ :=
  if tx.isCoinBase then .ok nFees
  else do
    rejectIf (!haveInputs coins tx) 100 .invalid "bad-txns-inputs-missingorspent"
    match tx.getValueOut with
    | none => .error (.assertion .valueOut)
    | some nValueOut => do
      checkTxInputs coins tx nHeight
      .ok (toInt64 (nFees+toInt64 (getValueIn coins tx-nValueOut)))

/-- Connect the transaction at a position. -/
def connectTx (block : CBlock) (nHeight i : ℕ) (st : LoopState) (tx : CTransaction) :
    Checked LoopState := do
  node.rules.checkScripts block i st.view.coins
  let nFees ← addFees st.view.coins nHeight st.nFees tx
  let result ← updateCoins st.view tx nHeight
  .ok ⟨result.2,nFees,if i=0 then st.vtxundo else st.vtxundo++[result.1]⟩

/-- Connect transactions counted from a position on. -/
def connectTxs (block : CBlock) (nHeight : ℕ) : ℕ → LoopState → List CTransaction →
    Checked LoopState
  | _,st,[] => .ok st
  | i,st,tx::vtx => do
    let st ← connectTx node block nHeight i st tx
    connectTxs block nHeight (i+1) st vtx

/-- Overwritten coins are looked for in blocks that have no hash yet. -/
def enforceBIP30 (phashBlock : Option Uint256) (chain : List CBlock) : Bool :=
  phashBlock.isNone && !(bip34Height node.ctx.network < chain.length)

/-- Some output has the outpoint of an unspent coin. -/
def overwritesCoins (coins : CoinsView) (block : CBlock) : Bool :=
  block.vtx.any (fun tx => (range tx.vout.length).any (fun o => coins.contains ⟨tx.hash,o⟩))

/-- The coinbase payload can be read and has the root of the new list. -/
def checkCbTxMerkleRootMNList (block : CBlock) : Checked Unit :=
  match block.vtx.head? with
  | none => .ok ()
  | some tx =>
    if tx.nType≠.coinbase then .ok ()
    else
      match tx.getCbTx with
      | none => rejectBlock 100 .invalid "bad-cbtx-payload"
      | some cbTx =>
        rejectIf (!node.rules.merkleRootMNList block cbTx) 100 .invalid "bad-cbtx-mnmerkleroot"

/-- Lists that the block after the chain asks for, from the deployment on. -/
def loadNeededLists (st : ChainState) (block : CBlock) : Checked CDeterministicMNManager :=
  if node.ctx.dip3Active st.quorum.chain then
    st.mgr.loadLists node.ctx.serializeHash (neededLists st.quorum.chain block)
  else .ok st.mgr

/-- Check the special transactions of a block, record its commitments and build
its masternode list. -/
def processSpecialTxsInBlock (st : ChainState) (block : CBlock) :
    Checked (OrderedMap QuorumKey CFinalCommitment×CDeterministicMNManager) := do
  let chain := st.quorum.chain
  let nodeState : NodeState := ⟨node.ctx,st.view.coins,node.mempool⟩
  let mgr ← loadNeededLists node st block
  let view := nodeState.view chain mgr
  block.vtx.forM (checkSpecialTx node.ctx view)
  let mined ← MinedCommitments.processBlock (quorumContext node.ctx view.getListForBlock) chain
    st.quorum.minedCommitments block
  let mgr ← ListManager.processBlock nodeState chain mgr block
  checkCbTxMerkleRootMNList node block
  .ok (mined,mgr)

def blockSubsidy (nHeight : ℕ) : ℤ :=
  getBlockSubsidy (subsidyAt node.ctx.network) node.ctx.network nHeight false

/-- What superblock payments of a height may add up to. -/
def paymentsLimit (nHeight : ℕ) : ℤ :=
  getPaymentsLimit (subsidyAt node.ctx.network) node.ctx.network nHeight

/-- Check of the value of a coinbase, with the largest value of a superblock. -/
def checkBlockValue (txNew : CTransaction) (nHeight : ℕ) (blockReward : ℤ) :
    Except ValueError Unit :=
  match txNew.getValueOut with
  | none => .error .valueOutOfRange
  | some nValueOut =>
    let nSuperblockMaxValue := toInt64 (blockReward+paymentsLimit node nHeight)
    if isValidBlockHeight node.ctx.network nHeight && nSuperblockMaxValue<nValueOut then
      .error (.paysTooMuch nHeight nValueOut nSuperblockMaxValue "superblock max value")
    else isBlockValueValid node.payments txNew nHeight blockReward

def checkPayments (txNew : CTransaction) (nHeight : ℕ) (nFees : ℤ) : Checked Unit :=
  let blockReward := toInt64 (nFees+blockSubsidy node nHeight)
  match checkBlockValue node txNew nHeight blockReward with
  | .error _ => rejectBlock 0 .invalid "bad-cb-amount"
  | .ok () =>
    match isBlockPayeeValid node.payments txNew nHeight blockReward with
    | none => .error (.assertion .valueOut)
    | some valid => rejectIf (!valid) 0 .invalid "bad-cb-payee"

structure ConnectedBlock where
  st : ChainState
  undoFile : List UInt8

def connectBlock (st : ChainState) (block : CBlock) (phashBlock : Option Uint256) :
    Checked ConnectedBlock := do
  let chain := st.quorum.chain
  let nHeight := chain.length
  checkBlock node block
  assertThat .bestBlock (tipHash chain=st.view.hashBlock)
  rejectIf (enforceBIP30 node phashBlock chain && overwritesCoins st.view.coins block) 100
    .invalid "bad-txns-BIP30"
  let txs ← connectTxs node block nHeight 0 { view := st.view } block.vtx
  let special ← processSpecialTxsInBlock node st block
  node.rules.checkLocks block
  checkPayments node (block.vtx.headD { hash := 0 }) nHeight txs.nFees
  .ok ⟨⟨{ st.quorum with chain := chain++[block], minedCommitments := special.1 },special.2,
    { txs.view with hashBlock := block.hash }⟩,
    undoWriteToDisk node.keys node.hasher txs.vtxundo (tipHash chain)⟩

end Connect

section Disconnect

variable (node : Node)

/-- How taking a block back ends. -/
inductive DisconnectResult where
  | ok
  /-- Rolled back, but the coins were inconsistent with the block. -/
  | unclean
  | failed
  deriving DecidableEq

/-- Why taking a block back stops early. -/
inductive DisconnectStop where
  | failed
  | abort (reason : Abort)
  deriving DecidableEq

/-- Coins while a block is taken back. -/
structure UndoState where
  fClean : Bool := true
  coins : CoinsView

/-- Spend an output of the block again and compare it with the coin. -/
def removeOutput (nHeight : ℕ) (tx : CTransaction) (st : UndoState) (output : CTxOut×ℕ) :
    UndoState :=
  if isUnspendable output.1.scriptPubKey then st
  else
    match Coins.spendCoin st.coins ⟨tx.hash,output.2⟩ with
    | none => { st with fClean := false }
    | some spent => ⟨st.fClean &&
        decide (output.1=spent.1.out ∧ nHeight=spent.1.nHeight ∧ tx.isCoinBase=spent.1.fCoinBase),
        spent.2⟩

/-- Restore a spent coin, and say whether its place was free. A missing height comes from another
output. -/
def applyTxInUndo (undo : Coin) (st : UndoState) (out : COutPoint) :
    Except DisconnectStop UndoState := do
  let fClean := st.fClean && !st.coins.contains out
  let undo ←
    if undo.nHeight=0 then
      match accessByTxid st.coins out.hash with
      | none => .error .failed
      | some alternate => .ok ⟨undo.out,alternate.fCoinBase,alternate.nHeight⟩
    else .ok undo
  -- the coin was looked up before, so that the cache holds it if it is unspent
  match addCoin ⟨st.coins,[out],0⟩ out undo undo.fCoinBase with
  | .error reason => .error (.abort reason)
  | .ok view => .ok ⟨fClean,view.coins⟩

/-- Undo a transaction: outputs first, then inputs from the last one on. -/
def disconnectTx (nHeight : ℕ) (vtxundo : List (List Coin)) (st : UndoState)
    (position : CTransaction×ℕ) : Except DisconnectStop UndoState :=
  let tx := position.1
  let i := position.2
  let st := tx.vout.zipIdx.foldl (removeOutput nHeight tx) st
  if i=0 then .ok st
  else
    match vtxundo[i-1]? with
    | none => .error .failed
    | some vprevout =>
      if vprevout.length≠tx.vin.length then .error .failed
      else (tx.vin.zip vprevout).reverse.foldlM (fun st input =>
        applyTxInUndo input.2 st input.1.prevout) st

/-- Whether a special transaction can be undone on its own. -/
def undoSpecialTx (tx : CTransaction) : Bool :=
  if tx.nVersion≠3 ∨ tx.nType=.normal then true else TxType.known tx.nType

def undoSpecialTxsInBlock (st : ChainState) (block : CBlock) :
    Except DisconnectStop (QuorumState×CDeterministicMNManager) :=
  if !block.vtx.all undoSpecialTx then .error .failed
  else
    let lists := st.mgr.answers node.ctx.serializeHash
    match MinedCommitments.undoBlock (quorumContext node.ctx lists) st.quorum with
    | .error (.rejected _) => .error .failed
    | .error reason => .error (.abort reason)
    | .ok quorum => .ok (quorum,st.mgr.undoBlock block)

def undoLastBlock (st : ChainState) (undoFile : List UInt8) :
    Except DisconnectStop (Bool×ChainState) :=
  match st.quorum.chain.getLast? with
  | none => .error .failed
  | some block =>
    let chain := st.quorum.chain.dropLast
    if block.hash≠st.view.hashBlock then .error (.abort (.assertion .bestBlock))
    else
      match undoReadFromDisk node.keys node.hasher undoFile (tipHash chain) with
      | none => .error .failed
      | some vtxundo =>
        if vtxundo.length+1≠block.vtx.length then .error .failed
        else do
          let special ← undoSpecialTxsInBlock node st block
          let undone ← block.vtx.zipIdx.reverse.foldlM (disconnectTx chain.length vtxundo)
            { coins := st.view.coins }
          .ok (undone.fClean,⟨special.1,special.2,
            { coins := undone.coins, hashBlock := tipHash chain }⟩)

/-- Take the last block back. -/
def disconnectBlock (st : ChainState) (undoFile : List UInt8) :
    Checked (DisconnectResult×ChainState) :=
  match undoLastBlock node st undoFile with
  | .error .failed => .ok (.failed,st)
  | .error (.abort reason) => .error reason
  | .ok (true,st) => .ok (.ok,st)
  | .ok (false,st) => .ok (.unclean,st)

end Disconnect

section Lemmas

variable {node : Node}

theorem addCoin_ok {view next : ViewCache} {outpoint : COutPoint} {entry : Coin}
    {possible_overwrite : Bool} (h : addCoin view outpoint entry possible_overwrite=.ok next) :
    next.coins=Coins.addCoin view.coins outpoint entry ∧ next.hashBlock=view.hashBlock ∧
      (isUnspendable entry.out.scriptPubKey=true → next=view) ∧
      (isUnspendable entry.out.scriptPubKey=false →
        next.cacheCoins=outpoint::view.cacheCoins ∧ (possible_overwrite=false →
          outpoint∈view.cacheCoins → view.coins.contains outpoint=false)) := by
  unfold addCoin at h
  unfold Coins.addCoin
  grind

/-- Outputs are stored as in a plain map, and replace no unspent coin of the cache, unless a
coinbase creates them. -/
theorem addOutputs_ok {hash : Uint256} {fCoinbase : Bool} {nHeight n : ℕ} {view next : ViewCache}
    {outs : List CTxOut} (h : addOutputs hash fCoinbase nHeight view n outs=.ok next) :
    next.coins=Coins.addOutputs hash fCoinbase nHeight view.coins n outs ∧
      next.hashBlock=view.hashBlock ∧
      (∀ outpoint, outpoint∈next.cacheCoins ↔ outpoint∈view.cacheCoins ∨
        ∃ k out, outs[k]?=some out ∧ isUnspendable out.scriptPubKey=false ∧ outpoint=⟨hash,n+k⟩) ∧
      (fCoinbase=false → ∀ k out, outs[k]?=some out → isUnspendable out.scriptPubKey=false →
        (⟨hash,n+k⟩ : COutPoint)∈view.cacheCoins → view.coins.contains ⟨hash,n+k⟩=false) := by
  induction outs generalizing view n with
  | nil =>
    cases h
    refine ⟨rfl,rfl,fun outpoint => ?_,fun _ k out hout => ?_⟩
    · simp only [getElem?_nil,reduceCtorEq,false_and,exists_false,or_false]
    · cases hout
  | cons out tail ih =>
    obtain ⟨middle,hmid,hrest⟩ := bind_eq_ok.mp h
    obtain ⟨hcoins,hhash,hsame,hstored⟩ := addCoin_ok hmid
    obtain ⟨hcoinsRest,hhashRest,hcacheRest,hfreshRest⟩ := ih hrest
    refine ⟨?_,hhashRest.trans hhash,fun outpoint =>
      ?_,fun hbase k found hout hscript hcached => ?_⟩
    · rw [hcoinsRest,hcoins,Coins.addOutputs]
    · have hmiddleCache : outpoint∈middle.cacheCoins ↔ outpoint∈view.cacheCoins ∨
          isUnspendable out.scriptPubKey=false ∧ outpoint=⟨hash,n⟩ := by
        cases hscript : isUnspendable out.scriptPubKey with
        | true =>
          rw [hsame hscript]
          simp only [Bool.true_eq_false,false_and,or_false]
        | false =>
          rw [(hstored hscript).1,mem_cons]
          simp only [true_and]
          exact or_comm
      rw [hcacheRest,hmiddleCache,or_assoc]
      refine or_congr_right ?_
      constructor
      · rintro (⟨hscript,he⟩ | ⟨k,found,hget,hscript,he⟩)
        · exact ⟨0,out,rfl,hscript,he⟩
        · refine ⟨k+1,found,hget,hscript,?_⟩
          rw [he,Nat.add_assoc,Nat.add_comm 1 k]
      · rintro ⟨k,found,hget,hscript,he⟩
        cases k with
        | zero =>
          cases hget
          exact Or.inl ⟨hscript,he⟩
        | succ k =>
          refine Or.inr ⟨k,found,hget,hscript,?_⟩
          rw [he,Nat.add_assoc,Nat.add_comm 1 k]
    · cases k with
      | zero =>
        cases hout
        exact (hstored hscript).2 hbase hcached
      | succ k =>
        have hindex : n+(k+1)=n+1+k := by omega
        rw [hindex] at hcached ⊢
        have hlater := hfreshRest hbase k found hout hscript
        have hne : (⟨hash,n+1+k⟩ : COutPoint)≠⟨hash,n⟩ := by
          intro he
          have := congrArg COutPoint.n he
          dsimp only at this
          omega
        have hkept : middle.coins.contains ⟨hash,n+1+k⟩=view.coins.contains ⟨hash,n+1+k⟩ := by
          rw [hcoins,Coins.addCoin]
          split_ifs
          · rfl
          · rw [OrderedMap.contains,OrderedMap.contains,OrderedMap.find_set_of_ne _ _ hne]
        rw [← hkept]
        apply hlater
        cases hscriptOut : isUnspendable out.scriptPubKey with
        | true =>
          rw [hsame hscriptOut]
          exact hcached
        | false =>
          rw [(hstored hscriptOut).1]
          exact mem_cons_of_mem _ hcached

/-- What applying a transaction to the coins does. -/
structure Applied (nHeight : ℕ) (tx : CTransaction) (view : ViewCache) (undo : List Coin)
    (next : ViewCache) : Prop where
  coins : Coins.updateCoins view.coins tx nHeight=.ok (undo,next.coins)
  hashBlock : next.hashBlock=view.hashBlock
  /-- The cache has entries for the inputs and the new coins. -/
  cacheCoins : ∀ outpoint, outpoint∈next.cacheCoins ↔ outpoint∈view.cacheCoins ∨
    outpoint∈(spentInputs tx).map CTxIn.prevout ∨ Coins.Creates tx outpoint
  /-- An unspent coin of the cache is only replaced after it is spent, or by a
  coinbase. -/
  fresh : tx.isCoinBase=false → ∀ outpoint, Coins.Creates tx outpoint →
    outpoint∈view.cacheCoins → view.coins.contains outpoint=true →
    outpoint∈(spentInputs tx).map CTxIn.prevout

variable {tx : CTransaction}

theorem updateCoins_ok {view : ViewCache} {nHeight : ℕ}
    {result : List Coin×ViewCache} (h : updateCoins view tx nHeight=.ok result) :
    Applied nHeight tx view result.1 result.2 := by
  obtain ⟨spent,hspent,h⟩ := bind_eq_ok.mp h
  obtain ⟨next,hnext,h⟩ := bind_eq_ok.mp h
  cases h
  obtain ⟨hcoins,hhash,hcache,hfresh⟩ := addOutputs_ok hnext
  refine ⟨?_,hhash,fun outpoint => ?_,fun hbase outpoint hcreates hcached hthere => ?_⟩
  · unfold Coins.updateCoins
    rw [hspent,hcoins]
    rfl
  · rw [hcache,mem_append,@or_comm (outpoint∈(spentInputs tx).map CTxIn.prevout),or_assoc]
    refine or_congr_right (or_congr_right ?_)
    simp only [Coins.Creates,Nat.zero_add]
  · obtain ⟨k,out,hout,hscript,rfl⟩ := hcreates
    rw [← Nat.zero_add k] at hcached hthere ⊢
    have hgone := hfresh hbase k out hout hscript (mem_append_right _ hcached)
    have hfind := Coins.spendInputs_find hspent ⟨tx.hash,0+k⟩
    by_contra hnot
    rw [if_neg hnot] at hfind
    rw [OrderedMap.contains,hfind] at hgone
    rw [OrderedMap.contains,hgone] at hthere
    cases hthere

/-- What connecting a transaction does. -/
structure TxConnected (nHeight i : ℕ) (st : LoopState) (tx : CTransaction) (undo : List Coin)
    (next : LoopState) : Prop where
  applied : Applied nHeight tx st.view undo next.view
  fees : addFees st.view.coins nHeight st.nFees tx=.ok next.nFees
  /-- The coins it spends are kept, unless it comes first. -/
  vtxundo : next.vtxundo=if i=0 then st.vtxundo else st.vtxundo++[undo]

variable {block : CBlock}

theorem connectTx_ok {nHeight i : ℕ} {st next : LoopState}
    (h : connectTx node block nHeight i st tx=.ok next) :
    ∃ undo, TxConnected nHeight i st tx undo next := by
  obtain ⟨⟨⟩,-,h⟩ := bind_eq_ok.mp h
  obtain ⟨nFees,hfees,h⟩ := bind_eq_ok.mp h
  obtain ⟨result,hres,h⟩ := bind_eq_ok.mp h
  cases h
  exact ⟨result.1,updateCoins_ok hres,hfees,rfl⟩

theorem connectTxs_cons {nHeight i : ℕ} {st final : LoopState} {vtx : List CTransaction}
    (h : connectTxs node block nHeight i st (tx::vtx)=.ok final) :
    ∃ undo next, TxConnected nHeight i st tx undo next ∧
      connectTxs node block nHeight (i+1) next vtx=.ok final := by
  obtain ⟨next,hnext,hrest⟩ := bind_eq_ok.mp h
  obtain ⟨undo,hconn⟩ := connectTx_ok hnext
  exact ⟨undo,next,hconn,hrest⟩

theorem moneyRange_iff (nValue : ℤ) : moneyRange nValue=true ↔ 0≤nValue ∧ nValue≤10^16 := by
  have hmax : maxMoney=10^16 := by decide
  rw [moneyRange,Bool.and_eq_true,decide_eq_true_eq,decide_eq_true_eq,hmax]

theorem checkOutputs_ok {outs : List CTxOut} {start : ℤ} (h : checkOutputs start outs=.ok ()) :
    (∀ out∈outs, moneyRange out.nValue=true) ∧
      CTransaction.sumOut start outs=some (start+(outs.map CTxOut.nValue).sum) := by
  induction outs generalizing start with
  | nil =>
    refine ⟨fun out hm => absurd hm not_mem_nil,?_⟩
    rw [CTransaction.sumOut,map_nil,sum_nil,Int.add_zero]
  | cons out tail ih =>
    unfold checkOutputs at h
    split_ifs at h with hneg hlarge htotal
    · cases h
    · cases h
    · cases h
    · obtain ⟨hrange,hsum⟩ := ih h
      have hout : moneyRange out.nValue=true := by
        rw [moneyRange,Bool.and_eq_true,decide_eq_true_eq,decide_eq_true_eq]
        omega
      rw [Bool.not_eq_true',Bool.not_eq_false] at htotal
      refine ⟨forall_mem_cons.mpr ⟨hout,hrange⟩,?_⟩
      rw [CTransaction.sumOut,hout,htotal,if_neg (by decide),hsum,map_cons,sum_cons,Int.add_assoc]

/-- What is known of a transaction that was checked on its own. -/
structure TxChecked (node : Node) (tx : CTransaction) : Prop where
  inputs : tx.vin=[] → tx.nType=.quorumCommitment
  size : txSize node.payloadSize tx ≤ maxLegacyBlockSize
  range : ∀ out∈tx.vout, moneyRange out.nValue=true
  sum : tx.getValueOut=some (tx.vout.map CTxOut.nValue).sum
  nodup : (tx.vin.map CTxIn.prevout).Nodup

theorem checkTransaction_ok (h : checkTransaction node tx=.ok ()) : TxChecked node tx := by
  obtain ⟨⟨⟩,hvin,h⟩ := bind_eq_ok.mp h
  obtain ⟨⟨⟩,-,h⟩ := bind_eq_ok.mp h
  obtain ⟨⟨⟩,hsize,h⟩ := bind_eq_ok.mp h
  obtain ⟨⟨⟩,-,h⟩ := bind_eq_ok.mp h
  obtain ⟨⟨⟩,houts,h⟩ := bind_eq_ok.mp h
  obtain ⟨⟨⟩,hnodup,-⟩ := bind_eq_ok.mp h
  obtain ⟨hrange,hsum⟩ := checkOutputs_ok houts
  rw [rejectIf_eq_ok] at hvin hsize hnodup
  refine ⟨fun hnil => ?_,?_,hrange,?_,?_⟩
  · rw [hnil] at hvin
    simpa using hvin
  · simpa using hsize
  · rw [CTransaction.getValueOut,hsum,Int.zero_add]
  · simpa using hnodup

/-- What is known of a block that was checked on its own. -/
structure BlockChecked (node : Node) (block : CBlock) (coinbase : CTransaction)
    (vtx : List CTransaction) : Prop where
  /-- The block is a coinbase and other transactions. -/
  vtx_eq : block.vtx=coinbase::vtx
  coinbase : coinbase.isCoinBase=true
  others : ∀ tx∈vtx, tx.isCoinBase=false
  count : block.vtx.length ≤ maxBlockSize
  txs : ∀ tx∈block.vtx, TxChecked node tx

theorem checkBlock_ok (h : checkBlock node block=.ok ()) :
    ∃ coinbase vtx, BlockChecked node block coinbase vtx := by
  obtain ⟨⟨⟩,-,h⟩ := bind_eq_ok.mp h
  obtain ⟨⟨⟩,hlen,h⟩ := bind_eq_ok.mp h
  obtain ⟨⟨⟩,hmissing,h⟩ := bind_eq_ok.mp h
  obtain ⟨⟨⟩,hmultiple,htxs⟩ := bind_eq_ok.mp h
  rw [rejectIf_eq_ok] at hlen hmissing hmultiple
  rw [Bool.or_eq_false_iff,Bool.or_eq_false_iff,decide_eq_false_iff_not] at hlen
  cases hvtx : block.vtx with
  | nil => rw [hvtx] at hlen; cases hlen.1.1
  | cons coinbase vtx =>
    rw [hvtx,head?_cons,Option.any_some,Bool.not_eq_false'] at hmissing
    rw [hvtx,tail_cons,any_eq_false] at hmultiple
    refine ⟨coinbase,vtx,hvtx,hmissing,fun tx hm => ?_,Nat.le_of_not_lt hlen.1.2,
      fun tx hm => checkTransaction_ok (forM_eq_ok htxs tx hm)⟩
    exact Bool.eq_false_of_not_eq_true (hmultiple tx hm)

structure BlockConnected (node : Node) (st : ChainState) (block : CBlock)
    (coinbase : CTransaction) (vtx : List CTransaction) (txs : LoopState)
    (connected : ConnectedBlock) : Prop where
  checked : BlockChecked node block coinbase vtx
  bestBlock : tipHash st.quorum.chain=st.view.hashBlock
  loop : connectTxs node block st.quorum.chain.length 0 { view := st.view } (coinbase::vtx)=
    .ok txs
  special : processSpecialTxsInBlock node st block=
    .ok (connected.st.quorum.minedCommitments,connected.st.mgr)
  payments : checkPayments node coinbase st.quorum.chain.length txs.nFees=.ok ()
  chain : connected.st.quorum.chain=st.quorum.chain++[block]
  processor : connected.st.quorum.processor=st.quorum.processor
  /-- The coins are those after the last transaction. -/
  coins : connected.st.view.coins=txs.view.coins
  hashBlock : connected.st.view.hashBlock=block.hash
  undoFile : connected.undoFile=
    undoWriteToDisk node.keys node.hasher txs.vtxundo (tipHash st.quorum.chain)

theorem connectBlock_ok {st : ChainState} {phashBlock : Option Uint256}
    {connected : ConnectedBlock} (h : connectBlock node st block phashBlock=.ok connected) :
    ∃ coinbase vtx txs, BlockConnected node st block coinbase vtx txs connected := by
  obtain ⟨⟨⟩,hcheck,h⟩ := bind_eq_ok.mp h
  obtain ⟨⟨⟩,hbest,h⟩ := bind_eq_ok.mp h
  obtain ⟨⟨⟩,-,h⟩ := bind_eq_ok.mp h
  obtain ⟨txs,htxs,h⟩ := bind_eq_ok.mp h
  obtain ⟨special,hspecial,h⟩ := bind_eq_ok.mp h
  obtain ⟨⟨⟩,-,h⟩ := bind_eq_ok.mp h
  obtain ⟨⟨⟩,hpay,h⟩ := bind_eq_ok.mp h
  obtain ⟨coinbase,vtx,hchk⟩ := checkBlock_ok hcheck
  rw [hchk.vtx_eq] at htxs hpay
  have hview : tipHash st.quorum.chain=st.view.hashBlock := by
    unfold assertThat at hbest
    split_ifs at hbest with htip
    exact of_decide_eq_true htip
  cases h
  exact ⟨coinbase,vtx,txs,hchk,hview,htxs,hspecial,hpay,rfl,rfl,rfl,rfl,rfl⟩

theorem toInt64_of_fits {n : ℤ} (hlow : -2^63≤n) (hhigh : n < 2^63) : toInt64 n=n :=
  Int.bmod_eq_of_le_mul_two (by omega) (by omega)

def inputValue (coins : CoinsView) (input : CTxIn) : ℤ :=
    (accessCoin coins input.prevout).out.nValue

/-- Exact sum of the inputs of a transaction. -/
def valueIn (coins : CoinsView) (tx : CTransaction) : ℤ :=
  ((spentInputs tx).map (inputValue coins)).sum

/-- Exact sum of the outputs of a transaction. -/
def valueOut (tx : CTransaction) : ℤ := (tx.vout.map CTxOut.nValue).sum

/-- Inputs that pass their check are unspent coins in range, and their sum is in
range and exact. -/
theorem sumInputs_ok {coins : CoinsView} {nSpendHeight : ℕ} {inputs : List CTxIn}
    {start total : ℤ} (hstart : moneyRange start=true)
    (h : sumInputs coins nSpendHeight start inputs=.ok total) :
    (∀ input∈inputs, ∃ entry, coins.find input.prevout=some entry ∧
        moneyRange entry.out.nValue=true) ∧
      inputs.foldl (fun nResult input =>
        toInt64 (nResult+(accessCoin coins input.prevout).out.nValue)) start=total ∧
      moneyRange total=true ∧ total=start+(inputs.map (inputValue coins)).sum := by
  induction inputs generalizing start with
  | nil =>
    cases h
    refine ⟨fun input hm => absurd hm not_mem_nil,rfl,hstart,?_⟩
    rw [map_nil,sum_nil,Int.add_zero]
  | cons input tail ih =>
    unfold sumInputs at h
    cases hfind : coins.find input.prevout with
    | none => rw [hfind] at h; cases h
    | some entry =>
      rw [hfind] at h
      dsimp only at h
      split_ifs at h with hmature hrange
      · cases h
      · cases h
      · rw [Bool.or_eq_true,not_or,Bool.not_eq_true',Bool.not_eq_false,Bool.not_eq_true',
          Bool.not_eq_false] at hrange
        have hvalue : (accessCoin coins input.prevout).out.nValue=entry.out.nValue := by
          rw [accessCoin,hfind,Option.getD_some]
        have hlow := (moneyRange_iff _).mp hstart
        have hentry := (moneyRange_iff _).mp hrange.1
        have hexact : toInt64 (start+entry.out.nValue)=start+entry.out.nValue :=
          toInt64_of_fits (by omega) (by omega)
        obtain ⟨hall,hfold,htotal,hsum⟩ := ih hrange.2 h
        refine ⟨forall_mem_cons.mpr ⟨⟨entry,hfind,hrange.1⟩,hall⟩,?_,htotal,?_⟩
        · rw [foldl_cons,hvalue,hfold]
        · rw [hsum,hexact,map_cons,sum_cons,inputValue,hvalue,Int.add_assoc]

/-- What is known when the fees of a transaction other than a coinbase are
added. -/
structure FeesAdded (coins : CoinsView) (tx : CTransaction) (nFees next : ℤ) : Prop where
  range : ∀ input∈tx.vin, ∃ entry, coins.find input.prevout=some entry ∧
    moneyRange entry.out.nValue=true
  total : moneyRange (valueIn coins tx)=true
  fee : 0≤valueIn coins tx-valueOut tx
  next : next=toInt64 (nFees+(valueIn coins tx-valueOut tx))

theorem addFees_ok {coins : CoinsView} {nHeight : ℕ} {nFees next : ℤ}
    (hbase : tx.isCoinBase=false) (hchk : TxChecked node tx)
    (h : addFees coins nHeight nFees tx=.ok next) : FeesAdded coins tx nFees next := by
  have hinputs : spentInputs tx=tx.vin := by
    rw [spentInputs,hbase,if_neg Bool.false_ne_true]
  unfold addFees at h
  rw [hbase,if_neg Bool.false_ne_true] at h
  obtain ⟨⟨⟩,-,h⟩ := bind_eq_ok.mp h
  rw [hchk.sum] at h
  obtain ⟨⟨⟩,hinputsChecked,h⟩ := bind_eq_ok.mp h
  cases h
  obtain ⟨⟨⟩,-,hinputsChecked⟩ := bind_eq_ok.mp hinputsChecked
  obtain ⟨nValueIn,hsum,hinputsChecked⟩ := bind_eq_ok.mp hinputsChecked
  rw [hchk.sum] at hinputsChecked
  obtain ⟨⟨⟩,hbelow,-⟩ := bind_eq_ok.mp hinputsChecked
  rw [rejectIf_eq_ok,decide_eq_false_iff_not] at hbelow
  obtain ⟨hrange,hfold,htotal,hexact⟩ := sumInputs_ok (by decide) hsum
  have hvalue : valueIn coins tx=nValueIn := by
    rw [valueIn,hinputs,hexact,Int.zero_add]
  have hgetValueIn : getValueIn coins tx=nValueIn := by
    rw [getValueIn,hbase,if_neg Bool.false_ne_true,hfold]
  have hout : 0≤valueOut tx := by
    refine sum_nonneg (fun amount hm => ?_)
    obtain ⟨out,hout,rfl⟩ := mem_map.mp hm
    exact ((moneyRange_iff _).mp (hchk.range out hout)).1
  have hbounds := (moneyRange_iff _).mp htotal
  have hfee : toInt64 (nValueIn-valueOut tx)=nValueIn-valueOut tx := by
    unfold valueOut at hout ⊢
    exact toInt64_of_fits (by omega) (by omega)
  refine ⟨hrange,?_,?_,?_⟩
  · rw [hvalue]
    exact htotal
  · rw [hvalue]
    unfold valueOut
    omega
  · rw [hgetValueIn,hvalue]
    unfold valueOut at hfee ⊢
    rw [hfee]

theorem inputs_le_txSize (tx : CTransaction) : 41*tx.vin.length≤txSize node.payloadSize tx := by
  have hsize : ∀ nSize, 1≤getSizeOfCompactSize nSize := by
    intro nSize
    unfold getSizeOfCompactSize writeCompactSize
    split_ifs
    · rw [length_leBytes]
    · exact Nat.succ_le_succ (Nat.zero_le _)
    · exact Nat.succ_le_succ (Nat.zero_le _)
    · exact Nat.succ_le_succ (Nat.zero_le _)
  have hinputs : 41*tx.vin.length≤(tx.vin.map inputSize).sum := by
    induction tx.vin with
    | nil => exact Nat.zero_le _
    | cons input tail ih =>
      have hone := hsize input.scriptSig.length
      rw [length_cons,map_cons,sum_cons,inputSize]
      omega
  unfold txSize
  omega

end Lemmas

/-- A node that is still loading the chain, before the deployment is active. -/
def earlyNode : Node where
  ctx := {
    network := .main
    fLiteMode := false
    fAllowPrivateNet := false
    spork15Value := 4070908800
    hash160 := length
    serializeHash := propertyCode
    sha256 := fun first second => first+second
    quorumScore := fun confirmed _ _ => confirmed
    commitmentHash := CFinalCommitment.quorumHash
    crypto := ⟨fun _ _ _ _ _ => 0,fun _ _ _ => true,fun _ _ _ => true⟩
    dip3Active := fun _ => false
    mapBlockIndex := fun _ => none
    calcTxInputsHash := fun _ => 0
    verifyMessage := fun _ _ => true
    verifyHash := fun _ _ => true
    verifyProUpServ := fun _ _ => true
    verifyProUpRev := fun _ _ => true }
  mempool := fun _ => none
  payments := {
    payments := {
      network := .main
      chainHeight := 0
      listForBlock := fun _ => {}
      spork15Value := 4070908800
      mapMasternodeBlocks := OrderedMap.empty
      getNextMasternodeInQueueForPayment := fun _ => none
      hash160 := length }
    governance := {}
    vote := {
      network := .main
      hashVote := fun _ _ _ _ _ => 0
      has := fun _ => false
      countEnabled := 0
      getAdjustedTime := 0
      areRateChecksEnabled := true
      checkSignature := fun _ _ => true }
    spork8Active := false
    spork9Active := false
    isSynced := false
    fLiteMode := false
    network_eq := rfl }
  keys := {
    isFullyValid := fun _ => false
    decompress := fun _ => none
    decompress_valid := fun _ _ _ hvalid => Bool.noConfusion hvalid }
  hasher := ⟨fun _ _ => replicate 32 0,fun _ _ => length_replicate⟩
  payloadSize := fun _ => 0
  rules := {
    checkBlockHeader := fun _ => .ok ()
    checkContext := fun _ _ => .ok ()
    checkScripts := fun _ _ _ => .ok ()
    checkLocks := fun _ => .ok ()
    merkleRootMNList := fun _ _ => true }
  network_eq := rfl

/-- A coinbase with a script of its own. -/
def earlyCoinbase (hash : Uint256) (scriptSig : CScript) : CTransaction where
  vin := [{ prevout := COutPoint.null, scriptSig := scriptSig }]
  vout := [⟨100*coin,[0x51]⟩]
  hash := hash
  payload_special := CTransaction.payload_plain

end Pyrk.ConnectBlock
