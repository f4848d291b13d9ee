import Pyrk.Coins
import Pyrk.UndoBatch

/-!
# Indexes that follow the chain

A node can keep indexes of addresses, spent outputs and block times. Connecting a block writes them
at the end; disconnecting goes over the block in reverse order.
-/

namespace Pyrk.BlockIndexes

open Transaction Script DeterministicMNList Coins UndoBatch

/-- Indexes that the node keeps. -/
structure IndexFlags where
  /-- Address index and unspent outputs of addresses. -/
  fAddressIndex : Bool
  fSpentIndex : Bool
  fTimestampIndex : Bool

/-- One movement on an address. -/
structure CAddressIndexKey where
  type : ℕ
  hashBytes : ℕ
  blockHeight : ℕ
  txindex : ℕ
  txhash : Uint256
  index : ℕ
  spending : Bool
  deriving DecidableEq

structure CAddressUnspentKey where
  type : ℕ
  hashBytes : ℕ
  txhash : Uint256
  index : ℕ
  deriving DecidableEq

/-- What is stored of an unspent output. -/
structure CAddressUnspentValue where
  satoshis : ℤ
  script : CScript
  blockHeight : ℕ
  deriving DecidableEq

/-- The default value, which stands for an erased entry. -/
def CAddressUnspentValue.null : CAddressUnspentValue := ⟨-1,[],0⟩

/-- Values that erase their entry. -/
def CAddressUnspentValue.isNull (value : CAddressUnspentValue) : Bool := value.satoshis=-1

/-- A spent output. -/
structure CSpentIndexKey where
  txid : Uint256
  outputIndex : ℕ
  deriving DecidableEq

structure CSpentIndexValue where
  txid : Uint256
  inputIndex : ℕ
  blockHeight : ℕ
  satoshis : ℤ
  addressType : ℕ
  addressHash : ℕ
  deriving DecidableEq

/-- The default value, which stands for an erased entry. -/
def CSpentIndexValue.null : CSpentIndexValue := ⟨0,0,0,0,0,0⟩

/-- Values that erase their entry. -/
def CSpentIndexValue.isNull (value : CSpentIndexValue) : Bool := value.txid=0

/-- A block by its time. -/
structure CTimestampIndexKey where
  timestamp : ℕ
  blockHash : Uint256
  deriving DecidableEq

/-- Stored indexes, each by its lookups. -/
structure CBlockTreeDB where
  addressIndex : CAddressIndexKey → Option ℤ
  addressUnspentIndex : CAddressUnspentKey → Option CAddressUnspentValue
  spentIndex : CSpentIndexKey → Option CSpentIndexValue
  timestampIndex : CTimestampIndexKey → Option ℕ

namespace CBlockTreeDB

variable (db : CBlockTreeDB)

def writeAddressIndex (vect : List (CAddressIndexKey×ℤ)) : CBlockTreeDB :=
  { db with
    addressIndex := applyBatch (vect.map (fun entry => (entry.1,some entry.2))) db.addressIndex }

def eraseAddressIndex (vect : List (CAddressIndexKey×ℤ)) : CBlockTreeDB :=
  { db with
    addressIndex := applyBatch (vect.map (fun entry => (entry.1,none))) db.addressIndex }

/-- Write unspent outputs, or erase them where the value is null. -/
def updateAddressUnspentIndex
    (vect : List (CAddressUnspentKey×CAddressUnspentValue)) : CBlockTreeDB :=
  { db with
    addressUnspentIndex := applyBatch (vect.map (fun entry =>
      (entry.1,if entry.2.isNull then none else some entry.2))) db.addressUnspentIndex }

/-- Write spent outputs, or erase them where the value is null. -/
def updateSpentIndex (vect : List (CSpentIndexKey×CSpentIndexValue)) : CBlockTreeDB :=
  { db with
    spentIndex := applyBatch (vect.map (fun entry =>
      (entry.1,if entry.2.isNull then none else some entry.2))) db.spentIndex }

def writeTimestampIndex (timestampIndex : CTimestampIndexKey) : CBlockTreeDB :=
  { db with timestampIndex := applyBatch [(timestampIndex,some 0)] db.timestampIndex }

def readSpentIndex (key : CSpentIndexKey) : Option CSpentIndexValue :=
  db.spentIndex key

/-- Hashes of the blocks in a time range, in whatever order. -/
def readTimestampIndex (high low : ℕ) : Set Uint256 :=
  { blockHash | ∃ timestamp, low≤timestamp ∧ timestamp≤high ∧
    db.timestampIndex ⟨timestamp,blockHash⟩≠none }

end CBlockTreeDB

/-- Scripts that the indexes tell apart, with the hash of the address. -/
inductive IndexedScript where
  | scriptHash (hashBytes : ℕ)
  | pubKeyHash (hashBytes : ℕ)
  /-- Pay to a key, listed under the hash of the key. -/
  | pubKey (hashBytes : ℕ)
  | other
  deriving DecidableEq

/-- Kind of the address, zero for none. -/
def IndexedScript.addressType : IndexedScript → ℕ
  | .scriptHash _ => 2
  | .pubKeyHash _ => 1
  | .pubKey _ => 1
  | .other => 0

def IndexedScript.hashBytes : IndexedScript → ℕ
  | .scriptHash hashBytes => hashBytes
  | .pubKeyHash hashBytes => hashBytes
  | .pubKey hashBytes => hashBytes
  | .other => 0

/-- A pass of one of the inner loops over the transactions of a block. -/
inductive IndexEvent where
  | spend (i : ℕ) (txhash : Uint256) (j : ℕ) (prevout : COutPoint) (entry : Coin)
  | create (i : ℕ) (txhash : Uint256) (k : ℕ) (out : CTxOut)
  deriving DecidableEq

/-- Entries that one pass appends. -/
structure IndexBatches where
  addressIndex : List (CAddressIndexKey×ℤ) := []
  addressUnspentIndex : List (CAddressUnspentKey×CAddressUnspentValue) := []
  spentIndex : List (CSpentIndexKey×CSpentIndexValue) := []

section Entries

variable (hash160 : List UInt8 → ℕ)

def indexedScript (script : CScript) : IndexedScript :=
  if isPayToScriptHash script then .scriptHash (littleEndian (slice script 2 22))
  else if isPayToPublicKeyHash script then .pubKeyHash (littleEndian (slice script 3 23))
  else if isPayToPublicKey script then .pubKey (hash160 (slice script 1 (script.length-1)))
  else .other

variable (flags : IndexFlags) (nHeight : ℕ)

/-- Entries of one pass while a block is connected. -/
def connectBatches : IndexEvent → IndexBatches
  | .spend i txhash j prevout entry =>
    let kind := indexedScript hash160 entry.out.scriptPubKey
    let indexed := flags.fAddressIndex && decide (0<kind.addressType)
    { addressIndex := if indexed then
        [(⟨kind.addressType,kind.hashBytes,nHeight,i,txhash,j,true⟩,entry.out.nValue*(-1))] else []
      addressUnspentIndex := if indexed then
        [(⟨kind.addressType,kind.hashBytes,prevout.hash,prevout.n⟩,.null)] else []
      spentIndex := if flags.fSpentIndex then
        [(⟨prevout.hash,prevout.n⟩,
          ⟨txhash,j,nHeight,entry.out.nValue,kind.addressType,kind.hashBytes⟩)] else [] }
  | .create i txhash k out =>
    let kind := indexedScript hash160 out.scriptPubKey
    let indexed := flags.fAddressIndex && decide (0<kind.addressType)
    { addressIndex := if indexed then
        [(⟨kind.addressType,kind.hashBytes,nHeight,i,txhash,k,false⟩,out.nValue)] else []
      addressUnspentIndex := if indexed then
        [(⟨kind.addressType,kind.hashBytes,txhash,k⟩,⟨out.nValue,out.scriptPubKey,nHeight⟩)]
        else [] }

/-- Entries of a pass. An input that spent a pay-to-key output is treated like an output of its own
transaction. -/
def disconnectBatches : IndexEvent → IndexBatches
  | .spend i txhash j prevout entry =>
    let spentIndex := if flags.fSpentIndex then [(⟨prevout.hash,prevout.n⟩,.null)] else []
    if flags.fAddressIndex then
      match indexedScript hash160 entry.out.scriptPubKey with
      | .scriptHash hashBytes =>
        { addressIndex := [(⟨2,hashBytes,nHeight,i,txhash,j,true⟩,entry.out.nValue*(-1))]
          addressUnspentIndex := [(⟨2,hashBytes,prevout.hash,prevout.n⟩,
            ⟨entry.out.nValue,entry.out.scriptPubKey,entry.nHeight⟩)]
          spentIndex := spentIndex }
      | .pubKeyHash hashBytes =>
        { addressIndex := [(⟨1,hashBytes,nHeight,i,txhash,j,true⟩,entry.out.nValue*(-1))]
          addressUnspentIndex := [(⟨1,hashBytes,prevout.hash,prevout.n⟩,
            ⟨entry.out.nValue,entry.out.scriptPubKey,entry.nHeight⟩)]
          spentIndex := spentIndex }
      | .pubKey hashBytes =>
        { addressIndex := [(⟨1,hashBytes,nHeight,i,txhash,j,false⟩,entry.out.nValue)]
          addressUnspentIndex := [(⟨1,hashBytes,txhash,j⟩,.null)]
          spentIndex := spentIndex }
      | .other => { spentIndex := spentIndex }
    else { spentIndex := spentIndex }
  | .create i txhash k out =>
    let kind := indexedScript hash160 out.scriptPubKey
    let indexed := flags.fAddressIndex && decide (0<kind.addressType)
    { addressIndex := if indexed then
        [(⟨kind.addressType,kind.hashBytes,nHeight,i,txhash,k,false⟩,out.nValue)] else []
      addressUnspentIndex := if indexed then
        [(⟨kind.addressType,kind.hashBytes,txhash,k⟩,.null)] else [] }

end Entries

/-- Coin of an outpoint, or a cleared one. -/
def accessCoin (view : CoinsView) (outpoint : COutPoint) : Coin :=
  (view.find outpoint).getD ⟨CTxOut.null,false,0⟩

/-- Passes over the inputs of a transaction. -/
def spendEvents (i : ℕ) (view : CoinsView) (tx : CTransaction) : List IndexEvent :=
  (spentInputs tx).zipIdx.map (fun entry =>
    .spend i tx.hash entry.2 entry.1.prevout (accessCoin view entry.1.prevout))

/-- Passes over the outputs of a transaction. -/
def createEvents (i : ℕ) (tx : CTransaction) : List IndexEvent :=
  tx.vout.zipIdx.map (fun entry => .create i tx.hash entry.2 entry.1)

/-- Passes over a transaction. -/
def txEvents (i : ℕ) (view : CoinsView) (tx : CTransaction) : List IndexEvent :=
  spendEvents i view tx++createEvents i tx

/-- What going over the transactions of a block gives. -/
structure ConnectedTxs where
  view : CoinsView
  vtxundo : List (List Coin)
  events : List IndexEvent

/-- Go over transactions counted from a position on. -/
def connectBlockTxs (nHeight : ℕ) : ℕ → CoinsView → List CTransaction → Checked ConnectedTxs
  | _,view,[] => .ok ⟨view,[],[]⟩
  | i,view,tx::vtx => do
    let result ← connectTx nHeight view tx
    let rest ← connectBlockTxs nHeight (i+1) result.2 vtx
    .ok ⟨rest.view,result.1::rest.vtxundo,txEvents i view tx++rest.events⟩

/-- Checks of a block on its own that its indexes rely on. -/
def checkBlock (block : CBlock) : Checked Unit :=
  match block.vtx with
  | [] => rejectBlock 100 .invalid "bad-blk-length"
  | coinbase::vtx =>
    if !coinbase.isCoinBase then rejectBlock 100 .invalid "bad-cb-missing"
    else if vtx.any CTransaction.isCoinBase then rejectBlock 100 .invalid "bad-cb-multiple"
    else if block.vtx.any (fun tx => tx.vout.any (fun out => out.nValue<0)) then
      rejectBlock 100 .invalid "bad-txns-vout-negative"
    else .ok ()

structure ConnectedBlock where
  view : CoinsView
  vtxundo : List (List Coin)
  db : CBlockTreeDB

variable (hash160 : List UInt8 → ℕ) (flags : IndexFlags) (nHeight : ℕ)

variable (db : CBlockTreeDB)

/-- Write the entries of a connected block. -/
def writeIndexes (block : CBlock) (events : List IndexEvent) : CBlockTreeDB :=
  let batches := events.map (connectBatches hash160 flags nHeight)
  let db := if flags.fAddressIndex then
      (db.writeAddressIndex (batches.flatMap IndexBatches.addressIndex)).updateAddressUnspentIndex
        (batches.flatMap IndexBatches.addressUnspentIndex)
    else db
  let db := if flags.fSpentIndex then
      db.updateSpentIndex (batches.flatMap IndexBatches.spentIndex) else db
  if flags.fTimestampIndex then db.writeTimestampIndex ⟨block.nTime,block.hash⟩ else db

def connectBlock (view : CoinsView) (block : CBlock) : Checked ConnectedBlock := do
  checkBlock block
  let connected ← connectBlockTxs nHeight 0 view block.vtx
  .ok ⟨connected.view,connected.vtxundo.drop 1,writeIndexes hash160 flags nHeight db block
    connected.events⟩

/-- First unspent output of a transaction. -/
def accessByTxid (view : CoinsView) (txid : Uint256) : Option Coin :=
  (view.entries.find? (fun entry => entry.1.hash=txid)).map Prod.snd

/-- Restore a spent coin, and say whether its place was free. A missing height comes from another
output. -/
def applyTxInUndo (undo : Coin) (view : CoinsView) (out : COutPoint) : Option (Bool×CoinsView) :=
  let fClean := !view.contains out
  if undo.nHeight=0 then
    match accessByTxid view out.hash with
    | none => none
    | some alternate => some (fClean,addCoin view out
        ⟨undo.out,alternate.fCoinBase,alternate.nHeight⟩)
  else some (fClean,addCoin view out undo)

/-- A node while it disconnects a block. -/
structure DisconnectState where
  fClean : Bool := true
  view : CoinsView
  events : List IndexEvent := []

/-- Spend an output of the block again and compare it with the coin. -/
def removeOutput (tx : CTransaction) (st : DisconnectState) (output : CTxOut×ℕ) :
    DisconnectState :=
  if isUnspendable output.1.scriptPubKey then st
  else
    match spendCoin st.view ⟨tx.hash,output.2⟩ with
    | none => { st with fClean := false }
    | some spent => { st with
        fClean := st.fClean &&
          decide (output.1=spent.1.out ∧ nHeight=spent.1.nHeight ∧ tx.isCoinBase=spent.1.fCoinBase)
        view := spent.2 }

def restoreInput (i : ℕ) (tx : CTransaction) (st : DisconnectState)
    (input : (CTxIn×Coin)×ℕ) : Option DisconnectState :=
  match applyTxInUndo input.1.2 st.view input.1.1.prevout with
  | none => none
  | some restored => some
      { fClean := st.fClean && restored.1
        view := restored.2
        events := st.events++[.spend i tx.hash input.2 input.1.1.prevout
          { accessCoin restored.2 input.1.1.prevout with nHeight := input.1.2.nHeight }] }

/-- Undo a transaction: outputs first, then inputs, both from the last one on. -/
def disconnectTx (vtxundo : List (List Coin)) (st : DisconnectState)
    (position : CTransaction×ℕ) : Option DisconnectState :=
  let tx := position.1
  let i := position.2
  let st := { st with events := st.events++(createEvents i tx).reverse }
  let st := tx.vout.zipIdx.foldl (removeOutput nHeight tx) st
  if i=0 then some st
  else
    match vtxundo[i-1]? with
    | none => none
    | some vprevout =>
      if vprevout.length≠tx.vin.length then none
      else (tx.vin.zip vprevout).zipIdx.reverse.foldlM (restoreInput i tx) st

structure DisconnectedBlock where
  fClean : Bool
  view : CoinsView
  db : CBlockTreeDB

/-- Take back the entries of a disconnected block, of the address indexes only. -/
def undoIndexes (events : List IndexEvent) : CBlockTreeDB :=
  let batches := events.map (disconnectBatches hash160 flags nHeight)
  if flags.fAddressIndex then
    (db.eraseAddressIndex (batches.flatMap IndexBatches.addressIndex)).updateAddressUnspentIndex
      (batches.flatMap IndexBatches.addressUnspentIndex)
  else db

/-- Disconnect the block at a height; no result means that it failed. -/
def disconnectBlock (connected : ConnectedBlock) (block : CBlock) : Option DisconnectedBlock :=
  if connected.vtxundo.length+1≠block.vtx.length then none
  else do
    let st ← block.vtx.zipIdx.reverse.foldlM (disconnectTx nHeight connected.vtxundo)
      { view := connected.view }
    some ⟨st.fClean,st.view,undoIndexes hash160 flags nHeight connected.db st.events⟩

end Pyrk.BlockIndexes
