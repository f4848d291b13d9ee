import Pyrk.UndoData
import Pyrk.ProofOfWork
import Pyrk.OrderedMap
import Pyrk.ExceptRules

/-!
# Compact blocks

A compact block holds a header, a few whole transactions with their positions, and six bytes of a
keyed hash of every other one. The receiver looks for these and asks for the rest.
-/

namespace Pyrk.CompactBlock

open Transaction ByteReader UndoData ProofOfWork

/-- A transaction without inputs and outputs counts as null. -/
def isNullTx (tx : CTransaction) : Bool := tx.vin.isEmpty && tx.vout.isEmpty

/-- A header without a target counts as null. -/
def isNullHeader (header : CBlockHeader) : Bool := header.nBits=0

def nullHeader : CBlockHeader := { nVersion := 0, nTime := 0, nBits := 0 }

/-- A block with its header. -/
structure CBlock where
  header : CBlockHeader
  vtx : List CTransaction

/-- A whole transaction in a compact block. -/
structure PrefilledTransaction where
  index : UInt16
  tx : CTransaction

structure CBlockHeaderAndShortTxIDs where
  header : CBlockHeader
  nonce : ℕ
  /-- Short hashes of the other transactions, in order. -/
  shorttxids : List ℕ
  prefilledtxn : List PrefilledTransaction

structure ShortHashes where
  /-- Both halves of the key, a hash over the header and the nonce. -/
  selector : CBlockHeader → ℕ → ℕ×ℕ
  sipHash : ℕ → ℕ → Uint256 → ℕ

/-- What the receiver makes of a compact block. -/
inductive ReadStatus where
  | ok
  | invalid
  | failed
  | checkBlockFailed
  deriving DecidableEq

/-- How the code can go wrong other than by returning a status. -/
inductive Fault where
  | assertion
  | outOfRange
  | nullReference
  /-- The steps that were allowed for a loop are used up. -/
  | endless
  deriving DecidableEq

/-- Code that may go wrong. -/
abbrev Run := Except Fault

/-- Bytes of an empty transaction. -/
def minTransactionSize : ℕ := 10

section ShortIds

variable (hashes : ShortHashes)

variable (cmpctblock : CBlockHeaderAndShortTxIDs)

/-- Short hash of a transaction. -/
def getShortID (txhash : Uint256) : ℕ :=
  let key := hashes.selector cmpctblock.header cmpctblock.nonce
  hashes.sipHash key.1 key.2 txhash%2^48

/-- Number of transactions of the block. -/
def blockTxCount : ℕ :=
  cmpctblock.shorttxids.length+cmpctblock.prefilledtxn.length

/-- Compact block with the coinbase as the only whole transaction. Without transactions the
constructor throws. -/
def compactBlock (nonce : ℕ) (block : CBlock) : Option CBlockHeaderAndShortTxIDs :=
  match block.vtx with
  | [] => none
  | coinbase::others =>
    let empty : CBlockHeaderAndShortTxIDs := ⟨block.header,nonce,[],[⟨0,coinbase⟩]⟩
    some { empty with shorttxids := others.map (fun tx => getShortID hashes empty tx.hash) }

end ShortIds

section Messages

/-- Code of transactions. -/
structure TxCoding where
  writeTx : CTransaction → List UInt8
  readTx : Reader CTransaction

def writeHeader (header : CBlockHeader) : List UInt8 :=
  leBytes 4 header.nVersion.toNat++(leBytes 32 header.hashPrevBlock++
    (leBytes 32 header.hashMerkleRoot++(leBytes 4 header.nTime.toNat++
      (leBytes 4 header.nBits.toNat++leBytes 4 header.nNonce.toNat))))

def readHeader : Reader CBlockHeader := do
  let nVersion ← readNumber 4
  let hashPrevBlock ← readNumber 32
  let hashMerkleRoot ← readNumber 32
  let nTime ← readNumber 4
  let nBits ← readNumber 4
  let nNonce ← readNumber 4
  pure ⟨BitVec.ofNat 32 nVersion,hashPrevBlock,hashMerkleRoot,UInt32.ofNat nTime,
    UInt32.ofNat nBits,UInt32.ofNat nNonce⟩

/-- Bytes of a short hash, the lower four and then the upper two. -/
def writeShortId (shortid : ℕ) : List UInt8 :=
  leBytes 4 (shortid%2^32)++leBytes 2 (shortid/2^32%2^16)

def readShortId : Reader ℕ := do
  let lsb ← readNumber 4
  let msb ← readNumber 2
  pure (msb*2^32+lsb)

variable (coding : TxCoding)

/-- Bytes of a whole transaction. -/
def writePrefilled (prefilled : PrefilledTransaction) : List UInt8 :=
  writeCompactSize prefilled.index.toNat++coding.writeTx prefilled.tx

/-- Read a whole transaction. Its index lies on sixteen bits. -/
def readPrefilled : Reader PrefilledTransaction := do
  let idx ← readCompactSize
  if 0xffff < idx then failure
  else do
    let tx ← coding.readTx
    pure ⟨UInt16.ofNat idx,tx⟩

def writeCompactBlock (cmpctblock : CBlockHeaderAndShortTxIDs) : List UInt8 :=
  writeHeader cmpctblock.header++(leBytes 8 cmpctblock.nonce++
    (writeCompactSize cmpctblock.shorttxids.length++(cmpctblock.shorttxids.flatMap writeShortId++
        (writeCompactSize cmpctblock.prefilledtxn.length++
          cmpctblock.prefilledtxn.flatMap (writePrefilled coding)))))

def readCompactBlock : Reader CBlockHeaderAndShortTxIDs := do
  let header ← readHeader
  let nonce ← readNumber 8
  let shorttxids_size ← readCompactSize
  let shorttxids ← readMany readShortId shorttxids_size
  let prefilledtxn_size ← readCompactSize
  let prefilledtxn ← readMany (readPrefilled coding) prefilledtxn_size
  pure ⟨header,nonce,shorttxids,prefilledtxn⟩

end Messages

section Vectors

variable {α : Type}

/-- Read a vector at an index. -/
def vectorAt (vector : List α) (index : ℕ) : Run α :=
  match vector[index]? with
  | some value => .ok value
  | none => .error .outOfRange

/-- Write a vector at an index. -/
def vectorSet (vector : List α) (index : ℕ) (value : α) : Run (List α) :=
  if index<vector.length then .ok (vector.set index value) else .error .outOfRange

end Vectors

/-- A block that is being put together. -/
structure PartiallyDownloadedBlock where
  /-- Transactions that are there, at their positions. -/
  txn_available : List (Option CTransaction) := []
  prefilled_count : ℕ := 0
  mempool_count : ℕ := 0
  /-- Those of them that were found outside the pool. -/
  extra_count : ℕ := 0
  header : CBlockHeader := nullHeader

/-- Counters lie on 64 bits. -/
def decrement (count : ℕ) : ℕ := (count+(2^64-1))%2^64

/-- Put whole transactions in place, or say that the message is wrong, with one more than the last
position and the number of them. -/
def placePrefilled (shortCount : ℕ) : ℕ → ℕ → List (Option CTransaction) →
    List PrefilledTransaction → Run (Bool×List (Option CTransaction))
  | _,_,txn_available,[] => .ok (true,txn_available)
  | next,i,txn_available,prefilled::prefilledtxn =>
    if isNullTx prefilled.tx then .ok (false,txn_available)
    else
      let lastprefilledindex := next+prefilled.index.toNat
      if 0xffff<lastprefilledindex then .ok (false,txn_available)
      else if shortCount+i<lastprefilledindex then .ok (false,txn_available)
      else do
        let txn_available ← vectorSet txn_available lastprefilledindex (some prefilled.tx)
        placePrefilled shortCount (lastprefilledindex+1) (i+1) txn_available prefilledtxn

/-- Skip positions that are taken. The offset lies on sixteen bits. -/
def skipAvailable (txn_available : List (Option CTransaction)) (i : ℕ) : ℕ → ℕ → Run ℕ
  | 0,_ => .error .endless
  | fuel+1,index_offset => do
    let slot ← vectorAt txn_available (i+index_offset)
    if slot.isSome then skipAvailable txn_available i fuel ((index_offset+1)%2^16)
    else .ok index_offset

/-- Position of each short hash. -/
abbrev ShortIdTable := OrderedMap ℕ ℕ

/-- Short hashes of the table that share a bucket with one of them. -/
def bucketSize (bucket : ℕ → ℕ) (table : ShortIdTable) (shortid : ℕ) : ℕ :=
  table.entries.countP (fun entry => bucket entry.1=bucket shortid)

/-- Give each short hash the next free position, on sixteen bits. -/
def assignPositions (bucket : ℕ → ℕ) (fuel : ℕ) (txn_available : List (Option CTransaction)) :
    ℕ → ℕ → ShortIdTable → List ℕ → Run (Bool×ShortIdTable)
  | _,_,table,[] => .ok (true,table)
  | i,index_offset,table,shortid::shorttxids => do
    let index_offset ← skipAvailable txn_available i fuel index_offset
    let table := table.set shortid ((i+index_offset)%2^16)
    if 12<bucketSize bucket table shortid then .ok (false,table)
    else assignPositions bucket fuel txn_available (i+1) index_offset table shorttxids

/-- What the search among known transactions changes. -/
structure Search where
  block : PartiallyDownloadedBlock
  /-- Positions for which a transaction was found before. -/
  have_txn : List Bool

/-- Take a transaction for its position. -/
def takeTxn (search : Search) (position : ℕ) (tx : Option CTransaction)
    (extra : ℕ) : Run Search := do
  let txn_available ← vectorSet search.block.txn_available position tx
  let have_txn ← vectorSet search.have_txn position true
  .ok ⟨{ search.block with
    txn_available := txn_available
    mempool_count := search.block.mempool_count+1
    extra_count := search.block.extra_count+extra },have_txn⟩

/-- Give up a position for which two transactions were found. -/
def dropTxn (search : Search) (position extra : ℕ) : Run Search := do
  let txn_available ← vectorSet search.block.txn_available position none
  .ok { search with block := { search.block with
    txn_available := txn_available
    mempool_count := decrement search.block.mempool_count
    extra_count := if extra=0 then search.block.extra_count else decrement
      search.block.extra_count } }

/-- A transaction of the pool that may be one of the block. -/
def matchMempool (table : ShortIdTable) (search : Search) (shortid : ℕ) (tx : CTransaction) :
    Run Search :=
  match table.find shortid with
  | none => .ok search
  | some position => do
    let found ← vectorAt search.have_txn position
    if !found then takeTxn search position (some tx) 0
    else
      let slot ← vectorAt search.block.txn_available position
      if slot.isSome then dropTxn search position 0 else .ok search

/-- An extra transaction that may be one of the block, or a null pointer. -/
def matchExtra (table : ShortIdTable) (search : Search) (shortid : ℕ) (tx : Option CTransaction) :
    Run Search :=
  match table.find shortid with
  | none => .ok search
  | some position => do
    let found ← vectorAt search.have_txn position
    if !found then takeTxn search position tx 1
    else
      let slot ← vectorAt search.block.txn_available position
      match slot,tx with
      | none,_ => .ok search
      | some _,none => .error .nullReference
      | some present,some tx =>
        if present.hash≠tx.hash then dropTxn search position 1 else .ok search

/-- Go through known transactions until there is one for every short hash. -/
def searchAll {α : Type} (table : ShortIdTable) (visit : Search → α → Run Search) :
    Search → List α → Run Search
  | search,[] => .ok search
  | search,known::others => do
    let search ← visit search known
    if search.block.mempool_count=table.size then .ok search
    else searchAll table visit search others

/-- Result of reading a compact block, with the table of the positions. -/
structure InitResult where
  status : ReadStatus
  block : PartiallyDownloadedBlock
  shorttxids : ShortIdTable

section InitData

variable (hashes : ShortHashes) (bucket : ℕ → ℕ → ℕ) (fuel : ℕ)

variable (cmpctblock : CBlockHeaderAndShortTxIDs)

/-- Look for the transactions of the block in the pool and among the extra ones. -/
def searchKnown (vTxHashes : List CTransaction)
    (extra_txn : List (Uint256×Option CTransaction)) (table : ShortIdTable)
    (block : PartiallyDownloadedBlock) : Run Search := do
  let search ← searchAll table
    (fun search tx => matchMempool table search (getShortID hashes cmpctblock tx.hash) tx)
    ⟨block,List.replicate block.txn_available.length false⟩ vTxHashes
  searchAll table
    (fun search entry => matchExtra table search (getShortID hashes cmpctblock entry.1) entry.2)
    search extra_txn

/-- Assign the positions that are free and look for transactions. -/
def initSearch (vTxHashes : List CTransaction)
    (extra_txn : List (Uint256×Option CTransaction)) (block : PartiallyDownloadedBlock) :
    Run InitResult := do
  let assigned ← assignPositions (bucket cmpctblock.shorttxids.length) fuel block.txn_available
    0 0 .empty cmpctblock.shorttxids
  if !assigned.1 then .ok ⟨.failed,block,assigned.2⟩
  else if assigned.2.size≠cmpctblock.shorttxids.length then .ok ⟨.failed,block,assigned.2⟩
  else do
    let search ← searchKnown hashes cmpctblock vTxHashes extra_txn assigned.2 block
    .ok ⟨.ok,search.block,assigned.2⟩

/-- Read a compact block. -/
def initData (partialBlock : PartiallyDownloadedBlock) (cmpctblock : CBlockHeaderAndShortTxIDs)
    (vTxHashes : List CTransaction) (extra_txn : List (Uint256×Option CTransaction)) :
    Run InitResult :=
  if isNullHeader cmpctblock.header ||
      (cmpctblock.shorttxids.isEmpty && cmpctblock.prefilledtxn.isEmpty) then
    .ok ⟨.invalid,partialBlock,.empty⟩
  else if maxBlockSize/minTransactionSize<blockTxCount cmpctblock then
    .ok ⟨.invalid,partialBlock,.empty⟩
  else if !(isNullHeader partialBlock.header && partialBlock.txn_available.isEmpty) then
    .error .assertion
  else do
    let placed ← placePrefilled cmpctblock.shorttxids.length 0 0
      (List.replicate (blockTxCount cmpctblock) none) cmpctblock.prefilledtxn
    let block := { partialBlock with header := cmpctblock.header, txn_available := placed.2 }
    if !placed.1 then .ok ⟨.invalid,block,.empty⟩
    else
      initSearch hashes bucket fuel cmpctblock vTxHashes extra_txn
        { block with prefilled_count := cmpctblock.prefilledtxn.length }

end InitData

/-- Whether a position of the block is filled. -/
def isTxAvailable (block : PartiallyDownloadedBlock) (index : ℕ) : Run Bool :=
  if isNullHeader block.header then .error .assertion
  else
    match block.txn_available[index]? with
    | none => .error .assertion
    | some slot => .ok slot.isSome

/-- Fill the positions in order; the rest of the missing transactions stays. -/
def fillSlots : List (Option CTransaction) → List CTransaction →
    Option (List CTransaction×List CTransaction)
  | [],vtx_missing => some ([],vtx_missing)
  | some tx::slots,vtx_missing =>
    (fillSlots slots vtx_missing).map (fun filled => (tx::filled.1,filled.2))
  | none::_,[] => none
  | none::slots,tx::vtx_missing =>
    (fillSlots slots vtx_missing).map (fun filled => (tx::filled.1,filled.2))

/-- What the check of a whole block says. -/
inductive BlockCheck where
  | accepted
  | corrupted
  | rejected
  deriving DecidableEq

/-- Put in the transactions that were asked for. -/
def fillBlock (checkBlock : CBlock → BlockCheck) (block : PartiallyDownloadedBlock)
    (vtx_missing : List CTransaction) : Run (ReadStatus×Option CBlock) :=
  if isNullHeader block.header then .error .assertion
  else
    match fillSlots block.txn_available vtx_missing with
    | none => .ok (.invalid,none)
    | some (vtx,left) =>
      if left≠[] then .ok (.invalid,some ⟨block.header,vtx⟩)
      else
        match checkBlock ⟨block.header,vtx⟩ with
        | .accepted => .ok (.ok,some ⟨block.header,vtx⟩)
        | .corrupted => .ok (.failed,some ⟨block.header,vtx⟩)
        | .rejected => .ok (.checkBlockFailed,some ⟨block.header,vtx⟩)

end Pyrk.CompactBlock
