import Pyrk.CompactSearch

/-!
# Blocks sent as compact blocks

What the receiver knows and asks for makes up the block again, unless other transactions have the
same short hashes or too many of them share a bucket.
-/

namespace Pyrk.CompactRoundTrip

open List

open Transaction hiding CBlock
open ByteReader UndoData ProofOfWork CompactBlock CompactPositions

section Reading

variable {coding : TxCoding}

/-- Hashes in a header lie on 256 bits. -/
structure HeaderFits (header : CBlockHeader) : Prop where
  prev : header.hashPrevBlock<2^256
  root : header.hashMerkleRoot<2^256

theorem reads_readHeader {header : CBlockHeader} (hfits : HeaderFits header) :
    Reads readHeader (writeHeader header) header := by
  have hver : header.nVersion.toNat<256^4 := header.nVersion.isLt
  have htime : header.nTime.toNat<256^4 := header.nTime.toNat_lt
  have hbits : header.nBits.toNat<256^4 := header.nBits.toNat_lt
  have hnonce : header.nNonce.toNat<256^4 := header.nNonce.toNat_lt
  refine (reads_readNumber hver).bind ?_
  refine (reads_readNumber hfits.prev).bind ?_
  refine (reads_readNumber hfits.root).bind ?_
  refine (reads_readNumber htime).bind ?_
  refine (reads_readNumber hbits).bind ?_
  refine (reads_readNumber hnonce).map ?_
  rw [BitVec.ofNat_toNat,BitVec.setWidth_eq,UInt32.ofNat_toNat,UInt32.ofNat_toNat,
    UInt32.ofNat_toNat]
  exact reads_pure header

theorem reads_readShortId {shortid : ℕ} (hlt : shortid<2^48) :
    Reads readShortId (writeShortId shortid) shortid := by
  have hlow : shortid%2^32<256^4 := Nat.mod_lt _ (by decide)
  have hhigh : shortid/2^32%2^16<256^2 := Nat.mod_lt _ (by decide)
  refine (reads_readNumber hlow).bind ((reads_readNumber hhigh).map ?_)
  have he : shortid/2^32%2^16*2^32+shortid%2^32=shortid := by omega
  rw [he]
  exact reads_pure shortid

theorem reads_readPrefilled {prefilled : PrefilledTransaction}
    (htx : Reads coding.readTx (coding.writeTx prefilled.tx) prefilled.tx) :
    Reads (readPrefilled coding) (writePrefilled coding prefilled) prefilled := by
  have hlt : prefilled.index.toNat<2^16 := prefilled.index.toNat_lt
  have hmax : maxSize=0x02000000 := rfl
  refine (reads_readCompactSize (by omega)).bind ?_
  rw [if_neg (by omega),UInt16.ofNat_toNat]
  exact htx.map (reads_pure prefilled)

theorem reads_readCompactBlock {msg : CBlockHeaderAndShortTxIDs}
    (hheader : HeaderFits msg.header) (hnonce : msg.nonce<2^64)
    (hids : ∀ shortid∈msg.shorttxids, shortid<2^48)
    (hshort : msg.shorttxids.length ≤ maxSize)
    (hwhole : msg.prefilledtxn.length ≤ maxSize)
    (htx : ∀ prefilled∈msg.prefilledtxn,
      Reads coding.readTx (coding.writeTx prefilled.tx) prefilled.tx) :
    Reads (readCompactBlock coding) (writeCompactBlock coding msg) msg := by
  have hnumber : msg.nonce<256^8 := hnonce
  refine (reads_readHeader hheader).bind ?_
  refine (reads_readNumber hnumber).bind ?_
  refine (reads_readCompactSize hshort).bind ?_
  refine (reads_readMany (fun shortid hm => reads_readShortId (hids shortid hm))).bind ?_
  refine (reads_readCompactSize hwhole).bind ?_
  exact (reads_readMany (fun prefilled hm => reads_readPrefilled (htx prefilled hm))).map
    (reads_pure msg)

end Reading

section Filling

/-- Positions that are reported as not available, in order. -/
def requested (block : PartiallyDownloadedBlock) : List ℕ :=
  (List.range block.txn_available.length).filter (fun index =>
    (isTxAvailable block index).toOption=some false)

/-- The transactions of the block at these positions. -/
def supplied (block : PartiallyDownloadedBlock) (vtx : List CTransaction) : List CTransaction :=
  (requested block).filterMap (fun index => vtx[index]?)

/-- Transactions for the empty slots. -/
def missingFrom : List (Option CTransaction) → List CTransaction → List CTransaction
  | none::slots,tx::vtx => tx::missingFrom slots vtx
  | some _::slots,_::vtx => missingFrom slots vtx
  | _,_ => []

/-- Slots that hold transactions of the block at their positions. -/
def AgreesWith (slots : List (Option CTransaction)) (vtx : List CTransaction) : Prop :=
  slots.length=vtx.length ∧ ∀ (index : ℕ) (tx : CTransaction),
    slots[index]?=some (some tx) → vtx[index]?=some tx

variable {slots : List (Option CTransaction)} {vtx : List CTransaction}

theorem agreesWith_cons {slot : Option CTransaction}
    {tx : CTransaction} (h : AgreesWith (slot::slots) (tx::vtx)) :
    (∀ present, slot=some present → present=tx) ∧ AgreesWith slots vtx := by
  obtain ⟨hlen,hslots⟩ := h
  refine ⟨fun present hp => ?_,Nat.succ.inj hlen,fun index other hi => hslots (index+1) other hi⟩
  subst hp
  exact (Option.some.inj (hslots 0 present rfl)).symm

theorem fillSlots_missing
    (h : AgreesWith slots vtx) : fillSlots slots (missingFrom slots vtx)=some (vtx,[]) := by
  induction slots generalizing vtx with
  | nil =>
    have hnil := eq_nil_of_length_eq_zero h.1.symm
    rw [hnil]
    rfl
  | cons slot slots ih =>
    cases vtx with
    | nil => cases h.1
    | cons tx vtx =>
      obtain ⟨hslot,hrest⟩ := agreesWith_cons h
      cases slot with
      | none =>
        rw [missingFrom,fillSlots,ih hrest]
        rfl
      | some present =>
        rw [missingFrom,fillSlots,ih hrest,hslot present rfl]
        rfl

theorem length_of_fillSlots {vtx_missing vtx left}
    (h : fillSlots slots vtx_missing=some (vtx,left)) :
    vtx_missing.length=slots.countP Option.isNone+left.length := by
  induction slots generalizing vtx_missing vtx with
  | nil =>
    cases h
    exact (Nat.zero_add _).symm
  | cons slot slots ih =>
    cases slot with
    | some tx =>
      rw [fillSlots,Option.map_eq_some_iff] at h
      grind
    | none =>
      cases vtx_missing with
      | nil => cases h
      | cons tx vtx_missing =>
        rw [fillSlots,Option.map_eq_some_iff] at h
        grind

theorem requested_eq {block : PartiallyDownloadedBlock}
    (hheader : isNullHeader block.header=false) :
    requested block=(List.range block.txn_available.length).filter (fun index =>
      block.txn_available[index]?=some none) := by
  refine filter_congr (fun index hm => ?_)
  have hlt := mem_range.mp hm
  unfold isTxAvailable
  rw [hheader,if_neg Bool.false_ne_true,getElem?_eq_getElem hlt]
  cases hslot : block.txn_available[index] with
  | none => rfl
  | some tx => rfl

theorem filter_empty (slots : List (Option CTransaction)) (vtx : List CTransaction)
    (hlen : slots.length≤vtx.length) :
    (((List.range slots.length).filter (fun index => slots[index]?=some none)).filterMap
        (fun index => vtx[index]?)=missingFrom slots vtx) ∧
      ((List.range slots.length).filter (fun index => slots[index]?=some none)).length=
        slots.countP Option.isNone := by
  induction slots generalizing vtx with
  | nil => exact ⟨rfl,rfl⟩
  | cons slot slots ih =>
    cases vtx with
    | nil => cases hlen
    | cons tx vtx =>
      obtain ⟨hmissing,hcount⟩ := ih vtx (Nat.le_of_succ_le_succ hlen)
      have htail : ((range slots.length).map Nat.succ).filter
          (fun index => decide ((slot::slots)[index]?=some none))=
          ((range slots.length).filter (fun index => slots[index]?=some none)).map Nat.succ := by
        rw [filter_map]
        rfl
      rw [length_cons,range_succ_eq_map]
      cases slot with
      | none =>
        rw [filter_cons_of_pos (by rfl),htail,filterMap_cons,filterMap_map]
        constructor
        · exact congrArg (cons tx) hmissing
        · rw [length_cons,length_map,hcount,countP_cons_of_pos rfl]
      | some present =>
        rw [filter_cons_of_neg (by exact Bool.false_ne_true),htail,filterMap_map]
        constructor
        · exact hmissing
        · rw [length_map,hcount,countP_cons_of_neg (by exact Bool.false_ne_true)]

variable (checkBlock : CBlock → BlockCheck)

theorem fillBlock_supplied {block : PartiallyDownloadedBlock}
    (hheader : isNullHeader block.header=false)
    (h : AgreesWith block.txn_available vtx) :
    ∃ status, fillBlock checkBlock block (supplied block vtx)=
        .ok (status,some ⟨block.header,vtx⟩) ∧
      (checkBlock ⟨block.header,vtx⟩=.accepted → status=.ok) := by
  have hsupplied : supplied block vtx=missingFrom block.txn_available vtx := by
    rw [supplied,requested_eq hheader]
    exact (filter_empty block.txn_available vtx (Nat.le_of_eq h.1)).1
  rw [fillBlock,hheader,if_neg Bool.false_ne_true,hsupplied,fillSlots_missing h]
  simp only [ne_eq,not_true_eq_false,if_false]
  cases checkBlock ⟨block.header,vtx⟩ with
  | accepted => exact ⟨.ok,rfl,fun _ => rfl⟩
  | corrupted => exact ⟨.failed,rfl,fun hc => by cases hc⟩
  | rejected => exact ⟨.checkBlockFailed,rfl,fun hc => by cases hc⟩

theorem fillBlock_other {block : PartiallyDownloadedBlock}
    (hheader : isNullHeader block.header=false) {vtx_missing : List CTransaction}
    (hlen : vtx_missing.length≠(requested block).length) :
    ∃ filled, fillBlock checkBlock block vtx_missing=.ok (.invalid,filled) := by
  rw [fillBlock,hheader,if_neg Bool.false_ne_true]
  cases hfill : fillSlots block.txn_available vtx_missing with
  | none => exact ⟨none,rfl⟩
  | some filled =>
    obtain ⟨vtx,left⟩ := filled
    have hcount := length_of_fillSlots hfill
    have hreq : (requested block).length=block.txn_available.countP Option.isNone := by
      have hsame := (filter_empty block.txn_available
        (replicate block.txn_available.length ⟨2,.normal,[],[],.empty,0,fun _ => rfl⟩)
        (by rw [length_replicate])).2
      rw [requested_eq hheader]
      exact hsame
    have hleft : left≠[] := by
      intro hnil
      rw [hnil,length_nil] at hcount
      omega
    simp only [ne_eq,hleft,not_false_eq_true,if_true]
    exact ⟨_,rfl⟩

end Filling

section Sending

variable (hashes : ShortHashes) (bucket : ℕ → ℕ → ℕ) (coding : TxCoding) (nonce : ℕ)
variable (block : CBlock) (vTxHashes : List CTransaction) (extra : List (Option CTransaction))

/-- The block is put together from known transactions and those that are asked for, and other
numbers of transactions are refused. -/
def RoundTrips : Prop :=
  ∃ sent received fuel result, compactBlock hashes nonce block=some sent ∧
    (readCompactBlock coding).run (writeCompactBlock coding sent)=some (received,[]) ∧
    initData hashes bucket fuel {} received vTxHashes (extraEntries extra)=.ok result ∧
    result.status=.ok ∧ ∀ checkBlock : CBlock → BlockCheck,
      (∃ status, fillBlock checkBlock result.block (supplied result.block block.vtx)=
          .ok (status,some block) ∧ (checkBlock block=.accepted → status=.ok)) ∧
        ∀ vtx_missing : List CTransaction, vtx_missing.length≠(requested result.block).length →
          ∃ filled, fillBlock checkBlock result.block vtx_missing=.ok (.invalid,filled)

/-- Short hashes of the transactions behind the coinbase. -/
def shortIds : List ℕ :=
  block.vtx.tail.map (fun tx => getShortID hashes ⟨block.header,nonce,[],[]⟩ tx.hash)

/-- The short hashes are all different and no other known transaction has one of
them. -/
structure Apart : Prop where
  /-- No two transactions of the block share a short hash. -/
  nodup : (shortIds hashes nonce block).Nodup
  /-- A known transaction with a short hash of the block is that transaction. -/
  alone : ∀ tx∈vTxHashes++extra.filterMap id, ∀ own∈block.vtx.tail,
    getShortID hashes ⟨block.header,nonce,[],[]⟩ tx.hash=
      getShortID hashes ⟨block.header,nonce,[],[]⟩ own.hash → tx=own
  /-- Null slots for extra transactions have none of the short hashes. -/
  null : none∈extra → getShortID hashes ⟨block.header,nonce,[],[]⟩ 0∉shortIds hashes nonce block

/-- A block with a header and a coinbase, of a size whose positions lie on sixteen
bits. -/
structure Sendable : Prop where
  target : isNullHeader block.header=false
  fits : HeaderFits block.header
  coinbase : ∃ tx, block.vtx.head?=some tx ∧ isNullTx tx=false
  size : block.vtx.length≤65535

variable {hashes bucket coding nonce block vTxHashes extra}

theorem openPosition_single {msg : CBlockHeaderAndShortTxIDs} {coinbase : CTransaction}
    (hwhole : msg.prefilledtxn=[⟨0,coinbase⟩]) (rank : ℕ) :
    openPosition msg rank=rank+1 := by
  have hplaces : prefilledPositions msg=[0] := by
    rw [prefilledPositions,hwhole]
    rfl
  have hopen : IsOpen msg (rank+1) := by
    rw [CompactPositions.IsOpen,hplaces,mem_singleton]
    exact Nat.succ_ne_zero rank
  have hcount := count_open msg (rank+1)
  have htaken := @card_taken msg (rank+1) (fun position hm => by
    rw [hplaces,mem_singleton] at hm
    omega)
  rw [hwhole,length_singleton] at htaken
  have hrank : Nat.count (IsOpen msg) (rank+1)=rank := by omega
  have hnth := Nat.nth_count hopen
  rwa [hrank] at hnth

theorem agreesWith_filled {msg : CBlockHeaderAndShortTxIDs} {coinbase : CTransaction}
    {others known : List CTransaction} {slots : List (Option CTransaction)}
    {filled : PartiallyDownloadedBlock} (hwhole : msg.prefilledtxn=[⟨0,coinbase⟩])
    (hshort : msg.shorttxids=others.map (fun tx => getShortID hashes msg tx.hash))
    (halone : ∀ tx∈known, ∀ own∈others, getShortID hashes msg tx.hash=
      getShortID hashes msg own.hash → tx=own)
    (hplaced : Placed msg slots)
    (hfilled : Filled hashes msg known slots filled) :
    AgreesWith filled.txn_available (coinbase::others) := by
  have hplaces : prefilledPositions msg=[0] := by
    rw [prefilledPositions,hwhole]
    rfl
  have hcount : blockTxCount msg=others.length+1 := by
    rw [blockTxCount,hwhole,hshort,length_map,length_singleton]
  refine ⟨?_,?_⟩
  · rw [hfilled.length,hcount,length_cons]
  · intro index tx htx
    cases index with
    | zero =>
      have hzero : filled.txn_available[0]?=slots[0]? := hfilled.stay 0 (by
        rw [hplaces]
        exact mem_singleton_self 0)
      have hbase := hplaced.holds 0 ⟨0,coinbase⟩ 0 (by rw [hwhole]; rfl)
        (by rw [hplaces]; rfl)
      rw [hzero,hbase] at htx
      cases htx
      rfl
    | succ rank =>
      rw [← openPosition_single hwhole rank] at htx
      have hlt : openPosition msg rank<filled.txn_available.length :=
        (List.getElem?_eq_some_iff.mp htx).1
      rw [openPosition_single hwhole rank,hfilled.length,hcount] at hlt
      have hrank : rank<others.length := by omega
      have hown := List.getElem?_eq_getElem hrank
      have hid : msg.shorttxids[rank]?=
          some (getShortID hashes msg others[rank].hash) := by
        rw [hshort,List.getElem?_map,hown]
        rfl
      have hsame := hfilled.matching rank _ tx hid htx
      have he := halone tx (hfilled.found rank tx htx) others[rank] (getElem_mem hrank) hsame
      rw [List.getElem?_cons_succ,hown,he]

def sentBlock (hashes : ShortHashes) (nonce : ℕ) (header : CBlockHeader) (coinbase : CTransaction)
    (others : List CTransaction) : CBlockHeaderAndShortTxIDs :=
  ⟨header,nonce,shortIds hashes nonce ⟨header,coinbase::others⟩,[⟨0,coinbase⟩]⟩

variable {header : CBlockHeader} {coinbase : CTransaction} {others : List CTransaction}

theorem blockTxCount_sentBlock :
    blockTxCount (sentBlock hashes nonce header coinbase others)=others.length+1 := by
  rw [blockTxCount,sentBlock,shortIds,length_map]
  rfl

theorem reads_sentBlock (hfits : HeaderFits header) (hnonce : nonce<2^64)
    (hsize : others.length+1≤65535) (htx : Reads coding.readTx (coding.writeTx coinbase) coinbase) :
    Reads (readCompactBlock coding)
      (writeCompactBlock coding (sentBlock hashes nonce header coinbase others))
      (sentBlock hashes nonce header coinbase others) := by
  have hmax : maxSize=0x02000000 := rfl
  refine reads_readCompactBlock hfits hnonce ?_ ?_ ?_ ?_
  · intro shortid hm
    obtain ⟨tx,-,rfl⟩ := mem_map.mp hm
    exact Nat.mod_lt _ (by decide)
  · rw [sentBlock,shortIds,length_map]
    exact Nat.le_trans (Nat.le_of_succ_le hsize) (by decide)
  · exact Nat.le_trans (Nat.le_of_eq length_singleton) (by decide)
  · intro prefilled hm
    rw [mem_singleton.mp hm]
    exact htx

theorem sentBlock_fit (hnull : isNullTx coinbase=false) :
    PrefilledFit (sentBlock hashes nonce header coinbase others) := by
  refine fitFrom_cons.mpr ⟨⟨hnull,?_,Nat.zero_le _⟩,fitFrom_nil _ _ _⟩
  exact Nat.zero_le _

theorem sentBlock_entered (htarget : isNullHeader header=false) (hsize : others.length+1≤65535)
    (hnull : isNullTx coinbase=false) :
    ¬Refused (sentBlock hashes nonce header coinbase others) := by
  intro hrefused
  rcases hrefused with hheader | ⟨-,hnone⟩ | hlarge | hunfit
  · rw [sentBlock,htarget] at hheader
    cases hheader
  · cases hnone
  · rw [blockTxCount_sentBlock] at hlarge
    have hmax : maxBlockSize/minTransactionSize=200000 := rfl
    omega
  · exact hunfit (sentBlock_fit hnull)

theorem sentBlock_free : (sentBlock hashes nonce header coinbase others).prefilledtxn.length<2^16 :=
  Nat.lt_of_le_of_lt (Nat.le_of_eq length_singleton) (by decide)

/-- A block that can be sent is put together again by its receiver when its short
hashes are apart and crowd no bucket. -/
theorem roundTrips_of_apart (hashes : ShortHashes) (bucket : ℕ → ℕ → ℕ) (coding : TxCoding)
    (nonce : ℕ) (block : CBlock) (vTxHashes : List CTransaction)
    (extra : List (Option CTransaction))
    (hsend : Sendable block) (hnonce : nonce<2^64)
    (htx : ∀ tx, block.vtx.head?=some tx → Reads coding.readTx (coding.writeTx tx) tx)
    (hapart : Apart hashes nonce block vTxHashes extra)
    (hcalm : ¬Crowded bucket (shortIds hashes nonce block)) :
    RoundTrips hashes bucket coding nonce block vTxHashes extra := by
  obtain ⟨header,vtx⟩ := block
  obtain ⟨coinbase,hhead,hnull⟩ := hsend.coinbase
  cases vtx with
  | nil => cases hhead
  | cons first others =>
    cases hhead
    have hsize : others.length+1≤65535 := hsend.size
    have hread := @reads_sentBlock hashes coding nonce header coinbase others hsend.fits hnonce
      hsize (htx coinbase rfl)
    have hfit := @sentBlock_fit hashes nonce header coinbase others hnull
    obtain ⟨-,slots,hplaced,hinit⟩ := @initData_entered hashes bucket _ vTxHashes extra
      (sentBlock_entered hsend.target hsize hnull)
    obtain ⟨result,hrun,hgood⟩ := @initSearch_small hashes bucket _ vTxHashes extra slots hfit
      hplaced (Or.inl sentBlock_free) (Or.inr ⟨by rw [blockTxCount_sentBlock]; omega,
        not_followsNull hapart.null⟩)
    have hstat := (initSearch_calm hfit hplaced sentBlock_free hapart.nodup hcalm hrun).1
    obtain ⟨-,hfilled⟩ := hgood hstat
    have hagrees : AgreesWith result.block.txn_available (coinbase::others) :=
      @agreesWith_filled hashes (sentBlock hashes nonce header coinbase others) coinbase others _
        slots _ rfl rfl hapart.alone hplaced hfilled
    have htarget : isNullHeader result.block.header=false := by
      rw [hfilled.header]
      exact hsend.target
    have hsame : (⟨result.block.header,coinbase::others⟩ : CBlock)=⟨header,coinbase::others⟩ := by
      rw [hfilled.header]
      rfl
    have hwhole := hread []
    rw [append_nil] at hwhole
    refine ⟨_,_,_,result,rfl,hwhole,(hinit _).trans hrun,hstat,fun checkBlock => ⟨?_,?_⟩⟩
    · have hfill := fillBlock_supplied checkBlock htarget hagrees
      rwa [hsame] at hfill
    · exact fun vtx_missing hne => fillBlock_other checkBlock htarget hne

theorem status_of_roundTrips (hread : Reads (readCompactBlock coding)
      (writeCompactBlock coding (sentBlock hashes nonce header coinbase others))
      (sentBlock hashes nonce header coinbase others))
    (htrip : RoundTrips hashes bucket coding nonce ⟨header,coinbase::others⟩ vTxHashes extra) :
    ∃ fuel result, initData hashes bucket fuel {} (sentBlock hashes nonce header coinbase others)
      vTxHashes (extraEntries extra)=.ok result ∧ result.status=.ok := by
  obtain ⟨sent,received,fuel,result,hsent,hrecv,hinit,hstat,-⟩ := htrip
  have he : sentBlock hashes nonce header coinbase others=sent := Option.some.inj hsent
  rw [← he] at hrecv
  have hwhole := hread []
  rw [append_nil,hrecv] at hwhole
  cases hwhole
  exact ⟨fuel,result,hinit,hstat⟩

theorem not_roundTrips_of_refused (hread : Reads (readCompactBlock coding)
      (writeCompactBlock coding (sentBlock hashes nonce header coinbase others))
      (sentBlock hashes nonce header coinbase others))
    (hrefused : Refused (sentBlock hashes nonce header coinbase others)) :
    ¬RoundTrips hashes bucket coding nonce ⟨header,coinbase::others⟩ vTxHashes extra := by
  intro htrip
  obtain ⟨fuel,result,hinit,hstat⟩ := status_of_roundTrips hread htrip
  obtain ⟨refused,hrun,hinvalid⟩ := @initData_refused hashes bucket _ vTxHashes extra fuel hrefused
  rw [hrun] at hinit
  cases hinit
  rw [hinvalid] at hstat
  cases hstat

theorem not_roundTrips_of_crowded (hfits : HeaderFits header) (hnonce : nonce<2^64)
    (htx : Reads coding.readTx (coding.writeTx coinbase) coinbase)
    (htarget : isNullHeader header=false) (hsize : others.length+1≤65535)
    (hnull : isNullTx coinbase=false)
    (hnodup : (shortIds hashes nonce ⟨header,coinbase::others⟩).Nodup)
    (hcrowded : Crowded bucket (shortIds hashes nonce ⟨header,coinbase::others⟩)) :
    ¬RoundTrips hashes bucket coding nonce ⟨header,coinbase::others⟩ vTxHashes extra := by
  intro htrip
  obtain ⟨fuel,result,hinit,hstat⟩ := status_of_roundTrips
    (reads_sentBlock hfits hnonce hsize htx) htrip
  obtain ⟨hfit,slots,hplaced,hentered⟩ := @initData_entered hashes bucket _ vTxHashes extra
    (@sentBlock_entered hashes nonce _ _ _ htarget hsize hnull)
  rw [hentered] at hinit
  rw [initSearch_crowded hfit hplaced sentBlock_free hnodup hcrowded hinit] at hstat
  cases hstat

end Sending

/-- Code that has one transaction only. -/
def singleCoding (bytes : List UInt8) (tx : CTransaction) : TxCoding where
  writeTx := fun _ => bytes
  readTx := do
    let _ ← readBytes bytes.length
    pure tx

theorem reads_singleCoding (bytes : List UInt8) (tx : CTransaction) :
    Reads (singleCoding bytes tx).readTx ((singleCoding bytes tx).writeTx tx) tx :=
  (reads_readBytes bytes).map (reads_pure tx)

/-- Bytes of a transaction with one output of nothing. -/
def paymentBytes : List UInt8 := [2,0,0,0,0,1,0,0,0,0,0,0,0,0,0,0,0,0,0]

/-- Bytes of a transaction without inputs and outputs. -/
def nullBytes : List UInt8 := [2,0,0,0,0,0,0,0,0,0]

def easyHeader : CBlockHeader := { nVersion := 1, nTime := 0, nBits := 1 }

/-- A transaction with one output. -/
def payment (hash : Uint256) : CTransaction :=
  { vout := [⟨0,[]⟩], hash := hash, payload_special := CTransaction.payload_plain }

/-- Short hashes that are multiples of 13. -/
def spacedHashes : ShortHashes := ⟨fun _ _ => (0,0),fun _ _ txhash => 13*txhash⟩

/-- A block whose short hashes all leave the same remainder. -/
def crowdedBlock : CBlock := ⟨easyHeader,(List.range 14).map payment⟩

theorem easyHeader_fits : HeaderFits easyHeader := ⟨by decide,by decide⟩

/-- A block with two transactions is put together again beside a null slot. -/
theorem twoPayments_roundTrip :
    RoundTrips spacedHashes (fun count key => key%count) (singleCoding paymentBytes (payment 0)) 0
      ⟨easyHeader,[payment 0,payment 1]⟩ [payment 1] [none] := by
  refine roundTrips_of_apart _ _ _ _ _ _ _ ?_ ?_ ?_ ?_ ?_
  · exact ⟨rfl,easyHeader_fits,⟨payment 0,rfl,rfl⟩,by decide⟩
  · decide
  · intro tx htx
    cases htx
    exact reads_singleCoding _ _
  · refine ⟨by decide,?_,by decide⟩
    grind
  · unfold Crowded
    decide

/-- Short hashes that share a bucket, a header without a target, a null coinbase and a block without
transactions. -/
theorem blocks_not_roundTrip :
    (Apart spacedHashes 0 crowdedBlock [] [] ∧ ¬RoundTrips spacedHashes (fun count key => key%count)
        (singleCoding paymentBytes (payment 0)) 0 crowdedBlock [] []) ∧
    ¬RoundTrips spacedHashes (fun count key => key%count) (singleCoding paymentBytes (payment 0)) 0
      ⟨nullHeader,[payment 0]⟩ [] [] ∧
    ¬RoundTrips spacedHashes (fun count key => key%count) (singleCoding nullBytes { hash := 0 }) 0
      ⟨easyHeader,[{ hash := 0 }]⟩ [] [] ∧
    ¬RoundTrips spacedHashes (fun count key => key%count) (singleCoding paymentBytes (payment 0)) 0
      ⟨easyHeader,[]⟩ [] [] := by
  refine ⟨⟨⟨by decide,fun tx hm => absurd hm not_mem_nil,by decide⟩,?_⟩,?_,?_,?_⟩
  · exact not_roundTrips_of_crowded easyHeader_fits (by decide) (reads_singleCoding _ _) rfl
      (by decide) rfl (by decide) (by unfold Crowded; decide)
  · exact not_roundTrips_of_refused (reads_sentBlock ⟨by decide,by decide⟩ (by decide) (by decide)
      (reads_singleCoding _ _)) (Or.inl rfl)
  · refine not_roundTrips_of_refused (reads_sentBlock easyHeader_fits (by decide) (by decide)
      (reads_singleCoding _ _)) (Or.inr (Or.inr (Or.inr ?_)))
    intro hfit
    have hnull := (fitFrom_cons.mp hfit).1.1
    cases hnull
  · intro htrip
    obtain ⟨sent,received,fuel,result,hsent,-⟩ := htrip
    cases hsent

end Pyrk.CompactRoundTrip
