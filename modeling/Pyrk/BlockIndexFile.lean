import Pyrk.BlockTree
import Pyrk.UndoData

/-!
# Entries of the block index on disk

Stored are the header, the block before, height, status, number of transactions and place of the
data, but not work, times, counts of the chain and order of arrival.
-/

namespace Pyrk.BlockIndexFile

open BlockTree ProofOfWork ByteReader UndoData

/-- An entry of the block index. Pointers are hashes of blocks. -/
structure CBlockIndex where
  hash : ℕ
  pprev : Option ℕ := none
  pskip : Option ℕ := none
  nHeight : ℕ := 0
  nFile : ℕ := 0
  nDataPos : ℕ := 0
  nUndoPos : ℕ := 0
  nChainWork : ℕ := 0
  nTx : ℕ := 0
  /-- Number of transactions of the chain up to the block. -/
  nChainTx : ℕ := 0
  nStatus : BlockStatus := {}
  nVersion : BitVec 32 := 0
  hashMerkleRoot : ℕ := 0
  nTime : UInt32 := 0
  nBits : UInt32 := 0
  nNonce : UInt32 := 0
  nSequenceId : ℤ := 0
  nTimeMax : UInt32 := 0
  deriving DecidableEq

def CBlockIndex.getBlockHeader (pindex : CBlockIndex) : CBlockHeader where
  nVersion := pindex.nVersion
  hashPrevBlock := pindex.pprev.getD 0
  hashMerkleRoot := pindex.hashMerkleRoot
  nTime := pindex.nTime
  nBits := pindex.nBits
  nNonce := pindex.nNonce

/-- What is stored of an entry. -/
structure CDiskBlockIndex where
  nHeight : ℕ
  nStatus : BlockStatus
  nTx : ℕ
  nFile : ℕ
  nDataPos : ℕ
  nUndoPos : ℕ
  hash : ℕ
  nVersion : BitVec 32
  hashPrev : ℕ
  hashMerkleRoot : ℕ
  nTime : UInt32
  nBits : UInt32
  nNonce : UInt32
  deriving DecidableEq

/-- Stored form of an entry. -/
def toDisk (pindex : CBlockIndex) : CDiskBlockIndex where
  nHeight := pindex.nHeight
  nStatus := pindex.nStatus
  nTx := pindex.nTx
  nFile := pindex.nFile
  nDataPos := pindex.nDataPos
  nUndoPos := pindex.nUndoPos
  hash := pindex.hash
  nVersion := pindex.nVersion
  hashPrev := pindex.pprev.getD 0
  hashMerkleRoot := pindex.hashMerkleRoot
  nTime := pindex.nTime
  nBits := pindex.nBits
  nNonce := pindex.nNonce

section Status

def flagBit (flag : Bool) (bit : ℕ) : ℕ := if flag then bit else 0

variable (nStatus : BlockStatus)

def statusNumber : ℕ :=
  nStatus.validity.level+flagBit nStatus.haveData 8+flagBit nStatus.haveUndo 16+
    flagBit nStatus.failedValid 32+flagBit nStatus.failedChild 64

/-- Stage of a level; the levels above are not used. -/
def validityOf : ℕ → Validity
  | 0 => .unknown
  | 1 => .header
  | 2 => .tree
  | 3 => .transactions
  | 4 => .chain
  | _ => .scripts

def statusOf (n : ℕ) : BlockStatus where
  validity := validityOf (n%8)
  haveData := decide (n/8%2=1)
  haveUndo := decide (n/16%2=1)
  failedValid := decide (n/32%2=1)
  failedChild := decide (n/64%2=1)

theorem statusOf_statusNumber : statusOf (statusNumber nStatus)=nStatus := by
  obtain ⟨validity,haveData,haveUndo,failedValid,failedChild⟩ := nStatus
  cases validity <;> cases haveData <;> cases haveUndo <;> cases failedValid <;>
    cases failedChild <;> rfl

theorem statusNumber_lt : statusNumber nStatus < 2^32 := by
  obtain ⟨validity,haveData,haveUndo,failedValid,failedChild⟩ := nStatus
  cases validity <;> cases haveData <;> cases haveUndo <;> cases failedValid <;>
    cases failedChild <;> decide

end Status

/-- Bytes of a number that is only there under a condition. -/
def writeIf (present : Bool) (n : ℕ) : List UInt8 := if present then writeVarInt n else []

/-- Read a number that is only there under a condition. -/
def readIf (present : Bool) : Reader ℕ := if present then readVarInt 32 else pure 0

/-- Bytes of a stored entry. -/
def writeDiskBlockIndex (clientVersion : ℕ) (entry : CDiskBlockIndex) : List UInt8 :=
  writeVarInt clientVersion++(writeVarInt entry.nHeight++(writeVarInt (statusNumber entry.nStatus)++
    (writeVarInt entry.nTx++(writeIf (entry.nStatus.haveData || entry.nStatus.haveUndo)
      entry.nFile++
      (writeIf entry.nStatus.haveData entry.nDataPos++
        (writeIf entry.nStatus.haveUndo entry.nUndoPos++(leBytes 32 entry.hash++
          (leBytes 4 entry.nVersion.toNat++(leBytes 32 entry.hashPrev++
            (leBytes 32 entry.hashMerkleRoot++(leBytes 4 entry.nTime.toNat++
              (leBytes 4 entry.nBits.toNat++leBytes 4 entry.nNonce.toNat))))))))))))

/-- Read a stored entry. -/
def readDiskBlockIndex : Reader CDiskBlockIndex := do
  let _ ← readVarInt 32
  let nHeight ← readVarInt 32
  let number ← readVarInt 32
  let nStatus := statusOf number
  let nTx ← readVarInt 32
  let nFile ← readIf (nStatus.haveData || nStatus.haveUndo)
  let nDataPos ← readIf nStatus.haveData
  let nUndoPos ← readIf nStatus.haveUndo
  let hash ← readNumber 32
  let nVersion ← readNumber 4
  let hashPrev ← readNumber 32
  let hashMerkleRoot ← readNumber 32
  let nTime ← readNumber 4
  let nBits ← readNumber 4
  let nNonce ← readNumber 4
  pure
    { nHeight := nHeight, nStatus := nStatus, nTx := nTx
      nFile := nFile, nDataPos := nDataPos, nUndoPos := nUndoPos
      hash := hash, nVersion := BitVec.ofNat 32 nVersion, hashPrev := hashPrev
      hashMerkleRoot := hashMerkleRoot, nTime := UInt32.ofNat nTime
      nBits := UInt32.ofNat nBits, nNonce := UInt32.ofNat nNonce }

/-- The fields of an entry fit in their integers. -/
structure Storable (entry : CDiskBlockIndex) : Prop where
  nHeight : entry.nHeight < 2^32
  nTx : entry.nTx < 2^32
  /-- The number of the file fits, and there is one only with data or undo data. -/
  nFile : entry.nFile < 2^32 ∧
    ((entry.nStatus.haveData || entry.nStatus.haveUndo)=false → entry.nFile=0)
  /-- The place of the block fits, and there is one only with data. -/
  nDataPos : entry.nDataPos < 2^32 ∧ (entry.nStatus.haveData=false → entry.nDataPos=0)
  /-- The place of the undo data fits, and there is one only with undo data. -/
  nUndoPos : entry.nUndoPos < 2^32 ∧ (entry.nStatus.haveUndo=false → entry.nUndoPos=0)
  hash : entry.hash < 256^32
  hashPrev : entry.hashPrev < 256^32
  hashMerkleRoot : entry.hashMerkleRoot < 256^32

theorem reads_readIf {present : Bool} {n : ℕ} (hn : n < 2^32) (hzero : present=false → n=0) :
    Reads (readIf present) (writeIf present n) n := by
  cases present with
  | false =>
    rw [hzero rfl]
    exact reads_pure 0
  | true => exact reads_readVarInt hn

theorem reads_readDiskBlockIndex {clientVersion : ℕ} (hver : clientVersion < 2^32)
    {entry : CDiskBlockIndex} (h : Storable entry) :
    Reads readDiskBlockIndex (writeDiskBlockIndex clientVersion entry) entry := by
  have htime : entry.nTime.toNat < 256^4 := entry.nTime.toNat_lt
  have hbits : entry.nBits.toNat < 256^4 := entry.nBits.toNat_lt
  have hnonce : entry.nNonce.toNat < 256^4 := entry.nNonce.toNat_lt
  have hnVersion : entry.nVersion.toNat < 256^4 := entry.nVersion.isLt
  refine (reads_readVarInt hver).bind ?_
  refine (reads_readVarInt h.nHeight).bind ?_
  refine (reads_readVarInt (statusNumber_lt entry.nStatus)).bind ?_
  rw [statusOf_statusNumber]
  refine (reads_readVarInt h.nTx).bind ?_
  refine (reads_readIf h.nFile.1 h.nFile.2).bind ?_
  refine (reads_readIf h.nDataPos.1 h.nDataPos.2).bind ?_
  refine (reads_readIf h.nUndoPos.1 h.nUndoPos.2).bind ?_
  refine (reads_readNumber h.hash).bind ?_
  refine (reads_readNumber hnVersion).bind ?_
  refine (reads_readNumber h.hashPrev).bind ?_
  refine (reads_readNumber h.hashMerkleRoot).bind ?_
  refine (reads_readNumber htime).bind ?_
  refine (reads_readNumber hbits).bind ?_
  refine (reads_readNumber hnonce).map ?_
  rw [BitVec.ofNat_toNat,BitVec.setWidth_eq,UInt32.ofNat_toNat,UInt32.ofNat_toNat,
    UInt32.ofNat_toNat]
  exact reads_pure entry

end Pyrk.BlockIndexFile
