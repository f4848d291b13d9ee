import Pyrk.ByteCodec
import Pyrk.UndoData

/-!
# Bytes of transactions

Version and type are two signed numbers of 16 bits that share a word: a negative version covers the
type with its sign. Typed transactions of version three have a payload.
-/

namespace Pyrk.TransactionEncoding

open ByteReader ByteCodec UndoData Script List

/-- A position in the output list of a transaction. -/
structure COutPoint where
  hash : Fin (2^256)
  n : UInt32
  deriving DecidableEq

structure CTxIn where
  prevout : COutPoint
  scriptSig : CScript
  nSequence : UInt32
  deriving DecidableEq

structure CTxOut where
  nValue : Int64
  scriptPubKey : CScript
  deriving DecidableEq

/-- A transaction that may be changed. -/
structure CMutableTransaction where
  nVersion : Int16
  nType : Int16
  vin : List CTxIn
  vout : List CTxOut
  nLockTime : UInt32
  vExtraPayload : List UInt8
  deriving DecidableEq

/-- Type of a transaction without payload. -/
def transactionNormal : Int16 := 0

/-- Word of a version and a type. Both are extended to 32 bits with their signs. -/
def packVersion (nVersion nType : Int16) : Int32 := nVersion.toInt32 ||| (nType.toInt32 <<< 16)

def versionOf (n32bitVersion : Int32) : Int16 := (n32bitVersion &&& 0xffff).toInt16

def typeOf (n32bitVersion : Int32) : Int16 := ((n32bitVersion >>> 16) &&& 0xffff).toInt16

def hasPayload (nVersion nType : Int16) : Bool := nVersion=3 && nType≠transactionNormal

section Bytes

variable {α : Type}

/-- Bytes of a number of 32 bits. -/
def writeUInt32 (n : UInt32) : List UInt8 := leBytes 4 n.toNat

/-- Read a number of 32 bits. -/
def readUInt32 : Reader UInt32 := do
  let n ← readNumber 4
  pure (UInt32.ofNat n)

/-- Bytes of a signed number of 32 bits. -/
def writeInt32 (n : Int32) : List UInt8 := leBytes 4 n.toUInt32.toNat

/-- Read a signed number of 32 bits. -/
def readInt32 : Reader Int32 := do
  let n ← readNumber 4
  pure (UInt32.ofNat n).toInt32

/-- Bytes of a signed number of 64 bits. -/
def writeInt64 (n : Int64) : List UInt8 := leBytes 8 n.toUInt64.toNat

/-- Read a signed number of 64 bits. -/
def readInt64 : Reader Int64 := do
  let n ← readNumber 8
  pure (UInt64.ofNat n).toInt64

def writeHash (hash : Fin (2^256)) : List UInt8 := leBytes 32 hash.val

def readHash : Reader (Fin (2^256)) := do
  let n ← readNumber 32
  pure (Fin.ofNat (2^256) n)

def writeVector (write : α → List UInt8) (values : List α) : List UInt8 :=
  writeCompactSize values.length++values.flatMap write

def readVector (read : Reader α) : Reader (List α) := do
  let nSize ← readCompactSize
  readMany read nSize

/-- Bytes of a script or a payload. -/
def writeByteVector (bytes : List UInt8) : List UInt8 := writeCompactSize bytes.length++bytes

/-- Read a script or a payload. -/
def readByteVector : Reader (List UInt8) := do
  let nSize ← readCompactSize
  readBytes nSize

/-- Bytes of an outpoint. -/
def writeOutPoint (prevout : COutPoint) : List UInt8 :=
  writeHash prevout.hash++writeUInt32 prevout.n

def readOutPoint : Reader COutPoint := do
  let hash ← readHash
  let n ← readUInt32
  pure ⟨hash,n⟩

/-- Bytes of an input. -/
def writeTxIn (txin : CTxIn) : List UInt8 :=
  writeOutPoint txin.prevout++(writeByteVector txin.scriptSig++writeUInt32 txin.nSequence)

def readTxIn : Reader CTxIn := do
  let prevout ← readOutPoint
  let scriptSig ← readByteVector
  let nSequence ← readUInt32
  pure ⟨prevout,scriptSig,nSequence⟩

/-- Bytes of an output. -/
def writeTxOut (txout : CTxOut) : List UInt8 :=
  writeInt64 txout.nValue++writeByteVector txout.scriptPubKey

def readTxOut : Reader CTxOut := do
  let nValue ← readInt64
  let scriptPubKey ← readByteVector
  pure ⟨nValue,scriptPubKey⟩

variable (nVersion nType : Int16)

/-- Bytes of the payload, if there is one. -/
def writePayload (vExtraPayload : List UInt8) : List UInt8 :=
  if hasPayload nVersion nType then writeByteVector vExtraPayload else []

def readPayload : Reader (List UInt8) :=
  if hasPayload nVersion nType then readByteVector else pure []

/-- Bytes of what comes behind version and type. -/
def writeBody (tx : CMutableTransaction) : List UInt8 :=
  writeVector writeTxIn tx.vin++(writeVector writeTxOut tx.vout++
    (writeUInt32 tx.nLockTime++writePayload tx.nVersion tx.nType tx.vExtraPayload))

/-- Read what comes behind version and type. -/
def readBody : Reader CMutableTransaction := do
  let vin ← readVector readTxIn
  let vout ← readVector readTxOut
  let nLockTime ← readUInt32
  let vExtraPayload ← readPayload nVersion nType
  pure ⟨nVersion,nType,vin,vout,nLockTime,vExtraPayload⟩

/-- Bytes of a transaction. -/
def serialize (tx : CMutableTransaction) : List UInt8 :=
  writeInt32 (packVersion tx.nVersion tx.nType)++writeBody tx

/-- Read a transaction. -/
def unserialize : Reader CMutableTransaction := do
  let n32bitVersion ← readInt32
  readBody (versionOf n32bitVersion) (typeOf n32bitVersion)

end Bytes

section WordBits

variable (n32bitVersion : Int32)

theorem toBitVec_low :
    ((n32bitVersion &&& 0xffff).toInt16).toBitVec=n32bitVersion.toBitVec.setWidth 16 := by
  have hmask : (0xffff : Int32).toBitVec=BitVec.setWidth 32 (BitVec.allOnes 16) := rfl
  apply BitVec.eq_of_getLsbD_eq
  intro i hi
  have hwide : i<32 := by omega
  have hone : (BitVec.allOnes 16).getLsbD i=true := by
    rw [BitVec.getLsbD_allOnes,decide_eq_true hi]
  rw [Int32.toBitVec_toInt16,Int32.toBitVec_and,hmask,BitVec.getLsbD_signExtend,
    BitVec.getLsbD_and,BitVec.getLsbD_setWidth,BitVec.getLsbD_setWidth,if_pos hwide,hone]
  simp only [hi,hwide,decide_true,Bool.true_and,Bool.and_true]

theorem toBitVec_versionOf :
    (versionOf n32bitVersion).toBitVec=n32bitVersion.toBitVec.setWidth 16 :=
  toBitVec_low n32bitVersion

theorem toBitVec_typeOf :
    (typeOf n32bitVersion).toBitVec=(n32bitVersion.toBitVec.sshiftRight 16).setWidth 16 := by
  rw [typeOf,toBitVec_low]
  rfl

variable (nVersion nType : Int16)

theorem toBitVec_packVersion : (packVersion nVersion nType).toBitVec=
      nVersion.toBitVec.signExtend 32 ||| (nType.toBitVec.signExtend 32 <<< 16) := by
  rw [packVersion,Int32.toBitVec_or,Int32.toBitVec_shiftLeft,Int16.toBitVec_toInt32,
    Int16.toBitVec_toInt32]
  rfl

theorem versionOf_packVersion : versionOf (packVersion nVersion nType)=nVersion := by
  apply Int16.toBitVec.inj
  rw [toBitVec_versionOf,toBitVec_packVersion]
  apply BitVec.eq_of_getLsbD_eq
  intro i hi
  have hwide : i<32 := by omega
  rw [BitVec.getLsbD_setWidth,BitVec.getLsbD_or,BitVec.getLsbD_signExtend,
    BitVec.getLsbD_shiftLeft,if_pos hi]
  simp only [hi,hwide,decide_true,Bool.not_true,Bool.true_and,Bool.and_false,Bool.false_and,
    Bool.or_false]

theorem typeOf_packVersion :
    typeOf (packVersion nVersion nType)=if nVersion.toBitVec.msb then -1 else nType := by
  apply Int16.toBitVec.inj
  rw [toBitVec_typeOf,toBitVec_packVersion]
  apply BitVec.eq_of_getLsbD_eq
  intro i hi
  have hwide : 16+i<32 := by omega
  have hge : ¬32 ≤ i := by omega
  have hlow : ¬16+i<16 := by omega
  have hsub : 16+i-16=i := by omega
  have hsmall : i<32 := by omega
  rw [BitVec.getLsbD_setWidth,BitVec.getLsbD_sshiftRight,BitVec.getLsbD_or,
    BitVec.getLsbD_signExtend,BitVec.getLsbD_shiftLeft,BitVec.getLsbD_signExtend,hsub,if_neg hlow,
    if_pos hi]
  simp only [hi,hwide,hge,hlow,decide_true,decide_false,Bool.not_false,Bool.true_and,if_true]
  cases nVersion.toBitVec.msb with
  | false =>
    simp only [hsmall,decide_true,Bool.true_and,Bool.false_or,Bool.false_eq_true,if_false]
  | true =>
    have hone : (BitVec.allOnes 16).getLsbD i=true := by
      rw [BitVec.getLsbD_allOnes,decide_eq_true hi]
    exact hone.symm

theorem word_unique {n32bitVersion other : Int32}
    (hver : versionOf n32bitVersion=versionOf other)
    (htype : typeOf n32bitVersion=typeOf other) : n32bitVersion=other := by
  apply Int32.toBitVec.inj
  apply BitVec.eq_of_getLsbD_eq
  intro i hi
  by_cases hlow : i<16
  · have hbit := congrArg (fun nVersion : Int16 => nVersion.toBitVec.getLsbD i) hver
    simp only [toBitVec_versionOf,BitVec.getLsbD_setWidth,hlow,decide_true,Bool.true_and] at hbit
    exact hbit
  · have hbit := congrArg (fun nType : Int16 => nType.toBitVec.getLsbD (i-16)) htype
    have hsmall : i-16<16 := by omega
    have hge : ¬32 ≤ i-16 := by omega
    have hadd : 16+(i-16)=i := by omega
    simp only [toBitVec_typeOf,BitVec.getLsbD_setWidth,BitVec.getLsbD_sshiftRight,hsmall,hge,hadd,
      hi,decide_true,decide_false,Bool.not_false,Bool.true_and,if_true] at hbit
    exact hbit

theorem msb_iff_negative (nVersion : Int16) : nVersion.toBitVec.msb=true ↔ nVersion<0 := by
  rw [BitVec.msb_eq_toInt,decide_eq_true_iff,Int16.lt_iff_toInt_lt]
  rfl

theorem typeOf_packVersion_iff :
    typeOf (packVersion nVersion nType)=nType ↔ ¬nVersion<0 ∨ nType=-1 := by
  rw [typeOf_packVersion,←msb_iff_negative]
  cases nVersion.toBitVec.msb with
  | false => simp only [Bool.false_eq_true,if_false,not_false_eq_true,true_or]
  | true =>
    simp only [if_true,not_true_eq_false,false_or]
    exact eq_comm

end WordBits

theorem leBytes_littleEndian (bytes : List UInt8) :
    leBytes bytes.length (littleEndian bytes)=bytes := by
  induction bytes with
  | nil => rfl
  | cons byte tail ih =>
    have hbyte := byte.toNat_lt
    have hlow : (byte.toNat+256*littleEndian tail)%256=byte.toNat := by omega
    have hhigh : (byte.toNat+256*littleEndian tail)/256=littleEndian tail := by omega
    rw [length_cons,littleEndian,leBytes,hlow,hhigh,ih,UInt8.ofNat_toNat]

theorem codec_readNumber (width : ℕ) :
    Codec (readNumber width) (leBytes width) (fun n => n<256^width) := by
  have hmap := (codec_readBytes width).bind (fun bytes _ => codec_pure (littleEndian bytes))
    (leBytes width) (by
      intro bytes n hlen hn
      rw [hn,←hlen]
      exact leBytes_littleEndian bytes)
  apply hmap.congr
  · intro n _
    exact append_nil _
  · intro n
    constructor
    · intro ⟨hlen,hn⟩
      have hlt := littleEndian_lt (leBytes width n)
      rw [hn]
      rwa [hlen] at hlt
    · intro hn
      exact ⟨length_leBytes width n,(littleEndian_leBytes width hn).symm⟩

theorem writes_readLargeSize {width least n : ℕ} {input rest : List UInt8}
    (hrun : (readLargeSize width least).run input=some (n,rest)) :
    least≤n ∧ n<256^width ∧ input=leBytes width n++rest := by
  obtain ⟨nSizeRet,behind,hnumber,hcheck⟩ := run_bind_eq_some hrun
  obtain ⟨hlt,hinput⟩ := (codec_readNumber width).writes input nSizeRet behind hnumber
  split at hcheck
  · cases hcheck
  case isFalse hleast =>
    cases hcheck
    exact ⟨Nat.not_lt.mp hleast,hlt,hinput⟩

/-- Sizes. None is stored with more bytes than it needs. -/
theorem codec_readCompactSize :
    Codec readCompactSize writeCompactSize (fun nSize => nSize ≤ maxSize) where
  reads := fun nSize hsize => reads_readCompactSize hsize
  writes := by
    intro input nSize rest hrun
    obtain ⟨chSize,behind,hbyte,hnext⟩ := run_bind_eq_some hrun
    have hinput : input=chSize::behind := by
      cases input with
      | nil => cases hbyte
      | cons byte tail =>
        cases hbyte
        rfl
    have hcheck : ∀ (nSizeRet : ℕ) (last : List UInt8),
        (if maxSize<nSizeRet then failure else pure nSizeRet : Reader ℕ).run last=
          some (nSize,rest) → nSizeRet=nSize ∧ last=rest ∧ nSize ≤ maxSize := by
      intro nSizeRet last hlast
      split at hlast
      · cases hlast
      case isFalse hmax =>
        cases hlast
        exact ⟨rfl,rfl,Nat.not_lt.mp hmax⟩
    have hchSize := chSize.toNat_lt
    rw [hinput,writeCompactSize]
    split at hnext
    case isTrue hone =>
      obtain ⟨heq,hlast,hmax⟩ := hcheck _ _ hnext
      rw [hlast,←heq,if_pos hone,leBytes,leBytes,Nat.mod_eq_of_lt hchSize,UInt8.ofNat_toNat]
      exact ⟨heq ▸ hmax,rfl⟩
    case isFalse hone =>
      split at hnext
      case isTrue htwo =>
        obtain ⟨nSizeRet,last,hsize,hend⟩ := run_bind_eq_some hnext
        obtain ⟨heq,hlast,hmax⟩ := hcheck _ _ hend
        obtain ⟨hleast,hlt,hbehind⟩ := writes_readLargeSize hsize
        have hch : chSize=253 := UInt8.toNat_inj.mp htwo
        rw [←heq,if_neg (by omega),if_pos (by omega),hch,hbehind,hlast,cons_append]
        exact ⟨heq ▸ hmax,rfl⟩
      case isFalse htwo =>
        split at hnext
        case isTrue hfour =>
          obtain ⟨nSizeRet,last,hsize,hend⟩ := run_bind_eq_some hnext
          obtain ⟨heq,hlast,hmax⟩ := hcheck _ _ hend
          obtain ⟨hleast,hlt,hbehind⟩ := writes_readLargeSize hsize
          have hch : chSize=254 := UInt8.toNat_inj.mp hfour
          rw [←heq,if_neg (by omega),if_neg (by omega),if_pos (by omega),hch,hbehind,hlast,
            cons_append]
          exact ⟨heq ▸ hmax,rfl⟩
        case isFalse hfour =>
          obtain ⟨nSizeRet,last,hsize,hend⟩ := run_bind_eq_some hnext
          obtain ⟨heq,hlast,hmax⟩ := hcheck _ _ hend
          obtain ⟨hleast,hlt,hbehind⟩ := writes_readLargeSize hsize
          have hch : chSize=255 := UInt8.toNat_inj.mp (show chSize.toNat=255 by omega)
          rw [←heq,if_neg (by omega),if_neg (by omega),if_neg (by omega),hch,hbehind,hlast,
            cons_append]
          exact ⟨heq ▸ hmax,rfl⟩

theorem codec_readUInt32 : Codec readUInt32 writeUInt32 (fun _ => True) := by
  have hmap := (codec_readNumber 4).map UInt32.ofNat UInt32.toNat
    (fun n hn => UInt32.toNat_ofNat_of_lt hn)
  apply hmap.congr (fun n _ => rfl)
  intro n
  simp only [iff_true]
  exact ⟨n.toNat_lt,UInt32.ofNat_toNat.symm⟩

theorem codec_readInt32 : Codec readInt32 writeInt32 (fun _ => True) := by
  have hmap := (codec_readNumber 4).map (fun n => (UInt32.ofNat n).toInt32)
    (fun n : Int32 => n.toUInt32.toNat)
    (fun n hn => UInt32.toNat_ofNat_of_lt hn)
  apply hmap.congr (fun n _ => rfl)
  intro n
  simp only [iff_true]
  refine ⟨n.toUInt32.toNat_lt,?_⟩
  rw [UInt32.ofNat_toNat,Int32.toInt32_toUInt32]

theorem codec_readInt64 : Codec readInt64 writeInt64 (fun _ => True) := by
  have hmap := (codec_readNumber 8).map (fun n => (UInt64.ofNat n).toInt64)
    (fun n : Int64 => n.toUInt64.toNat)
    (fun n hn => UInt64.toNat_ofNat_of_lt hn)
  apply hmap.congr (fun n _ => rfl)
  intro n
  simp only [iff_true]
  refine ⟨n.toUInt64.toNat_lt,?_⟩
  rw [UInt64.ofNat_toNat,Int64.toInt64_toUInt64]

theorem codec_readHash : Codec readHash writeHash (fun _ => True) := by
  have hwidth : 256^32=2^256 := by decide
  have hmap := (codec_readNumber 32).map (fun n => Fin.ofNat (2^256) n)
    (fun hash : Fin (2^256) => hash.val) (by
    intro n hn
    rw [hwidth] at hn
    exact Nat.mod_eq_of_lt hn)
  apply hmap.congr (fun hash _ => rfl)
  intro hash
  simp only [iff_true]
  refine ⟨?_,Fin.ext ?_⟩
  · rw [hwidth]
    exact hash.isLt
  · exact (Nat.mod_eq_of_lt hash.isLt).symm

section Parts

variable {α : Type}

theorem codec_readVector {read : Reader α} {write : α → List UInt8} {Fits : α → Prop}
    (codec : Codec read write Fits) :
    Codec (readVector read) (writeVector write)
      (fun values => values.length ≤ maxSize ∧ ∀ value∈values,Fits value) := by
  have hbind := codec_readCompactSize.bind (fun nSize _ => codec_readMany codec nSize) List.length
    (fun nSize values _ hvalues => hvalues.1)
  apply hbind.congr (fun values _ => rfl)
  intro values
  simp only [true_and]

theorem codec_readByteVector :
    Codec readByteVector writeByteVector (fun bytes => bytes.length ≤ maxSize) := by
  have hbind := codec_readCompactSize.bind (fun nSize _ => codec_readBytes nSize) List.length
    (fun nSize bytes _ hbytes => hbytes)
  apply hbind.congr (fun bytes _ => rfl)
  intro bytes
  simp only [and_true]

theorem codec_readOutPoint : Codec readOutPoint writeOutPoint (fun _ => True) := by
  have hbind := codec_readHash.bind
    (fun hash _ => codec_readUInt32.map (fun n => COutPoint.mk hash n) COutPoint.n (fun n _ => rfl))
    COutPoint.hash (fun hash prevout _ hprevout => by rw [hprevout.2])
  apply hbind.congr (fun prevout _ => rfl)
  intro prevout
  simp only [true_and]

theorem codec_readTxIn :
    Codec readTxIn writeTxIn (fun txin => txin.scriptSig.length ≤ maxSize) := by
  have hbind := codec_readOutPoint.bind (fun prevout _ => codec_readByteVector.bind
      (fun scriptSig _ => codec_readUInt32.map
        (fun nSequence => CTxIn.mk prevout scriptSig nSequence) CTxIn.nSequence (fun n _ => rfl))
      CTxIn.scriptSig (fun scriptSig txin _ htxin => by rw [htxin.2]))
    CTxIn.prevout (fun prevout txin _ htxin => by rw [htxin.2.2])
  apply hbind.congr (fun txin _ => rfl)
  intro txin
  simp only [true_and,and_true]

theorem codec_readTxOut :
    Codec readTxOut writeTxOut (fun txout => txout.scriptPubKey.length ≤ maxSize) := by
  have hbind := codec_readInt64.bind (fun nValue _ => codec_readByteVector.map (fun scriptPubKey =>
      CTxOut.mk nValue scriptPubKey) CTxOut.scriptPubKey (fun scriptPubKey _ => rfl))
    CTxOut.nValue (fun nValue txout _ htxout => by rw [htxout.2])
  apply hbind.congr (fun txout _ => rfl)
  intro txout
  simp only [true_and,and_true]

variable (nVersion nType : Int16)

/-- A payload that the version and the type allow. -/
def FitsPayload (vExtraPayload : List UInt8) : Prop :=
  if hasPayload nVersion nType then vExtraPayload.length ≤ maxSize else vExtraPayload=[]

theorem codec_readPayload : Codec (readPayload nVersion nType) (writePayload nVersion nType)
      (FitsPayload nVersion nType) := by
  cases hpayload : hasPayload nVersion nType with
  | true =>
    have hread : readPayload nVersion nType=readByteVector := by
      rw [readPayload,hpayload,if_pos rfl]
    rw [hread]
    apply codec_readByteVector.congr
    · intro bytes _
      rw [writePayload,hpayload,if_pos rfl]
    · intro bytes
      rw [FitsPayload,hpayload,if_pos rfl]
  | false =>
    have hread : readPayload nVersion nType=pure [] := by
      rw [readPayload,hpayload,if_neg Bool.false_ne_true]
    rw [hread]
    apply (codec_pure []).congr
    · intro bytes _
      rw [writePayload,hpayload,if_neg Bool.false_ne_true]
    · intro bytes
      rw [FitsPayload,hpayload,if_neg Bool.false_ne_true]

/-- All parts of a transaction have sizes that are read. -/
structure Fits (tx : CMutableTransaction) : Prop where
  vin : tx.vin.length ≤ maxSize ∧ ∀ txin∈tx.vin,txin.scriptSig.length ≤ maxSize
  vout : tx.vout.length ≤ maxSize ∧ ∀ txout∈tx.vout,txout.scriptPubKey.length ≤ maxSize
  payload : FitsPayload tx.nVersion tx.nType tx.vExtraPayload

theorem codec_readBody : Codec (readBody nVersion nType) writeBody
      (fun tx => tx.nVersion=nVersion ∧ tx.nType=nType ∧ Fits tx) := by
  have hbind := (codec_readVector codec_readTxIn).bind
    (fun vin _ => (codec_readVector codec_readTxOut).bind (fun vout _ => codec_readUInt32.bind
        (fun nLockTime _ => (codec_readPayload nVersion nType).map (fun vExtraPayload =>
            CMutableTransaction.mk nVersion nType vin vout nLockTime vExtraPayload)
          CMutableTransaction.vExtraPayload (fun vExtraPayload _ => rfl))
        CMutableTransaction.nLockTime (fun nLockTime tx _ htx => by rw [htx.2]))
      CMutableTransaction.vout (fun vout tx _ htx => by rw [htx.2.2]))
    CMutableTransaction.vin (fun vin tx _ htx => by rw [htx.2.2.2])
  apply hbind.congr
  · intro tx ⟨_,_,_,_,htx⟩
    have hver := congrArg CMutableTransaction.nVersion htx
    have htype := congrArg CMutableTransaction.nType htx
    rw [writeBody,hver,htype]
  · intro tx
    constructor
    · intro ⟨hvin,hvout,_,hpayload,htx⟩
      have hver := congrArg CMutableTransaction.nVersion htx
      have htype := congrArg CMutableTransaction.nType htx
      refine ⟨hver,htype,hvin,hvout,?_⟩
      rw [hver,htype]
      exact hpayload
    · intro ⟨hver,htype,hfits⟩
      refine ⟨hfits.vin,hfits.vout,trivial,?_,?_⟩
      · rw [←hver,←htype]
        exact hfits.payload
      · rw [←hver,←htype]

end Parts

theorem word_of_unserialize {bytes : List UInt8} {tx : CMutableTransaction}
    (hrun : unserialize.run bytes=some (tx,[])) : ∃ n32bitVersion,
    versionOf n32bitVersion=tx.nVersion ∧ typeOf n32bitVersion=tx.nType ∧ Fits tx ∧
    bytes=writeInt32 n32bitVersion++writeBody tx := by
  obtain ⟨n32bitVersion,behind,hword,hbody⟩ := run_bind_eq_some hrun
  obtain ⟨_,hbytes⟩ := codec_readInt32.writes bytes n32bitVersion behind hword
  obtain ⟨⟨hver,htype,hfits⟩,hbehind⟩ := (codec_readBody _ _).run_iff.mp hbody
  exact ⟨n32bitVersion,hver.symm,htype.symm,hfits,hbehind ▸ hbytes⟩

theorem writeInt32_injective {n other : Int32} (heq : writeInt32 n=writeInt32 other) : n=other := by
  have hn := codec_readInt32.run_iff.mpr ⟨trivial,(rfl : writeInt32 n=writeInt32 n)⟩
  have hother := codec_readInt32.run_iff.mpr ⟨trivial,heq⟩
  have hboth := hn.symm.trans hother
  exact congrArg Prod.fst (Option.some.inj hboth)

/-- Bytes that are read are written again exactly if the version is not negative or the type is
minus one, and then a transaction is read back, if its sizes are. -/
theorem encoding_canonical_iff (bytes : List UInt8) (tx : CMutableTransaction) :
    (unserialize.run bytes=some (tx,[]) → (serialize tx=bytes ↔ ¬tx.nVersion<0 ∨ tx.nType=-1)) ∧
    ((hasPayload tx.nVersion tx.nType=false → tx.vExtraPayload=[]) →
      (unserialize.run (serialize tx)=some (tx,[]) ↔
        (¬tx.nVersion<0 ∨ tx.nType=-1) ∧ tx.vin.length ≤ maxSize ∧ tx.vout.length ≤ maxSize ∧
        (∀ txin∈tx.vin,txin.scriptSig.length ≤ maxSize) ∧
        (∀ txout∈tx.vout,txout.scriptPubKey.length ≤ maxSize) ∧
        tx.vExtraPayload.length ≤ maxSize)) := by
  constructor
  · intro hrun
    obtain ⟨n32bitVersion,hver,htype,_,hbytes⟩ := word_of_unserialize hrun
    rw [←typeOf_packVersion_iff,hbytes,serialize]
    constructor
    · intro hsame
      have hlen : (writeInt32 (packVersion tx.nVersion tx.nType)).length=
          (writeInt32 n32bitVersion).length := by
        rw [writeInt32,writeInt32,length_leBytes,length_leBytes]
      have hword := writeInt32_injective (append_inj hsame hlen).1
      rw [hword,htype]
    · intro htypeOf
      have hword : packVersion tx.nVersion tx.nType=n32bitVersion :=
        word_unique ((versionOf_packVersion _ _).trans hver.symm) (htypeOf.trans htype.symm)
      rw [hword]
  · intro hpayload
    have hfits : Fits tx ↔ tx.vin.length ≤ maxSize ∧ tx.vout.length ≤ maxSize ∧
        (∀ txin∈tx.vin,txin.scriptSig.length ≤ maxSize) ∧
        (∀ txout∈tx.vout,txout.scriptPubKey.length ≤ maxSize) ∧
        tx.vExtraPayload.length ≤ maxSize := by
      have hsame : FitsPayload tx.nVersion tx.nType tx.vExtraPayload ↔
          tx.vExtraPayload.length ≤ maxSize := by
        rw [FitsPayload]
        cases hcase : hasPayload tx.nVersion tx.nType with
        | true => simp only [if_true]
        | false =>
          rw [hpayload hcase]
          simp only [Bool.false_eq_true,if_false,length_nil,Nat.zero_le]
      constructor
      · intro h
        exact ⟨h.vin.1,h.vout.1,h.vin.2,h.vout.2,hsame.mp h.payload⟩
      · intro ⟨hvin,hvout,hins,houts,hbytes⟩
        exact ⟨⟨hvin,hins⟩,⟨hvout,houts⟩,hsame.mpr hbytes⟩
    rw [←typeOf_packVersion_iff,←hfits]
    constructor
    · intro hrun
      obtain ⟨n32bitVersion,hver,htype,h,hbytes⟩ := word_of_unserialize hrun
      rw [serialize] at hbytes
      have hlen : (writeInt32 (packVersion tx.nVersion tx.nType)).length=
          (writeInt32 n32bitVersion).length := by
        rw [writeInt32,writeInt32,length_leBytes,length_leBytes]
      have hword := writeInt32_injective (append_inj hbytes hlen).1
      exact ⟨hword ▸ htype,h⟩
    · intro ⟨htypeOf,h⟩
      have hbody := (codec_readBody (versionOf (packVersion tx.nVersion tx.nType))
        (typeOf (packVersion tx.nVersion tx.nType))).reads tx
        ⟨(versionOf_packVersion _ _).symm,htypeOf.symm,h⟩
      have hword := codec_readInt32.reads (packVersion tx.nVersion tx.nType) trivial
      have hall := @Reads.bind _ _ _ _ _ hword (fun n32bitVersion =>
        readBody (versionOf n32bitVersion) (typeOf n32bitVersion)) _ _ hbody []
      rw [append_nil] at hall
      exact hall

/-- A word with a negative version and a type of its own is written with another type. -/
theorem negativeVersion_notCanonical :
    unserialize.run [0x00,0x80,0x01,0x00,0,0,0,0,0,0]=some (⟨-32768,1,[],[],0,[]⟩,[]) ∧
    serialize ⟨-32768,1,[],[],0,[]⟩=[0x00,0x80,0xff,0xff,0,0,0,0,0,0] ∧
    unserialize.run (serialize ⟨-32768,1,[],[],0,[]⟩)=some (⟨-32768,-1,[],[],0,[]⟩,[]) := by
  decide

end Pyrk.TransactionEncoding
