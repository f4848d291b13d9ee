import Pyrk.AddrRuns
import Pyrk.UndoData

/-!
# File of the address manager

The file has the entries of both tables and, for each bucket of the new table, the numbers of the
entries in its slots. All else is made again from the entries.
-/

namespace Pyrk.AddrMan

open NetAddress SlotTable ByteReader UndoData

/-- What the file has of an entry. -/
structure AddrRecord where
  addr : CAddress
  source : CNetAddr
  nLastSuccess : ℤ
  nAttempts : ℤ
  deriving DecidableEq

/-- What is written of an entry. -/
def recordOf (info : CAddrInfo) : AddrRecord :=
  ⟨info.addr,info.source,info.nLastSuccess,info.nAttempts⟩

/-- Read a record over an entry; the rest of the entry stays as it is. -/
def AddrRecord.over (record : AddrRecord) (info : CAddrInfo) : CAddrInfo :=
  { info with
    addr := record.addr
    source := record.source
    nLastSuccess := record.nLastSuccess
    nAttempts := record.nAttempts }

/-- An entry before anything is read; its position is set before it is used. -/
def nullInfo : CAddrInfo where
  addr := { service := CService.null, nServices := 0 }
  source := ⟨CService.null.ip,CService.null.ip_length⟩
  nRandomPos := 0

structure AddrFile where
  nVersion : UInt8
  nKey : ℕ
  nNew : ℤ
  nTried : ℤ
  /-- Number of buckets of the new table, with a bit of it changed. -/
  nUBuckets : ℤ
  news : List AddrRecord
  trieds : List AddrRecord
  /-- Numbers of the entries in each bucket of the new table. -/
  buckets : List (List ℤ)

section Bytes

def writeSigned (width : ℕ) (n : ℤ) : List UInt8 := leBytes width (n%256^width).toNat

def readSigned (width : ℕ) : Reader ℤ := do
  let n ← readNumber width
  pure (if 2*n < 256^width then (n : ℤ) else n-256^width)

/-- Change the bit that makes old readers refuse the number of buckets. -/
def flipBuckets (nUBuckets : ℤ) : ℤ :=
  let n : ℕ := toUInt32 nUBuckets ^^^ (2^30)
  if 2*n < 2^32 then (n : ℤ) else n-2^32

/-- Bytes of an address and its port, which has its high byte first. -/
def writeService (service : CService) : List UInt8 :=
  service.ip++[UInt8.ofNat (service.port/256),UInt8.ofNat (service.port%256)]

/-- Read sixteen bytes of an address. -/
def readIP : Reader CNetAddr := do
  let ip ← readBytes 16
  if h : ip.length=16 then pure ⟨ip,h⟩ else failure

/-- Read an address and its port. -/
def readService : Reader CService := do
  let ip ← readIP
  let high ← readByte
  let low ← readByte
  pure ⟨ip.1,high.toNat*256+low.toNat,ip.2⟩

/-- Bytes of a record, with the version of the client in front. -/
def writeRecord (clientVersion : ℤ) (record : AddrRecord) : List UInt8 :=
  writeSigned 4 clientVersion++(leBytes 4 record.addr.nTime++(leBytes 8 record.addr.nServices++
    (writeService record.addr.service++(record.source.1++(writeSigned 8 record.nLastSuccess++
      writeSigned 4 record.nAttempts)))))

def readRecord : Reader AddrRecord := do
  let _ ← readSigned 4
  let nTime ← readNumber 4
  let nServices ← readNumber 8
  let service ← readService
  let source ← readIP
  let nLastSuccess ← readSigned 8
  let nAttempts ← readSigned 4
  pure ⟨⟨service,nServices,nTime⟩,source,nLastSuccess,nAttempts⟩

/-- Bytes of the numbers in a bucket. -/
def writeBucket (indices : List ℤ) : List UInt8 :=
  writeSigned 4 indices.length++indices.flatMap (writeSigned 4)

def readBucket : Reader (List ℤ) := do
  let nSize ← readSigned 4
  readMany (readSigned 4) nSize.toNat

def writeFile (clientVersion : ℤ) (file : AddrFile) : List UInt8 :=
  [file.nVersion]++([32]++(leBytes 32
    file.nKey++(writeSigned 4 file.nNew++(writeSigned 4 file.nTried++
    (writeSigned 4 file.nUBuckets++(file.news.flatMap (writeRecord clientVersion)++
      (file.trieds.flatMap (writeRecord clientVersion)++file.buckets.flatMap writeBucket)))))))

variable (nVersion : UInt8)

/-- Number of buckets that a file of a version has. -/
def bucketsOf (nUBuckets : ℤ) : ℤ :=
  if nVersion≠0 then flipBuckets nUBuckets else nUBuckets

/-- Read the entries and the buckets of a file whose numbers are not too large. -/
def readEntries (nKey : ℕ) (nNew nTried nUBuckets : ℤ) : Reader AddrFile :=
  if addrmanNewBucketCount*addrmanBucketSize < nNew then failure
  else if addrmanTriedBucketCount*addrmanBucketSize < nTried then failure
  else do
    let news ← readMany readRecord nNew.toNat
    let trieds ← readMany readRecord nTried.toNat
    let buckets ← readMany readBucket (bucketsOf nVersion nUBuckets).toNat
    pure ⟨nVersion,nKey,nNew,nTried,nUBuckets,news,trieds,buckets⟩

/-- Read the numbers in front of a file and then the rest. -/
def readNumbers : Reader AddrFile := do
  let nKey ← readNumber 32
  let nNew ← readSigned 4
  let nTried ← readSigned 4
  let nUBuckets ← readSigned 4
  readEntries nVersion nKey nNew nTried nUBuckets

def readFile : Reader AddrFile := do
  let nVersion ← readByte
  let nKeySize ← readByte
  if nKeySize≠32 then failure else readNumbers nVersion

end Bytes

namespace CAddrMan

variable (man : CAddrMan)

def newEntries : List (ℕ×CAddrInfo) :=
  man.mapInfo.entries.filter (fun entry => entry.2.nRefCount≠0)

def triedEntries : List (ℕ×CAddrInfo) :=
  man.mapInfo.entries.filter (fun entry => entry.2.fInTried)

def numberEntries : List (ℕ×CAddrInfo) → ℕ → OrderedMap ℕ ℕ → OrderedMap ℕ ℕ
  | [],_,mapUnkIds => mapUnkIds
  | entry::entries,nIds,mapUnkIds =>
    numberEntries entries (if entry.2.nRefCount≠0 then nIds+1 else nIds)
      (mapUnkIds.set entry.1 nIds)

/-- Number of an entry in the file. -/
def unkId (nId : ℕ) : ℕ :=
  ((numberEntries man.mapInfo.entries 0 OrderedMap.empty).find nId).getD 0

/-- Numbers of the entries in the slots of a bucket of the new table. -/
def bucketIndices (bucket : Fin addrmanNewBucketCount) : List ℤ :=
  (List.finRange addrmanBucketSize).filterMap (fun pos =>
    (man.vvNew bucket pos).map (fun nId => (man.unkId nId : ℤ)))

/-- Values of the file of an address manager. -/
def save : Option AddrFile :=
  if 0 ≤ man.nNew ∧ man.nNew < man.newEntries.length then none
  else if 0 ≤ man.nTried ∧ man.nTried < man.triedEntries.length then none
  else some
    { nVersion := 1
      nKey := man.nKey
      nNew := man.nNew
      nTried := man.nTried
      nUBuckets := flipBuckets addrmanNewBucketCount
      news := man.newEntries.map (fun entry => recordOf entry.2)
      trieds := man.triedEntries.map (fun entry => recordOf entry.2)
      buckets := (List.finRange addrmanNewBucketCount).map man.bucketIndices }

/-- Bytes of an address manager. -/
def serialize (clientVersion : ℤ) (man : CAddrMan) : Option (List UInt8) :=
  man.save.map (writeFile clientVersion)

/-- Forget everything but the entries and the map by address. -/
def clear (nKey : ℕ) : CAddrMan :=
  { man with
    vRandom := []
    nKey := nKey
    vvNew := fun _ _ => none
    vvTried := fun _ _ => none
    nIdCount := 0
    nTried := 0
    nNew := 0
    nLastGood := 1 }

variable (ctx : AddrContext)

variable (slotsKnown : Bool)

/-- Take an entry of the new table from a file, without slots to the one of its source. -/
def loadNew (man : CAddrMan) (entry : AddrRecord×ℕ) : CAddrMan :=
  let n := entry.2
  let info := entry.1.over ((man.mapInfo.find n).getD nullInfo)
  let man := { man with
    mapInfo := man.mapInfo.set n { info with nRandomPos := man.vRandom.length }
    mapAddr := man.mapAddr.set info.addr.service n
    vRandom := man.vRandom++[n] }
  if slotsKnown then man
  else
    let nUBucket := ctx.getNewBucket man.nKey info.addr.service info.source
    let nUBucketPos := man.newPosition ctx info.addr.service nUBucket
    if man.vvNew nUBucket nUBucketPos=none then
      let man := man.modifyInfo n (fun info => { info with nRefCount := info.nRefCount+1 })
      { man with vvNew := setSlot man.vvNew nUBucket nUBucketPos (some n) }
    else man

/-- Take an entry of the tried table from a file, unless its slot is taken. -/
def loadTried (st : CAddrMan×ℤ) (record : AddrRecord) : CAddrMan×ℤ :=
  let man := st.1
  let info := record.over nullInfo
  let nKBucket := ctx.getTriedBucket man.nKey info.addr.service
  let nKBucketPos := man.triedPosition ctx info.addr.service nKBucket
  if man.vvTried nKBucket nKBucketPos=none then
    ({ man with
      vRandom := man.vRandom++[man.nIdCount]
      mapInfo := man.mapInfo.set man.nIdCount
        { info with nRandomPos := man.vRandom.length, fInTried := true }
      mapAddr := man.mapAddr.set info.addr.service man.nIdCount
      vvTried := setSlot man.vvTried nKBucket nKBucketPos (some man.nIdCount)
      nIdCount := man.nIdCount+1 },st.2)
  else (man,st.2+1)

/-- Take the number in a slot of the new table from a file. -/
def loadSlot (bucket : ℕ) (man : CAddrMan) (nIndex : ℤ) : CAddrMan :=
  if 0 ≤ nIndex ∧ nIndex < man.nNew then
    match man.mapInfo.find nIndex.toNat with
    | none => man
    | some info =>
      if h : slotsKnown ∧ bucket < addrmanNewBucketCount then
        let nUBucketPos := man.newPosition ctx info.addr.service ⟨bucket,h.2⟩
        if man.vvNew ⟨bucket,h.2⟩ nUBucketPos=none ∧
            info.nRefCount < addrmanNewBucketsPerAddress then
          let man := man.modifyInfo nIndex.toNat (fun info =>
            { info with nRefCount := info.nRefCount+1 })
          { man with vvNew := setSlot man.vvNew ⟨bucket,h.2⟩ nUBucketPos (some nIndex.toNat) }
        else man
      else man
  else man

/-- Take the numbers in a bucket from a file. -/
def loadBucket (man : CAddrMan) (bucket : List ℤ×ℕ) : CAddrMan :=
  bucket.1.foldl (loadSlot ctx slotsKnown bucket.2) man

variable (man : CAddrMan)

/-- Drop an entry that got no slot. -/
def pruneEntry (entry : ℕ×CAddrInfo) : Option CAddrMan :=
  if entry.2.fInTried=false ∧ entry.2.nRefCount=0 then man.delete entry.1 else some man

/-- Take the values of a file. -/
def load (file : AddrFile) : Option CAddrMan :=
  let slotsKnown := file.nVersion=1 && bucketsOf file.nVersion file.nUBuckets=addrmanNewBucketCount
  let man := { man.clear file.nKey with nNew := file.nNew, nTried := file.nTried }
  let man := file.news.zipIdx.foldl (loadNew ctx slotsKnown) man
  let man := { man with nIdCount := file.nNew.toNat }
  let loaded := file.trieds.foldl (loadTried ctx) (man,0)
  let man := { loaded.1 with nTried := loaded.1.nTried-loaded.2 }
  let man := file.buckets.zipIdx.foldl (loadBucket ctx slotsKnown) man
  man.mapInfo.entries.foldlM pruneEntry man

/-- Read an address manager into another one. -/
def unserialize : Reader CAddrMan := do
  let file ← readFile
  match man.load ctx file with
  | none => failure
  | some loaded => pure loaded

end CAddrMan

/-- The fields of a record fit in their integers. -/
structure Storable (record : AddrRecord) : Prop where
  nTime : record.addr.nTime < 256^4
  nServices : record.addr.nServices < 256^8
  port : record.addr.service.port < 256*256
  /-- The time of the last answer has sixty-four bits with its sign. -/
  nLastSuccess : -2^63 ≤ record.nLastSuccess ∧ record.nLastSuccess < 2^63
  /-- The number of tries has thirty-two bits with its sign. -/
  nAttempts : -2^31 ≤ record.nAttempts ∧ record.nAttempts < 2^31

theorem reads_readSigned {width : ℕ} {n : ℤ} (hlow : -256^width ≤ 2*n) (hhigh : 2*n < 256^width) :
    Reads (readSigned width) (writeSigned width n) n := by
  have hcast : ((256^width : ℕ) : ℤ)=256^width := by norm_cast
  have hpos : 0 < (256^width : ℤ) := by
    rw [←hcast]
    exact Int.natCast_pos.mpr (Nat.pow_pos (by decide))
  have hnonneg := Int.emod_nonneg n (Int.ne_of_gt hpos)
  have hless := Int.emod_lt_of_pos n hpos
  have hfits : (n%256^width).toNat < 256^width := by omega
  refine (reads_readNumber hfits).map ?_
  have hvalue : (if 2*(n%256^width).toNat < 256^width then ((n%256^width).toNat : ℤ)
      else (n%256^width).toNat-256^width)=n := by
    rw [Int.toNat_of_nonneg hnonneg]
    rcases Int.lt_or_le n 0 with hneg | hnot
    · have hmod : n%256^width=n+256^width := by
        rw [←Int.add_emod_right,Int.emod_eq_of_lt (by omega) (by omega)]
      rw [if_neg (by omega),hmod]
      omega
    · have hmod : n%256^width=n := Int.emod_eq_of_lt hnot (by omega)
      rw [if_pos (by omega),hmod]
  rw [hvalue]
  exact reads_pure n

theorem exists_reads_readSigned (width : ℕ) (n : ℤ) :
    ∃ m,Reads (readSigned width) (writeSigned width n) m := by
  have hcast : ((256^width : ℕ) : ℤ)=256^width := by norm_cast
  have hpos : 0 < (256^width : ℤ) := by
    rw [←hcast]
    exact Int.natCast_pos.mpr (Nat.pow_pos (by decide))
  have hless := Int.emod_lt_of_pos n hpos
  have hfits : (n%256^width).toNat < 256^width := by omega
  exact ⟨_,(reads_readNumber hfits).map (reads_pure _)⟩

theorem reads_readIP (ip : CNetAddr) : Reads readIP ip.1 ip := by
  have hread := reads_readBytes ip.1
  rw [ip.2] at hread
  refine hread.map ?_
  rw [dif_pos ip.2]
  exact reads_pure ip

theorem reads_readService {service : CService} (hport : service.port < 256*256) :
    Reads readService (writeService service) service := by
  have hhigh : (UInt8.ofNat (service.port/256)).toNat=service.port/256 := by
    rw [UInt8.toNat_ofNat',Nat.mod_eq_of_lt (by omega)]
  have hlow : (UInt8.ofNat (service.port%256)).toNat=service.port%256 := by
    rw [UInt8.toNat_ofNat',Nat.mod_eq_of_lt (by omega)]
  refine (reads_readIP ⟨service.ip,service.ip_length⟩).bind ?_
  refine @Reads.bind _ _ readByte [_] _ (reads_readByte _) _ [_] _ ?_
  refine (reads_readByte _).map ?_
  rw [hhigh,hlow]
  have hsame : service.port/256*256+service.port%256=service.port := by omega
  rw [hsame]
  exact reads_pure service

theorem reads_readRecord (clientVersion : ℤ) {record : AddrRecord} (h : Storable record) :
    Reads readRecord (writeRecord clientVersion record) record := by
  obtain ⟨version,hver⟩ := exists_reads_readSigned 4 clientVersion
  refine hver.bind ?_
  refine (reads_readNumber h.nTime).bind ?_
  refine (reads_readNumber h.nServices).bind ?_
  refine (reads_readService h.port).bind ?_
  refine (reads_readIP record.source).bind ?_
  have hlast := h.nLastSuccess
  have htries := h.nAttempts
  refine (reads_readSigned (by omega) (by omega)).bind ?_
  exact (reads_readSigned (by omega) (by omega)).map (reads_pure record)

theorem reads_readBucket {indices : List ℤ} (hlen : indices.length < 2^31)
    (h : ∀ index∈indices,0 ≤ index ∧ index < 2^31) :
    Reads readBucket (writeBucket indices) indices := by
  refine (reads_readSigned (by omega) (by omega)).bind ?_
  rw [Int.toNat_natCast]
  refine reads_readMany (fun index hm => ?_)
  have hindex := h index hm
  exact reads_readSigned (by omega) (by omega)

/-- The values of a file fit in their integers and are as many as it says. -/
structure StorableFile (file : AddrFile) : Prop where
  nKey : file.nKey < 256^32
  nNew : file.nNew=file.news.length
  fewNews : file.news.length ≤ addrmanNewBucketCount*addrmanBucketSize
  nTried : file.nTried=file.trieds.length
  fewTrieds : file.trieds.length ≤ addrmanTriedBucketCount*addrmanBucketSize
  /-- The number of buckets has thirty-two bits with its sign. -/
  nUBuckets : -2^31 ≤ file.nUBuckets ∧ file.nUBuckets < 2^31
  buckets : (bucketsOf file.nVersion file.nUBuckets).toNat=file.buckets.length
  news : ∀ record∈file.news,Storable record
  trieds : ∀ record∈file.trieds,Storable record
  indices : ∀ indices∈file.buckets,indices.length < 2^31 ∧ ∀ index∈indices,0 ≤ index ∧ index < 2^31

theorem reads_readFile (clientVersion : ℤ) {file : AddrFile} (h : StorableFile file) :
    Reads readFile (writeFile clientVersion file) file := by
  have hnews : file.news.length ≤ 65536 := h.fewNews
  have htrieds : file.trieds.length ≤ 16384 := h.fewTrieds
  have hbuckets := h.nUBuckets
  have hcountNew := h.nNew
  have hcountTried := h.nTried
  refine (reads_readByte file.nVersion).bind ?_
  refine (reads_readByte 32).bind ?_
  rw [if_neg (not_not_intro rfl),readNumbers]
  refine (reads_readNumber h.nKey).bind ?_
  refine (reads_readSigned (by omega) (by omega)).bind ?_
  refine (reads_readSigned (by omega) (by omega)).bind ?_
  refine (reads_readSigned (by omega) (by omega)).bind ?_
  have hfew : ¬(addrmanNewBucketCount : ℤ)*addrmanBucketSize < file.nNew := by
    dsimp only [addrmanNewBucketCount,addrmanBucketSize]
    omega
  have hfewTried : ¬(addrmanTriedBucketCount : ℤ)*addrmanBucketSize < file.nTried := by
    dsimp only [addrmanTriedBucketCount,addrmanBucketSize]
    omega
  rw [readEntries,if_neg hfew,if_neg hfewTried,h.buckets]
  rw [show file.nNew.toNat=file.news.length by omega,
    show file.nTried.toNat=file.trieds.length by omega]
  refine (reads_readMany (fun record hm =>
    reads_readRecord clientVersion (h.news record hm))).bind ?_
  refine (reads_readMany (fun record hm =>
    reads_readRecord clientVersion (h.trieds record hm))).bind ?_
  refine (reads_readMany (fun indices hm =>
    reads_readBucket (h.indices indices hm).1 (h.indices indices hm).2)).map ?_
  exact reads_pure file

end Pyrk.AddrMan
