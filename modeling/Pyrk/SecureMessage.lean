import Pyrk.UndoData
import Pyrk.OrderedMap
import Pyrk.ExceptRules

/-!
# Store and exchange of secure messages

Messages lie in files of ten minutes each, with a bucket of places and a hash over all of them. What
a peer sends is read at offsets; a read outside of it is a fault.
-/

namespace Pyrk.SecureMessage

open Script

/-- Bytes of a message header. -/
def smsgHdrLen : ℕ := 104

/-- Bytes of the header inside a signed payload. -/
def smsgPlHdrLen : ℕ := 1+20+65+4

/-- Seconds of a bucket. -/
def smsgBucketLen : ℤ := 60*10

/-- Seconds for which messages are kept. -/
def smsgRetention : ℤ := 60*60*48

/-- Seconds that a time may lie in the future. -/
def smsgTimeLeeway : ℤ := 60

def smsgMaxMsgBytes : ℕ := 4096

/-- Most bytes that compression makes of a number of bytes. -/
def lz4CompressBound (isize : ℕ) : ℕ := isize+isize/255+16

/-- Bytes of a payload. -/
def smsgMaxMsgWorst : ℕ := lz4CompressBound (smsgMaxMsgBytes+smsgPlHdrLen)

section Reading

/-- How reading can go wrong. -/
inductive Fault where
  | outOfRange
  deriving DecidableEq

/-- Code that reads bytes. -/
abbrev Run := Except Fault

variable (vchData : List UInt8)

/-- Read some bytes of a vector. -/
def readAt (offset size : ℕ) : Run (List UInt8) :=
  if offset+size≤vchData.length then .ok ((vchData.drop offset).take size) else .error .outOfRange

/-- Signed number of 64 bits. -/
def toInt64 (n : ℕ) : ℤ := if n%2^64<2^63 then ((n%2^64 : ℕ) : ℤ) else ((n%2^64 : ℕ) : ℤ)-2^64

/-- Unsigned form of a signed number of 64 bits. -/
def ofInt64 (time : ℤ) : ℕ := (time%2^64).toNat

/-- Read an unsigned number of 32 bits. -/
def readUInt32 (offset : ℕ) : Run ℕ := do
  let bytes ← readAt vchData offset 4
  .ok (littleEndian bytes)

/-- Read a signed number of 64 bits. -/
def readInt64 (offset : ℕ) : Run ℤ := do
  let bytes ← readAt vchData offset 8
  .ok (toInt64 (littleEndian bytes))

/-- Passes of a loop whose limit lies in a signed integer of 32 bits. -/
def loopCount (n : ℕ) : ℕ := if n%2^32<2^31 then n%2^32 else 0

end Reading

section Headers

variable (header : List UInt8)

/-- First byte of the version in a header. -/
def version : UInt8 := byteAt header 4

/-- Time of a message. -/
def timestamp : ℤ := toInt64 (littleEndian (slice header 7 15))

/-- Number searched for the proof of work. -/
def nonse : List UInt8 := slice header 96 100

/-- Claimed length of the payload. -/
def nPayload : ℕ := littleEndian (slice header 100 104)

end Headers

/-- Hash functions of messages. -/
structure SmsgHashes where
  hmacSha256 : List UInt8 → List UInt8 → List UInt8
  xxh32 : List UInt8 → ℕ

/-- Where a message lies. -/
structure SecMsgToken where
  timestamp : ℤ
  sample : List UInt8
  offset : ℕ
  deriving DecidableEq

/-- Number that orders bytes as memory is compared. -/
def bigEndian (bytes : List UInt8) : ℕ := bytes.foldl (fun n byte => n*256+byte.toNat) 0

/-- Tokens are ordered by time and then by sample. -/
def SecMsgToken.key (token : SecMsgToken) : ℤ×ₗℕ := toLex (token.timestamp,bigEndian token.sample)

/-- Token of a message. A payload that is too short has no sample. -/
def makeToken (header payload : List UInt8) (offset : ℕ) : SecMsgToken :=
  ⟨timestamp header,if payload.length<8 then List.replicate 8 0 else payload.take 8,offset⟩

abbrev TokenSet := OrderedMap (ℤ×ₗℕ) SecMsgToken

/-- Add a token that is not there. -/
def insertToken (setTokens : TokenSet) (token : SecMsgToken) : TokenSet :=
  setTokens.emplace token.key token

section Buckets

/-- Messages of ten minutes. -/
structure SecMsgBucket where
  timeChanged : ℤ := 0
  hash : ℕ := 0
  nLockCount : ℕ := 0
  nLockPeerId : ℕ := 0
  setTokens : TokenSet := .empty

/-- Hash over the samples of all messages. -/
def digest (hashes : SmsgHashes) (setTokens : TokenSet) : ℕ :=
  hashes.xxh32 (setTokens.values.flatMap SecMsgToken.sample)

def hashBucket (hashes : SmsgHashes) (now : ℤ) (bucket : SecMsgBucket) : SecMsgBucket :=
  { bucket with timeChanged := now, hash := digest hashes bucket.setTokens }

def bucketTime (time : ℤ) : ℤ := time-time.tmod smsgBucketLen

abbrev Buckets := OrderedMap ℤ SecMsgBucket

variable (smsgBuckets : Buckets)

/-- Buckets after one is looked up with a subscript, which makes a missing one. -/
def subscript (time : ℤ) : Buckets := smsgBuckets.emplace time {}

/-- The bucket that a subscript finds or makes. -/
def bucketAt (time : ℤ) : SecMsgBucket := (smsgBuckets.find time).getD {}

def changeBucket (time : ℤ) (change : SecMsgBucket → SecMsgBucket) : Buckets :=
  smsgBuckets.set time (change (bucketAt smsgBuckets time))

/-- Buckets in memory and messages on disk. -/
structure SmsgState where
  smsgBuckets : Buckets := .empty
  files : OrderedMap ℤ (List UInt8) := .empty

end Buckets

variable (hashes : SmsgHashes) (now : ℤ)

section Messages

/-- Key of the proof of work. -/
def powKey (header : List UInt8) : List UInt8 := (List.replicate 8 (nonse header)).flatten

/-- Hash of a message, which has the payload twice. -/
def powHash (header payload : List UInt8) : List UInt8 :=
  hashes.hmacSha256 (powKey header) (header.drop 4++(payload++payload))

/-- A hash with enough zeros at its end. -/
def powFound (sha256Hash : List UInt8) : Bool :=
  byteAt sha256Hash 31=0 && byteAt sha256Hash 30=0 && byteAt sha256Hash 29%2=0

/-- Check a message; the payload is read after its claimed length was looked at. -/
def secureMsgValidate (header : List UInt8) (nPayload : ℕ) (pPayload : Run (List UInt8)) : Run ℕ :=
  if version header≠1 then .ok 4
  else if smsgMaxMsgWorst<nPayload then .ok 5
  else do
    let payload ← pPayload
    let sha256Hash := powHash hashes header payload
    if header.take 4≠sha256Hash.take 4 then .ok 3
    else if powFound sha256Hash then .ok 0 else .ok 2

/-- Put a message into the file and the bucket of its time. -/
def secureMsgStore (st : SmsgState) (header payload : List UInt8) (fUpdateBucket : Bool) :
    SmsgState×Bool :=
  if now+smsgTimeLeeway<timestamp header then (st,false)
  else if timestamp header<now-smsgRetention then (st,false)
  else
    let bucket := bucketTime (timestamp header)
    let token := makeToken header payload 0
    if (bucketAt st.smsgBuckets bucket).setTokens.contains token.key then
      ({ st with smsgBuckets := subscript st.smsgBuckets bucket },false)
    else
      let file := (st.files.find bucket).getD []
      let insert := fun stored : SecMsgBucket =>
        { stored with setTokens := insertToken stored.setTokens { token with offset :=
          file.length } }
      let change := fun stored =>
        if fUpdateBucket then hashBucket hashes now (insert stored) else insert stored
      (⟨changeBucket st.smsgBuckets bucket change,
        st.files.set bucket (file++(header++payload))⟩,true)

variable (files : OrderedMap ℤ (List UInt8))

/-- Take the message of a token from its file. -/
def secureMsgRetrieve (token : SecMsgToken) : Option (List UInt8) :=
  match files.find (bucketTime token.timestamp) with
  | none => none
  | some file =>
    let rest := file.drop token.offset
    if rest.length < smsgHdrLen then none
    else if rest.length < smsgHdrLen+nPayload rest then none
    else some (rest.take (smsgHdrLen+nPayload rest))

/-- Tokens of a file from some position on. A payload that is too short for a
sample is not skipped. -/
def scanFile (setTokens : TokenSet) (offset : ℕ) (rest : List UInt8) : TokenSet :=
  if rest.length < smsgHdrLen then setTokens
  else if nPayload rest<8 then scanFile setTokens (offset+smsgHdrLen) (rest.drop smsgHdrLen)
  else if rest.length < smsgHdrLen+8 then setTokens
  else
    scanFile (insertToken setTokens ⟨timestamp rest,slice rest smsgHdrLen (smsgHdrLen+8),offset⟩)
      (offset+(smsgHdrLen+nPayload rest)) (rest.drop (smsgHdrLen+nPayload rest))
termination_by rest.length
decreasing_by
  all_goals
    have hpos : smsgHdrLen=104 := rfl
    rw [List.length_drop]
    omega

/-- Take up a file, or remove it if its bucket is too old. -/
def buildBucket (st : SmsgState) (file : ℤ×List UInt8) : SmsgState :=
  if file.1<now-smsgRetention then { st with files := st.files.erase file.1 }
  else
    { st with smsgBuckets := changeBucket st.smsgBuckets file.1 (fun bucket =>
      hashBucket hashes now { bucket with setTokens := scanFile bucket.setTokens 0 file.2 }) }

/-- Buckets of the files, which are taken up one by one. -/
def secureMsgBuildBucketSet : SmsgState :=
  files.entries.foldl (buildBucket hashes now) ⟨.empty,files⟩

end Messages

/-- Where the loop over a bunch of messages is. -/
structure BunchState where
  n : ℕ
  st : SmsgState
  misbehaving : ℕ := 0
  /-- What was given to the check, with its position. -/
  offered : List (ℕ×List UInt8) := []

/-- Go through a bunch of messages. A message that is not valid is not skipped. -/
def receiveLoop (vchData : List UInt8) : ℕ → BunchState → Run BunchState
  | 0,bunch => .ok bunch
  | left+1,bunch =>
    if (vchData.length+2^64-bunch.n)%2^64 < smsgHdrLen then .ok bunch
    else do
      let header ← readAt vchData bunch.n smsgHdrLen
      let pPayload := readAt vchData (bunch.n+smsgHdrLen) (nPayload header)
      let offered := bunch.offered++
        [(bunch.n,(vchData.drop bunch.n).take (smsgHdrLen+nPayload header))]
      let rv ← secureMsgValidate hashes header (nPayload header) pPayload
      if rv≠0 then
        receiveLoop vchData left { bunch with
          offered := offered
          misbehaving := bunch.misbehaving+if rv=2 then 10 else 1 }
      else
        let payload ← pPayload
        let stored := secureMsgStore hashes now bunch.st header payload false
        if !stored.2 then .ok { bunch with st := stored.1, offered := offered }
        else
          receiveLoop vchData left { bunch with
            n := (bunch.n+smsgHdrLen+nPayload header)%2^32
            st := stored.1
            offered := offered }

/-- Drop the lock of a bucket and compute its hash. -/
def releaseBucket (bucket : SecMsgBucket) : SecMsgBucket :=
  hashBucket hashes now { bucket with nLockCount := 0, nLockPeerId := 0 }

/-- Take a bunch of messages from a peer. -/
def secureMsgReceive (st : SmsgState) (vchData : List UInt8) : Run BunchState :=
  if vchData.length<12 then .ok ⟨0,st,0,[]⟩
  else do
    let nBunch ← readUInt32 vchData 0
    let bktTime ← readInt64 vchData 4
    if now+smsgTimeLeeway<bktTime then .ok ⟨0,st,0,[]⟩
    else if bktTime<now-smsgRetention then .ok ⟨0,st,0,[]⟩
    else if nBunch=0 ∨ 500<nBunch then
      let released := if st.smsgBuckets.contains bktTime then
        changeBucket st.smsgBuckets bktTime (fun bucket => { bucket with nLockCount := 0 })
        else st.smsgBuckets
      .ok ⟨0,{ st with smsgBuckets := released },1,[]⟩
    else
      let bunch ← receiveLoop hashes now vchData nBunch ⟨12,st,0,[]⟩
      if bunch.st.smsgBuckets.contains bktTime then
        .ok { bunch with st := { bunch.st with
          smsgBuckets := changeBucket bunch.st.smsgBuckets bktTime (releaseBucket hashes now) } }
      else .ok bunch

end Pyrk.SecureMessage
