import Pyrk.SecureMessage

/-!
# Stored messages

A message is stored when it is of its time and no token of its bucket is the same, and then its
bytes are at the end of the file and its token is new.
-/

namespace Pyrk.SmsgRecords

open Script UndoData SecureMessage OrderedMap List

/-- Signed numbers of 64 bits. -/
def FitsInt64 (time : ℤ) : Prop := -2^63≤time ∧ time<2^63

instance (time : ℤ) : Decidable (FitsInt64 time) := inferInstanceAs (Decidable (_ ∧ _))

theorem toInt64_ofInt64 {time : ℤ} (hfits : FitsInt64 time) :
    toInt64 (littleEndian (leBytes 8 (ofInt64 time)))=time := by
  obtain ⟨hlow,hhigh⟩ := hfits
  have hcast : ((ofInt64 time : ℕ) : ℤ)=time%2^64 :=
    Int.toNat_of_nonneg (Int.emod_nonneg _ (by decide))
  have hlt : ofInt64 time<256^8 := by omega
  rw [littleEndian_leBytes 8 hlt,toInt64]
  split_ifs <;> omega

theorem length_slice {bytes : List UInt8} {first last : ℕ} (h : last≤bytes.length) :
    (slice bytes first last).length=last-first := by
  rw [slice,length_drop,length_take,Nat.min_eq_left h]

theorem slice_append {front : List UInt8} (rest : List UInt8) {first last : ℕ}
    (h : last≤front.length) : slice (front++rest) first last=slice front first last := by
  rw [slice,slice,take_append_of_le_length h]

/-- A header with a payload of the length that it claims. -/
structure Message where
  header : List UInt8
  payload : List UInt8
  header_length : header.length=smsgHdrLen
  payload_length : nPayload header=payload.length

namespace Message

def bytes (m : Message) : List UInt8 := m.header++m.payload

theorem length_bytes (m : Message) : m.bytes.length=smsgHdrLen+m.payload.length := by
  rw [bytes,length_append,m.header_length]

theorem payload_lt (m : Message) : m.payload.length<2^32 := by
  have hhdr : smsgHdrLen=104 := rfl
  have hlt := littleEndian_lt (slice m.header 100 104)
  have hlen : (slice m.header 100 104).length=4 :=
    length_slice (by rw [m.header_length,hhdr])
  rw [← m.payload_length,nPayload]
  rw [hlen] at hlt
  exact hlt

def time (m : Message) : ℤ := timestamp m.header

/-- Token of a message at a position. -/
def token (m : Message) (offset : ℕ) : SecMsgToken := makeToken m.header m.payload offset

/-- What makes the token of a message differ from others. -/
def key (m : Message) : ℤ×ₗℕ := (m.token 0).key

theorem key_token (m : Message) (offset : ℕ) : (m.token offset).key=m.key := rfl

theorem time_of_key {m other : Message} (he : m.key=other.key) : m.time=other.time :=
  congrArg (fun key => (ofLex key).1) he

/-- A message with a header that starts with the version is valid if its hash is. -/
def Valid (hashes : SmsgHashes) (m : Message) : Prop :=
  secureMsgValidate hashes m.header m.payload.length (.ok m.payload)=.ok 0

instance (hashes : SmsgHashes) (m : Message) : Decidable (m.Valid hashes) :=
  inferInstanceAs (Decidable (_=_))

/-- The message is not too old and not from the future. -/
def Timely (now : ℤ) (m : Message) : Prop := now-smsgRetention ≤ m.time ∧ m.time≤now+smsgTimeLeeway

/-- The bucket of the message has its token. -/
def Known (st : SmsgState) (m : Message) : Prop :=
  (bucketAt st.smsgBuckets (bucketTime m.time)).setTokens.contains m.key=true

end Message

section Fields

variable (m : Message) (rest : List UInt8)

theorem take_header : (m.bytes++rest).take smsgHdrLen=m.header := by
  rw [Message.bytes,append_assoc,← m.header_length,take_left]

theorem take_bytes : (m.bytes++rest).take (smsgHdrLen+m.payload.length)=m.bytes := by
  rw [← m.length_bytes,take_left]

theorem drop_bytes : (m.bytes++rest).drop (smsgHdrLen+m.payload.length)=rest := by
  rw [← m.length_bytes,drop_left]

theorem drop_header : (m.bytes++rest).drop smsgHdrLen=m.payload++rest := by
  rw [Message.bytes,append_assoc,← m.header_length,drop_left]

theorem nPayload_bytes : nPayload (m.bytes++rest)=m.payload.length := by
  have hlen : 104 ≤ m.header.length := Nat.le_of_eq m.header_length.symm
  rw [Message.bytes,append_assoc,nPayload,slice_append _ hlen]
  exact m.payload_length

theorem timestamp_bytes : timestamp (m.bytes++rest)=m.time := by
  have hlen : 15 ≤ m.header.length := by
    rw [m.header_length]
    exact by decide
  rw [Message.bytes,append_assoc,timestamp,slice_append _ hlen]
  rfl

end Fields

variable {hashes : SmsgHashes} {now : ℤ} {st : SmsgState} {m : Message} {fUpdateBucket : Bool}

/-- Tokens of a bucket that may be missing. -/
def tokensAt (st : SmsgState) (time : ℤ) : TokenSet := (bucketAt st.smsgBuckets time).setTokens

/-- The file of a bucket that may be missing. -/
def fileAt (st : SmsgState) (time : ℤ) : List UInt8 := (st.files.find time).getD []

def storeMessage (hashes : SmsgHashes) (now : ℤ) (st : SmsgState) (m : Message)
    (fUpdateBucket : Bool) : SmsgState :=
  (secureMsgStore hashes now st m.header m.payload fUpdateBucket).1

theorem store_accepted (htimely : m.Timely now) (hnew : ¬m.Known st) :
    secureMsgStore hashes now st m.header m.payload fUpdateBucket=
      (⟨changeBucket st.smsgBuckets (bucketTime m.time) (fun stored =>
          if fUpdateBucket then hashBucket hashes now { stored with
            setTokens := insertToken stored.setTokens
              (m.token (fileAt st (bucketTime m.time)).length) }
          else { stored with
            setTokens := insertToken stored.setTokens
              (m.token (fileAt st (bucketTime m.time)).length) }),
        st.files.set (bucketTime m.time) (fileAt st (bucketTime m.time)++m.bytes)⟩,true) := by
  have hold : ¬timestamp m.header<now-smsgRetention := Int.not_lt.mpr htimely.1
  have hfuture : ¬now+smsgTimeLeeway<timestamp m.header := Int.not_lt.mpr htimely.2
  rw [secureMsgStore,if_neg hfuture,if_neg hold]
  exact if_neg hnew

theorem store_refused (h : ¬(m.Timely now ∧ ¬m.Known st)) :
    secureMsgStore hashes now st m.header m.payload fUpdateBucket=(st,false) := by
  rw [secureMsgStore]
  by_cases hfuture : now+smsgTimeLeeway<timestamp m.header
  · rw [if_pos hfuture]
  · rw [if_neg hfuture]
    by_cases hold : timestamp m.header<now-smsgRetention
    · rw [if_pos hold]
    · rw [if_neg hold]
      have hknown : m.Known st := by
        by_contra hnew
        exact h ⟨⟨Int.not_lt.mp hold,Int.not_lt.mp hfuture⟩,hnew⟩
      have hbucket : st.smsgBuckets.contains (bucketTime m.time)=true := by
        by_contra hmissing
        have hnone := (st.smsgBuckets.contains_eq_false _).mp
          (Bool.eq_false_of_not_eq_true hmissing)
        unfold Message.Known bucketAt at hknown
        rw [hnone] at hknown
        exact absurd hknown Bool.false_ne_true
      have hsame : subscript st.smsgBuckets (bucketTime m.time)=st.smsgBuckets :=
        if_pos hbucket
      refine (if_pos hknown).trans ?_
      exact congrArg (fun smsgBuckets => ((⟨smsgBuckets,st.files⟩ : SmsgState),false)) hsame

theorem stored_iff :
    (secureMsgStore hashes now st m.header m.payload fUpdateBucket).2=true ↔
      m.Timely now ∧ ¬m.Known st := by
  by_cases h : m.Timely now ∧ ¬m.Known st
  · rw [store_accepted h.1 h.2]
    exact iff_of_true rfl h
  · rw [store_refused h]
    exact iff_of_false Bool.false_ne_true h

theorem bucketAt_changeBucket (smsgBuckets : Buckets) (time other : ℤ)
    (change : SecMsgBucket → SecMsgBucket) :
    bucketAt (changeBucket smsgBuckets time change) other=
      if other=time then change (bucketAt smsgBuckets time) else bucketAt smsgBuckets other := by
  rw [bucketAt,changeBucket,find_set]
  split_ifs <;> rfl

theorem tokensAt_store (htimely : m.Timely now) (hnew : ¬m.Known st) (time : ℤ) :
    tokensAt (storeMessage hashes now st m fUpdateBucket) time=
      if time=bucketTime m.time then
        insertToken (tokensAt st time) (m.token (fileAt st time).length)
      else tokensAt st time := by
  rw [storeMessage,store_accepted htimely hnew]
  dsimp only [tokensAt]
  rw [bucketAt_changeBucket]
  split_ifs with he hupdate
  · rw [he]
    rfl
  · rw [he]
  · rfl

theorem fileAt_store (htimely : m.Timely now) (hnew : ¬m.Known st) (time : ℤ) :
    fileAt (storeMessage hashes now st m fUpdateBucket) time=
      if time=bucketTime m.time then fileAt st time++m.bytes else fileAt st time := by
  rw [storeMessage,store_accepted htimely hnew]
  dsimp only [fileAt]
  rw [find_set]
  split_ifs with he
  · rw [he]
    rfl
  · rfl

theorem contains_insertToken (setTokens : TokenSet) (token : SecMsgToken) (key : ℤ×ₗℕ) :
    (insertToken setTokens token).contains key=true ↔
      key=token.key ∨ setTokens.contains key=true := by
  rw [OrderedMap.contains,insertToken,find_emplace,OrderedMap.contains]
  split_ifs with he
  · simp only [Option.isSome_some,he,true_or]
  · simp only [he,false_or]

theorem known_store (htimely : m.Timely now) (hnew : ¬m.Known st) (other : Message) :
    other.Known (storeMessage hashes now st m fUpdateBucket) ↔
      other.key=m.key ∨ other.Known st := by
  have htokens := @tokensAt_store hashes now st m fUpdateBucket htimely hnew
    (bucketTime other.time)
  unfold tokensAt at htokens
  unfold Message.Known
  rw [htokens]
  split_ifs with hbucket
  · rw [contains_insertToken,m.key_token]
  · refine (or_iff_right (fun he => hbucket ?_)).symm
    rw [Message.time_of_key he]

end Pyrk.SmsgRecords
