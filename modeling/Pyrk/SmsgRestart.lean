import Pyrk.SmsgBunches

/-!
# The store after a restart

Tokens are kept in memory only. After a restart the files are read from their start, and a payload
too short for a sample is taken for a header.
-/

namespace Pyrk.SmsgRestart

open Script SecureMessage SmsgRecords SmsgBunches OrderedMap List Option

section Scanning

/-- Tokens of messages that lie one behind the other from some position on. -/
def insertAll : TokenSet → ℕ → List Message → TokenSet
  | setTokens,_,[] => setTokens
  | setTokens,n,m::msgs => insertAll (insertToken setTokens (m.token n)) (n+m.bytes.length) msgs

variable {setTokens : TokenSet} {m : Message} {msgs front back : List Message} {n : ℕ}

theorem bunchOf_cons (m : Message) (msgs : List Message) :
    bunchOf (m::msgs)=m.bytes++bunchOf msgs := flatMap_cons

theorem bunchOf_append (front back : List Message) :
    bunchOf (front++back)=bunchOf front++bunchOf back := flatMap_append

theorem insertAll_append :
    insertAll setTokens n (front++back)=
      insertAll (insertAll setTokens n front) (n+(bunchOf front).length) back := by
  induction front generalizing setTokens n with
  | nil => rfl
  | cons m front ih =>
    have he : n+m.bytes.length+(bunchOf front).length=n+(bunchOf (m::front)).length := by
      rw [bunchOf_cons,length_append]
      omega
    rw [cons_append,insertAll,insertAll,ih,he]

theorem token_of_long (hlong : 8 ≤ m.payload.length) (rest : List UInt8) :
    (⟨timestamp (m.bytes++rest),slice (m.bytes++rest) smsgHdrLen (smsgHdrLen+8),n⟩ : SecMsgToken)=
      m.token n := by
  have hsample : slice (m.bytes++rest) smsgHdrLen (smsgHdrLen+8)=m.payload.take 8 := by
    rw [slice,drop_take,drop_header,Nat.add_sub_cancel_left,take_append_of_le_length hlong]
  rw [Message.token,makeToken,if_neg (Nat.not_lt.mpr hlong),timestamp_bytes,hsample]
  rfl

theorem scanFile_long (hlong : 8 ≤ m.payload.length) (rest : List UInt8) :
    scanFile setTokens n (m.bytes++rest)=
      scanFile (insertToken setTokens (m.token n)) (n+m.bytes.length) rest := by
  have hlen : (m.bytes++rest).length=smsgHdrLen+m.payload.length+rest.length := by
    rw [length_append,m.length_bytes]
  rw [scanFile,if_neg (by omega),nPayload_bytes,if_neg (by omega),if_neg (by omega),
    token_of_long hlong,drop_bytes,m.length_bytes]

theorem scanFile_short (hshort : m.payload.length<8) (rest : List UInt8) :
    scanFile setTokens n (m.bytes++rest)=scanFile setTokens (n+smsgHdrLen) (m.payload++rest) := by
  have hlen : (m.bytes++rest).length=smsgHdrLen+m.payload.length+rest.length := by
    rw [length_append,m.length_bytes]
  rw [scanFile,if_neg (by omega),nPayload_bytes,if_pos hshort,drop_header]

theorem scanFile_all (hlong : ∀ m∈msgs, 8 ≤ m.payload.length) (rest : List UInt8) :
    scanFile setTokens n (bunchOf msgs++rest)=
      scanFile (insertAll setTokens n msgs) (n+(bunchOf msgs).length) rest := by
  induction msgs generalizing setTokens n with
  | nil => rfl
  | cons m msgs ih =>
    obtain ⟨hm,hmsgs⟩ := forall_mem_cons.mp hlong
    have he : n+m.bytes.length+(bunchOf msgs).length=n+(bunchOf (m::msgs)).length := by
      rw [bunchOf_cons,length_append]
      omega
    rw [bunchOf_cons,append_assoc,scanFile_long hm,ih hmsgs,insertAll,he,bunchOf_cons]

theorem scanFile_nil : scanFile setTokens n []=setTokens := by
  have hshort : ([] : List UInt8).length < smsgHdrLen := Nat.succ_pos 103
  rw [scanFile,if_pos hshort]

theorem mem_insertToken {token added : SecMsgToken}
    (hm : token∈(insertToken setTokens added).values) : token∈setTokens.values ∨ token=added := by
  rw [mem_values_iff] at hm ⊢
  obtain ⟨key,hfind⟩ := hm
  rw [insertToken,find_emplace] at hfind
  split_ifs at hfind with he
  · cases hsome : setTokens.find added.key with
    | none =>
      rw [hsome] at hfind
      exact .inr (some.inj hfind).symm
    | some first =>
      rw [hsome] at hfind
      exact .inl ⟨added.key,hsome.trans hfind⟩
  · exact .inl ⟨key,hfind⟩

variable {token : SecMsgToken}

theorem scanFile_forward {rest : List UInt8}
    (hm : token∈(scanFile setTokens n rest).values) : token∈setTokens.values ∨ n≤token.offset := by
  induction setTokens,n,rest using scanFile.induct with
  | case1 setTokens n rest hshort =>
    rw [scanFile,if_pos hshort] at hm
    exact .inl hm
  | case2 setTokens n rest hhdr hshort ih =>
    rw [scanFile,if_neg hhdr,if_pos hshort] at hm
    rcases ih hm with hold | hbehind
    · exact .inl hold
    · exact .inr (by omega)
  | case3 setTokens n rest hhdr hlong hend =>
    rw [scanFile,if_neg hhdr,if_neg hlong,if_pos hend] at hm
    exact .inl hm
  | case4 setTokens n rest hhdr hlong hend ih =>
    rw [scanFile,if_neg hhdr,if_neg hlong,if_neg hend] at hm
    rcases ih hm with hadded | hbehind
    · rcases mem_insertToken hadded with hold | he
      · exact .inl hold
      · exact .inr (by rw [he])
    · exact .inr (by omega)

theorem insertAll_before (hm : token∈(insertAll setTokens n msgs).values) :
    token∈setTokens.values ∨ token.offset<n+(bunchOf msgs).length := by
  induction msgs generalizing setTokens n with
  | nil => exact .inl hm
  | cons m msgs ih =>
    have hhdr : smsgHdrLen=104 := rfl
    have hlen := m.length_bytes
    rw [bunchOf_cons,length_append]
    rcases ih hm with hadded | hbefore
    · rcases mem_insertToken hadded with hold | he
      · exact .inl hold
      · have hoffset : token.offset=n := congrArg SecMsgToken.offset he
        exact .inr (by omega)
    · exact .inr (by omega)

theorem scanFile_misses (hlong : ∀ m∈front, 8 ≤ m.payload.length) (hshort : m.payload.length<8)
    (rest : List UInt8)
    (hm : token∈(scanFile .empty 0 (bunchOf front++(m.bytes++rest))).values) :
    token.offset≠(bunchOf front).length := by
  have hhdr : smsgHdrLen=104 := rfl
  rw [scanFile_all hlong,scanFile_short hshort] at hm
  rcases scanFile_forward hm with hbefore | hbehind
  · rcases insertAll_before hbefore with hnone | hlt
    · exact absurd hnone not_mem_nil
    · omega
  · omega

end Scanning

section Lookups

variable {setTokens : TokenSet} {m : Message} {msgs front back : List Message} {n : ℕ}

theorem find_insertAll_other {key : ℤ×ₗℕ} (hother : ∀ m∈msgs, m.key≠key) :
    (insertAll setTokens n msgs).find key=setTokens.find key := by
  induction msgs generalizing setTokens n with
  | nil => rfl
  | cons m msgs ih =>
    obtain ⟨hm,hmsgs⟩ := forall_mem_cons.mp hother
    rw [insertAll,ih hmsgs,insertToken,find_emplace,m.key_token,if_neg hm.symm]

theorem find_insertAll (hdistinct : (front++m::back).Pairwise (fun m other => m.key≠other.key)) :
    (insertAll .empty 0 (front++m::back)).find m.key=some (m.token (bunchOf front).length) := by
  obtain ⟨-,hback,hfront⟩ := pairwise_append.mp hdistinct
  have hbehind : ∀ other∈back, other.key≠m.key := fun other hm =>
    ((pairwise_cons.mp hback).1 other hm).symm
  have hbefore : ∀ other∈front, other.key≠m.key := fun other hm =>
    hfront other hm m mem_cons_self
  rw [insertAll_append,insertAll,find_insertAll_other hbehind,Nat.zero_add,insertToken,
    find_emplace,m.key_token,if_pos rfl,find_insertAll_other hbefore]
  rfl

theorem mem_insertAll {token : SecMsgToken} (hm : token∈(insertAll setTokens n msgs).values) :
    token∈setTokens.values ∨ ∃ front m back, msgs=front++m::back ∧
      token=m.token (n+(bunchOf front).length) := by
  induction msgs generalizing setTokens n with
  | nil => exact .inl hm
  | cons m msgs ih =>
    rcases ih hm with hadded | ⟨front,other,back,he,htoken⟩
    · rcases mem_insertToken hadded with hold | he
      · exact .inl hold
      · exact .inr ⟨[],m,msgs,rfl,he⟩
    · refine .inr ⟨m::front,other,back,by rw [he,cons_append],?_⟩
      rw [htoken,bunchOf_cons,length_append,Nat.add_assoc]

theorem retrieve_placed {files : OrderedMap ℤ (List UInt8)}
    (hfile : files.find (bucketTime m.time)=some (bunchOf (front++m::back))) :
    secureMsgRetrieve files (m.token (bunchOf front).length)=some m.bytes := by
  have hrest : (bunchOf (front++m::back)).drop (bunchOf front).length=m.bytes++bunchOf back := by
    rw [bunchOf_append,bunchOf_cons,drop_left]
  have hlen : (m.bytes++bunchOf back).length=smsgHdrLen+m.payload.length+(bunchOf back).length := by
    rw [length_append,m.length_bytes]
  have hoffset : (m.token (bunchOf front).length).offset=(bunchOf front).length := rfl
  have htime : (m.token (bunchOf front).length).timestamp=m.time := rfl
  rw [secureMsgRetrieve,htime,hfile]
  dsimp only
  rw [hoffset,hrest,nPayload_bytes,if_neg (by omega),if_neg (by omega),take_bytes]

end Lookups

variable {hashes : SmsgHashes} {now : ℤ}

section Runs

/-- A message that passed the check comes to the store. -/
structure Arrival (hashes : SmsgHashes) where
  now : ℤ
  message : Message
  fUpdateBucket : Bool
  valid : message.Valid hashes

/-- The store takes a message; those that it kept are listed. -/
def storeArrival (run : SmsgState×List Message)
    (arrival : Arrival hashes) : SmsgState×List Message :=
  let stored := secureMsgStore hashes arrival.now run.1 arrival.message.header
    arrival.message.payload arrival.fUpdateBucket
  (stored.1,if stored.2 then run.2++[arrival.message] else run.2)

variable (arrivals : List (Arrival hashes))

/-- An empty store takes messages one after the other. -/
def storeArrivals : SmsgState×List Message :=
  arrivals.foldl storeArrival ({},[])

def ofBucket (msgs : List Message) (time : ℤ) : List Message :=
  msgs.filter (fun m => bucketTime m.time=time)

/-- Files and tokens are those of the messages that were kept. -/
structure Consistent (st : SmsgState) (msgs : List Message) : Prop where
  tokens : ∀ time, tokensAt st time=insertAll .empty 0 (ofBucket msgs time)
  files : ∀ time, fileAt st time=bunchOf (ofBucket msgs time)
  known : ∀ m : Message, m.Known st ↔ ∃ other∈msgs, m.key=other.key
  distinct : msgs.Pairwise (fun m other => m.key≠other.key)

theorem ofBucket_snoc (msgs : List Message) (m : Message) (time : ℤ) :
    ofBucket (msgs++[m]) time=
      if time=bucketTime m.time then ofBucket msgs time++[m] else ofBucket msgs time := by
  rw [ofBucket,filter_append]
  split_ifs with he
  · have hm : [m].filter (fun m => decide (bucketTime m.time=time))=[m] := by
      simp only [filter_cons,he,decide_true,if_true,filter_nil]
    rw [hm]
    rfl
  · have hm : [m].filter (fun m => decide (bucketTime m.time=time))=[] := by
      simp only [filter_cons,decide_eq_true_eq,if_neg (Ne.symm he),filter_nil]
    rw [hm,append_nil]
    rfl

theorem Consistent.store {st : SmsgState} {msgs : List Message} {m : Message}
    {fUpdateBucket : Bool} (h : Consistent st msgs) (htimely : m.Timely now)
    (hnew : ¬m.Known st) :
    Consistent (storeMessage hashes now st m fUpdateBucket) (msgs++[m]) := by
  refine ⟨?_,?_,?_,?_⟩
  · intro time
    rw [tokensAt_store htimely hnew,ofBucket_snoc]
    split_ifs with he
    · rw [h.tokens,h.files,insertAll_append,Nat.zero_add]
      rfl
    · exact h.tokens time
  · intro time
    rw [fileAt_store htimely hnew,ofBucket_snoc]
    split_ifs with he
    · rw [h.files,bunchOf_append,bunchOf_cons]
      exact congrArg _ (append_nil _).symm
    · exact h.files time
  · intro other
    rw [known_store htimely hnew,h.known]
    simp only [mem_append,mem_singleton,or_and_right,exists_or,exists_eq_left]
    exact or_comm
  · refine pairwise_append.mpr ⟨h.distinct,pairwise_singleton _ _,?_⟩
    intro other hm last hlast he
    rw [mem_singleton.mp hlast] at he
    exact hnew ((h.known m).mpr ⟨other,hm,he.symm⟩)

theorem Consistent.arrival {run : SmsgState×List Message} (h : Consistent run.1 run.2)
    (arrival : Arrival hashes) :
    Consistent (storeArrival run arrival).1 (storeArrival run arrival).2 := by
  rw [storeArrival]
  by_cases hstore : arrival.message.Timely arrival.now ∧ ¬arrival.message.Known run.1
  · rw [if_pos (stored_iff.mpr hstore)]
    exact h.store hstore.1 hstore.2
  · rw [store_refused hstore]
    exact h

theorem consistent_storeArrivals :
    Consistent (storeArrivals arrivals).1 (storeArrivals arrivals).2 := by
  have hstart : Consistent {} [] := by
    refine ⟨fun _ => rfl,fun _ => rfl,?_,List.Pairwise.nil⟩
    intro m
    refine iff_of_false (fun hknown => absurd hknown Bool.false_ne_true) ?_
    simp only [not_mem_nil,false_and,exists_false,not_false_iff]
  have hrun : ∀ run : SmsgState×List Message, Consistent run.1 run.2 →
      Consistent (arrivals.foldl storeArrival run).1 (arrivals.foldl storeArrival run).2 := by
    induction arrivals with
    | nil => exact fun run h => h
    | cons arrival arrivals ih => exact fun run h => ih _ (h.arrival arrival)
  exact hrun ({},[]) hstart

end Runs

section Rebuilding

theorem tokensAt_buildBucket (st : SmsgState) (file : ℤ×List UInt8) (time : ℤ) :
    tokensAt (buildBucket hashes now st file) time=
      if time=file.1 ∧ ¬file.1<now-smsgRetention then scanFile (tokensAt st time) 0 file.2
      else tokensAt st time := by
  rw [buildBucket]
  by_cases hold : file.1<now-smsgRetention
  · rw [if_pos hold,if_neg (fun h => h.2 hold)]
    rfl
  · rw [if_neg hold]
    dsimp only [tokensAt]
    rw [bucketAt_changeBucket]
    by_cases he : time=file.1
    · rw [if_pos he,if_pos ⟨he,hold⟩,he]
      rfl
    · rw [if_neg he,if_neg (fun h => he h.1)]

theorem files_buildBucket {st : SmsgState} {file : ℤ×List UInt8} {time : ℤ}
    (hkeep : ¬time<now-smsgRetention) :
    (buildBucket hashes now st file).files.find time=st.files.find time := by
  rw [buildBucket]
  by_cases hold : file.1<now-smsgRetention
  · have hne : time≠file.1 := fun he => hkeep (by rw [he]; exact hold)
    rw [if_pos hold]
    exact find_erase_of_ne _ hne
  · rw [if_neg hold]

variable {entries : List (ℤ×List UInt8)} {st : SmsgState} {time : ℤ}

theorem files_build (hkeep : ¬time<now-smsgRetention) :
    (entries.foldl (buildBucket hashes now) st).files.find time=st.files.find time := by
  induction entries generalizing st with
  | nil => rfl
  | cons file entries ih => rw [foldl_cons,ih,files_buildBucket hkeep]

theorem tokensAt_build_other (hother : time<now-smsgRetention ∨ ∀ file∈entries, file.1≠time) :
    tokensAt (entries.foldl (buildBucket hashes now) st) time=tokensAt st time := by
  induction entries generalizing st with
  | nil => rfl
  | cons file entries ih =>
    have hfile : ¬(time=file.1 ∧ ¬file.1<now-smsgRetention) := by
      grind
    have hrest : time<now-smsgRetention ∨ ∀ file∈entries, file.1≠time :=
      hother.imp_right (fun hne file hm => hne file (mem_cons_of_mem _ hm))
    rw [foldl_cons,ih hrest,tokensAt_buildBucket,if_neg hfile]

theorem tokensAt_build_file {bytes : List UInt8} (hkeep : ¬time<now-smsgRetention)
    (hnodup : (entries.map Prod.fst).Nodup) (hm : (time,bytes)∈entries) :
    tokensAt (entries.foldl (buildBucket hashes now) st) time=
      scanFile (tokensAt st time) 0 bytes := by
  induction entries generalizing st with
  | nil => exact absurd hm not_mem_nil
  | cons file entries ih =>
    rw [map_cons,nodup_cons] at hnodup
    rw [foldl_cons]
    rcases mem_cons.mp hm with he | hrest
    · have hother : ∀ other∈entries, other.1≠time := by
        grind
      rw [tokensAt_build_other (.inr hother),tokensAt_buildBucket,← he,if_pos ⟨rfl,hkeep⟩]
    · have hne : time≠file.1 := by
        grind
      rw [ih hnodup.2 hrest,tokensAt_buildBucket,if_neg (fun h => hne h.1)]

theorem tokensAt_rebuilt (st : SmsgState) (time : ℤ) :
    tokensAt (secureMsgBuildBucketSet hashes now st.files) time=
      if time<now-smsgRetention then .empty else scanFile .empty 0 (fileAt st time) := by
  rw [secureMsgBuildBucketSet]
  by_cases hold : time<now-smsgRetention
  · rw [if_pos hold,tokensAt_build_other (.inl hold)]
    rfl
  · rw [if_neg hold]
    cases hfind : st.files.find time with
    | none =>
      have hother : ∀ file∈st.files.entries, file.1≠time := by
        intro file hm he
        have hsome := (st.files.mem_entries_iff file.1 file.2).mp hm
        rw [he,hfind] at hsome
        cases hsome
      rw [tokensAt_build_other (.inr hother),fileAt,hfind,getD_none,scanFile_nil]
      rfl
    | some bytes =>
      have hm := (st.files.mem_entries_iff time bytes).mpr hfind
      rw [tokensAt_build_file hold st.files.nodup_keys hm,fileAt,hfind,getD_some]
      rfl

end Rebuilding

/-- Buckets and tokens are as before, each token leads to the bytes of a message, and each message
has a token. -/
structure Restored (hashes : SmsgHashes) (now : ℤ) (run : SmsgState×List Message) : Prop where
  tokens : ∀ time, tokensAt (secureMsgBuildBucketSet hashes now run.1.files)
    time=tokensAt run.1 time
  retrieved : ∀ time, ∀ token∈(tokensAt run.1 time).values, ∃ m∈run.2, m.key=token.key ∧
    secureMsgRetrieve (secureMsgBuildBucketSet hashes now run.1.files).files token=some m.bytes
  kept : ∀ m∈run.2, ∃ token∈(tokensAt run.1 (bucketTime m.time)).values, m.key=token.key

variable {st : SmsgState} {msgs : List Message} {m : Message}

theorem placed_ofBucket (hm : m∈msgs) : ∃ front back, ofBucket msgs
    (bucketTime m.time)=front++m::back :=
  append_of_mem (mem_filter.mpr ⟨hm,decide_eq_true rfl⟩)

theorem Consistent.find (h : Consistent st msgs) {front back : List Message}
    (hplace : ofBucket msgs (bucketTime m.time)=front++m::back) :
    (tokensAt st (bucketTime m.time)).find m.key=some (m.token (bunchOf front).length) := by
  have hdistinct := h.distinct.filter
    (fun other => decide (bucketTime other.time=bucketTime m.time))
  have hbucket : (ofBucket msgs (bucketTime m.time)).Pairwise (fun m other => m.key≠other.key) :=
    hdistinct
  rw [hplace] at hbucket
  rw [h.tokens,hplace,find_insertAll hbucket]

/-- A store of messages that are long enough, in buckets that are not too old, is restored. -/
theorem Consistent.restored (h : Consistent st msgs)
    (hgood : ∀ m∈msgs, 8 ≤ m.payload.length ∧ now-smsgRetention≤bucketTime m.time) :
    Restored hashes now (st,msgs) := by
  have hlong : ∀ time, ∀ m∈ofBucket msgs time, 8 ≤ m.payload.length := fun time m hm =>
    (hgood m (mem_filter.mp hm).1).1
  refine ⟨?_,?_,?_⟩
  · intro time
    rw [tokensAt_rebuilt,h.files,h.tokens]
    have hscan := @scanFile_all .empty (ofBucket msgs time) 0 (hlong time) []
    rw [append_nil,scanFile_nil] at hscan
    split_ifs with hold
    · cases hmsgs : ofBucket msgs time with
      | nil => rfl
      | cons m rest =>
        have hm : m∈ofBucket msgs time := by
          rw [hmsgs]
          exact mem_cons_self
        obtain ⟨hmem,htime⟩ := mem_filter.mp hm
        have hwindow := (hgood m hmem).2
        rw [of_decide_eq_true htime] at hwindow
        omega
    · exact hscan
  · intro time token htoken
    rw [h.tokens] at htoken
    rcases mem_insertAll htoken with hnone | ⟨front,m,back,hplace,he⟩
    · exact absurd hnone not_mem_nil
    · have hm : m∈ofBucket msgs time := by
        rw [hplace]
        exact mem_append_right _ mem_cons_self
      obtain ⟨hmem,htime⟩ := mem_filter.mp hm
      have hbucket := of_decide_eq_true htime
      have hkeep : ¬time<now-smsgRetention := by
        have hwindow := (hgood m hmem).2
        omega
      rw [Nat.zero_add] at he
      refine ⟨m,hmem,by rw [he,m.key_token],?_⟩
      have hfile := h.files time
      rw [hplace,fileAt] at hfile
      have hfind : st.files.find time=some (bunchOf (front++m::back)) := by
        cases hnone : st.files.find time with
        | none =>
          rw [hnone,getD_none] at hfile
          have hlength := congrArg length hfile
          rw [bunchOf_append,bunchOf_cons,length_append,length_append,m.length_bytes,
            length_nil] at hlength
          have hhdr : smsgHdrLen=104 := rfl
          omega
        | some bytes =>
          rw [hnone,getD_some] at hfile
          rw [hfile]
      rw [he]
      refine @retrieve_placed m front back _ ?_
      rw [hbucket,secureMsgBuildBucketSet,files_build hkeep]
      exact hfind
  · intro m hm
    obtain ⟨front,back,hplace⟩ := @placed_ofBucket msgs m hm
    refine ⟨m.token (bunchOf front).length,?_,(m.key_token _).symm⟩
    exact ((tokensAt st (bucketTime m.time)).mem_values_iff _).mpr ⟨m.key,h.find hplace⟩

theorem Consistent.expired (h : Consistent st msgs) (hm : m∈msgs)
    (hold : bucketTime m.time<now-smsgRetention) : ¬Restored hashes now (st,msgs) := by
  intro hrestored
  obtain ⟨front,back,hplace⟩ := @placed_ofBucket msgs m hm
  have hfind := h.find hplace
  have htokens := hrestored.tokens (bucketTime m.time)
  rw [tokensAt_rebuilt,if_pos hold] at htokens
  rw [← htokens] at hfind
  cases hfind

theorem exists_first_short (hm : m∈msgs) (hshort : m.payload.length<8) :
    ∃ front first back, msgs=front++first::back ∧ (∀ m∈front, 8 ≤ m.payload.length) ∧
      first.payload.length<8 := by
  induction msgs with
  | nil => exact absurd hm not_mem_nil
  | cons head msgs ih =>
    by_cases hhead : head.payload.length<8
    · exact ⟨[],head,msgs,rfl,fun other hnone => absurd hnone not_mem_nil,hhead⟩
    · grind

theorem Consistent.short (h : Consistent st msgs) (hm : m∈msgs) (hshort : m.payload.length<8)
    (hkeep : ¬bucketTime m.time<now-smsgRetention) : ¬Restored hashes now (st,msgs) := by
  intro hrestored
  have hmem : m∈ofBucket msgs (bucketTime m.time) := mem_filter.mpr ⟨hm,decide_eq_true rfl⟩
  obtain ⟨front,first,back,hplace,hfront,hfirst⟩ := exists_first_short hmem hshort
  have hbucket : bucketTime first.time=bucketTime m.time := by
    have hin : first∈ofBucket msgs (bucketTime m.time) := by
      rw [hplace]
      exact mem_append_right _ mem_cons_self
    exact of_decide_eq_true (mem_filter.mp hin).2
  rw [← hbucket] at hplace hkeep
  have hfind := h.find hplace
  have htokens := hrestored.tokens (bucketTime first.time)
  rw [tokensAt_rebuilt,if_neg hkeep,h.files,hplace,bunchOf_append,bunchOf_cons] at htokens
  rw [← htokens] at hfind
  have htoken := (mem_values_iff _ _).mpr ⟨_,hfind⟩
  exact scanFile_misses hfront hfirst _ htoken rfl

/-- The store is restored exactly if kept messages have at least eight bytes of payload and lie in
buckets that are not too old. -/
theorem restored_iff (hashes : SmsgHashes) (arrivals : List (Arrival hashes)) (now : ℤ) :
    Restored hashes now (storeArrivals arrivals) ↔ ∀ m∈(storeArrivals arrivals).2,
        8 ≤ m.payload.length ∧ now-smsgRetention≤bucketTime m.time := by
  have hcons := consistent_storeArrivals arrivals
  constructor
  · intro hrestored m hm
    have hkeep : ¬bucketTime m.time<now-smsgRetention := fun hold =>
      hcons.expired hm hold hrestored
    refine ⟨?_,Int.not_lt.mp hkeep⟩
    by_contra hshort
    exact hcons.short hm (Nat.not_le.mp hshort) hkeep hrestored
  · exact hcons.restored

def zeroHashes : SmsgHashes := ⟨fun _ _ => replicate 32 0,fun _ => 0⟩

/-- A message of version 1 without a payload. -/
def emptyMessage : Message :=
  ⟨replicate 4 0++(1::replicate 99 0),[],by decide,by decide⟩

/-- A message without a payload is kept and not found after a restart. -/
theorem emptyMessage_notRestored :
    ∃ arrival : Arrival zeroHashes, arrival.message=emptyMessage ∧ arrival.now=0 ∧
      ¬Restored zeroHashes 0 (storeArrivals [arrival]) := by
  refine ⟨⟨0,emptyMessage,true,by decide⟩,rfl,rfl,?_⟩
  have hcons := consistent_storeArrivals
    [(⟨0,emptyMessage,true,by decide⟩ : Arrival zeroHashes)]
  have hm : emptyMessage∈(storeArrivals
      [(⟨0,emptyMessage,true,by decide⟩ : Arrival zeroHashes)]).2 :=
    mem_singleton.mpr rfl
  exact hcons.short hm (Nat.succ_pos 7) (by decide)

end Pyrk.SmsgRestart
