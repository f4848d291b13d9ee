import Pyrk.SecureMessage

/-!
# Inventory messages between peers

A peer lists its buckets, shows tokens, and asks for messages. The size of each list is checked
against a count that the peer sent.
-/

namespace Pyrk.SmsgInventory

open Script UndoData SecureMessage

/-- Kinds of messages between peers. -/
inductive Command where
  | smsgInv
  | smsgShow
  | smsgHave
  | smsgWant
  | smsgMsg
  | smsgMatch
  | smsgPing
  | smsgPong
  | smsgDisabled
  | smsgIgnore
  deriving DecidableEq

/-- What is known about a peer. -/
structure PeerData where
  nPeerId : ℕ := 0
  ignoreUntil : ℤ := 0
  lastMatched : ℤ := 0
  fEnabled : Bool := false

/-- What comes of a message. -/
structure Outcome where
  st : SmsgState
  peer : PeerData
  sent : List (Command×List UInt8) := []
  misbehaving : ℕ := 0
  passes : ℕ := 0
  accepted : Bool := true

def tokenBytes (token : SecMsgToken) : List UInt8 :=
    leBytes 8 (ofInt64 token.timestamp)++token.sample

def readToken (vchData : List UInt8) (offset : ℕ) : Run SecMsgToken := do
  let time ← readInt64 vchData offset
  let sample ← readAt vchData (offset+8) 8
  .ok ⟨time,sample,0⟩

variable (hashes : SmsgHashes) (now : ℤ)

/-- Where the loop over a list of buckets is. -/
structure InvState where
  smsgBuckets : Buckets
  shown : List ℤ := []
  nLocked : ℕ := 0
  misbehaving : ℕ := 0
  passes : ℕ := 0

/-- A bucket of the list is asked for if it differs. Looking it up makes it. -/
def visitBucket (inv : InvState) (time : ℤ) (ncontent hash : ℕ) : InvState :=
  if time<now-smsgRetention then
    if time<now-smsgRetention-smsgTimeLeeway then { inv with misbehaving := inv.misbehaving+1 }
    else inv
  else if now+smsgTimeLeeway<time then { inv with misbehaving := inv.misbehaving+1 }
  else if ncontent<1 then inv
  else
    let bucket := bucketAt inv.smsgBuckets time
    let inv := { inv with smsgBuckets := subscript inv.smsgBuckets time }
    if 0<bucket.nLockCount then { inv with nLocked := inv.nLocked+1 }
    else if bucket.setTokens.size<ncontent ∨ bucket.setTokens.size=ncontent ∧ bucket.hash≠hash then
      { inv with shown := inv.shown++[time] }
    else inv

/-- Go through a list of buckets. -/
def invLoop (vchData : List UInt8) : ℕ → ℕ → InvState → Run InvState
  | 0,_,inv => .ok inv
  | left+1,p,inv => do
    let time ← readInt64 vchData p
    let ncontent ← readUInt32 vchData (p+8)
    let hash ← readUInt32 vchData (p+12)
    invLoop vchData left (p+16) { visitBucket now inv time ncontent hash with passes :=
      inv.passes+1 }

/-- A list of buckets. -/
def receiveInv (st : SmsgState) (peer : PeerData) (vchData : List UInt8) : Run Outcome :=
  if vchData.length<4 then .ok { st := st, peer := peer, misbehaving := 1, accepted := false }
  else if now<peer.ignoreUntil then .ok { st := st, peer := peer, accepted := false }
  else do
    let nInvBuckets ← readUInt32 vchData 0
    if (smsgRetention/smsgBucketLen).toNat+1<nInvBuckets then
      .ok { st := st, peer := peer, misbehaving := 1, accepted := false }
    else if vchData.length<(4+nInvBuckets*16)%2^32 then
      .ok { st := st, peer := peer, misbehaving := 1, accepted := false }
    else do
      let inv ← invLoop now vchData nInvBuckets 4 { smsgBuckets := st.smsgBuckets }
      let shown := leBytes 4 inv.shown.length++inv.shown.flatMap
        (fun time => leBytes 8 (ofInt64 time))
      let sent :=
        if 4 < shown.length then [(Command.smsgShow,shown)]
        else if inv.nLocked<1 then [(Command.smsgMatch,leBytes 8 (ofInt64 now))]
        else []
      .ok { st := { st with smsgBuckets := inv.smsgBuckets }
            peer := peer
            sent := sent
            misbehaving := inv.misbehaving
            passes := inv.passes }

/-- Go through a list of buckets whose tokens are asked for. -/
def showLoop (smsgBuckets : Buckets) (vchData : List UInt8) :
    ℕ → ℕ → List (Command×List UInt8) → Run (List (Command×List UInt8))
  | 0,_,sent => .ok sent
  | left+1,pIn,sent => do
    let time ← readInt64 vchData pIn
    match smsgBuckets.find time with
    | none => showLoop smsgBuckets vchData left (pIn+8) sent
    | some bucket =>
      let tokens := leBytes 8 (ofInt64 time)++bucket.setTokens.values.flatMap tokenBytes
      showLoop smsgBuckets vchData left (pIn+8) (sent++[(Command.smsgHave,tokens)])

/-- Buckets whose tokens are asked for. The test of the size wraps around. -/
def receiveShow (st : SmsgState) (peer : PeerData) (vchData : List UInt8) : Run Outcome :=
  if vchData.length<4 then .ok { st := st, peer := peer, accepted := false }
  else do
    let nBuckets ← readUInt32 vchData 0
    if vchData.length<(4+nBuckets*8)%2^32 then
      .ok { st := st, peer := peer, accepted := false }
    else do
      let sent ← showLoop st.smsgBuckets vchData nBuckets 4 []
      .ok { st := st, peer := peer, sent := sent, passes := nBuckets }

/-- Go through the tokens of a peer and keep those that are missing here. -/
def haveLoop (setTokens : TokenSet) (vchData : List UInt8) :
    ℕ → ℕ → List UInt8 → Run (List UInt8)
  | 0,_,wanted => .ok wanted
  | left+1,p,wanted => do
    let token ← readToken vchData p
    if setTokens.contains token.key then haveLoop setTokens vchData left (p+16) wanted
    else do
      let bytes ← readAt vchData p 16
      haveLoop setTokens vchData left (p+16) (wanted++bytes)

/-- Tokens of a bucket. Looking the bucket up makes it. -/
def receiveHave (st : SmsgState) (peer : PeerData) (vchData : List UInt8) : Run Outcome :=
  if vchData.length<8 then .ok { st := st, peer := peer, accepted := false }
  else do
    let n := loopCount ((vchData.length-8)/16)
    let time ← readInt64 vchData 0
    if time<now-smsgRetention then .ok { st := st, peer := peer, accepted := false }
    else if now+smsgTimeLeeway<time then
      .ok { st := st, peer := peer, misbehaving := 1, accepted := false }
    else
      let bucket := bucketAt st.smsgBuckets time
      let made := { st with smsgBuckets := subscript st.smsgBuckets time }
      if 0<bucket.nLockCount then .ok { st := made, peer := peer, accepted := false }
      else do
        let head ← readAt vchData 0 8
        let wanted ← haveLoop bucket.setTokens vchData n 8 head
        if 8<wanted.length then
          let locked := { made with smsgBuckets := changeBucket made.smsgBuckets time (fun bucket =>
            { bucket with nLockCount := 3, nLockPeerId := peer.nPeerId }) }
          .ok { st := locked, peer := peer, sent := [(Command.smsgWant,wanted)], passes := n }
        else .ok { st := made, peer := peer, passes := n }

/-- Where the loop over wanted messages is. -/
structure WantState where
  nBunch : ℕ := 0
  vchBunch : List UInt8 := []
  passes : ℕ := 0

/-- Go through wanted tokens until there are enough messages. -/
def wantLoop (setTokens : TokenSet) (files : OrderedMap ℤ (List UInt8)) (vchData : List UInt8) :
    ℕ → ℕ → WantState → Run WantState
  | 0,_,want => .ok want
  | left+1,p,want => do
    let token ← readToken vchData p
    let want := { want with passes := want.passes+1 }
    match setTokens.find token.key with
    | none => wantLoop setTokens files vchData left (p+16) want
    | some stored =>
      let want :=
        match secureMsgRetrieve files { token with offset := stored.offset } with
        | some vchOne =>
          { want with nBunch := want.nBunch+1, vchBunch := want.vchBunch++vchOne }
        | none => want
      if 500≤want.nBunch ∨ 96000≤12+want.vchBunch.length then .ok want
      else wantLoop setTokens files vchData left (p+16) want

/-- A bunch with its count and its bucket. -/
def bunchBytes (nBunch : ℕ) (time : ℤ) (vchBunch : List UInt8) : List UInt8 :=
  leBytes 4 nBunch++(leBytes 8 (ofInt64 time)++vchBunch)

/-- Tokens whose messages are asked for. -/
def receiveWant (st : SmsgState) (peer : PeerData) (vchData : List UInt8) : Run Outcome :=
  if vchData.length<8 then .ok { st := st, peer := peer, accepted := false }
  else do
    let n := loopCount ((vchData.length-8)/16)
    let time ← readInt64 vchData 0
    match st.smsgBuckets.find time with
    | none => .ok { st := st, peer := peer, accepted := false }
    | some bucket =>
      let want ← wantLoop bucket.setTokens st.files vchData n 8 {}
      let sent :=
        if 0<want.nBunch then [(Command.smsgMsg,bunchBytes want.nBunch time want.vchBunch)] else []
      .ok { st := st, peer := peer, sent := sent, passes := want.passes }

/-- Time at which the buckets were the same. -/
def receiveMatch (st : SmsgState) (peer : PeerData) (vchData : List UInt8) : Run Outcome :=
  if vchData.length<8 then .ok { st := st, peer := peer, misbehaving := 1, accepted := false }
  else do
    let time ← readInt64 vchData 0
    let time := if now+smsgTimeLeeway<time then now else time
    .ok { st := st, peer := { peer with lastMatched := time } }

/-- Time until which the peer does not listen. -/
def receiveIgnore (st : SmsgState) (peer : PeerData) (vchData : List UInt8) : Run Outcome :=
  if vchData.length<8 then .ok { st := st, peer := peer, misbehaving := 1, accepted := false }
  else do
    let time ← readInt64 vchData 0
    .ok { st := st, peer := { peer with ignoreUntil := time } }

/-- Take a message from a peer. -/
def secureMsgReceiveData (st : SmsgState) (peer : PeerData) (strCommand : Command)
    (vchData : List UInt8) : Run Outcome :=
  match strCommand with
  | .smsgInv => receiveInv now st peer vchData
  | .smsgShow => receiveShow st peer vchData
  | .smsgHave => receiveHave now st peer vchData
  | .smsgWant => receiveWant st peer vchData
  | .smsgMsg => do
    let bunch ← secureMsgReceive hashes now st vchData
    .ok { st := bunch.st, peer := peer, misbehaving := bunch.misbehaving }
  | .smsgMatch => receiveMatch now st peer vchData
  | .smsgPing => .ok { st := st, peer := peer, sent := [(.smsgPong,[])] }
  | .smsgPong => .ok { st := st, peer := { peer with fEnabled := true } }
  | .smsgDisabled => .ok { st := st, peer := { peer with fEnabled := false } }
  | .smsgIgnore => receiveIgnore st peer vchData

section Bounds

variable {vchData : List UInt8}

theorem readAt_ok {offset size : ℕ} (h : offset+size≤vchData.length) :
    readAt vchData offset size=.ok ((vchData.drop offset).take size) := if_pos h

theorem readUInt32_ok {offset : ℕ} (h : offset+4≤vchData.length) :
    readUInt32 vchData offset=.ok (littleEndian ((vchData.drop offset).take 4)) := by
  rw [readUInt32,readAt_ok h,ok_bind]

theorem readInt64_ok {offset : ℕ} (h : offset+8≤vchData.length) :
    readInt64 vchData offset=.ok (toInt64 (littleEndian ((vchData.drop offset).take 8))) := by
  rw [readInt64,readAt_ok h,ok_bind]

theorem readInt64_fault {offset : ℕ} (h : ¬offset+8≤vchData.length) :
    readInt64 vchData offset=.error .outOfRange := by
  rw [readInt64,readAt,if_neg h]
  rfl

theorem readToken_ok {offset : ℕ} (h : offset+16≤vchData.length) :
    ∃ token, readToken vchData offset=.ok token := by
  rw [readToken,readInt64_ok (by omega),ok_bind,readAt_ok (by omega),ok_bind]
  exact ⟨_,rfl⟩

theorem loopCount_le (n : ℕ) : loopCount n≤n := by
  unfold loopCount
  have hmod := Nat.mod_le n (2^32)
  split_ifs <;> omega

theorem invLoop_ok {left p : ℕ} {inv : InvState} (h : p+16*left≤vchData.length) :
    ∃ final, invLoop now vchData left p inv=.ok final ∧ final.passes=inv.passes+left := by
  induction left generalizing p inv with
  | zero => exact ⟨inv,rfl,rfl⟩
  | succ left ih =>
    rw [invLoop,readInt64_ok (by omega),ok_bind,readUInt32_ok (by omega),ok_bind,
      readUInt32_ok (by omega),ok_bind]
    obtain ⟨final,hrun,hpasses⟩ := @ih (p+16) { visitBucket now inv _ _ _ with
      passes := inv.passes+1 } (by omega)
    refine ⟨final,hrun,?_⟩
    rw [hpasses]
    exact Nat.succ_add_eq_add_succ inv.passes left

theorem showLoop_ok {smsgBuckets : Buckets} {left pIn : ℕ} {sent : List (Command×List UInt8)}
    (h : pIn+8*left≤vchData.length) : ∃ final,
    showLoop smsgBuckets vchData left pIn sent=.ok final := by
  induction left generalizing pIn sent with
  | zero => exact ⟨sent,rfl⟩
  | succ left ih =>
    rw [showLoop,readInt64_ok (by omega),ok_bind]
    cases smsgBuckets.find (toInt64 (littleEndian ((vchData.drop pIn).take 8))) with
    | none => exact ih (by omega)
    | some bucket => exact ih (by omega)

theorem showLoop_fault {smsgBuckets : Buckets} {left pIn : ℕ} {sent : List (Command×List UInt8)}
    (hstart : pIn≤vchData.length) (h : ¬pIn+8*left≤vchData.length) :
    showLoop smsgBuckets vchData left pIn sent=.error .outOfRange := by
  induction left generalizing pIn sent with
  | zero => exact absurd hstart h
  | succ left ih =>
    rw [showLoop]
    by_cases hread : pIn+8≤vchData.length
    · rw [readInt64_ok hread,ok_bind]
      cases smsgBuckets.find (toInt64 (littleEndian ((vchData.drop pIn).take 8))) with
      | none => exact ih hread (by omega)
      | some bucket => exact ih hread (by omega)
    · rw [readInt64_fault hread]
      rfl

theorem haveLoop_ok {setTokens : TokenSet} {left p : ℕ} {wanted : List UInt8}
    (h : p+16*left≤vchData.length) : ∃ final,
    haveLoop setTokens vchData left p wanted=.ok final := by
  induction left generalizing p wanted with
  | zero => exact ⟨wanted,rfl⟩
  | succ left ih =>
    obtain ⟨token,htoken⟩ := @readToken_ok vchData p (by omega)
    rw [haveLoop,htoken,ok_bind]
    split_ifs with hknown
    · exact ih (by omega)
    · rw [readAt_ok (by omega),ok_bind]
      exact ih (by omega)

theorem wantLoop_ok {setTokens : TokenSet} {files : OrderedMap ℤ (List UInt8)} {left p : ℕ}
    {want : WantState} (h : p+16*left≤vchData.length) :
    ∃ final, wantLoop setTokens files vchData left p want=.ok final ∧
      final.passes≤want.passes+left := by
  induction left generalizing p want with
  | zero => exact ⟨want,rfl,Nat.le_refl _⟩
  | succ left ih =>
    obtain ⟨token,htoken⟩ := @readToken_ok vchData p (by omega)
    rw [wantLoop,htoken,ok_bind]
    cases hfind : setTokens.find token.key with
    | none =>
      obtain ⟨final,hrun,hpasses⟩ := @ih (p+16) { want with passes := want.passes+1 } (by omega)
      exact ⟨final,hrun,by dsimp only at hpasses; omega⟩
    | some stored =>
      dsimp only
      cases secureMsgRetrieve files { token with offset := stored.offset } with
      | none =>
        split_ifs with hfull
        · exact ⟨_,rfl,by dsimp only; omega⟩
        · obtain ⟨final,hrun,hpasses⟩ := @ih (p+16) { want with passes := want.passes+1 } (by omega)
          exact ⟨final,hrun,by dsimp only at hpasses; omega⟩
      | some vchOne =>
        split_ifs with hfull
        · exact ⟨_,rfl,by dsimp only; omega⟩
        · obtain ⟨final,hrun,hpasses⟩ := @ih (p+16) { want with
            nBunch := want.nBunch+1
            vchBunch := want.vchBunch++vchOne
            passes := want.passes+1 } (by omega)
          exact ⟨final,hrun,by dsimp only at hpasses; omega⟩

end Bounds

variable (st : SmsgState) (peer : PeerData)

/-- Messages that hold lists of buckets and tokens, or a time. -/
def inventoryCommands : List Command :=
  [.smsgInv,.smsgShow,.smsgHave,.smsgWant,.smsgMatch,.smsgIgnore]

variable (strCommand : Command)

/-- Records of a message that fit into its bytes. -/
def recordsThatFit (size : ℕ) : ℕ :=
  match strCommand with
  | .smsgInv => (size-4)/16
  | .smsgShow => (size-4)/8
  | .smsgHave => (size-8)/16
  | .smsgWant => (size-8)/16
  | _ => 0

/-- The message is read inside of its bytes, with no more passes than records. -/
def ReadInside (vchData : List UInt8) : Prop :=
  ∃ outcome, secureMsgReceiveData hashes now st peer strCommand vchData=.ok outcome ∧
    outcome.passes ≤ recordsThatFit strCommand vchData.length

/-- The test of the size of a list of buckets does not let a short list pass. -/
def SizeTestExact (vchData : List UInt8) : Prop :=
  strCommand=.smsgShow → vchData.length<4 ∨
    vchData.length<(4+littleEndian (vchData.take 4)*8)%2^32 ∨
    4+littleEndian (vchData.take 4)*8≤vchData.length

variable {now st peer} {vchData : List UInt8}

theorem receiveInv_inside :
    ∃ outcome, receiveInv now st peer vchData=.ok outcome ∧
      outcome.passes≤(vchData.length-4)/16 := by
  rw [receiveInv]
  split_ifs with hsize hignored
  · exact ⟨_,rfl,Nat.zero_le _⟩
  · exact ⟨_,rfl,Nat.zero_le _⟩
  · rw [readUInt32_ok (by omega),ok_bind]
    generalize littleEndian ((vchData.drop 0).take 4)=nInvBuckets
    have hmost : (smsgRetention/smsgBucketLen).toNat+1=289 := by decide
    rw [hmost]
    split_ifs with hmany hshort
    · exact ⟨_,rfl,Nat.zero_le _⟩
    · exact ⟨_,rfl,Nat.zero_le _⟩
    · rw [Nat.mod_eq_of_lt (by omega)] at hshort
      obtain ⟨final,hrun,hpasses⟩ := @invLoop_ok now vchData nInvBuckets 4
        { smsgBuckets := st.smsgBuckets } (by omega)
      rw [hrun,ok_bind]
      refine ⟨_,rfl,?_⟩
      dsimp only at hpasses ⊢
      omega

theorem receiveShow_inside :
    (∃ outcome, receiveShow st peer vchData=.ok outcome ∧
      outcome.passes≤(vchData.length-4)/8) ↔ SizeTestExact .smsgShow vchData := by
  rw [receiveShow,SizeTestExact]
  simp only [true_implies]
  by_cases hsize : vchData.length<4
  · rw [if_pos hsize]
    exact iff_of_true ⟨_,rfl,Nat.zero_le _⟩ (Or.inl hsize)
  · rw [if_neg hsize,readUInt32_ok (by omega),ok_bind,List.drop_zero]
    generalize littleEndian (vchData.take 4)=nBuckets
    by_cases hshort : vchData.length<(4+nBuckets*8)%2^32
    · rw [if_pos hshort]
      exact iff_of_true ⟨_,rfl,Nat.zero_le _⟩ (Or.inr (Or.inl hshort))
    · rw [if_neg hshort]
      by_cases hfits : 4+nBuckets*8≤vchData.length
      · obtain ⟨sent,hrun⟩ := @showLoop_ok vchData st.smsgBuckets nBuckets 4 [] (by omega)
        rw [hrun,ok_bind]
        exact iff_of_true ⟨_,rfl,by dsimp only; omega⟩ (Or.inr (Or.inr hfits))
      · rw [showLoop_fault (by omega) (by omega)]
        refine iff_of_false ?_ (fun h => ?_)
        · intro h
          obtain ⟨outcome,hrun,-⟩ := h
          cases hrun
        · omega

theorem receiveHave_inside :
    ∃ outcome, receiveHave now st peer vchData=.ok outcome ∧
      outcome.passes≤(vchData.length-8)/16 := by
  have hcount := loopCount_le ((vchData.length-8)/16)
  rw [receiveHave]
  by_cases hsize : vchData.length<8
  · rw [if_pos hsize]
    exact ⟨_,rfl,Nat.zero_le _⟩
  · rw [if_neg hsize]
    dsimp only
    rw [readInt64_ok (by omega),ok_bind]
    split_ifs with hold hnew hlocked
    · exact ⟨_,rfl,Nat.zero_le _⟩
    · exact ⟨_,rfl,Nat.zero_le _⟩
    · exact ⟨_,rfl,Nat.zero_le _⟩
    · obtain ⟨wanted,hrun⟩ := @haveLoop_ok vchData
        (bucketAt st.smsgBuckets (toInt64 (littleEndian ((vchData.drop 0).take 8)))).setTokens
        (loopCount ((vchData.length-8)/16)) 8 ((vchData.drop 0).take 8) (by omega)
      rw [readAt_ok (by omega),ok_bind,hrun,ok_bind]
      split_ifs with hwant
      · exact ⟨_,rfl,hcount⟩
      · exact ⟨_,rfl,hcount⟩

theorem receiveWant_inside :
    ∃ outcome, receiveWant st peer vchData=.ok outcome ∧
      outcome.passes≤(vchData.length-8)/16 := by
  have hcount := loopCount_le ((vchData.length-8)/16)
  rw [receiveWant]
  by_cases hsize : vchData.length<8
  · rw [if_pos hsize]
    exact ⟨_,rfl,Nat.zero_le _⟩
  · rw [if_neg hsize]
    rw [readInt64_ok (by omega),ok_bind]
    cases st.smsgBuckets.find (toInt64 (littleEndian ((vchData.drop 0).take 8))) with
    | none => exact ⟨_,rfl,Nat.zero_le _⟩
    | some bucket =>
      obtain ⟨want,hrun,hpasses⟩ := @wantLoop_ok vchData bucket.setTokens st.files
        (loopCount ((vchData.length-8)/16)) 8 {} (by omega)
      dsimp only
      rw [hrun,ok_bind]
      refine ⟨_,rfl,?_⟩
      dsimp only at hpasses ⊢
      omega

theorem receiveMatch_inside :
    ∃ outcome, receiveMatch now st peer vchData=.ok outcome ∧ outcome.passes≤0 := by
  rw [receiveMatch]
  by_cases hsize : vchData.length<8
  · rw [if_pos hsize]
    exact ⟨_,rfl,Nat.le_refl _⟩
  · rw [if_neg hsize,readInt64_ok (by omega),ok_bind]
    exact ⟨_,rfl,Nat.le_refl _⟩

theorem receiveIgnore_inside :
    ∃ outcome, receiveIgnore st peer vchData=.ok outcome ∧ outcome.passes≤0 := by
  rw [receiveIgnore]
  by_cases hsize : vchData.length<8
  · rw [if_pos hsize]
    exact ⟨_,rfl,Nat.le_refl _⟩
  · rw [if_neg hsize,readInt64_ok (by omega),ok_bind]
    exact ⟨_,rfl,Nat.le_refl _⟩

/-- Inventory messages are read inside of their bytes exactly if the test of the
size is exact. -/
theorem readInside_iff (hashes : SmsgHashes) (now : ℤ) (st : SmsgState) (peer : PeerData)
    {strCommand : Command} (hcommand : strCommand∈inventoryCommands) (vchData : List UInt8) :
    ReadInside hashes now st peer strCommand vchData ↔ SizeTestExact strCommand vchData := by
  have hother : strCommand≠.smsgShow → SizeTestExact strCommand vchData := fun hne he =>
    absurd he hne
  cases strCommand with
  | smsgInv => exact iff_of_true receiveInv_inside (hother (by decide))
  | smsgShow => exact receiveShow_inside
  | smsgHave => exact iff_of_true receiveHave_inside (hother (by decide))
  | smsgWant => exact iff_of_true receiveWant_inside (hother (by decide))
  | smsgMatch => exact iff_of_true receiveMatch_inside (hother (by decide))
  | smsgIgnore => exact iff_of_true receiveIgnore_inside (hother (by decide))
  | smsgMsg => exact absurd hcommand (by decide)
  | smsgPing => exact absurd hcommand (by decide)
  | smsgPong => exact absurd hcommand (by decide)
  | smsgDisabled => exact absurd hcommand (by decide)

/-- A request for two buckets is read inside its bytes. -/
theorem readInside_twoBuckets :
    ReadInside ⟨fun _ _ => [],fun _ => 0⟩ 0 {} {} .smsgShow
      [2,0,0,0,1,0,0,0,0,0,0,0,2,0,0,0,0,0,0,0] :=
  (readInside_iff _ _ _ _ (by decide) _).mpr (fun _ => by decide)

/-- A count of 0x20000000 buckets passes the test of four bytes. -/
theorem hugeCount_outside :
    ¬ReadInside ⟨fun _ _ => [],fun _ => 0⟩ 0 {} {} .smsgShow [0,0,0,0x20] := by
  intro hread
  have hexact := receiveShow_inside.mp hread
  rw [SizeTestExact] at hexact
  exact absurd (hexact rfl) (by decide)

end Pyrk.SmsgInventory
