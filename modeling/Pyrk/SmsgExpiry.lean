import Pyrk.SmsgBunches
import Mathlib.Data.Int.Interval

/-!
# Buckets in step

A thread removes old buckets and counts down locks. Messages go into the buckets of their own times
while only the bucket that the peer named is hashed.
-/

namespace Pyrk.SmsgExpiry

open Script UndoData SecureMessage SmsgInventory SmsgRecords SmsgBunches OrderedMap List

def countDown (bucket : SecMsgBucket) : SecMsgBucket :=
  if 0<bucket.nLockCount then
    { bucket with
      nLockCount := bucket.nLockCount-1
      nLockPeerId := if bucket.nLockCount-1=0 then 0 else bucket.nLockPeerId }
  else bucket

/-- One round of the thread: buckets that are too old are removed with their files, and
the locks of the others are counted down. Peers whose locks timed out are told. -/
def threadSecureMsg (now : ℤ) (st : SmsgState) : SmsgState×List (ℤ×ℕ) :=
  let cutoffTime := now-smsgRetention
  let expired := st.smsgBuckets.filter (fun entry => entry.1 < cutoffTime)
  let current := st.smsgBuckets.filter (fun entry => ¬entry.1 < cutoffTime)
  let vTimedOutLocks := current.entries.filterMap (fun entry =>
    if entry.2.nLockCount=1 then some (entry.1,entry.2.nLockPeerId) else none)
  (⟨current.mapValues countDown,
    expired.entries.foldl (fun files entry => files.erase entry.1) st.files⟩,vTimedOutLocks)

variable {hashes : SmsgHashes} {now : ℤ}

section Locks

/-- A bucket without its lock. -/
def unlocked (bucket : SecMsgBucket) : SecMsgBucket :=
  { bucket with nLockCount := 0, nLockPeerId := 0 }

/-- Two sets of buckets differ in locks only. -/
def SameBuckets (before after : Buckets) : Prop :=
  ∀ time, (after.find time).map unlocked=(before.find time).map unlocked

variable {before after : Buckets}

theorem SameBuckets.rfl' (smsgBuckets : Buckets) : SameBuckets smsgBuckets smsgBuckets :=
  fun _ => rfl

theorem SameBuckets.find (h : SameBuckets before after) {time : ℤ} {bucket : SecMsgBucket}
    (hfind : after.find time=some bucket) :
    ∃ old, before.find time=some old ∧ bucket.setTokens=old.setTokens ∧ bucket.hash=old.hash ∧
      bucket.timeChanged=old.timeChanged := by
  have hsame := h time
  rw [hfind,Option.map_some] at hsame
  obtain ⟨old,hold,he⟩ := Option.map_eq_some_iff.mp hsame.symm
  rw [unlocked,unlocked,SecMsgBucket.mk.injEq] at he
  exact ⟨old,hold,he.2.2.2.2.symm,he.2.1.symm,he.1.symm⟩

theorem sameBuckets_change {smsgBuckets : Buckets} {time : ℤ} {bucket : SecMsgBucket}
    {change : SecMsgBucket → SecMsgBucket} (hfind : smsgBuckets.find time=some bucket)
    (hchange : unlocked (change bucket)=unlocked bucket) :
    SameBuckets smsgBuckets (changeBucket smsgBuckets time change) := by
  intro other
  rw [changeBucket,find_set]
  split_ifs with he
  · rw [he,bucketAt,hfind,Option.getD_some,Option.map_some,Option.map_some,hchange]
  · rfl

theorem subscript_same {smsgBuckets : Buckets} {time : ℤ}
    (hthere : smsgBuckets.contains time=true) : subscript smsgBuckets time=smsgBuckets :=
  if_pos hthere

end Locks

section Lists

variable {st : SmsgState} {peer : PeerData} {vchData : List UInt8} {outcome : Outcome}

def entryTime (vchData : List UInt8) (i : ℕ) : ℤ :=
  toInt64 (littleEndian ((vchData.drop (4+16*i)).take 8))

/-- Count of messages of an entry of a list of buckets. -/
def entryContent (vchData : List UInt8) (i : ℕ) : ℕ :=
  littleEndian ((vchData.drop (4+16*i+8)).take 4)

/-- Each entry that is looked up names a bucket that is there. -/
def EntriesKnown (now : ℤ) (smsgBuckets : Buckets) (vchData : List UInt8) : Prop :=
  ∀ i<littleEndian (vchData.take 4), InWindow now (entryTime vchData i) →
    0<entryContent vchData i → smsgBuckets.contains (entryTime vchData i)=true

theorem visitBucket_same {inv : InvState} {time : ℤ} {ncontent hash : ℕ}
    (hknown : InWindow now time → 0<ncontent → inv.smsgBuckets.contains time=true) :
    (visitBucket now inv time ncontent hash).smsgBuckets=inv.smsgBuckets := by
  rw [visitBucket]
  by_cases hold : time<now-smsgRetention
  · rw [if_pos hold]
    split <;> rfl
  · by_cases hfuture : now+smsgTimeLeeway<time
    · rw [if_neg hold,if_pos hfuture]
    · by_cases hempty : ncontent<1
      · rw [if_neg hold,if_neg hfuture,if_pos hempty]
      · have hthere := hknown ⟨Int.not_lt.mp hold,Int.not_lt.mp hfuture⟩ (by omega)
        have hsame := subscript_same hthere
        grind

theorem invLoop_same {left i : ℕ} {inv final : InvState} (hfits : 4+16*(i+left)≤vchData.length)
    (hknown : ∀ k < i+left, InWindow now (entryTime vchData k) → 0<entryContent vchData k →
      inv.smsgBuckets.contains (entryTime vchData k)=true)
    (hrun : invLoop now vchData left (4+16*i) inv=.ok final) :
    final.smsgBuckets=inv.smsgBuckets := by
  induction left generalizing i inv with
  | zero =>
    cases hrun
    rfl
  | succ left ih =>
    rw [invLoop,readInt64_ok (by omega),ok_bind,readUInt32_ok (by omega),ok_bind,
      readUInt32_ok (by omega),ok_bind] at hrun
    have hvisit := @visitBucket_same now inv (entryTime vchData i) (entryContent vchData i)
      (littleEndian ((vchData.drop (4+16*i+12)).take 4)) (hknown i (by omega))
    have hnext : 4+16*i+16=4+16*(i+1) := by omega
    rw [hnext] at hrun
    have hrest := @ih (i+1) _ (by omega) (fun k hk => ?_) hrun
    · exact hrest.trans hvisit
    · dsimp only
      rw [show i+1+left=i+(left+1) by omega] at hk
      rw [entryTime,entryContent] at hvisit
      rw [hvisit]
      exact hknown k hk

theorem receiveInv_same
    (hknown : ¬now<peer.ignoreUntil → EntriesKnown now st.smsgBuckets vchData)
    (hrun : receiveInv now st peer vchData=.ok outcome) :
    outcome.st.smsgBuckets=st.smsgBuckets := by
  rw [receiveInv] at hrun
  by_cases hsize : vchData.length<4
  · rw [if_pos hsize] at hrun
    cases hrun
    rfl
  · rw [if_neg hsize] at hrun
    by_cases hignored : now<peer.ignoreUntil
    · rw [if_pos hignored] at hrun
      cases hrun
      rfl
    · rw [if_neg hignored,readUInt32_ok (by omega),ok_bind,drop_zero] at hrun
      by_cases hmany : (smsgRetention/smsgBucketLen).toNat+1<littleEndian (vchData.take 4)
      · rw [if_pos hmany] at hrun
        cases hrun
        rfl
      · have hmost : (smsgRetention/smsgBucketLen).toNat+1=289 := by decide
        rw [if_neg hmany] at hrun
        by_cases hshort : vchData.length<(4+littleEndian (vchData.take 4)*16)%2^32
        · rw [if_pos hshort] at hrun
          cases hrun
          rfl
        · have hwrap := Nat.mod_eq_of_lt (show 4+littleEndian (vchData.take 4)*16<2^32 by omega)
          rw [if_neg hshort,bind_eq_ok] at hrun
          obtain ⟨inv,hloop,hrest⟩ := hrun
          have hsame := @invLoop_same now vchData (littleEndian (vchData.take 4)) 0
            { smsgBuckets := st.smsgBuckets } inv (by omega)
            (by rw [Nat.zero_add]; exact hknown hignored) hloop
          cases hrest
          exact hsame

/-- The tokens of a peer are for a bucket that is there. -/
def TokensKnown (now : ℤ) (smsgBuckets : Buckets) (vchData : List UInt8) : Prop :=
  InWindow now (toInt64 (littleEndian (vchData.take 8))) →
    smsgBuckets.contains (toInt64 (littleEndian (vchData.take 8)))=true

theorem receiveHave_same (hknown : TokensKnown now st.smsgBuckets vchData)
    (hrun : receiveHave now st peer vchData=.ok outcome) :
    SameBuckets st.smsgBuckets outcome.st.smsgBuckets := by
  rw [receiveHave] at hrun
  by_cases hsize : vchData.length<8
  · rw [if_pos hsize] at hrun
    cases hrun
    exact SameBuckets.rfl' _
  · rw [if_neg hsize] at hrun
    rw [readInt64_ok (by omega),ok_bind,drop_zero] at hrun
    by_cases hold : toInt64 (littleEndian (vchData.take 8))<now-smsgRetention
    · rw [if_pos hold] at hrun
      cases hrun
      exact SameBuckets.rfl' _
    · by_cases hfuture : now+smsgTimeLeeway<toInt64 (littleEndian (vchData.take 8))
      · rw [if_neg hold,if_pos hfuture] at hrun
        cases hrun
        exact SameBuckets.rfl' _
      · have hthere := hknown ⟨Int.not_lt.mp hold,Int.not_lt.mp hfuture⟩
        rw [if_neg hold,if_neg hfuture,subscript_same hthere] at hrun
        by_cases hlocked : 0<(bucketAt st.smsgBuckets
            (toInt64 (littleEndian (vchData.take 8)))).nLockCount
        · rw [if_pos hlocked] at hrun
          cases hrun
          exact SameBuckets.rfl' _
        · rw [if_neg hlocked,bind_eq_ok] at hrun
          obtain ⟨head,-,hrun⟩ := hrun
          rw [bind_eq_ok] at hrun
          obtain ⟨wanted,-,hrun⟩ := hrun
          by_cases hwant : 8<wanted.length
          · rw [if_pos hwant] at hrun
            cases hrun
            obtain ⟨bucket,hfind⟩ := (contains_iff _ _).mp hthere
            exact sameBuckets_change hfind rfl
          · rw [if_neg hwant] at hrun
            cases hrun
            exact SameBuckets.rfl' _

end Lists

section Bunches

variable {st : SmsgState} {vchData rest : List UInt8} {bunch final : BunchState} {left : ℕ}
  {msgs : List Message} {m : Message}

theorem receiveLoop_state (hat : AtRest vchData bunch.n rest)
    (hcount : bunch.n+left*(smsgHdrLen+smsgMaxMsgWorst)<2^32)
    (hrun : receiveLoop hashes now vchData left bunch=.ok final) :
    ∃ msgs back, rest=bunchOf msgs++back ∧ msgs.length≤left ∧
      AcceptedFrom hashes now bunch.st msgs ∧
      final.st=storeAll hashes now bunch.st msgs := by
  induction left generalizing bunch rest with
  | zero =>
    cases hrun
    exact ⟨[],rest,rfl,Nat.le_refl _,trivial,rfl⟩
  | succ left ih =>
    have hcontained : Contained rest := by
      by_contra hfault
      rw [receiveLoop_fault hat hfault] at hrun
      cases hrun
    obtain ⟨next,hnext,⟨hst,hturn⟩ | ⟨hturn,⟨hn,hst⟩ | ⟨m,back,rfl,haccept,hst,hatNext⟩⟩⟩ :=
      @receiveLoop_turn hashes now vchData rest bunch left hat hcount hcontained
    · rw [hturn] at hrun
      cases hrun
      exact ⟨[],rest,rfl,Nat.zero_le _,trivial,hst⟩
    · rw [hturn] at hrun
      obtain ⟨msgs,back,he,hfew,hacc,hstate⟩ := ih (hn ▸ hat) hnext hrun
      rw [hst] at hacc hstate
      exact ⟨msgs,back,he,Nat.le_succ_of_le hfew,hacc,hstate⟩
    · rw [hturn] at hrun
      obtain ⟨msgs,last,rfl,hfew,hacc,hstate⟩ := ih hatNext hnext hrun
      rw [hst] at hacc hstate
      refine ⟨m::msgs,last,?_,Nat.succ_le_succ hfew,⟨haccept,hacc⟩,hstate⟩
      rw [bunchOf,bunchOf,flatMap_cons,append_assoc]

/-- The first message of a bunch is new. -/
def FirstNew (hashes : SmsgHashes) (now : ℤ) (st : SmsgState) (vchData : List UInt8) : Prop :=
  vchData.length<2^64 ∧ ∃ m back, vchData.drop 12=Message.bytes m++back ∧
    Acceptable hashes now st [m]

/-- A bunch that is opened stores messages from its start on, and some if the first one is new. -/
theorem receive_stored (hopened : Opened now vchData)
    (hrun : secureMsgReceive hashes now st vchData=.ok bunch) :
    ∃ msgs back loop, vchData.drop 12=bunchOf msgs++back ∧ msgs.length≤bunchCount vchData ∧
      AcceptedFrom hashes now st msgs ∧ (FirstNew hashes now st vchData → msgs≠[]) ∧
      loop.st=storeAll hashes now st msgs ∧
      bunch=closeBunch hashes now (bunchTime vchData) loop := by
  have hmax : smsgMaxMsgWorst=4218 := by decide
  have hhdr : smsgHdrLen=104 := rfl
  have hcount := hopened.count
  have hat := atRest_start hopened.size
  rw [receive_opened hopened,bind_eq_ok] at hrun
  obtain ⟨loop,hloop,hclose⟩ := hrun
  cases hclose
  by_cases hfirst : FirstNew hashes now st vchData
  · obtain ⟨hlength,m,back,hdrop,haccept⟩ := hfirst
    obtain ⟨⟨hvalid,htimely,hnew⟩,-⟩ := acceptedFrom_iff.mpr haccept
    have hpayload := payload_of_valid hvalid
    have hsize : (m.bytes++back).length<2^64 := by
      rw [← hdrop,length_drop]
      omega
    rw [hdrop] at hat
    have hheader := @AtRest.header vchData (m.bytes++back) ⟨12,st,0,[]⟩ hat
      (by rw [length_append,m.length_bytes]; omega) hsize
    obtain ⟨left,hleft⟩ := Nat.exists_eq_add_of_lt hcount.1
    rw [Nat.zero_add] at hleft
    rw [hleft,@receiveLoop_accepted hashes now vchData back ⟨12,st,0,[]⟩ left m hat hheader
      hvalid htimely hnew,Nat.mod_eq_of_lt (by dsimp only; omega)] at hloop
    obtain ⟨msgs,last,hback,hfew,hacc,hstate⟩ := @receiveLoop_state hashes now vchData back _
      loop left hat.skip (by rw [hmax,hhdr]; dsimp only; omega) hloop
    refine ⟨m::msgs,last,loop,?_,?_,⟨⟨hvalid,htimely,hnew⟩,hacc⟩,fun _ => cons_ne_nil _ _,
      hstate,rfl⟩
    · rw [hdrop,hback,bunchOf,bunchOf,flatMap_cons,append_assoc]
    · rw [length_cons,hleft]
      exact Nat.succ_le_succ hfew
  · obtain ⟨msgs,back,hdrop,hfew,hacc,hstate⟩ := @receiveLoop_state hashes now vchData
      (vchData.drop 12) ⟨12,st,0,[]⟩ loop (bunchCount vchData) hat
      (by rw [hmax,hhdr]; dsimp only; omega) hloop
    exact ⟨msgs,back,loop,hdrop,hfew,hacc,fun h => absurd h hfirst,hstate,rfl⟩

theorem receive_unopened_same (hunopened : ¬Opened now vchData)
    (hrun : secureMsgReceive hashes now st vchData=.ok bunch) :
    SameBuckets st.smsgBuckets bunch.st.smsgBuckets := by
  rw [secureMsgReceive] at hrun
  by_cases hsize : vchData.length<12
  · rw [if_pos hsize] at hrun
    cases hrun
    exact SameBuckets.rfl' _
  · rw [if_neg hsize,readUInt32_ok (by omega),ok_bind,readInt64_ok (by omega),ok_bind,
      drop_zero] at hrun
    by_cases hfuture : now+smsgTimeLeeway<bunchTime vchData
    · cases (if_pos hfuture).symm.trans hrun
      exact SameBuckets.rfl' _
    · by_cases hold : bunchTime vchData<now-smsgRetention
      · cases ((if_neg hfuture).trans (if_pos hold)).symm.trans hrun
        exact SameBuckets.rfl' _
      · by_cases hmany : bunchCount vchData=0 ∨ 500<bunchCount vchData
        · cases ((if_neg hfuture).trans ((if_neg hold).trans (if_pos hmany))).symm.trans hrun
          split
          · obtain ⟨bucket,hfind⟩ := (contains_iff _ _).mp ‹_›
            exact sameBuckets_change hfind rfl
          · exact SameBuckets.rfl' _
        · refine absurd ⟨Nat.not_lt.mp hsize,?_,Int.not_lt.mp hold,Int.not_lt.mp hfuture⟩ hunopened
          omega

theorem find_store {fUpdateBucket : Bool} (htimely : m.Timely now) (hnew : ¬m.Known st)
    {time : ℤ} (hother : time≠bucketTime m.time) :
    (storeMessage hashes now st m fUpdateBucket).smsgBuckets.find time=
      st.smsgBuckets.find time := by
  rw [storeMessage,store_accepted htimely hnew]
  exact find_set_of_ne _ _ hother

theorem find_storeAll (hacc : AcceptedFrom hashes now st msgs) {time : ℤ}
    (hother : ∀ m∈msgs, time≠bucketTime m.time) :
    (storeAll hashes now st msgs).smsgBuckets.find time=st.smsgBuckets.find time := by
  induction msgs generalizing st with
  | nil => rfl
  | cons m msgs ih =>
    obtain ⟨⟨-,htimely,hnew⟩,hrest⟩ := hacc
    obtain ⟨hm,hmsgs⟩ := forall_mem_cons.mp hother
    rw [storeAll_cons,ih hrest hmsgs,find_store htimely hnew hm]

theorem known_storeAll (hacc : AcceptedFrom hashes now st msgs) (hknown : m.Known st) :
    m.Known (storeAll hashes now st msgs) := by
  induction msgs generalizing st with
  | nil => exact hknown
  | cons other msgs ih =>
    obtain ⟨⟨-,htimely,hnew⟩,hrest⟩ := hacc
    exact ih hrest ((known_store htimely hnew m).mpr (Or.inr hknown))

theorem tokens_changed (hacc : AcceptedFrom hashes now st (m::msgs)) :
    tokensAt (storeAll hashes now st (m::msgs)) (bucketTime m.time)≠
      tokensAt st (bucketTime m.time) := by
  obtain ⟨⟨-,htimely,hnew⟩,hrest⟩ := hacc
  intro he
  have hknown := known_storeAll hrest ((@known_store hashes now st m false htimely hnew m).mpr
    (Or.inl rfl))
  rw [← storeAll_cons] at hknown
  unfold Message.Known at hknown hnew
  unfold tokensAt at he
  rw [he] at hknown
  exact hnew hknown

end Bunches

section Worlds

/-- A node with its clock. -/
structure World where
  st : SmsgState
  clock : ℤ
  lastTick : ℤ
  lastChange : ℤ → ℤ

/-- What happens to a node. -/
inductive Event where
  | receive (peer : PeerData) (strCommand : Command) (vchData : List UInt8)
  | send (m : Message)
  | tick

/-- The store after an event. -/
def nextState (hashes : SmsgHashes) (now : ℤ) (st : SmsgState) : Event → Run SmsgState
  | .receive peer strCommand vchData => do
    let outcome ← secureMsgReceiveData hashes now st peer strCommand vchData
    .ok outcome.st
  | .send m => .ok (storeMessage hashes now st m true)
  | .tick => .ok (threadSecureMsg now st).1

/-- The node after an event. -/
def World.after (world : World) (now : ℤ) (event : Event) (st : SmsgState) : World where
  st := st
  clock := now
  lastTick :=
    match event with
    | .tick => now
    | _ => world.lastTick
  lastChange := fun time =>
    if tokensAt st time=tokensAt world.st time then world.lastChange time else now

/-- A bunch has new messages of its own bucket only, and some if the bucket is there. -/
structure OneBucket (hashes : SmsgHashes) (now : ℤ) (st : SmsgState) (vchData : List UInt8) :
    Prop where
  same : ∀ msgs back, vchData.drop 12=bunchOf msgs++back → msgs.length≤bunchCount vchData →
    Acceptable hashes now st msgs → ∀ m∈msgs, bucketTime m.time=bunchTime vchData
  /-- The bucket changes when it is hashed, or was hashed just now. -/
  changed : ∀ bucket, st.smsgBuckets.find (bunchTime vchData)=some bucket →
    FirstNew hashes now st vchData ∨ bucket.timeChanged=now

/-- Lists of a peer name buckets that are there, and bunches have messages of their bucket. -/
def Regular (hashes : SmsgHashes) (now : ℤ) (st : SmsgState) : Event → Prop
  | .receive peer .smsgInv vchData =>
    ¬now<peer.ignoreUntil → EntriesKnown now st.smsgBuckets vchData
  | .receive _ .smsgHave vchData => TokensKnown now st.smsgBuckets vchData
  | .receive _ .smsgMsg vchData => Opened now vchData → OneBucket hashes now st vchData
  | _ => True

/-- Time does not go back, the thread ran within the last nine minutes, and the event is regular. -/
structure Careful (hashes : SmsgHashes) (world : World) (now : ℤ) (event : Event) : Prop where
  later : world.clock≤now
  ticked : event=.tick ∨ now≤world.lastTick+540
  regular : Regular hashes now world.st event

/-- Nodes that a run of careful steps comes to. The clock starts after the third day. -/
inductive Reached (hashes : SmsgHashes) : World → Prop where
  | start (clock : ℤ) (files : OrderedMap ℤ (List UInt8)) (hclock : smsgRetention ≤ clock) :
    Reached hashes ⟨⟨.empty,files⟩,clock,clock,fun _ => clock⟩
  | step {world : World} (now : ℤ) (event : Event) (st : SmsgState)
    (hworld : Reached hashes world) (hcareful : Careful hashes world now event)
    (hnext : nextState hashes now world.st event=.ok st) :
    Reached hashes (world.after now event st)

/-- Buckets have the hashes of their tokens and starts that are multiples of ten minutes, and there
are at most 290 of them. -/
structure InStep (hashes : SmsgHashes) (world : World) : Prop where
  hash : ∀ time bucket, world.st.smsgBuckets.find time=some bucket →
    bucket.hash=digest hashes bucket.setTokens
  changed : ∀ time bucket, world.st.smsgBuckets.find time=some bucket →
    bucket.timeChanged=world.lastChange time
  start : ∀ time bucket, world.st.smsgBuckets.find time=some bucket → smsgBucketLen ∣ time
  few : (world.st.smsgBuckets.size : ℤ) ≤ smsgRetention/smsgBucketLen+2

/-- A bucket in step, with a start near the clock. -/
structure Placed (hashes : SmsgHashes) (world : World) (time : ℤ)
  (bucket : SecMsgBucket) : Prop where
  hash : bucket.hash=digest hashes bucket.setTokens
  changed : bucket.timeChanged=world.lastChange time
  start : smsgBucketLen ∣ time
  /-- The bucket is not older than the thread allows. -/
  recent : world.lastTick-smsgRetention-smsgBucketLen<time
  past : time≤world.clock+smsgTimeLeeway

/-- What holds of the nodes of a run. -/
structure Kept (hashes : SmsgHashes) (world : World) : Prop where
  clock : smsgRetention≤world.clock
  tick : world.lastTick≤world.clock
  ticked : world.clock≤world.lastTick+540
  placed : ∀ time bucket, world.st.smsgBuckets.find time=some bucket →
    Placed hashes world time bucket

variable {world : World} {st : SmsgState} {event : Event}

/-- Buckets with starts that are multiples of ten minutes are few within two days. -/
theorem size_le {smsgBuckets : Buckets} {low : ℤ}
    (hstart : ∀ time bucket, smsgBuckets.find time=some bucket →
      smsgBucketLen ∣ time ∧ low<time ∧ time≤low+174000) : smsgBuckets.size≤290 := by
  have hlen : smsgBucketLen=600 := rfl
  have hentry : ∀ entry∈smsgBuckets.entries, smsgBucketLen ∣ entry.1 ∧ low<entry.1 ∧
      entry.1≤low+174000 := fun entry hm =>
    hstart entry.1 entry.2 ((smsgBuckets.mem_entries_iff entry.1 entry.2).mp hm)
  have hnodup : (smsgBuckets.entries.map (fun entry => entry.1/600)).Nodup := by
    have hkeys := smsgBuckets.nodup_keys
    rw [show smsgBuckets.entries.map (fun entry => entry.1/600)=
      (smsgBuckets.entries.map Prod.fst).map (fun time => time/600) by rw [map_map]; rfl]
    refine List.Nodup.map_on ?_ hkeys
    intro time htime other hother he
    obtain ⟨entry,hm,rfl⟩ := mem_map.mp htime
    obtain ⟨second,hsecond,rfl⟩ := mem_map.mp hother
    have hfirst := (hentry entry hm).1
    have hlast := (hentry second hsecond).1
    rw [hlen] at hfirst hlast
    omega
  have hsub : (smsgBuckets.entries.map (fun entry => entry.1/600)).toFinset ⊆
      Finset.Ioc (low/600) (low/600+290) := by
    intro slot hslot
    rw [mem_toFinset] at hslot
    obtain ⟨entry,hm,rfl⟩ := mem_map.mp hslot
    obtain ⟨hdvd,hlow,hhigh⟩ := hentry entry hm
    rw [hlen] at hdvd
    rw [Finset.mem_Ioc]
    omega
  have hcard := Finset.card_le_card hsub
  rw [toFinset_card_of_nodup hnodup,length_map,Int.card_Ioc] at hcard
  rw [OrderedMap.size]
  omega

theorem Kept.inStep (h : Kept hashes world) : InStep hashes world := by
  refine ⟨fun time bucket hfind => (h.placed time bucket hfind).hash,
    fun time bucket hfind => (h.placed time bucket hfind).changed,
    fun time bucket hfind => (h.placed time bucket hfind).start,?_⟩
  have hret : smsgRetention=172800 := rfl
  have hlen : smsgBucketLen=600 := rfl
  have hleeway : smsgTimeLeeway=60 := rfl
  have hticked := h.ticked
  have hsize := @size_le world.st.smsgBuckets (world.lastTick-smsgRetention-smsgBucketLen) (by
    intro time bucket hfind
    have hplaced := h.placed time bucket hfind
    have hpast := hplaced.past
    exact ⟨hplaced.start,hplaced.recent,by omega⟩)
  have hmost : smsgRetention/smsgBucketLen+2=290 := by decide
  omega

/-- Only a tick changes the last tick. -/
theorem lastTick_after (hevent : event≠.tick) :
    (world.after now event st).lastTick=world.lastTick := by
  cases event with
  | tick => exact absurd rfl hevent
  | send m => rfl
  | receive peer strCommand vchData => rfl

/-- Without a tick, only the buckets can fall out of step. -/
theorem Kept.after (h : Kept hashes world) (hcareful : Careful hashes world now event)
    (hevent : event≠.tick) (hplaced : ∀ time bucket, st.smsgBuckets.find time=some bucket →
      Placed hashes (world.after now event st) time bucket) :
    Kept hashes (world.after now event st) := by
  have hlater := hcareful.later
  have hclock := h.clock
  have hbefore := h.tick
  refine ⟨Int.le_trans hclock hlater,?_,?_,hplaced⟩
  · rw [lastTick_after hevent]
    exact Int.le_trans hbefore hlater
  · rw [lastTick_after hevent]
    exact hcareful.ticked.resolve_left hevent

/-- A bucket that keeps its tokens stays placed. -/
theorem Placed.after {time : ℤ} {old bucket : SecMsgBucket} (h : Placed hashes world time old)
    (hlater : world.clock≤now) (hevent : event≠.tick)
    (hkept : tokensAt st time=tokensAt world.st time) (htokens : bucket.setTokens=old.setTokens)
    (hhash : bucket.hash=old.hash) (htime : bucket.timeChanged=old.timeChanged) :
    Placed hashes (world.after now event st) time bucket := by
  have hpast := h.past
  refine ⟨?_,?_,h.start,?_,?_⟩
  · rw [hhash,htokens]
    exact h.hash
  · rw [htime,h.changed]
    exact (if_pos hkept).symm
  · rw [lastTick_after hevent]
    exact h.recent
  · exact Int.le_trans hpast (Int.add_le_add_right hlater _)

theorem Kept.same (h : Kept hashes world) (hcareful : Careful hashes world now event)
    (hsame : SameBuckets world.st.smsgBuckets st.smsgBuckets) (hevent : event≠.tick) :
    Kept hashes (world.after now event st) := by
  refine h.after hcareful hevent (fun time bucket hfind => ?_)
  obtain ⟨old,hold,htokens,hhash,htime⟩ := hsame.find hfind
  have hkept : tokensAt st time=tokensAt world.st time := by
    rw [tokensAt,tokensAt,bucketAt,bucketAt,hfind,hold,Option.getD_some,Option.getD_some,htokens]
  exact (h.placed time old hold).after hcareful.later hevent hkept htokens hhash htime

theorem bucketTime_bounds {time : ℤ} (hpos : 0≤time) :
    smsgBucketLen ∣ bucketTime time ∧ time-smsgBucketLen<bucketTime time ∧
      bucketTime time≤time := by
  have hlen : smsgBucketLen=600 := rfl
  rw [bucketTime,hlen,Int.tmod_eq_emod_of_nonneg hpos]
  omega

/-- One bucket that was hashed just now and whose tokens changed stays in step. -/
theorem Kept.hashed (h : Kept hashes world) (hcareful : Careful hashes world now event)
    (hevent : event≠.tick) {time : ℤ} {bucket : SecMsgBucket}
    (hother : ∀ other≠time, st.smsgBuckets.find other=world.st.smsgBuckets.find other)
    (hfind : st.smsgBuckets.find time=some bucket)
    (hhash : bucket.hash=digest hashes bucket.setTokens) (hnow : bucket.timeChanged=now)
    (hchanged : tokensAt st time≠tokensAt world.st time)
    {m : Message} (htimely : m.Timely now) (htime : time=bucketTime m.time) :
    Kept hashes (world.after now event st) := by
  have hlater := hcareful.later
  have hticked := hcareful.ticked.resolve_left hevent
  refine h.after hcareful hevent (fun other found hfound => ?_)
  by_cases he : other=time
  · rw [he,hfind] at hfound
    cases hfound
    have hold := htimely.1
    have hfuture := htimely.2
    have hclock := h.clock
    have hbefore := h.tick
    have hpos : 0 ≤ m.time := by omega
    obtain ⟨hdvd,hlow,hhigh⟩ := bucketTime_bounds hpos
    refine ⟨hhash,?_,?_,?_,?_⟩
    · rw [hnow,he]
      exact (if_neg hchanged).symm
    · rw [he,htime]
      exact hdvd
    · rw [lastTick_after hevent,he,htime]
      omega
    · rw [he,htime]
      exact Int.le_trans hhigh hfuture
  · have hkept : tokensAt st other=tokensAt world.st other := by
      rw [tokensAt,tokensAt,bucketAt,bucketAt,hother other he]
    rw [hother other he] at hfound
    exact (h.placed other found hfound).after hlater hevent hkept rfl rfl rfl

end Worlds

variable {world : World} {st : SmsgState} {peer : PeerData} {vchData : List UInt8}
  {outcome : Outcome} {m : Message}

theorem receiveShow_state (hrun : receiveShow st peer vchData=.ok outcome) :
    outcome.st=st := by
  rw [receiveShow] at hrun
  by_cases hsize : vchData.length<4
  · rw [if_pos hsize] at hrun
    cases hrun
    rfl
  · rw [if_neg hsize,readUInt32_ok (by omega),ok_bind] at hrun
    split at hrun
    · cases hrun
      rfl
    · rw [bind_eq_ok] at hrun
      obtain ⟨sent,-,hrest⟩ := hrun
      cases hrest
      rfl

theorem receiveWant_state (hrun : receiveWant st peer vchData=.ok outcome) :
    outcome.st=st := by
  rw [receiveWant] at hrun
  by_cases hsize : vchData.length<8
  · rw [if_pos hsize] at hrun
    cases hrun
    rfl
  · rw [if_neg hsize] at hrun
    rw [readInt64_ok (by omega),ok_bind] at hrun
    split at hrun
    · cases hrun
      rfl
    · rw [bind_eq_ok] at hrun
      obtain ⟨want,-,hrest⟩ := hrun
      cases hrest
      rfl

theorem receiveMatch_state (hrun : receiveMatch now st peer vchData=.ok outcome) :
    outcome.st=st := by
  rw [receiveMatch] at hrun
  by_cases hsize : vchData.length<8
  · rw [if_pos hsize] at hrun
    cases hrun
    rfl
  · rw [if_neg hsize,readInt64_ok (by omega),ok_bind] at hrun
    cases hrun
    rfl

theorem receiveIgnore_state (hrun : receiveIgnore st peer vchData=.ok outcome) :
    outcome.st=st := by
  rw [receiveIgnore] at hrun
  by_cases hsize : vchData.length<8
  · rw [if_pos hsize] at hrun
    cases hrun
    rfl
  · rw [if_neg hsize,readInt64_ok (by omega),ok_bind] at hrun
    cases hrun
    rfl

theorem Kept.round (h : Kept hashes world) (hlater : world.clock≤now) :
    Kept hashes (world.after now .tick (threadSecureMsg now world.st).1) := by
  have hret : smsgRetention=172800 := rfl
  have hlen : smsgBucketLen=600 := rfl
  have hclock := h.clock
  refine ⟨Int.le_trans hclock hlater,Int.le_refl _,?_,?_⟩
  · show now≤now+540
    omega
  · intro time bucket hfind
    have hthere : (threadSecureMsg now world.st).1.smsgBuckets.find time=some bucket := hfind
    rw [threadSecureMsg,find_mapValues,find_filter] at hthere
    obtain ⟨old,hkept,hdown⟩ := Option.map_eq_some_iff.mp hthere
    obtain ⟨hold,hcurrent⟩ := Option.filter_eq_some_iff.mp hkept
    have hplaced := h.placed time old hold
    have hrecent : ¬time<now-smsgRetention := of_decide_eq_true hcurrent
    have hdowned : bucket.setTokens=old.setTokens ∧ bucket.hash=old.hash ∧
        bucket.timeChanged=old.timeChanged := by
      rw [← hdown,countDown]
      split <;> exact ⟨rfl,rfl,rfl⟩
    obtain ⟨htokens,hhash,htime⟩ := hdowned
    have hsame : tokensAt (threadSecureMsg now world.st).1 time=tokensAt world.st time := by
      have hnow : (threadSecureMsg now world.st).1.smsgBuckets.find time=some bucket := hfind
      rw [tokensAt,tokensAt,bucketAt,bucketAt,hnow,hold,Option.getD_some,Option.getD_some,htokens]
    have hpast := hplaced.past
    refine ⟨?_,?_,hplaced.start,?_,?_⟩
    · rw [hhash,htokens]
      exact hplaced.hash
    · rw [htime,hplaced.changed]
      exact (if_pos hsame).symm
    · show now-smsgRetention-smsgBucketLen<time
      omega
    · exact Int.le_trans hpast (Int.add_le_add_right hlater _)

theorem Kept.sent (h : Kept hashes world) (hcareful : Careful hashes world now (.send m)) :
    Kept hashes (world.after now (.send m) (storeMessage hashes now world.st m true)) := by
  have hevent : Event.send m≠.tick := fun he => by cases he
  by_cases hstore : m.Timely now ∧ ¬m.Known world.st
  · obtain ⟨htimely,hnew⟩ := hstore
    have hknown := (@known_store hashes now world.st m true htimely hnew m).mpr (Or.inl rfl)
    refine @Kept.hashed hashes now world _ _ h hcareful hevent (bucketTime m.time)
      (bucketAt (storeMessage hashes now world.st m true).smsgBuckets (bucketTime m.time))
      ?_ ?_ ?_ ?_ ?_ m htimely rfl
    · intro other hother
      exact find_store htimely hnew hother
    · rw [storeMessage,store_accepted htimely hnew]
      rw [bucketAt_changeBucket,if_pos rfl]
      exact find_set_self _ _ _
    · rw [storeMessage,store_accepted htimely hnew]
      rw [bucketAt_changeBucket,if_pos rfl,if_pos rfl]
      rfl
    · rw [storeMessage,store_accepted htimely hnew]
      rw [bucketAt_changeBucket,if_pos rfl,if_pos rfl]
      rfl
    · intro he
      unfold Message.Known at hknown hnew
      unfold tokensAt at he
      rw [he] at hknown
      exact hnew hknown
  · have hsame : storeMessage hashes now world.st m true=world.st :=
      congrArg Prod.fst (store_refused hstore)
    rw [hsame]
    exact h.same hcareful (SameBuckets.rfl' _) hevent

theorem Kept.bunch (h : Kept hashes world)
    (hcareful : Careful hashes world now (.receive peer .smsgMsg vchData)) {bunch : BunchState}
    (hrun : secureMsgReceive hashes now world.st vchData=.ok bunch) :
    Kept hashes (world.after now (.receive peer .smsgMsg vchData) bunch.st) := by
  have hevent : Event.receive peer .smsgMsg vchData≠.tick := fun he => by cases he
  by_cases hopened : Opened now vchData
  · have hone : OneBucket hashes now world.st vchData := hcareful.regular hopened
    obtain ⟨msgs,back,loop,hdrop,hfew,hacc,hfirst,hloop,hclose⟩ := receive_stored hopened hrun
    have hsame := hone.same msgs back hdrop hfew (acceptedFrom_iff.mp hacc)
    rw [hclose,closeBunch]
    cases msgs with
    | nil =>
      have hstate : loop.st=world.st := hloop
      rw [hstate]
      by_cases hthere : world.st.smsgBuckets.contains (bunchTime vchData)=true
      · obtain ⟨bucket,hfind⟩ := (contains_iff _ _).mp hthere
        have hplaced := h.placed _ _ hfind
        have hnow := (hone.changed bucket hfind).resolve_left (fun hnew => hfirst hnew rfl)
        rw [if_pos hthere]
        refine h.same hcareful (sameBuckets_change hfind ?_) hevent
        rw [releaseBucket,hashBucket,unlocked,unlocked,← hplaced.hash,hnow]
      · rw [if_neg hthere,hstate]
        exact h.same hcareful (SameBuckets.rfl' _) hevent
    | cons m msgs =>
      have htime := hsame m mem_cons_self
      obtain ⟨⟨-,htimely,hnew⟩,hrest⟩ := id hacc
      have hchanged := tokens_changed hacc
      have hknown := known_storeAll hrest
        ((@known_store hashes now world.st m false htimely hnew m).mpr (Or.inl rfl))
      rw [← storeAll_cons] at hknown
      have hthere : (storeAll hashes now world.st (m::msgs)).smsgBuckets.contains
          (bunchTime vchData)=true := by
        rw [← htime]
        by_contra hmissing
        have hnone := (contains_eq_false _ _).mp (Bool.eq_false_of_not_eq_true hmissing)
        unfold Message.Known bucketAt at hknown
        rw [hnone] at hknown
        exact absurd hknown Bool.false_ne_true
      rw [hloop,if_pos hthere]
      refine @Kept.hashed hashes now world _ _ h hcareful hevent (bunchTime vchData)
        (releaseBucket hashes now (bucketAt (storeAll hashes now world.st (m::msgs)).smsgBuckets
          (bunchTime vchData))) ?_ ?_ rfl rfl ?_ m htimely htime.symm
      · intro other hother
        refine (find_set_of_ne _ _ hother).trans (find_storeAll hacc ?_)
        intro added hm
        rw [hsame added hm]
        exact hother
      · exact find_set_self _ _ _
      · rw [tokensAt]
        rw [bucketAt_changeBucket,if_pos rfl]
        rw [htime] at hchanged
        exact hchanged
  · exact h.same hcareful (receive_unopened_same hopened hrun) hevent

theorem Kept.step {event : Event} (h : Kept hashes world)
    (hcareful : Careful hashes world now event)
    (hnext : nextState hashes now world.st event=.ok st) :
    Kept hashes (world.after now event st) := by
  cases event with
  | tick =>
    cases hnext
    exact h.round hcareful.later
  | send m =>
    cases hnext
    exact h.sent hcareful
  | receive peer strCommand vchData =>
    have hevent : Event.receive peer strCommand vchData≠.tick := fun he => by cases he
    rw [nextState,bind_eq_ok] at hnext
    obtain ⟨outcome,hrun,hstate⟩ := hnext
    cases hstate
    have hunchanged : outcome.st=world.st →
        Kept hashes (world.after now (.receive peer strCommand vchData) outcome.st) := by
      intro he
      rw [he]
      exact h.same hcareful (SameBuckets.rfl' _) hevent
    cases strCommand with
    | smsgInv =>
      refine h.same hcareful ?_ hevent
      rw [receiveInv_same hcareful.regular hrun]
      exact SameBuckets.rfl' _
    | smsgHave => exact h.same hcareful (receiveHave_same hcareful.regular hrun) hevent
    | smsgMsg =>
      rw [secureMsgReceiveData,bind_eq_ok] at hrun
      obtain ⟨bunch,hbunch,houtcome⟩ := hrun
      cases houtcome
      exact h.bunch hcareful hbunch
    | smsgShow => exact hunchanged (receiveShow_state hrun)
    | smsgWant => exact hunchanged (receiveWant_state hrun)
    | smsgMatch => exact hunchanged (receiveMatch_state hrun)
    | smsgIgnore => exact hunchanged (receiveIgnore_state hrun)
    | smsgPing =>
      cases hrun
      exact hunchanged rfl
    | smsgPong =>
      cases hrun
      exact hunchanged rfl
    | smsgDisabled =>
      cases hrun
      exact hunchanged rfl

theorem Reached.kept (hworld : Reached hashes world) : Kept hashes world := by
  induction hworld with
  | start clock files hclock =>
    refine ⟨hclock,Int.le_refl _,?_,fun time bucket hfind => by cases hfind⟩
    dsimp only
    omega
  | step now event st _ hcareful hnext ih => exact ih.step hcareful hnext

/-- In a run of careful steps buckets and their hashes stay in step. -/
theorem reached_inStep (hashes : SmsgHashes) (world : World) (hworld : Reached hashes world) :
    InStep hashes world :=
  hworld.kept.inStep

/-- The clock of a node that starts after the third day. -/
def startWorld : World := ⟨{},172800,172800,fun _ => 172800⟩

/-- The theorem after a message was sent from here. -/
theorem reached_inStep_sent :
    InStep emptyHashes (startWorld.after 172800 (.send (oldMessage 1))
      (storeMessage emptyHashes 172800 startWorld.st (oldMessage 1) true)) :=
  reached_inStep _ _ (.step 172800 (.send (oldMessage 1)) _ (.start 172800 .empty (Int.le_refl _))
    ⟨Int.le_refl _,Or.inr (by decide),trivial⟩ rfl)

/-- Hash functions with which each message is valid and no bucket has the hash zero. -/
def oneHashes : SmsgHashes := ⟨fun _ _ => replicate 32 0,fun _ => 1⟩

/-- A list with a bucket that starts one second after the clock. -/
def oddList : List UInt8 := leBytes 4 1++(leBytes 8 172801++(leBytes 4 1++leBytes 4 0))

/-- A bunch that names another bucket than that of its message. -/
def otherBunch : List UInt8 :=
  bunchBytes 1 600 (replicate 4 0++(1::replicate 95 0++[8,0,0,0]++replicate 8 1))

set_option maxRecDepth 100000 in
/-- A list makes a bucket that starts at any time, and a bunch leaves a bucket without
its hash. -/
theorem lists_and_bunches_outOfStep :
    (∃ st, nextState oneHashes 172800 {} (.receive {} .smsgInv oddList)=.ok st ∧
      ¬InStep oneHashes (startWorld.after 172800 (.receive {} .smsgInv oddList) st)) ∧
    ∃ st, nextState oneHashes 172800 {} (.receive {} .smsgMsg otherBunch)=.ok st ∧
      ¬InStep oneHashes (startWorld.after 172800 (.receive {} .smsgMsg otherBunch) st) := by
  constructor
  · refine ⟨⟨⟨[(172801,{})],pairwise_singleton _ _⟩,.empty⟩,rfl,?_⟩
    intro h
    exact absurd (h.start 172801 {} rfl) (by decide)
  · have hcheck : (secureMsgReceive oneHashes 172800 {} otherBunch).toOption.bind (fun bunch =>
        (bunch.st.smsgBuckets.find 0).map SecMsgBucket.hash)=some 0 := by decide
    obtain ⟨bunch,hok,hstored⟩ := Option.bind_eq_some_iff.mp hcheck
    obtain ⟨bucket,hfind,hhash⟩ := Option.map_eq_some_iff.mp hstored
    have hrun : secureMsgReceive oneHashes 172800 {} otherBunch=.ok bunch := by
      cases hres : secureMsgReceive oneHashes 172800 {} otherBunch with
      | ok found =>
        rw [hres] at hok
        cases hok
        rfl
      | error fault =>
        rw [hres] at hok
        cases hok
    refine ⟨bunch.st,?_,?_⟩
    · rw [nextState,secureMsgReceiveData,hrun]
      rfl
    · intro h
      have hdigest := h.hash 0 bucket hfind
      rw [hhash] at hdigest
      cases hdigest

end Pyrk.SmsgExpiry
