import Pyrk.SmsgInventory
import Pyrk.SmsgRecords

/-!
# Bunches of messages

Messages are sent one behind the other, and the receiver goes from one to the next by the lengths
that their headers claim, before it knows that the payload is there.
-/

namespace Pyrk.SmsgBunches

open Script UndoData SecureMessage SmsgInventory SmsgRecords List

variable (hashes : SmsgHashes) (now : ℤ)

section Accepting

/-- The messages are valid, of their time and not known, one after the other. -/
def AcceptedFrom : SmsgState → List Message → Prop
  | _,[] => True
  | st,m::msgs =>
    (m.Valid hashes ∧ m.Timely now ∧ ¬m.Known st) ∧
      AcceptedFrom (storeMessage hashes now st m false) msgs

/-- The store after some messages are put in. -/
def storeAll (st : SmsgState) (msgs : List Message) : SmsgState :=
  msgs.foldl (fun st m => storeMessage hashes now st m false) st

/-- The messages are valid, of their time, not known and no two are the same. -/
structure Acceptable (st : SmsgState) (msgs : List Message) : Prop where
  valid : ∀ m∈msgs, m.Valid hashes
  timely : ∀ m∈msgs, m.Timely now
  new : ∀ m∈msgs, ¬m.Known st
  distinct : msgs.Pairwise (fun m other => m.key≠other.key)

variable {hashes now} {st : SmsgState} {msgs : List Message}

theorem acceptedFrom_iff : AcceptedFrom hashes now st msgs ↔ Acceptable hashes now st msgs := by
  induction msgs generalizing st with
  | nil =>
    refine iff_of_true trivial ⟨?_,?_,?_,List.Pairwise.nil⟩ <;>
      exact fun m hm => absurd hm not_mem_nil
  | cons m msgs ih =>
    rw [AcceptedFrom,ih]
    constructor
    · intro h
      obtain ⟨⟨hvalid,htimely,hnew⟩,hrest⟩ := h
      have hother : ∀ other∈msgs, other.key≠m.key ∧ ¬other.Known st := fun other hm => by
        have hunknown := hrest.new other hm
        rwa [known_store htimely hnew,not_or] at hunknown
      refine ⟨?_,?_,?_,?_⟩
      · exact forall_mem_cons.mpr ⟨hvalid,hrest.valid⟩
      · exact forall_mem_cons.mpr ⟨htimely,hrest.timely⟩
      · exact forall_mem_cons.mpr ⟨hnew,fun other hm => (hother other hm).2⟩
      · exact pairwise_cons.mpr ⟨fun other hm => (hother other hm).1.symm,hrest.distinct⟩
    · intro h
      obtain ⟨hvalid,hvalids⟩ := forall_mem_cons.mp h.valid
      obtain ⟨htimely,htimelys⟩ := forall_mem_cons.mp h.timely
      obtain ⟨hnew,hnews⟩ := forall_mem_cons.mp h.new
      obtain ⟨hapart,hdistinct⟩ := pairwise_cons.mp h.distinct
      refine ⟨⟨hvalid,htimely,hnew⟩,⟨hvalids,htimelys,?_,hdistinct⟩⟩
      intro other hm
      rw [known_store htimely hnew,not_or]
      exact ⟨(hapart other hm).symm,hnews other hm⟩

theorem exists_refused (h : ¬AcceptedFrom hashes now st msgs) :
    ∃ front m back, msgs=front++m::back ∧ AcceptedFrom hashes now st front ∧
      ¬(m.Valid hashes ∧ m.Timely now ∧ ¬m.Known (storeAll hashes now st front)) := by
  induction msgs generalizing st with
  | nil => exact absurd trivial h
  | cons m msgs ih =>
    by_cases hm : m.Valid hashes ∧ m.Timely now ∧ ¬m.Known st
    · obtain ⟨front,refused,back,he,hfront,hrefused⟩ := ih (fun hrest => h ⟨hm,hrest⟩)
      exact ⟨m::front,refused,back,by rw [he]; rfl,⟨hm,hfront⟩,hrefused⟩
    · exact ⟨[],m,msgs,rfl,trivial,hm⟩

theorem storeAll_cons (m : Message) :
    storeAll hashes now st (m::msgs)=
      storeAll hashes now (storeMessage hashes now st m false) msgs := rfl

end Accepting

/-- Bytes of a list of messages. -/
def bunchOf (msgs : List Message) : List UInt8 := msgs.flatMap Message.bytes

/-- The messages with their positions, starting from some position. -/
def positioned : ℕ → List Message → List (ℕ×List UInt8)
  | _,[] => []
  | n,m::msgs => (n,m.bytes)::positioned (n+m.bytes.length) msgs

theorem length_positioned (n : ℕ) (msgs : List Message) :
    (positioned n msgs).length=msgs.length := by
  induction msgs generalizing n with
  | nil => rfl
  | cons m msgs ih => rw [positioned,length_cons,ih,length_cons]

theorem positioned_append (n : ℕ) (front back : List Message) :
    positioned n (front++back)=positioned n front++positioned (n+(bunchOf front).length) back := by
  induction front generalizing n with
  | nil => rfl
  | cons m front ih =>
    rw [cons_append,positioned,positioned,ih,cons_append]
    have he : n+m.bytes.length+(bunchOf front).length=n+(bunchOf (m::front)).length := by
      rw [bunchOf,bunchOf,flatMap_cons,length_append]
      omega
    rw [he]

theorem length_bunchOf_le {size : ℕ} {msgs : List Message} (h : ∀ m∈msgs, m.payload.length ≤ size) :
    (bunchOf msgs).length ≤ msgs.length*(smsgHdrLen+size) := by
  induction msgs with
  | nil => exact Nat.zero_le _
  | cons m msgs ih =>
    obtain ⟨hm,hmsgs⟩ := forall_mem_cons.mp h
    have hrest := ih hmsgs
    rw [bunchOf,flatMap_cons,length_append,m.length_bytes,length_cons,Nat.add_mul,Nat.one_mul]
    rw [bunchOf] at hrest
    omega

variable {hashes now} {vchData rest : List UInt8} {bunch final : BunchState} {left : ℕ}

section Steps

/-- Rest of the bunch at the position of the loop. -/
structure AtRest (vchData : List UInt8) (n : ℕ) (rest : List UInt8) : Prop where
  inside : n≤vchData.length
  here : vchData.drop n=rest

theorem AtRest.length (h : AtRest vchData bunch.n rest) : vchData.length=bunch.n+rest.length := by
  rw [← h.here,length_drop]
  have := h.inside
  omega

theorem receiveLoop_header (h : AtRest vchData bunch.n rest)
    (hheader : ¬(vchData.length+2^64-bunch.n)%2^64 < smsgHdrLen)
    (hlong : smsgHdrLen ≤ rest.length) :
    receiveLoop hashes now vchData (left+1) bunch=(do
      let header := rest.take smsgHdrLen
      let pPayload := readAt vchData (bunch.n+smsgHdrLen) (nPayload header)
      let offered := bunch.offered++[(bunch.n,rest.take (smsgHdrLen+nPayload header))]
      let rv ← secureMsgValidate hashes header (nPayload header) pPayload
      if rv≠0 then
        receiveLoop hashes now vchData left { bunch with
          offered := offered
          misbehaving := bunch.misbehaving+if rv=2 then 10 else 1 }
      else
        let payload ← pPayload
        let stored := secureMsgStore hashes now bunch.st header payload false
        if !stored.2 then .ok { bunch with st := stored.1, offered := offered }
        else
          receiveLoop hashes now vchData left { bunch with
            n := (bunch.n+smsgHdrLen+nPayload header)%2^32
            st := stored.1
            offered := offered }) := by
  have hlen := h.length
  rw [receiveLoop,if_neg hheader,readAt_ok (by omega),ok_bind,h.here]

theorem readAt_payload (m : Message) (h : AtRest vchData bunch.n (m.bytes++rest)) :
    readAt vchData (bunch.n+smsgHdrLen) m.payload.length=.ok m.payload := by
  have hlen := h.length
  rw [length_append,m.length_bytes] at hlen
  rw [readAt_ok (by omega),← drop_drop,h.here,drop_header,take_left]

theorem validate_ok (m : Message) :
    ∃ rv, secureMsgValidate hashes m.header m.payload.length (.ok m.payload)=.ok rv := by
  rw [secureMsgValidate]
  split_ifs with hver hlarge
  · exact ⟨4,rfl⟩
  · exact ⟨5,rfl⟩
  · rw [ok_bind]
    dsimp only
    split_ifs with hhash hfound
    · exact ⟨3,rfl⟩
    · exact ⟨0,rfl⟩
    · exact ⟨2,rfl⟩

theorem receiveLoop_message {m : Message} {rv : ℕ} (h : AtRest vchData bunch.n (m.bytes++rest))
    (hheader : ¬(vchData.length+2^64-bunch.n)%2^64 < smsgHdrLen)
    (hvalidate : secureMsgValidate hashes m.header m.payload.length (.ok m.payload)=.ok rv) :
    receiveLoop hashes now vchData (left+1) bunch=
      if rv≠0 then
        receiveLoop hashes now vchData left { bunch with
          offered := bunch.offered++[(bunch.n,m.bytes)]
          misbehaving := bunch.misbehaving+if rv=2 then 10 else 1 }
      else
        let stored := secureMsgStore hashes now bunch.st m.header m.payload false
        if !stored.2 then
          .ok { bunch with st := stored.1, offered := bunch.offered++[(bunch.n,m.bytes)] }
        else
          receiveLoop hashes now vchData left { bunch with
            n := (bunch.n+smsgHdrLen+m.payload.length)%2^32
            st := stored.1
            offered := bunch.offered++[(bunch.n,m.bytes)] } := by
  have hlong : smsgHdrLen≤(m.bytes++rest).length := by
    rw [length_append,m.length_bytes]
    omega
  rw [receiveLoop_header h hheader hlong,take_header]
  dsimp only
  rw [m.payload_length,take_bytes,readAt_payload m h,hvalidate,ok_bind]
  rfl

variable {m : Message}

section

variable (h : AtRest vchData bunch.n (m.bytes++rest))
variable (hheader : ¬(vchData.length+2^64-bunch.n)%2^64 < smsgHdrLen)

include h hheader

theorem receiveLoop_invalid (hinvalid : ¬m.Valid hashes) :
    ∃ score, receiveLoop hashes now vchData (left+1) bunch=
      receiveLoop hashes now vchData left { bunch with
        offered := bunch.offered++[(bunch.n,m.bytes)]
        misbehaving := score } := by
  obtain ⟨rv,hvalidate⟩ := @validate_ok hashes m
  have hrv : rv≠0 := fun he => hinvalid (by rw [Message.Valid,hvalidate,he])
  rw [receiveLoop_message h hheader hvalidate,if_pos hrv]
  exact ⟨_,rfl⟩

theorem receiveLoop_refused (hvalid : m.Valid hashes)
    (hrefused : ¬(m.Timely now ∧ ¬m.Known bunch.st)) :
    receiveLoop hashes now vchData (left+1) bunch=
      .ok { bunch with offered := bunch.offered++[(bunch.n,m.bytes)] } := by
  rw [receiveLoop_message h hheader hvalid,store_refused hrefused]
  rfl

theorem receiveLoop_accepted (hvalid : m.Valid hashes)
    (htimely : m.Timely now) (hnew : ¬m.Known bunch.st) :
    receiveLoop hashes now vchData (left+1) bunch=receiveLoop hashes now vchData left { bunch with
        n := (bunch.n+smsgHdrLen+m.payload.length)%2^32
        st := storeMessage hashes now bunch.st m false
        offered := bunch.offered++[(bunch.n,m.bytes)] } := by
  rw [receiveLoop_message h hheader hvalid,storeMessage,store_accepted htimely hnew]
  rfl

end

theorem payload_of_valid (hvalid : m.Valid hashes) : m.payload.length ≤ smsgMaxMsgWorst := by
  by_contra hlarge
  rw [Message.Valid,secureMsgValidate] at hvalid
  split_ifs at hvalid with hver hworst
  · cases hvalid
  · cases hvalid
  · exact hlarge (Nat.not_lt.mp hworst)

theorem AtRest.skip {n : ℕ} (h : AtRest vchData n (m.bytes++rest)) :
    AtRest vchData (n+smsgHdrLen+m.payload.length) rest := by
  have hlen : vchData.length-n=(m.bytes++rest).length := by rw [← h.here,length_drop]
  rw [length_append,m.length_bytes] at hlen
  have hin := h.inside
  refine ⟨by omega,?_⟩
  rw [Nat.add_assoc,← drop_drop,h.here,drop_bytes]

theorem AtRest.header (h : AtRest vchData bunch.n rest) (hlong : smsgHdrLen ≤ rest.length)
    (hsmall : rest.length<2^64) : ¬(vchData.length+2^64-bunch.n)%2^64 < smsgHdrLen := by
  have hlen := h.length
  have he : (vchData.length+2^64-bunch.n)%2^64=rest.length := by
    rw [hlen,show bunch.n+rest.length+2^64-bunch.n=rest.length+2^64 by omega,
      Nat.add_mod_right,Nat.mod_eq_of_lt hsmall]
  omega

/-- Messages that are accepted are offered and stored one after the other. -/
theorem receiveLoop_all {msgs : List Message} (h : AtRest vchData bunch.n (bunchOf msgs++rest))
    (hsmall : (bunchOf msgs++rest).length<2^64) (hacc : AcceptedFrom hashes now bunch.st msgs)
    (hcount : bunch.n+msgs.length*(smsgHdrLen+smsgMaxMsgWorst)<2^32) :
    AtRest vchData (bunch.n+(bunchOf msgs).length) rest ∧
      bunch.n+(bunchOf msgs).length≤bunch.n+msgs.length*(smsgHdrLen+smsgMaxMsgWorst) ∧
      receiveLoop hashes now vchData (msgs.length+left) bunch=
        receiveLoop hashes now vchData left { bunch with
          n := bunch.n+(bunchOf msgs).length
          st := storeAll hashes now bunch.st msgs
          offered := bunch.offered++positioned bunch.n msgs } := by
  induction msgs generalizing bunch with
  | nil =>
    rw [length_nil,Nat.zero_add,positioned,append_nil]
    exact ⟨h,Nat.le_add_right _ _,rfl⟩
  | cons m msgs ih =>
    obtain ⟨⟨hvalid,htimely,hnew⟩,hrest⟩ := hacc
    have hpayload := payload_of_valid hvalid
    have he : bunchOf (m::msgs)=m.bytes++bunchOf msgs := flatMap_cons
    rw [he,append_assoc] at h hsmall
    rw [length_append,m.length_bytes] at hsmall
    rw [length_cons,Nat.add_mul,Nat.one_mul] at hcount
    have hheader := h.header (by rw [length_append,m.length_bytes]; omega)
      (by rw [length_append,m.length_bytes]; exact hsmall)
    have hn : (bunch.n+smsgHdrLen+m.payload.length)%2^32=bunch.n+smsgHdrLen+m.payload.length :=
      Nat.mod_eq_of_lt (by omega)
    have hnext := @ih { bunch with
        n := (bunch.n+smsgHdrLen+m.payload.length)%2^32
        st := storeMessage hashes now bunch.st m false
        offered := bunch.offered++[(bunch.n,m.bytes)] }
      (by dsimp only; rw [hn]; exact h.skip) (by omega) hrest (by dsimp only; omega)
    obtain ⟨hat,hle,hrun⟩ := hnext
    dsimp only at hat hle hrun
    have hsum : bunch.n+smsgHdrLen+m.payload.length+(bunchOf msgs).length=
        bunch.n+(bunchOf (m::msgs)).length := by
      rw [he,length_append,m.length_bytes]
      omega
    rw [hn,hsum] at hat hle hrun
    refine ⟨hat,?_,?_⟩
    · rw [length_cons,Nat.add_mul,Nat.one_mul]
      omega
    · rw [length_cons,Nat.add_right_comm,receiveLoop_accepted h hheader hvalid htimely hnew,hn,hrun]
      rw [positioned,m.length_bytes,append_assoc,singleton_append,Nat.add_assoc,storeAll_cons]

theorem offered_prefix (hrun : receiveLoop hashes now vchData left bunch=.ok final) :
    bunch.offered<+:final.offered := by
  induction left generalizing bunch with
  | zero =>
    cases hrun
    exact prefix_rfl
  | succ left ih =>
    rw [receiveLoop] at hrun
    split_ifs at hrun with hshort
    · cases hrun
      exact prefix_rfl
    · rw [bind_eq_ok] at hrun
      obtain ⟨header,-,hrun⟩ := hrun
      dsimp only at hrun
      rw [bind_eq_ok] at hrun
      obtain ⟨rv,-,hrun⟩ := hrun
      by_cases hrv : rv≠0
      · rw [if_pos hrv] at hrun
        exact (prefix_append _ _).trans (ih hrun)
      · rw [if_neg hrv,bind_eq_ok] at hrun
        obtain ⟨payload,-,hrun⟩ := hrun
        split_ifs at hrun with hstored
        · cases hrun
          exact prefix_append _ _
        · exact (prefix_append _ _).trans (ih hrun)

end Steps

/-- A rest does not claim a payload of an admitted size that is not there. -/
def Contained (rest : List UInt8) : Prop :=
  smsgHdrLen ≤ rest.length → version (rest.take smsgHdrLen)=1 →
    nPayload (rest.take smsgHdrLen) ≤ smsgMaxMsgWorst →
    smsgHdrLen+nPayload (rest.take smsgHdrLen) ≤ rest.length

theorem exists_message (hlong : smsgHdrLen ≤ rest.length)
    (hthere : smsgHdrLen+nPayload (rest.take smsgHdrLen) ≤ rest.length) :
    ∃ (m : Message) (back : List UInt8), rest=m.bytes++back ∧ m.header=rest.take smsgHdrLen := by
  have hpayload : ((rest.drop smsgHdrLen).take (nPayload (rest.take smsgHdrLen))).length=
      nPayload (rest.take smsgHdrLen) := by
    rw [length_take,length_drop]
    omega
  refine ⟨⟨rest.take smsgHdrLen,(rest.drop smsgHdrLen).take (nPayload (rest.take smsgHdrLen)),
    ?_,hpayload.symm⟩,rest.drop (smsgHdrLen+nPayload (rest.take smsgHdrLen)),?_,rfl⟩
  · rw [length_take,Nat.min_eq_left hlong]
  · rw [Message.bytes,append_assoc,← drop_drop,take_append_drop,take_append_drop]

section

variable (h : AtRest vchData bunch.n rest)

include h

theorem receiveLoop_fault (hfault : ¬Contained rest) :
    receiveLoop hashes now vchData (left+1) bunch=.error .outOfRange := by
  simp only [Contained,Classical.not_imp] at hfault
  obtain ⟨hlong,hver,hworst,hshort⟩ := hfault
  have hmax : smsgMaxMsgWorst=4218 := by decide
  have hhdr : smsgHdrLen=104 := rfl
  have hlen := h.length
  rw [receiveLoop_header h (h.header hlong (by omega)) hlong]
  have hread : readAt vchData (bunch.n+smsgHdrLen) (nPayload (rest.take smsgHdrLen))=
      .error .outOfRange := if_neg (by omega)
  dsimp only
  rw [hread,secureMsgValidate,if_neg (not_not_intro hver),if_neg (Nat.not_lt.mpr hworst)]
  rfl

theorem receiveLoop_unread
    (hheader : ¬(vchData.length+2^64-bunch.n)%2^64 < smsgHdrLen) (hlong : smsgHdrLen ≤ rest.length)
    (hunread : version (rest.take smsgHdrLen)≠1 ∨ smsgMaxMsgWorst<nPayload (rest.take smsgHdrLen)) :
    ∃ score offered, receiveLoop hashes now vchData (left+1) bunch=
      receiveLoop hashes now vchData left { bunch with
        offered := offered
        misbehaving := score } := by
  rw [receiveLoop_header h hheader hlong]
  dsimp only
  rw [secureMsgValidate]
  by_cases hver : version (rest.take smsgHdrLen)≠1
  · rw [if_pos hver,ok_bind,if_pos (by omega)]
    exact ⟨_,_,rfl⟩
  · rw [if_neg hver,if_pos (hunread.resolve_left hver),ok_bind,if_pos (by omega)]
    exact ⟨_,_,rfl⟩

/-- One turn of the loop: it ends, goes on without a message, or takes the next one. -/
theorem receiveLoop_turn
    (hcount : bunch.n+(left+1)*(smsgHdrLen+smsgMaxMsgWorst)<2^32) (hcontained : Contained rest) :
    ∃ next : BunchState, next.n+left*(smsgHdrLen+smsgMaxMsgWorst)<2^32 ∧
      ((next.st=bunch.st ∧ receiveLoop hashes now vchData (left+1) bunch=.ok next) ∨
        (receiveLoop hashes now vchData (left+1) bunch=receiveLoop hashes now vchData left next ∧
          ((next.n=bunch.n ∧ next.st=bunch.st) ∨
            ∃ m back, rest=Message.bytes m++back ∧
              (m.Valid hashes ∧ m.Timely now ∧ ¬m.Known bunch.st) ∧
              next.st=storeMessage hashes now bunch.st m false ∧ AtRest vchData next.n back))) := by
  rw [Nat.add_mul,Nat.one_mul] at hcount
  have hstay : bunch.n+left*(smsgHdrLen+smsgMaxMsgWorst)<2^32 := by omega
  by_cases hheader : (vchData.length+2^64-bunch.n)%2^64 < smsgHdrLen
  · exact ⟨bunch,hstay,.inl ⟨rfl,by rw [receiveLoop,if_pos hheader]⟩⟩
  · have hlen := h.length
    have hhdr : smsgHdrLen=104 := rfl
    have hlong : smsgHdrLen ≤ rest.length := by omega
    by_cases hunread : version (rest.take smsgHdrLen)≠1 ∨
        smsgMaxMsgWorst<nPayload (rest.take smsgHdrLen)
    · obtain ⟨score,offered,hrun⟩ := @receiveLoop_unread hashes now vchData rest bunch left h
        hheader hlong hunread
      refine ⟨_,?_,.inr ⟨hrun,.inl ⟨rfl,rfl⟩⟩⟩
      exact hstay
    · rw [not_or,not_not,Nat.not_lt] at hunread
      obtain ⟨m,back,he,-⟩ := exists_message hlong (hcontained hlong hunread.1 hunread.2)
      subst he
      by_cases hvalid : m.Valid hashes
      · by_cases hstore : m.Timely now ∧ ¬m.Known bunch.st
        · have hpayload := payload_of_valid hvalid
          have hn := @Nat.mod_eq_of_lt (bunch.n+smsgHdrLen+m.payload.length) (2^32) (by omega)
          refine ⟨_,?_,.inr ⟨receiveLoop_accepted h hheader hvalid hstore.1 hstore.2,
            .inr ⟨m,back,rfl,⟨hvalid,hstore⟩,rfl,?_⟩⟩⟩
          · dsimp only
            omega
          · dsimp only
            rw [hn]
            exact h.skip
        · refine ⟨_,?_,.inl ⟨?_,receiveLoop_refused h hheader hvalid hstore⟩⟩
          · exact hstay
          · rfl
      · obtain ⟨score,hrun⟩ := @receiveLoop_invalid hashes now vchData back bunch left m h hheader
          hvalid
        refine ⟨_,?_,.inr ⟨hrun,.inl ⟨rfl,rfl⟩⟩⟩
        exact hstay

theorem receiveLoop_ok (hcount : bunch.n+left*(smsgHdrLen+smsgMaxMsgWorst)<2^32)
    (hcontained : ∀ msgs back, rest=bunchOf msgs++back → msgs.length<left →
      AcceptedFrom hashes now bunch.st msgs → Contained back) :
    ∃ final, receiveLoop hashes now vchData left bunch=.ok final := by
  induction left generalizing bunch rest with
  | zero => exact ⟨bunch,rfl⟩
  | succ left ih =>
    have hfirst := hcontained [] rest rfl (Nat.succ_pos left) trivial
    obtain ⟨next,hnext,⟨-,hrun⟩ | ⟨hrun,⟨hn,hst⟩ | ⟨m,back,rfl,haccept,hst,hat⟩⟩⟩ :=
      @receiveLoop_turn hashes now vchData rest bunch left h hcount hfirst
    · exact ⟨next,hrun⟩
    · rw [hrun]
      refine ih (hn ▸ h) hnext (fun msgs back he hlt hacc => ?_)
      exact hcontained msgs back he (Nat.lt_succ_of_lt hlt) (hst ▸ hacc)
    · rw [hrun]
      refine ih hat hnext (fun msgs last hb hlt hacc => ?_)
      refine hcontained (m::msgs) last ?_ (Nat.succ_lt_succ hlt) ⟨haccept,hst ▸ hacc⟩
      rw [hb,bunchOf,bunchOf,flatMap_cons,append_assoc]

end

section Receiving

def bunchCount (vchData : List UInt8) : ℕ := littleEndian (vchData.take 4)

/-- Bucket that a bunch claims. -/
def bunchTime (vchData : List UInt8) : ℤ := toInt64 (littleEndian ((vchData.drop 4).take 8))

/-- The time of a bucket is not too old and not in the future. -/
def InWindow (now time : ℤ) : Prop := now-smsgRetention≤time ∧ time≤now+smsgTimeLeeway

instance (now time : ℤ) : Decidable (InWindow now time) := inferInstanceAs (Decidable (_ ∧ _))

/-- The messages of a bunch are looked at. -/
structure Opened (now : ℤ) (vchData : List UInt8) : Prop where
  size : 12≤vchData.length
  count : 0<bunchCount vchData ∧ bunchCount vchData≤500
  window : InWindow now (bunchTime vchData)

variable (hashes now) {st : SmsgState}

/-- Hash the bucket of a bunch after its messages were taken. -/
def closeBunch (bktTime : ℤ) (bunch : BunchState) : BunchState :=
  if bunch.st.smsgBuckets.contains bktTime then
    { bunch with st := { bunch.st with
      smsgBuckets := changeBucket bunch.st.smsgBuckets bktTime (releaseBucket hashes now) } }
  else bunch

variable {hashes now}

theorem offered_closeBunch (bktTime : ℤ) (bunch : BunchState) :
    (closeBunch hashes now bktTime bunch).offered=bunch.offered := by
  rw [closeBunch]
  split_ifs <;> rfl

theorem receive_opened (hopened : Opened now vchData) :
    secureMsgReceive hashes now st vchData=
      (receiveLoop hashes now vchData (bunchCount vchData) ⟨12,st,0,[]⟩>>=
        fun bunch => .ok (closeBunch hashes now (bunchTime vchData) bunch)) := by
  have hsize := hopened.size
  have hcount := hopened.count
  have hfuture : ¬now+smsgTimeLeeway<bunchTime vchData := Int.not_lt.mpr hopened.window.2
  have hold : ¬bunchTime vchData<now-smsgRetention := Int.not_lt.mpr hopened.window.1
  have hmany : ¬(bunchCount vchData=0 ∨ 500<bunchCount vchData) := by omega
  rw [secureMsgReceive,if_neg (Nat.not_lt.mpr hsize),readUInt32_ok (by omega),ok_bind,
    readInt64_ok (by omega),ok_bind,drop_zero]
  refine (if_neg hfuture).trans ((if_neg hold).trans ((if_neg hmany).trans ?_))
  refine congrArg (Except.bind _) (funext (fun bunch => ?_))
  unfold closeBunch bunchTime
  split_ifs <;> rfl

theorem receive_unopened (hunopened : ¬Opened now vchData) :
    ∃ bunch, secureMsgReceive hashes now st vchData=.ok bunch ∧ bunch.offered=[] := by
  rw [secureMsgReceive]
  by_cases hsize : vchData.length<12
  · rw [if_pos hsize]
    exact ⟨_,rfl,rfl⟩
  · rw [if_neg hsize,readUInt32_ok (by omega),ok_bind,readInt64_ok (by omega),ok_bind,drop_zero]
    by_cases hfuture : now+smsgTimeLeeway<bunchTime vchData
    · exact ⟨_,if_pos hfuture,rfl⟩
    · by_cases hold : bunchTime vchData<now-smsgRetention
      · exact ⟨_,(if_neg hfuture).trans (if_pos hold),rfl⟩
      · by_cases hmany : bunchCount vchData=0 ∨ 500<bunchCount vchData
        · exact ⟨_,(if_neg hfuture).trans ((if_neg hold).trans (if_pos hmany)),rfl⟩
        · refine absurd ⟨Nat.not_lt.mp hsize,?_,Int.not_lt.mp hold,Int.not_lt.mp hfuture⟩ hunopened
          omega

/-- No rest behind acceptable messages claims a payload that is not there. -/
def Readable (hashes : SmsgHashes) (now : ℤ) (st : SmsgState) (vchData : List UInt8) : Prop :=
  Opened now vchData → ∀ msgs back, vchData.drop 12=bunchOf msgs++back →
    msgs.length<bunchCount vchData → Acceptable hashes now st msgs → Contained back

theorem atRest_start (hsize : 12≤vchData.length) : AtRest vchData 12 (vchData.drop 12) :=
  ⟨hsize,rfl⟩

theorem receive_reaches {msgs : List Message} {back : List UInt8} {count : ℕ}
    (hsize : 12≤vchData.length) (hrest : vchData.drop 12=bunchOf msgs++back)
    (hsmall : (bunchOf msgs++back).length<2^64) (hcount : msgs.length+count≤500)
    (hacc : AcceptedFrom hashes now st msgs) :
    AtRest vchData (12+(bunchOf msgs).length) back ∧
      receiveLoop hashes now vchData (msgs.length+count) ⟨12,st,0,[]⟩=
        receiveLoop hashes now vchData count
          ⟨12+(bunchOf msgs).length,storeAll hashes now st msgs,0,positioned 12 msgs⟩ := by
  have hmax : smsgMaxMsgWorst=4218 := by decide
  have hhdr : smsgHdrLen=104 := rfl
  have hstart := atRest_start hsize
  rw [hrest] at hstart
  obtain ⟨hat,-,hrun⟩ := @receiveLoop_all hashes now vchData back ⟨12,st,0,[]⟩ count msgs hstart
    hsmall hacc (by rw [hmax,hhdr]; dsimp only; omega)
  exact ⟨hat,hrun⟩

theorem receive_ok_iff :
    (∃ bunch, secureMsgReceive hashes now st vchData=.ok bunch) ↔
      Readable hashes now st vchData := by
  have hmax : smsgMaxMsgWorst=4218 := by decide
  have hhdr : smsgHdrLen=104 := rfl
  by_cases hopened : Opened now vchData
  · have hcount := hopened.count
    rw [receive_opened hopened]
    constructor
    · intro h _ msgs back hrest hlt hacceptable
      by_contra hfault
      obtain ⟨bunch,hrun⟩ := h
      have hacc := acceptedFrom_iff.mpr hacceptable
      have hshort : back.length < smsgHdrLen+smsgMaxMsgWorst := by
        simp only [Contained,Classical.not_imp] at hfault
        omega
      have hmsgs := length_bunchOf_le (fun m hm => payload_of_valid (hacceptable.valid m hm))
      have hsmall : (bunchOf msgs++back).length<2^64 := by
        rw [hmax,hhdr] at hmsgs
        rw [length_append]
        omega
      obtain ⟨hat,hreach⟩ := @receive_reaches hashes now vchData st msgs back
        (bunchCount vchData-msgs.length) hopened.size hrest hsmall (by omega) hacc
      rw [Nat.add_sub_of_le (Nat.le_of_lt hlt)] at hreach
      obtain ⟨left,hleft⟩ := Nat.exists_eq_add_of_lt (Nat.sub_pos_of_lt hlt)
      rw [hreach,hleft,Nat.zero_add,receiveLoop_fault hat hfault] at hrun
      cases hrun
    · intro hreadable
      obtain ⟨final,hrun⟩ := @receiveLoop_ok hashes now vchData (vchData.drop 12) ⟨12,st,0,[]⟩
        (bunchCount vchData) (atRest_start hopened.size) (by rw [hmax,hhdr]; dsimp only; omega)
        (fun msgs back hrest hlt hacc =>
          hreadable hopened msgs back hrest hlt (acceptedFrom_iff.mp hacc))
      rw [hrun,ok_bind]
      exact ⟨_,rfl⟩
  · obtain ⟨bunch,hrun,-⟩ := @receive_unopened hashes now vchData st hopened
    exact iff_of_true ⟨bunch,hrun⟩ (fun h => absurd h hopened)

end Receiving

section Decoding

/-- A bunch of messages is taken, and each message is offered once, in order. -/
def DecodedExactly (hashes : SmsgHashes) (now : ℤ) (st : SmsgState) (time : ℤ)
    (msgs : List Message) : Prop :=
  ∃ bunch, secureMsgReceive hashes now st (bunchBytes msgs.length time (bunchOf msgs))=.ok bunch ∧
    bunch.offered=positioned 12 msgs

variable {st : SmsgState} {time : ℤ} {msgs : List Message}

theorem length_bunchBytes (count : ℕ) (vchBunch : List UInt8) :
    (bunchBytes count time vchBunch).length=12+vchBunch.length := by
  rw [bunchBytes,length_append,length_append,length_leBytes,length_leBytes]
  omega

theorem drop_bunchBytes (count : ℕ) (vchBunch : List UInt8) :
    (bunchBytes count time vchBunch).drop 12=vchBunch := by
  have hlen : (leBytes 4 count++leBytes 8 (ofInt64 time)).length=12 := by
    rw [length_append,length_leBytes,length_leBytes]
  rw [bunchBytes,← append_assoc,← hlen,drop_left]

theorem bunchCount_bunchBytes {count : ℕ} (hcount : count<2^32) (vchBunch : List UInt8) :
    bunchCount (bunchBytes count time vchBunch)=count := by
  have hlen : (leBytes 4 count).length=4 := length_leBytes 4 count
  have htake : (bunchBytes count time vchBunch).take 4=leBytes 4 count := take_left' hlen
  rw [bunchCount,htake,littleEndian_leBytes 4 hcount]

theorem bunchTime_bunchBytes (hfits : FitsInt64 time) (count : ℕ) (vchBunch : List UInt8) :
    bunchTime (bunchBytes count time vchBunch)=time := by
  have hlen : (leBytes 4 count).length=4 := length_leBytes 4 count
  have hlong : (leBytes 8 (ofInt64 time)).length=8 := length_leBytes 8 _
  have hdrop : (bunchBytes count time vchBunch).drop 4=leBytes 8 (ofInt64 time)++vchBunch :=
    drop_left' hlen
  have htake : (leBytes 8 (ofInt64 time)++vchBunch).take 8=leBytes 8 (ofInt64 time) :=
    take_left' hlong
  rw [bunchTime,hdrop,htake,toInt64_ofInt64 hfits]

theorem opened_bunchBytes (hfits : FitsInt64 time) (hsome : msgs≠[]) (hfew : msgs.length≤500) :
    Opened now (bunchBytes msgs.length time (bunchOf msgs)) ↔ InWindow now time := by
  have hpos := length_pos_iff.mpr hsome
  constructor
  · intro hopened
    have hwindow := hopened.window
    rwa [bunchTime_bunchBytes hfits] at hwindow
  · intro hwindow
    refine ⟨?_,?_,?_⟩
    · rw [length_bunchBytes]
      omega
    · rw [bunchCount_bunchBytes (by omega)]
      exact ⟨hpos,hfew⟩
    · rwa [bunchTime_bunchBytes hfits]

theorem bunch_small (hfew : msgs.length≤500) : (bunchOf msgs).length<2^64 := by
  have hhdr : smsgHdrLen=104 := rfl
  have hle := @length_bunchOf_le (2^32) msgs (fun m _ => Nat.le_of_lt m.payload_lt)
  have hmul := Nat.mul_le_mul_right (smsgHdrLen+2^32) hfew
  omega

/-- The loop at a message with others behind it that are offered at their own place
has accepted it. -/
theorem accepted_of_offered {front back : List Message} {m other : Message} {score : ℕ}
    (hat : AtRest vchData bunch.n (bunchOf (m::other::back)))
    (hsmall : (bunchOf (m::other::back)).length<2^64)
    (hbunch : bunch.offered=positioned 12 front) (hn : bunch.n=12+(bunchOf front).length)
    (hrun : receiveLoop hashes now vchData (score+2) bunch=.ok final)
    (hoffered : final.offered=positioned 12 (front++m::other::back)) :
    m.Valid hashes ∧ m.Timely now ∧ ¬m.Known bunch.st := by
  have hhdr : smsgHdrLen=104 := rfl
  have he : bunchOf (m::other::back)=m.bytes++bunchOf (other::back) := flatMap_cons
  rw [he] at hat hsmall
  have hlong : smsgHdrLen≤(m.bytes++bunchOf (other::back)).length := by
    rw [length_append,m.length_bytes]
    omega
  have hheader := hat.header hlong hsmall
  rw [positioned_append,positioned,positioned,← hn] at hoffered
  by_cases hvalid : m.Valid hashes
  · by_cases hstore : m.Timely now ∧ ¬m.Known bunch.st
    · exact ⟨hvalid,hstore⟩
    · rw [receiveLoop_refused hat hheader hvalid hstore] at hrun
      cases hrun
      have hlen := congrArg length hoffered
      grind
  · obtain ⟨first,hfirst⟩ := @receiveLoop_invalid hashes now vchData _ bunch (score+1) m hat
      hheader hvalid
    rw [hfirst] at hrun
    obtain ⟨second,hsecond⟩ := @receiveLoop_invalid hashes now vchData (bunchOf (other::back))
      { bunch with offered := bunch.offered++[(bunch.n,m.bytes)], misbehaving := first } score m hat
      hheader hvalid
    rw [hsecond] at hrun
    have hprefix := offered_prefix hrun
    rw [hoffered,hbunch,append_assoc,prefix_append_right_inj] at hprefix
    have hsame := (cons_prefix_cons.mp (cons_prefix_cons.mp hprefix).2).1
    have hplace := congrArg Prod.fst hsame
    dsimp only at hplace
    rw [m.length_bytes] at hplace
    omega

theorem offered_last {last : Message} (hat : AtRest vchData bunch.n (bunchOf [last])) :
    ∃ final, receiveLoop hashes now vchData 1 bunch=.ok final ∧
      final.offered=bunch.offered++[(bunch.n,last.bytes)] := by
  have he : bunchOf [last]=last.bytes++[] := by rw [bunchOf,flatMap_singleton,append_nil]
  have hsmall := @bunch_small [last] (by rw [length_singleton]; omega)
  rw [he] at hat hsmall
  have hheader := hat.header (by rw [append_nil,last.length_bytes]; omega) hsmall
  by_cases hvalid : last.Valid hashes
  · by_cases hstore : last.Timely now ∧ ¬last.Known bunch.st
    · rw [receiveLoop_accepted hat hheader hvalid hstore.1 hstore.2]
      exact ⟨_,rfl,rfl⟩
    · rw [receiveLoop_refused hat hheader hvalid hstore]
      exact ⟨_,rfl,rfl⟩
  · obtain ⟨score,hrun⟩ :=
      @receiveLoop_invalid hashes now vchData [] bunch 0 last hat hheader hvalid
    rw [hrun]
    exact ⟨_,rfl,rfl⟩

/-- A bunch is taken exactly if its bucket is one of now and all of its messages but
the last are acceptable. -/
theorem decodedExactly_iff (hfits : FitsInt64 time) (hsome : msgs≠[]) (hfew : msgs.length≤500) :
    DecodedExactly hashes now st time msgs ↔
      InWindow now time ∧ Acceptable hashes now st msgs.dropLast := by
  have hopen := @opened_bunchBytes now time msgs hfits hsome hfew
  have hdrop : (bunchBytes msgs.length time (bunchOf msgs)).drop 12=bunchOf msgs :=
    drop_bunchBytes _ _
  have hcount : bunchCount (bunchBytes msgs.length time (bunchOf msgs))=msgs.length :=
    bunchCount_bunchBytes (by omega) _
  by_cases hwindow : InWindow now time
  · have hopened := hopen.mpr hwindow
    rw [DecodedExactly,receive_opened hopened,hcount,← acceptedFrom_iff]
    generalize bunchBytes msgs.length time (bunchOf msgs)=vchData at *
    constructor
    · intro h
      obtain ⟨bunch,hrun,hoffered⟩ := h
      rw [bind_eq_ok] at hrun
      obtain ⟨final,hrun,hclose⟩ := hrun
      cases hclose
      rw [offered_closeBunch] at hoffered
      refine ⟨hwindow,?_⟩
      by_contra hbad
      obtain ⟨front,m,back,he,hfront,hrefused⟩ := exists_refused hbad
      obtain ⟨other,behind,hback⟩ : ∃ other behind, msgs=front++m::other::behind := by
        have hmsgs := (dropLast_append_getLast hsome).symm
        rw [he,append_assoc,cons_append] at hmsgs
        cases hsplit : back++[msgs.getLast hsome] with
        | nil => exact absurd hsplit (append_ne_nil_of_right_ne_nil _ (cons_ne_nil _ _))
        | cons other behind => exact ⟨other,behind,by rw [← hsplit]; exact hmsgs⟩
      have hbytes : bunchOf msgs=bunchOf front++bunchOf (m::other::behind) := by
        rw [hback,bunchOf,flatMap_append]
        rfl
      have hlen : msgs.length=front.length+(behind.length+2) := by
        rw [hback,length_append,length_cons,length_cons]
      have hsmall := bunch_small hfew
      obtain ⟨hat,hreach⟩ := @receive_reaches hashes now vchData st front
        (bunchOf (m::other::behind)) (behind.length+2) hopened.size (hdrop.trans hbytes)
        (by rw [← hbytes]; exact hsmall) (by omega) hfront
      rw [hlen,hreach] at hrun
      refine hrefused (accepted_of_offered hat ?_ rfl rfl hrun (by rw [hoffered,hback]))
      rw [hbytes,length_append] at hsmall
      omega
    · intro h
      obtain ⟨-,hacc⟩ := h
      have hmsgs := (dropLast_append_getLast hsome).symm
      have hbytes : bunchOf msgs=bunchOf msgs.dropLast++bunchOf [msgs.getLast hsome] := by
        rw [bunchOf,bunchOf,bunchOf,← flatMap_append,← hmsgs]
      have hlen : msgs.length=msgs.dropLast.length+1 := by
        have hpos := length_pos_iff.mpr hsome
        rw [length_dropLast]
        omega
      have hsmall := bunch_small hfew
      obtain ⟨hat,hreach⟩ := @receive_reaches hashes now vchData st msgs.dropLast
        (bunchOf [msgs.getLast hsome]) 1 hopened.size (hdrop.trans hbytes)
        (by rw [← hbytes]; exact hsmall) (by omega) hacc
      obtain ⟨final,hrun,hoffered⟩ := @offered_last hashes now vchData
        ⟨12+(bunchOf msgs.dropLast).length,storeAll hashes now st msgs.dropLast,0,
          positioned 12 msgs.dropLast⟩ (msgs.getLast hsome) hat
      rw [hlen,hreach,hrun,ok_bind]
      refine ⟨_,rfl,?_⟩
      rw [offered_closeBunch,hoffered]
      conv_rhs => rw [hmsgs,positioned_append]
      rfl
  · refine iff_of_false ?_ (fun h => hwindow h.1)
    intro h
    obtain ⟨bunch,hrun,hoffered⟩ := h
    obtain ⟨other,hother,hnone⟩ := @receive_unopened hashes now _ st (mt hopen.mp hwindow)
    rw [hother] at hrun
    cases hrun
    rw [hnone] at hoffered
    have hlen := congrArg length hoffered
    rw [length_positioned,length_nil] at hlen
    exact hsome (eq_nil_of_length_eq_zero hlen.symm)

end Decoding

section Wanting

/-- Messages that a peer may ask for, with the tokens under which they are stored. -/
structure WantedMessages (sender : SmsgState) where
  time : ℤ
  wanted : List (SecMsgToken×Message)
  time_fits : FitsInt64 time
  some_wanted : wanted≠[]
  few : wanted.length≤500
  token_fits : ∀ w∈wanted, FitsInt64 w.1.timestamp
  token_sample : ∀ w∈wanted, w.1.sample.length=8
  bucket : SecMsgBucket
  found : sender.smsgBuckets.find time=some bucket
  stored : ∀ w∈wanted, ∃ token, bucket.setTokens.find w.1.key=some token ∧
    secureMsgRetrieve sender.files { w.1 with offset := token.offset }=some w.2.bytes

open WantedMessages

variable {sender : SmsgState}

namespace WantedMessages

variable (wanted : WantedMessages sender)

def messages : List Message := wanted.wanted.map Prod.snd

/-- Bytes of the tokens that are wanted. -/
def tokens (wanted : List (SecMsgToken×Message)) : List UInt8 :=
  wanted.flatMap (fun w => tokenBytes w.1)

/-- Bytes that ask for the messages. -/
def request : List UInt8 :=
  leBytes 8 (ofInt64 wanted.time)++tokens wanted.wanted

end WantedMessages

/-- The first of the wanted messages, until there are enough bytes. -/
structure Bunched (wanted : List Message) (size : ℕ) (msgs : List Message) : Prop where
  first : msgs<+:wanted
  some_sent : wanted≠[] → msgs≠[]
  enough : msgs=wanted ∨ 96000 ≤ size+(bunchOf msgs).length

variable {token : SecMsgToken}

theorem length_tokenBytes (hsample : token.sample.length=8) : (tokenBytes token).length=16 := by
  rw [tokenBytes,length_append,length_leBytes,hsample]

theorem readToken_tokenBytes {p : ℕ} (hat : AtRest vchData p (tokenBytes token++rest))
    (hfits : FitsInt64 token.timestamp) (hsample : token.sample.length=8) :
    readToken vchData p=.ok { token with offset := 0 } := by
  have htoken := length_tokenBytes hsample
  have hlen : vchData.length-p=(tokenBytes token++rest).length := by
    rw [← hat.here,length_drop]
  rw [length_append,htoken] at hlen
  have htime : (leBytes 8 (ofInt64 token.timestamp)).length=8 := length_leBytes 8 _
  have hfirst : (vchData.drop p).take 8=leBytes 8 (ofInt64 token.timestamp) := by
    rw [hat.here,tokenBytes,append_assoc]
    exact take_left' htime
  have hsecond : (vchData.drop (p+8)).take 8=token.sample := by
    rw [← drop_drop,hat.here,tokenBytes,append_assoc,drop_left' htime]
    exact take_left' hsample
  rw [readToken,readInt64_ok (by omega),ok_bind,readAt_ok (by omega),ok_bind,hfirst,hsecond,
    toInt64_ofInt64 hfits]

theorem AtRest.skipToken {p : ℕ} (hat : AtRest vchData p (tokenBytes token++rest))
    (hsample : token.sample.length=8) : AtRest vchData (p+16) rest := by
  have htoken := length_tokenBytes hsample
  have hlen : vchData.length-p=(tokenBytes token++rest).length := by
    rw [← hat.here,length_drop]
  rw [length_append,htoken] at hlen
  have hin := hat.inside
  refine ⟨by omega,?_⟩
  rw [← drop_drop,hat.here]
  exact drop_left' htoken

theorem wantLoop_bunched {setTokens : TokenSet} {files : OrderedMap ℤ (List UInt8)}
    {wanted : List (SecMsgToken×Message)} {p : ℕ} {want : WantState}
    (hat : AtRest vchData p (tokens wanted))
    (hfits : ∀ w∈wanted, FitsInt64 w.1.timestamp) (hsample : ∀ w∈wanted, w.1.sample.length=8)
    (hstored : ∀ w∈wanted, ∃ token, setTokens.find w.1.key=some token ∧
      secureMsgRetrieve files { w.1 with offset := token.offset }=some w.2.bytes)
    (hfew : want.nBunch+wanted.length≤500) :
    ∃ msgs final, wantLoop setTokens files vchData wanted.length p want=.ok final ∧
      Bunched (wanted.map Prod.snd) (12+want.vchBunch.length) msgs ∧
      final.nBunch=want.nBunch+msgs.length ∧ final.vchBunch=want.vchBunch++bunchOf msgs := by
  induction wanted generalizing p want with
  | nil =>
    refine ⟨[],want,rfl,⟨prefix_rfl,fun h => absurd rfl h,Or.inl rfl⟩,rfl,?_⟩
    exact (append_nil _).symm
  | cons w wanted ih =>
    obtain ⟨hfit,hfits⟩ := forall_mem_cons.mp hfits
    obtain ⟨hlen,hsample⟩ := forall_mem_cons.mp hsample
    obtain ⟨⟨token,hfind,hretrieve⟩,hstored⟩ := forall_mem_cons.mp hstored
    have he : tokens (w::wanted)=tokenBytes w.1++tokens wanted :=
      flatMap_cons
    rw [he] at hat
    rw [length_cons] at hfew
    have hkey : ({ w.1 with offset := 0 } : SecMsgToken).key=w.1.key := rfl
    rw [length_cons,wantLoop,readToken_tokenBytes hat hfit hlen,ok_bind]
    rw [hkey,hfind]
    dsimp only
    rw [hretrieve]
    dsimp only
    rw [map_cons]
    split_ifs with hfull
    · refine ⟨[w.2],_,rfl,⟨?_,?_,?_⟩,rfl,?_⟩
      · exact cons_prefix_cons.mpr ⟨rfl, nil_prefix⟩
      · exact fun _ => cons_ne_nil _ _
      · rcases hfull with hmany | hsize
        · have hnil : wanted=[] := eq_nil_of_length_eq_zero (by omega)
          rw [hnil]
          exact Or.inl rfl
        · rw [length_append] at hsize
          refine Or.inr ?_
          rw [bunchOf,flatMap_singleton]
          omega
      · rw [bunchOf,flatMap_singleton]
    · obtain ⟨msgs,final,hrun,hbunched,hcount,hbytes⟩ := @ih (p+16)
        { want with
          nBunch := want.nBunch+1
          vchBunch := want.vchBunch++w.2.bytes
          passes := want.passes+1 }
        (hat.skipToken hlen) hfits hsample hstored (by dsimp only; omega)
      have hcons : bunchOf (w.2::msgs)=w.2.bytes++bunchOf msgs := flatMap_cons
      dsimp only at hbunched hcount hbytes
      refine ⟨w.2::msgs,final,hrun,⟨?_,?_,?_⟩,?_,?_⟩
      · exact cons_prefix_cons.mpr ⟨rfl,hbunched.first⟩
      · exact fun _ => cons_ne_nil _ _
      · rcases hbunched.enough with hall | hsize
        · exact Or.inl (by rw [hall])
        · grind
      · rw [hcount,length_cons]
        omega
      · rw [hbytes,hcons,append_assoc]

theorem length_tokens {wanted : List (SecMsgToken×Message)}
    (hsample : ∀ w∈wanted, w.1.sample.length=8) :
    (tokens wanted).length=16*wanted.length := by
  induction wanted with
  | nil => rfl
  | cons w wanted ih =>
    obtain ⟨hw,hrest⟩ := forall_mem_cons.mp hsample
    have he : tokens (w::wanted)=tokenBytes w.1++tokens wanted :=
      flatMap_cons
    rw [he,length_append,length_tokenBytes hw,ih hrest,length_cons]
    omega

theorem want_sent (wanted : WantedMessages sender) (peer : PeerData) :
    ∃ msgs outcome, Bunched wanted.messages 12 msgs ∧
      secureMsgReceiveData hashes now sender peer .smsgWant wanted.request=.ok outcome ∧
      outcome.sent=[(.smsgMsg,bunchBytes msgs.length wanted.time (bunchOf msgs))] := by
  have htokens := length_tokens wanted.token_sample
  have hfew := wanted.few
  have htime : (leBytes 8 (ofInt64 wanted.time)).length=8 := length_leBytes 8 _
  have hlen : wanted.request.length=8+16*wanted.wanted.length := by
    rw [request,length_append,htime,htokens]
  have hat : AtRest wanted.request 8 (tokens wanted.wanted) :=
    ⟨by omega,drop_left' htime⟩
  have hcount : loopCount ((wanted.request.length-8)/16)=wanted.wanted.length := by
    have hdiv : (wanted.request.length-8)/16=wanted.wanted.length := by omega
    rw [hdiv,loopCount,Nat.mod_eq_of_lt (by omega),if_pos (by omega)]
  have hread : toInt64 (littleEndian ((wanted.request.drop 0).take 8))=wanted.time := by
    have htake : (wanted.request.drop 0).take 8=leBytes 8 (ofInt64 wanted.time) :=
      take_left' htime
    rw [htake,toInt64_ofInt64 wanted.time_fits]
  obtain ⟨msgs,final,hrun,hbunched,hmsgs,hbytes⟩ := @wantLoop_bunched wanted.request
    wanted.bucket.setTokens sender.files wanted.wanted 8 {} hat wanted.token_fits
    wanted.token_sample wanted.stored (by dsimp only; omega)
  have hsome : msgs≠[] := hbunched.some_sent (fun h => wanted.some_wanted (map_eq_nil_iff.mp h))
  have hpos := length_pos_iff.mpr hsome
  rw [Nat.zero_add] at hmsgs
  rw [nil_append] at hbytes
  refine ⟨msgs,{ st := sender, peer := peer, sent := _, passes := final.passes },hbunched,?_,rfl⟩
  rw [secureMsgReceiveData,receiveWant,if_neg (by omega),readInt64_ok (by omega)]
  rw [ok_bind,hread,hcount,wanted.found]
  dsimp only
  rw [hrun,ok_bind,hmsgs,hbytes,if_pos hpos]

end Wanting

/-- A bunch of wanted messages is taken exactly if its bucket is one of now and all messages but the
last are acceptable, and is read inside of its bytes exactly if no rest behind these claims too
much. -/
theorem bunches_exact_iff (hashes : SmsgHashes) (sentAt now : ℤ) (receiver : SmsgState) :
    (∀ (sender : SmsgState) (wanted : WantedMessages sender) (peer : PeerData),
      ∃ msgs outcome, Bunched wanted.messages 12 msgs ∧
        secureMsgReceiveData hashes sentAt sender peer .smsgWant wanted.request=.ok outcome ∧
        outcome.sent=[(.smsgMsg,bunchBytes msgs.length wanted.time (bunchOf msgs))] ∧
        (DecodedExactly hashes now receiver wanted.time msgs ↔
          InWindow now wanted.time ∧ Acceptable hashes now receiver msgs.dropLast)) ∧
    ∀ vchData, (∃ bunch, secureMsgReceive hashes now receiver vchData=.ok bunch) ↔
      Readable hashes now receiver vchData := by
  refine ⟨?_,fun vchData => receive_ok_iff⟩
  intro sender wanted peer
  obtain ⟨msgs,outcome,hbunched,hrun,hsent⟩ := @want_sent hashes sentAt sender wanted peer
  have hsome : msgs≠[] := hbunched.some_sent (fun h => wanted.some_wanted (map_eq_nil_iff.mp h))
  have hfew : msgs.length≤500 := by
    have hle := hbunched.first.length_le
    have hwanted := wanted.few
    rw [WantedMessages.messages,length_map] at hle
    omega
  exact ⟨msgs,outcome,hbunched,hrun,hsent,decodedExactly_iff wanted.time_fits hsome hfew⟩

/-- A message of version 0 with a payload of eight equal bytes. -/
def oldMessage (byte : UInt8) : Message :=
  ⟨replicate 100 0++[8,0,0,0],replicate 8 byte,by decide,by
    rw [length_replicate]
    decide⟩

/-- Hash functions without a result. -/
def emptyHashes : SmsgHashes := ⟨fun _ _ => [],fun _ => 0⟩

/-- A store with two messages of version 0. -/
def oldSender : SmsgState :=
  storeMessage emptyHashes 0 (storeMessage emptyHashes 0 {} (oldMessage 1) false)
    (oldMessage 2) false

set_option maxRecDepth 100000 in
/-- The messages of version 0 are wanted. -/
def oldWanted : WantedMessages oldSender where
  time := 0
  wanted := [((oldMessage 1).token 0,oldMessage 1),((oldMessage 2).token 0,oldMessage 2)]
  time_fits := by decide
  some_wanted := cons_ne_nil _ _
  few := by decide
  token_fits := by decide
  token_sample := by decide
  bucket := bucketAt oldSender.smsgBuckets 0
  found := rfl
  stored := by
    intro w hw
    rw [mem_cons,mem_singleton] at hw
    rcases hw with rfl | rfl
    · exact ⟨(oldMessage 1).token 0,rfl,by decide⟩
    · exact ⟨(oldMessage 2).token 112,rfl,by decide⟩

/-- Messages of version 0 come as the first one twice, and a header alone is read behind its end. -/
theorem oldMessages_notDecoded :
    ¬DecodedExactly emptyHashes 0 {} oldWanted.time oldWanted.messages ∧
      ¬∃ bunch, secureMsgReceive emptyHashes 0 {}
        (bunchBytes 1 0 (replicate 4 0++(1::replicate 95 0++[8,0,0,0])))=.ok bunch := by
  constructor
  · intro hdecoded
    have hacceptable := (decodedExactly_iff oldWanted.time_fits (by decide) (by decide)).mp hdecoded
    have hvalid := hacceptable.2.valid (oldMessage 1) (mem_singleton.mpr rfl)
    exact absurd hvalid (by decide)
  · intro hok
    have hreadable := receive_ok_iff.mp hok
    have hcontained := hreadable ⟨by decide,by decide,by decide⟩ [] _ rfl (by decide)
      (acceptedFrom_iff.mp trivial) (by decide) (by decide) (by decide)
    exact absurd hcontained (by decide)

end Pyrk.SmsgBunches
