import Pyrk.SmsgRecords

/-!
# Sending secure messages

A message is queued, and a copy for the sender is kept. Keys are a prefix, the seconds, and eight
bytes copied from where the address of the payload is.
-/

namespace Pyrk.SmsgSend

open UndoData SecureMessage

structure Encrypted where
  header : List UInt8
  timestamp : ℤ
  pPayload : ℕ
  payload : List UInt8

/-- A message of the database. -/
structure SecMsgStored where
  timeReceived : ℤ
  sAddrTo : String
  sAddrOutbox : String := ""
  vchMessage : List UInt8
  deriving DecidableEq

/-- Messages by key. -/
abbrev SecMsgDB := List UInt8 → Option SecMsgStored

/-- A call, with what the wallet, the encryption, the clock, the memory and the database do. -/
structure SendCall where
  isLocked : Bool
  addressTo : String
  message : List UInt8
  encrypt : Except ℕ Encrypted
  getTime : ℤ
  allocates : Bool
  writes : Bool
  /-- First address of the wallet, for which the copy is encrypted. -/
  addressOutbox : Option String
  encryptOutbox : Except ℕ Encrypted
  getTimeOutbox : ℤ
  allocatesOutbox : Bool
  writesOutbox : Bool

def chKey (sPrefix : List UInt8) (smsg : Encrypted) : List UInt8 :=
  sPrefix++(leBytes 8 (ofInt64 smsg.timestamp)++leBytes 8 smsg.pPayload)

/-- Prefix of the send queue, "qm". -/
def queued : List UInt8 := [113,109]

/-- Prefix of the outbox, "sm". -/
def sent : List UInt8 := [115,109]

/-- Write a message if the database takes it. -/
def writeSmesg (db : SecMsgDB) (writes : Bool) (key : List UInt8) (smsgStored : SecMsgStored) :
    SecMsgDB :=
  if writes then Function.update db key (some smsgStored) else db

/-- Message as it is queued. -/
def smsgSQ (call : SendCall) (smsg : Encrypted) : SecMsgStored where
  timeReceived := call.getTime
  sAddrTo := call.addressTo
  vchMessage := smsg.header++smsg.payload

/-- Copy that is kept. -/
def smsgOutbox (call : SendCall) (addressOutbox : String) (smsg : Encrypted) : SecMsgStored where
  timeReceived := call.getTimeOutbox
  sAddrTo := call.addressTo
  sAddrOutbox := addressOutbox
  vchMessage := smsg.header++smsg.payload

/-- Send a message; zero is success. -/
def secureMsgSend (db : SecMsgDB) (call : SendCall) : ℕ×SecMsgDB :=
  if call.isLocked then (1,db)
  else if smsgMaxMsgBytes < call.message.length then (1,db)
  else match call.encrypt with
    | .error rv => (rv,db)
    | .ok smsg =>
      if !call.allocates then (8,db)
      else
        let db := writeSmesg db call.writes (chKey queued smsg) (smsgSQ call smsg)
        match call.addressOutbox,call.encryptOutbox with
        | some addressOutbox,.ok smsgForOutbox =>
          if !call.allocatesOutbox then (8,db)
          else (0,writeSmesg db call.writesOutbox (chKey sent smsgForOutbox)
            (smsgOutbox call addressOutbox smsgForOutbox))
        | _,_ => (0,db)

/-- No message of the database is replaced, and the message and its copy are new in it. -/
def AddsOwn (db : SecMsgDB) (call : SendCall) (next : SecMsgDB) : Prop :=
  (∀ key, db key≠none → next key=db key) ∧
  (∃ smsg rest, call.encrypt=.ok smsg ∧ db (queued++rest)=none ∧
    next (queued++rest)=some (smsgSQ call smsg)) ∧
  ∃ addressOutbox smsg rest, call.addressOutbox=some addressOutbox ∧ call.encryptOutbox=.ok smsg ∧
    db (sent++rest)=none ∧ next (sent++rest)=some (smsgOutbox call addressOutbox smsg)

/-- There is a copy, both are written, and no message of the same second has the same address. -/
def Apart (db : SecMsgDB) (call : SendCall) : Prop :=
  (∃ smsg, call.encrypt=.ok smsg ∧ call.writes ∧ db (chKey queued smsg)=none) ∧
  ∃ addressOutbox smsg, call.addressOutbox=some addressOutbox ∧ call.encryptOutbox=.ok smsg ∧
    call.writesOutbox ∧ db (chKey sent smsg)=none

/-- Something holds of every call of a run, in the database before it. -/
def EachCall (holds : SecMsgDB → SendCall → Prop) : SecMsgDB → List SendCall → Prop
  | _,[] => True
  | db,call::calls => holds db call ∧ EachCall holds (secureMsgSend db call).2 calls

variable {db : SecMsgDB} {call : SendCall}

theorem queued_ne_sent (first second : List UInt8) : queued++first≠sent++second := by
  simp [queued,sent]

theorem writeSmesg_of_ne {writes : Bool} {key other : List UInt8} (smsgStored : SecMsgStored)
    (hne : other≠key) : writeSmesg db writes key smsgStored other=db other := by
  unfold writeSmesg
  split_ifs
  · exact Function.update_of_ne hne _ _
  · rfl

theorem writeSmesg_self {writes : Bool} {key : List UInt8} {smsgStored found : SecMsgStored}
    (hnone : db key=none) : writeSmesg db writes key smsgStored key=some found ↔
      writes=true ∧ smsgStored=found := by
  unfold writeSmesg
  split_ifs with hwrites
  · simp [hwrites]
  · simp [hwrites,hnone]

theorem exists_new_iff {writes : Bool} {sPrefix : List UInt8} {smsg : Encrypted}
    {smsgStored : SecMsgStored} {next : SecMsgDB}
    (hnext : ∀ rest, db (sPrefix++rest)=none → next (sPrefix++rest)=
      writeSmesg db writes (chKey sPrefix smsg) smsgStored (sPrefix++rest)) :
    (∃ rest, db (sPrefix++rest)=none ∧ next (sPrefix++rest)=some smsgStored) ↔
      writes=true ∧ db (chKey sPrefix smsg)=none := by
  constructor
  · rintro ⟨rest,hnone,hnew⟩
    rw [hnext rest hnone] at hnew
    by_cases hkey : sPrefix++rest=chKey sPrefix smsg
    · rw [hkey] at hnew hnone
      exact ⟨((writeSmesg_self hnone).mp hnew).1,hnone⟩
    · rw [writeSmesg_of_ne _ hkey,hnone] at hnew
      cases hnew
  · rintro ⟨hwrites,hnone⟩
    refine ⟨_,hnone,?_⟩
    rw [hnext _ hnone]
    exact (writeSmesg_self hnone).mpr ⟨hwrites,rfl⟩

theorem secureMsgSend_copied (hsuccess : (secureMsgSend db call).1=0) {smsg copy : Encrypted}
    {addressOutbox : String} (hencrypt : call.encrypt=.ok smsg)
    (haddress : call.addressOutbox=some addressOutbox) (hcopy : call.encryptOutbox=.ok copy) :
    (secureMsgSend db call).2=writeSmesg
      (writeSmesg db call.writes (chKey queued smsg) (smsgSQ call smsg)) call.writesOutbox
      (chKey sent copy) (smsgOutbox call addressOutbox copy) := by
  unfold secureMsgSend at hsuccess ⊢
  simp only [hencrypt,haddress,hcopy] at hsuccess ⊢
  split_ifs at hsuccess ⊢
  rfl

/-- A call that succeeds adds messages of its own exactly if they are apart. -/
theorem addsOwn_iff_apart (hsuccess : (secureMsgSend db call).1=0) :
    AddsOwn db call (secureMsgSend db call).2 ↔ Apart db call := by
  cases hencrypt : call.encrypt with
  | error rv => simp [AddsOwn,Apart,hencrypt]
  | ok smsg =>
    cases haddress : call.addressOutbox with
    | none => simp [AddsOwn,Apart,haddress]
    | some addressOutbox =>
      cases hcopy : call.encryptOutbox with
      | error rv => simp [AddsOwn,Apart,hcopy]
      | ok copy =>
        rw [secureMsgSend_copied hsuccess hencrypt haddress hcopy]
        generalize hfirst : writeSmesg db call.writes (chKey queued smsg) (smsgSQ call smsg)=first
        generalize hnext : writeSmesg first call.writesOutbox (chKey sent copy)
          (smsgOutbox call addressOutbox copy)=next
        have hqueued : ∀ rest, next (queued++rest)=first (queued++rest) := fun rest => by
          rw [← hnext,writeSmesg_of_ne _ (show queued++rest≠chKey sent copy
            from queued_ne_sent _ _)]
        have hsent : ∀ rest, first (sent++rest)=db (sent++rest) := fun rest => by
          rw [← hfirst,
            writeSmesg_of_ne _ (show sent++rest≠chKey queued smsg from (queued_ne_sent _ _).symm)]
        have hqueue := @exists_new_iff db call.writes queued smsg (smsgSQ call smsg) next
          (fun rest _ => by rw [hqueued,hfirst])
        have hcopied := @exists_new_iff first call.writesOutbox sent copy
          (smsgOutbox call addressOutbox copy) next (fun rest _ => by rw [hnext])
        simp only [hsent] at hcopied
        have hkept : db (chKey queued smsg)=none → db (chKey sent copy)=none →
            ∀ key, db key≠none → next key=db key := by
          intro hfree hfreeSent key hkey
          rw [← hnext,writeSmesg_of_ne _ (show key≠chKey sent copy
            by rintro rfl; exact hkey hfreeSent),
            ← hfirst,writeSmesg_of_ne _ (show key≠chKey queued smsg
              by rintro rfl; exact hkey hfree)]
        unfold AddsOwn Apart
        simp only [hencrypt,haddress,hcopy,Except.ok.injEq,Option.some.injEq,exists_and_left,
          exists_eq_left']
        rw [hqueue,hcopied,show first (chKey sent copy)=db (chKey sent copy) from hsent _]
        exact ⟨fun h => h.2,fun h => ⟨hkept h.1.2 h.2.2,h⟩⟩

/-- Calls replace no message exactly if each has a copy, is written, and meets no message of its
second at the same address. -/
theorem sends_addOwn_iff (calls : List SendCall) (db : SecMsgDB)
    (hsuccess : EachCall (fun db call => (secureMsgSend db call).1=0) db calls) :
    EachCall (fun db call => AddsOwn db call (secureMsgSend db call).2) db calls ↔
      EachCall Apart db calls := by
  induction calls generalizing db with
  | nil => exact Iff.rfl
  | cons call calls ih =>
    exact and_congr (addsOwn_iff_apart hsuccess.1) (ih _ hsuccess.2)

/-- A call with a payload at an address, its copy at another one, of a fixed second. -/
def sampleCall (pPayload : ℕ) (payload : List UInt8) : SendCall where
  isLocked := false
  addressTo := "to"
  message := [104,105]
  encrypt := .ok ⟨[],1600000000,pPayload,payload⟩
  getTime := 1600000000
  allocates := true
  writes := true
  addressOutbox := some "from"
  encryptOutbox := .ok ⟨[],1600000000,pPayload+1024,payload⟩
  getTimeOutbox := 1600000000
  allocatesOutbox := true
  writesOutbox := true

/-- Two messages of a second at their own addresses are kept. -/
theorem sends_addOwn_two : EachCall (fun db call => AddsOwn db call (secureMsgSend db call).2)
    (fun _ => none) [sampleCall 4096 [1],sampleCall 8192 [2]] := by
  refine (sends_addOwn_iff [sampleCall 4096 [1],sampleCall 8192 [2]] _ ⟨rfl,rfl,trivial⟩).mpr
    ⟨⟨⟨_,rfl,rfl,rfl⟩,_,_,rfl,rfl,rfl,rfl⟩,⟨⟨_,rfl,rfl,?_⟩,_,_,rfl,rfl,rfl,?_⟩,trivial⟩
  all_goals
    rw [secureMsgSend_copied rfl rfl rfl rfl,writeSmesg_of_ne _ (by decide),
      writeSmesg_of_ne _ (by decide)]

/-- The second of two messages of a second replaces the first, if their buffers are at the same
address. -/
theorem sends_replaced : ¬∀ (db : SecMsgDB) (calls : List SendCall),
    EachCall (fun db call => (secureMsgSend db call).1=0) db calls →
    (calls.map fun call => call.encrypt.toOption.map Encrypted.payload).Nodup →
    EachCall (fun db call => AddsOwn db call (secureMsgSend db call).2) db calls := by
  intro hall
  obtain ⟨-,hsecond,-⟩ := hall (fun _ => none) [sampleCall 4096 [1],sampleCall 4096 [2]]
    ⟨rfl,rfl,trivial⟩ (by decide)
  obtain ⟨⟨smsg,hencrypt,-,hfree⟩,-⟩ := (addsOwn_iff_apart rfl).mp hsecond
  cases hencrypt
  rw [secureMsgSend_copied rfl rfl rfl rfl,
    writeSmesg_of_ne _ (show chKey queued _≠chKey sent _ from queued_ne_sent _ _)] at hfree
  have hkept := (@writeSmesg_self (fun _ => none) true (chKey queued ⟨[],1600000000,4096,[1]⟩)
    (smsgSQ (sampleCall 4096 [1]) ⟨[],1600000000,4096,[1]⟩) _ rfl).mpr ⟨rfl,rfl⟩
  cases hfree.symm.trans hkept

end Pyrk.SmsgSend
