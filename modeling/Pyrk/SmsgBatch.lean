import Mathlib.Logic.Function.Basic
import Mathlib.Tactic.SplitIfs

/-!
# Transactions of the message database

What is written and erased in a transaction is collected in a batch. A read takes a key that is
erased there as missing, while a test of existence goes on to the database.
-/

namespace Pyrk.SmsgBatch

open Function List

/-- Values of keys. -/
abbrev Store := List UInt8 → Option (List UInt8)

/-- What is done to a key. -/
inductive WriteOp where
  | put (key value : List UInt8)
  | delete (key : List UInt8)

/-- The database, perhaps in a transaction. -/
structure SecMsgDB where
  pdb : Store
  activeBatch : Option (List WriteOp) := none

abbrev CKeyID := { bytes : List UInt8 // bytes.length=20 }

abbrev ChKey := { bytes : List UInt8 // bytes.length=18 }

/-- Key of an alias, "al" and a hash. -/
def aliasKey (addr : CKeyID) : List UInt8 := 97::108::addr.1

/-- Key of a public key, "pk" and a hash. -/
def pkKey (addr : CKeyID) : List UInt8 := 112::107::addr.1

/-- What a scan of the batch has seen of a key. -/
structure Scanner where
  foundEntry : Bool := false
  deleted : Bool := false
  foundValue : List UInt8 := []

/-- Look at an operation of the batch. -/
def scanOp (needle : List UInt8) (scanner : Scanner) : WriteOp → Scanner
  | .put key value => if key=needle then ⟨true,false,value⟩ else scanner
  | .delete key => if key=needle then ⟨true,true,scanner.foundValue⟩ else scanner

/-- Look for a key in the batch. -/
def scanBatch (batch : List WriteOp) (key : List UInt8) : Scanner := batch.foldl (scanOp key) {}

/-- Do an operation. -/
def applyOp (pdb : Store) : WriteOp → Store
  | .put key value => Function.update pdb key (some value)
  | .delete key => Function.update pdb key none

section Accessors

variable {α : Type} (db : SecMsgDB)

def readKey (decode : List UInt8 → Option α) (key : List UInt8) : Option α :=
  match db.activeBatch with
  | none => (db.pdb key).bind decode
  | some batch =>
    let scanner := scanBatch batch key
    if scanner.deleted then none
    else if scanner.foundEntry then decode scanner.foundValue
    else (db.pdb key).bind decode

def existsKey (key : List UInt8) : Bool :=
  match db.activeBatch with
  | none => (db.pdb key).isSome
  | some batch =>
    let scanner := scanBatch batch key
    if scanner.foundEntry && !scanner.deleted then true else (db.pdb key).isSome

/-- Do an operation, or collect it. -/
def writeOp (op : WriteOp) : SecMsgDB :=
  match db.activeBatch with
  | none => { db with pdb := applyOp db.pdb op }
  | some batch => { db with activeBatch := some (batch++[op]) }

def txnBegin : SecMsgDB := { db with activeBatch := some (db.activeBatch.getD []) }

def txnCommit : SecMsgDB := ⟨(db.activeBatch.getD []).foldl applyOp db.pdb,none⟩

def txnAbort : SecMsgDB := { db with activeBatch := none }

def readAlias (decode : List UInt8 → Option α) (addr : CKeyID) : Option α :=
  readKey db decode (aliasKey addr)

def writeAlias (addr : CKeyID) (value : List UInt8) : SecMsgDB :=
  writeOp db (.put (aliasKey addr) value)

def existsAlias (addr : CKeyID) : Bool := existsKey db (aliasKey addr)

def readPK (decode : List UInt8 → Option α) (addr : CKeyID) : Option α :=
  readKey db decode (pkKey addr)

def writePK (addr : CKeyID) (value : List UInt8) : SecMsgDB := writeOp db (.put (pkKey addr) value)

def existsPK (addr : CKeyID) : Bool := existsKey db (pkKey addr)

def readSmesg (decode : List UInt8 → Option α) (chKey : ChKey) : Option α := readKey db decode chKey

def writeSmesg (chKey : ChKey) (value : List UInt8) : SecMsgDB := writeOp db (.put chKey value)

def existsSmesg (chKey : ChKey) : Bool := existsKey db chKey

def eraseSmesg (chKey : ChKey) : SecMsgDB := writeOp db (.delete chKey)

end Accessors

/-- A call that changes the database. -/
inductive WriteCall where
  | writeAlias (addr : CKeyID) (value : List UInt8)
  | writePK (addr : CKeyID) (value : List UInt8)
  | writeSmesg (chKey : ChKey) (value : List UInt8)
  | eraseSmesg (chKey : ChKey)

def perform (db : SecMsgDB) : WriteCall → SecMsgDB
  | .writeAlias addr value => writeAlias db addr value
  | .writePK addr value => writePK db addr value
  | .writeSmesg chKey value => writeSmesg db chKey value
  | .eraseSmesg chKey => eraseSmesg db chKey

/-- All accessors answer the same, however values are decoded. -/
structure SameAnswers (first second : SecMsgDB) : Prop where
  readAlias : ∀ {α : Type} (decode : List UInt8 → Option α) addr,
    readAlias first decode addr=readAlias second decode addr
  existsAlias : ∀ addr, existsAlias first addr=existsAlias second addr
  readPK : ∀ {α : Type} (decode : List UInt8 → Option α) addr,
    readPK first decode addr=readPK second decode addr
  existsPK : ∀ addr, existsPK first addr=existsPK second addr
  readSmesg : ∀ {α : Type} (decode : List UInt8 → Option α) chKey,
    readSmesg first decode chKey=readSmesg second decode chKey
  existsSmesg : ∀ chKey, existsSmesg first chKey=existsSmesg second chKey

variable {pdb : Store} {batch : List WriteOp} {key : List UInt8}

theorem foldl_applyOp : batch.foldl applyOp pdb key=
    let scanner := scanBatch batch key
    if scanner.foundEntry then if scanner.deleted then none else some scanner.foundValue
    else pdb key := by
  suffices h : ∀ (scanner : Scanner) (store : Store), store key=(if scanner.foundEntry then
      if scanner.deleted then none else some scanner.foundValue else pdb key) →
      batch.foldl applyOp store key=if (batch.foldl (scanOp key) scanner).foundEntry then
        if (batch.foldl (scanOp key) scanner).deleted then none
        else some (batch.foldl (scanOp key) scanner).foundValue else pdb key from h {} pdb rfl
  induction batch with
  | nil => exact fun _ _ h => h
  | cons op batch ih =>
    intro scanner store h
    refine ih (scanOp key scanner op) (applyOp store op) ?_
    cases op with
    | put other value =>
      rw [applyOp,scanOp]
      by_cases hkey : other=key
      · rw [if_pos hkey,hkey,update_self]
        rfl
      · rw [if_neg hkey,update_of_ne (Ne.symm hkey),h]
    | delete other =>
      rw [applyOp,scanOp]
      by_cases hkey : other=key
      · rw [if_pos hkey,hkey,update_self]
        rfl
      · rw [if_neg hkey,update_of_ne (Ne.symm hkey),h]

theorem scanBatch_deleted (h : (scanBatch batch key).deleted=true) :
    (scanBatch batch key).foundEntry=true := by
  suffices hall : ∀ scanner : Scanner, (scanner.deleted=true → scanner.foundEntry=true) →
      (batch.foldl (scanOp key) scanner).deleted=true →
      (batch.foldl (scanOp key) scanner).foundEntry=true from hall {} (nofun) h
  clear h
  induction batch with
  | nil => exact fun _ h => h
  | cons op batch ih =>
    intro scanner h
    refine ih _ ?_
    cases op <;> rw [scanOp] <;> split_ifs
    · exact fun _ => rfl
    · exact h
    · exact fun _ => rfl
    · exact h

theorem readKey_batch {α : Type} (decode : List UInt8 → Option α) :
    readKey ⟨pdb,some batch⟩ decode key=readKey (txnCommit ⟨pdb,some batch⟩) decode key := by
  change _=(batch.foldl applyOp pdb key).bind decode
  rw [foldl_applyOp]
  dsimp only [readKey]
  have hdeleted := @scanBatch_deleted batch key
  cases hfound : (scanBatch batch key).foundEntry <;> cases hgone : (scanBatch batch key).deleted
  · rfl
  · rw [hfound] at hdeleted
    cases hdeleted hgone
  · rfl
  · rfl

theorem existsKey_batch : existsKey ⟨pdb,some batch⟩ key=
    (existsKey (txnCommit ⟨pdb,some batch⟩) key || (pdb key).isSome) := by
  change _=((batch.foldl applyOp pdb key).isSome || _)
  rw [foldl_applyOp]
  dsimp only [existsKey]
  cases (scanBatch batch key).foundEntry <;> cases (scanBatch batch key).deleted <;>
    simp

theorem foldl_perform (calls : List WriteCall) : ∀ batch : List WriteOp,
    (∀ key, WriteOp.delete key∈batch → key.length=18) →
    ∃ after, calls.foldl perform ⟨pdb,some batch⟩=⟨pdb,some after⟩ ∧
      ∀ key, WriteOp.delete key∈after → key.length=18 := by
  induction calls with
  | nil => exact fun batch hbatch => ⟨batch,rfl,hbatch⟩
  | cons call calls ih =>
    intro batch hbatch
    rw [foldl_cons]
    have hput : ∀ key value other, WriteOp.delete other∈batch++[WriteOp.put key value] →
        other.length=18 := by
      intro key value other hm
      rcases mem_append.mp hm with hold | hnew
      · exact hbatch other hold
      · cases mem_singleton.mp hnew
    cases call with
    | writeAlias addr value => exact ih _ (hput _ _)
    | writePK addr value => exact ih _ (hput _ _)
    | writeSmesg chKey value => exact ih _ (hput _ _)
    | eraseSmesg chKey =>
      refine ih _ fun other hm => ?_
      rcases mem_append.mp hm with hold | hnew
      · exact hbatch other hold
      · cases mem_singleton.mp hnew
        exact chKey.2

theorem isSome_foldl_applyOp (hbatch : ∀ key, WriteOp.delete key∈batch → key.length=18)
    (hkey : key.length≠18) (hsome : (pdb key).isSome) : (batch.foldl applyOp pdb key).isSome := by
  induction batch generalizing pdb with
  | nil => exact hsome
  | cons op batch ih =>
    refine ih (fun other hm => hbatch other (mem_cons_of_mem _ hm)) ?_
    cases op with
    | put other value =>
      rw [applyOp,update_apply]
      split_ifs
      · rfl
      · exact hsome
    | delete other =>
      rw [applyOp,update_of_ne]
      · exact hsome
      · rintro rfl
        exact hkey (hbatch _ mem_cons_self)

/-- In a transaction all accessors answer as after it exactly if it takes no message out of the
database, and as before it when it is given up. -/
theorem transaction_sees_iff (pdb : Store) (calls : List WriteCall) :
    (SameAnswers (calls.foldl perform (txnBegin ⟨pdb,none⟩))
        (txnCommit (calls.foldl perform (txnBegin ⟨pdb,none⟩))) ↔
      ∀ chKey : ChKey, (pdb chKey).isSome →
        ((txnCommit (calls.foldl perform (txnBegin ⟨pdb,none⟩))).pdb chKey).isSome) ∧
    SameAnswers (txnAbort (calls.foldl perform (txnBegin ⟨pdb,none⟩))) ⟨pdb,none⟩ := by
  obtain ⟨batch,hrun,hbatch⟩ := @foldl_perform pdb calls [] (nofun)
  change calls.foldl perform (txnBegin ⟨pdb,none⟩)=_ at hrun
  rw [hrun]
  have hexists : ∀ key, existsKey ⟨pdb,some batch⟩ key=existsKey (txnCommit ⟨pdb,some batch⟩) key ↔
      ((pdb key).isSome → ((txnCommit ⟨pdb,some batch⟩).pdb key).isSome) := by
    intro key
    rw [existsKey_batch]
    change ((((txnCommit ⟨pdb,some batch⟩).pdb key).isSome || _)=
      ((txnCommit ⟨pdb,some batch⟩).pdb key).isSome) ↔ _
    cases (pdb key).isSome <;> cases ((txnCommit ⟨pdb,some batch⟩).pdb key).isSome <;> simp
  have hstays : ∀ addr : CKeyID, ∀ first second : UInt8,
      existsKey ⟨pdb,some batch⟩ (first::second::addr.1)=
        existsKey (txnCommit ⟨pdb,some batch⟩) (first::second::addr.1) := fun addr first second =>
    (hexists _).mpr (isSome_foldl_applyOp hbatch (by simp [addr.2]))
  refine ⟨⟨fun hsame chKey => (hexists _).mp (hsame.existsSmesg chKey),fun hkept => ?_⟩,
    ⟨fun _ _ => rfl,fun _ => rfl,fun _ _ => rfl,fun _ => rfl,fun _ _ => rfl,fun _ => rfl⟩⟩
  exact ⟨fun decode _ => readKey_batch decode,fun addr => hstays addr _ _,
    fun decode _ => readKey_batch decode,fun addr => hstays addr _ _,
    fun decode _ => readKey_batch decode,fun chKey => (hexists _).mpr (hkept chKey)⟩

/-- A message that is erased in a transaction is still said to exist. -/
theorem transaction_erased_exists : ¬∀ (pdb : Store) (calls : List WriteCall),
    SameAnswers (calls.foldl perform (txnBegin ⟨pdb,none⟩))
      (txnCommit (calls.foldl perform (txnBegin ⟨pdb,none⟩))) := by
  intro hall
  have hexists := (hall (fun _ => some []) [.eraseSmesg ⟨replicate 18 0,rfl⟩]).existsSmesg
    ⟨replicate 18 0,rfl⟩
  change true=(Function.update (fun _ => some []) (replicate 18 0) none
    (replicate 18 0) : Option (List UInt8)).isSome at hexists
  rw [update_self] at hexists
  cases hexists

end Pyrk.SmsgBatch
