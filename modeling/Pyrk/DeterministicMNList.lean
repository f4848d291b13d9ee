import Pyrk.ExceptRules
import Pyrk.OwnerIndex
import Pyrk.Transaction
import Mathlib.Algebra.Order.Group.Multiset
import Mathlib.Data.Nat.Pairing

/-!
# The deterministic masternode list

A list is the map of registered masternodes with a reference counted map from hashes of unique
properties to their owners. Assertions are outcomes of the operations.
-/

namespace Pyrk.DeterministicMNList

open Transaction NetAddress Script OrderedMap Function List CBLSWrapper OwnerIndex

/-- Assertions of the list and of the code that builds lists. -/
inductive AssertSite where
  | addMN
  | updateMN
  | removeMN
  /-- An added property is set and has no other owner. -/
  | addUniqueProperty
  | deleteUniqueProperty
  /-- A penalty is positive and its masternode registered. -/
  | poSePunish
  /-- A decreased penalty is positive and its masternode not banned. -/
  | poSeDecrease
  | calcPenalty
  | applyDiff
  /-- A special transaction in a checked block has a payload. -/
  | txPayload
  /-- A masternode pointer is not null where it is followed. -/
  | nullPointer
  | memberIndex
  /-- A quorum type is known where its parameters are read. -/
  | llmqType
  | minableCommitment
  | updateCoins
  /-- The way back over stored diffs comes to an end. -/
  | diffLoop
  /-- A stored coin is unspent, and replaces none that is known to be. -/
  | addCoin
  /-- The coins are those of the block that is extended or taken back. -/
  | bestBlock
  | valueOut
  /-- A transaction of the pool is there where it is followed. -/
  | mempoolEntry
  /-- A pool entry counts itself among its descendants. -/
  | descendantState
  /-- A pool entry counts itself among its ancestors. -/
  | ancestorState
  /-- The keys that sign sporks are known where sporks are cleaned up. -/
  | sporkAddress
  | reservedLength
  /-- A deployment state is in the cache where it is read. -/
  | thresholdCache
  /-- A transaction that was voted for has a candidate where it is followed. -/
  | lockCandidate
  deriving DecidableEq

/-- Why an operation does not return a value. -/
inductive Abort where
  | assertion (site : AssertSite)
  | rejected (verdict : Reject)
  deriving DecidableEq

/-- Result of code with assertions. -/
abbrev Checked := Except Abort

/-- Reject the block with a ban score, a code and a reason. -/
def rejectBlock {α : Type} (dos : ℕ) (code : RejectCode) (reason : String) : Checked α :=
  .error (.rejected ⟨dos,code,reason⟩)

/-- Continue when a condition holds. -/
def assertThat (site : AssertSite) (condition : Bool) : Checked Unit :=
  if condition then .ok () else .error (.assertion site)

/-- State of a masternode that later transactions can change. -/
structure CDeterministicMNState where
  nRegisteredHeight : ℤ := -1
  nLastPaidHeight : ℤ := 0
  nPoSePenalty : ℤ := 0
  nPoSeRevivedHeight : ℤ := -1
  /-- Height of the ban, or the default while not banned. -/
  nPoSeBanHeight : ℤ := -1
  nRevocationReason : ℕ := 0
  confirmedHash : Uint256 := 0
  confirmedHashWithProRegTxHash : Uint256 := 0
  keyIDOwner : CKeyID := 0
  pubKeyOperator : CBLSPublicKey := null
  keyIDVoting : CKeyID := 0
  addr : CService := CService.null
  scriptPayout : CScript := []
  scriptOperatorPayout : CScript := []
  deriving DecidableEq

namespace CDeterministicMNState

/-- State of a fresh registration. -/
def ofProRegTx (proTx : CProRegTx) : CDeterministicMNState where
  keyIDOwner := proTx.keyIDOwner
  pubKeyOperator := proTx.pubKeyOperator
  keyIDVoting := proTx.keyIDVoting
  addr := proTx.addr
  scriptPayout := proTx.scriptPayout

variable (st : CDeterministicMNState)

/-- Forget everything the operator has set. -/
def resetOperatorFields : CDeterministicMNState :=
  { st with
    pubKeyOperator := null
    addr := CService.null
    scriptOperatorPayout := []
    nRevocationReason := 0 }

def banIfNotBanned (height : ℤ) : CDeterministicMNState :=
  if st.nPoSeBanHeight=-1 then { st with nPoSeBanHeight := height } else st

/-- Record the confirming block and its combination with the registration. -/
def updateConfirmedHash (sha256 : Uint256 → Uint256 → Uint256) (st : CDeterministicMNState)
    (proTxHash confirmedHash : Uint256) : CDeterministicMNState :=
  { st with
    confirmedHash := confirmedHash
    confirmedHashWithProRegTxHash := sha256 proTxHash confirmedHash }

end CDeterministicMNState

/-- A registered masternode. -/
structure CDeterministicMN where
  proTxHash : Uint256
  collateralOutpoint : COutPoint
  nOperatorReward : ℕ := 0
  pdmnState : CDeterministicMNState := {}
  deriving DecidableEq

/-- Values that no two masternodes share. -/
inductive UniqueProperty where
  | collateral (outpoint : COutPoint)
  | service (addr : CService)
  | owner (key : CKeyID)
  | operator (key : CBLSPublicKey)
  deriving DecidableEq

open UniqueProperty

/-- A property that still has its default value. -/
def UniqueProperty.isNull : UniqueProperty → Bool
  | .collateral outpoint => outpoint=COutPoint.null
  | .service addr => addr=CService.null
  | .owner key => key=0
  | .operator key => key=null

/-- Masternodes after one block. -/
structure CDeterministicMNList where
  blockHash : Uint256 := 0
  nHeight : ℤ := -1
  mnMap : OrderedMap Uint256 CDeterministicMN := .empty
  mnUniquePropertyMap : OrderedMap Uint256 (Uint256×ℕ) := .empty
  deriving DecidableEq

open CDeterministicMNList

namespace CDeterministicMNList

/-- A banned masternode has a ban height. -/
def isMNPoSeBanned (dmn : CDeterministicMN) : Bool := dmn.pdmnState.nPoSeBanHeight≠-1

/-- Masternodes that are not banned. -/
def isMNValid (dmn : CDeterministicMN) : Bool := !isMNPoSeBanned dmn

/-- Registered masternode of a hash. -/
def getMN (list : CDeterministicMNList) (proTxHash : Uint256) : Option CDeterministicMN :=
  list.mnMap.find proTxHash

/-- Whether a hash is registered. -/
def hasMN (list : CDeterministicMNList) (proTxHash : Uint256) : Bool :=
  (list.getMN proTxHash).isSome

/-- Number of masternodes. -/
def getAllMNsCount (list : CDeterministicMNList) : ℕ := list.mnMap.size

/-- Visited masternodes, optionally only the valid ones. -/
def forEachMN (list : CDeterministicMNList) (onlyValid : Bool) : List CDeterministicMN :=
  list.mnMap.values.filter (fun dmn => !onlyValid || isMNValid dmn)

variable (serializeHash : UniqueProperty → Uint256)

/-- Whether any masternode has the property. -/
def hasUniqueProperty (list : CDeterministicMNList) (v : UniqueProperty) : Bool :=
  list.mnUniquePropertyMap.contains (serializeHash v)

def getUniquePropertyMN (list : CDeterministicMNList) (v : UniqueProperty) :
    Option CDeterministicMN :=
  match list.mnUniquePropertyMap.find (serializeHash v) with
  | none => none
  | some entry => list.getMN entry.1

def getMNByCollateral (list : CDeterministicMNList) (collateralOutpoint : COutPoint) :
    Option CDeterministicMN :=
  list.getUniquePropertyMN serializeHash (.collateral collateralOutpoint)

/-- Register a property of a masternode. -/
def addUniqueProperty (list : CDeterministicMNList) (proTxHash : Uint256) (v : UniqueProperty) :
    Checked CDeterministicMNList :=
  if v.isNull then .error (.assertion .addUniqueProperty)
  else
    match acquire list.mnUniquePropertyMap proTxHash (serializeHash v) with
    | none => .error (.assertion .addUniqueProperty)
    | some map => .ok { list with mnUniquePropertyMap := map }

/-- Forget a property of a masternode. -/
def deleteUniqueProperty (list : CDeterministicMNList) (proTxHash : Uint256)
    (oldValue : UniqueProperty) : Checked CDeterministicMNList :=
  if oldValue.isNull then .error (.assertion .deleteUniqueProperty)
  else
    match release list.mnUniquePropertyMap proTxHash (serializeHash oldValue) with
    | none => .error (.assertion .deleteUniqueProperty)
    | some map => .ok { list with mnUniquePropertyMap := map }

/-- Register a property only when a test says so. -/
def addUniquePropertyIf (list : CDeterministicMNList) (isSet : Bool) (proTxHash : Uint256)
    (v : UniqueProperty) : Checked CDeterministicMNList :=
  if isSet then list.addUniqueProperty serializeHash proTxHash v else .ok list

/-- Forget a property only when a test says so. -/
def deleteUniquePropertyIf (list : CDeterministicMNList) (isSet : Bool) (proTxHash : Uint256)
    (oldValue : UniqueProperty) : Checked CDeterministicMNList :=
  if isSet then list.deleteUniqueProperty serializeHash proTxHash oldValue else .ok list

/-- Exchange a property of a masternode. -/
def updateUniqueProperty (list : CDeterministicMNList) (proTxHash : Uint256)
    (oldValue newValue : UniqueProperty) : Checked CDeterministicMNList :=
  if oldValue=newValue then .ok list
  else do
    let list ← list.deleteUniquePropertyIf serializeHash (!oldValue.isNull) proTxHash oldValue
    list.addUniquePropertyIf serializeHash (!newValue.isNull) proTxHash newValue

/-- Register a masternode with its properties. -/
def addMN (list : CDeterministicMNList) (dmn : CDeterministicMN) :
    Checked CDeterministicMNList := do
  assertThat .addMN (!list.mnMap.contains dmn.proTxHash)
  let list := { list with mnMap := list.mnMap.set dmn.proTxHash dmn }
  let list ← list.addUniqueProperty serializeHash dmn.proTxHash (.collateral dmn.collateralOutpoint)
  let list ← list.addUniquePropertyIf serializeHash (dmn.pdmnState.addr≠CService.null)
    dmn.proTxHash (.service dmn.pdmnState.addr)
  let list ← list.addUniqueProperty serializeHash dmn.proTxHash (.owner dmn.pdmnState.keyIDOwner)
  list.addUniquePropertyIf serializeHash dmn.pdmnState.pubKeyOperator.fValid
    dmn.proTxHash (.operator dmn.pdmnState.pubKeyOperator)

/-- Replace the state of a masternode. -/
def updateMN (list : CDeterministicMNList) (proTxHash : Uint256)
    (pdmnState : CDeterministicMNState) : Checked CDeterministicMNList :=
  match list.mnMap.find proTxHash with
  | none => .error (.assertion .updateMN)
  | some oldDmn => do
    let dmn := { oldDmn with pdmnState := pdmnState }
    let oldState := oldDmn.pdmnState
    let list := { list with mnMap := list.mnMap.set proTxHash dmn }
    let list ← list.updateUniqueProperty serializeHash dmn.proTxHash
      (.service oldState.addr) (.service pdmnState.addr)
    let list ← list.updateUniqueProperty serializeHash dmn.proTxHash
      (.owner oldState.keyIDOwner) (.owner pdmnState.keyIDOwner)
    list.updateUniqueProperty serializeHash dmn.proTxHash
      (.operator oldState.pubKeyOperator) (.operator pdmnState.pubKeyOperator)

/-- Remove a masternode with its properties. -/
def removeMN (list : CDeterministicMNList) (proTxHash : Uint256) : Checked CDeterministicMNList :=
  match list.getMN proTxHash with
  | none => .error (.assertion .removeMN)
  | some dmn => do
    let list ← list.deleteUniqueProperty serializeHash dmn.proTxHash
      (.collateral dmn.collateralOutpoint)
    let list ← list.deleteUniquePropertyIf serializeHash (dmn.pdmnState.addr≠CService.null)
      dmn.proTxHash (.service dmn.pdmnState.addr)
    let list ← list.deleteUniqueProperty serializeHash dmn.proTxHash
      (.owner dmn.pdmnState.keyIDOwner)
    let list ← list.deleteUniquePropertyIf serializeHash dmn.pdmnState.pubKeyOperator.fValid
      dmn.proTxHash (.operator dmn.pdmnState.pubKeyOperator)
    .ok { list with mnMap := list.mnMap.erase proTxHash }

end CDeterministicMNList

/-- Changes from one list to the next. -/
structure CDeterministicMNListDiff where
  prevBlockHash : Uint256 := 0
  blockHash : Uint256 := 0
  nHeight : ℤ := -1
  addedMNs : OrderedMap Uint256 CDeterministicMN := .empty
  updatedMNs : OrderedMap Uint256 CDeterministicMNState := .empty
  removedMns : OrderedMap Uint256 Unit := .empty
  deriving DecidableEq

def CDeterministicMNListDiff.hasChanges (diff : CDeterministicMNListDiff) : Bool :=
  !diff.addedMNs.entries.isEmpty || !diff.updatedMNs.entries.isEmpty ||
    !diff.removedMns.entries.isEmpty

namespace CDeterministicMNList

variable (serializeHash : UniqueProperty → Uint256)

/-- Changes that lead from this list to another one. -/
def buildDiff (list target : CDeterministicMNList) : CDeterministicMNListDiff where
  prevBlockHash := list.blockHash
  blockHash := target.blockHash
  nHeight := target.nHeight
  addedMNs := OrderedMap.emplaceEntries ((target.forEachMN false).filterMap (fun toPtr =>
    match list.getMN toPtr.proTxHash with
    | none => some (toPtr.proTxHash,toPtr)
    | some _ => none))
  updatedMNs := OrderedMap.emplaceEntries ((target.forEachMN false).filterMap (fun toPtr =>
    match list.getMN toPtr.proTxHash with
    | none => none
    | some fromPtr =>
      if toPtr.pdmnState≠fromPtr.pdmnState then some (toPtr.proTxHash,toPtr.pdmnState) else none))
  removedMns := OrderedMap.emplaceEntries ((list.forEachMN false).filterMap (fun fromPtr =>
    match target.getMN fromPtr.proTxHash with
    | none => some (fromPtr.proTxHash,())
    | some _ => none))

/-- Apply the changes of a diff: removals, additions and then updates. -/
def applyDiff (list : CDeterministicMNList) (diff : CDeterministicMNListDiff) :
    Checked CDeterministicMNList := do
  assertThat .applyDiff (diff.prevBlockHash=list.blockHash && diff.nHeight=list.nHeight+1)
  let result := { list with blockHash := diff.blockHash, nHeight := diff.nHeight }
  let result ← diff.removedMns.entries.foldlM
    (fun result entry => result.removeMN serializeHash entry.1) result
  let result ← diff.addedMNs.entries.foldlM
    (fun result entry => result.addMN serializeHash entry.2) result
  diff.updatedMNs.entries.foldlM
    (fun result entry => result.updateMN serializeHash entry.1 entry.2) result

end CDeterministicMNList

/-- Registration hashes of masternodes are the keys they are stored under. -/
def Keyed (mnMap : OrderedMap Uint256 CDeterministicMN) : Prop :=
  ∀ proTxHash dmn, mnMap.find proTxHash=some dmn → dmn.proTxHash=proTxHash

theorem Keyed.find_of_mem {list : CDeterministicMNList} (h : Keyed list.mnMap) {onlyValid : Bool}
    {dmn : CDeterministicMN} (hm : dmn∈list.forEachMN onlyValid) :
    list.mnMap.find dmn.proTxHash=some dmn := by
  obtain ⟨proTxHash,hf⟩ := (list.mnMap.mem_values_iff dmn).mp (mem_filter.mp hm).1
  rwa [h proTxHash dmn hf]

theorem Keyed.nodup_forEachMN {list : CDeterministicMNList} (h : Keyed list.mnMap)
    (onlyValid : Bool) : ((list.forEachMN onlyValid).map CDeterministicMN.proTxHash).Nodup := by
  have hkeys : list.mnMap.values.map CDeterministicMN.proTxHash=
      list.mnMap.entries.map Prod.fst := by
    rw [OrderedMap.values,map_map]
    refine map_congr_left ?_
    rintro ⟨proTxHash,dmn⟩ hm
    exact h proTxHash dmn ((list.mnMap.mem_entries_iff _ _).mp hm)
  have hall : (list.mnMap.values.map CDeterministicMN.proTxHash).Nodup := by
    rw [hkeys]
    exact list.mnMap.nodup_keys
  exact hall.sublist (filter_sublist.map _)

/-- Unique properties of a masternode, set or not. -/
def allProperties (dmn : CDeterministicMN) : List UniqueProperty :=
  [.collateral dmn.collateralOutpoint,.service dmn.pdmnState.addr,
    .owner dmn.pdmnState.keyIDOwner,.operator dmn.pdmnState.pubKeyOperator]

def uniqueProperties (dmn : CDeterministicMN) : List UniqueProperty :=
  (allProperties dmn).filter (fun v => !v.isNull)

section Exactness

variable (serializeHash : UniqueProperty → Uint256)

/-- Hash of a property, or nothing while it is not set. -/
def hashOf (v : UniqueProperty) : Multiset Uint256 :=
  if v.isNull then 0 else {serializeHash v}

def propertyHashes (dmn : CDeterministicMN) : Multiset Uint256 :=
  hashOf serializeHash (.collateral dmn.collateralOutpoint)+
    hashOf serializeHash (.service dmn.pdmnState.addr)+
    hashOf serializeHash (.owner dmn.pdmnState.keyIDOwner)+
    hashOf serializeHash (.operator dmn.pdmnState.pubKeyOperator)

/-- Property hashes held under each registration hash. -/
def holdings (mnMap : OrderedMap Uint256 CDeterministicMN) (proTxHash : Uint256) :
    Multiset Uint256 :=
  match mnMap.find proTxHash with
  | none => 0
  | some dmn => propertyHashes serializeHash dmn

/-- The property map stores exactly the set properties of the masternodes. -/
structure ExactList (list : CDeterministicMNList) : Prop where
  keyed : Keyed list.mnMap
  exact : OwnerIndex.Exact list.mnUniquePropertyMap (holdings serializeHash list.mnMap)

variable {serializeHash}

variable {v : UniqueProperty}

theorem mem_hashOf {hash : Uint256} :
    hash∈hashOf serializeHash v ↔ v.isNull=false ∧ hash=serializeHash v := by
  unfold hashOf
  cases hv : v.isNull with
  | true => simp only [if_true,Multiset.notMem_zero,Bool.true_eq_false,false_and]
  | false =>
    simp only [Bool.false_eq_true,if_false,Multiset.mem_singleton,true_and]

theorem hashOf_of_set (hv : v.isNull=false) : hashOf serializeHash v={serializeHash v} := by
  simp only [hashOf,hv,Bool.false_eq_true,if_false]

theorem hashOf_of_null (hv : v.isNull=true) : hashOf serializeHash v=0 := by
  simp only [hashOf,hv,if_true]

theorem hashes_filter (values : List UniqueProperty) :
    (((values.filter (fun v => !v.isNull)).map serializeHash : List Uint256) :
      Multiset Uint256)=(values.map (hashOf serializeHash)).sum := by
  induction values with
  | nil => rfl
  | cons v values ih =>
    rw [filter_cons,map_cons,sum_cons,←ih]
    cases hv : v.isNull with
    | true => rw [hashOf_of_null hv,zero_add,Bool.not_true,if_neg Bool.false_ne_true]
    | false =>
      rw [hashOf_of_set hv,Bool.not_false,if_pos rfl,map_cons,←Multiset.cons_coe,
        Multiset.singleton_add]

theorem uniqueProperties_hashes (dmn : CDeterministicMN) :
    propertyHashes serializeHash dmn=
      ((uniqueProperties dmn).map serializeHash : List Uint256) := by
  rw [uniqueProperties,hashes_filter]
  simp only [allProperties,map_cons,map_nil,sum_cons,sum_nil,add_zero,propertyHashes,add_assoc]

variable {dmn : CDeterministicMN}

theorem hashOf_le_propertyHashes
    (hv : v∈allProperties dmn) : hashOf serializeHash v≤propertyHashes serializeHash dmn := by
  simp only [allProperties,mem_cons,not_mem_nil,or_false] at hv
  rcases hv with rfl | rfl | rfl | rfl
  · exact ((Multiset.le_add_right _ _).trans (Multiset.le_add_right _ _)).trans
      (Multiset.le_add_right _ _)
  · exact ((Multiset.le_add_left _ _).trans (Multiset.le_add_right _ _)).trans
      (Multiset.le_add_right _ _)
  · exact (Multiset.le_add_left _ _).trans (Multiset.le_add_right _ _)
  · exact Multiset.le_add_left _ _

theorem assertThat_eq_ok {site : AssertSite} {condition : Bool} {result : Unit} :
    assertThat site condition=.ok result ↔ condition=true := by
  cases condition <;> simp [assertThat]

namespace CDeterministicMNList

variable {list next : CDeterministicMNList} {proTxHash : Uint256}
  {holds : Uint256 → Multiset Uint256}

variable {v : UniqueProperty}

theorem addUniqueProperty_exact (ha : list.addUniqueProperty serializeHash proTxHash v=.ok next)
    (h : OwnerIndex.Exact list.mnUniquePropertyMap holds) :
    v.isNull=false ∧ (∀ other, other≠proTxHash → serializeHash v∉holds other) ∧
    ∃ map, next={ list with mnUniquePropertyMap := map } ∧ OwnerIndex.Exact map
        (Function.update holds proTxHash (holds proTxHash+hashOf serializeHash v)) := by
  unfold addUniqueProperty at ha
  cases hv : v.isNull with
  | true => rw [hv,if_pos rfl] at ha; cases ha
  | false =>
    rw [hv,if_neg Bool.false_ne_true] at ha
    cases hm : acquire list.mnUniquePropertyMap proTxHash (serializeHash v) with
    | none => rw [hm] at ha; cases ha
    | some map =>
      rw [hm] at ha
      cases ha
      refine ⟨rfl,(h.acquire_eq_some hm).2,map,rfl,?_⟩
      rw [hashOf_of_set hv,add_comm,Multiset.singleton_add]
      exact h.acquire hm

theorem addUniqueProperty_ok (list : CDeterministicMNList) (proTxHash : Uint256)
    (v : UniqueProperty) (h : OwnerIndex.Exact list.mnUniquePropertyMap holds)
    (hv : v.isNull=false) (hfree : ∀ other, other≠proTxHash → serializeHash v∉holds other) :
    ∃ map, list.addUniqueProperty serializeHash proTxHash v=
        .ok { list with mnUniquePropertyMap := map } ∧
      OwnerIndex.Exact map
        (Function.update holds proTxHash (holds proTxHash+hashOf serializeHash v)) := by
  cases ha : list.addUniqueProperty serializeHash proTxHash v with
  | ok next =>
    obtain ⟨-,-,map,rfl,hexact⟩ := addUniqueProperty_exact ha h
    exact ⟨map,rfl,hexact⟩
  | error abort =>
    unfold addUniqueProperty at ha
    rw [hv,if_neg Bool.false_ne_true] at ha
    cases hm : acquire list.mnUniquePropertyMap proTxHash (serializeHash v) with
    | none =>
      obtain ⟨other,hne,ho⟩ := (h.acquire_eq_none proTxHash (serializeHash v)).mp hm
      exact absurd ho (hfree other hne)
    | some map => rw [hm] at ha; cases ha

theorem deleteUniqueProperty_exact
    (hd : list.deleteUniqueProperty serializeHash proTxHash v=.ok next)
    (h : OwnerIndex.Exact list.mnUniquePropertyMap holds) :
    v.isNull=false ∧ ∃ map rest, next={ list with mnUniquePropertyMap := map } ∧
      holds proTxHash=rest+hashOf serializeHash v ∧
      OwnerIndex.Exact map (Function.update holds proTxHash rest) := by
  unfold deleteUniqueProperty at hd
  cases hv : v.isNull with
  | true => rw [hv,if_pos rfl] at hd; cases hd
  | false =>
    rw [hv,if_neg Bool.false_ne_true] at hd
    cases hm : release list.mnUniquePropertyMap proTxHash (serializeHash v) with
    | none => rw [hm] at hd; cases hd
    | some map =>
      rw [hm] at hd
      cases hd
      refine ⟨rfl,map,(holds proTxHash).erase (serializeHash v),rfl,?_,h.release hm⟩
      rw [hashOf_of_set hv,add_comm,Multiset.singleton_add]
      exact (Multiset.cons_erase (h.release_eq_some hm).1).symm

variable {rest : Multiset Uint256}

theorem deleteUniqueProperty_ok (list : CDeterministicMNList) (proTxHash : Uint256)
    (v : UniqueProperty)
    (h : OwnerIndex.Exact list.mnUniquePropertyMap holds) (hv : v.isNull=false)
    (hheld : holds proTxHash=rest+hashOf serializeHash v) :
    ∃ map, list.deleteUniqueProperty serializeHash proTxHash v=
        .ok { list with mnUniquePropertyMap := map } ∧
      OwnerIndex.Exact map (Function.update holds proTxHash rest) := by
  have hmem : serializeHash v∈holds proTxHash := by
    rw [hheld,hashOf_of_set hv]
    exact Multiset.mem_add.mpr (.inr (Multiset.mem_singleton_self _))
  cases hd : list.deleteUniqueProperty serializeHash proTxHash v with
  | ok next =>
    obtain ⟨-,map,other,rfl,hother,hexact⟩ := deleteUniqueProperty_exact hd h
    rw [hheld] at hother
    rw [add_right_cancel hother]
    exact ⟨map,rfl,hexact⟩
  | error abort =>
    unfold deleteUniqueProperty at hd
    rw [hv,if_neg Bool.false_ne_true] at hd
    cases hm : release list.mnUniquePropertyMap proTxHash (serializeHash v) with
    | none => exact absurd hmem ((h.release_eq_none proTxHash (serializeHash v)).mp hm)
    | some map => rw [hm] at hd; cases hd

variable {isSet : Bool}

theorem addUniquePropertyIf_exact
    (ha : list.addUniquePropertyIf serializeHash isSet proTxHash v=.ok next)
    (h : OwnerIndex.Exact list.mnUniquePropertyMap holds) (hset : isSet=!v.isNull) :
    (∀ other, other≠proTxHash → ∀ hash∈hashOf serializeHash v, hash∉holds other) ∧
    ∃ map, next={ list with mnUniquePropertyMap := map } ∧ OwnerIndex.Exact map
        (Function.update holds proTxHash (holds proTxHash+hashOf serializeHash v)) := by
  unfold addUniquePropertyIf at ha
  cases hv : v.isNull with
  | true =>
    rw [hset,hv,Bool.not_true,if_neg Bool.false_ne_true] at ha
    cases ha
    rw [hashOf_of_null hv,add_zero,update_eq_self]
    exact ⟨fun other _ hash hm => absurd hm (Multiset.notMem_zero hash),_,rfl,h⟩
  | false =>
    rw [hset,hv,Bool.not_false,if_pos rfl] at ha
    obtain ⟨-,hfree,hnext⟩ := addUniqueProperty_exact ha h
    refine ⟨?_,hnext⟩
    intro other hne hash hm
    rw [(mem_hashOf.mp hm).2]
    exact hfree other hne

theorem addUniquePropertyIf_ok (list : CDeterministicMNList) (proTxHash : Uint256)
    (v : UniqueProperty) (h : OwnerIndex.Exact list.mnUniquePropertyMap holds)
    (hset : isSet=!v.isNull)
    (hfree : ∀ other, other≠proTxHash → ∀ hash∈hashOf serializeHash v, hash∉holds other) :
    ∃ map, list.addUniquePropertyIf serializeHash isSet proTxHash v=
        .ok { list with mnUniquePropertyMap := map } ∧
      OwnerIndex.Exact map
        (Function.update holds proTxHash (holds proTxHash+hashOf serializeHash v)) := by
  unfold addUniquePropertyIf
  cases hv : v.isNull with
  | true =>
    rw [hset,hv,Bool.not_true,if_neg Bool.false_ne_true,hashOf_of_null hv,add_zero,update_eq_self]
    exact ⟨_,rfl,h⟩
  | false =>
    rw [hset,hv,Bool.not_false,if_pos rfl]
    exact addUniqueProperty_ok list proTxHash v h hv
      (fun other hne => hfree other hne _ (mem_hashOf.mpr ⟨hv,rfl⟩))

theorem deleteUniquePropertyIf_exact
    (hd : list.deleteUniquePropertyIf serializeHash isSet proTxHash v=.ok next)
    (h : OwnerIndex.Exact list.mnUniquePropertyMap holds) (hset : isSet=!v.isNull) :
    ∃ map rest, next={ list with mnUniquePropertyMap := map } ∧
      holds proTxHash=rest+hashOf serializeHash v ∧
      OwnerIndex.Exact map (Function.update holds proTxHash rest) := by
  unfold deleteUniquePropertyIf at hd
  cases hv : v.isNull with
  | true =>
    rw [hset,hv,Bool.not_true,if_neg Bool.false_ne_true] at hd
    cases hd
    refine ⟨_,holds proTxHash,rfl,?_,?_⟩
    · rw [hashOf_of_null hv,add_zero]
    · rw [update_eq_self]
      exact h
  | false =>
    rw [hset,hv,Bool.not_false,if_pos rfl] at hd
    exact (deleteUniqueProperty_exact hd h).2

theorem deleteUniquePropertyIf_ok (list : CDeterministicMNList) (proTxHash : Uint256)
    (v : UniqueProperty)
    (h : OwnerIndex.Exact list.mnUniquePropertyMap holds) (hset : isSet=!v.isNull)
    (hheld : holds proTxHash=rest+hashOf serializeHash v) :
    ∃ map, list.deleteUniquePropertyIf serializeHash isSet proTxHash v=
        .ok { list with mnUniquePropertyMap := map } ∧
      OwnerIndex.Exact map (Function.update holds proTxHash rest) := by
  unfold deleteUniquePropertyIf
  cases hv : v.isNull with
  | true =>
    rw [hashOf_of_null hv,add_zero] at hheld
    rw [hset,hv,Bool.not_true,if_neg Bool.false_ne_true,←hheld,update_eq_self]
    exact ⟨_,rfl,h⟩
  | false =>
    rw [hset,hv,Bool.not_false,if_pos rfl]
    exact deleteUniqueProperty_ok list proTxHash v h hv hheld

theorem updateUniqueProperty_exact {oldValue newValue : UniqueProperty}
    (hu : list.updateUniqueProperty serializeHash proTxHash oldValue newValue=.ok next)
    (h : OwnerIndex.Exact list.mnUniquePropertyMap holds)
    (hheld : holds proTxHash=rest+hashOf serializeHash oldValue) :
    ∃ map, next={ list with mnUniquePropertyMap := map } ∧ OwnerIndex.Exact map
        (Function.update holds proTxHash (rest+hashOf serializeHash newValue)) := by
  unfold updateUniqueProperty at hu
  by_cases he : oldValue=newValue
  · rw [if_pos he] at hu
    cases hu
    rw [←he,←hheld,update_eq_self]
    exact ⟨_,rfl,h⟩
  · rw [if_neg he,bind_eq_ok] at hu
    obtain ⟨middle,hdelete,hadd⟩ := hu
    obtain ⟨map,other,rfl,hother,hexact⟩ := deleteUniquePropertyIf_exact hdelete h rfl
    obtain ⟨-,added,rfl,hadded⟩ := addUniquePropertyIf_exact hadd hexact rfl
    rw [hheld] at hother
    rw [update_self,update_idem,←add_right_cancel hother] at hadded
    exact ⟨added,rfl,hadded⟩

theorem updateUniqueProperty_ok (list : CDeterministicMNList) (proTxHash : Uint256)
    (oldValue newValue : UniqueProperty)
    (h : OwnerIndex.Exact list.mnUniquePropertyMap holds)
    (hheld : holds proTxHash=rest+hashOf serializeHash oldValue)
    (hfree : oldValue≠newValue → ∀ other, other≠proTxHash →
      ∀ hash∈hashOf serializeHash newValue, hash∉holds other) :
    ∃ map, list.updateUniqueProperty serializeHash proTxHash oldValue newValue=
        .ok { list with mnUniquePropertyMap := map } ∧
      OwnerIndex.Exact map
        (Function.update holds proTxHash (rest+hashOf serializeHash newValue)) := by
  unfold updateUniqueProperty
  by_cases he : oldValue=newValue
  · rw [if_pos he,←he,←hheld,update_eq_self]
    exact ⟨_,rfl,h⟩
  · obtain ⟨removed,hdelete,hremoved⟩ :=
    deleteUniquePropertyIf_ok list proTxHash oldValue h rfl hheld
    have hstill : ∀ other, other≠proTxHash → ∀ hash∈hashOf serializeHash newValue,
        hash∉Function.update holds proTxHash rest other := by
      intro other hne
      rw [update_of_ne hne]
      exact hfree he other hne
    obtain ⟨added,hadd,hadded⟩ := addUniquePropertyIf_ok
      { list with mnUniquePropertyMap := removed } proTxHash newValue hremoved rfl hstill
    rw [update_self,update_idem] at hadded
    rw [if_neg he]
    exact ⟨added,bind_eq_ok.mpr ⟨_,hdelete,hadd⟩,hadded⟩

end CDeterministicMNList

theorem exactList_unique {first second : CDeterministicMNList}
    (hf : ExactList serializeHash first) (hs : ExactList serializeHash second)
    (hm : first.mnMap=second.mnMap) : first.mnUniquePropertyMap=second.mnUniquePropertyMap := by
  refine ext_find ?_
  intro key
  refine Option.ext ?_
  rintro ⟨owner,count⟩
  have h1 := hf.exact key owner count
  have h2 := hs.exact key owner count
  rw [hm] at h1
  exact h1.trans h2.symm

theorem holdings_set (mnMap : OrderedMap Uint256 CDeterministicMN) (dmn : CDeterministicMN)
    (proTxHash : Uint256) :
    holdings serializeHash (mnMap.set proTxHash dmn)=
      Function.update (holdings serializeHash mnMap) proTxHash
        (propertyHashes serializeHash dmn) := by
  funext other
  unfold holdings
  rw [find_set]
  by_cases he : other=proTxHash
  · subst he
    rw [if_pos rfl,update_self]
  · rw [if_neg he,update_of_ne he]

theorem holdings_erase (mnMap : OrderedMap Uint256 CDeterministicMN) (proTxHash : Uint256) :
    holdings serializeHash (mnMap.erase proTxHash)=
      Function.update (holdings serializeHash mnMap) proTxHash 0 := by
  funext other
  unfold holdings
  rw [find_erase]
  by_cases he : other=proTxHash
  · subst he
    rw [if_pos rfl,update_self]
  · rw [if_neg he,update_of_ne he]

variable {mnMap : OrderedMap Uint256 CDeterministicMN}

theorem holdings_of_find {proTxHash : Uint256} (hf : mnMap.find proTxHash=some dmn) :
    holdings serializeHash mnMap proTxHash=propertyHashes serializeHash dmn := by
  unfold holdings
  rw [hf]

theorem holdings_of_none {proTxHash : Uint256}
    (hf : mnMap.find proTxHash=none) : holdings serializeHash mnMap proTxHash=0 := by
  unfold holdings
  rw [hf]

theorem keyed_set (hk : Keyed mnMap) {proTxHash : Uint256} (he : dmn.proTxHash=proTxHash) :
    Keyed (mnMap.set proTxHash dmn) := by
  intro other stored hf
  rw [find_set] at hf
  split_ifs at hf with ho
  · cases hf
    rw [ho,he]
  · exact hk other stored hf

theorem keyed_erase (hk : Keyed mnMap) (proTxHash : Uint256) : Keyed (mnMap.erase proTxHash) := by
  intro other stored hf
  rw [find_erase] at hf
  split_ifs at hf with ho
  exact hk other stored hf

theorem service_isSet (addr : CService) :
    decide (addr≠CService.null)=!(service addr).isNull := by
  simp only [isNull,ne_eq,decide_not]

theorem operator_isSet (key : CBLSPublicKey) : key.fValid=!(operator key).isNull := by
  simp only [isNull]
  cases hv : key.fValid with
  | true => simp only [(fValid_iff key).mp hv,decide_false,Bool.not_false]
  | false =>
    have hn : key=null := by
      by_contra hne
      rw [(fValid_iff key).mpr hne] at hv
      cases hv
    simp only [hn,decide_true,Bool.not_true]

namespace CDeterministicMNList

variable {list next : CDeterministicMNList}

variable {dmn : CDeterministicMN}

theorem addMN_exact (h : ExactList serializeHash list)
    (ha : list.addMN serializeHash dmn=.ok next) :
    list.mnMap.find dmn.proTxHash=none ∧ (collateral dmn.collateralOutpoint).isNull=false ∧
    (owner dmn.pdmnState.keyIDOwner).isNull=false ∧ (∃ map, next={ list with
      mnMap := list.mnMap.set dmn.proTxHash dmn, mnUniquePropertyMap := map }) ∧
    ExactList serializeHash next := by
  unfold addMN at ha
  rw [bind_eq_ok] at ha
  obtain ⟨_,hnew,ha⟩ := ha
  rw [assertThat_eq_ok,Bool.not_eq_true',contains_eq_false] at hnew
  simp only [bind_eq_ok] at ha
  obtain ⟨first,hfirst,second,hsecond,third,hthird,hlast⟩ := ha
  obtain ⟨hcoll,-,map1,rfl,h1⟩ := addUniqueProperty_exact hfirst h.exact
  obtain ⟨-,map2,rfl,h2⟩ := addUniquePropertyIf_exact hsecond h1 (service_isSet _)
  obtain ⟨howner,-,map3,rfl,h3⟩ := addUniqueProperty_exact hthird h2
  obtain ⟨-,map4,rfl,h4⟩ := addUniquePropertyIf_exact hlast h3 (operator_isSet _)
  refine ⟨hnew,hcoll,howner,⟨map4,rfl⟩,keyed_set h.keyed rfl,?_⟩
  simp only [update_self,update_idem,holdings_of_none hnew,zero_add] at h4
  rw [holdings_set]
  exact h4

/-- A registration succeeds when the hash is new, collateral and owner are set
and no set property is in use. -/
theorem addMN_ok (h : ExactList serializeHash list) (hnew : list.mnMap.find dmn.proTxHash=none)
    (hcoll : (collateral dmn.collateralOutpoint).isNull=false)
    (howner : (owner dmn.pdmnState.keyIDOwner).isNull=false)
    (hfree : ∀ other, ∀ hash∈propertyHashes serializeHash dmn,
      hash∉holdings serializeHash list.mnMap other) :
    ∃ next, list.addMN serializeHash dmn=.ok next := by
  have hpart : ∀ {v : UniqueProperty} {holds : Uint256 → Multiset Uint256}, v∈allProperties dmn →
      (∀ other, other≠dmn.proTxHash → holds other=holdings serializeHash list.mnMap other) →
      ∀ other, other≠dmn.proTxHash → ∀ hash∈hashOf serializeHash v, hash∉holds other := by
    intro v holds hv hsame other hne hash hm
    rw [hsame other hne]
    exact hfree other hash (Multiset.mem_of_le (hashOf_le_propertyHashes hv) hm)
  obtain ⟨map1,hfirst,h1⟩ := addUniqueProperty_ok
    { list with mnMap := list.mnMap.set dmn.proTxHash dmn } dmn.proTxHash
    (.collateral dmn.collateralOutpoint) h.exact hcoll
    (fun other hne => hpart (.head _) (fun _ _ => rfl) other hne _ (mem_hashOf.mpr ⟨hcoll,rfl⟩))
  obtain ⟨map2,hsecond,h2⟩ := addUniquePropertyIf_ok
    { list with mnMap := list.mnMap.set dmn.proTxHash dmn, mnUniquePropertyMap := map1 }
    dmn.proTxHash (.service dmn.pdmnState.addr) h1 (service_isSet _)
    (hpart (.tail _ (.head _)) (fun _ hne => update_of_ne hne _ _))
  rw [update_idem] at h2
  obtain ⟨map3,hthird,h3⟩ := addUniqueProperty_ok
    { list with mnMap := list.mnMap.set dmn.proTxHash dmn, mnUniquePropertyMap := map2 }
    dmn.proTxHash (.owner dmn.pdmnState.keyIDOwner) h2 howner
    (fun other hne => hpart (.tail _ (.tail _ (.head _)))
      (fun _ hne => update_of_ne hne _ _) other hne _
      (mem_hashOf.mpr ⟨howner,rfl⟩))
  rw [update_idem] at h3
  obtain ⟨map4,hfourth,h4⟩ := addUniquePropertyIf_ok
    { list with mnMap := list.mnMap.set dmn.proTxHash dmn, mnUniquePropertyMap := map3 }
    dmn.proTxHash (.operator dmn.pdmnState.pubKeyOperator) h3 (operator_isSet _)
    (hpart (.tail _ (.tail _ (.tail _ (.head _)))) (fun _ hne => update_of_ne hne _ _))
  refine ⟨{ list with mnMap := list.mnMap.set dmn.proTxHash dmn, mnUniquePropertyMap := map4 },?_⟩
  unfold addMN
  simp only [bind_eq_ok]
  exact ⟨(),assertThat_eq_ok.mpr (by
    rw [(contains_eq_false _ _).mpr hnew,Bool.not_false]),_,hfirst,_,hsecond,_,hthird,hfourth⟩

theorem removeMN_exact {proTxHash : Uint256} (h : ExactList serializeHash list)
    (hr : list.removeMN serializeHash proTxHash=.ok next) :
    (∃ dmn, list.mnMap.find proTxHash=some dmn) ∧ (∃ map, next={ list with
      mnMap := list.mnMap.erase proTxHash, mnUniquePropertyMap := map }) ∧
    ExactList serializeHash next := by
  unfold removeMN getMN at hr
  cases hf : list.mnMap.find proTxHash with
  | none => rw [hf] at hr; cases hr
  | some dmn =>
    have hkey := h.keyed proTxHash dmn hf
    rw [hf] at hr
    simp only [hkey,bind_eq_ok] at hr
    obtain ⟨first,hfirst,second,hsecond,third,hthird,fourth,hfourth,hlast⟩ := hr
    obtain ⟨-,map1,rest1,rfl,hrest1,h1⟩ := deleteUniqueProperty_exact hfirst h.exact
    obtain ⟨map2,rest2,rfl,hrest2,h2⟩ := deleteUniquePropertyIf_exact hsecond h1 (service_isSet _)
    obtain ⟨-,map3,rest3,rfl,hrest3,h3⟩ := deleteUniqueProperty_exact hthird h2
    obtain ⟨map4,rest4,rfl,hrest4,h4⟩ := deleteUniquePropertyIf_exact hfourth h3 (operator_isSet _)
    cases hlast
    refine ⟨⟨dmn,rfl⟩,⟨map4,rfl⟩,keyed_erase h.keyed proTxHash,?_⟩
    rw [update_self] at hrest2 hrest3 hrest4
    rw [holdings_of_find hf,hrest2,hrest3,hrest4,propertyHashes] at hrest1
    have hzero : rest4=0 := by
      have hcard := congrArg Multiset.card hrest1
      simp only [Multiset.card_add] at hcard
      exact Multiset.card_eq_zero.mp (by omega)
    simp only [update_idem,hzero] at h4
    rw [holdings_erase]
    exact h4

theorem removeMN_ok {proTxHash : Uint256}
    (h : ExactList serializeHash list) (hf : list.mnMap.find proTxHash=some dmn)
    (hcoll : (collateral dmn.collateralOutpoint).isNull=false)
    (howner : (owner dmn.pdmnState.keyIDOwner).isNull=false) :
    ∃ next, list.removeMN serializeHash proTxHash=.ok next := by
  have hkey := h.keyed proTxHash dmn hf
  have hheld : holdings serializeHash list.mnMap proTxHash=
      0+hashOf serializeHash (.operator dmn.pdmnState.pubKeyOperator)+
        hashOf serializeHash (.owner dmn.pdmnState.keyIDOwner)+
        hashOf serializeHash (.service dmn.pdmnState.addr)+
        hashOf serializeHash (.collateral dmn.collateralOutpoint) := by
    rw [holdings_of_find hf,propertyHashes,zero_add]
    ac_rfl
  obtain ⟨map1,hfirst,h1⟩ := deleteUniqueProperty_ok list proTxHash
    (.collateral dmn.collateralOutpoint) h.exact hcoll hheld
  obtain ⟨map2,hsecond,h2⟩ := deleteUniquePropertyIf_ok { list with mnUniquePropertyMap := map1 }
    proTxHash (.service dmn.pdmnState.addr) h1 (service_isSet _) (update_self _ _ _)
  obtain ⟨map3,hthird,h3⟩ := deleteUniqueProperty_ok { list with mnUniquePropertyMap := map2 }
    proTxHash (.owner dmn.pdmnState.keyIDOwner) h2 howner (update_self _ _ _)
  obtain ⟨map4,hfourth,h4⟩ := deleteUniquePropertyIf_ok { list with mnUniquePropertyMap := map3 }
    proTxHash (.operator dmn.pdmnState.pubKeyOperator) h3 (operator_isSet _)
    (update_self _ _ _)
  refine ⟨{ list with mnMap := list.mnMap.erase proTxHash, mnUniquePropertyMap := map4 },?_⟩
  unfold removeMN getMN
  rw [hf]
  simp only [hkey,bind_eq_ok]
  exact ⟨_,hfirst,_,hsecond,_,hthird,_,hfourth,rfl⟩

theorem holdings_service {proTxHash : Uint256} (hf : list.mnMap.find proTxHash=some dmn) :
    holdings serializeHash list.mnMap proTxHash=
      hashOf serializeHash (.collateral dmn.collateralOutpoint)+
        hashOf serializeHash (.owner dmn.pdmnState.keyIDOwner)+
        hashOf serializeHash (.operator dmn.pdmnState.pubKeyOperator)+
        hashOf serializeHash (.service dmn.pdmnState.addr) := by
  rw [holdings_of_find hf,propertyHashes]
  ac_rfl

variable {total collateral owner operator service : Multiset Uint256}

theorem owner_last (h : total=collateral+owner+operator+service) :
    total=collateral+operator+service+owner := by
  rw [h]
  ac_rfl

theorem operator_last (h : total=collateral+operator+service+owner) :
    total=collateral+service+owner+operator := by
  rw [h]
  ac_rfl

variable {pdmnState : CDeterministicMNState}

theorem updateMN_exact {proTxHash : Uint256} (h : ExactList serializeHash list)
    (hu : list.updateMN serializeHash proTxHash pdmnState=.ok next) :
    ∃ dmn, list.mnMap.find proTxHash=some dmn ∧ (∃ map, next={ list with
      mnMap := list.mnMap.set proTxHash { dmn with pdmnState := pdmnState }
      mnUniquePropertyMap := map }) ∧
    ExactList serializeHash next := by
  unfold updateMN at hu
  cases hf : list.mnMap.find proTxHash with
  | none => rw [hf] at hu; cases hu
  | some dmn =>
    have hkey := h.keyed proTxHash dmn hf
    subst hkey
    rw [hf] at hu
    simp only [bind_eq_ok] at hu
    obtain ⟨first,hfirst,second,hsecond,hthird⟩ := hu
    obtain ⟨map1,rfl,h1⟩ := updateUniqueProperty_exact hfirst h.exact
      (holdings_service hf)
    obtain ⟨map2,rfl,h2⟩ := updateUniqueProperty_exact hsecond h1
      (owner_last (update_self _ _ _))
    obtain ⟨map3,rfl,h3⟩ := updateUniqueProperty_exact hthird h2
      (operator_last (update_self _ _ _))
    refine ⟨dmn,rfl,⟨map3,rfl⟩,keyed_set h.keyed rfl,?_⟩
    simp only [update_idem] at h3
    rw [holdings_set]
    exact h3

/-- An update of a registered masternode succeeds when nobody else has its new
address, owner key or operator key. -/
theorem updateMN_ok {proTxHash : Uint256} (h : ExactList serializeHash list)
    (hf : list.mnMap.find proTxHash=some dmn)
    (hfree : ∀ v∈allProperties { dmn with pdmnState := pdmnState }, v∉allProperties dmn →
      ∀ other, other≠proTxHash → ∀ hash∈hashOf serializeHash v,
        hash∉holdings serializeHash list.mnMap other) :
    ∃ next, list.updateMN serializeHash proTxHash pdmnState=.ok next := by
  have hkey := h.keyed proTxHash dmn hf
  subst hkey
  have hpart : ∀ {v : UniqueProperty} {holds : Uint256 → Multiset Uint256},
      v∈allProperties { dmn with pdmnState := pdmnState } → v∉allProperties dmn →
      (∀ other, other≠dmn.proTxHash → holds other=holdings serializeHash list.mnMap other) →
      ∀ other, other≠dmn.proTxHash → ∀ hash∈hashOf serializeHash v, hash∉holds other := by
    grind
  obtain ⟨map1,hfirst,h1⟩ := updateUniqueProperty_ok
    { list with mnMap := list.mnMap.set dmn.proTxHash { dmn with pdmnState := pdmnState } }
    dmn.proTxHash (.service dmn.pdmnState.addr) (.service pdmnState.addr) h.exact
    (holdings_service hf) (fun hne => hpart (.tail _ (.head _))
      (by simpa [allProperties] using Ne.symm hne) (fun _ _ => rfl))
  obtain ⟨map2,hsecond,h2⟩ := updateUniqueProperty_ok
    { list with
      mnMap := list.mnMap.set dmn.proTxHash { dmn with pdmnState := pdmnState }
      mnUniquePropertyMap := map1 }
    dmn.proTxHash (.owner dmn.pdmnState.keyIDOwner) (.owner pdmnState.keyIDOwner) h1
    (owner_last (update_self _ _ _)) (fun hne => hpart (.tail _ (.tail _ (.head _)))
      (by simpa [allProperties] using Ne.symm hne) (fun _ hother => update_of_ne hother _ _))
  rw [update_idem] at h2
  obtain ⟨map3,hthird,h3⟩ := updateUniqueProperty_ok
    { list with
      mnMap := list.mnMap.set dmn.proTxHash { dmn with pdmnState := pdmnState }
      mnUniquePropertyMap := map2 }
    dmn.proTxHash (.operator dmn.pdmnState.pubKeyOperator) (.operator pdmnState.pubKeyOperator) h2
    (operator_last (update_self _ _ _))
    (fun hne => hpart (.tail _ (.tail _ (.tail _ (.head _))))
      (by simpa [allProperties] using Ne.symm hne) (fun _ hother => update_of_ne hother _ _))
  refine ⟨{ list with
    mnMap := list.mnMap.set dmn.proTxHash { dmn with pdmnState := pdmnState }
    mnUniquePropertyMap := map3 },?_⟩
  unfold updateMN
  rw [hf]
  simp only [bind_eq_ok]
  exact ⟨_,hfirst,_,hsecond,hthird⟩

theorem applyDiff_exact {diff : CDeterministicMNListDiff} (h : ExactList serializeHash list)
    (ha : list.applyDiff serializeHash diff=.ok next) : ExactList serializeHash next := by
  unfold applyDiff at ha
  simp only [bind_eq_ok] at ha
  obtain ⟨_,-,removed,hremoved,added,hadded,hupdated⟩ := ha
  have hstart : ExactList serializeHash
      { list with blockHash := diff.blockHash, nHeight := diff.nHeight } := ⟨h.keyed,h.exact⟩
  have h1 := foldlM_invariant (fun _ h hs => (removeMN_exact h hs).2.2) hstart hremoved
  have h2 := foldlM_invariant (fun _ h hs => (addMN_exact h hs).2.2.2.2) h1 hadded
  exact foldlM_invariant (fun _ h hs => (updateMN_exact h hs).choose_spec.2.2) h2 hupdated

end CDeterministicMNList

end Exactness

/-- What the serialization of a list writes. The iteration order of the maps is
not specified, so both sequences may come in any order. -/
structure SerializedMNList where
  blockHash : Uint256
  nHeight : ℤ
  mnEntries : List (Uint256×CDeterministicMN)
  propertyEntries : List (Uint256×(Uint256×ℕ))

/-- A serialization writes every pair of both maps once. -/
def Serializes (list : CDeterministicMNList) (bytes : SerializedMNList) : Prop :=
  bytes.blockHash=list.blockHash ∧ bytes.nHeight=list.nHeight ∧
    bytes.mnEntries.Perm list.mnMap.entries ∧
    bytes.propertyEntries.Perm list.mnUniquePropertyMap.entries

/-- Reading stores the pairs one after another into empty maps. -/
def unserialize (bytes : SerializedMNList) : CDeterministicMNList where
  blockHash := bytes.blockHash
  nHeight := bytes.nHeight
  mnMap := OrderedMap.ofEntries bytes.mnEntries
  mnUniquePropertyMap := OrderedMap.ofEntries bytes.propertyEntries

theorem unserialize_serializes {list : CDeterministicMNList} {bytes : SerializedMNList}
    (h : Serializes list bytes) : unserialize bytes=list := by
  obtain ⟨hhash,hheight,hmap,hprops⟩ := h
  unfold unserialize
  rw [hhash,hheight,ofEntries_perm hmap,ofEntries_perm hprops]

/-- Lists that the operations can reach from an empty list. -/
inductive Reachable (serializeHash : UniqueProperty → Uint256) : CDeterministicMNList → Prop where
  | empty (blockHash : Uint256) (nHeight : ℤ) :
      Reachable serializeHash { blockHash := blockHash, nHeight := nHeight }
  | setBlock {list : CDeterministicMNList} (blockHash : Uint256) (nHeight : ℤ) :
      Reachable serializeHash list →
      Reachable serializeHash { list with blockHash := blockHash, nHeight := nHeight }
  | addMN {list next : CDeterministicMNList} (dmn : CDeterministicMN) :
      Reachable serializeHash list → list.addMN serializeHash dmn=.ok next →
      Reachable serializeHash next
  | updateMN {list next : CDeterministicMNList} (proTxHash : Uint256)
      (pdmnState : CDeterministicMNState) :
      Reachable serializeHash list → list.updateMN serializeHash proTxHash pdmnState=.ok next →
      Reachable serializeHash next
  | removeMN {list next : CDeterministicMNList} (proTxHash : Uint256) :
      Reachable serializeHash list → list.removeMN serializeHash proTxHash=.ok next →
      Reachable serializeHash next
  | applyDiff {list next : CDeterministicMNList} (diff : CDeterministicMNListDiff) :
      Reachable serializeHash list → list.applyDiff serializeHash diff=.ok next →
      Reachable serializeHash next
  | roundTrip {list : CDeterministicMNList} (bytes : SerializedMNList) :
      Reachable serializeHash list → Serializes list bytes →
      Reachable serializeHash (unserialize bytes)

theorem exactList_empty (serializeHash : UniqueProperty → Uint256) (blockHash : Uint256)
    (nHeight : ℤ) :
    ExactList serializeHash { blockHash := blockHash, nHeight := nHeight } where
  keyed := fun _ _ hf => absurd hf (by simp only [find_empty,reduceCtorEq,not_false_eq_true])
  exact := exact_empty

theorem reachable_exactList {serializeHash : UniqueProperty → Uint256}
    {list : CDeterministicMNList} (h : Reachable serializeHash list) :
    ExactList serializeHash list := by
  induction h with
  | empty blockHash nHeight => exact exactList_empty serializeHash blockHash nHeight
  | setBlock blockHash nHeight _ ih => exact ⟨ih.keyed,ih.exact⟩
  | addMN dmn _ hs ih => exact (addMN_exact ih hs).2.2.2.2
  | updateMN proTxHash pdmnState _ hs ih =>
    obtain ⟨_,-,-,hexact⟩ := updateMN_exact ih hs
    exact hexact
  | removeMN proTxHash _ hs ih => exact (removeMN_exact ih hs).2.2
  | applyDiff diff _ hs ih => exact applyDiff_exact ih hs
  | roundTrip bytes _ hs ih => exact unserialize_serializes hs ▸ ih

theorem count_propertyHashes {serializeHash : UniqueProperty → Uint256}
    (hinj : Function.Injective serializeHash) (dmn : CDeterministicMN) (v : UniqueProperty) :
    (propertyHashes serializeHash dmn).count (serializeHash v)=(uniqueProperties dmn).count v := by
  rw [uniqueProperties_hashes,Multiset.coe_count,count_map_of_injective _ _ hinj]

theorem ExactList.find_iff {serializeHash : UniqueProperty → Uint256}
    (hinj : Function.Injective serializeHash) {list : CDeterministicMNList}
    (h : ExactList serializeHash list) (hash proTxHash : Uint256) (count : ℕ) :
    list.mnUniquePropertyMap.find hash=some (proTxHash,count) ↔
      ∃ dmn v, list.mnMap.find proTxHash=some dmn ∧ v∈uniqueProperties dmn ∧
        hash=serializeHash v ∧ count=(uniqueProperties dmn).count v := by
  constructor
  · intro hf
    obtain ⟨hm,hcount⟩ := h.exact.mem_of_find hf
    cases hd : list.mnMap.find proTxHash with
    | none => rw [holdings_of_none hd] at hm; exact absurd hm (Multiset.notMem_zero _)
    | some dmn =>
      rw [holdings_of_find hd] at hm hcount
      have hlist := hm
      rw [uniqueProperties_hashes,Multiset.mem_coe,mem_map] at hlist
      obtain ⟨v,hv,rfl⟩ := hlist
      rw [count_propertyHashes hinj] at hcount
      exact ⟨dmn,v,rfl,hv,rfl,hcount.symm⟩
  · rintro ⟨dmn,v,hd,hv,rfl,rfl⟩
    rw [h.exact,holdings_of_find hd,count_propertyHashes hinj]
    exact ⟨count_pos_iff.mpr hv,rfl⟩

theorem ExactList.getUniquePropertyMN_iff {serializeHash : UniqueProperty → Uint256}
    (hinj : Function.Injective serializeHash) {list : CDeterministicMNList}
    (h : ExactList serializeHash list) (v : UniqueProperty) (dmn : CDeterministicMN) :
    list.getUniquePropertyMN serializeHash v=some dmn ↔
      list.mnMap.find dmn.proTxHash=some dmn ∧ v∈uniqueProperties dmn := by
  unfold getUniquePropertyMN getMN
  constructor
  · intro hg
    cases hf : list.mnUniquePropertyMap.find (serializeHash v) with
    | none => rw [hf] at hg; cases hg
    | some entry =>
      rw [hf] at hg
      obtain ⟨owner,other,hd,hv,hhash,-⟩ := (h.find_iff hinj _ entry.1 entry.2).mp hf
      have he := hinj hhash
      subst he
      dsimp only at hg
      rw [hd] at hg
      cases hg
      exact ⟨by rw [h.keyed _ _ hd,hd],hv⟩
  · rintro ⟨hd,hv⟩
    rw [(h.find_iff hinj _ dmn.proTxHash _).mpr ⟨dmn,v,hd,hv,rfl,rfl⟩]
    exact hd

/-- In every reachable list the property map holds exactly the hashes of set properties with owner
and count, and no two masternodes share one. -/
theorem reachable_uniqueProperties (serializeHash : UniqueProperty → Uint256)
    (hinj : Function.Injective serializeHash) (list : CDeterministicMNList)
    (h : Reachable serializeHash list) :
    (∀ hash proTxHash count, list.mnUniquePropertyMap.find hash=some (proTxHash,count) ↔
        ∃ dmn v, list.mnMap.find proTxHash=some dmn ∧ v∈uniqueProperties dmn ∧
          hash=serializeHash v ∧ count=(uniqueProperties dmn).count v) ∧
    (∀ first second firstDmn secondDmn v,
      list.mnMap.find first=some firstDmn → list.mnMap.find second=some secondDmn →
      v∈uniqueProperties firstDmn → v∈uniqueProperties secondDmn → first=second) ∧
    (∀ v dmn, list.getUniquePropertyMN serializeHash v=some dmn ↔
      list.mnMap.find dmn.proTxHash=some dmn ∧ v∈uniqueProperties dmn) ∧
    (∀ outpoint dmn, list.getMNByCollateral serializeHash outpoint=some dmn ↔
      list.mnMap.find dmn.proTxHash=some dmn ∧ collateral outpoint∈uniqueProperties dmn) := by
  have hexact := reachable_exactList h
  refine ⟨hexact.find_iff hinj,?_,hexact.getUniquePropertyMN_iff hinj,
    fun outpoint => hexact.getUniquePropertyMN_iff hinj (.collateral outpoint)⟩
  intro first second firstDmn secondDmn v hfirst hsecond hv1 hv2
  have h1 := (hexact.find_iff hinj (serializeHash v) first _).mpr ⟨firstDmn,v,hfirst,hv1,rfl,rfl⟩
  have h2 := (hexact.find_iff hinj (serializeHash v) second _).mpr ⟨secondDmn,v,hsecond,hv2,rfl,rfl⟩
  exact (Prod.mk.inj (Option.some.inj (h1.symm.trans h2))).1

/-- A collision free stand-in for the property hash. -/
def propertyCode : UniqueProperty → ℕ
  | .collateral outpoint => 4*Nat.pair outpoint.hash outpoint.n
  | .service addr => 4*Nat.pair (littleEndian addr.ip) addr.port+1
  | .owner key => 4*key+2
  | .operator key => 4*Nat.pair key.impl key.fValid.toNat+3

theorem propertyCode_injective : Function.Injective propertyCode := by
  intro first second he
  cases first <;> cases second <;> simp only [propertyCode] at he <;> try omega
  case collateral.collateral first second =>
    have hp : Nat.pair first.hash first.n=Nat.pair second.hash second.n := by omega
    obtain ⟨hhash,hn⟩ := Nat.pair_eq_pair.mp hp
    cases first
    cases second
    cases hhash
    cases hn
    rfl
  case service.service first second =>
    have hp : Nat.pair (littleEndian first.ip) first.port=
        Nat.pair (littleEndian second.ip) second.port := by omega
    obtain ⟨hip,hport⟩ := Nat.pair_eq_pair.mp hp
    have hbytes := littleEndian_injective (first.ip_length.trans second.ip_length.symm) hip
    cases first
    cases second
    cases hbytes
    cases hport
    rfl
  case owner.owner first second =>
    simp only [Nat.add_right_cancel_iff,Nat.mul_right_inj (by decide : 4≠0)] at he
    rw [he]
  case operator.operator first second =>
    have hp : Nat.pair first.impl first.fValid.toNat=
        Nat.pair second.impl second.fValid.toNat := by omega
    obtain ⟨himpl,hvalid⟩ := Nat.pair_eq_pair.mp hp
    have hflag : first.fValid=second.fValid := by
      revert hvalid
      cases first.fValid <;> cases second.fValid <;> decide
    cases first
    cases second
    cases himpl
    cases hflag
    rfl

/-- A masternode with all properties set. -/
def sampleMN (index : ℕ) : CDeterministicMN where
  proTxHash := index
  collateralOutpoint := ⟨100+index,0⟩
  pdmnState :=
    { keyIDOwner := 200+index
      pubKeyOperator := valid (300+index)
      keyIDVoting := 200+index
      addr := CService.ipv4 8 8 8 (UInt8.ofNat index) 8118 }

def sampleList : CDeterministicMNList where
  mnMap := OrderedMap.empty.set 1 (sampleMN 1)
  mnUniquePropertyMap := OrderedMap.ofEntries
    ((uniqueProperties (sampleMN 1)).map (fun v => (propertyCode v,(1,1))))

/-- The first masternode at another address. -/
def movedMN : CDeterministicMN :=
  { sampleMN 1 with
    pdmnState := { (sampleMN 1).pdmnState with addr := CService.ipv4 8 8 8 9 8118 } }

def pairList : CDeterministicMNList where
  mnMap := (OrderedMap.empty.set 1 (sampleMN 1)).set 2 (sampleMN 2)
  mnUniquePropertyMap := OrderedMap.ofEntries
    ((uniqueProperties (sampleMN 1)++uniqueProperties (sampleMN 2)).map
      (fun v => (propertyCode v,((if v∈uniqueProperties (sampleMN 1) then 1 else 2),1))))

def movedList : CDeterministicMNList where
  mnMap := OrderedMap.empty.set 1 movedMN
  mnUniquePropertyMap := OrderedMap.ofEntries
    ((uniqueProperties movedMN).map (fun v => (propertyCode v,(1,1))))

theorem reachable_pairList : Reachable propertyCode pairList := by
  have hone : Reachable propertyCode sampleList :=
    .addMN (sampleMN 1) (.empty 0 (-1)) (by decide)
  exact .addMN (sampleMN 2) hone (by decide)

/-- The first masternode moves and the second is removed. -/
theorem reachable_movedList : Reachable propertyCode movedList := by
  have hrun : (do
      let moved ← pairList.updateMN propertyCode 1 movedMN.pdmnState
      moved.removeMN propertyCode 2)=.ok movedList := by decide
  obtain ⟨moved,hmoved,hremoved⟩ := bind_eq_ok.mp hrun
  exact (reachable_pairList.updateMN _ _ hmoved).removeMN _ hremoved

/-- The list finds the first masternode by its new address only. -/
theorem reachable_uniqueProperties_sample :
    Reachable propertyCode movedList ∧
    movedList.getUniquePropertyMN propertyCode (.service (CService.ipv4 8 8 8 9 8118))=
      some movedMN ∧
    movedList.getUniquePropertyMN propertyCode (.service (CService.ipv4 8 8 8 1 8118))=none :=
  ⟨reachable_movedList,((reachable_uniqueProperties propertyCode propertyCode_injective movedList
    reachable_movedList).2.2.1 _ _).mpr ⟨by decide,by decide⟩,by decide⟩

end Pyrk.DeterministicMNList
