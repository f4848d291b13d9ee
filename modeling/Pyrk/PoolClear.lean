import Pyrk.ProTxIndexes
import Pyrk.PositionedList

/-!
# Clearing the pool

The pool keeps a vector with one slot for each entry, and indexes of addresses and outputs, which
clearing leaves. Without entries they hold nothing.
-/

namespace Pyrk.PoolClear

open List Option

open Transaction Script DeterministicMNList TxMemPool ClaimIndex OrderedMap Function
open Coins (CoinsView)
open BlockIndexes (accessCoin indexedScript IndexedScript IndexFlags CSpentIndexKey)

/-- A movement on an address by a transaction that waits. -/
structure CMempoolAddressDeltaKey where
  type : ℕ
  addressBytes : ℕ
  txhash : Uint256
  index : ℕ
  spending : Bool
  deriving DecidableEq

/-- Movements are compared part by part. -/
def CMempoolAddressDeltaKey.rank (key : CMempoolAddressDeltaKey) : ℕ×ₗ(ℕ×ₗ(Uint256×ₗ(ℕ×ₗBool))) :=
  toLex (key.type,toLex (key.addressBytes,toLex (key.txhash,toLex (key.index,key.spending))))

theorem CMempoolAddressDeltaKey.rank_injective : Function.Injective rank := by
  intro key other he
  cases key
  cases other
  obtain ⟨htype,he⟩ := Prod.mk.inj (toLex.injective he)
  obtain ⟨hbytes,he⟩ := Prod.mk.inj (toLex.injective he)
  obtain ⟨hhash,he⟩ := Prod.mk.inj (toLex.injective he)
  obtain ⟨hindex,hspending⟩ := Prod.mk.inj (toLex.injective he)
  subst htype hbytes hhash hindex hspending
  rfl

instance : LinearOrder CMempoolAddressDeltaKey :=
  LinearOrder.lift' CMempoolAddressDeltaKey.rank CMempoolAddressDeltaKey.rank_injective

/-- What is known of a movement. -/
structure CMempoolAddressDelta where
  time : ℤ
  amount : ℤ
  prevhash : Uint256 := 0
  prevout : ℕ := 0
  deriving DecidableEq

/-- Spent outputs are compared by transaction and position. -/
def spentRank (key : CSpentIndexKey) : Uint256×ₗℕ := toLex (key.txid,key.outputIndex)

theorem spentRank_injective : Function.Injective spentRank := by
  intro key other he
  cases key
  cases other
  obtain ⟨htxid,hindex⟩ := Prod.mk.inj (toLex.injective he)
  subst htxid hindex
  rfl

instance : LinearOrder CSpentIndexKey := LinearOrder.lift' spentRank spentRank_injective

/-- How an output is spent by a transaction that waits; its height is -1. -/
structure CSpentIndexValue where
  txid : Uint256
  inputIndex : ℕ
  blockHeight : ℤ
  satoshis : ℤ
  addressType : ℕ
  addressHash : ℕ
  deriving DecidableEq

/-- The pool with its slots and indexes. An iterator to an entry is the hash of
its transaction. -/
structure IndexedPool where
  /-- Entries, links and what masternode transactions claim. -/
  base : CTxMemPool := {}
  vTxHashes : List Uint256 := []
  vTxHashesIdx : OrderedMap Uint256 ℕ := .empty
  mapAddress : OrderedMap CMempoolAddressDeltaKey CMempoolAddressDelta := .empty
  mapAddressInserted : OrderedMap Uint256 (List CMempoolAddressDeltaKey) := .empty
  mapSpent : OrderedMap CSpentIndexKey CSpentIndexValue := .empty
  /-- Spent outputs that each transaction has entered. -/
  mapSpentInserted : OrderedMap Uint256 (List CSpentIndexKey) := .empty

open IndexedPool

/-- Enter what is not there yet. -/
def emplaceAll {κ ν : Type} [LinearOrder κ] (map : OrderedMap κ ν) (entries : List (κ×ν)) :
    OrderedMap κ ν :=
  entries.foldl (fun map entry => map.emplace entry.1 entry.2) map

/-- Erase what a transaction has entered, if it has. -/
def eraseInserted {κ ν : Type} [LinearOrder κ] (map : OrderedMap κ ν)
    (inserted : OrderedMap Uint256 (List κ)) (txhash : Uint256) : OrderedMap κ ν :=
  ((inserted.find txhash).getD []).foldl (fun map key => map.erase key) map

namespace IndexedPool

section Indexes

variable (hash160 : List UInt8 → ℕ)

/-- A movement, unless the script has no address. -/
def addressDelta (script : CScript) (txhash : Uint256) (index : ℕ) (spending : Bool)
    (delta : CMempoolAddressDelta) : Option (CMempoolAddressDeltaKey×CMempoolAddressDelta) :=
  let kind := indexedScript hash160 script
  if kind=.other then none
  else some (⟨kind.addressType,kind.hashBytes,txhash,index,spending⟩,delta)

/-- Movements of a transaction. -/
def addressDeltas (info : EntryInfo) (view : CoinsView) :
    List (CMempoolAddressDeltaKey×CMempoolAddressDelta) :=
  info.tx.vin.zipIdx.filterMap (fun input =>
    let prevout := (accessCoin view input.1.prevout).out
    addressDelta hash160 prevout.scriptPubKey info.tx.hash input.2 true
      ⟨info.nTime,prevout.nValue*(-1),input.1.prevout.hash,input.1.prevout.n⟩)++
  info.tx.vout.zipIdx.filterMap (fun output =>
    addressDelta hash160 output.1.scriptPubKey info.tx.hash output.2 false
      { time := info.nTime, amount := output.1.nValue })

/-- Enter the movements of a transaction. -/
def addAddressIndex (pool : IndexedPool) (info : EntryInfo) (view : CoinsView) : IndexedPool :=
  let inserted := addressDeltas hash160 info view
  { pool with
    mapAddress := emplaceAll pool.mapAddress inserted
    mapAddressInserted :=
      pool.mapAddressInserted.emplace info.tx.hash (inserted.map Prod.fst) }

def spentOutputs (info : EntryInfo) (view : CoinsView) : List (CSpentIndexKey×CSpentIndexValue) :=
  info.tx.vin.zipIdx.map (fun input =>
    let prevout := (accessCoin view input.1.prevout).out
    let kind := indexedScript hash160 prevout.scriptPubKey
    (⟨input.1.prevout.hash,input.1.prevout.n⟩,
      ⟨info.tx.hash,input.2,-1,prevout.nValue,kind.addressType,kind.hashBytes⟩))

/-- Enter the outputs that a transaction spends. -/
def addSpentIndex (pool : IndexedPool) (info : EntryInfo) (view : CoinsView) : IndexedPool :=
  let inserted := spentOutputs hash160 info view
  { pool with
    mapSpent := emplaceAll pool.mapSpent inserted
    mapSpentInserted := pool.mapSpentInserted.emplace info.tx.hash (inserted.map Prod.fst) }

end Indexes

/-- Erase the movements of a transaction. -/
def removeAddressIndex (pool : IndexedPool) (txhash : Uint256) : IndexedPool :=
  { pool with
    mapAddress := eraseInserted pool.mapAddress pool.mapAddressInserted txhash
    mapAddressInserted := pool.mapAddressInserted.erase txhash }

/-- Erase the outputs that a transaction spends. -/
def removeSpentIndex (pool : IndexedPool) (txhash : Uint256) : IndexedPool :=
  { pool with
    mapSpent := eraseInserted pool.mapSpent pool.mapSpentInserted txhash
    mapSpentInserted := pool.mapSpentInserted.erase txhash }

/-- Movements on addresses, from the first one that can be of the address on. -/
def getAddressIndex (pool : IndexedPool) (addresses : List (ℕ×ℕ)) :
    List (CMempoolAddressDeltaKey×CMempoolAddressDelta) :=
  addresses.flatMap (fun address =>
    (pool.mapAddress.entries.dropWhile
      (fun entry => decide (entry.1 < ⟨address.2,address.1,0,0,false⟩))).takeWhile
      (fun entry => entry.1.addressBytes=address.1 && entry.1.type=address.2))

def getSpentIndex (pool : IndexedPool) (key : CSpentIndexKey) : Option CSpentIndexValue :=
  pool.mapSpent.find key

def isSpent (pool : IndexedPool) (outpoint : COutPoint) : Bool :=
  pool.base.mapNextTx.contains outpoint

/-- The last slot moves to the one of an entry, whose own entry is told. -/
def releaseSlot (pool : IndexedPool) (it : Uint256) : Checked IndexedPool :=
  if 1 < pool.vTxHashes.length then
    match pool.vTxHashesIdx.find it,pool.vTxHashes[pool.vTxHashes.length-1]? with
    | some idx,some back =>
      if idx < pool.vTxHashes.length ∧ pool.base.mapTx.contains back=true then
        .ok { pool with
          vTxHashes := (pool.vTxHashes.set idx back).dropLast
          vTxHashesIdx := pool.vTxHashesIdx.set back idx }
      else .error (.assertion .nullPointer)
    | _,_ => .error (.assertion .nullPointer)
  else .ok { pool with vTxHashes := [] }

section Calls

variable (ctx : PoolContext)

/-- Add an entry without looking for conflicts, with its slot. -/
def addUnchecked (pool : IndexedPool) (entry : CTxMemPoolEntry)
    (setAncestors : OrderedSet Uint256) : Checked IndexedPool := do
  let base ← pool.base.addUnchecked ctx entry setAncestors
  .ok { pool with
    base := base
    vTxHashes := pool.vTxHashes++[entry.tx.hash]
    vTxHashesIdx := pool.vTxHashesIdx.set entry.tx.hash pool.vTxHashes.length }

/-- Remove an entry with its slot and from the indexes. -/
def removeUnchecked (pool : IndexedPool) (it : Uint256) : Checked IndexedPool := do
  let pool ← pool.releaseSlot it
  let base ← pool.base.removeUnchecked ctx it
  .ok ({ pool with
    base := base
    vTxHashesIdx := pool.vTxHashesIdx.erase it }.removeAddressIndex it |>.removeSpentIndex it)

/-- Remove entries that were chosen. -/
def removeStaged (pool : IndexedPool) (stage : OrderedSet Uint256) (updateDescendants : Bool) :
    Checked IndexedPool := do
  let base ← pool.base.updateForRemoveFromMempool stage updateDescendants
  stage.items.foldlM (removeUnchecked ctx) { pool with base := base }

/-- Remove a transaction and its descendants. If it is not there, those that spend
its outputs are removed. -/
def removeRecursive (pool : IndexedPool) (origTx : CTransaction) : Checked IndexedPool := do
  let txToRemove :=
    if pool.base.mapTx.contains origTx.hash then [origTx.hash]
    else (OrderedSet.empty.insertAll (pool.base.spendersOf origTx)).items
  assertThat .mempoolEntry (txToRemove.all (fun hash => pool.base.mapTx.contains hash))
  pool.removeStaged ctx (pool.base.withDescendants txToRemove) false

end Calls

/-- Forget the entries. Slots, indexes and some of the claims stay. -/
def clear (pool : IndexedPool) : IndexedPool :=
  { pool with base := { pool.base with
      mapLinks := .empty
      mapTx := .empty
      mapNextTx := .empty
      mapProTxAddresses := .empty
      mapProTxPubKeyIDs := .empty } }

/-- A new pool with what was added to fees. -/
def fresh (mapDeltas : OrderedMap Uint256 ℤ) : IndexedPool :=
  { base := { mapDeltas := mapDeltas } }

end IndexedPool

/-- A call of the pool. All removals choose entries and stage them, remove a
transaction with its descendants, or forget a reference. -/
inductive PoolCall where
  /-- A transaction is added and entered into the indexes that the node keeps. -/
  | accept (flags : IndexFlags) (view : CoinsView) (entry : CTxMemPoolEntry)
      (setAncestors : OrderedSet Uint256)
  | removeStaged (stage : OrderedSet Uint256) (updateDescendants : Bool)
  | removeRecursive (tx : CTransaction)
  | eraseProTxRef (reference : Uint256×Uint256)
  | prioritiseTransaction (hash : Uint256) (nFeeDelta : ℤ)
  | clearPrioritisation (hash : Uint256)
  /-- Children of transactions that were in a block are linked. -/
  | updateTransactionsFromBlock (vHashesToUpdate : List Uint256)
  | clear
  /-- Whether a masternode transaction contradicts one of the pool. -/
  | existsProviderTxConflict (tx : CTransaction)
  | getAddressIndex (addresses : List (ℕ×ℕ))
  | getSpentIndex (key : CSpentIndexKey)
  | isSpent (outpoint : COutPoint)

inductive Answer where
  | done
  | flag (found : Bool)
  | deltas (results : List (CMempoolAddressDeltaKey×CMempoolAddressDelta))
  | spent (value : Option CSpentIndexValue)
  deriving DecidableEq

section Runs

variable (hash160 : List UInt8 → ℕ)

/-- Add a transaction that is not there, as it is accepted. -/
def accept (ctx : PoolContext) (flags : IndexFlags) (view : CoinsView)
    (entry : CTxMemPoolEntry) (setAncestors : OrderedSet Uint256) (pool : IndexedPool) :
    Checked IndexedPool :=
  if pool.base.mapTx.contains entry.tx.hash then .ok pool
  else do
    let pool ← pool.addUnchecked ctx entry setAncestors
    let pool := if flags.fAddressIndex then pool.addAddressIndex hash160 entry.toEntryInfo view
      else pool
    .ok (if flags.fSpentIndex then pool.addSpentIndex hash160 entry.toEntryInfo view else pool)

/-- The pool after a call that changes it. -/
def change (ctx : PoolContext) (pool : IndexedPool) : PoolCall → Checked IndexedPool
  | .accept flags view entry setAncestors =>
    accept hash160 ctx flags view entry setAncestors pool
  | .removeStaged stage updateDescendants => pool.removeStaged ctx stage updateDescendants
  | .removeRecursive tx => pool.removeRecursive ctx tx
  | .eraseProTxRef reference => .ok { pool with base := { pool.base with
      mapProTxRefs := pool.base.mapProTxRefs.erase reference } }
  | .prioritiseTransaction hash nFeeDelta => do
    let base ← pool.base.prioritiseTransaction hash nFeeDelta
    .ok { pool with base := base }
  | .clearPrioritisation hash => .ok { pool with base := pool.base.clearPrioritisation hash }
  | .updateTransactionsFromBlock vHashesToUpdate => do
    let base ← pool.base.updateTransactionsFromBlock vHashesToUpdate
    .ok { pool with base := base }
  | .clear => .ok pool.clear
  | _ => .ok pool

def answer (ctx : PoolContext) (pool : IndexedPool) : PoolCall → Answer
  | .existsProviderTxConflict tx => .flag (pool.base.existsProviderTxConflict ctx tx)
  | .getAddressIndex addresses => .deltas (pool.getAddressIndex addresses)
  | .getSpentIndex key => .spent (pool.getSpentIndex key)
  | .isSpent outpoint => .flag (pool.isSpent outpoint)
  | _ => .done

variable (serializeHash : UniqueProperty → Uint256)

/-- Perform calls, each with the masternode list of its time, and collect the
answers. -/
def run : IndexedPool → List (CDeterministicMNList×PoolCall) → Checked (List Answer×IndexedPool)
  | pool,[] => .ok ([],pool)
  | pool,call::calls => do
    let next ← change hash160 ⟨serializeHash,call.1⟩ pool call.2
    let rest ← run next calls
    .ok (answer ⟨serializeHash,call.1⟩ pool call.2::rest.1,rest.2)

/-- Every call of a run meets a condition. -/
def RunMeets (condition : IndexedPool → PoolCall → Prop) :
    IndexedPool → List (CDeterministicMNList×PoolCall) → Prop
  | _,[] => True
  | pool,call::calls => condition pool call.2 ∧
    ∀ next, change hash160 ⟨serializeHash,call.1⟩ pool call.2=.ok next →
      RunMeets condition next calls

end Runs

/-- Every entry has one slot, and it remembers its own. -/
structure SlotsExact (pool : IndexedPool) : Prop where
  slots : Positioned pool.vTxHashes pool.vTxHashesIdx
  live : ∀ hash, hash∈pool.vTxHashes ↔ pool.base.mapTx.contains hash=true

/-- An index holds what live transactions have entered. -/
structure IndexCovered {κ ν : Type} [LinearOrder κ] (map : OrderedMap κ ν)
    (inserted : OrderedMap Uint256 (List κ)) (live : Uint256 → Prop) : Prop where
  keys : ∀ key, map.find key≠none → ∃ hash keys, inserted.find hash=some keys ∧ key∈keys
  /-- Transactions that have entered something are live. -/
  live : ∀ hash, inserted.find hash≠none → live hash

/-- A part of what a transaction of the pool claims. -/
def ClaimedBy {κ : Type} (keyHash : CBLSPublicKey → Uint256) (view : PoolView)
    (part : ProTxClaim → Option κ) (key : κ) : Prop :=
  ∃ hash claim, view.claimAt keyHash hash=some claim ∧ part claim=some key

/-- What clearing leaves of the claims is claimed by transactions of the pool. -/
structure ClaimsCovered (keyHash : CBLSPublicKey → Uint256) (view : PoolView) : Prop where
  refs : ∀ ref, ref∈view.maps.mapProTxRefs → ClaimedBy keyHash view ProTxClaim.dropped ref
  blsPubKeyHashes : ∀ key, view.maps.mapProTxBlsPubKeyHashes.find key≠none →
    ClaimedBy keyHash view ProTxClaim.keyHash key
  collaterals : ∀ outpoint, view.maps.mapProTxCollaterals.find outpoint≠none →
    ClaimedBy keyHash view ProTxClaim.collateral outpoint

/-- Nothing in the pool outlives its transaction. -/
structure Tidy (keyHash : CBLSPublicKey → Uint256) (pool : IndexedPool) : Prop where
  slots : SlotsExact pool
  address : IndexCovered pool.mapAddress pool.mapAddressInserted
    (fun hash => pool.base.mapTx.contains hash=true)
  spent : IndexCovered pool.mapSpent pool.mapSpentInserted
    (fun hash => pool.base.mapTx.contains hash=true)
  claims : ClaimsCovered keyHash pool.base.view

section Covered

variable {κ ν : Type} [LinearOrder κ] {map : OrderedMap κ ν}
  {inserted : OrderedMap Uint256 (List κ)} {live next : Uint256 → Prop}

theorem find_emplaceAll (map : OrderedMap κ ν) (entries : List (κ×ν)) {key : κ}
    (hfind : (emplaceAll map entries).find key≠none) :
    map.find key≠none ∨ key∈entries.map Prod.fst := by
  induction entries generalizing map with
  | nil => exact .inl hfind
  | cons entry entries ih =>
    rw [map_cons,mem_cons]
    rcases ih (map.emplace entry.1 entry.2) hfind with hmap | hmem
    · rw [find_emplace] at hmap
      split_ifs at hmap with heq
      · exact .inr (.inl heq)
      · exact .inl hmap
    · exact .inr (.inr hmem)

section

variable (h : IndexCovered map inserted live)

include h

theorem IndexCovered.add {hash : Uint256}
    (hnew : ¬live hash) (hlive : ∀ other, live other → next other) (hnext : next hash)
    (entries : List (κ×ν)) :
    IndexCovered (emplaceAll map entries) (inserted.emplace hash (entries.map Prod.fst)) next := by
  have hnone : inserted.find hash=none := by
    by_contra hsome
    exact hnew (h.live hash hsome)
  constructor
  · intro key hfind
    rcases find_emplaceAll map entries hfind with hmap | hmem
    · obtain ⟨other,keys,hother,hkey⟩ := h.keys key hmap
      refine ⟨other,keys,?_,hkey⟩
      have hne : other≠hash := fun heq => by rw [heq,hnone] at hother; cases hother
      rw [find_emplace,if_neg hne,hother]
    · refine ⟨hash,_,?_,hmem⟩
      rw [find_emplace,if_pos rfl,hnone,getD_none]
  · intro other hfind
    rw [find_emplace] at hfind
    split_ifs at hfind with heq
    · rw [heq]
      exact hnext
    · exact hlive other (h.live other hfind)

theorem IndexCovered.remove {hash : Uint256}
    (hlive : ∀ other, other≠hash → live other → next other) :
    IndexCovered (eraseInserted map inserted hash) (inserted.erase hash) next := by
  constructor
  · intro key hfind
    rw [eraseInserted,find_foldl_erase] at hfind
    split_ifs at hfind with hmem
    · exact absurd rfl hfind
    · obtain ⟨other,keys,hother,hkey⟩ := h.keys key hfind
      refine ⟨other,keys,?_,hkey⟩
      have hne : other≠hash := by
        grind
      rw [find_erase,if_neg hne,hother]
  · intro other hfind
    rw [find_erase] at hfind
    split_ifs at hfind with heq
    · exact absurd rfl hfind
    · exact hlive other heq (h.live other hfind)

theorem IndexCovered.mono
    (hlive : ∀ other, live other → next other) : IndexCovered map inserted next :=
  ⟨h.keys,fun other hfind => hlive other (h.live other hfind)⟩

theorem IndexCovered.empty (hlive : ∀ hash, ¬live hash) :
    map=.empty ∧ inserted=.empty := by
  have hinserted : ∀ hash, inserted.find hash=none := by
    intro hash
    by_contra hsome
    exact hlive hash (h.live hash hsome)
  constructor
  · refine ext_find (fun key => ?_)
    by_contra hsome
    obtain ⟨hash,keys,hfind,-⟩ := h.keys key hsome
    rw [hinserted] at hfind
    cases hfind
  · exact ext_find hinserted

end

end Covered

section Claims

variable {ctx : PoolContext} {keyHash : CBLSPublicKey → Uint256} {view next : PoolView}

variable {hash : Uint256}

theorem ClaimedBy.removed {κ : Type} {part : ProTxClaim → Option κ} {key : κ}
    (h : ClaimedBy keyHash view part key) {claim : ProTxClaim}
    (hclaim : view.claimAt keyHash hash=some claim) (hkey : part claim≠some key)
    (hinfos : next.infos=Function.update view.infos hash none) :
    ClaimedBy keyHash next part key := by
  obtain ⟨other,found,hfound,hpart⟩ := h
  have hne : other≠hash := by
    intro heq
    rw [heq,hclaim] at hfound
    cases hfound
    exact hkey hpart
  refine ⟨other,found,?_,hpart⟩
  unfold PoolView.claimAt at hfound ⊢
  rw [hinfos,update_of_ne hne]
  exact hfound

theorem find_eraseKey {κ ω : Type} [LinearOrder κ] {index : OrderedMap κ ω} {wanted : Option κ}
    {key : κ} (hfind : (eraseKey index wanted).find key≠none) :
    index.find key≠none ∧ wanted≠some key := by
  cases wanted with
  | none => exact ⟨hfind,some_ne_none key ∘ Eq.symm⟩
  | some erased =>
    rw [eraseKey,find_erase] at hfind
    grind

theorem find_emplaceKey {κ ω : Type} [LinearOrder κ] {index : OrderedMap κ ω} {wanted : Option κ}
    {owner : ω} {key : κ} (hfind : (emplaceKey index wanted owner).find key≠none) :
    index.find key≠none ∨ wanted=some key := by
  cases wanted with
  | none => exact .inl hfind
  | some added =>
    rw [emplaceKey,find_emplace] at hfind
    split_ifs at hfind with heq
    · exact .inr (by rw [heq])
    · exact .inl hfind

theorem ClaimsCovered.removed (h : ClaimsCovered ctx.keyHash view)
    (hremoved : Removed ctx hash view next) : ClaimsCovered ctx.keyHash next := by
  obtain ⟨info,hinfo,herase,hinfos,-⟩ := hremoved
  have hnull : ∀ outpoint : COutPoint, outpoint.hash=0 →
      view.maps.mapProTxCollaterals.find outpoint=none := by
    intro outpoint hzero
    by_contra hsome
    obtain ⟨other,found,hfound,hpart⟩ := h.collaterals outpoint hsome
    obtain ⟨otherInfo,-,hother⟩ := claimAt_eq_some.mp hfound
    exact claimOf_collateral hother hpart hzero
  obtain ⟨claim,hclaim,hmaps⟩ := eraseProTx_ok hnull herase
  have hat : view.claimAt ctx.keyHash hash=some claim :=
    claimAt_eq_some.mpr ⟨info,hinfo,hclaim⟩
  constructor
  · intro ref hmem
    rw [hmaps,ProTxMaps.forget,mem_filter,Bool.not_eq_true',decide_eq_false_iff_not] at hmem
    exact (h.refs ref hmem.1).removed hat hmem.2 hinfos
  · intro key hfind
    rw [hmaps,ProTxMaps.forget] at hfind
    obtain ⟨hold,hne⟩ := find_eraseKey hfind
    exact (h.blsPubKeyHashes key hold).removed hat hne hinfos
  · intro outpoint hfind
    rw [hmaps,ProTxMaps.forget] at hfind
    obtain ⟨hold,hne⟩ := find_eraseKey hfind
    exact (h.collaterals outpoint hold).removed hat hne hinfos

theorem ClaimsCovered.added (h : ClaimsCovered ctx.keyHash view)
    {info : EntryInfo} (hnew : view.infos hash=none)
    (hinfos : next.infos=Function.update view.infos hash (some info))
    (hadd : CTxMemPool.addProTx ctx view.maps info.tx=.ok next.maps) :
    ClaimsCovered ctx.keyHash next := by
  obtain ⟨claim,hclaim,hmaps⟩ := addProTx_ok hadd
  have hat : next.claimAt ctx.keyHash hash=some claim :=
    claimAt_eq_some.mpr ⟨info,by rw [hinfos,update_self],hclaim⟩
  have hold : ∀ {κ : Type} {part : ProTxClaim → Option κ} {key : κ},
      ClaimedBy ctx.keyHash view part key → ClaimedBy ctx.keyHash next part key := by
    intro κ part key hclaimed
    obtain ⟨other,found,hfound,hpart⟩ := hclaimed
    have hne : other≠hash := by
      intro heq
      rw [heq,PoolView.claimAt,hnew] at hfound
      cases hfound
    refine ⟨other,found,?_,hpart⟩
    unfold PoolView.claimAt at hfound ⊢
    rw [hinfos,update_of_ne hne]
    exact hfound
  constructor
  · intro ref hmem
    rw [hmaps,ProTxMaps.record,mem_append,mem_toList] at hmem
    rcases hmem with hmem | href
    · exact hold (h.refs ref hmem)
    · exact ⟨hash,claim,hat,claimOf_dropped hclaim href⟩
  · intro key hfind
    rw [hmaps,ProTxMaps.record] at hfind
    rcases find_emplaceKey hfind with hfind | hkey
    · exact hold (h.blsPubKeyHashes key hfind)
    · exact ⟨hash,claim,hat,hkey⟩
  · intro outpoint hfind
    rw [hmaps,ProTxMaps.record] at hfind
    rcases find_emplaceKey hfind with hfind | hkey
    · exact hold (h.collaterals outpoint hfind)
    · exact ⟨hash,claim,hat,hkey⟩

end Claims

section Steps

variable {ctx : PoolContext} {keyHash : CBLSPublicKey → Uint256} {pool next : IndexedPool}

theorem contains_of_view {first second : CTxMemPool} (hview : first.view=second.view)
    (hash : Uint256) : first.mapTx.contains hash=true ↔ second.mapTx.contains hash=true := by
  rw [CTxMemPool.contains_iff_view,CTxMemPool.contains_iff_view,hview]

theorem Tidy.rebase (h : Tidy keyHash pool) {base : CTxMemPool}
    (hview : base.view=pool.base.view) : Tidy keyHash { pool with base := base } where
  slots := ⟨h.slots.slots,fun hash =>
    (h.slots.live hash).trans (contains_of_view hview hash).symm⟩
  address := h.address.mono (fun hash => (contains_of_view hview hash).mpr)
  spent := h.spent.mono (fun hash => (contains_of_view hview hash).mpr)
  claims := by
    rw [hview]
    exact h.claims

variable {it : Uint256}

theorem releaseSlot_ok (h : SlotsExact pool) (hlive : pool.base.mapTx.contains it=true) :
    ∃ slots idx, pool.releaseSlot it=.ok { pool with vTxHashes := slots, vTxHashesIdx := idx } ∧
      Positioned slots (idx.erase it) ∧ ∀ hash, hash∈slots ↔ hash≠it ∧ hash∈pool.vTxHashes := by
  have hmem := (h.live it).mpr hlive
  obtain ⟨i,hi⟩ := mem_iff_getElem?.mp hmem
  have hfind := (h.slots.index i it).mp hi
  have hlen := h.slots.lt_length hfind
  obtain ⟨back,hback⟩ : ∃ back, pool.vTxHashes[pool.vTxHashes.length-1]?=some back :=
    ⟨_,List.getElem?_eq_getElem (by omega)⟩
  have hbackFind := (h.slots.index _ back).mp hback
  have hmove := h.slots.moveLast hi hback
  have hslots : ∀ hash, hash∈(pool.vTxHashes.set i back).dropLast ↔
      hash≠it ∧ hash∈pool.vTxHashes := by
    intro hash
    rw [hmove.mem_iff,h.slots.mem_iff,find_erase,find_set]
    grind
  unfold releaseSlot
  split_ifs with hmany
  · rw [hfind,hback]
    dsimp only
    rw [if_pos ⟨hlen,(h.live back).mp (mem_of_getElem? hback)⟩]
    exact ⟨_,_,rfl,hmove,hslots⟩
  · have hone : pool.vTxHashes.length=1 := by omega
    have hempty : (pool.vTxHashes.set i back).dropLast=[] := by
      rw [← length_eq_zero_iff,length_dropLast,length_set,hone]
    have hit : it=back := by
      grind
    rw [hempty,← hit,set_find hfind] at hmove
    rw [hempty] at hslots
    exact ⟨_,_,rfl,hmove,hslots⟩

theorem releaseSlot_base (hok : pool.releaseSlot it=.ok next) : next.base=pool.base := by
  unfold releaseSlot at hok
  grind

theorem contains_of_removed {first second : CTxMemPool}
    (hremoved : Removed ctx it first.view second.view) :
    first.mapTx.contains it=true ∧
      ∀ hash, second.mapTx.contains hash=true ↔ hash≠it ∧ first.mapTx.contains hash=true := by
  obtain ⟨info,hinfo,-,hinfos,-⟩ := hremoved
  refine ⟨CTxMemPool.contains_iff_view.mpr ⟨info,hinfo⟩,fun hash => ?_⟩
  rw [CTxMemPool.contains_iff_view,CTxMemPool.contains_iff_view,hinfos]
  grind

theorem Tidy.removeUnchecked (h : Tidy ctx.keyHash pool)
    (hok : pool.removeUnchecked ctx it=.ok next) : Tidy ctx.keyHash next := by
  obtain ⟨released,hreleased,hok⟩ := bind_eq_ok.mp hok
  obtain ⟨base,hbase,hok⟩ := bind_eq_ok.mp hok
  rw [releaseSlot_base hreleased] at hbase
  have hremoved := CTxMemPool.removed_removeUnchecked hbase
  obtain ⟨hthere,hhas⟩ := contains_of_removed hremoved
  obtain ⟨slots,idx,hslot,hpositioned,hmem⟩ := releaseSlot_ok h.slots hthere
  rw [hslot] at hreleased
  cases hreleased
  cases hok
  have hlive : ∀ other, other≠it → pool.base.mapTx.contains other=true →
      base.mapTx.contains other=true :=
    fun other hne hother => (hhas other).mpr ⟨hne,hother⟩
  refine ⟨⟨hpositioned,fun hash => ?_⟩,h.address.remove hlive,h.spent.remove hlive,
    h.claims.removed hremoved⟩
  exact (hmem hash).trans (((and_congr_right (fun _ => h.slots.live hash))).trans
    (hhas hash).symm)

theorem Tidy.removeStaged (h : Tidy ctx.keyHash pool) {stage : OrderedSet Uint256}
    {updateDescendants : Bool} (hok : pool.removeStaged ctx stage updateDescendants=.ok next) :
    Tidy ctx.keyHash next := by
  obtain ⟨base,hbase,hok⟩ := bind_eq_ok.mp hok
  exact @foldlM_invariant _ _ _ _ (Tidy ctx.keyHash) _
    (fun _ htidy hstep => htidy.removeUnchecked hstep) _ _
    (h.rebase (CTxMemPool.view_updateForRemoveFromMempool hbase)) hok

theorem Tidy.accept {hash160 : List UInt8 → ℕ} {flags : IndexFlags} {view : CoinsView}
    {entry : CTxMemPoolEntry} {setAncestors : OrderedSet Uint256} (h : Tidy ctx.keyHash pool)
    (hok : PoolClear.accept hash160 ctx flags view entry setAncestors pool=.ok next) :
    Tidy ctx.keyHash next := by
  unfold PoolClear.accept at hok
  cases hthere : pool.base.mapTx.contains entry.tx.hash with
  | true =>
    rw [hthere,if_pos rfl] at hok
    cases hok
    exact h
  | false =>
    rw [hthere,if_neg Bool.false_ne_true] at hok
    obtain ⟨added,hadded,hok⟩ := bind_eq_ok.mp hok
    obtain ⟨base,hbase,hadded⟩ := bind_eq_ok.mp hadded
    cases hadded
    obtain ⟨info,htx,-,hinfos,hmaps,-⟩ := CTxMemPool.view_addUnchecked hthere hbase
    have hnew : pool.base.view.infos entry.tx.hash=none := by
      by_contra hsome
      obtain ⟨found,hfound⟩ := ne_none_iff_exists'.mp hsome
      rw [CTxMemPool.contains_iff_view.mpr ⟨found,hfound⟩] at hthere
      cases hthere
    have hhas : ∀ hash, base.mapTx.contains hash=true ↔
        hash=entry.tx.hash ∨ pool.base.mapTx.contains hash=true := by
      intro hash
      rw [CTxMemPool.contains_iff_view,CTxMemPool.contains_iff_view,hinfos]
      grind
    have hplace : pool.vTxHashesIdx.find entry.tx.hash=none := by
      by_contra hsome
      have hmem := (h.slots.slots.mem_iff entry.tx.hash).mpr (isSome_iff_ne_none.mpr hsome)
      rw [(h.slots.live _).mp hmem] at hthere
      cases hthere
    have hslots : SlotsExact { pool with
        base := base
        vTxHashes := pool.vTxHashes++[entry.tx.hash]
        vTxHashesIdx := pool.vTxHashesIdx.set entry.tx.hash pool.vTxHashes.length } := by
      refine ⟨h.slots.slots.append hplace,fun hash => ?_⟩
      rw [mem_append,mem_singleton,h.slots.live,hhas,or_comm]
    have hclaims : ClaimsCovered ctx.keyHash base.view :=
      h.claims.added hnew hinfos (htx ▸ hmaps)
    have hlive : ∀ other, pool.base.mapTx.contains other=true → base.mapTx.contains other=true :=
      fun other hother => (hhas other).mpr (.inr hother)
    have hself := (hhas entry.tx.hash).mpr (.inl rfl)
    have habsent : ¬pool.base.mapTx.contains entry.tx.hash=true := by
      rw [hthere]
      exact Bool.false_ne_true
    cases hok
    cases flags.fAddressIndex <;> cases flags.fSpentIndex
    · exact ⟨hslots,h.address.mono hlive,h.spent.mono hlive,hclaims⟩
    · exact ⟨⟨hslots.slots,hslots.live⟩,h.address.mono hlive,
      h.spent.add habsent hlive hself _,hclaims⟩
    · exact ⟨⟨hslots.slots,hslots.live⟩,h.address.add habsent hlive hself _,
      h.spent.mono hlive,hclaims⟩
    · exact ⟨⟨hslots.slots,hslots.live⟩,h.address.add habsent hlive hself _,
        h.spent.add habsent hlive hself _,hclaims⟩

/-- Nothing is left of a tidy pool without transactions when it is cleared. -/
theorem Tidy.clear_eq_fresh (h : Tidy keyHash pool) (hempty : pool.base.mapTx=.empty) :
    pool.clear=fresh pool.base.mapDeltas := by
  have hlive : ∀ hash, ¬pool.base.mapTx.contains hash=true := by
    intro hash
    rw [hempty]
    exact Bool.false_ne_true
  have hclaimed : ∀ {κ : Type} {part : ProTxClaim → Option κ} {key : κ},
      ¬ClaimedBy keyHash pool.base.view part key := by
    intro κ part key hclaimed
    obtain ⟨hash,claim,hclaim,-⟩ := hclaimed
    obtain ⟨info,hinfo,-⟩ := claimAt_eq_some.mp hclaim
    exact hlive hash (CTxMemPool.contains_iff_view.mpr ⟨info,hinfo⟩)
  obtain ⟨haddress,hinserted⟩ := h.address.empty hlive
  obtain ⟨hspent,hspentInserted⟩ := h.spent.empty hlive
  have hslots : pool.vTxHashes=[] :=
    eq_nil_iff_forall_not_mem.mpr (fun hash hmem => hlive hash ((h.slots.live hash).mp hmem))
  have hidx : pool.vTxHashesIdx=.empty := by
    refine ext_find (fun hash => ?_)
    by_contra hsome
    exact hlive hash ((h.slots.live hash).mp
      ((h.slots.slots.mem_iff hash).mpr (isSome_iff_ne_none.mpr hsome)))
  have hrefs : pool.base.mapProTxRefs=[] :=
    eq_nil_iff_forall_not_mem.mpr (fun ref hmem => hclaimed (h.claims.refs ref hmem))
  have hkeys : pool.base.mapProTxBlsPubKeyHashes=.empty := by
    refine ext_find (fun key => ?_)
    by_contra hsome
    exact hclaimed (h.claims.blsPubKeyHashes key hsome)
  have hcollaterals : pool.base.mapProTxCollaterals=.empty := by
    refine ext_find (fun outpoint => ?_)
    by_contra hsome
    exact hclaimed (h.claims.collaterals outpoint hsome)
  obtain ⟨base,vTxHashes,vTxHashesIdx,mapAddress,mapAddressInserted,mapSpent,mapSpentInserted⟩ :=
    pool
  obtain ⟨maps,mapTx,mapLinks,mapNextTx,mapDeltas⟩ := base
  obtain ⟨refs,addresses,pubKeyIDs,blsPubKeyHashes,collaterals⟩ := maps
  dsimp only at *
  subst haddress hinserted hspent hspentInserted hslots hidx hrefs hkeys hcollaterals
  rfl

theorem tidy_fresh (keyHash : CBLSPublicKey → Uint256) (mapDeltas : OrderedMap Uint256 ℤ) :
    Tidy keyHash (fresh mapDeltas) where
  slots := ⟨Positioned.nil,fun _ =>
    iff_of_false not_mem_nil Bool.false_ne_true⟩
  address := ⟨fun _ hfind => absurd rfl hfind,fun _ hfind => absurd rfl hfind⟩
  spent := ⟨fun _ hfind => absurd rfl hfind,fun _ hfind => absurd rfl hfind⟩
  claims := ⟨fun _ hmem => absurd hmem not_mem_nil,fun _ hfind => absurd rfl hfind,
    fun _ hfind => absurd rfl hfind⟩

/-- The pool is only cleared while it has no transactions. -/
def ClearsEmpty (pool : IndexedPool) (call : PoolCall) : Prop :=
  call=.clear → pool.base.mapTx=.empty

theorem Tidy.change {hash160 : List UInt8 → ℕ} {call : PoolCall} (h : Tidy ctx.keyHash pool)
    (hclear : ClearsEmpty pool call)
    (hok : PoolClear.change hash160 ctx pool call=.ok next) : Tidy ctx.keyHash next := by
  cases call with
  | accept flags view entry setAncestors => exact h.accept hok
  | removeStaged stage updateDescendants => exact h.removeStaged hok
  | removeRecursive tx =>
    obtain ⟨-,-,hok⟩ := bind_eq_ok.mp hok
    exact h.removeStaged hok
  | eraseProTxRef reference =>
    cases hok
    exact ⟨⟨h.slots.slots,h.slots.live⟩,h.address,h.spent,
      ⟨fun ref hmem => h.claims.refs ref (mem_of_mem_erase hmem),
        h.claims.blsPubKeyHashes,h.claims.collaterals⟩⟩
  | prioritiseTransaction hash nFeeDelta =>
    obtain ⟨base,hbase,hok⟩ := bind_eq_ok.mp hok
    cases hok
    exact h.rebase (CTxMemPool.view_prioritiseTransaction hbase)
  | clearPrioritisation hash =>
    cases hok
    exact h.rebase rfl
  | updateTransactionsFromBlock vHashesToUpdate =>
    obtain ⟨base,hbase,hok⟩ := bind_eq_ok.mp hok
    cases hok
    exact h.rebase (CTxMemPool.view_updateTransactionsFromBlock hbase)
  | clear =>
    cases hok
    rw [h.clear_eq_fresh (hclear rfl)]
    exact tidy_fresh _ _
  | existsProviderTxConflict tx => cases hok; exact h
  | getAddressIndex addresses => cases hok; exact h
  | getSpentIndex key => cases hok; exact h
  | isSpent outpoint => cases hok; exact h

end Steps

variable {hash160 : List UInt8 → ℕ} {serializeHash : UniqueProperty → Uint256}

variable {calls : List (CDeterministicMNList×PoolCall)}

theorem Tidy.run {pool final : IndexedPool}
    {answers : List Answer} (h : Tidy (fun key => serializeHash (.operator key)) pool)
    (hclears : RunMeets hash160 serializeHash ClearsEmpty pool calls)
    (hrun : PoolClear.run hash160 serializeHash pool calls=.ok (answers,final)) :
    Tidy (fun key => serializeHash (.operator key)) final := by
  induction calls generalizing pool answers with
  | nil =>
    cases hrun
    exact h
  | cons call calls ih =>
    obtain ⟨next,hnext,hrun⟩ := bind_eq_ok.mp hrun
    obtain ⟨rest,hrest,hrun⟩ := bind_eq_ok.mp hrun
    cases hrun
    have htidy := @Tidy.change ⟨serializeHash,call.1⟩ pool next hash160 call.2 h hclears.1 hnext
    exact ih htidy (hclears.2 next hnext) hrest

theorem runMeets_of_no_clear (pool : IndexedPool) (hcalls : ∀ call∈calls, call.2≠.clear) :
    RunMeets hash160 serializeHash ClearsEmpty pool calls := by
  induction calls generalizing pool with
  | nil => exact trivial
  | cons call calls ih =>
    exact ⟨fun hclear => absurd hclear (hcalls call mem_cons_self),
      fun next _ => ih next (fun other hmem => hcalls other (mem_cons_of_mem _ hmem))⟩

/-- A cleared pool answers every later sequence of calls as a new pool does, and
each entry has one slot, its own. -/
def BehavesFresh (hash160 : List UInt8 → ℕ) (serializeHash : UniqueProperty → Uint256)
    (pool : IndexedPool) : Prop :=
  ∀ calls : List (CDeterministicMNList×PoolCall), (∀ call∈calls, call.2≠.clear) →
    (run hash160 serializeHash pool.clear calls).map Prod.fst=
        (run hash160 serializeHash (fresh pool.base.mapDeltas) calls).map Prod.fst ∧
      ∀ answers next, run hash160 serializeHash pool.clear calls=.ok (answers,next) →
        SlotsExact next

/-- A pool that was cleared without transactions behaves as a new one when it is cleared again, if
and only if it has none. -/
theorem run_clear_fresh {calls : List (CDeterministicMNList×PoolCall)} {answers : List Answer}
    {pool : IndexedPool} (hclears : RunMeets hash160 serializeHash ClearsEmpty {} calls)
    (hrun : run hash160 serializeHash {} calls=.ok (answers,pool)) :
    BehavesFresh hash160 serializeHash pool ↔ pool.base.mapTx=.empty := by
  have htidy : Tidy (fun key => serializeHash (.operator key)) pool :=
    Tidy.run (tidy_fresh _ .empty) hclears hrun
  constructor
  · intro hfresh
    have hslots := (hfresh [] (fun call hmem => absurd hmem not_mem_nil)).2 [] pool.clear rfl
    refine ext_find (fun hash => ?_)
    by_contra hsome
    have hlive : pool.base.mapTx.contains hash=true := isSome_iff_ne_none.mpr hsome
    have hgone := (hslots.live hash).mp ((htidy.slots.live hash).mpr hlive)
    cases hgone
  · intro hempty later hlater
    rw [htidy.clear_eq_fresh hempty]
    refine ⟨rfl,fun answers next hnext => ?_⟩
    exact (Tidy.run (tidy_fresh _ _) (runMeets_of_no_clear _ hlater) hnext).slots

/-- A transaction is accepted without limits and indexes. -/
def offer (hash : Uint256) : CDeterministicMNList×PoolCall :=
  ({},.accept ⟨false,false,false⟩ .empty (CTxMemPoolEntry.create
    { tx := { vin := [{ prevout := ⟨3,0⟩ }], hash := hash,
              payload_special := CTransaction.payload_plain }
      nTxSize := 1, nTxSize_pos := Nat.one_pos }) .empty)

/-- A transaction comes and goes, and the pool is like new when it is cleared. -/
theorem run_clear_fresh_offer : ∃ answers pool,
    run (fun _ => 0) (fun _ => 5) {} [offer 7,({},.removeStaged (OrderedSet.empty.insert 7) true)]=
      .ok (answers,pool) ∧ BehavesFresh (fun _ => 0) (fun _ => 5) pool := by
  have hcheck : ((run (fun _ => 0) (fun _ => 5) {}
      [offer 7,({},.removeStaged (OrderedSet.empty.insert 7) true)]).map
        (fun result => result.2.base.mapTx)).toOption=some .empty := rfl
  obtain ⟨⟨answers,pool⟩,hrun⟩ := @exists_ok _ _ (run (fun _ => 0) (fun _ => 5) {}
    [offer 7,({},.removeStaged (OrderedSet.empty.insert 7) true)]) rfl
  rw [hrun] at hcheck
  refine ⟨answers,pool,hrun,(run_clear_fresh (runMeets_of_no_clear _ ?_) hrun).mpr
    (some.inj hcheck)⟩
  intro call hmem
  rcases mem_pair.mp hmem with rfl | rfl
  · exact PoolCall.noConfusion
  · exact PoolCall.noConfusion

/-- The slot of a transaction that waits is still there when the pool was cleared. -/
theorem clear_keeps_slot :
    ¬∀ calls answers pool, run (fun _ => 0) (fun _ => 5) {} calls=.ok (answers,pool) →
      BehavesFresh (fun _ => 0) (fun _ => 5) pool := by
  intro hall
  have hcheck : ((run (fun _ => 0) (fun _ => 5) {} [offer 7]).map
      (fun result => result.2.clear.vTxHashes)).toOption=some [7] := rfl
  obtain ⟨⟨answers,pool⟩,hrun⟩ := @exists_ok _ _ (run (fun _ => 0) (fun _ => 5) {} [offer 7]) rfl
  rw [hrun] at hcheck
  have hslots := (hall [offer 7] answers pool hrun []
    (fun call hmem => absurd hmem not_mem_nil)).2 [] pool.clear rfl
  have hslot : pool.clear.vTxHashes=[7] := some.inj hcheck
  have hgone := (hslots.live 7).mp (by rw [hslot]; exact mem_singleton.mpr rfl)
  cases hgone

end Pyrk.PoolClear
