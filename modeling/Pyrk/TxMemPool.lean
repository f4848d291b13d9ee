import Pyrk.ConnectBlock
import Pyrk.OrderedSet

/-!
# The memory pool

Transactions that wait for a block, with links between parents and children and totals over
ancestors and descendants, which every change keeps up step by step.
-/

namespace Pyrk.TxMemPool

open Transaction Script NetAddress DeterministicMNList
open Coins (CoinsView)
open BlockIndexes (accessCoin)
open ConnectBlock (coinbaseMaturity)

/-- Addresses are compared by their bytes and then by their port. -/
def serviceKey (addr : CService) : ℕ×ₗℕ := toLex (littleEndian addr.ip.reverse,addr.port)

theorem serviceKey_injective : Function.Injective serviceKey := by
  rintro ⟨ip,port,hlen⟩ ⟨otherIp,otherPort,hother⟩ he
  obtain ⟨hbytes,hport⟩ := Prod.mk.inj (toLex.injective he)
  have hreverse := littleEndian_injective (by simp [hlen,hother]) hbytes
  rw [List.reverse_inj] at hreverse
  subst hreverse hport
  rfl

instance : LinearOrder CService := LinearOrder.lift' serviceKey serviceKey_injective

/-- What an entry says of its own transaction. -/
structure EntryInfo where
  tx : CTransaction
  nFee : ℤ := 0
  nTxSize : ℕ
  nTxSize_pos : 0 < nTxSize
  nTime : ℤ := 0
  spendsCoinbase : Bool := false
  sigOpCount : ℕ := 0
  feeDelta : ℤ := 0
  /-- Hash of the operator key that an update was valid for. -/
  validForProTxKey : Uint256 := 0
  isKeyChangeProTx : Bool := false

structure CTxMemPoolEntry extends EntryInfo where
  nCountWithDescendants : ℤ
  nSizeWithDescendants : ℤ
  nModFeesWithDescendants : ℤ
  nCountWithAncestors : ℤ
  nSizeWithAncestors : ℤ
  nModFeesWithAncestors : ℤ
  nSigOpCountWithAncestors : ℤ

open CTxMemPoolEntry

/-- Fee with what was added to it. -/
def EntryInfo.getModifiedFee (info : EntryInfo) : ℤ := info.nFee+info.feeDelta

namespace CTxMemPoolEntry

/-- A new entry counts only itself, and nothing was added to its fee. -/
def create (info : EntryInfo) : CTxMemPoolEntry where
  toEntryInfo := { info with feeDelta := 0, validForProTxKey := 0, isKeyChangeProTx := false }
  nCountWithDescendants := 1
  nSizeWithDescendants := info.nTxSize
  nModFeesWithDescendants := info.nFee
  nCountWithAncestors := 1
  nSizeWithAncestors := info.nTxSize
  nModFeesWithAncestors := info.nFee
  nSigOpCountWithAncestors := info.sigOpCount

/-- Change what is added to the fee. -/
def updateFeeDelta (newFeeDelta : ℤ) (entry : CTxMemPoolEntry) : CTxMemPoolEntry :=
  { entry with
    nModFeesWithDescendants := entry.nModFeesWithDescendants+(newFeeDelta-entry.feeDelta)
    nModFeesWithAncestors := entry.nModFeesWithAncestors+(newFeeDelta-entry.feeDelta)
    feeDelta := newFeeDelta }

/-- Change the totals over the descendants. -/
def updateDescendantState (modifySize modifyFee modifyCount : ℤ) (entry : CTxMemPoolEntry) :
    Checked CTxMemPoolEntry := do
  assertThat .descendantState (0 < entry.nSizeWithDescendants+modifySize)
  assertThat .descendantState (0 < entry.nCountWithDescendants+modifyCount)
  .ok { entry with
    nSizeWithDescendants := entry.nSizeWithDescendants+modifySize
    nModFeesWithDescendants := entry.nModFeesWithDescendants+modifyFee
    nCountWithDescendants := entry.nCountWithDescendants+modifyCount }

/-- Change the totals over the ancestors. -/
def updateAncestorState (modifySize modifyFee modifyCount modifySigOps : ℤ)
    (entry : CTxMemPoolEntry) : Checked CTxMemPoolEntry := do
  assertThat .ancestorState (0 < entry.nSizeWithAncestors+modifySize)
  assertThat .ancestorState (0 < entry.nCountWithAncestors+modifyCount)
  assertThat .ancestorState (0≤entry.nSigOpCountWithAncestors+modifySigOps)
  .ok { entry with
    nSizeWithAncestors := entry.nSizeWithAncestors+modifySize
    nModFeesWithAncestors := entry.nModFeesWithAncestors+modifyFee
    nCountWithAncestors := entry.nCountWithAncestors+modifyCount
    nSigOpCountWithAncestors := entry.nSigOpCountWithAncestors+modifySigOps }

end CTxMemPoolEntry

/-- Parents and children of an entry in the pool. -/
structure TxLinks where
  parents : OrderedSet Uint256 := .empty
  children : OrderedSet Uint256 := .empty

/-- Where masternode transactions of the pool are found. -/
structure ProTxMaps where
  /-- Transactions that refer to a registration, in the order of arrival. -/
  mapProTxRefs : List (Uint256×Uint256) := []
  mapProTxAddresses : OrderedMap CService Uint256 := .empty
  mapProTxPubKeyIDs : OrderedMap CKeyID Uint256 := .empty
  mapProTxBlsPubKeyHashes : OrderedMap Uint256 Uint256 := .empty
  /-- Transactions by collateral that is not their own output. -/
  mapProTxCollaterals : OrderedMap COutPoint Uint256 := .empty

/-- The pool. Entries and links are found by the hash of the transaction. -/
structure CTxMemPool extends ProTxMaps where
  mapTx : OrderedMap Uint256 CTxMemPoolEntry := .empty
  mapLinks : OrderedMap Uint256 TxLinks := .empty
  mapNextTx : OrderedMap COutPoint CTransaction := .empty
  /-- What is added to fees, also of transactions that are not there yet. -/
  mapDeltas : OrderedMap Uint256 ℤ := .empty

/-- What the pool reads of the node. -/
structure PoolContext where
  /-- Hashes of what masternodes have for themselves. -/
  serializeHash : UniqueProperty → Uint256
  mnList : CDeterministicMNList

def PoolContext.keyHash (ctx : PoolContext) (pubKey : CBLSPublicKey) : Uint256 :=
  ctx.serializeHash (.operator pubKey)

namespace CTxMemPool

section Links

variable (pool : CTxMemPool)

def linksOf (hash : Uint256) : TxLinks := (pool.mapLinks.find hash).getD {}

def getMemPoolParents (hash : Uint256) : OrderedSet Uint256 :=
  (pool.linksOf hash).parents

def getMemPoolChildren (hash : Uint256) : OrderedSet Uint256 :=
  (pool.linksOf hash).children

/-- Change the links of an entry. -/
def modifyLinks (hash : Uint256) (change : TxLinks → TxLinks) : CTxMemPool :=
  { pool with mapLinks := pool.mapLinks.set hash (change (pool.linksOf hash)) }

/-- Add or remove a child of an entry. -/
def updateChild (entry child : Uint256) (add : Bool) : CTxMemPool :=
  pool.modifyLinks entry (fun links => { links with
    children := if add then links.children.insert child else links.children.erase child })

/-- Add or remove a parent of an entry. -/
def updateParent (entry parent : Uint256) (add : Bool) : CTxMemPool :=
  pool.modifyLinks entry (fun links => { links with
    parents := if add then links.parents.insert parent else links.parents.erase parent })

end Links

section Entries

variable (pool : CTxMemPool)

/-- A number of an entry. -/
def valueOf (hash : Uint256) (value : CTxMemPoolEntry → ℤ) : ℤ :=
  ((pool.mapTx.find hash).map value).getD 0

def modifyEntry (hash : Uint256)
    (change : CTxMemPoolEntry → Checked CTxMemPoolEntry) : Checked CTxMemPool :=
  match pool.mapTx.find hash with
  | none => .error (.assertion .mempoolEntry)
  | some entry => do
    let entry ← change entry
    .ok { pool with mapTx := pool.mapTx.set hash entry }

/-- Change entries one after another. -/
def modifyEntries (hashes : List Uint256)
    (change : CTxMemPoolEntry → Checked CTxMemPoolEntry) : Checked CTxMemPool :=
  hashes.foldlM (fun pool hash => pool.modifyEntry hash change) pool

end Entries

section Relatives

variable (pool : CTxMemPool)

/-- Add an entry and its descendants to a set that holds the descendants of its
members. -/
def calculateDescendants (entryit : Uint256)
    (setDescendants : OrderedSet Uint256) : OrderedSet Uint256 :=
  Walk.walk (fun hash => (pool.getMemPoolChildren hash).items) pool.mapTx.size
    (if setDescendants.contains entryit then .empty
      else OrderedSet.empty.insert entryit) setDescendants

/-- Limits of a package; without a number there is no limit. -/
structure PackageLimits where
  ancestorCount : Option ℤ := none
  ancestorSize : Option ℤ := none
  descendantCount : Option ℤ := none
  descendantSize : Option ℤ := none

/-- Whether a number is above a limit. -/
def exceeds (value : ℤ) (limit : Option ℤ) : Bool := limit.any (fun bound => bound < value)

/-- Why a package is too large. -/
inductive PackageError where
  | parents (limit : Option ℤ)
  /-- Exceeds descendant size limit for a transaction. -/
  | descendantSize (hash : Uint256) (limit : Option ℤ)
  | descendantCount (hash : Uint256) (limit : Option ℤ)
  | ancestorSize (limit : Option ℤ)
  | ancestors (limit : Option ℤ)
  deriving DecidableEq

/-- Parents of a transaction that are in the pool. -/
def searchParents (pool : CTxMemPool) (limits : PackageLimits) :
    OrderedSet Uint256 → List CTxIn → Except PackageError (OrderedSet Uint256)
  | parentHashes,[] => .ok parentHashes
  | parentHashes,txin::vin =>
    if pool.mapTx.contains txin.prevout.hash then
      let parentHashes := parentHashes.insert txin.prevout.hash
      if exceeds (parentHashes.size+1) limits.ancestorCount then .error
        (.parents limits.ancestorCount)
      else searchParents pool limits parentHashes vin
    else searchParents pool limits parentHashes vin

def stageParents (limits : PackageLimits) (setAncestors : OrderedSet Uint256) :
    OrderedSet Uint256 → List Uint256 → Except PackageError (OrderedSet Uint256)
  | parentHashes,[] => .ok parentHashes
  | parentHashes,phash::parents =>
    let parentHashes :=
      if setAncestors.contains phash then parentHashes else parentHashes.insert phash
    if exceeds (parentHashes.size+setAncestors.size+1) limits.ancestorCount then
      .error (.ancestors limits.ancestorCount)
    else stageParents limits setAncestors parentHashes parents

def walkAncestors (pool : CTxMemPool) (entry : CTxMemPoolEntry) (limits : PackageLimits) :
    ℕ → OrderedSet Uint256 → OrderedSet Uint256 → ℤ → Except PackageError (OrderedSet Uint256)
  | 0,_,setAncestors,_ => .ok setAncestors
  | rounds+1,parentHashes,setAncestors,totalSizeWithAncestors =>
    match parentHashes.items with
    | [] => .ok setAncestors
    | stageit::_ =>
      let setAncestors := setAncestors.insert stageit
      let total := totalSizeWithAncestors+pool.valueOf stageit (fun entry => entry.nTxSize)
      if exceeds (pool.valueOf stageit nSizeWithDescendants+entry.nTxSize)
          limits.descendantSize then
        .error (.descendantSize stageit limits.descendantSize)
      else if exceeds (pool.valueOf stageit nCountWithDescendants+1) limits.descendantCount then
        .error (.descendantCount stageit limits.descendantCount)
      else if exceeds total limits.ancestorSize then .error (.ancestorSize limits.ancestorSize)
      else do
        let parentHashes ← stageParents limits setAncestors (parentHashes.erase stageit)
          (pool.getMemPoolParents stageit).items
        walkAncestors pool entry limits rounds parentHashes setAncestors total

/-- Parents of an entry, searched for in the pool, or read from its links if it is
there. -/
def parentHashes (entry : CTxMemPoolEntry) (limits : PackageLimits)
    (fSearchForParents : Bool) : Except PackageError (OrderedSet Uint256) :=
  if fSearchForParents then pool.searchParents limits .empty entry.tx.vin
  else .ok (pool.getMemPoolParents entry.tx.hash)

def calculateMemPoolAncestors (entry : CTxMemPoolEntry)
    (limits : PackageLimits) (fSearchForParents : Bool) :
    Except PackageError (OrderedSet Uint256) := do
  let parentHashes ← pool.parentHashes entry limits fSearchForParents
  pool.walkAncestors entry limits pool.mapTx.size parentHashes .empty entry.nTxSize

/-- Ancestors of an entry of the pool, through its links and without limits. -/
def linkedAncestors (entry : CTxMemPoolEntry) : OrderedSet Uint256 :=
  match pool.calculateMemPoolAncestors entry {} false with
  | .ok setAncestors => setAncestors
  | .error _ => .empty

end Relatives

section Adding

variable (pool : CTxMemPool)

/-- Add or remove an entry as a child of its parents, and in the totals of its
ancestors. -/
def updateAncestorsOf (add : Bool) (it : Uint256)
    (setAncestors : OrderedSet Uint256) : Checked CTxMemPool :=
  let updateCount : ℤ := if add then 1 else -1
  let updateSize := updateCount*pool.valueOf it (fun entry => entry.nTxSize)
  let updateFee := updateCount*pool.valueOf it (fun entry => entry.getModifiedFee)
  ((pool.getMemPoolParents it).items.foldl (fun pool piter => pool.updateChild piter it add)
    pool).modifyEntries setAncestors.items (updateDescendantState updateSize updateFee updateCount)

/-- Count the ancestors of an entry in its totals. -/
def updateEntryForAncestors (it : Uint256)
    (setAncestors : OrderedSet Uint256) : Checked CTxMemPool :=
  let total (value : CTxMemPoolEntry → ℤ) : ℤ :=
    (setAncestors.items.map (fun hash => pool.valueOf hash value)).sum
  pool.modifyEntry it (updateAncestorState (total (fun entry => entry.nTxSize))
    (total (fun entry => entry.getModifiedFee)) setAncestors.size
    (total (fun entry => entry.sigOpCount)))

/-- Update an entry for what was added to its fee before it arrived. -/
def applyDelta (hash : Uint256) (entry : CTxMemPoolEntry) : CTxMemPoolEntry :=
  match pool.mapDeltas.find hash with
  | none => entry
  | some delta => if delta=0 then entry else entry.updateFeeDelta delta

end Adding

section ProTx

variable (ctx : PoolContext)

/-- Record what a masternode transaction claims. What was claimed first stays. -/
def addProTx (maps : ProTxMaps) (tx : CTransaction) : Checked ProTxMaps :=
  match tx.nType with
  | .providerRegister =>
    match tx.getProRegTx with
    | none => .error (.assertion .txPayload)
    | some proTx =>
      let external := decide (proTx.collateralOutpoint.hash≠0)
      .ok { maps with
        mapProTxRefs :=
          if external then maps.mapProTxRefs++[(tx.hash,proTx.collateralOutpoint.hash)]
          else maps.mapProTxRefs
        mapProTxAddresses := maps.mapProTxAddresses.emplace proTx.addr tx.hash
        mapProTxPubKeyIDs := maps.mapProTxPubKeyIDs.emplace proTx.keyIDOwner tx.hash
        mapProTxBlsPubKeyHashes :=
          maps.mapProTxBlsPubKeyHashes.emplace (ctx.keyHash proTx.pubKeyOperator) tx.hash
        mapProTxCollaterals :=
          if external then maps.mapProTxCollaterals.emplace proTx.collateralOutpoint tx.hash
          else maps.mapProTxCollaterals }
  | .providerUpdateService =>
    match tx.getProUpServTx with
    | none => .error (.assertion .txPayload)
    | some proTx => .ok { maps with
        mapProTxRefs := maps.mapProTxRefs++[(proTx.proTxHash,tx.hash)]
        mapProTxAddresses := maps.mapProTxAddresses.emplace proTx.addr tx.hash }
  | .providerUpdateRegistrar =>
    match tx.getProUpRegTx with
    | none => .error (.assertion .txPayload)
    | some proTx => .ok { maps with
        mapProTxRefs := maps.mapProTxRefs++[(proTx.proTxHash,tx.hash)]
        mapProTxBlsPubKeyHashes :=
          maps.mapProTxBlsPubKeyHashes.emplace (ctx.keyHash proTx.pubKeyOperator) tx.hash }
  | .providerUpdateRevoke =>
    match tx.getProUpRevTx with
    | none => .error (.assertion .txPayload)
    | some proTx => .ok { maps with
        mapProTxRefs := maps.mapProTxRefs++[(proTx.proTxHash,tx.hash)] }
  | _ => .ok maps

/-- Key that an update of a masternode is valid for, and whether it changes it. -/
def noteKey (info : EntryInfo) (proTxHash : Uint256) (pubKeyOperator : CBLSPublicKey) :
    Checked EntryInfo :=
  match ctx.mnList.getMN proTxHash with
  | none => .error (.assertion .nullPointer)
  | some dmn => .ok { info with
      validForProTxKey := ctx.keyHash dmn.pdmnState.pubKeyOperator
      isKeyChangeProTx := info.isKeyChangeProTx ||
        decide (dmn.pdmnState.pubKeyOperator≠pubKeyOperator) }

/-- Note the key of a registrar update or a revocation. -/
def noteProTxKey (info : EntryInfo) : Checked EntryInfo :=
  match info.tx.nType with
  | .providerUpdateRegistrar =>
    match info.tx.getProUpRegTx with
    | none => .error (.assertion .txPayload)
    | some proTx => noteKey ctx info proTx.proTxHash proTx.pubKeyOperator
  | .providerUpdateRevoke =>
    match info.tx.getProUpRevTx with
    | none => .error (.assertion .txPayload)
    | some proTx => noteKey ctx info proTx.proTxHash CBLSWrapper.null
  | _ => .ok info

/-- Remove a reference. -/
def eraseProTxRef (refs : List (Uint256×Uint256)) (proTxHash txHash : Uint256) :
    List (Uint256×Uint256) :=
  refs.filter (fun ref => !decide (ref=(proTxHash,txHash)))

/-- Remove what a masternode transaction claims, whoever claimed it first. -/
def eraseProTx (maps : ProTxMaps) (tx : CTransaction) : Checked ProTxMaps :=
  match tx.nType with
  | .providerRegister =>
    match tx.getProRegTx with
    | none => .error (.assertion .txPayload)
    | some proTx => .ok {
        mapProTxRefs :=
          if proTx.collateralOutpoint.isNull then maps.mapProTxRefs
          else eraseProTxRef maps.mapProTxRefs tx.hash proTx.collateralOutpoint.hash
        mapProTxAddresses := maps.mapProTxAddresses.erase proTx.addr
        mapProTxPubKeyIDs := maps.mapProTxPubKeyIDs.erase proTx.keyIDOwner
        mapProTxBlsPubKeyHashes :=
          maps.mapProTxBlsPubKeyHashes.erase (ctx.keyHash proTx.pubKeyOperator)
        mapProTxCollaterals := maps.mapProTxCollaterals.erase proTx.collateralOutpoint }
  | .providerUpdateService =>
    match tx.getProUpServTx with
    | none => .error (.assertion .txPayload)
    | some proTx => .ok { maps with
        mapProTxRefs := eraseProTxRef maps.mapProTxRefs proTx.proTxHash tx.hash
        mapProTxAddresses := maps.mapProTxAddresses.erase proTx.addr }
  | .providerUpdateRegistrar =>
    match tx.getProUpRegTx with
    | none => .error (.assertion .txPayload)
    | some proTx => .ok { maps with
        mapProTxRefs := eraseProTxRef maps.mapProTxRefs proTx.proTxHash tx.hash
        mapProTxBlsPubKeyHashes :=
          maps.mapProTxBlsPubKeyHashes.erase (ctx.keyHash proTx.pubKeyOperator) }
  | .providerUpdateRevoke =>
    match tx.getProUpRevTx with
    | none => .error (.assertion .txPayload)
    | some proTx => .ok { maps with
        mapProTxRefs := eraseProTxRef maps.mapProTxRefs proTx.proTxHash tx.hash }
  | _ => .ok maps

variable (pool : CTxMemPool)

/-- Whether some transaction that refers to a registration changes its key. -/
def hasKeyChangeInMempool (proTxHash : Uint256) : Bool :=
  pool.mapProTxRefs.any (fun ref => decide (ref.1=proTxHash) &&
    (pool.mapTx.find ref.2).any (fun entry => entry.isKeyChangeProTx))

/-- Whether a key is changed while another transaction of the pool changes it. -/
def changesKeyTwice (proTxHash : Uint256) (pubKeyOperator : CBLSPublicKey) : Bool :=
  match ctx.mnList.getMN proTxHash with
  | none => true
  | some dmn => decide (dmn.pdmnState.pubKeyOperator≠pubKeyOperator) &&
      pool.hasKeyChangeInMempool proTxHash

/-- Whether a masternode transaction contradicts one of the pool or can not be read. -/
def existsProviderTxConflict (tx : CTransaction) : Bool :=
  match tx.nType with
  | .providerRegister =>
    match tx.getProRegTx with
    | none => true
    | some proTx =>
      pool.mapProTxAddresses.contains proTx.addr ||
      pool.mapProTxPubKeyIDs.contains proTx.keyIDOwner ||
      pool.mapProTxBlsPubKeyHashes.contains (ctx.keyHash proTx.pubKeyOperator) ||
      decide (proTx.collateralOutpoint.hash≠0) &&
        (pool.mapProTxCollaterals.contains proTx.collateralOutpoint ||
          pool.mapNextTx.contains proTx.collateralOutpoint)
  | .providerUpdateService =>
    match tx.getProUpServTx with
    | none => true
    | some proTx =>
      (pool.mapProTxAddresses.find proTx.addr).any (fun hash => hash≠proTx.proTxHash)
  | .providerUpdateRegistrar =>
    match tx.getProUpRegTx with
    | none => true
    | some proTx =>
      changesKeyTwice ctx pool proTx.proTxHash proTx.pubKeyOperator ||
      (pool.mapProTxBlsPubKeyHashes.find (ctx.keyHash proTx.pubKeyOperator)).any
        (fun hash => hash≠proTx.proTxHash)
  | .providerUpdateRevoke =>
    match tx.getProUpRevTx with
    | none => true
    | some proTx => changesKeyTwice ctx pool proTx.proTxHash CBLSWrapper.null
  | _ => false

end ProTx

section AddUnchecked

variable (ctx : PoolContext)

/-- Add an entry with its ancestors, without children. -/
def addUnchecked (pool : CTxMemPool) (entry : CTxMemPoolEntry)
    (setAncestors : OrderedSet Uint256) : Checked CTxMemPool := do
  let hash := entry.tx.hash
  let parents :=
    (OrderedSet.empty.insertAll (entry.tx.vin.map (fun txin => txin.prevout.hash))).items
  let pool : CTxMemPool := { pool with
    mapTx := pool.mapTx.emplace hash (pool.applyDelta hash entry)
    mapLinks := pool.mapLinks.emplace hash {}
    mapNextTx := entry.tx.vin.foldl (fun next txin => next.emplace txin.prevout entry.tx)
      pool.mapNextTx }
  let pool := (parents.filter (fun phash => pool.mapTx.contains phash)).foldl
    (fun pool phash => pool.updateParent hash phash true) pool
  let pool ← pool.updateAncestorsOf true hash setAncestors
  let pool ← pool.updateEntryForAncestors hash setAncestors
  let maps ← addProTx ctx pool.toProTxMaps entry.tx
  { pool with toProTxMaps := maps }.modifyEntry hash (fun entry => do
    let info ← noteProTxKey ctx entry.toEntryInfo
    .ok { entry with toEntryInfo := info })

end AddUnchecked

section Removing

variable (ctx : PoolContext)

variable (pool : CTxMemPool)

def updateChildrenForRemoval (it : Uint256) : CTxMemPool :=
  (pool.getMemPoolChildren it).items.foldl (fun pool child => pool.updateParent child it false) pool

/-- Remove an entry from the totals of its descendants. -/
def forgetAncestor (removeIt : Uint256) : Checked CTxMemPool :=
  let setDescendants := (pool.calculateDescendants removeIt .empty).erase removeIt
  pool.modifyEntries setDescendants.items (updateAncestorState
    (-pool.valueOf removeIt (fun entry => entry.nTxSize))
    (-pool.valueOf removeIt (fun entry => entry.getModifiedFee)) (-1)
    (-pool.valueOf removeIt (fun entry => entry.sigOpCount)))

/-- Remove an entry from the totals of its ancestors. -/
def forgetDescendant (removeIt : Uint256) : Checked CTxMemPool :=
  match pool.mapTx.find removeIt with
  | none => .error (.assertion .mempoolEntry)
  | some entry => pool.updateAncestorsOf false removeIt (pool.linkedAncestors entry)

/-- Remove entries from the totals of their descendants, if asked for. -/
def forgetAncestors (entriesToRemove : OrderedSet Uint256)
    (updateDescendants : Bool) : Checked CTxMemPool :=
  if updateDescendants then entriesToRemove.items.foldlM forgetAncestor pool else .ok pool

/-- Remove entries from totals and links. -/
def updateForRemoveFromMempool (entriesToRemove : OrderedSet Uint256)
    (updateDescendants : Bool) : Checked CTxMemPool := do
  let pool ← pool.forgetAncestors entriesToRemove updateDescendants
  let pool ← entriesToRemove.items.foldlM forgetDescendant pool
  .ok (entriesToRemove.items.foldl updateChildrenForRemoval pool)

def removeUnchecked (it : Uint256) : Checked CTxMemPool :=
  match pool.mapTx.find it with
  | none => .error (.assertion .mempoolEntry)
  | some entry => do
    let maps ← eraseProTx ctx pool.toProTxMaps entry.tx
    .ok { pool with
      toProTxMaps := maps
      mapTx := pool.mapTx.erase it
      mapLinks := pool.mapLinks.erase it
      mapNextTx := entry.tx.vin.foldl (fun next txin => next.erase txin.prevout) pool.mapNextTx }

/-- Remove entries that were chosen. -/
def removeStaged (stage : OrderedSet Uint256) (updateDescendants : Bool) : Checked CTxMemPool := do
  let pool ← pool.updateForRemoveFromMempool stage updateDescendants
  stage.items.foldlM (removeUnchecked ctx) pool

/-- Entries with all their descendants. -/
def withDescendants (hashes : List Uint256) : OrderedSet Uint256 :=
  hashes.foldl (fun stage hash => pool.calculateDescendants hash stage) .empty

/-- Transactions of the pool that spend outputs of a transaction. -/
def spendersOf (tx : CTransaction) : List Uint256 :=
  (List.range tx.vout.length).filterMap (fun i =>
    (pool.mapNextTx.find ⟨tx.hash,i⟩).map CTransaction.hash)

/-- Remove a transaction and its descendants. If it is not there, those that spend
its outputs are removed. -/
def removeRecursive (origTx : CTransaction) : Checked CTxMemPool := do
  let txToRemove :=
    if pool.mapTx.contains origTx.hash then [origTx.hash]
    else (OrderedSet.empty.insertAll (pool.spendersOf origTx)).items
  assertThat .mempoolEntry (txToRemove.all (fun hash => pool.mapTx.contains hash))
  pool.removeStaged ctx (pool.withDescendants txToRemove) false

/-- What reorganisations read to find out which transactions have to go. -/
structure ReorgRules where
  isFinal : CTransaction → Bool
  pcoins : CoinsView
  nMemPoolHeight : ℕ

/-- Whether an entry spends a coin that is gone, or a coinbase that is too young. -/
def spendsImmature (rules : ReorgRules) (entry : CTxMemPoolEntry) : Bool :=
  entry.tx.vin.any (fun txin => !pool.mapTx.contains txin.prevout.hash &&
    (let found := accessCoin rules.pcoins txin.prevout
    found.isSpent ||
      (found.fCoinBase && decide ((rules.nMemPoolHeight : ℤ)-found.nHeight < coinbaseMaturity))))

def removeForReorg (rules : ReorgRules) : Checked CTxMemPool :=
  let txToRemove := pool.mapTx.entries.filter (fun entry =>
    !rules.isFinal entry.2.tx || (entry.2.spendsCoinbase && pool.spendsImmature rules entry.2))
  pool.removeStaged ctx (pool.withDescendants (txToRemove.map Prod.fst)) false

/-- Remove what is added to a fee. -/
def clearPrioritisation (hash : Uint256) : CTxMemPool :=
  { pool with mapDeltas := pool.mapDeltas.erase hash }

/-- Remove the transaction that spends the same output as another one. -/
def removeConflict (tx : CTransaction) (pool : CTxMemPool) (txin : CTxIn) : Checked CTxMemPool :=
  match pool.mapNextTx.find txin.prevout with
  | none => .ok pool
  | some txConflict =>
    if txConflict.hash=tx.hash then .ok pool
    else (pool.clearPrioritisation txConflict.hash).removeRecursive ctx txConflict

/-- Remove transactions that spend the same outputs as another one. -/
def removeConflicts (tx : CTransaction) : Checked CTxMemPool :=
  tx.vin.foldlM (removeConflict ctx tx) pool

def removeClaimed (tx : CTransaction) (claimed : Option Uint256) : Checked CTxMemPool :=
  match claimed with
  | none => .ok pool
  | some conflictHash =>
    if conflictHash=tx.hash then .ok pool
    else
      match pool.mapTx.find conflictHash with
      | none => .ok pool
      | some entry => pool.removeRecursive ctx entry.tx

/-- Remove all transactions that refer to a registration. -/
def removeSpentCollateralConflict (proTxHash : Uint256) : ℕ → CTxMemPool → Checked CTxMemPool
  | 0,pool => .ok pool
  | rounds+1,pool =>
    match pool.mapProTxRefs.find? (fun ref => ref.1=proTxHash) with
    | none => .ok pool
    | some ref =>
      match pool.mapTx.find ref.2 with
      | some conflict => do
        let pool ← pool.removeRecursive ctx conflict.tx
        removeSpentCollateralConflict proTxHash rounds pool
      -- a reference to something that is not in the pool is only forgotten
      | none => removeSpentCollateralConflict proTxHash rounds
          { pool with mapProTxRefs := pool.mapProTxRefs.erase ref }

/-- Rounds that the references of a pool need. -/
def refRounds : ℕ := pool.mapTx.size+pool.mapProTxRefs.length

/-- Remove all transactions that refer to a registration, if there is one. -/
def removeReferring (registration : Option Uint256) : Checked CTxMemPool :=
  match registration with
  | none => .ok pool
  | some proTxHash => removeSpentCollateralConflict ctx proTxHash pool.refRounds pool

/-- Remove transactions that refer to a masternode whose collateral an input
spends. Its registration waits in the pool, or was mined. -/
def removeForSpentInput (txin : CTxIn) : Checked CTxMemPool := do
  let pool ← pool.removeReferring ctx (pool.mapProTxCollaterals.find txin.prevout)
  pool.removeReferring ctx ((ctx.mnList.getMNByCollateral ctx.serializeHash
    txin.prevout).map CDeterministicMN.proTxHash)

/-- Remove transactions that refer to a masternode whose collateral is spent. -/
def removeProTxSpentCollateralConflicts (tx : CTransaction) : Checked CTxMemPool :=
  tx.vin.foldlM (removeForSpentInput ctx) pool

/-- Remove updates that were valid for another key. -/
def removeProTxKeyChangedConflicts (proTxHash newKeyHash : Uint256) : Checked CTxMemPool :=
  let conflictingTxs := OrderedSet.empty.insertAll ((pool.mapProTxRefs.filter (fun ref =>
    decide (ref.1=proTxHash) && (pool.mapTx.find ref.2).any (fun entry =>
      entry.validForProTxKey≠newKeyHash))).map Prod.snd)
  conflictingTxs.items.foldlM (fun pool txHash =>
    match pool.mapTx.find txHash with
    | none => .error (.assertion .nullPointer)
    | some entry => pool.removeRecursive ctx entry.tx) pool

/-- Remove masternode transactions that contradict a transaction of a block. -/
def removeProTxConflicts (tx : CTransaction) : Checked CTxMemPool := do
  let pool ← pool.removeProTxSpentCollateralConflicts ctx tx
  match tx.nType with
  | .providerRegister =>
    match tx.getProRegTx with
    | none => .ok pool
    | some proTx => do
      let pool ← pool.removeClaimed ctx tx (pool.mapProTxAddresses.find proTx.addr)
      let pool ← pool.removeClaimed ctx tx (pool.mapProTxPubKeyIDs.find proTx.keyIDOwner)
      let pool ← pool.removeClaimed ctx tx
        (pool.mapProTxBlsPubKeyHashes.find (ctx.keyHash proTx.pubKeyOperator))
      if proTx.collateralOutpoint.hash=0 then .ok pool
      else pool.removeClaimed ctx tx (pool.mapProTxCollaterals.find proTx.collateralOutpoint)
  | .providerUpdateService =>
    match tx.getProUpServTx with
    | none => .ok pool
    | some proTx => pool.removeClaimed ctx tx (pool.mapProTxAddresses.find proTx.addr)
  | .providerUpdateRegistrar =>
    match tx.getProUpRegTx with
    | none => .ok pool
    | some proTx => do
      let pool ← pool.removeClaimed ctx tx
        (pool.mapProTxBlsPubKeyHashes.find (ctx.keyHash proTx.pubKeyOperator))
      pool.removeProTxKeyChangedConflicts ctx proTx.proTxHash
        (ctx.keyHash proTx.pubKeyOperator)
  | .providerUpdateRevoke =>
    match tx.getProUpRevTx with
    | none => .ok pool
    | some proTx =>
      pool.removeProTxKeyChangedConflicts ctx proTx.proTxHash (ctx.keyHash CBLSWrapper.null)
  | _ => .ok pool

def removeMined (tx : CTransaction) : Checked CTxMemPool :=
  if pool.mapTx.contains tx.hash then
    pool.removeStaged ctx (OrderedSet.empty.insert tx.hash) true
  else .ok pool

def removeForBlockTx (tx : CTransaction) : Checked CTxMemPool := do
  let pool ← pool.removeMined ctx tx
  let pool ← pool.removeConflicts ctx tx
  let pool ← pool.removeProTxConflicts ctx tx
  .ok (pool.clearPrioritisation tx.hash)

/-- Remove the transactions of a block and what contradicts them. -/
def removeForBlock (vtx : List CTransaction) : Checked CTxMemPool :=
  vtx.foldlM (removeForBlockTx ctx) pool

/-- Remove entries that are too old, unless they are locked, and count them. -/
def expire (isLocked : Uint256 → Bool) (time : ℤ) : Checked (ℕ×CTxMemPool) := do
  let toremove := pool.mapTx.entries.filter (fun entry =>
    decide (entry.2.nTime < time) && !isLocked entry.1)
  let stage := pool.withDescendants (toremove.map Prod.fst)
  let pool ← pool.removeStaged ctx stage false
  .ok (stage.size,pool)

/-- Entry that comes first in an order. -/
def firstEntry (before : CTxMemPoolEntry → CTxMemPoolEntry → Bool) :
    List (Uint256×CTxMemPoolEntry) → Option (Uint256×CTxMemPoolEntry)
  | [] => none
  | entry::entries =>
    match firstEntry before entries with
    | none => some entry
    | some best => if before best.2 entry.2 then some best else some entry

/-- Outputs that removed transactions spent and that are not in the pool. -/
def noSpendsRemaining (removed : List CTransaction) : List COutPoint :=
  removed.flatMap (fun tx => (tx.vin.map CTxIn.prevout).filter (fun prevout =>
    !pool.mapTx.contains prevout.hash))

/-- Remove the entry with the lowest score and its descendants, once each round. -/
def trimRounds (before : CTxMemPoolEntry → CTxMemPoolEntry → Bool)
    (dynamicMemoryUsage : CTxMemPool → ℕ) (sizelimit : ℕ) :
    ℕ → CTxMemPool → Checked (List COutPoint×CTxMemPool)
  | 0,pool => .ok ([],pool)
  | rounds+1,pool =>
    if dynamicMemoryUsage pool ≤ sizelimit then .ok ([],pool)
    else
      match firstEntry before pool.mapTx.entries with
      | none => .ok ([],pool)
      | some it => do
        let stage := pool.calculateDescendants it.1 .empty
        let txn := stage.items.filterMap (fun hash =>
          (pool.mapTx.find hash).map (fun entry => entry.tx))
        let pool ← pool.removeStaged ctx stage false
        let rest ← trimRounds before dynamicMemoryUsage sizelimit rounds pool
        .ok (pool.noSpendsRemaining txn++rest.1,rest.2)

/-- Remove the entries with the lowest score, with their descendants, until the
pool is small enough. -/
def trimToSize (before : CTxMemPoolEntry → CTxMemPoolEntry → Bool)
    (dynamicMemoryUsage : CTxMemPool → ℕ) (sizelimit : ℕ) (pool : CTxMemPool) :
    Checked (List COutPoint×CTxMemPool) :=
  trimRounds ctx before dynamicMemoryUsage sizelimit pool.mapTx.size pool

end Removing

/-- Add to the fee of a transaction, whether it is there or not. -/
def prioritiseTransaction (pool : CTxMemPool) (hash : Uint256) (nFeeDelta : ℤ) :
    Checked CTxMemPool :=
  let delta := (pool.mapDeltas.find hash).getD 0+nFeeDelta
  let pool : CTxMemPool := { pool with mapDeltas := pool.mapDeltas.set hash delta }
  match pool.mapTx.find hash with
  | none => .ok pool
  | some entry => do
    let entry := entry.updateFeeDelta delta
    let pool : CTxMemPool := { pool with mapTx := pool.mapTx.set hash entry }
    let pool ← pool.modifyEntries (pool.linkedAncestors entry).items
      (updateDescendantState 0 nFeeDelta 0)
    pool.modifyEntries ((pool.calculateDescendants hash .empty).erase hash).items
      (updateAncestorState 0 nFeeDelta 0 0)

variable (ctx : PoolContext)

/-- Descendants that were found for entries already. -/
abbrev CacheMap := OrderedMap Uint256 (OrderedSet Uint256)

/-- Take the descendants of a child from the cache, or stage it. -/
def visitChild (cachedDescendants : CacheMap)
    (st : OrderedSet Uint256×OrderedSet Uint256) (childEntry : Uint256) :
    OrderedSet Uint256×OrderedSet Uint256 :=
  match cachedDescendants.find childEntry with
  | some found => (st.1,st.2.insertAll found.items)
  | none =>
    if st.2.contains childEntry then st else (st.1.insert childEntry,st.2)

/-- Walk over descendants with a cache. -/
def walkDescendants (pool : CTxMemPool) (cachedDescendants : CacheMap) :
    ℕ → OrderedSet Uint256 → OrderedSet Uint256 → OrderedSet Uint256
  | 0,_,setAllDescendants => setAllDescendants
  | rounds+1,stageEntries,setAllDescendants =>
    match stageEntries.items with
    | [] => setAllDescendants
    | cit::_ =>
      let visited := (pool.getMemPoolChildren cit).items.foldl (visitChild cachedDescendants)
        (stageEntries.erase cit,setAllDescendants.insert cit)
      walkDescendants pool cachedDescendants rounds visited.1 visited.2

/-- Count an entry and the descendants that were there before it in each other's
totals. -/
def updateForDescendants (pool : CTxMemPool) (updateIt : Uint256) (cachedDescendants : CacheMap)
    (setExclude : OrderedSet Uint256) : Checked (CTxMemPool×CacheMap) := do
  let setAllDescendants := pool.walkDescendants cachedDescendants pool.mapTx.size
    (pool.getMemPoolChildren updateIt) .empty
  let counted := setAllDescendants.items.filter (fun hash => !setExclude.contains hash)
  let total (value : CTxMemPoolEntry → ℤ) : ℤ :=
    (counted.map (fun hash => pool.valueOf hash value)).sum
  let cachedDescendants :=
    if counted.isEmpty then cachedDescendants
    else cachedDescendants.set updateIt
      (((cachedDescendants.find updateIt).getD .empty).insertAll counted)
  let updated ← pool.modifyEntries counted (updateAncestorState
    (pool.valueOf updateIt (fun entry => entry.nTxSize))
    (pool.valueOf updateIt (fun entry => entry.getModifiedFee)) 1
    (pool.valueOf updateIt (fun entry => entry.sigOpCount)))
  let updated ← updated.modifyEntry updateIt (updateDescendantState
    (total (fun entry => entry.nTxSize)) (total (fun entry => entry.getModifiedFee)) counted.length)
  .ok (updated,cachedDescendants)

variable (setAlreadyIncluded : OrderedSet Uint256)

def linkChild (it : Uint256) (st : CTxMemPool×OrderedSet Uint256) (child : CTransaction) :
    Checked (CTxMemPool×OrderedSet Uint256) := do
  assertThat .mempoolEntry (st.1.mapTx.contains child.hash)
  .ok (if !st.2.contains child.hash && !setAlreadyIncluded.contains child.hash then
      (st.1.updateChild it child.hash true).updateParent child.hash it true
    else st.1,st.2.insert child.hash)

/-- Make up for the children of a transaction of a block that was taken back. -/
def updateFromBlockTx (st : CTxMemPool×CacheMap)
    (hash : Uint256) : Checked (CTxMemPool×CacheMap) :=
  if st.1.mapTx.contains hash then do
    let children := (st.1.mapNextTx.entries.filter (fun next => next.1.hash=hash)).map Prod.snd
    let linked ← children.foldlM (linkChild setAlreadyIncluded hash) (st.1,.empty)
    linked.1.updateForDescendants hash st.2 setAlreadyIncluded
  else .ok st

/-- Make up for the children of transactions of a block that was taken back. -/
def updateTransactionsFromBlock (pool : CTxMemPool) (vHashesToUpdate : List Uint256) :
    Checked CTxMemPool := do
  let result ← vHashesToUpdate.reverse.foldlM
    (updateFromBlockTx (OrderedSet.empty.insertAll vHashesToUpdate)) (pool,.empty)
  .ok result.1

variable (limits : PackageLimits)

/-- Add a new transaction with the ancestors that were found for it. -/
def accept (pool : CTxMemPool) (info : EntryInfo) : Checked CTxMemPool :=
  match pool.calculateMemPoolAncestors (create info) limits true with
  | .error _ => .ok pool
  | .ok setAncestors => pool.addUnchecked ctx (create info) setAncestors

end CTxMemPool

end Pyrk.TxMemPool
