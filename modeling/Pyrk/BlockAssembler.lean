import Pyrk.TxMemPool

/-!
# Choosing transactions for a block

A new block takes transactions of high priority first, and then packages: a transaction with its
ancestors that are not in the block.
-/

namespace Pyrk.BlockAssembler

open Transaction Script TxMemPool CTxMemPoolEntry

/-- Totals of a transaction over the ancestors that are not in the block. -/
structure CTxMemPoolModifiedEntry where
  iter : Uint256
  nSizeWithAncestors : ℤ
  nModFeesWithAncestors : ℤ
  nSigOpCountWithAncestors : ℤ
  deriving DecidableEq

/-- What the assembler goes by. -/
structure Rules where
  isFinalTx : CTransaction → Bool
  getFee : ℤ → ℤ
  product : ℤ → ℤ → ℤ
  nBlockMaxSize : ℤ
  /-- Signature operations that the block must not reach. -/
  maxBlockSigOps : ℤ

/-- Consecutive failures before giving up. -/
def maxConsecutiveFailures : ℕ := 1000

/-- A block that is put together. -/
structure Assembler where
  inBlock : OrderedSet Uint256 := .empty
  vtx : List Uint256 := []
  nBlockSize : ℤ := 1000
  nBlockSigOps : ℤ := 100
  nFees : ℤ := 0
  blockFinished : Bool := false
  lastFewTxs : ℕ := 0

/-- An empty block, with room for the coinbase and for commitments. -/
def resetBlock (commitments : ℕ) : Assembler := { nBlockSize := 1000+commitments }

variable (pool : CTxMemPool) (rules : Rules)

def ancestorsOf (it : Uint256) : OrderedSet Uint256 :=
  match pool.mapTx.find it with
  | none => .empty
  | some entry => pool.linkedAncestors entry

/-- An entry with all its ancestors, from the pool. -/
def newModifiedEntry (it : Uint256) : CTxMemPoolModifiedEntry where
  iter := it
  nSizeWithAncestors := pool.valueOf it nSizeWithAncestors
  nModFeesWithAncestors := pool.valueOf it nModFeesWithAncestors
  nSigOpCountWithAncestors := pool.valueOf it nSigOpCountWithAncestors

/-- Without one more ancestor, whose fee is counted as given. -/
def CTxMemPoolModifiedEntry.without (entry : CTxMemPoolModifiedEntry)
    (nTxSize nFee sigOpCount : ℤ) : CTxMemPoolModifiedEntry :=
  { entry with
    nSizeWithAncestors := entry.nSizeWithAncestors-nTxSize
    nModFeesWithAncestors := entry.nModFeesWithAncestors-nFee
    nSigOpCountWithAncestors := entry.nSigOpCountWithAncestors-sigOpCount }

/-- Take an ancestor out of the totals of a descendant. The first ancestor counts
with its modified fee, the others with their own fee. -/
def updateDescendant (it desc : Uint256)
    (mapModifiedTx : OrderedMap Uint256 CTxMemPoolModifiedEntry) :
    OrderedMap Uint256 CTxMemPoolModifiedEntry :=
  let nTxSize := pool.valueOf it (fun entry => entry.nTxSize)
  let sigOpCount := pool.valueOf it (fun entry => entry.sigOpCount)
  match mapModifiedTx.find desc with
  | none => mapModifiedTx.set desc ((newModifiedEntry pool desc).without nTxSize
      (pool.valueOf it (fun entry => entry.getModifiedFee)) sigOpCount)
  | some entry => mapModifiedTx.set desc
      (entry.without nTxSize (pool.valueOf it (fun entry => entry.nFee)) sigOpCount)

variable (alreadyAdded : OrderedSet Uint256)

/-- Take an ancestor out of the totals of all other descendants. -/
def updateDescendants (mapModifiedTx : OrderedMap Uint256 CTxMemPoolModifiedEntry) (it : Uint256) :
    OrderedMap Uint256 CTxMemPoolModifiedEntry :=
  ((pool.calculateDescendants it .empty).items.filter
    (fun desc => !alreadyAdded.contains desc)).foldl
      (fun mapModifiedTx desc => updateDescendant pool it desc mapModifiedTx) mapModifiedTx

/-- Take what was added out of the totals of all descendants. -/
def updatePackagesForAdded (mapModifiedTx : OrderedMap Uint256 CTxMemPoolModifiedEntry) :
    OrderedMap Uint256 CTxMemPoolModifiedEntry :=
  alreadyAdded.items.foldl (updateDescendants pool alreadyAdded) mapModifiedTx

/-- Higher fee rates come first, and then lower hashes. -/
def compareModifiedEntry (a b : CTxMemPoolModifiedEntry) : Bool :=
  let f1 := rules.product a.nModFeesWithAncestors b.nSizeWithAncestors
  let f2 := rules.product b.nModFeesWithAncestors a.nSizeWithAncestors
  if f1=f2 then decide (a.iter < b.iter) else decide (f2 < f1)

/-- The first entry by fee rate. -/
def firstModified : List (Uint256×CTxMemPoolModifiedEntry) → Option CTxMemPoolModifiedEntry
  | [] => none
  | entry::entries =>
    match firstModified entries with
    | none => some entry.2
    | some best => if compareModifiedEntry rules best entry.2 then some best else some entry.2

/-- Entries of the pool by fee rate. -/
def ancestorScore : List Uint256 :=
  (pool.mapTx.entries.map Prod.fst).insertionSort (fun a b =>
    compareModifiedEntry rules (newModifiedEntry pool b) (newModifiedEntry pool a)=false)

/-- Fewer ancestors come first, and then lower hashes. -/
def compareByAncestorCount (a b : Uint256) : Bool :=
  let first := pool.valueOf a nCountWithAncestors
  let second := pool.valueOf b nCountWithAncestors
  if first=second then decide (a < b) else decide (first < second)

variable (package : OrderedSet Uint256)

/-- Order of a package in the block. -/
def sortForBlock : List Uint256 :=
  package.items.insertionSort (fun a b => compareByAncestorCount pool b a=false)

variable (assembler : Assembler)

def addToBlock (iter : Uint256) : Assembler :=
  { assembler with
    vtx := assembler.vtx++[iter]
    nBlockSize := assembler.nBlockSize+pool.valueOf iter (fun entry => entry.nTxSize)
    nBlockSigOps := assembler.nBlockSigOps+pool.valueOf iter (fun entry => entry.sigOpCount)
    nFees := assembler.nFees+pool.valueOf iter (fun entry => entry.nFee)
    inBlock := assembler.inBlock.insert iter }

/-- Whether a parent is not in the block. -/
def isStillDependent (iter : Uint256) : Bool :=
  (pool.getMemPoolParents iter).items.any (fun parent => !assembler.inBlock.contains parent)

/-- Whether a transaction fits, and what the attempt leaves. -/
def testForBlock (entry : CTxMemPoolEntry) : Bool×Assembler :=
  if rules.nBlockMaxSize ≤ assembler.nBlockSize+entry.nTxSize then
    if rules.nBlockMaxSize-100 < assembler.nBlockSize ∨ 50 < assembler.lastFewTxs then
      (false,{ assembler with blockFinished := true })
    else if rules.nBlockMaxSize-1000 < assembler.nBlockSize then
      (false,{ assembler with lastFewTxs := assembler.lastFewTxs+1 })
    else (false,assembler)
  else if rules.maxBlockSigOps ≤ assembler.nBlockSigOps+entry.sigOpCount then
    if rules.maxBlockSigOps-2 < assembler.nBlockSigOps then
      (false,{ assembler with blockFinished := true })
    else (false,assembler)
  else (rules.isFinalTx entry.tx,assembler)

/-- Try a transaction for its priority. One that depends on others has to wait. -/
def tryPriorityTx (iter : Uint256) : Assembler :=
  match pool.mapTx.find iter with
  | none => assembler
  | some entry =>
    if assembler.blockFinished || assembler.inBlock.contains iter ||
        isStillDependent pool assembler iter then assembler
    else
      let tested := testForBlock rules assembler entry
      if tested.1 then addToBlock pool tested.2 iter else tested.2

/-- Add transactions for their priority, in the order of the queue. -/
def addPriorityTxs (queue : List Uint256) (assembler : Assembler) : Assembler :=
  queue.foldl (tryPriorityTx pool rules) assembler

/-- State of the loop over packages. -/
structure PackageState where
  assembler : Assembler
  mi : List Uint256
  mapModifiedTx : OrderedMap Uint256 CTxMemPoolModifiedEntry
  failedTx : OrderedSet Uint256 := .empty
  nConsecutiveFailed : ℕ := 0

/-- A transaction that is considered, with the totals of its package. -/
structure Candidate where
  iter : Uint256
  fUsingModified : Bool
  packageSize : ℤ
  packageFees : ℤ
  packageSigOps : ℤ
  deriving DecidableEq

/-- Candidate with the totals of an entry. -/
def Candidate.of (fUsingModified : Bool) (entry : CTxMemPoolModifiedEntry) : Candidate :=
  ⟨entry.iter,fUsingModified,entry.nSizeWithAncestors,entry.nModFeesWithAncestors,
    entry.nSigOpCountWithAncestors⟩

variable (st : PackageState)

/-- Entries that are in the block, have their own totals or did not fit. -/
def skipMapTxEntry (it : Uint256) : Bool :=
  st.mapModifiedTx.contains it || st.assembler.inBlock.contains it ||
    st.failedTx.contains it

/-- The better of the next entry of the pool and the best of the others. -/
def choose : Option (Candidate×PackageState) :=
  match st.mi,firstModified rules st.mapModifiedTx.entries with
  | [],none => none
  | [],some modit => some (.of true modit,st)
  | iter::_,some modit =>
    if compareModifiedEntry rules modit (newModifiedEntry pool iter) then
      some (.of true modit,st)
    else some (.of false (newModifiedEntry pool iter),{ st with mi := st.mi.tail })
  | iter::_,none =>
    some (.of false (newModifiedEntry pool iter),{ st with mi := st.mi.tail })

/-- What one pass of the loop does. -/
inductive Iteration where
  | finished
  | skipped (next : PackageState)
  /-- A transaction of the block is considered, which must not happen. -/
  | aborted
  /-- The fee rate is too low, or there were too many failures. -/
  | stopped (cand : Candidate)
  | failed (cand : Candidate) (next : PackageState)
  | added (cand : Candidate) (package : OrderedSet Uint256) (next : PackageState)

/-- State after a pass, unless the loop ends. -/
def Iteration.next : Iteration → Option PackageState
  | .skipped next => some next
  | .failed _ next => some next
  | .added _ _ next => some next
  | _ => none

/-- Transaction that a pass considers, if it does. -/
def Iteration.cand : Iteration → Option Candidate
  | .stopped cand => some cand
  | .failed cand _ => some cand
  | .added cand _ _ => some cand
  | _ => none

def forgetFailed (cand : Candidate) (st : PackageState) : PackageState :=
  if cand.fUsingModified then { st with
    mapModifiedTx := st.mapModifiedTx.erase cand.iter
    failedTx := st.failedTx.insert cand.iter }
  else st

/-- Package of a transaction: itself and its ancestors that are not in the block. -/
def packageOf (iter : Uint256) : OrderedSet Uint256 :=
  (OrderedSet.empty.insertAll ((ancestorsOf pool iter).items.filter
    (fun it => !assembler.inBlock.contains it))).insert iter

def addPackage (st : PackageState) : PackageState :=
  let sortedEntries := sortForBlock pool package
  { st with
    assembler := sortedEntries.foldl (addToBlock pool) st.assembler
    mapModifiedTx := updatePackagesForAdded pool package
      (sortedEntries.foldl (fun map it => map.erase it) st.mapModifiedTx)
    nConsecutiveFailed := 0 }

def consider (cand : Candidate) (st : PackageState) : Iteration :=
  let block := st.assembler
  if block.inBlock.contains cand.iter then .aborted
  else if cand.packageFees < rules.getFee cand.packageSize then .stopped cand
  else if rules.nBlockMaxSize ≤ block.nBlockSize+cand.packageSize ∨
      rules.maxBlockSigOps ≤ block.nBlockSigOps+cand.packageSigOps then
    let failures := st.nConsecutiveFailed+1
    if maxConsecutiveFailures < failures ∧ rules.nBlockMaxSize-1000 < block.nBlockSize then
      .stopped cand
    else .failed cand { forgetFailed cand st with nConsecutiveFailed := failures }
  else
    let package := packageOf pool block cand.iter
    if package.items.all (fun it => (pool.mapTx.find it).any (fun entry =>
        rules.isFinalTx entry.tx)) then
      .added cand package (addPackage pool package st)
    else .failed cand (forgetFailed cand st)

/-- One pass of the loop. -/
def iteration : Iteration :=
  match st.mi with
  | [] =>
    match choose pool rules st with
    | none => .finished
    | some chosen => consider pool rules chosen.1 chosen.2
  | it::mi =>
    if skipMapTxEntry st it then .skipped { st with mi := mi }
    else
      match choose pool rules st with
      | none => .finished
      | some chosen => consider pool rules chosen.1 chosen.2

/-- Start of the loop: descendants of the block get their own totals. -/
def startPackages : PackageState where
  assembler := assembler
  mi := ancestorScore pool rules
  mapModifiedTx := updatePackagesForAdded pool assembler.inBlock .empty

/-- Passes of the loop up to its end, with the state before each. -/
def addPackageTxs : ℕ → PackageState → List (PackageState×Iteration)
  | 0,_ => []
  | passes+1,st =>
    (st,iteration pool rules st)::
      match (iteration pool rules st).next with
      | none => []
      | some next => addPackageTxs passes next

end Pyrk.BlockAssembler
