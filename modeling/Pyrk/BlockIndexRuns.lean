import Pyrk.BlockIndexGrowth
import Pyrk.RememberedBlocks

/-!
# The block index over a run

The tree of blocks is joined with the rest of what an entry holds. In every run the whole index
stays sound, and so it can be stored and loaded.
-/

namespace Pyrk.BlockIndexRuns

open Option Bool ChainActivation

open BlockTree (BlockStatus ChainState HeaderArrival BlockArrival BlockCheck)
open BlockHeaders (HeaderReject)
open ProofOfWork BlockIndexFile BlockIndexLoad BlockIndexGrowth ChainActivation ChainEffects
open BlockLinks RememberedBlocks

section Model

/-- What an entry holds besides its place in the tree. -/
structure BlockData where
  nVersion : BitVec 32 := 0
  hashMerkleRoot : ℕ := 0
  nTime : UInt32 := 0
  nBits : UInt32 := 0
  nNonce : UInt32 := 0
  nTimeMax : UInt32 := 0
  pskip : Option ℕ := none
  nFile : ℕ := 0
  nDataPos : ℕ := 0
  nUndoPos : ℕ := 0

def fullEntry (data : ℕ → BlockData) (pindex : BlockTree.CBlockIndex) : CBlockIndex where
  hash := pindex.hash
  pprev := pindex.pprev.head?
  pskip := (data pindex.hash).pskip
  nHeight := pindex.nHeight
  nFile := (data pindex.hash).nFile
  nDataPos := (data pindex.hash).nDataPos
  nUndoPos := (data pindex.hash).nUndoPos
  nChainWork := pindex.nChainWork
  nTx := pindex.nTx
  nChainTx := pindex.nChainTx
  nStatus := pindex.nStatus
  nVersion := (data pindex.hash).nVersion
  hashMerkleRoot := (data pindex.hash).hashMerkleRoot
  nTime := (data pindex.hash).nTime
  nBits := (data pindex.hash).nBits
  nNonce := (data pindex.hash).nNonce
  nSequenceId := pindex.nSequenceId
  nTimeMax := (data pindex.hash).nTimeMax

/-- What an entry holds besides its place. -/
def dataOf (pindex : CBlockIndex) : BlockData where
  nVersion := pindex.nVersion
  hashMerkleRoot := pindex.hashMerkleRoot
  nTime := pindex.nTime
  nBits := pindex.nBits
  nNonce := pindex.nNonce
  nTimeMax := pindex.nTimeMax
  pskip := pindex.pskip
  nFile := pindex.nFile
  nDataPos := pindex.nDataPos
  nUndoPos := pindex.nUndoPos

/-- State of the chain with whole entries. -/
structure Node where
  chain : ChainState
  data : ℕ → BlockData

/-- Whole entries by hash. -/
def Node.mapBlockIndex (node : Node) : BlockIndex :=
  node.chain.mapBlockIndex.mapValues (fullEntry node.data)

/-- Nothing is known yet. -/
def noNode : Node := ⟨noBlocks,fun _ => {}⟩

/-- A header, the address its entry would get and what its checks say. -/
structure HeaderCall where
  block : CBlockHeader
  address : ℕ
  checkBlockHeader : Except HeaderReject Unit
  /-- Checks of the header after the block before, with the checkpoints. -/
  contextualCheckBlockHeader : Except HeaderReject Unit

/-- A block, where it is stored and what its checks say. -/
structure BlockCall where
  header : HeaderCall
  nTx : ℕ
  fRequested : Bool
  check : BlockCheck
  nFile : UInt32
  nPos : UInt32

/-- A call that changes the block index. -/
inductive NodeCall where
  | acceptBlockHeader (header : HeaderCall)
  | acceptBlock (block : BlockCall)
  /-- Make the best chain active; undo data of a block goes to its place. -/
  | activateBestChain (outcomes : List Outcome) (undoPos : ℕ → UInt32)
  | invalidateBlock (hash : ℕ) (outcomes : List Outcome)

variable (ctx : IndexContext) (hashGenesis : ℕ) (node : Node)

def newEntry (index : BlockIndex) (block : CBlockHeader) : CBlockIndex :=
  let pprev := index.find block.hashPrevBlock
  let pindexNew : CBlockIndex :=
    { hash := ctx.getHash block
      pprev := pprev.map CBlockIndex.hash
      nHeight := (pprev.map (fun pprev => pprev.nHeight+1)).getD 0
      nStatus := BlockStatus.raiseValidity {} .tree
      nVersion := block.nVersion
      hashMerkleRoot := block.hashMerkleRoot
      nTime := block.nTime
      nBits := block.nBits
      nNonce := block.nNonce }
  { pindexNew with
    pskip := buildSkip index pindexNew
    nTimeMax := match pprev with
      | none => block.nTime
      | some pprev => max pprev.nTimeMax block.nTime
    nChainWork := ((pprev.map CBlockIndex.nChainWork).getD 0+blockWork ctx index pindexNew)%2^256 }

def headerArrival (header : HeaderCall) : HeaderArrival where
  hash := ctx.getHash header.block
  hashPrevBlock := header.block.hashPrevBlock
  nBlockProof := blockWork ctx node.mapBlockIndex (newEntry ctx node.mapBlockIndex header.block)
  address := header.address
  checkBlockHeader := header.checkBlockHeader
  contextualCheckBlockHeader := header.contextualCheckBlockHeader

def blockArrival (block : BlockCall) : BlockArrival where
  header := headerArrival ctx node block.header
  nTx := block.nTx
  fRequested := block.fRequested
  check := block.check

def chainCall : NodeCall → ChainCall
  | .acceptBlockHeader header => .acceptBlockHeader (headerArrival ctx node header)
  | .acceptBlock block => .acceptBlock (blockArrival ctx node block)
  | .activateBestChain outcomes _ => .activateBestChain outcomes
  | .invalidateBlock hash outcomes => .invalidateBlock hash outcomes

def onDisk (chain : ChainState) (hash : ℕ) : Bool :=
  ((chain.find hash).map (fun pindex => pindex.nStatus.haveData)).getD false

def undoOnDisk (chain : ChainState) (hash : ℕ) : Bool :=
  ((chain.find hash).map (fun pindex => pindex.nStatus.haveUndo)).getD false

/-- Change what is held of a block. -/
def setData (data : ℕ → BlockData) (hash : ℕ) (changed : BlockData) : ℕ → BlockData :=
  fun other => if other=hash then changed else data other

/-- What is held after a header was added, if it is new. -/
def addData (block : CBlockHeader) : ℕ → BlockData :=
  if node.chain.mapBlockIndex.contains (ctx.getHash block) then node.data
  else setData node.data (ctx.getHash block)
    (dataOf (newEntry ctx node.mapBlockIndex block))

/-- A new block has its header, a received block its position, and a connected block the position of
its undo data. -/
def performNode : NodeCall → Node
  | .acceptBlockHeader header =>
    match BlockTree.acceptBlockHeader hashGenesis node.chain
        (headerArrival ctx node header) with
    | .error _ => node
    | .ok (chain,_) => ⟨chain,addData ctx node header.block⟩
  | .acceptBlock block =>
    match BlockTree.acceptBlockHeader hashGenesis node.chain
        (headerArrival ctx node block.header) with
    | .error _ => node
    | .ok _ =>
      let chain := (BlockTree.acceptBlock hashGenesis node.chain
        (blockArrival ctx node block)).2
      let data := addData ctx node block.header.block
      let hash := ctx.getHash block.header.block
      if !onDisk node.chain hash && onDisk chain hash then
        ⟨chain,setData data hash { data hash with
          nFile := block.nFile.toNat, nDataPos := block.nPos.toNat, nUndoPos := 0 }⟩
      else ⟨chain,data⟩
  | .activateBestChain outcomes undoPos =>
    let chain := (activateBestChain ⟨node.chain,outcomes⟩).2.st
    ⟨chain,fun hash =>
      if !undoOnDisk node.chain hash && undoOnDisk chain hash then
        { node.data hash with nUndoPos := (undoPos hash).toNat }
      else node.data hash⟩
  | .invalidateBlock hash outcomes =>
    ⟨(invalidateBlock ⟨node.chain,outcomes⟩ hash).2.st,node.data⟩

/-- What is held after calls. -/
def runNode (calls : List NodeCall) : Node :=
  calls.foldl (performNode ctx hashGenesis) node

end Model

section Grow

variable {st next last : ChainState}

/-- A block keeps its place and what is on disk of it. -/
structure Grows (pindex changed : BlockTree.CBlockIndex) : Prop where
  branch : changed.branch=pindex.branch
  nChainWork : changed.nChainWork=pindex.nChainWork
  haveData : pindex.nStatus.haveData=true → changed.nStatus.haveData=true
  haveUndo : pindex.nStatus.haveUndo=true → changed.nStatus.haveUndo=true
  nTx : pindex.nTx < 2^32 → changed.nTx < 2^32

theorem Grows.refl (pindex : BlockTree.CBlockIndex) : Grows pindex pindex :=
  ⟨rfl,rfl,id,id,id⟩

theorem Grows.trans {pindex changed last : BlockTree.CBlockIndex} (hfirst : Grows pindex changed)
    (hsecond : Grows changed last) : Grows pindex last :=
  ⟨hsecond.branch.trans hfirst.branch,hsecond.nChainWork.trans hfirst.nChainWork,
    fun h => hsecond.haveData (hfirst.haveData h),fun h => hsecond.haveUndo (hfirst.haveUndo h),
    fun h => hsecond.nTx (hfirst.nTx h)⟩

/-- The same blocks are in the tree, and each of them grows. -/
structure TreeGrows (st next : ChainState) : Prop where
  kept : ∀ {hash pindex},st.find hash=some pindex →
    ∃ changed,next.find hash=some changed ∧ Grows pindex changed
  old : ∀ {hash changed},next.find hash=some changed →
    ∃ pindex,st.find hash=some pindex ∧ Grows pindex changed

theorem TreeGrows.trans (hfirst : TreeGrows st next) (hsecond : TreeGrows next last) :
    TreeGrows st last := by
  constructor
  · intro hash pindex hfind
    obtain ⟨changed,hchanged,hgrows⟩ := hfirst.kept hfind
    obtain ⟨later,hlater,hmore⟩ := hsecond.kept hchanged
    exact ⟨later,hlater,hgrows.trans hmore⟩
  · intro hash later hfind
    obtain ⟨changed,hchanged,hmore⟩ := hsecond.old hfind
    obtain ⟨pindex,hidx,hgrows⟩ := hfirst.old hchanged
    exact ⟨pindex,hidx,hgrows.trans hmore⟩

theorem treeGrows_of_map (hmap : next.mapBlockIndex=st.mapBlockIndex) : TreeGrows st next :=
  ⟨fun hfind => ⟨_,(find_of_map hmap _).trans hfind,.refl _⟩,
    fun hfind => ⟨_,(find_of_map hmap _).symm.trans hfind,.refl _⟩⟩

theorem TreeGrows.refl (st : ChainState) : TreeGrows st st := treeGrows_of_map rfl

theorem treeGrows_modify {hash : ℕ} {change : BlockTree.CBlockIndex → BlockTree.CBlockIndex}
    (hchange : ∀ pindex,Grows pindex (change pindex)) :
    TreeGrows st (st.modify hash change) := by
  constructor
  · intro other pindex hfind
    rw [find_modify,hfind]
    split
    next => exact ⟨change pindex,rfl,hchange pindex⟩
    next => exact ⟨pindex,rfl,.refl _⟩
  · intro other changed hfind
    rw [find_modify] at hfind
    split at hfind
    next =>
      obtain ⟨pindex,hidx,heq⟩ := map_eq_some_iff.mp hfind
      exact ⟨pindex,hidx,heq ▸ hchange pindex⟩
    next => exact ⟨changed,hfind,.refl _⟩

theorem treeGrows_primitive {clears : Prop} (hstep : Primitive clears st next) :
    TreeGrows st next := by
  cases hstep with
  | chain _ => exact treeGrows_of_map rfl
  | status hkept _ =>
    exact treeGrows_modify (fun pindex => ⟨rfl,rfl,fun h => by
      rw [(hkept pindex.nStatus).haveData]
      exact h,(hkept pindex.nStatus).haveUndo,id⟩)
  | sequence => exact treeGrows_modify (fun _ => ⟨rfl,rfl,id,id,id⟩)
  | numbers => exact treeGrows_of_map rfl
  | drop _ => exact treeGrows_of_map rfl
  | cand _ _ => exact treeGrows_of_map rfl
  | missing _ hmap _ => exact treeGrows_of_map hmap

theorem treeGrows_primitives {clears : Prop} (hsteps : Primitives clears st next) :
    TreeGrows st next := by
  induction hsteps with
  | refl => exact .refl _
  | tail _ hstep ih => exact ih.trans (treeGrows_primitive hstep)

theorem treeGrows_linkNext (st : ChainState) (hash : ℕ) :
    TreeGrows st (linkNext st hash) := by
  cases hfind : st.find hash with
  | none =>
    refine treeGrows_of_map ?_
    rw [linkNext,BlockTree.linkBlock,hfind]
  | some pindex =>
    have hnext : ∀ other,(linkNext st hash).find other=
        if other=hash then some (linkedIndex st pindex) else st.find other :=
      find_linkBlock hfind
    have hgrows : Grows pindex (linkedIndex st pindex) := ⟨rfl,rfl,id,id,id⟩
    constructor
    · intro other entry hentry
      rw [hnext]
      split
      next heq =>
        rw [heq,hfind] at hentry
        rw [←some.inj hentry]
        exact ⟨_,rfl,hgrows⟩
      next => exact ⟨entry,hentry,.refl _⟩
    · intro other changed hchanged
      rw [hnext] at hchanged
      split at hchanged
      next heq =>
        rw [←some.inj hchanged,heq]
        exact ⟨pindex,hfind,hgrows⟩
      next => exact ⟨changed,hchanged,.refl _⟩

theorem treeGrows_linkBlocks (rounds : ℕ) (st : ChainState) (queue : List ℕ) :
    TreeGrows st (BlockTree.linkBlocks rounds st queue) := by
  induction rounds generalizing st queue with
  | zero => exact .refl _
  | succ rounds ih =>
    cases queue with
    | nil => exact .refl _
    | cons hash queue =>
      rw [linkBlocks_succ]
      exact (treeGrows_linkNext st hash).trans (ih _ _)

theorem treeGrows_received (hash : ℕ) {nTx : ℕ} (hnTx : nTx < 2^32) :
    TreeGrows st (BlockTree.receivedBlockTransactions st hash nTx) := by
  have hmodify : TreeGrows st (st.modify hash (receivedIndex nTx)) := by
    refine treeGrows_modify (fun pindex => ?_)
    have hkept := stageKept_raiseValidity { pindex.nStatus with haveData := true } .transactions
    refine ⟨rfl,rfl,fun _ => ?_,hkept.haveUndo,fun _ => hnTx⟩
    exact hkept.haveData
  refine hmodify.trans ?_
  rw [BlockTree.receivedBlockTransactions]
  split
  next => exact .refl _
  next =>
    split
    next => exact treeGrows_linkBlocks _ _ _
    next =>
      split
      next => exact .refl _
      next =>
        split
        next => exact treeGrows_linkBlocks _ _ _
        next =>
          split
          next => exact treeGrows_of_map rfl
          next => exact .refl _

end Grow

section Sound

variable {ctx : IndexContext} {hashGenesis : ℕ} {node next : Node}

/-- What is held of a block after more came of it. -/
structure Recorded (data changed : BlockData) (nStatus : BlockStatus) : Prop where
  same : changed={ data with
    nFile := changed.nFile, nDataPos := changed.nDataPos, nUndoPos := changed.nUndoPos }
  nFile : changed.nFile=data.nFile ∨ changed.nFile < 2^32 ∧ nStatus.haveData=true
  nDataPos : changed.nDataPos=data.nDataPos ∨ changed.nDataPos < 2^32 ∧ nStatus.haveData=true
  /-- The place of undo data is new only with undo data, or it is cleared. -/
  nUndoPos : changed.nUndoPos=data.nUndoPos ∨ changed.nUndoPos < 2^32 ∧
    (nStatus.haveUndo=true ∨ changed.nUndoPos=0)

theorem Recorded.refl (data : BlockData) (nStatus : BlockStatus) : Recorded data data nStatus :=
  ⟨rfl,.inl rfl,.inl rfl,.inl rfl⟩

/-- The tree is sound, and so are the whole entries. -/
structure NodeSound (ctx : IndexContext) (node : Node) : Prop where
  tree : SoundTree node.chain
  index : IndexSound ctx node.mapBlockIndex

theorem find_mapBlockIndex (node : Node) (hash : ℕ) : node.mapBlockIndex.find hash=
    (node.chain.find hash).map (fullEntry node.data) :=
  OrderedMap.find_mapValues _ _ _

variable {pindex changed : BlockTree.CBlockIndex}

theorem Grows.sameChain (hgrows : Grows pindex changed) {data other : ℕ → BlockData}
    (hdata : Recorded (data pindex.hash) (other pindex.hash) changed.nStatus) :
    SameChain (fullEntry data pindex) (fullEntry other changed) := by
  have hbranch := hgrows.branch
  rw [BlockTree.CBlockIndex.branch,BlockTree.CBlockIndex.branch,List.cons.injEq] at hbranch
  obtain ⟨hhash,hprev⟩ := hbranch
  refine ⟨hhash,?_,?_,?_,hgrows.nChainWork,?_,?_⟩
  · rw [fullEntry,fullEntry,hprev]
  · rw [fullEntry,fullEntry,hhash,hdata.same]
  · rw [fullEntry,fullEntry,BlockTree.CBlockIndex.nHeight,BlockTree.CBlockIndex.nHeight,hprev]
  · rw [fullEntry,fullEntry,CBlockIndex.getBlockHeader,CBlockIndex.getBlockHeader,hprev,hhash,
      hdata.same]
  · rw [fullEntry,fullEntry,hhash,hdata.same]

theorem Grows.storable (hgrows : Grows pindex changed) {data other : ℕ → BlockData}
    (hdata : Recorded (data pindex.hash) (other pindex.hash) changed.nStatus)
    (hfits : Storable (toDisk (fullEntry data pindex))) :
    Storable (toDisk (fullEntry other changed)) := by
  have hsame := hgrows.sameChain hdata
  have hhash : changed.hash=pindex.hash := hsame.hash
  have hflag : ∀ {old new : Bool},(old=true → new=true) → new=false → old=false := by
    intro old new hmono hnew
    cases old with
    | false => rfl
    | true => exact absurd (hmono rfl) (by rw [hnew]; exact false_ne_true)
  refine ⟨?_,hgrows.nTx hfits.nTx,?_,?_,?_,?_,?_,?_⟩
  · exact (congrArg (· < 2^32) hsame.nHeight).mpr hfits.nHeight
  · have hfile := hfits.nFile
    dsimp only [toDisk,fullEntry] at hfile ⊢
    rw [hhash]
    cases hdata.nFile with
    | inl heq =>
      rw [heq]
      refine ⟨hfile.1,fun hnone => hfile.2 ?_⟩
      rw [or_eq_false_iff] at hnone ⊢
      exact ⟨hflag hgrows.haveData hnone.1,hflag hgrows.haveUndo hnone.2⟩
    | inr hnew =>
      refine ⟨hnew.1,fun hnone => ?_⟩
      rw [hnew.2] at hnone
      cases hnone
  · have hpos := hfits.nDataPos
    dsimp only [toDisk,fullEntry] at hpos ⊢
    rw [hhash]
    cases hdata.nDataPos with
    | inl heq =>
      rw [heq]
      exact ⟨hpos.1,fun hnone => hpos.2 (hflag hgrows.haveData hnone)⟩
    | inr hnew =>
      refine ⟨hnew.1,fun hnone => ?_⟩
      rw [hnew.2] at hnone
      cases hnone
  · have hpos := hfits.nUndoPos
    dsimp only [toDisk,fullEntry] at hpos ⊢
    rw [hhash]
    cases hdata.nUndoPos with
    | inl heq =>
      rw [heq]
      exact ⟨hpos.1,fun hnone => hpos.2 (hflag hgrows.haveUndo hnone)⟩
    | inr hnew =>
      refine ⟨hnew.1,fun hnone => ?_⟩
      cases hnew.2 with
      | inl hundo =>
        rw [hundo] at hnone
        cases hnone
      | inr hzero => exact hzero
  · exact (congrArg (· < 256^32) hsame.hash).mpr hfits.hash
  · exact (congrArg (fun pprev : Option ℕ => pprev.getD 0 < 256^32) hsame.pprev).mpr hfits.hashPrev
  · exact (congrArg (fun header : CBlockHeader => header.hashMerkleRoot < 256^32)
      hsame.header).mpr hfits.hashMerkleRoot

theorem NodeSound.grow (h : NodeSound ctx node) (htree : SoundTree next.chain)
    (hgrows : TreeGrows node.chain next.chain)
    (hdata : ∀ hash pindex,next.chain.find hash=some pindex →
      Recorded (node.data hash) (next.data hash) pindex.nStatus) : NodeSound ctx next := by
  refine ⟨htree,indexSound_grow h.index ?_ ?_⟩
  · intro hash entry hfind
    rw [find_mapBlockIndex] at hfind
    obtain ⟨pindex,hidx,heq⟩ := map_eq_some_iff.mp hfind
    obtain ⟨changed,hchanged,hgrow⟩ := hgrows.kept hidx
    have hself := h.tree.hash hidx
    refine ⟨fullEntry next.data changed,by rw [find_mapBlockIndex,hchanged,map_some],?_⟩
    rw [←heq]
    exact hgrow.sameChain (by rw [hself]; exact hdata hash changed hchanged)
  · intro hash entry hfind
    rw [find_mapBlockIndex] at hfind
    obtain ⟨changed,hchanged,heq⟩ := map_eq_some_iff.mp hfind
    obtain ⟨pindex,hidx,hgrow⟩ := hgrows.old hchanged
    have hself := h.tree.hash hidx
    have hentry : node.mapBlockIndex.find hash=some (fullEntry node.data pindex) := by
      rw [find_mapBlockIndex,hidx,map_some]
    have hrec : Recorded (node.data pindex.hash) (next.data pindex.hash) changed.nStatus := by
      rw [hself]
      exact hdata hash changed hchanged
    have hsame := hgrow.sameChain hrec
    rw [←heq]
    refine ⟨⟨?_,(h.index.hash hentry).2⟩,hgrow.storable hrec (h.index.storable hentry),
      (placed_of_find h.index hentry).same hsame⟩
    rw [hsame.hash]
    exact (h.index.hash hentry).1

theorem placed_newEntry {index : BlockIndex} (h : IndexSound ctx index) (block : CBlockHeader) :
    Placed ctx index (newEntry ctx index block) := by
  cases hfind : index.find block.hashPrevBlock with
  | none =>
    have hprev : (newEntry ctx index block).pprev=none := by
      rw [newEntry,hfind]
      rfl
    have hskip : (newEntry ctx index block).pskip=none := by
      rw [newEntry,hfind]
      rfl
    refine ⟨fun hashPrev hsome => ?_,fun _ => ?_,?_,?_,?_⟩
    · rw [hprev] at hsome
      cases hsome
    · rw [newEntry,hfind]
      rfl
    · rw [hprev,hskip]
      rfl
    · rw [hprev,newEntry,hfind]
      rfl
    · rw [hprev,newEntry,hfind]
      rfl
  | some before =>
    have hself := (h.hash hfind).1
    have hprev : (newEntry ctx index block).pprev=some block.hashPrevBlock := by
      rw [newEntry,hfind,←hself]
      rfl
    have hheight : (newEntry ctx index block).nHeight=before.nHeight+1 := by
      rw [newEntry,hfind]
      rfl
    refine ⟨fun hashPrev hsome => ?_,fun hnone => ?_,?_,?_,?_⟩
    · rw [hprev] at hsome
      rw [←some.inj hsome]
      exact ⟨before,hfind,hheight⟩
    · rw [hprev] at hnone
      cases hnone
    · rw [hprev,hheight,bind_some,hfind,bind_some,newEntry,hfind]
      dsimp only [map_some,getD_some]
      rw [buildSkip,bind_some,hself,hfind]
    · rw [hprev,bind_some,hfind,newEntry,hfind]
      rfl
    · rw [hprev,bind_some,hfind,newEntry,hfind]

/-- What a header holds fits, and its hash is not the one that stands for no block. -/
structure FittingHeader (ctx : IndexContext) (node : Node) (block : CBlockHeader) : Prop where
  hash : ctx.getHash block≠0 ∧ ctx.getHash block < 256^32
  hashMerkleRoot : block.hashMerkleRoot < 256^32
  nHeight : ∀ before,node.chain.find block.hashPrevBlock=some before → before.nHeight+1 < 2^32

section

variable (h : NodeSound ctx node)

include h

theorem storable_newEntry {block : CBlockHeader}
    (hfits : FittingHeader ctx node block) :
    Storable (toDisk (newEntry ctx node.mapBlockIndex block)) := by
  have hbefore : ∀ before,node.mapBlockIndex.find block.hashPrevBlock=some before →
      before.nHeight+1 < 2^32 ∧ before.hash < 256^32 := by
    intro before hfind
    refine ⟨?_,(h.index.storable hfind).hash⟩
    rw [find_mapBlockIndex] at hfind
    obtain ⟨pindex,hidx,heq⟩ := map_eq_some_iff.mp hfind
    rw [←heq]
    exact hfits.nHeight pindex hidx
  refine ⟨?_,?_,⟨?_,fun _ => rfl⟩,⟨?_,fun _ => rfl⟩,⟨?_,fun _ => rfl⟩,hfits.hash.2,?_,
    hfits.hashMerkleRoot⟩
  · dsimp only [toDisk,newEntry]
    cases hfind : node.mapBlockIndex.find block.hashPrevBlock with
    | none =>
      rw [map_none,getD_none]
      omega
    | some before => exact (hbefore before hfind).1
  · dsimp only [toDisk,newEntry]
    omega
  · dsimp only [toDisk,newEntry]
    omega
  · dsimp only [toDisk,newEntry]
    omega
  · dsimp only [toDisk,newEntry]
    omega
  · dsimp only [toDisk,newEntry]
    cases hfind : node.mapBlockIndex.find block.hashPrevBlock with
    | none =>
      rw [map_none,getD_none]
      omega
    | some before => exact (hbefore before hfind).2

theorem find_addData {header : HeaderCall}
    (hnew : node.chain.find (ctx.getHash header.block)=none) (other : ℕ) :
    (Node.mk (BlockTree.addToBlockIndex node.chain (headerArrival ctx node header)).1
      (addData ctx node header.block)).mapBlockIndex.find other=
      if other=ctx.getHash header.block then
        some (newEntry ctx node.mapBlockIndex header.block)
      else node.mapBlockIndex.find other := by
  have hdata : addData ctx node header.block=setData node.data (ctx.getHash header.block)
      (dataOf (newEntry ctx node.mapBlockIndex header.block)) := by
    rw [addData,if_neg]
    rw [not_eq_true]
    exact (node.chain.mapBlockIndex.contains_eq_false _).mpr hnew
  obtain ⟨pindexNew,hmap,hentry⟩ : ∃ pindexNew,
      (BlockTree.addToBlockIndex node.chain (headerArrival ctx node header)).1.mapBlockIndex=
        node.chain.mapBlockIndex.set (ctx.getHash header.block) pindexNew ∧
      fullEntry (addData ctx node header.block) pindexNew=
        newEntry ctx node.mapBlockIndex header.block := by
    rw [BlockTree.addToBlockIndex,show node.chain.find (headerArrival ctx node header).hash=none
      from hnew,hdata]
    refine ⟨_,rfl,?_⟩
    have hprev := find_mapBlockIndex node header.block.hashPrevBlock
    cases hfind : node.chain.find header.block.hashPrevBlock with
    | none =>
      rw [hfind,map_none] at hprev
      rw [show node.chain.find (headerArrival ctx node header).hashPrevBlock=none from hfind]
      dsimp only [headerArrival]
      simp only [fullEntry,setData,if_true,dataOf]
      simp only [newEntry,hprev,map_none,getD_none,Nat.zero_add]
      rfl
    | some before =>
      rw [hfind,map_some] at hprev
      rw [show node.chain.find (headerArrival ctx node header).hashPrevBlock=some before
        from hfind]
      dsimp only [headerArrival]
      simp only [fullEntry,setData,if_true,dataOf]
      simp only [newEntry,hprev]
      rfl
  rw [find_mapBlockIndex,show (Node.mk (BlockTree.addToBlockIndex node.chain
    (headerArrival ctx node header)).1 (addData ctx node header.block)).chain.find other=_
    from find_of_set hmap other]
  split
  next => rw [map_some,hentry]
  next hne =>
    rw [find_mapBlockIndex]
    cases hfind : node.chain.find other with
    | none => rfl
    | some pindex =>
      have hsame : addData ctx node header.block pindex.hash=node.data pindex.hash := by
        rw [hdata,setData,if_neg (by rw [h.tree.hash hfind]; exact hne)]
      simp only [map_some,fullEntry,hsame]

theorem NodeSound.addHeader {header : HeaderCall}
    (hnew : node.chain.find (ctx.getHash header.block)=none)
    (hfits : FittingHeader ctx node header.block) :
    NodeSound ctx ⟨(BlockTree.addToBlockIndex node.chain (headerArrival ctx node header)).1,
      addData ctx node header.block⟩ := by
  have hfind := @find_addData ctx node h header hnew
  have htree := h.tree.effects (@effects_addToBlockIndex False node.chain
    (headerArrival ctx node header))
  refine ⟨htree,indexSound_grow h.index ?_ ?_⟩
  · intro other entry hentry
    refine ⟨entry,?_,.refl _⟩
    rw [hfind,if_neg]
    · exact hentry
    · intro heq
      rw [find_mapBlockIndex,heq,hnew] at hentry
      cases hentry
  · intro other changed hchanged
    rw [hfind] at hchanged
    split at hchanged
    next heq =>
      rw [←some.inj hchanged,heq]
      exact ⟨⟨rfl,hfits.hash.1⟩,storable_newEntry h hfits,placed_newEntry h.index _⟩
    next =>
      exact ⟨h.index.hash hchanged,h.index.storable hchanged,placed_of_find h.index hchanged⟩

theorem NodeSound.header {header : HeaderCall}
    (hfits : FittingHeader ctx node header.block) {result : ChainState×BlockTree.CBlockIndex}
    (haccept : BlockTree.acceptBlockHeader hashGenesis node.chain
      (headerArrival ctx node header)=.ok result) :
    NodeSound ctx ⟨result.1,addData ctx node header.block⟩ := by
  cases acceptBlockHeader_ok haccept with
  | inl hknown =>
    have hdata : addData ctx node header.block=node.data :=
      if_pos ((node.chain.mapBlockIndex.contains_iff _).mpr ⟨_,hknown.2.1⟩)
    rw [hknown.1,hdata]
    exact h
  | inr hnew =>
    rw [hnew.2.1]
    exact h.addHeader hnew.1 hfits

end

theorem treeGrows_acceptBlock {st : ChainState} {block : BlockArrival}
    {result : ChainState×BlockTree.CBlockIndex}
    (haccept : BlockTree.acceptBlockHeader hashGenesis st block.header=.ok result)
    (hnTx : block.check=.stored → block.nTx < 2^32) :
    TreeGrows result.1 (BlockTree.acceptBlock hashGenesis st block).2 := by
  rw [BlockTree.acceptBlock,haccept]
  dsimp only
  split_ifs
  · exact .refl _
  · exact .refl _
  · cases hcheck : block.check with
    | stored => exact treeGrows_received _ (hnTx hcheck)
    | invalid => exact treeGrows_modify (fun _ => ⟨rfl,rfl,id,id,id⟩)
    | corrupted => exact .refl _
    | systemError => exact .refl _

/-- What the checks and the types of a call promise. -/
def CheckedNodeCall (ctx : IndexContext) (node : Node) : NodeCall → Prop
  | .acceptBlockHeader header => FittingHeader ctx node header.block
  | .acceptBlock block => FittingHeader ctx node block.header.block ∧
      (block.check=.stored → block.nTx≠0 ∧ block.nTx < 2^32)
  | .activateBestChain _ _ => True
  | .invalidateBlock _ _ => True

variable {pindex : BlockTree.CBlockIndex}

theorem of_onDisk {chain : ChainState} {hash : ℕ}
    (hfind : chain.find hash=some pindex) (h : onDisk chain hash=true) :
    pindex.nStatus.haveData=true := by
  rw [onDisk,hfind] at h
  exact h

theorem of_undoOnDisk {chain : ChainState} {hash : ℕ}
    (hfind : chain.find hash=some pindex) (h : undoOnDisk chain hash=true) :
    pindex.nStatus.haveUndo=true := by
  rw [undoOnDisk,hfind] at h
  exact h

theorem NodeSound.perform (h : NodeSound ctx node) {call : NodeCall}
    (hcall : CheckedNodeCall ctx node call) :
    NodeSound ctx (performNode ctx hashGenesis node call) := by
  cases call with
  | acceptBlockHeader header =>
    rw [performNode]
    split
    next => exact h
    next chain pindex haccept => exact h.header hcall haccept
  | acceptBlock block =>
    rw [performNode]
    split
    next => exact h
    next result haccept =>
      have hmid := h.header hcall.1 haccept
      have hgrows := @treeGrows_acceptBlock hashGenesis node.chain
        (blockArrival ctx node block) result haccept (fun hstored => (hcall.2 hstored).2)
      have htree := h.tree.effects (@effects_acceptBlock False hashGenesis node.chain
        (blockArrival ctx node block))
      dsimp only
      split
      next hstored =>
        rw [and_eq_true] at hstored
        refine hmid.grow htree hgrows (fun hash pindex hfind => ?_)
        dsimp only [setData]
        split
        next heq =>
          rw [heq] at hfind ⊢
          have hdata := of_onDisk hfind hstored.2
          exact ⟨rfl,.inr ⟨block.nFile.toNat_lt,hdata⟩,.inr ⟨block.nPos.toNat_lt,hdata⟩,
            .inr ⟨Nat.two_pow_pos 32,.inr rfl⟩⟩
        next => exact .refl _ _
      next => exact hmid.grow htree hgrows (fun _ _ _ => .refl _ _)
  | activateBestChain outcomes undoPos =>
    have hsteps := @primitives_activateBestChain False ⟨node.chain,outcomes⟩ h.tree
    refine h.grow (h.tree.primitives hsteps) (treeGrows_primitives hsteps)
      (fun hash pindex hfind => ?_)
    dsimp only [performNode]
    split
    next hundo =>
      rw [and_eq_true] at hundo
      exact ⟨rfl,.inl rfl,.inl rfl,
        .inr ⟨(undoPos hash).toNat_lt,.inl (of_undoOnDisk hfind hundo.2)⟩⟩
    next => exact .refl _ _
  | invalidateBlock hash outcomes =>
    have hsteps := @primitives_invalidateBlock ⟨node.chain,outcomes⟩ h.tree hash
    exact h.grow (h.tree.primitives hsteps) (treeGrows_primitives hsteps) (fun _ _ _ => .refl _ _)

theorem nodeSound_noNode (ctx : IndexContext) : NodeSound ctx noNode :=
  ⟨(linkedTree_noBlocks False 0).sound,indexSound_empty ctx⟩

theorem performNode_chain (ctx : IndexContext) (hashGenesis : ℕ) (node : Node)
    (call : NodeCall) : (performNode ctx hashGenesis node call).chain=
      perform hashGenesis node.chain (chainCall ctx node call) := by
  cases call with
  | acceptBlockHeader header =>
    dsimp only [performNode,chainCall,perform]
    cases BlockTree.acceptBlockHeader hashGenesis node.chain
      (headerArrival ctx node header) with
    | error reject => rfl
    | ok result => rfl
  | acceptBlock block =>
    dsimp only [performNode,chainCall,perform]
    cases haccept : BlockTree.acceptBlockHeader hashGenesis node.chain
        (headerArrival ctx node block.header) with
    | error reject =>
      have hblock : BlockTree.acceptBlockHeader hashGenesis node.chain
          (blockArrival ctx node block).header=.error reject := haccept
      rw [BlockTree.acceptBlock,hblock]
    | ok result =>
      dsimp only
      split <;> rfl
  | activateBestChain outcomes undoPos => rfl
  | invalidateBlock hash outcomes => rfl

/-- Every call of a run meets a condition where it is made. -/
def NodeRunMeets (ctx : IndexContext) (hashGenesis : ℕ)
    (condition : Node → NodeCall → Prop) : Node → List NodeCall → Prop
  | _,[] => True
  | node,call::calls => condition node call ∧ NodeRunMeets ctx hashGenesis condition
      (performNode ctx hashGenesis node call) calls

theorem runNode_invariant {condition : Node → NodeCall → Prop} {holds : Node → Prop}
    (hcall : ∀ {node call},holds node → condition node call →
      holds (performNode ctx hashGenesis node call))
    {calls : List NodeCall} (hholds : holds node)
    (hrun : NodeRunMeets ctx hashGenesis condition node calls) :
    holds (runNode ctx hashGenesis node calls) := by
  induction calls generalizing node with
  | nil => exact hholds
  | cons call calls ih => exact ih (hcall hholds hrun.1) hrun.2

theorem checkedCall_of_node {call : NodeCall} (hcall : CheckedNodeCall ctx node call) :
    CheckedCall (chainCall ctx node call) := by
  cases call with
  | acceptBlockHeader header => trivial
  | acceptBlock block => exact fun hstored => (hcall.2 hstored).1
  | activateBestChain outcomes undoPos => trivial
  | invalidateBlock hash outcomes => trivial

/-- A checked call where the transactions of a block can wait. -/
def OrderlyCall (ctx : IndexContext) (node : Node) (call : NodeCall) : Prop :=
  CheckedNodeCall ctx node call ∧ CanWait node.chain (chainCall ctx node call)

theorem orderly_run {calls : List NodeCall}
    (hrun : NodeRunMeets ctx hashGenesis (OrderlyCall ctx) noNode calls) :
    NodeSound ctx (runNode ctx hashGenesis noNode calls) ∧
      LinkedTree False hashGenesis (runNode ctx hashGenesis noNode calls).chain := by
  refine @runNode_invariant ctx hashGenesis noNode (OrderlyCall ctx)
    (fun node => NodeSound ctx node ∧ LinkedTree False hashGenesis node.chain) ?_ calls
    ⟨nodeSound_noNode ctx,linkedTree_noBlocks False hashGenesis⟩ hrun
  intro node call hholds hcall
  refine ⟨hholds.1.perform hcall.1,?_⟩
  rw [performNode_chain]
  exact linkedTree_perform hholds.2 ⟨checkedCall_of_node hcall.1,hcall.2⟩

/-- Transactions up to a block, as it knows them. -/
def knownTx (chain : ChainState) (hash : ℕ) : ℕ :=
  ((chain.find hash).map BlockTree.CBlockIndex.nChainTx).getD 0

theorem linked_of_prev {st : ChainState} (hlinks : Links False [] st) {hash : ℕ}
    (hfind : st.find hash=some pindex) (hnTx : 0<pindex.nTx)
    (hprev : ∀ hashPrev,pindex.pprev.head?=some hashPrev → knownTx st hashPrev≠0) :
    pindex.nChainTx=nChainTxPrev st pindex+pindex.nTx := by
  have hdata := (hlinks.data hfind).mpr (by omega)
  by_cases hlink : pindex.nChainTx=0
  · exfalso
    obtain hqueue | hwait | hstray := hlinks.waits hfind hdata hlink
    · cases hqueue
    · obtain ⟨hashPrev,hhead,hmem⟩ := hwait
      obtain ⟨other,_,_,_,_,hzero⟩ := hlinks.unlinked hmem
      have hne := hprev hashPrev hhead
      rw [knownTx] at hne
      cases hfindPrev : st.find hashPrev with
      | none =>
        rw [hfindPrev] at hne
        exact hne rfl
      | some pindexPrev =>
        rw [hfindPrev] at hne
        exact hne (hzero pindexPrev hfindPrev)
    · exact hstray.1
  · exact (hlinks.linked hfind hlink).2.2

theorem counted_of_links (hlinks : Links False [] node.chain) :
    Counted node.mapBlockIndex (knownTx node.chain) := by
  intro hash entry hfind
  rw [find_mapBlockIndex] at hfind
  obtain ⟨pindex,hidx,heq⟩ := map_eq_some_iff.mp hfind
  have hknown : knownTx node.chain hash=pindex.nChainTx := by
    rw [knownTx,hidx]
    rfl
  have hentryTx : (fullEntry node.data pindex).nTx=pindex.nTx := rfl
  have hentryPrev : (fullEntry node.data pindex).pprev=pindex.pprev.head? := rfl
  rw [hknown,←heq,hentryTx,hentryPrev,countAfter]
  by_cases hnTx : 0<pindex.nTx
  · rw [if_pos hnTx]
    cases hhead : pindex.pprev.head? with
    | none =>
      have hcount := linked_of_prev hlinks hidx hnTx (fun hashPrev hsome => by
        rw [hhead] at hsome
        cases hsome)
      rw [nChainTxPrev,hhead,bind_none] at hcount
      rw [hcount,elim_none,Nat.zero_add]
    | some hashPrev =>
      rw [elim_some]
      split
      next hcounted =>
        have hcount := linked_of_prev hlinks hidx hnTx (fun other hsome => by
          rw [hhead] at hsome
          rw [←some.inj hsome]
          exact hcounted)
        rw [hcount,nChainTxPrev,hhead,bind_some,knownTx]
        cases node.chain.find hashPrev with
        | none => rfl
        | some pindexPrev => rfl
      next hmissing =>
        by_contra hlink
        obtain ⟨pindexPrev,hfindPrev,hne⟩ := (hlinks.linked hidx hlink).2.1 hashPrev hhead
        refine hmissing ?_
        rw [knownTx,hfindPrev]
        exact hne
  · rw [if_neg hnTx]
    by_contra hlink
    have hdata := (hlinks.linked hidx hlink).1
    have hnonzero := (hlinks.data hidx).mp hdata
    omega

/-- After loading every entry is the same, but for its order, and waits for what is missing. -/
structure Restored (node : Node) (loaded : LoadedIndex) : Prop where
  find : ∀ hash,loaded.mapBlockIndex.find hash=
    (node.mapBlockIndex.find hash).map (fun entry => { entry with nSequenceId := 0 })
  unlinked : ∀ hash pindex,node.chain.find hash=some pindex → pindex.nStatus.haveData=true →
    ¬ReceivedBefore node.chain pindex →
    ∃ hashPrev,pindex.pprev.head?=some hashPrev ∧ (hashPrev,hash)∈loaded.mapBlocksUnlinked

theorem restored_of_links (h : NodeSound ctx node) (hlinks : Links False [] node.chain)
    {loaded : LoadedIndex} (hloaded : Reloaded node.mapBlockIndex (knownTx node.chain) loaded) :
    Restored node loaded := by
  constructor
  · intro hash
    rw [hloaded.find,find_mapBlockIndex]
    cases hfind : node.chain.find hash with
    | none => rfl
    | some pindex =>
      have hknown : knownTx node.chain pindex.hash=pindex.nChainTx := by
        rw [h.tree.hash hfind,knownTx,hfind]
        rfl
      rw [map_some,map_some,map_some,rebuilt]
      dsimp only [fullEntry]
      rw [hknown]
  · intro hash pindex hfind hdata hmissing
    have hremembered := remembered_of_links h.tree hlinks
    have hzero := hremembered.incomplete hash pindex hfind hdata hmissing
    have hnTx := (hlinks.data hfind).mp hdata
    have hcounted := counted_of_links hlinks hash (fullEntry node.data pindex)
      (by rw [find_mapBlockIndex,hfind,map_some])
    have hentryTx : 0<(fullEntry node.data pindex).nTx := by
      dsimp only [fullEntry]
      omega
    have hentryPrev : (fullEntry node.data pindex).pprev=pindex.pprev.head? := rfl
    rw [countAfter,if_pos hentryTx,hentryPrev,knownTx,hfind,map_some,getD_some,hzero] at hcounted
    cases hhead : pindex.pprev.head? with
    | none =>
      rw [hhead,elim_none] at hcounted
      omega
    | some hashPrev =>
      rw [hhead,elim_some] at hcounted
      refine ⟨hashPrev,rfl,(hloaded.unlinked hashPrev hash).mpr ⟨fullEntry node.data pindex,?_,
        hentryPrev.trans hhead,hentryTx,?_⟩⟩
      · rw [find_mapBlockIndex,hfind,map_some]
      · by_contra hne
        rw [if_pos hne] at hcounted
        omega

/-- After every run where blocks can wait, the index is stored and loaded with all its entries, in
whatever order. -/
theorem restored_run {calls : List NodeCall}
    (hrun : NodeRunMeets ctx hashGenesis (OrderlyCall ctx) noNode calls)
    {clientVersion : ℕ} (hver : clientVersion < 2^32) (address : ℕ → ℕ)
    {entries : List CBlockIndex}
    (hperm : entries.Perm (runNode ctx hashGenesis noNode calls).mapBlockIndex.values) :
    ∃ loaded,loadBlockIndexDB ctx address (storedValues clientVersion entries)=some loaded ∧
      Restored (runNode ctx hashGenesis noNode calls) loaded := by
  obtain ⟨hsound,htree⟩ := orderly_run hrun
  obtain ⟨loaded,hload,hreloaded⟩ := @IndexSound.reloaded ctx address _ _ hsound.index
    (counted_of_links htree.links) clientVersion hver entries hperm
  exact ⟨loaded,hload,restored_of_links hsound htree.links hreloaded⟩

end Sound

/-- Hashes are searched numbers, and all blocks have the same work. -/
def sampleContext : IndexContext := ⟨fun block => block.nNonce.toNat,fun _ => 1⟩

def sampleHeader (hash hashPrevBlock : ℕ) : HeaderCall where
  block :=
    { nVersion := 0, hashPrevBlock := hashPrevBlock, nTime := 0, nBits := 0
      nNonce := UInt32.ofNat hash }
  address := hash
  checkBlockHeader := .ok ()
  contextualCheckBlockHeader := .ok ()

/-- A valid block that was asked for. -/
def sampleCall (hash hashPrevBlock : ℕ) : NodeCall :=
  .acceptBlock
    { header := sampleHeader hash hashPrevBlock, nTx := 1, fRequested := true, check := .stored
      nFile := 0, nPos := UInt32.ofNat hash }

/-- The third block is declared invalid, and only then the last block arrives and the second. -/
def lateCalls : List NodeCall :=
  [sampleCall 1 0,.activateBestChain [.ok] (fun _ => 0),.acceptBlockHeader (sampleHeader 2 1),
    .acceptBlockHeader (sampleHeader 3 2),.acceptBlockHeader (sampleHeader 4 3),sampleCall 3 2,
    .invalidateBlock 3 [],sampleCall 4 3,sampleCall 2 1]

/-- The last block arrives before the third one is declared invalid. -/
def timelyCalls : List NodeCall :=
  [sampleCall 1 0,.activateBestChain [.ok] (fun _ => 0),.acceptBlockHeader (sampleHeader 2 1),
    .acceptBlockHeader (sampleHeader 3 2),.acceptBlockHeader (sampleHeader 4 3),sampleCall 3 2,
    sampleCall 4 3,.invalidateBlock 3 []]

theorem fittingHeader_sample {node : Node} {hash hashPrevBlock : ℕ}
    (hhash : (UInt32.ofNat hash).toNat≠0)
    (hlow : ∀ entry∈node.chain.mapBlockIndex.entries,entry.2.nHeight+1 < 2^32) :
    FittingHeader sampleContext node (sampleHeader hash hashPrevBlock).block := by
  refine ⟨⟨hhash,?_⟩,show (0 : ℕ) < 256^32 by decide,fun before hfind => ?_⟩
  · have hlt : (UInt32.ofNat hash).toNat < 2^32 := (UInt32.ofNat hash).toNat_lt
    exact Nat.lt_trans hlt (by decide)
  · exact hlow _ ((node.chain.mapBlockIndex.mem_entries_iff _ before).mpr hfind)

theorem counted_of_entries {node : Node} {count : ℕ → ℕ}
    (h : ∀ entry∈node.chain.mapBlockIndex.entries,
      count entry.1=countAfter count entry.2.nTx entry.2.pprev.head?) :
    Counted node.mapBlockIndex count := by
  intro hash entry hfind
  rw [find_mapBlockIndex] at hfind
  obtain ⟨pindex,hidx,heq⟩ := map_eq_some_iff.mp hfind
  rw [←heq]
  exact h _ ((node.chain.mapBlockIndex.mem_entries_iff hash pindex).mpr hidx)

theorem checked_lateCalls :
    NodeRunMeets sampleContext 1 (CheckedNodeCall sampleContext) noNode lateCalls := by
  have hstored : (1 : ℕ)≠0 ∧ (1 : ℕ) < 2^32 := by decide
  exact ⟨⟨fittingHeader_sample (by decide) (by decide),fun _ => hstored⟩,trivial,
    fittingHeader_sample (by decide) (by decide),fittingHeader_sample (by decide) (by decide),
    fittingHeader_sample (by decide) (by decide),
    ⟨fittingHeader_sample (by decide) (by decide),fun _ => hstored⟩,trivial,
    ⟨fittingHeader_sample (by decide) (by decide),fun _ => hstored⟩,
    ⟨fittingHeader_sample (by decide) (by decide),fun _ => hstored⟩,trivial⟩

/-- A block that came while the one before it was declared invalid is counted only after loading. -/
theorem restart_counts_forgotten :
    NodeRunMeets sampleContext 1 (CheckedNodeCall sampleContext) noNode lateCalls ∧
    (runNode sampleContext 1 noNode lateCalls).chain.mapBlockIndex.entries.map
        (fun entry => (entry.1,entry.2.nStatus.haveData,entry.2.nTx,entry.2.nChainTx))=
      [(1,true,1,1),(2,true,1,2),(3,true,1,3),(4,true,1,0)] ∧
    ∃ loaded,loadBlockIndexDB sampleContext id (storedValues 1
        (runNode sampleContext 1 noNode lateCalls).mapBlockIndex.values)=some loaded ∧
      (loaded.mapBlockIndex.find 4).map CBlockIndex.nChainTx=some 4 ∧
      ¬Restored (runNode sampleContext 1 noNode lateCalls) loaded := by
  have hsound : NodeSound sampleContext (runNode sampleContext 1 noNode lateCalls) :=
    runNode_invariant (fun hsound hcall => hsound.perform hcall) (nodeSound_noNode sampleContext)
      checked_lateCalls
  have hcounted : Counted (runNode sampleContext 1 noNode lateCalls).mapBlockIndex id :=
    counted_of_entries (by decide)
  obtain ⟨loaded,hload,hreloaded⟩ := @IndexSound.reloaded sampleContext id _ id hsound.index
    hcounted 1 (by decide) _ (List.Perm.refl _)
  have hchain : ((runNode sampleContext 1 noNode lateCalls).chain.find 4).map
      BlockTree.CBlockIndex.nChainTx=some 0 := by decide
  obtain ⟨pindex,hidx,hzero⟩ := map_eq_some_iff.mp hchain
  have hentry : (runNode sampleContext 1 noNode lateCalls).mapBlockIndex.find 4=
      some (fullEntry (runNode sampleContext 1 noNode lateCalls).data pindex) := by
    rw [find_mapBlockIndex,hidx,map_some]
  have hfound : (loaded.mapBlockIndex.find 4).map CBlockIndex.nChainTx=some 4 := by
    rw [hreloaded.find,hentry,map_some,map_some]
    exact congrArg some (hsound.tree.hash hidx)
  refine ⟨checked_lateCalls,by decide,loaded,hload,hfound,fun hback => ?_⟩
  rw [hback.find,hentry,map_some,map_some] at hfound
  have hfour : pindex.nChainTx=4 := some.inj hfound
  omega

/-- A block that came in time is counted again after loading. -/
theorem restored_timelyCalls :
    NodeRunMeets sampleContext 1 (OrderlyCall sampleContext) noNode timelyCalls ∧ (1 : ℕ) < 2^32 ∧
    ∃ loaded,loadBlockIndexDB sampleContext id (storedValues 1
        (runNode sampleContext 1 noNode timelyCalls).mapBlockIndex.values)=some loaded ∧
      Restored (runNode sampleContext 1 noNode timelyCalls) loaded := by
  have hstored : (1 : ℕ)≠0 ∧ (1 : ℕ) < 2^32 := by decide
  have hrun : NodeRunMeets sampleContext 1 (OrderlyCall sampleContext) noNode timelyCalls := by
    exact ⟨⟨⟨fittingHeader_sample (by decide) (by decide),fun _ => hstored⟩,
        canWait_of_entries (by decide) _⟩,⟨trivial,trivial⟩,
      ⟨fittingHeader_sample (by decide) (by decide),trivial⟩,
      ⟨fittingHeader_sample (by decide) (by decide),trivial⟩,
      ⟨fittingHeader_sample (by decide) (by decide),trivial⟩,
      ⟨⟨fittingHeader_sample (by decide) (by decide),fun _ => hstored⟩,
        canWait_of_entries (by decide) _⟩,
      ⟨⟨fittingHeader_sample (by decide) (by decide),fun _ => hstored⟩,
        canWait_of_entries (by decide) _⟩,⟨trivial,trivial⟩,trivial⟩
  exact ⟨hrun,by decide,restored_run hrun (by decide) id (List.Perm.refl _)⟩

end Pyrk.BlockIndexRuns
