import Pyrk.UndoData
import Pyrk.MerkleComputation
import Mathlib.Data.Nat.Pairing

/-!
# Partial merkle trees

A partial tree tells which nodes are above a matched transaction, and has the hashes of the nodes
that are not. Bits are packed into bytes, with padding bits.
-/

namespace Pyrk.PartialMerkleTree

open Transaction MerkleTree MerkleComputation Option List
open UndoData (maxBlockSize)

/-- Number of nodes at a height. -/
def calcTreeWidth (nTransactions height : ℕ) : ℕ := (nTransactions+2^height-1)%2^32/2^height

/-- Raise a height until a single node is left. -/
def raiseHeight (nTransactions : ℕ) : ℕ → ℕ → ℕ
  | 0,nHeight => nHeight
  | rounds+1,nHeight =>
    if 1 < calcTreeWidth nTransactions nHeight then raiseHeight nTransactions rounds (nHeight+1)
    else nHeight

def treeHeight (nTransactions : ℕ) : ℕ := raiseHeight nTransactions 32 0

section Hashing

variable (hash : Uint256 → Uint256 → Uint256)

/-- Hash of a node; there is none when a transaction is read that the list does not have. -/
def calcHash (nTransactions : ℕ) (vTxid : List Uint256) : ℕ → ℕ → Option Uint256
  | 0,pos => vTxid[pos]?
  | height+1,pos => do
    let left ← calcHash nTransactions vTxid height (pos*2)
    let right ←
      if pos*2+1 < calcTreeWidth nTransactions height then
        calcHash nTransactions vTxid height (pos*2+1)
      else some left
    some (hash left right)

end Hashing

/-- A partial tree, built from a block or received. -/
structure CPartialMerkleTree where
  nTransactions : ℕ
  /-- For each node on the way whether it is above a matched transaction. -/
  vBits : List Bool := []
  /-- Hashes of the nodes that are not, and of the transactions on the way. -/
  vHash : List Uint256 := []
  fBad : Bool := false
  deriving DecidableEq

section Building

variable (hash : Uint256 → Uint256 → Uint256) (vTxid : List Uint256) (vMatch : List Bool)

def positionsUnder (nTransactions height pos : ℕ) : List ℕ :=
  range' (pos*2^height) (min ((pos+1)*2^height) nTransactions-pos*2^height)

/-- Whether a node is above a matched transaction. -/
def parentOfMatch (nTransactions height pos : ℕ) : Option Bool :=
  (positionsUnder nTransactions height pos).foldlM
    (fun fParentOfMatch p => vMatch[p]?.map (fParentOfMatch || ·)) false

def storeHash (height pos : ℕ) (tree : CPartialMerkleTree) : Option CPartialMerkleTree := do
  let stored ← calcHash hash tree.nTransactions vTxid height pos
  some { tree with vHash := tree.vHash++[stored] }

/-- Store bits and hashes of a node and what is under it. -/
def traverseAndBuild : ℕ → ℕ → CPartialMerkleTree → Option CPartialMerkleTree
  | 0,pos,tree => do
    let fParentOfMatch ← parentOfMatch vMatch tree.nTransactions 0 pos
    storeHash hash vTxid 0 pos { tree with vBits := tree.vBits++[fParentOfMatch] }
  | height+1,pos,tree => do
    let fParentOfMatch ← parentOfMatch vMatch tree.nTransactions (height+1) pos
    let tree := { tree with vBits := tree.vBits++[fParentOfMatch] }
    if !fParentOfMatch then storeHash hash vTxid (height+1) pos tree
    else do
      let tree ← traverseAndBuild height (pos*2) tree
      if pos*2+1 < calcTreeWidth tree.nTransactions height then
        traverseAndBuild height (pos*2+1) tree
      else some tree

def buildPartialMerkleTree : Option CPartialMerkleTree :=
  traverseAndBuild hash vTxid vMatch (treeHeight (vTxid.length%2^32)) 0
    { nTransactions := vTxid.length%2^32 }

end Building

/-- Eight bits in a byte, the first one lowest. -/
def packByte (bits : List Bool) : UInt8 :=
  UInt8.ofNat ((range 8).foldl (fun byte p => byte ||| (bits.getD p false).toNat <<< p) 0)

def unpackByte (byte : UInt8) : List Bool := (range 8).map byte.toNat.testBit

/-- Bytes that are sent for the bits. -/
def packBits (vBits : List Bool) : List UInt8 :=
  (range ((vBits.length+7)/8)).map (fun index => packByte (vBits.drop (index*8)))

/-- What is sent of a partial tree. -/
structure SerializedTree where
  nTransactions : ℕ
  vHash : List Uint256
  vBytes : List UInt8
  deriving DecidableEq

def CPartialMerkleTree.serialize (tree : CPartialMerkleTree) : SerializedTree :=
  ⟨tree.nTransactions,tree.vHash,packBits tree.vBits⟩

def SerializedTree.deserialize (sent : SerializedTree) : CPartialMerkleTree where
  nTransactions := sent.nTransactions
  vBits := sent.vBytes.flatMap unpackByte
  vHash := sent.vHash
  fBad := false

section Extracting

variable (hash : Uint256 → Uint256 → Uint256)

/-- What is known on a walk through a partial tree. -/
structure Walk where
  nBitsUsed : ℕ := 0
  nHashUsed : ℕ := 0
  vMatch : List Uint256 := []
  vnIndex : List ℕ := []
  fBad : Bool := false
  deriving DecidableEq

/-- Use a stored hash of a matched transaction or of a node that is not followed, if there is one.
-/
def useHash (tree : CPartialMerkleTree) (fMatched : Bool) (pos : ℕ) (walk : Walk) :
    Option (Uint256×Walk) :=
  if tree.vHash.length ≤ walk.nHashUsed then some (0,{ walk with fBad := true })
  else do
    let stored ← tree.vHash[walk.nHashUsed]?
    let walk := { walk with nHashUsed := walk.nHashUsed+1 }
    if fMatched then
      some (stored,{ walk with
        vMatch := walk.vMatch++[stored]
        vnIndex := walk.vnIndex++[pos] })
    else some (stored,walk)

/-- Walk through a node and what is under it, unless a bit or a hash is missing. -/
def traverseAndExtract (tree : CPartialMerkleTree) : ℕ → ℕ → Walk → Option (Uint256×Walk)
  | 0,pos,walk =>
    if tree.vBits.length ≤ walk.nBitsUsed then some (0,{ walk with fBad := true })
    else do
      let fParentOfMatch ← tree.vBits[walk.nBitsUsed]?
      useHash tree fParentOfMatch pos { walk with nBitsUsed := walk.nBitsUsed+1 }
  | height+1,pos,walk =>
    if tree.vBits.length ≤ walk.nBitsUsed then some (0,{ walk with fBad := true })
    else do
      let fParentOfMatch ← tree.vBits[walk.nBitsUsed]?
      let walk := { walk with nBitsUsed := walk.nBitsUsed+1 }
      if !fParentOfMatch then useHash tree false pos walk
      else do
        let left ← traverseAndExtract tree height (pos*2) walk
        if pos*2+1 < calcTreeWidth tree.nTransactions height then do
          let right ← traverseAndExtract tree height (pos*2+1) left.2
          some (hash left.1 right.1,{ right.2 with fBad := right.2.fBad || right.1=left.1 })
        else some (hash left.1 left.1,left.2)

/-- Root of a partial tree with the matched transactions and positions behind given ones; null after
a failure. -/
def extractMatches (tree : CPartialMerkleTree) (vnIndex : List ℕ) : Option (Uint256×Walk) :=
  let walk : Walk := { vnIndex := vnIndex, fBad := tree.fBad }
  if tree.nTransactions=0 then some (0,walk)
  else if maxBlockSize/60<tree.nTransactions then some (0,walk)
  else if tree.nTransactions<tree.vHash.length then some (0,walk)
  else if tree.vBits.length<tree.vHash.length then some (0,walk)
  else do
    let result ← traverseAndExtract hash tree (treeHeight tree.nTransactions) 0 walk
    if result.2.fBad then some (0,result.2)
    else if (result.2.nBitsUsed+7)/8≠(tree.vBits.length+7)/8 then some (0,result.2)
    else if result.2.nHashUsed≠tree.vHash.length then some (0,result.2)
    else some result

end Extracting

theorem lt_calcTreeWidth {nTransactions height index : ℕ} (hfits : nTransactions+2^height ≤ 2^32) :
    index < calcTreeWidth nTransactions height ↔ index*2^height<nTransactions := by
  have hpositive := Nat.two_pow_pos height
  have hmod : (nTransactions+2^height-1)%2^32=nTransactions+2^height-1 :=
    Nat.mod_eq_of_lt (by omega)
  have hsucc : (index+1)*2^height=index*2^height+2^height := by ring
  rw [calcTreeWidth,hmod,← Nat.succ_le_iff,Nat.le_div_iff_mul_le hpositive]
  change (index+1)*2^height ≤ nTransactions+2^height-1 ↔ index*2^height<nTransactions
  omega

theorem raiseHeight_ok {nTransactions rounds height : ℕ} (hrounds : 32 ≤ height+rounds)
    (hheight : height ≤ 31) (hbefore : height=0 ∨ 1 < calcTreeWidth nTransactions (height-1)) :
    calcTreeWidth nTransactions (raiseHeight nTransactions rounds height) ≤ 1 ∧
    raiseHeight nTransactions rounds height ≤ 31 ∧ (raiseHeight nTransactions rounds height=0 ∨
      1 < calcTreeWidth nTransactions (raiseHeight nTransactions rounds height-1)) := by
  induction rounds generalizing height with
  | zero => omega
  | succ rounds ih =>
    unfold raiseHeight
    split_ifs with hwide
    · have hlower : height ≤ 30 := by
        by_contra htop
        have hlast : height=31 := by omega
        have hbound := Nat.mod_lt (nTransactions+2^31-1) (by norm_num : 0<2^32)
        rw [hlast,calcTreeWidth] at hwide
        omega
      exact ih (by omega) (by omega) (Or.inr hwide)
    · exact ⟨by omega,hheight,hbefore⟩

theorem treeHeight_ok {nTransactions : ℕ} (hpositive : 0<nTransactions)
    (hbound : nTransactions ≤ 2^31) :
    nTransactions ≤ 2^treeHeight nTransactions ∧ 2^treeHeight nTransactions<2*nTransactions ∧
    treeHeight nTransactions ≤ 31 := by
  have hfits : ∀ {height : ℕ}, height ≤ 31 → nTransactions+2^height ≤ 2^32 := by
    intro height hheight
    have hpow : 2^height ≤ 2^31 := Nat.pow_le_pow_right (by omega) hheight
    omega
  obtain ⟨hsingle,htop,hbefore⟩ := @raiseHeight_ok nTransactions 32 0 (by omega) (by omega)
    (Or.inl rfl)
  change calcTreeWidth nTransactions (treeHeight nTransactions) ≤ 1 at hsingle
  change treeHeight nTransactions ≤ 31 at htop
  change treeHeight nTransactions=0 ∨
    1 < calcTreeWidth nTransactions (treeHeight nTransactions-1) at hbefore
  have hall := mt (lt_calcTreeWidth (hfits htop)).mpr (not_lt_of_ge hsingle)
  refine ⟨by omega,?_,htop⟩
  rcases hbefore with hzero | hwide
  · rw [hzero]
    omega
  · have hmore := (lt_calcTreeWidth (hfits (by omega))).mp hwide
    by_cases hzero : treeHeight nTransactions=0
    · rw [hzero]
      omega
    · obtain ⟨height,hheight⟩ := Nat.exists_eq_succ_of_ne_zero hzero
      rw [hheight,Nat.succ_sub_one] at hmore
      rw [hheight,pow_succ]
      omega

theorem height_unique {count low high : ℕ} (hlow : count ≤ 2^low) (hlowLess : 2^low<2*count)
    (hhigh : count ≤ 2^high) (hhighLess : 2^high<2*count) : low=high := by
  have hstrict : ∀ {below above : ℕ}, count ≤ 2^below → 2^above<2*count → above ≤ below := by
    intro below above hfits hless
    by_contra hlt
    have hpow : 2^(below+1) ≤ 2^above := Nat.pow_le_pow_right (by omega) (by omega)
    rw [pow_succ] at hpow
    omega
  exact le_antisymm (hstrict hhigh hlowLess) (hstrict hlow hhighLess)

theorem calcHash_ok (hash : Uint256 → Uint256 → Uint256) {leaves : List Uint256} {height pos : ℕ}
    (hlen : leaves.length ≤ 2^31) (hheight : height ≤ 31) (hpos : pos*2^height<leaves.length) :
    calcHash hash leaves.length leaves height pos=some (nodeAt hash leaves height pos) := by
  induction height generalizing pos with
  | zero =>
    have hlt : pos<leaves.length := by simpa using hpos
    rw [calcHash,nodeAt_zero hash hlt,getElem?_eq_getElem hlt]
  | succ height ih =>
    have hpow : 2^height ≤ 2^31 := Nat.pow_le_pow_right (by omega) (by omega)
    have hstart : pos*2^(height+1)=pos*2*2^height := by ring
    have hcomm : pos*2=2*pos := Nat.mul_comm pos 2
    have hleft := @ih (pos*2) (by omega) (hstart ▸ hpos)
    have hwidth := @lt_calcTreeWidth leaves.length height (pos*2+1) (by omega)
    unfold calcHash
    rw [hleft]
    dsimp only [bind_eq_bind,bind_some]
    by_cases hpair : (2*pos+1)*2^height<leaves.length
    · have hright := @ih (pos*2+1) (by omega) (hcomm ▸ hpair)
      rw [if_pos (hwidth.mpr (hcomm ▸ hpair)),hright,nodeAt_pair hash hpair,hcomm]
      rfl
    · rw [if_neg (mt hwidth.mp (hcomm ▸ hpair)),nodeAt_single hash (not_lt.mp hpair),hcomm]

theorem merkleComputation_root {hash : Uint256 → Uint256 → Uint256} {leaves : List Uint256} {p : ℕ}
    {result : Rising} (hleaves : leaves≠[]) (hlen : leaves.length ≤ 2^31)
    (h : merkleComputation hash leaves p=some result) :
    result.h=nodeAt hash leaves (treeHeight leaves.length) 0 := by
  obtain ⟨hfits,hless,-⟩ := treeHeight_ok (length_pos_iff.mpr hleaves) hlen
  obtain ⟨height,hfitsHeight,hlessHeight,hh,-⟩ := merkleComputation_ok hleaves h
  rw [hh,height_unique hfitsHeight hlessHeight hfits hless]

theorem computeMerkleRoot_ok (hash : Uint256 → Uint256 → Uint256) {leaves : List Uint256}
    (hleaves : leaves≠[]) (hlen : leaves.length ≤ 2^31) :
    ∃ mutated, computeMerkleRoot hash leaves=
      some (nodeAt hash leaves (treeHeight leaves.length) 0,mutated) := by
  obtain ⟨result,hres⟩ := @merkleComputation_isSome hash leaves (2^32-1) hlen
  refine ⟨result.mutated,?_⟩
  rw [computeMerkleRoot,hres,map_some,merkleComputation_root hleaves hlen hres]

/-- The root is the recursive one at the full height, and each branch leads to it. -/
theorem root_branch_agree (hash : Uint256 → Uint256 → Uint256) (leaves : List Uint256)
    (hleaves : leaves≠[]) (hlen : leaves.length<2^31) :
    ∃ root mutated, computeMerkleRoot hash leaves=some (root,mutated) ∧
      calcHash hash leaves.length leaves (treeHeight leaves.length) 0=some root ∧
      ∀ p, ∀ hp : p<leaves.length, ∃ branch, computeMerkleBranch hash leaves p=some branch ∧
        computeMerkleRootFromBranch hash leaves[p] branch p=root := by
  have hpositive : 0<leaves.length := length_pos_iff.mpr hleaves
  obtain ⟨hfits,hless,hheight⟩ := treeHeight_ok hpositive (by omega)
  have hroot := @calcHash_ok hash leaves (treeHeight leaves.length) 0 (by omega) hheight
    (by rw [Nat.zero_mul]; exact hpositive)
  obtain ⟨mutated,hcomputed⟩ := computeMerkleRoot_ok hash hleaves (by omega)
  refine ⟨nodeAt hash leaves (treeHeight leaves.length) 0,mutated,hcomputed,hroot,?_⟩
  intro p hp
  obtain ⟨result,hres⟩ := @merkleComputation_isSome hash leaves p (by omega)
  obtain ⟨height,-,-,-,-,hbranch⟩ := merkleComputation_ok hleaves hres
  have hleaf := hbranch hp
  rw [getD_eq_getElem _ _ hp,merkleComputation_root hleaves (by omega) hres] at hleaf
  exact ⟨result.branch,by rw [computeMerkleBranch,hres,map_some],hleaf⟩

/-- Three leaves, with the last one on both sides. -/
theorem root_branch_agree_three :
    ∃ root mutated, computeMerkleRoot Nat.pair [1,2,3]=some (root,mutated) ∧
      calcHash Nat.pair [1,2,3].length [1,2,3] (treeHeight [1,2,3].length) 0=some root ∧
      ∀ p, ∀ hp : p<[1,2,3].length, ∃ branch, computeMerkleBranch Nat.pair [1,2,3] p=some branch ∧
        computeMerkleRootFromBranch Nat.pair [1,2,3][p] branch p=root :=
  root_branch_agree Nat.pair [1,2,3] (cons_ne_nil _ _) (by norm_num)

end Pyrk.PartialMerkleTree
