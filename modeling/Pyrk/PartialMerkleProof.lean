import Pyrk.PartialMerkleTree

/-!
# Proofs by partial merkle trees

A partial tree that is built, sent and received gives back the root and the matched transactions.
What any received tree with that root reports is in the block.
-/

namespace Pyrk.PartialMerkleTree

open Transaction MerkleTree MerkleComputation List
open UndoData (maxBlockSize)

section Packing

theorem testBit_packed (bit : ℕ → Bool) (count p : ℕ) :
    ((range count).foldl (fun byte p => byte ||| (bit p).toNat <<< p) 0).testBit p=
      (decide (p < count) && bit p) := by
  induction count with
  | zero => simp
  | succ count ih =>
    rw [range_succ,foldl_append,foldl_cons,foldl_nil,Nat.testBit_or,ih,
      Nat.testBit_shiftLeft,Nat.testBit_bool_toNat]
    by_cases hlast : p=count
    · rw [hlast]
      simp
    · have hsub : ¬(p ≥ count ∧ p-count=0) := by omega
      have hlt : p < count ↔ p < count+1 := by omega
      by_cases hge : p ≥ count
      · have hne : p-count≠0 := by omega
        simp [hge,hne,hlt]
      · simp [hge,hlt]

variable (bits : List Bool)

theorem unpackByte_packByte :
    unpackByte (packByte bits)=(range 8).map (bits.getD · false) := by
  refine map_congr_left ?_
  intro p hp
  have hlt := mem_range.mp hp
  rw [packByte,UInt8.toNat_ofNat',Nat.testBit_mod_two_pow,
    testBit_packed (fun p => bits.getD p false)]
  simp [hlt]

theorem flatMap_bytes (count : ℕ) : (range count).flatMap (fun index =>
      (range 8).map ((bits.drop (index*8)).getD · false))=
    (range (count*8)).map (bits.getD · false) := by
  induction count with
  | zero => rfl
  | succ count ih =>
    have hbyte : (range 8).map ((bits.drop (count*8)).getD · false)=
        (range 8).map (fun p => bits.getD (count*8+p) false) := by
      grind
    have hsucc : (count+1)*8=count*8+8 := by ring
    rw [@range_succ count,flatMap_append,ih,hsucc,range_add,map_append,map_map,
      flatMap_singleton,hbyte]
    rfl

theorem map_getD_range (padding : ℕ) : (range (bits.length+padding)).map (bits.getD · false)=
      bits++replicate padding false := by
  refine ext_getElem (by simp) ?_
  grind

theorem unpack_packBits (vBits : List Bool) :
    (packBits vBits).flatMap unpackByte=
      vBits++replicate ((vBits.length+7)/8*8-vBits.length) false := by
  have hfits : (vBits.length+7)/8*8=vBits.length+((vBits.length+7)/8*8-vBits.length) := by omega
  rw [packBits,flatMap_map]
  simp only [unpackByte_packByte]
  rw [flatMap_bytes,hfits,map_getD_range,Nat.add_sub_cancel_left]

end Packing

section Positions

variable {nTransactions height pos : ℕ}

theorem positionsUnder_pair (hpair : (2*pos+1)*2^height<nTransactions) :
    positionsUnder nTransactions (height+1) pos=
      positionsUnder nTransactions height (2*pos)++positionsUnder nTransactions height
        (2*pos+1) := by
  have hstart : pos*2^(height+1)=2*pos*2^height := by ring
  have hend : (pos+1)*2^(height+1)=2*pos*2^height+2^height+2^height := by ring
  have hmid : (2*pos+1)*2^height=2*pos*2^height+2^height := by ring
  have hlast : (2*pos+1+1)*2^height=2*pos*2^height+2^height+2^height := by ring
  rw [hmid] at hpair
  have hleft : min (2*pos*2^height+2^height) nTransactions-2*pos*2^height=2^height := by
    rw [min_eq_left (by omega),Nat.add_sub_cancel_left]
  have hboth := @range'_append (2*pos*2^height) (2^height)
    (min (2*pos*2^height+2^height+2^height) nTransactions-(2*pos*2^height+2^height)) 1
  rw [positionsUnder,positionsUnder,positionsUnder,hstart,hend,hmid,hlast,hleft]
  rw [Nat.one_mul] at hboth
  rw [hboth]
  congr 1
  omega

theorem positionsUnder_single (hsingle : nTransactions ≤ (2*pos+1)*2^height) :
    positionsUnder nTransactions (height+1) pos=positionsUnder nTransactions height (2*pos) := by
  have hstart : pos*2^(height+1)=2*pos*2^height := by ring
  have hend : (pos+1)*2^(height+1)=2*pos*2^height+2^height+2^height := by ring
  have hmid : (2*pos+1)*2^height=2*pos*2^height+2^height := by ring
  rw [positionsUnder,positionsUnder,hstart,hend,hmid]
  congr 1
  omega

theorem lt_of_mem_positionsUnder {p : ℕ} (h : p∈positionsUnder nTransactions height pos) :
    p<nTransactions := by
  obtain ⟨hge,hlt⟩ := mem_range'_1.mp h
  have hmin := min_le_right ((pos+1)*2^height) nTransactions
  omega

theorem length_positionsUnder (hpos : pos*2^height<nTransactions) :
    0<(positionsUnder nTransactions height pos).length := by
  have hpositive := Nat.two_pow_pos height
  have hend : (pos+1)*2^height=pos*2^height+2^height := by ring
  rw [positionsUnder,length_range',hend]
  omega

theorem positionsUnder_zero (hpos : pos<nTransactions) : positionsUnder nTransactions 0
    pos=[pos] := by
  have hone : min ((pos+1)*2^0) nTransactions-pos*2^0=1 := by
    rw [pow_zero,Nat.mul_one,Nat.mul_one]
    omega
  rw [positionsUnder,hone,pow_zero,Nat.mul_one]
  rfl

theorem positionsUnder_root (hfits : nTransactions ≤ 2^height) :
    positionsUnder nTransactions height 0=range nTransactions := by
  have hall : min ((0+1)*2^height) nTransactions-0*2^height=nTransactions := by
    rw [Nat.zero_add,Nat.one_mul,Nat.zero_mul]
    omega
  rw [positionsUnder,hall,Nat.zero_mul,range_eq_range']

theorem parentOfMatch_ok {vMatch : List Bool} (hlen : vMatch.length=nTransactions) :
    parentOfMatch vMatch nTransactions height pos=
      some ((positionsUnder nTransactions height pos).any (vMatch.getD · false)) := by
  have hfold : ∀ (positions : List ℕ) (found : Bool), (∀ p∈positions, p<vMatch.length) →
      positions.foldlM (fun fParentOfMatch p => vMatch[p]?.map (fParentOfMatch || ·)) found=
        some (found || positions.any (vMatch.getD · false)) := by
    intro positions
    induction positions with
    | nil => simp
    | cons p positions ih =>
      intro found hlt
      have hp := hlt p mem_cons_self
      rw [foldlM_cons,getElem?_eq_getElem hp,Option.map_some]
      dsimp only [Option.bind_eq_bind,Option.bind_some]
      rw [ih _ (fun other hm => hlt other (mem_cons_of_mem _ hm)),any_cons,
        getD_eq_getElem _ _ hp,Bool.or_assoc]
  have hlt : ∀ p∈positionsUnder nTransactions height pos, p<vMatch.length := by
    intro p hp
    rw [hlen]
    exact lt_of_mem_positionsUnder hp
  rw [parentOfMatch,hfold _ _ hlt,Bool.false_or]

end Positions

section Reading

variable {hash : Uint256 → Uint256 → Uint256} {tree : CPartialMerkleTree} {walk : Walk}

theorem getElem?_of_drop {α : Type} {values rest : List α} {used : ℕ} {value : α}
    (h : values.drop used=value::rest) :
    used<values.length ∧ values[used]?=some value ∧ values.drop (used+1)=rest := by
  have hread : values[used]?=some value := by
    have hdrop := @getElem?_drop α values used 0
    rw [h] at hdrop
    exact hdrop.symm
  have hlt : used<values.length := by
    by_contra hge
    rw [getElem?_eq_none (not_lt.mp hge)] at hread
    cases hread
  refine ⟨hlt,hread,?_⟩
  rw [← drop_drop,h]
  rfl

theorem useHash_ok {fMatched : Bool} {pos : ℕ} {stored : Uint256} {rest : List Uint256}
    (h : tree.vHash.drop walk.nHashUsed=stored::rest) :
    useHash tree fMatched pos walk=some (stored,
      { walk with
        nHashUsed := walk.nHashUsed+1
        vMatch := walk.vMatch++if fMatched then [stored] else []
        vnIndex := walk.vnIndex++if fMatched then [pos] else [] }) := by
  obtain ⟨hlt,hread,-⟩ := getElem?_of_drop h
  unfold useHash
  rw [if_neg (not_le.mpr hlt),hread]
  cases fMatched with
  | false => simp
  | true => rfl

theorem traverse_unmatched {height pos : ℕ} {bits : List Bool}
    (h : tree.vBits.drop walk.nBitsUsed=false::bits) :
    traverseAndExtract hash tree height pos walk=
      useHash tree false pos { walk with nBitsUsed := walk.nBitsUsed+1 } := by
  obtain ⟨hlt,hread,-⟩ := getElem?_of_drop h
  cases height with
  | zero =>
    unfold traverseAndExtract
    rw [if_neg (not_le.mpr hlt),hread]
    rfl
  | succ height =>
    unfold traverseAndExtract
    rw [if_neg (not_le.mpr hlt),hread]
    rfl

theorem traverse_matched {height pos : ℕ} {bits : List Bool}
    (h : tree.vBits.drop walk.nBitsUsed=true::bits) :
    traverseAndExtract hash tree (height+1) pos walk=(traverseAndExtract hash tree height (pos*2)
        { walk with nBitsUsed := walk.nBitsUsed+1 }).bind (fun left =>
        if pos*2+1 < calcTreeWidth tree.nTransactions height then
          (traverseAndExtract hash tree height (pos*2+1) left.2).bind (fun right =>
            some (hash left.1 right.1,{ right.2 with fBad := right.2.fBad || right.1=left.1 }))
        else some (hash left.1 left.1,left.2)) := by
  obtain ⟨hlt,hread,-⟩ := getElem?_of_drop h
  rw [traverseAndExtract,if_neg (not_le.mpr hlt),hread]
  rfl

end Reading

section Completeness

variable (hash : Uint256 → Uint256 → Uint256) (leaves : List Uint256) (vMatch : List Bool)

def matchedUnder (height pos : ℕ) : List ℕ :=
  (positionsUnder leaves.length height pos).filter (vMatch.getD · false)

/-- The walk after a node whose bits and hashes were used. -/
def Walk.advance (walk : Walk) (bits hashes : ℕ) (positions : List ℕ) : Walk where
  nBitsUsed := walk.nBitsUsed+bits
  nHashUsed := walk.nHashUsed+hashes
  vMatch := walk.vMatch++positions.map (leaves.getD · 0)
  vnIndex := walk.vnIndex++positions
  fBad := walk.fBad

/-- Bits and hashes that are stored for a node, and give it back. -/
structure Stored (height pos : ℕ) (bits : List Bool) (hashes : List Uint256) : Prop where
  build : ∀ vBits vHash fBad,
    traverseAndBuild hash leaves vMatch height pos ⟨leaves.length,vBits,vHash,fBad⟩=
      some ⟨leaves.length,vBits++bits,vHash++hashes,fBad⟩
  enoughBits : hashes.length ≤ bits.length
  /-- There is at most one hash for each transaction. -/
  fewHashes : hashes.length ≤ (positionsUnder leaves.length height pos).length
  /-- The walk through a tree with them ends at the hash of the node. -/
  extract : ∀ (tree : CPartialMerkleTree) (walk : Walk) (restBits : List Bool)
    (restHashes : List Uint256), tree.nTransactions=leaves.length →
    tree.vBits.drop walk.nBitsUsed=bits++restBits →
    tree.vHash.drop walk.nHashUsed=hashes++restHashes →
    traverseAndExtract hash tree height pos walk=some (nodeAt hash leaves height pos,
      walk.advance leaves bits.length hashes.length (matchedUnder leaves vMatch height pos))

variable {hash leaves vMatch}

theorem stored_unmatched {height pos : ℕ} (hlen : leaves.length ≤ 2^31) (hheight : height ≤ 31)
    (hmatch : vMatch.length=leaves.length) (hpos : pos*2^height<leaves.length)
    (hnone : (positionsUnder leaves.length height pos).any (vMatch.getD · false)=false) :
    Stored hash leaves vMatch height pos [false] [nodeAt hash leaves height pos] := by
  have hempty : matchedUnder leaves vMatch height pos=[] := by
    refine filter_eq_nil_iff.mpr ?_
    intro p hp
    have hall := any_eq_false.mp hnone p hp
    simpa using hall
  constructor
  · intro vBits vHash fBad
    have hpar := @parentOfMatch_ok leaves.length height pos vMatch hmatch
    have hcalc := calcHash_ok hash hlen hheight hpos
    rw [hnone] at hpar
    cases height with
    | zero =>
      unfold traverseAndBuild
      rw [hpar]
      dsimp only [Option.bind_eq_bind,Option.bind_some]
      rw [storeHash,hcalc]
      rfl
    | succ height =>
      unfold traverseAndBuild
      rw [hpar]
      dsimp only [Option.bind_eq_bind,Option.bind_some]
      rw [if_pos (by rfl),storeHash,hcalc]
      rfl
  · exact le_refl 1
  · exact length_positionsUnder hpos
  · intro tree walk restBits restHashes _ hbits hhashes
    rw [traverse_unmatched hbits]
    have huse := @useHash_ok tree { walk with nBitsUsed := walk.nBitsUsed+1 } false pos _ _ hhashes
    rw [huse,hempty]
    simp [Walk.advance]

theorem stored_leaf {pos : ℕ} (hlen : leaves.length ≤ 2^31)
    (hmatch : vMatch.length=leaves.length) (hpos : pos<leaves.length)
    (hset : vMatch.getD pos false=true) :
    Stored hash leaves vMatch 0 pos [true] [nodeAt hash leaves 0 pos] := by
  have hunder := positionsUnder_zero hpos
  have hfits : pos*2^0<leaves.length := by simpa using hpos
  have hmatched : matchedUnder leaves vMatch 0 pos=[pos] := by
    rw [matchedUnder,hunder,filter_singleton,hset]
    rfl
  constructor
  · intro vBits vHash fBad
    have hpar := @parentOfMatch_ok leaves.length 0 pos vMatch hmatch
    have hcalc := calcHash_ok hash hlen (by omega : 0 ≤ 31) hfits
    rw [hunder,any_cons,hset,Bool.true_or] at hpar
    unfold traverseAndBuild
    rw [hpar]
    dsimp only [Option.bind_eq_bind,Option.bind_some]
    rw [storeHash,hcalc]
    rfl
  · exact le_refl 1
  · exact length_positionsUnder hfits
  · intro tree walk restBits restHashes _ hbits hhashes
    obtain ⟨hlt,hread,-⟩ := getElem?_of_drop hbits
    have huse := @useHash_ok tree { walk with nBitsUsed := walk.nBitsUsed+1 } true pos _ _ hhashes
    have hleaf : leaves.getD pos 0=nodeAt hash leaves 0 pos := by
      rw [nodeAt_zero hash hpos,getD_eq_getElem _ _ hpos]
    rw [traverseAndExtract,if_neg (not_le.mpr hlt),hread]
    dsimp only [Option.bind_eq_bind,Option.bind_some]
    rw [huse,hmatched]
    simp only [Walk.advance,map_cons,map_nil,hleaf,if_true,length_singleton]

theorem stored_pair (hinj : ∀ a b c d, hash a b=hash c d → a=c ∧ b=d) (hnodup : leaves.Nodup)
    {height pos : ℕ} (hlen : leaves.length ≤ 2^31) (hheight : height ≤ 30)
    (hmatch : vMatch.length=leaves.length) (hpair : (2*pos+1)*2^height<leaves.length)
    (hsome : (positionsUnder leaves.length (height+1) pos).any (vMatch.getD · false)=true)
    {leftBits rightBits : List Bool} {leftHashes rightHashes : List Uint256}
    (hleft : Stored hash leaves vMatch height (2*pos) leftBits leftHashes)
    (hright : Stored hash leaves vMatch height (2*pos+1) rightBits rightHashes) :
    Stored hash leaves vMatch (height+1) pos (true::(leftBits++rightBits))
      (leftHashes++rightHashes) := by
  have hcomm : pos*2=2*pos := Nat.mul_comm pos 2
  have hpow : 2^height ≤ 2^30 := Nat.pow_le_pow_right (by omega) hheight
  have hwidth : pos*2+1 < calcTreeWidth leaves.length height :=
    (lt_calcTreeWidth (by omega)).mpr (hcomm ▸ hpair)
  have hunder := positionsUnder_pair hpair
  have hbitsLeft := hleft.enoughBits
  have hbitsRight := hright.enoughBits
  constructor
  · intro vBits vHash fBad
    have hpar := @parentOfMatch_ok leaves.length (height+1) pos vMatch hmatch
    rw [hsome] at hpar
    unfold traverseAndBuild
    rw [hpar]
    dsimp only [Option.bind_eq_bind,Option.bind_some]
    rw [if_neg (by simp),hcomm,hleft.build]
    dsimp only [Option.bind_eq_bind,Option.bind_some]
    rw [if_pos (hcomm ▸ hwidth),hright.build]
    simp [append_assoc]
  · simp only [length_append,length_cons]
    omega
  · have hhashesLeft := hleft.fewHashes
    have hhashesRight := hright.fewHashes
    rw [hunder,length_append,length_append]
    omega
  · intro tree walk restBits restHashes htree hbits hhashes
    rw [cons_append,append_assoc] at hbits
    rw [append_assoc] at hhashes
    obtain ⟨-,-,hrest⟩ := getElem?_of_drop hbits
    have hnext : ∀ {α : Type} {values before after : List α} {used : ℕ},
        values.drop used=before++after → values.drop (used+before.length)=after := by
      intro α values before after used hdrop
      rw [← drop_drop,hdrop,drop_left]
    have hne := nodeAt_ne_of_nodup hinj hnodup hpair
    have hfirst := hleft.extract tree { walk with nBitsUsed := walk.nBitsUsed+1 } _ _ htree hrest
      hhashes
    have hsecond := hright.extract tree (Walk.advance leaves
      { walk with nBitsUsed := walk.nBitsUsed+1 } leftBits.length leftHashes.length
      (matchedUnder leaves vMatch height (2*pos))) _ _ htree (hnext hrest) (hnext hhashes)
    rw [traverse_matched hbits,hcomm,hfirst,Option.bind_some,htree,if_pos (hcomm ▸ hwidth),hsecond,
      Option.bind_some,nodeAt_pair hash hpair]
    have hmatched : matchedUnder leaves vMatch (height+1) pos=
        matchedUnder leaves vMatch height (2*pos)++matchedUnder leaves vMatch height (2*pos+1) := by
      rw [matchedUnder,hunder,filter_append]
      rfl
    rw [hmatched]
    simp [Walk.advance,hne.symm,Nat.add_assoc,Nat.add_comm 1]

/-- A node without a right half that is followed stores what its left half does. -/
theorem stored_single {height pos : ℕ} (hlen : leaves.length ≤ 2^31) (hheight : height ≤ 30)
    (hmatch : vMatch.length=leaves.length) (hsingle : leaves.length ≤ (2*pos+1)*2^height)
    (hsome : (positionsUnder leaves.length (height+1) pos).any (vMatch.getD · false)=true)
    {leftBits : List Bool} {leftHashes : List Uint256}
    (hleft : Stored hash leaves vMatch height (2*pos) leftBits leftHashes) :
    Stored hash leaves vMatch (height+1) pos (true::leftBits) leftHashes := by
  have hcomm : pos*2=2*pos := Nat.mul_comm pos 2
  have hpow : 2^height ≤ 2^30 := Nat.pow_le_pow_right (by omega) hheight
  have hwidth : ¬2*pos+1 < calcTreeWidth leaves.length height :=
    mt (lt_calcTreeWidth (by omega)).mp (not_lt.mpr hsingle)
  have hunder := positionsUnder_single hsingle
  have hbitsLeft := hleft.enoughBits
  constructor
  · intro vBits vHash fBad
    have hpar := @parentOfMatch_ok leaves.length (height+1) pos vMatch hmatch
    rw [hsome] at hpar
    unfold traverseAndBuild
    rw [hpar]
    dsimp only [Option.bind_eq_bind,Option.bind_some]
    rw [if_neg (by simp),hcomm,hleft.build]
    grind
  · rw [length_cons]
    omega
  · exact hunder ▸ hleft.fewHashes
  · intro tree walk restBits restHashes htree hbits hhashes
    rw [cons_append] at hbits
    obtain ⟨-,-,hrest⟩ := getElem?_of_drop hbits
    have hfirst := hleft.extract tree { walk with nBitsUsed := walk.nBitsUsed+1 } _ _ htree hrest
      hhashes
    rw [traverse_matched hbits,hcomm,hfirst,Option.bind_some,htree,if_neg hwidth,
      nodeAt_single hash hsingle]
    have hmatched : matchedUnder leaves vMatch (height+1) pos=
        matchedUnder leaves vMatch height (2*pos) := by
      rw [matchedUnder,hunder]
      rfl
    rw [hmatched]
    simp [Walk.advance,Nat.add_assoc,Nat.add_comm 1]

theorem exists_stored (hinj : ∀ a b c d, hash a b=hash c d → a=c ∧ b=d) (hnodup : leaves.Nodup)
    {height pos : ℕ} (hlen : leaves.length ≤ 2^31) (hheight : height ≤ 31)
    (hmatch : vMatch.length=leaves.length) (hpos : pos*2^height<leaves.length) :
    ∃ bits hashes, Stored hash leaves vMatch height pos bits hashes := by
  induction height generalizing pos with
  | zero =>
    have hlt : pos<leaves.length := by simpa using hpos
    by_cases hset : vMatch.getD pos false=true
    · exact ⟨_,_,stored_leaf hlen hmatch hlt hset⟩
    · have hnone : (positionsUnder leaves.length 0 pos).any (vMatch.getD · false)=false := by
        rw [positionsUnder_zero hlt]
        simpa using hset
      exact ⟨_,_,stored_unmatched hlen hheight hmatch hpos hnone⟩
  | succ height ih =>
    cases hany : (positionsUnder leaves.length (height+1) pos).any (vMatch.getD · false) with
    | false => exact ⟨_,_,stored_unmatched hlen hheight hmatch hpos hany⟩
    | true =>
      have hstart : pos*2^(height+1)=2*pos*2^height := by ring
      obtain ⟨leftBits,leftHashes,hleft⟩ := @ih (2*pos) (by omega) (hstart ▸ hpos)
      by_cases hpair : (2*pos+1)*2^height<leaves.length
      · obtain ⟨rightBits,rightHashes,hright⟩ := @ih (2*pos+1) (by omega) hpair
        exact ⟨_,_,stored_pair hinj hnodup hlen (by omega) hmatch hpair hany hleft hright⟩
      · exact ⟨_,_,stored_single hlen (by omega) hmatch (not_lt.mp hpair) hany hleft⟩

theorem extractMatches_build (hinj : ∀ a b c d, hash a b=hash c d → a=c ∧ b=d)
    (hleaves : leaves≠[]) (hnodup : leaves.Nodup) (hlen : leaves.length ≤ maxBlockSize/60)
    (hmatch : vMatch.length=leaves.length) (vnIndex : List ℕ) :
    ∃ tree walk, buildPartialMerkleTree hash leaves vMatch=some tree ∧
      extractMatches hash tree.serialize.deserialize vnIndex=
        some (nodeAt hash leaves (treeHeight leaves.length) 0,walk) ∧
      walk.vMatch=((range leaves.length).filter (vMatch.getD · false)).map (leaves.getD · 0) ∧
      walk.vnIndex=vnIndex++(range leaves.length).filter (vMatch.getD · false) := by
  have hpositive : 0<leaves.length := length_pos_iff.mpr hleaves
  have hmax : maxBlockSize/60=33333 := rfl
  obtain ⟨hfits,-,hheight⟩ := treeHeight_ok hpositive (by omega)
  have hmod : leaves.length%2^32=leaves.length := Nat.mod_eq_of_lt (by omega)
  have hroot := positionsUnder_root hfits
  obtain ⟨bits,hashes,hstored⟩ := @exists_stored hash leaves vMatch hinj hnodup
    (treeHeight leaves.length) 0 (by omega) hheight hmatch (by rw [Nat.zero_mul]; exact hpositive)
  have henough := hstored.enoughBits
  have hfew := hstored.fewHashes
  rw [hroot,length_range] at hfew
  have hmatched : matchedUnder leaves vMatch (treeHeight leaves.length) 0=
      (range leaves.length).filter (vMatch.getD · false) := by rw [matchedUnder,hroot]
  have hbuild : buildPartialMerkleTree hash leaves vMatch=
      some ⟨leaves.length,bits,hashes,false⟩ := by
    rw [buildPartialMerkleTree,hmod,hstored.build]
    rfl
  have hrecv : (CPartialMerkleTree.serialize ⟨leaves.length,bits,hashes,false⟩).deserialize=
      ⟨leaves.length,bits++replicate ((bits.length+7)/8*8-bits.length) false,hashes,false⟩ := by
    rw [CPartialMerkleTree.serialize,SerializedTree.deserialize,unpack_packBits]
  have hwalk := hstored.extract
    ⟨leaves.length,bits++replicate ((bits.length+7)/8*8-bits.length) false,hashes,false⟩
    { vnIndex := vnIndex } _ [] rfl rfl (append_nil _).symm
  rw [hmatched] at hwalk
  refine ⟨_,Walk.advance leaves { vnIndex := vnIndex } bits.length hashes.length
    ((range leaves.length).filter (vMatch.getD · false)),hbuild,?_,?_,?_⟩
  · rw [hrecv]
    unfold extractMatches
    dsimp only
    rw [if_neg (by omega),if_neg (by omega),if_neg (by omega),
      if_neg (by rw [length_append]; omega),hwalk]
    dsimp only [Option.bind_eq_bind,Option.bind_some]
    have hused : ((0+bits.length)+7)/8=
        ((bits++replicate ((bits.length+7)/8*8-bits.length) false).length+7)/8 := by
      rw [length_append,length_replicate]
      omega
    have hall : 0+hashes.length=hashes.length := Nat.zero_add _
    rw [Walk.advance,if_neg Bool.false_ne_true,if_neg (not_not.mpr hused),if_neg (not_not.mpr hall)]
  · rfl
  · rfl

end Completeness

section Soundness

variable {hash : Uint256 → Uint256 → Uint256} {leaves : List Uint256} {tree : CPartialMerkleTree}

/-- What a walk reports between two points is in the block. -/
def Reports (leaves : List Uint256) (before after : Walk) : Prop :=
  ∃ positions, (∀ p∈positions, p<leaves.length) ∧ after.vnIndex=before.vnIndex++positions ∧
    after.vMatch=before.vMatch++positions.map (leaves.getD · 0)

theorem Reports.none {before after : Walk} (hindex : after.vnIndex=before.vnIndex)
    (hmatch : after.vMatch=before.vMatch) : Reports leaves before after :=
  ⟨[],by simp,by rw [hindex,append_nil],by rw [hmatch,map_nil,append_nil]⟩

theorem Reports.trans {first second third : Walk} (h : Reports leaves first second)
    (hnext : Reports leaves second third) : Reports leaves first third := by
  obtain ⟨early,hearly,hindex,hmatch⟩ := h
  obtain ⟨late,hlate,hindexNext,hmatchNext⟩ := hnext
  refine ⟨early++late,?_,?_,?_⟩
  · grind
  · rw [hindexNext,hindex,append_assoc]
  · rw [hmatchNext,hmatch,map_append,append_assoc]

theorem useHash_reports {fMatched : Bool} {pos : ℕ} {walk : Walk} {result : Uint256×Walk}
    (hpos : fMatched=true → pos<leaves.length ∧ result.1=leaves.getD pos 0)
    (h : useHash tree fMatched pos walk=some result) : Reports leaves walk result.2 := by
  unfold useHash at h
  split_ifs at h with hend hmatched
  · cases h
    exact Reports.none rfl rfl
  · obtain ⟨stored,-,h⟩ := Option.bind_eq_some_iff.mp h
    cases h
    obtain ⟨hlt,hleaf⟩ := hpos hmatched
    refine ⟨[pos],by simpa using hlt,rfl,?_⟩
    rw [map_singleton,← hleaf]
  · obtain ⟨stored,-,h⟩ := Option.bind_eq_some_iff.mp h
    cases h
    exact Reports.none rfl rfl

theorem traverse_reports (hinj : ∀ a b c d, hash a b=hash c d → a=c ∧ b=d)
    (htree : tree.nTransactions=leaves.length) {height pos : ℕ} {walk : Walk}
    {result : Uint256×Walk} (hlen : leaves.length ≤ 2^31) (hheight : height ≤ 31)
    (hpos : pos*2^height<leaves.length) (hhash : result.1=nodeAt hash leaves height pos)
    (h : traverseAndExtract hash tree height pos walk=some result) :
    Reports leaves walk result.2 := by
  induction height generalizing pos walk result with
  | zero =>
    have hlt : pos<leaves.length := by simpa using hpos
    unfold traverseAndExtract at h
    split_ifs at h with hend
    · cases h
      exact Reports.none rfl rfl
    · obtain ⟨fParentOfMatch,-,h⟩ := Option.bind_eq_some_iff.mp h
      have hleaf : result.1=leaves.getD pos 0 := by
        rw [hhash,nodeAt_zero hash hlt,getD_eq_getElem _ _ hlt]
      have hreports := useHash_reports (fun _ => ⟨hlt,hleaf⟩) h
      exact hreports
  | succ height ih =>
    have hcomm : pos*2=2*pos := Nat.mul_comm pos 2
    have hstart : pos*2^(height+1)=2*pos*2^height := by ring
    have hpow : 2^height ≤ 2^30 := Nat.pow_le_pow_right (by omega) (by omega)
    have hwidth := @lt_calcTreeWidth leaves.length height (2*pos+1) (by omega)
    unfold traverseAndExtract at h
    by_cases hend : tree.vBits.length ≤ walk.nBitsUsed
    · rw [if_pos hend] at h
      cases h
      exact Reports.none rfl rfl
    · rw [if_neg hend] at h
      obtain ⟨fParentOfMatch,-,h⟩ := Option.bind_eq_some_iff.mp h
      cases fParentOfMatch with
      | false =>
        have hreports := @useHash_reports leaves tree false pos _ _
          (fun hfalse => Bool.noConfusion hfalse) h
        exact hreports
      | true =>
        obtain ⟨left,hleft,h⟩ := Option.bind_eq_some_iff.mp h
        rw [hcomm] at hleft h
        rw [htree] at h
        by_cases hpair : 2*pos+1 < calcTreeWidth leaves.length height
        · rw [if_pos hpair] at h
          obtain ⟨right,hright,h⟩ := Option.bind_eq_some_iff.mp h
          cases h
          have hlt := hwidth.mp hpair
          rw [nodeAt_pair hash hlt] at hhash
          obtain ⟨hhashLeft,hhashRight⟩ := hinj _ _ _ _ hhash
          have hfirst := ih (by omega) (hstart ▸ hpos) hhashLeft hleft
          have hsecond := ih (by omega) hlt hhashRight hright
          exact (Reports.trans hfirst hsecond).trans (Reports.none rfl rfl)
        · rw [if_neg hpair] at h
          cases h
          rw [nodeAt_single hash (not_lt.mp (mt hwidth.mpr hpair))] at hhash
          have hfirst := ih (by omega) (hstart ▸ hpos) (hinj _ _ _ _ hhash).1 hleft
          exact hfirst

theorem extractMatches_reports (hinj : ∀ a b c d, hash a b=hash c d → a=c ∧ b=d)
    (hleaves : leaves≠[]) (hlen : leaves.length ≤ maxBlockSize/60)
    (htree : tree.nTransactions=leaves.length)
    (hroot : nodeAt hash leaves (treeHeight leaves.length) 0≠0) {vnIndex : List ℕ} {walk : Walk}
    (h : extractMatches hash tree vnIndex=
      some (nodeAt hash leaves (treeHeight leaves.length) 0,walk)) :
    ∃ positions, (∀ p∈positions, p<leaves.length) ∧ walk.vnIndex=vnIndex++positions ∧
      walk.vMatch=positions.map (leaves.getD · 0) := by
  have hpositive : 0<leaves.length := length_pos_iff.mpr hleaves
  have hmax : maxBlockSize/60=33333 := rfl
  obtain ⟨-,-,hheight⟩ := treeHeight_ok hpositive (by omega)
  have hnull : ∀ {st : Walk}, ¬some ((0 : Uint256),st)=
      some (nodeAt hash leaves (treeHeight leaves.length) 0,walk) := by
    intro st heq
    exact hroot (congrArg Prod.fst (Option.some.inj heq)).symm
  unfold extractMatches at h
  split_ifs at h with hempty hmany hhashes hbits
  · exact (hnull h).elim
  · exact (hnull h).elim
  · exact (hnull h).elim
  · exact (hnull h).elim
  · obtain ⟨result,hres,h⟩ := Option.bind_eq_some_iff.mp h
    split_ifs at h with hbad hused hall
    · exact (hnull h).elim
    · exact (hnull h).elim
    · exact (hnull h).elim
    · cases h
      rw [htree] at hres
      obtain ⟨positions,hlt,hindex,hmatch⟩ := traverse_reports hinj htree (by omega) hheight
        (by rw [Nat.zero_mul]; exact hpositive) rfl hres
      exact ⟨positions,hlt,hindex,by rw [hmatch]; rfl⟩

end Soundness

section Bounds

variable (hash : Uint256 → Uint256 → Uint256) (tree : CPartialMerkleTree)

theorem useHash_isSome (fMatched : Bool) (pos : ℕ) (walk : Walk) :
    ∃ result, useHash tree fMatched pos walk=some result := by
  unfold useHash
  split_ifs with hend hmatched
  · exact ⟨_,rfl⟩
  · rw [getElem?_eq_getElem (not_le.mp hend)]
    exact ⟨_,rfl⟩
  · rw [getElem?_eq_getElem (not_le.mp hend)]
    exact ⟨_,rfl⟩

theorem traverse_isSome (height pos : ℕ) (walk : Walk) :
    ∃ result, traverseAndExtract hash tree height pos walk=some result := by
  induction height generalizing pos walk with
  | zero =>
    unfold traverseAndExtract
    split_ifs with hend
    · exact ⟨_,rfl⟩
    · rw [getElem?_eq_getElem (not_le.mp hend)]
      exact useHash_isSome tree _ pos _
  | succ height ih =>
    unfold traverseAndExtract
    by_cases hend : tree.vBits.length ≤ walk.nBitsUsed
    · rw [if_pos hend]
      exact ⟨_,rfl⟩
    · rw [if_neg hend,getElem?_eq_getElem (not_le.mp hend)]
      dsimp only [Option.bind_eq_bind,Option.bind_some]
      split_ifs with hpar hpair
      · exact useHash_isSome tree false pos _
      · obtain ⟨left,hleft⟩ := ih (pos*2) { walk with nBitsUsed := walk.nBitsUsed+1 }
        obtain ⟨right,hright⟩ := ih (pos*2+1) left.2
        rw [hleft,Option.bind_some,hright]
        exact ⟨_,rfl⟩
      · obtain ⟨left,hleft⟩ := ih (pos*2) { walk with nBitsUsed := walk.nBitsUsed+1 }
        rw [hleft]
        exact ⟨_,rfl⟩

theorem extractMatches_isSome (vnIndex : List ℕ) :
    ∃ result, extractMatches hash tree vnIndex=some result := by
  unfold extractMatches
  dsimp only
  split_ifs
  · exact ⟨_,rfl⟩
  · exact ⟨_,rfl⟩
  · exact ⟨_,rfl⟩
  · exact ⟨_,rfl⟩
  · obtain ⟨result,hres⟩ := traverse_isSome hash tree (treeHeight tree.nTransactions) 0
      { vnIndex := vnIndex, fBad := tree.fBad }
    rw [hres]
    dsimp only [Option.bind_eq_bind,Option.bind_some]
    split_ifs
    · exact ⟨_,rfl⟩
    · exact ⟨_,rfl⟩
    · exact ⟨_,rfl⟩
    · exact ⟨_,rfl⟩

theorem calcTreeWidth_treeHeight (nTransactions : ℕ) :
    calcTreeWidth nTransactions (treeHeight nTransactions) ≤ 1 :=
  (@raiseHeight_ok nTransactions 32 0 (by omega) (by omega) (Or.inl rfl)).1

end Bounds

/-- Partial proofs are complete and sound, unless the root is null, and are read to an end, whatever
was received. -/
theorem partialProofs_complete_sound (hash : Uint256 → Uint256 → Uint256)
    (hinj : ∀ a b c d, hash a b=hash c d → a=c ∧ b=d) :
    (∀ (leaves : List Uint256) (vMatch : List Bool) (vnIndex : List ℕ), leaves≠[] → leaves.Nodup →
      leaves.length ≤ maxBlockSize/60 → vMatch.length=leaves.length →
      ∃ root mutated tree walk, computeMerkleRoot hash leaves=some (root,mutated) ∧
        buildPartialMerkleTree hash leaves vMatch=some tree ∧
        extractMatches hash tree.serialize.deserialize vnIndex=some (root,walk) ∧
        walk.vMatch=((range leaves.length).filter (vMatch.getD · false)).map
          (leaves.getD · 0) ∧
        walk.vnIndex=vnIndex++(range leaves.length).filter (vMatch.getD · false)) ∧
    (∀ (leaves : List Uint256) (tree : CPartialMerkleTree) (vnIndex : List ℕ) (root : Uint256)
      (mutated : Bool) (walk : Walk), leaves≠[] → leaves.length ≤ maxBlockSize/60 →
      tree.nTransactions=leaves.length → computeMerkleRoot hash leaves=some (root,mutated) →
      root≠0 → extractMatches hash tree vnIndex=some (root,walk) →
      ∃ positions, walk.vnIndex=vnIndex++positions ∧
        walk.vMatch.map some=positions.map (fun position => leaves[position]?)) ∧
    (∀ (tree : CPartialMerkleTree) (vnIndex : List ℕ),
      ∃ result, extractMatches hash tree vnIndex=some result) ∧
    ∀ nTransactions, calcTreeWidth nTransactions (treeHeight nTransactions) ≤ 1 := by
  have hmax : maxBlockSize/60=33333 := rfl
  refine ⟨?_,?_,extractMatches_isSome hash,calcTreeWidth_treeHeight⟩
  · intro leaves vMatch vnIndex hleaves hnodup hlen hmatch
    obtain ⟨mutated,hroot⟩ := computeMerkleRoot_ok hash hleaves (by omega)
    obtain ⟨tree,walk,hbuild,hextract,hfound,hindex⟩ :=
      extractMatches_build hinj hleaves hnodup hlen hmatch vnIndex
    exact ⟨_,mutated,tree,walk,hroot,hbuild,hextract,hfound,hindex⟩
  · intro leaves tree vnIndex root mutated walk hleaves hlen htree hroot hnull hextract
    obtain ⟨flag,hcomputed⟩ := computeMerkleRoot_ok hash hleaves (by omega)
    have hsame : nodeAt hash leaves (treeHeight leaves.length) 0=root :=
      congrArg Prod.fst (Option.some.inj (hcomputed.symm.trans hroot))
    rw [← hsame] at hnull hextract
    obtain ⟨positions,hlt,hindex,hfound⟩ :=
      extractMatches_reports hinj hleaves hlen htree hnull hextract
    refine ⟨positions,hindex,?_⟩
    rw [hfound,map_map]
    refine map_congr_left ?_
    grind

/-- Two of three transactions are proved, and so is what another node sends. -/
theorem partialProofs_complete_sound_pair :
    (∃ tree walk, buildPartialMerkleTree Nat.pair [1,2,3] [true,false,true]=some tree ∧
      extractMatches Nat.pair tree.serialize.deserialize []=some (230,walk) ∧
      walk.vMatch=[1,3] ∧ walk.vnIndex=[0,2]) ∧
    ∃ walk, extractMatches Nat.pair (SerializedTree.deserialize ⟨3,[1,2,15],[7]⟩) []=
      some (230,walk) ∧ walk.vnIndex=[0] ∧ walk.vMatch.map some=[some 1] := by
  obtain ⟨hcomplete,hsound,-⟩ := partialProofs_complete_sound Nat.pair
    (fun _ _ _ _ h => Nat.pair_eq_pair.mp h)
  have hmerkle : computeMerkleRoot Nat.pair [1,2,3]=some (230,false) := rfl
  have hsize : [1,2,3].length ≤ maxBlockSize/60 := by decide
  constructor
  · obtain ⟨root,mutated,tree,walk,hroot,hbuild,hextract,hmatched,hindex⟩ :=
      hcomplete [1,2,3] [true,false,true] [] (by decide) (by decide) hsize rfl
    cases hmerkle.symm.trans hroot
    exact ⟨tree,walk,hbuild,hextract,hmatched,hindex⟩
  · have hreceived : (extractMatches Nat.pair (SerializedTree.deserialize ⟨3,[1,2,15],[7]⟩) []).any
        (fun found => found.1==230 && found.2.vnIndex==[0])=true := rfl
    obtain ⟨⟨root,walk⟩,hextract,hcheck⟩ := (Option.any_eq_true _ _).mp hreceived
    obtain ⟨hroot,hindex⟩ := Bool.and_eq_true_iff.mp hcheck
    cases eq_of_beq hroot
    obtain ⟨positions,hpositions,hmatched⟩ :=
      hsound [1,2,3] _ [] 230 false walk (by decide) hsize rfl hmerkle (by decide) hextract
    rw [eq_of_beq hindex] at hpositions
    cases hpositions
    exact ⟨walk,hextract,eq_of_beq hindex,hmatched⟩

/-- Nothing is built without transactions. Over a single null transaction a failure looks like the
root. -/
theorem partialProofs_fail :
    buildPartialMerkleTree Nat.pair [] []=none ∧ computeMerkleRoot Nat.pair [0]=some (0,false) ∧
    ∃ walk, extractMatches Nat.pair (SerializedTree.deserialize ⟨1,[7],[1,0]⟩) []=some (0,walk) ∧
      walk.vMatch=[7] ∧ walk.vnIndex=[0] :=
  ⟨rfl,rfl,_,rfl,rfl,rfl⟩

end Pyrk.PartialMerkleTree
