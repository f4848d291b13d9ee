import Pyrk.Transaction
import Pyrk.ExceptRules
import Pyrk.MerkleTree
import Mathlib.Data.List.Induction
import Mathlib.Data.Nat.Bitwise

/-!
# Merkle roots and branches in constant space

Leaves are processed one by one, and finished subtrees are kept by level. A final sweep over the
right edge combines odd nodes with themselves.
-/

namespace Pyrk.MerkleComputation

open Transaction MerkleTree List Option Bool

/-- A hash on its way up. -/
structure Rising where
  h : Uint256
  matchh : Bool := false
  mutated : Bool := false
  /-- Other halves that were combined with the matching leaf. -/
  branch : List Uint256 := []

/-- What is known between two leaves. -/
structure MerkleState where
  count : ℕ := 0
  inner : ℕ → Uint256 := fun _ => 0
  /-- Level of the finished subtree with the matching leaf. -/
  matchlevel : Option ℕ := none
  mutated : Bool := false
  /-- Other halves that were combined with the matching leaf. -/
  branch : List Uint256 := []

section Computation

variable (hash : Uint256 → Uint256 → Uint256)

/-- Combine a hash with the finished subtree on its left, and look for equal hashes in leaves. -/
def combine (check : Bool) (st : MerkleState) (level : ℕ) (rising : Rising) : Rising where
  h := hash (st.inner level) rising.h
  matchh := rising.matchh || st.matchlevel=some level
  mutated := rising.mutated || check && st.inner level=rising.h
  branch :=
    if rising.matchh then rising.branch++[st.inner level]
    else if st.matchlevel=some level then rising.branch++[rising.h]
    else rising.branch

/-- Combine while the bit of the level is zero. -/
def climb (check : Bool) (st : MerkleState) (count : ℕ) :
    ℕ → ℕ → Rising → Option (ℕ×Rising)
  | 0,_,_ => none
  | levels+1,level,rising =>
    if count.testBit level then some (level,rising)
    else climb check st count levels (level+1) (combine hash check st level rising)

def addLeaf (branchpos : ℕ) (st : MerkleState) (leaf : Uint256) : Option MerkleState := do
  let count := (st.count+1)%2^32
  let top ← climb hash true st count 32 0
    { h := leaf, matchh := st.count=branchpos, mutated := st.mutated, branch := st.branch }
  some {
    count := count
    inner := Function.update st.inner top.1 top.2.h
    matchlevel := if top.2.matchh then some top.1 else st.matchlevel
    mutated := top.2.mutated
    branch := top.2.branch }

/-- The first level with a finished subtree. -/
def firstLevel (count : ℕ) : ℕ → ℕ → Option ℕ
  | 0,_ => none
  | levels+1,level => if count.testBit level then some level else firstLevel count levels (level+1)

/-- Combine a hash with itself. -/
def double (rising : Rising) : Rising :=
  { rising with
    h := hash rising.h rising.h
    branch := if rising.matchh then rising.branch++[rising.h] else rising.branch }

/-- Reduce the right edge to a single hash. -/
def sweep (st : MerkleState) : ℕ → ℕ → ℕ → Rising → Option Rising
  | 0,_,_,_ => none
  | rounds+1,count,level,rising =>
    if count=2^level then some rising
    else do
      let count := (count+2^level)%2^32
      let next ← climb hash false st count (32-(level+1)) (level+1) (double hash rising)
      sweep st rounds count next.1 next.2

/-- Root, branch of a position, and whether equal hashes were combined. -/
def merkleComputation (leaves : List Uint256) (branchpos : ℕ) : Option Rising :=
  if leaves.isEmpty then some { h := 0 }
  else do
    let st ← leaves.foldlM (addLeaf hash branchpos) {}
    let level ← firstLevel st.count 32 0
    sweep hash st 32 st.count level
      { h := st.inner level, matchh := st.matchlevel=some level, mutated := st.mutated,
        branch := st.branch }

/-- Root, and whether equal hashes were combined. -/
def computeMerkleRoot (leaves : List Uint256) : Option (Uint256×Bool) :=
  (merkleComputation hash leaves (2^32-1)).map (fun rising => (rising.h,rising.mutated))

def computeMerkleBranch (leaves : List Uint256) (position : ℕ) : Option (List Uint256) :=
  (merkleComputation hash leaves position).map Rising.branch

def computeMerkleRootFromBranch (leaf : Uint256) (vMerkleBranch : List Uint256) (nIndex : ℕ) :
    Uint256 :=
  (vMerkleBranch.foldl (fun st other =>
    (if st.2%2=1 then hash other st.1 else hash st.1 other,st.2/2)) (leaf,nIndex)).1

end Computation

section Branches

variable {hash : Uint256 → Uint256 → Uint256}

theorem foldl_branch_index (leaf : Uint256) (branch : List Uint256) (nIndex : ℕ) :
    (branch.foldl (fun (st : Uint256×ℕ) other =>
      (if st.2%2=1 then hash other st.1 else hash st.1 other,st.2/2))
        (leaf,nIndex)).2=nIndex/2^branch.length := by
  induction branch using List.reverseRecOn with
  | nil => simp
  | append_singleton branch other ih =>
    rw [foldl_append,foldl_cons,foldl_nil]
    rw [ih,Nat.div_div_eq_div_mul,length_append,length_singleton,pow_succ]

theorem rootFromBranch_append (leaf : Uint256) (branch : List Uint256) (other : Uint256)
    (nIndex : ℕ) :
    computeMerkleRootFromBranch hash leaf (branch++[other]) nIndex=
      if nIndex/2^branch.length%2=1 then
        hash other (computeMerkleRootFromBranch hash leaf branch nIndex)
      else hash (computeMerkleRootFromBranch hash leaf branch nIndex) other := by
  have hindex := @foldl_branch_index hash leaf branch nIndex
  unfold computeMerkleRootFromBranch
  rw [foldl_append,foldl_cons,foldl_nil]
  rw [hindex]

end Branches

section Climbing

variable (hash : Uint256 → Uint256 → Uint256) (leaves : List Uint256) (p : ℕ)

/-- A branch leads from the matching leaf to a node above it. -/
structure OnPath (level index : ℕ) (branch : List Uint256) : Prop where
  above : p/2^level=index
  length : branch.length=level
  root : computeMerkleRootFromBranch hash (leaves.getD p 0) branch p=nodeAt hash leaves level index

/-- The matching leaf is under a finished subtree, or has not been reached. -/
structure Pending (done level : ℕ) (matchlevel : Option ℕ) (branch : List Uint256) : Prop where
  reached : p<done → ∃ found, level ≤ found ∧ matchlevel=some found ∧ done.testBit found=true ∧
    OnPath hash leaves p found (done/2^found-1) branch
  waiting : done ≤ p → matchlevel=none ∧ branch=[]

/-- A hash that rises is the last node of its level. -/
structure Rises (done count level : ℕ) (matchlevel : Option ℕ) (rising : Rising) : Prop where
  h : rising.h=nodeAt hash leaves level (count/2^level-1)
  matched : rising.matchh=true → OnPath hash leaves p level (count/2^level-1) rising.branch
  pending : rising.matchh=false → Pending hash leaves p done level matchlevel rising.branch

variable {hash leaves p}

theorem div_succ_eq {done count level k : ℕ} (hlt : done < count) (hle : count ≤ done+2^level)
    (hk : level ≤ k) (hdvd : 2^k∣count) : done/2^k+1=count/2^k := by
  obtain ⟨width,rfl⟩ := hdvd
  have hpow : 2^level ≤ 2^k := Nat.pow_le_pow_right (by omega) hk
  have hpos := Nat.two_pow_pos k
  have hwidth : 0<width := by
    by_contra hzero
    have hnone : width=0 := by omega
    subst hnone
    omega
  rw [Nat.mul_div_cancel_left _ hpos]
  have hexpand : 2^k*width=2^k*(width-1)+2^k := by
    obtain ⟨pred,rfl⟩ := Nat.exists_eq_succ_of_ne_zero (by omega : width≠0)
    rw [Nat.succ_sub_one,Nat.mul_succ]
  have hdiv : done/2^k=width-1 := by
    refine Nat.div_eq_of_lt_le ?_ ?_
    · rw [Nat.mul_comm]
      omega
    · have hnext : (width-1+1)*2^k=2^k*width := by
        rw [hexpand,Nat.succ_mul,Nat.mul_comm]
      omega
  omega

theorem testBit_eq_false_iff {count level : ℕ} :
    count.testBit level=false ↔ count/2^level%2=0 := by
  rw [Nat.testBit_eq_decide_div_mod_eq,decide_eq_false_iff_not]
  omega

theorem OnPath.append {level index : ℕ} {branch : List Uint256} {other parent : Uint256}
    (h : OnPath hash leaves p level index branch)
    (hpar : nodeAt hash leaves (level+1) (index/2)=parent)
    (hcombine : parent=if index%2=1 then hash other (nodeAt hash leaves level index)
      else hash (nodeAt hash leaves level index) other) :
    OnPath hash leaves p (level+1) (index/2) (branch++[other]) where
  above := by rw [pow_succ,← Nat.div_div_eq_div_mul,h.above]
  length := by rw [length_append,length_singleton,h.length]
  root := by rw [rootFromBranch_append,h.length,h.above,h.root,hpar,hcombine]

theorem Rises.combine {check : Bool} {st : MerkleState} {done count level : ℕ} {rising : Rising}
    (h : Rises hash leaves p done count level st.matchlevel rising)
    (hinner : ∀ k, done.testBit k=true → st.inner k=nodeAt hash leaves k (done/2^k-1))
    (hlt : done < count) (hle : count ≤ done+2^level) (hfits : count<leaves.length+2^level)
    (hdvd : 2^level∣count) (hbit : count.testBit level=false) :
    Rises hash leaves p done count (level+1) st.matchlevel
      (MerkleComputation.combine hash check st level rising) ∧
    (st.inner level=rising.h ↔ nodeAt hash leaves level (count/2^level-2)=
      nodeAt hash leaves level (count/2^level-1)) := by
  have hdone := div_succ_eq hlt hle le_rfl hdvd
  have heven := testBit_eq_false_iff.mp hbit
  have hcount := Nat.div_mul_cancel hdvd
  obtain ⟨half,hhalf⟩ : ∃ half, count/2^level=2*half+2 := by
    obtain ⟨pairs,hpairs⟩ := Nat.dvd_of_mod_eq_zero heven
    obtain ⟨half,hhalf⟩ := Nat.exists_eq_succ_of_ne_zero (fun hzero : pairs=0 => by
      rw [hpairs,hzero] at hdone
      exact Nat.succ_ne_zero _ hdone)
    exact ⟨half,by rw [hpairs,hhalf]; rfl⟩
  have hbelow : done/2^level=2*half+1 := by
    rw [hhalf] at hdone
    exact Nat.succ.inj hdone
  have hset : done.testBit level=true := by
    rw [Nat.testBit_eq_decide_div_mod_eq,hbelow]
    exact decide_eq_true (by omega)
  have hleft : st.inner level=nodeAt hash leaves level (2*half) := by
    rw [hinner level hset,hbelow]
    rfl
  have hright : rising.h=nodeAt hash leaves level (2*half+1) := by
    rw [h.h,hhalf]
    rfl
  have hup : count/2^(level+1)-1=half := by
    rw [pow_succ,← Nat.div_div_eq_div_mul,hhalf]
    omega
  have hpair : (2*half+1)*2^level<leaves.length := by
    have hexpand : (2*half+2)*2^level=(2*half+1)*2^level+2^level := by ring
    rw [hhalf] at hcount
    omega
  have hnode := nodeAt_pair hash hpair
  have hindex : count/2^level-1=2*half+1 := by omega
  have hodd : (2*half+1)/2=half := by omega
  have hevenHalf : 2*half/2=half := by omega
  refine ⟨⟨?_,?_,?_⟩,?_⟩
  · rw [MerkleComputation.combine,hup,hnode,hleft,hright]
  · intro hmatch
    rw [hup]
    by_cases hrising : rising.matchh=true
    · have hpath := h.matched hrising
      rw [hindex] at hpath
      have happend := @OnPath.append hash leaves p level (2*half+1) rising.branch
        (st.inner level) _ hpath rfl (by rw [hodd,hnode,if_pos (by omega),hleft])
      rw [hodd] at happend
      simpa only [MerkleComputation.combine,hrising,if_true] using happend
    · have hrisingFalse := eq_false_of_not_eq_true hrising
      have hlevel : st.matchlevel=some level := by
        simpa [MerkleComputation.combine,hrisingFalse] using hmatch
      have hpending := h.pending hrisingFalse
      have hreached : p<done := by
        by_contra hnot
        have hnone := (hpending.waiting (by omega)).1
        rw [hlevel] at hnone
        cases hnone
      obtain ⟨found,-,hfound,-,hpath⟩ := hpending.reached hreached
      rw [hlevel] at hfound
      cases hfound
      rw [hbelow] at hpath
      have hpathIndex : 2*half+1-1=2*half := by omega
      rw [hpathIndex] at hpath
      have happend := @OnPath.append hash leaves p level (2*half) rising.branch rising.h _ hpath rfl
        (by rw [hevenHalf,hnode,if_neg (by omega),hright])
      rw [hevenHalf] at happend
      simpa only [MerkleComputation.combine,hrising,if_false,hlevel,if_true,false_eq_true]
        using happend
  · intro hmatch
    have hboth : rising.matchh=false ∧ st.matchlevel≠some level := by
      simpa [MerkleComputation.combine] using hmatch
    have hpending := h.pending hboth.1
    have hbranch : (MerkleComputation.combine hash check st level rising).branch=
        rising.branch := by
      simp [MerkleComputation.combine,hboth.1,hboth.2]
    rw [hbranch]
    refine ⟨?_,hpending.waiting⟩
    intro hreached
    obtain ⟨found,hfound,hmatchlevel,hfoundBit,hpath⟩ := hpending.reached hreached
    have hne : found≠level := by
      rintro rfl
      exact hboth.2 hmatchlevel
    exact ⟨found,by omega,hmatchlevel,hfoundBit,hpath⟩
  · rw [hleft,hright,hhalf]
    rfl

theorem climb_ok {check : Bool} {st : MerkleState} {done count levels level : ℕ}
    {rising : Rising} {top : ℕ×Rising}
    (h : Rises hash leaves p done count level st.matchlevel rising)
    (hinner : ∀ k, done.testBit k=true → st.inner k=nodeAt hash leaves k (done/2^k-1))
    (hlt : done < count) (hle : count ≤ done+2^level) (hfits : count<leaves.length+2^level)
    (hdvd : 2^level∣count) (hclimb : climb hash check st count levels level rising=some top) :
    level ≤ top.1 ∧ top.1<level+levels ∧ count.testBit top.1=true ∧ 2^top.1∣count ∧
    Rises hash leaves p done count top.1 st.matchlevel top.2 ∧
    (rising.matchh=true → top.2.matchh=true) ∧
    (top.2.mutated=true ↔ rising.mutated=true ∨ check=true ∧ ∃ k, level ≤ k ∧ k<top.1 ∧
      nodeAt hash leaves k (count/2^k-2)=nodeAt hash leaves k (count/2^k-1)) := by
  induction levels generalizing level rising with
  | zero => cases hclimb
  | succ levels ih =>
    unfold climb at hclimb
    split_ifs at hclimb with hbit
    · grind
    · have hbitFalse := eq_false_of_not_eq_true hbit
      have hdouble : 2^(level+1)=2^level+2^level := by ring
      obtain ⟨hnext,hequal⟩ := @Rises.combine hash leaves p check st done count level rising
        h hinner hlt hle hfits hdvd hbitFalse
      have hnextDvd : 2^(level+1)∣count := by
        obtain ⟨width,hwidth⟩ := hdvd
        have heven := testBit_eq_false_iff.mp hbitFalse
        rw [hwidth,Nat.mul_div_cancel_left _ (Nat.two_pow_pos level)] at heven
        obtain ⟨half,hhalf⟩ := Nat.dvd_of_mod_eq_zero heven
        exact ⟨half,by rw [hwidth,hhalf,pow_succ,Nat.mul_assoc]⟩
      obtain ⟨hlow,hhigh,hset,htopDvd,hrises,hmatch,hmutated⟩ :=
        ih hnext (by omega) (by omega) hnextDvd hclimb
      refine ⟨by omega,by omega,hset,htopDvd,hrises,?_,?_⟩
      · intro hrising
        apply hmatch
        simp [MerkleComputation.combine,hrising]
      · rw [hmutated]
        have hcombined : (MerkleComputation.combine hash check st level rising).mutated=true ↔
            rising.mutated=true ∨ check=true ∧ nodeAt hash leaves level (count/2^level-2)=
              nodeAt hash leaves level (count/2^level-1) := by
          rw [← hequal]
          simp [MerkleComputation.combine]
        rw [hcombined]
        constructor
        · rintro ((hold | ⟨hcheck,hsame⟩) | ⟨hcheck,k,hklow,hkhigh,hsame⟩)
          · exact .inl hold
          · exact .inr ⟨hcheck,level,le_rfl,by omega,hsame⟩
          · exact .inr ⟨hcheck,k,by omega,hkhigh,hsame⟩
        · rintro (hold | ⟨hcheck,k,hklow,hkhigh,hsame⟩)
          · exact .inl (.inl hold)
          · by_cases hk : k=level
            · exact .inl (.inr ⟨hcheck,hk ▸ hsame⟩)
            · exact .inr ⟨hcheck,k,by omega,hkhigh,hsame⟩

end Climbing

section LowestBit

variable {count top : ℕ}

theorem not_testBit_of_lt (hdvd : 2^top∣count) {k : ℕ} (hk : k<top) : count.testBit k=false := by
  rw [testBit_eq_false_iff]
  obtain ⟨width,rfl⟩ := (pow_dvd_pow 2 (by omega : k+1 ≤ top)).trans hdvd
  rw [pow_succ,Nat.mul_assoc,Nat.mul_div_cancel_left _ (Nat.two_pow_pos k),Nat.mul_mod_right]

section

variable (hset : count.testBit top=true)

include hset

theorem lt_of_dvd {k : ℕ} (hdvd : 2^(k+1)∣count) : k<top := by
  by_contra hnot
  have hclear := not_testBit_of_lt hdvd (by omega : top<k+1)
  rw [hset] at hclear
  cases hclear

theorem pred_div_eq (hdvd : 2^top∣count) {done k : ℕ}
    (hcount : count=done+1) (hk : top<k) : done/2^k=count/2^k := by
  obtain ⟨width,hwidth⟩ := hdvd
  have hodd : width%2=1 := by
    rw [hwidth,Nat.testBit_eq_decide_div_mod_eq,Nat.mul_div_cancel_left _ (Nat.two_pow_pos top)]
      at hset
    exact of_decide_eq_true hset
  obtain ⟨half,hhalf⟩ : ∃ half, width=2*half+1 := ⟨width/2,by omega⟩
  have hstep : done/2^(top+1)=half ∧ count/2^(top+1)=half := by
    have hpos := Nat.two_pow_pos top
    have hexpand : 2^top*width=half*2^(top+1)+2^top := by
      rw [hhalf]
      ring
    have hnext : (half+1)*2^(top+1)=half*2^(top+1)+2^top+2^top := by ring
    constructor
    · refine Nat.div_eq_of_lt_le ?_ ?_
      · omega
      · omega
    · refine Nat.div_eq_of_lt_le ?_ ?_
      · omega
      · omega
  obtain ⟨rest,hrest⟩ := Nat.exists_eq_add_of_le (by omega : top+1 ≤ k)
  rw [hrest,pow_add,← Nat.div_div_eq_div_mul,← Nat.div_div_eq_div_mul,hstep.1,hstep.2]

theorem pred_testBit_eq (hdvd : 2^top∣count) {done k : ℕ}
    (hcount : count=done+1) (hk : top<k) : done.testBit k=count.testBit k := by
  rw [Nat.testBit_eq_decide_div_mod_eq,Nat.testBit_eq_decide_div_mod_eq,
    pred_div_eq hset hdvd hcount hk]

theorem pred_testBit_top (hdvd : 2^top∣count) {done : ℕ}
    (hcount : count=done+1) : done.testBit top=false := by
  have hdiv := div_succ_eq (by omega : done < count)
    (by rw [pow_zero]; omega : count ≤ done+2^0) (Nat.zero_le top) hdvd
  grind

end

theorem climb_zero (hash : Uint256 → Uint256 → Uint256) (check : Bool) (st : MerkleState)
    (levels level : ℕ) (rising : Rising) : climb hash check st 0 levels level rising=none := by
  induction levels generalizing level rising with
  | zero => rfl
  | succ levels ih =>
    unfold climb
    rw [Nat.zero_testBit,if_neg Bool.false_ne_true]
    exact ih _ _

end LowestBit

section Leaves

/-- What holds between two leaves. -/
structure Tracks (hash : Uint256 → Uint256 → Uint256) (leaves : List Uint256) (p : ℕ)
    (st : MerkleState) : Prop where
  bound : st.count<2^32
  inner : ∀ k, st.count.testBit k=true → st.inner k=nodeAt hash leaves k (st.count/2^k-1)
  pending : Pending hash leaves p st.count 0 st.matchlevel st.branch
  mutated : st.mutated=true ↔ ∃ level index, (2*index+2)*2^level ≤ st.count ∧
    nodeAt hash leaves level (2*index)=nodeAt hash leaves level (2*index+1)

variable {hash : Uint256 → Uint256 → Uint256} {leaves : List Uint256} {p : ℕ}

theorem tracks_start : Tracks hash leaves p {} where
  bound := Nat.two_pow_pos 32
  inner := by
    intro k hbit
    rw [Nat.zero_testBit] at hbit
    cases hbit
  pending := ⟨fun hlt => absurd hlt (Nat.not_lt_zero p),fun _ => ⟨rfl,rfl⟩⟩
  mutated := by
    grind

theorem pairs_at_count {count top : ℕ} (hset : count.testBit top=true) (hdvd : 2^top∣count) :
    (∃ k, 0 ≤ k ∧ k<top ∧ nodeAt hash leaves k (count/2^k-2)=nodeAt hash leaves k (count/2^k-1)) ↔
      ∃ level index, (2*index+2)*2^level=count ∧
        nodeAt hash leaves level (2*index)=nodeAt hash leaves level (2*index+1) := by
  constructor
  · rintro ⟨k,-,hk,hsame⟩
    obtain ⟨width,hwidth⟩ := (pow_dvd_pow 2 (by omega : k+1 ≤ top)).trans hdvd
    have hpos : width≠0 := by
      rintro rfl
      rw [hwidth,Nat.mul_zero,Nat.zero_testBit] at hset
      cases hset
    obtain ⟨index,rfl⟩ := Nat.exists_eq_succ_of_ne_zero hpos
    have hcount : count/2^k=2*index+2 := by
      rw [hwidth,pow_succ,Nat.mul_assoc,Nat.mul_div_cancel_left _ (Nat.two_pow_pos k)]
      omega
    rw [hcount] at hsame
    refine ⟨k,index,?_,hsame⟩
    rw [hwidth,pow_succ,Nat.succ_eq_add_one]
    ring
  · rintro ⟨level,index,hcount,hsame⟩
    have hlevel : level<top := lt_of_dvd hset ⟨index+1,by rw [← hcount]; ring⟩
    have hdiv : count/2^level=2*index+2 := by
      rw [← hcount,Nat.mul_div_cancel _ (Nat.two_pow_pos level)]
    refine ⟨level,Nat.zero_le _,hlevel,?_⟩
    rw [hdiv]
    exact hsame

theorem Tracks.addLeaf {st next : MerkleState} (h : Tracks hash leaves p st)
    (hcount : st.count<leaves.length)
    (hnext : MerkleComputation.addLeaf hash p st leaves[st.count]=some next) :
    Tracks hash leaves p next ∧ next.count=st.count+1 := by
  unfold MerkleComputation.addLeaf at hnext
  dsimp only at hnext
  have hbound := h.bound
  have hfits : st.count+1<2^32 := by
    by_contra hwrap
    have hzero : (st.count+1)%2^32=0 := by omega
    rw [hzero,climb_zero] at hnext
    cases hnext
  rw [Nat.mod_eq_of_lt hfits] at hnext
  obtain ⟨top,hclimb,hnext⟩ := bind_eq_some_iff.mp hnext
  have hstart : Rises hash leaves p st.count (st.count+1) 0 st.matchlevel
      { h := leaves[st.count], matchh := st.count=p, mutated := st.mutated,
        branch := st.branch } := by
    have hindex : (st.count+1)/2^0-1=st.count := by
      rw [pow_zero,Nat.div_one,Nat.add_sub_cancel]
    constructor
    · dsimp only
      rw [hindex,nodeAt_zero hash hcount]
    · intro hmatch
      have hhere : st.count=p := of_decide_eq_true hmatch
      have hbranch := (h.pending.waiting (by omega)).2
      rw [hindex,hbranch]
      refine ⟨by rw [pow_zero,Nat.div_one,hhere],rfl,?_⟩
      subst hhere
      rw [nodeAt_zero hash hcount,getD_eq_getElem _ _ hcount]
      rfl
    · exact fun _ => h.pending
  obtain ⟨-,-,hset,hdvd,hrises,hmatch,hmutated⟩ := climb_ok hstart h.inner (by omega)
    (by rw [pow_zero]) (by rw [pow_zero]; omega) (by rw [pow_zero]; exact one_dvd _) hclimb
  cases hnext
  refine ⟨⟨hfits,?_,?_,?_⟩,rfl⟩
  · intro k hbit
    dsimp only at hbit ⊢
    rcases lt_trichotomy k top.1 with hk | rfl | hk
    · rw [not_testBit_of_lt hdvd hk] at hbit
      cases hbit
    · rw [Function.update_self]
      exact hrises.h
    · rw [Function.update_of_ne (by omega)]
      rw [← pred_testBit_eq hset hdvd rfl hk] at hbit
      rw [← pred_div_eq hset hdvd rfl hk]
      exact h.inner k hbit
  · dsimp only
    by_cases hmatched : top.2.matchh=true
    · have hpath := hrises.matched hmatched
      have hpos : 0<(st.count+1)/2^top.1 :=
        Nat.div_pos (Nat.le_of_dvd (by omega) hdvd) (Nat.two_pow_pos _)
      rw [hmatched,if_pos rfl]
      constructor
      · exact fun _ => ⟨top.1,Nat.zero_le _,rfl,hset,hpath⟩
      · intro hle
        have hdiv := Nat.div_le_div_right hle (c := 2^top.1)
        rw [hpath.above] at hdiv
        omega
    · have hmatchedFalse := eq_false_of_not_eq_true hmatched
      have hpending := hrises.pending hmatchedFalse
      rw [hmatchedFalse,if_neg Bool.false_ne_true]
      have hne : st.count≠p := fun he => hmatched (hmatch (decide_eq_true he))
      constructor
      · intro hlt
        obtain ⟨found,hfound,hlevel,hbit,hpath⟩ := hpending.reached (by omega)
        have hfoundNe : found≠top.1 := by
          rintro rfl
          rw [pred_testBit_top hset hdvd rfl] at hbit
          cases hbit
        have hfoundLt : top.1<found := by omega
        rw [pred_testBit_eq hset hdvd rfl hfoundLt] at hbit
        rw [pred_div_eq hset hdvd rfl hfoundLt] at hpath
        exact ⟨found,Nat.zero_le _,hlevel,hbit,hpath⟩
      · exact fun hle => hpending.waiting (by omega)
  · dsimp only
    rw [hmutated,h.mutated]
    have hpairs := @pairs_at_count hash leaves (st.count+1) top.1 hset hdvd
    grind

theorem tracks_foldlM {st : MerkleState}
    (h : leaves.foldlM (MerkleComputation.addLeaf hash p) {}=some st) :
    Tracks hash leaves p st ∧ st.count=leaves.length := by
  have hrun : ∀ (done rest : List Uint256) (before : MerkleState), done++rest=leaves →
      Tracks hash leaves p before → before.count=done.length →
      rest.foldlM (MerkleComputation.addLeaf hash p) before=some st →
      Tracks hash leaves p st ∧ st.count=leaves.length := by
    intro done rest
    induction rest generalizing done with
    | nil =>
      grind
    | cons leaf rest ih =>
      intro before hleaves hbefore hcount hfold
      rw [foldlM_cons] at hfold
      obtain ⟨next,hnext,hfold⟩ := bind_eq_some_iff.mp hfold
      have hlt : before.count<leaves.length := by
        rw [← hleaves,length_append,length_cons]
        omega
      have hleaf : leaves[before.count]=leaf := by
        simp only [← hleaves,hcount,getElem_append_right le_rfl,Nat.sub_self,getElem_cons_zero]
      obtain ⟨htracks,hnextCount⟩ := hbefore.addLeaf hlt (hleaf.symm ▸ hnext)
      refine ih (done++[leaf]) next ?_ htracks ?_ hfold
      · rw [append_assoc]
        exact hleaves
      · rw [hnextCount,hcount,length_append,length_singleton]
  exact hrun [] leaves {} rfl tracks_start rfl h

end Leaves

section Sweeping

variable {hash : Uint256 → Uint256 → Uint256} {leaves : List Uint256} {p : ℕ}

/-- What holds between two rounds of the final sweep. -/
structure Sweeps (hash : Uint256 → Uint256 → Uint256) (leaves : List Uint256) (p : ℕ)
    (matchlevel : Option ℕ) (count level : ℕ) (rising : Rising) : Prop where
  bound : count<2^32
  set : count.testBit level=true
  dvd : 2^level∣count
  above : leaves.length ≤ count
  below : count<leaves.length+2^level
  double : count<2*leaves.length
  h : rising.h=nodeAt hash leaves level (count/2^level-1)
  matched : rising.matchh=true → OnPath hash leaves p level (count/2^level-1) rising.branch
  /-- The matching leaf is under a finished subtree above. -/
  pending : rising.matchh=false →
    Pending hash leaves p leaves.length (level+1) matchlevel rising.branch

theorem Pending.strict {done level : ℕ} {matchlevel : Option ℕ} {branch : List Uint256}
    (h : Pending hash leaves p done level matchlevel branch)
    (hne : ∀ found, matchlevel=some found → done.testBit found=true → found≠level) :
    Pending hash leaves p done (level+1) matchlevel branch where
  reached := by
    intro hlt
    obtain ⟨found,hfound,hlevel,hbit,hpath⟩ := h.reached hlt
    have hother := hne found hlevel hbit
    exact ⟨found,by omega,hlevel,hbit,hpath⟩
  waiting := h.waiting

theorem sweeps_start {st : MerkleState} (h : Tracks hash leaves p st)
    (hcount : st.count=leaves.length) {level : ℕ} (hset : st.count.testBit level=true)
    (hdvd : 2^level∣st.count) :
    Sweeps hash leaves p st.matchlevel st.count level
      { h := st.inner level, matchh := st.matchlevel=some level, mutated := st.mutated,
        branch := st.branch } := by
  have hpos : 0 < st.count := by
    grind
  have hpow := Nat.two_pow_pos level
  refine ⟨h.bound,hset,hdvd,by omega,by omega,by omega,h.inner level hset,?_,?_⟩
  · intro hmatch
    have hlevel : st.matchlevel=some level := of_decide_eq_true hmatch
    have hreached : p < st.count := by
      by_contra hnot
      have hnone := (h.pending.waiting (by omega)).1
      rw [hlevel] at hnone
      cases hnone
    obtain ⟨found,-,hfound,-,hpath⟩ := h.pending.reached hreached
    rw [hlevel] at hfound
    cases hfound
    exact hpath
  · intro hmatch
    have hlevel : st.matchlevel≠some level := of_decide_eq_false hmatch
    rw [← hcount]
    constructor
    · intro hlt
      obtain ⟨found,-,hfound,hbit,hpath⟩ := h.pending.reached hlt
      have hge : level ≤ found := by
        by_contra hlow
        rw [not_testBit_of_lt hdvd (by omega)] at hbit
        cases hbit
      have hne : found≠level := by
        rintro rfl
        exact hlevel hfound
      exact ⟨found,by omega,hfound,hbit,hpath⟩
    · exact h.pending.waiting

theorem Sweeps.odd {matchlevel : Option ℕ} {count level : ℕ} {rising : Rising}
    (h : Sweeps hash leaves p matchlevel count level rising) (hne : count≠2^level) :
    ∃ half, count=(2*half+3)*2^level ∧ count/2^level=2*half+3 := by
  obtain ⟨width,hwidth⟩ := h.dvd
  have hset := h.set
  rw [hwidth,Nat.testBit_eq_decide_div_mod_eq,Nat.mul_div_cancel_left _ (Nat.two_pow_pos level)]
    at hset
  have hodd := of_decide_eq_true hset
  have hone : width≠1 := by
    rintro rfl
    exact hne (hwidth.trans (Nat.mul_one _))
  obtain ⟨half,hhalf⟩ : ∃ half, width=2*half+3 := ⟨(width-3)/2,by omega⟩
  refine ⟨half,by rw [hwidth,hhalf,Nat.mul_comm],?_⟩
  rw [hwidth,hhalf,Nat.mul_div_cancel_left _ (Nat.two_pow_pos level)]

theorem Sweeps.step {st : MerkleState} {count level : ℕ} {rising : Rising} {top : ℕ×Rising}
    (h : Sweeps hash leaves p st.matchlevel count level rising)
    (htracks : Tracks hash leaves p st) (hcount : st.count=leaves.length)
    (hne : count≠2^level)
    (hclimb : climb hash false st ((count+2^level)%2^32) (32-(level+1)) (level+1)
      (MerkleComputation.double hash rising)=some top) :
    level<top.1 ∧ top.1<level+1+(32-(level+1)) ∧ (count+2^level)%2^32=count+2^level ∧
    Sweeps hash leaves p st.matchlevel (count+2^level) top.1 top.2 ∧
    top.2.mutated=rising.mutated := by
  obtain ⟨half,hhalf,hwidth⟩ := h.odd hne
  have hbound := h.bound
  have habove := h.above
  have hbelow := h.below
  have hpow := Nat.two_pow_pos level
  have hsum : count+2^level=(half+2)*2^(level+1) := by
    rw [hhalf]
    ring
  have hbefore : count=(2*half+2)*2^level+2^level := by
    rw [hhalf]
    ring
  have hfits : count+2^level<2^32 := by
    by_contra hwrap
    have hlevel : 2^level ≤ 2^31 := by
      refine Nat.pow_le_pow_right (by omega) ?_
      by_contra hhigh
      have hlarge : 2^32 ≤ 2^level := Nat.pow_le_pow_right (by omega) (by omega)
      omega
    have hzero : (count+2^level)%2^32=0 := by
      have hdvd : 2^level∣2^32-count := by
        refine Nat.dvd_sub ?_ h.dvd
        refine pow_dvd_pow 2 ?_
        by_contra hhigh
        have hlarge : 2^32 ≤ 2^level := Nat.pow_le_pow_right (by omega) (by omega)
        omega
      have hle := Nat.le_of_dvd (by omega) hdvd
      have hexact : count+2^level=2^32 := by omega
      rw [hexact,Nat.mod_self]
    rw [hzero,climb_zero] at hclimb
    cases hclimb
  rw [Nat.mod_eq_of_lt hfits] at hclimb ⊢
  have hdouble : 2^(level+1)=2^level+2^level := by ring
  have hindex : count/2^level-1=2*(half+1) := by omega
  have hnext : (count+2^level)/2^(level+1)-1=half+1 := by
    rw [hsum,Nat.mul_div_cancel _ (Nat.two_pow_pos _)]
    rfl
  have hsingle : leaves.length ≤ (2*(half+1)+1)*2^level := by
    have hexpand : (2*(half+1)+1)*2^level=(2*half+3)*2^level := by ring
    omega
  have hnode := nodeAt_single hash hsingle
  have hstart : Rises hash leaves p leaves.length (count+2^level) (level+1) st.matchlevel
      (MerkleComputation.double hash rising) := by
    constructor
    · rw [hnext,hnode,MerkleComputation.double,h.h,hindex]
    · intro hmatch
      have hpath := h.matched hmatch
      have hhash := h.h
      rw [hindex] at hpath hhash
      have heven : 2*(half+1)/2=half+1 := by omega
      have happend := @OnPath.append hash leaves p level (2*(half+1)) rising.branch rising.h _ hpath
        rfl (by rw [heven,hnode,if_neg (by omega),hhash])
      rw [heven] at happend
      rw [hnext]
      have hrising : rising.matchh=true := hmatch
      simpa only [MerkleComputation.double,hrising,if_true] using happend
    · intro hmatch
      have hrising : rising.matchh=false := hmatch
      have hpending := h.pending hrising
      simpa only [MerkleComputation.double,hrising,if_false,false_eq_true] using hpending
  have hinner : ∀ k, leaves.length.testBit k=true →
      st.inner k=nodeAt hash leaves k (leaves.length/2^k-1) := hcount ▸ htracks.inner
  obtain ⟨hlow,hhigh,hset,hdvd,hrises,-,hmutated⟩ := climb_ok hstart hinner (by omega) (by omega)
    (by omega) ⟨half+2,by rw [hsum,Nat.mul_comm]⟩ hclimb
  have hpowTop : 2^(level+1) ≤ 2^top.1 := Nat.pow_le_pow_right (by omega) hlow
  refine ⟨by omega,hhigh,rfl,⟨hfits,hset,hdvd,by omega,by omega,?_,hrises.h,hrises.matched,?_⟩,?_⟩
  · grind
  · intro hmatch
    refine (hrises.pending hmatch).strict ?_
    rintro found - hbit rfl
    have hdiv := div_succ_eq (by omega : leaves.length < count+2^level)
      (by omega : count+2^level ≤ leaves.length+2^(level+1)) hlow hdvd
    grind
  · have hiff : top.2.mutated=true ↔ rising.mutated=true := by
      rw [hmutated]
      simp [MerkleComputation.double]
    exact eq_iff_iff.mpr hiff

theorem sweep_ok {st : MerkleState} {rounds count level : ℕ} {rising result : Rising}
    (h : Sweeps hash leaves p st.matchlevel count level rising)
    (htracks : Tracks hash leaves p st) (hcount : st.count=leaves.length)
    (hres : sweep hash st rounds count level rising=some result) :
    ∃ height, leaves.length ≤ 2^height ∧ 2^height<2*leaves.length ∧
      result.h=nodeAt hash leaves height 0 ∧ result.mutated=rising.mutated ∧ (p<leaves.length →
        computeMerkleRootFromBranch hash (leaves.getD p 0) result.branch p=result.h) := by
  induction rounds generalizing count level rising with
  | zero => cases hres
  | succ rounds ih =>
    unfold sweep at hres
    split_ifs at hres with hend
    · cases hres
      have habove := h.above
      have hdouble := h.double
      have hindex : count/2^level-1=0 := by
        rw [hend,Nat.div_self (Nat.two_pow_pos level)]
      have hhash := h.h
      rw [hindex] at hhash
      refine ⟨level,by omega,by omega,hhash,rfl,?_⟩
      intro hp
      have hmatch : result.matchh=true := by
        by_contra hnot
        obtain ⟨found,hfound,-,hbit,-⟩ :=
          (h.pending (eq_false_of_not_eq_true hnot)).reached hp
        have hge := Nat.ge_two_pow_of_testBit hbit
        have hpow : 2^(level+1) ≤ 2^found := Nat.pow_le_pow_right (by omega) hfound
        grind
      have hpath := h.matched hmatch
      rw [hindex] at hpath
      rw [hpath.root,hhash]
    · obtain ⟨top,hclimb,hres⟩ := bind_eq_some_iff.mp hres
      obtain ⟨-,-,hmod,hnext,hmutated⟩ := h.step htracks hcount hend hclimb
      rw [hmod] at hres
      rw [← hmutated]
      exact ih hnext hres

end Sweeping

variable {hash : Uint256 → Uint256 → Uint256} {leaves : List Uint256} {p : ℕ}

theorem dvd_succ {count level : ℕ} (hdvd : 2^level∣count) (hbit : count.testBit level=false) :
    2^(level+1)∣count := by
  obtain ⟨width,hwidth⟩ := hdvd
  have heven := testBit_eq_false_iff.mp hbit
  rw [hwidth,Nat.mul_div_cancel_left _ (Nat.two_pow_pos level)] at heven
  obtain ⟨half,hhalf⟩ := Nat.dvd_of_mod_eq_zero heven
  exact ⟨half,by rw [hwidth,hhalf,pow_succ,Nat.mul_assoc]⟩

theorem firstLevel_ok {count levels level found : ℕ} (hdvd : 2^level∣count)
    (h : firstLevel count levels level=some found) :
    count.testBit found=true ∧ 2^found∣count := by
  induction levels generalizing level with
  | zero => cases h
  | succ levels ih =>
    unfold firstLevel at h
    split_ifs at h with hbit
    · cases h
      exact ⟨hbit,hdvd⟩
    · exact ih (dvd_succ hdvd (eq_false_of_not_eq_true hbit)) h

theorem merkleComputation_ok (hleaves : leaves≠[]) {result : Rising}
    (h : merkleComputation hash leaves p=some result) :
    ∃ height, leaves.length ≤ 2^height ∧ 2^height<2*leaves.length ∧
      result.h=nodeAt hash leaves height 0 ∧
      (result.mutated=true ↔ ∃ level index, (2*index+2)*2^level ≤ leaves.length ∧
        nodeAt hash leaves level (2*index)=nodeAt hash leaves level (2*index+1)) ∧
      (p<leaves.length →
        computeMerkleRootFromBranch hash (leaves.getD p 0) result.branch p=result.h) := by
  unfold merkleComputation at h
  rw [if_neg (by simpa using hleaves)] at h
  obtain ⟨st,hstate,h⟩ := bind_eq_some_iff.mp h
  obtain ⟨level,hlevel,h⟩ := bind_eq_some_iff.mp h
  obtain ⟨htracks,hcount⟩ := tracks_foldlM hstate
  obtain ⟨hset,hdvd⟩ := firstLevel_ok (by rw [pow_zero]; exact one_dvd _) hlevel
  obtain ⟨height,hfits,hlow,hroot,hmutated,hbranch⟩ :=
    sweep_ok (sweeps_start htracks hcount hset hdvd) htracks hcount h
  refine ⟨height,hfits,hlow,hroot,?_,hbranch⟩
  rw [hmutated,← hcount]
  exact htracks.mutated

theorem exists_bit {count level : ℕ} (hpos : 0 < count) (hbound : count<2^32)
    (hdvd : 2^level∣count) : ∃ k, level ≤ k ∧ k<32 ∧ count.testBit k=true := by
  obtain ⟨k,hk⟩ := Nat.exists_testBit_of_ne_zero (by omega : count≠0)
  have hlow : level ≤ k := by
    by_contra hlt
    rw [not_testBit_of_lt hdvd (by omega)] at hk
    cases hk
  have hhigh : k<32 := by
    by_contra hge
    have hpow : 2^32 ≤ 2^k := Nat.pow_le_pow_right (by omega) (by omega)
    have hle := Nat.ge_two_pow_of_testBit hk
    omega
  exact ⟨k,hlow,hhigh,hk⟩

theorem climb_isSome {check : Bool} {st : MerkleState} {count levels level k : ℕ}
    {rising : Rising} (hlow : level ≤ k) (hhigh : k<level+levels) (hbit : count.testBit k=true) :
    ∃ top, climb hash check st count levels level rising=some top := by
  induction levels generalizing level rising with
  | zero => omega
  | succ levels ih =>
    unfold climb
    split_ifs with hset
    · exact ⟨_,rfl⟩
    · have hne : level≠k := by
        rintro rfl
        exact hset hbit
      exact ih (by omega) (by omega)

theorem firstLevel_isSome {count levels level k : ℕ} (hlow : level ≤ k) (hhigh : k<level+levels)
    (hbit : count.testBit k=true) : ∃ found, firstLevel count levels level=some found := by
  induction levels generalizing level with
  | zero => omega
  | succ levels ih =>
    unfold firstLevel
    split_ifs with hset
    · exact ⟨_,rfl⟩
    · have hne : level≠k := by
        rintro rfl
        exact hset hbit
      exact ih (by omega) (by omega)

theorem foldlM_isSome {rest : List Uint256} {st : MerkleState}
    (hfits : st.count+rest.length<2^32) :
    ∃ next, rest.foldlM (addLeaf hash p) st=some next := by
  induction rest generalizing st with
  | nil => exact ⟨st,rfl⟩
  | cons leaf rest ih =>
    rw [length_cons] at hfits
    have hmod : (st.count+1)%2^32=st.count+1 := Nat.mod_eq_of_lt (by omega)
    obtain ⟨k,-,hk,hbit⟩ := exists_bit (by omega : 0 < st.count+1) (by omega)
      (by rw [pow_zero]; exact one_dvd _ : 2^0∣st.count+1)
    obtain ⟨top,htop⟩ := @climb_isSome hash true st (st.count+1) 32 0 k
      { h := leaf, matchh := st.count=p, mutated := st.mutated, branch := st.branch }
      (Nat.zero_le k) (by omega) hbit
    have hnext : ∃ next, addLeaf hash p st leaf=some next ∧ next.count=st.count+1 := by
      unfold addLeaf
      dsimp only
      rw [hmod,htop]
      exact ⟨_,rfl,rfl⟩
    grind

/-- The sweep ends for up to half of what the count can hold. -/
theorem sweep_isSome {st : MerkleState} {rounds count level : ℕ} {rising : Rising}
    (h : Sweeps hash leaves p st.matchlevel count level rising)
    (htracks : Tracks hash leaves p st) (hcount : st.count=leaves.length)
    (hlen : leaves.length ≤ 2^31) (hrounds : 32 ≤ level+rounds) :
    ∃ result, sweep hash st rounds count level rising=some result := by
  induction rounds generalizing count level rising with
  | zero =>
    have hge := Nat.ge_two_pow_of_testBit h.set
    have hpow : 2^32 ≤ 2^level := Nat.pow_le_pow_right (by omega) hrounds
    have hbound := h.bound
    omega
  | succ rounds ih =>
    unfold sweep
    split_ifs with hend
    · exact ⟨rising,rfl⟩
    · obtain ⟨half,hhalf,-⟩ := h.odd hend
      have hbelow := h.below
      have hbound := h.bound
      have hlevel : level ≤ 30 := by
        by_contra hhigh
        have hpow : 2^31 ≤ 2^level := Nat.pow_le_pow_right (by omega) (by omega)
        have hthree : 3*2^level ≤ (2*half+3)*2^level := Nat.mul_le_mul_right _ (by omega)
        omega
      obtain ⟨rest,hrest⟩ := Nat.exists_eq_add_of_le hlevel
      have hwhole : 2^31=2*2^rest*2^level := by
        have hpow : 2^31=2*2^30 := by norm_num
        rw [hpow,hrest,pow_add]
        ring
      have hle : count ≤ 2^31 := by
        by_contra hlarge
        rw [hhalf] at hlarge hbelow
        have hmore : 2*2^rest<2*half+3 := by
          by_contra hless
          have hmul := Nat.mul_le_mul_right (2^level) (by omega : 2*half+3 ≤ 2*2^rest)
          omega
        have hmul := Nat.mul_le_mul_right (2^level) (by omega : 2*2^rest+1 ≤ 2*half+3)
        have hexpand : (2*2^rest+1)*2^level=2*2^rest*2^level+2^level := by ring
        omega
      have hpow : 2^level ≤ 2^30 := Nat.pow_le_pow_right (by omega) hlevel
      have hpos := Nat.two_pow_pos level
      have hmod : (count+2^level)%2^32=count+2^level := Nat.mod_eq_of_lt (by omega)
      have hdvd : 2^(level+1)∣count+2^level := ⟨half+2,by rw [hhalf]; ring⟩
      obtain ⟨k,hlow,hhigh,hbit⟩ := exists_bit (by omega) (by omega) hdvd
      obtain ⟨top,htop⟩ := @climb_isSome hash false st (count+2^level) (32-(level+1)) (level+1) k
        (MerkleComputation.double hash rising) hlow (by omega) hbit
      rw [← hmod] at htop
      obtain ⟨hnextLevel,-,-,hnext,-⟩ := h.step htracks hcount hend htop
      grind

theorem merkleComputation_isSome (hlen : leaves.length ≤ 2^31) :
    ∃ result, merkleComputation hash leaves p=some result := by
  unfold merkleComputation
  split_ifs with hempty
  · exact ⟨_,rfl⟩
  · have hstart : ({} : MerkleState).count=0 := rfl
    obtain ⟨st,hstate⟩ := @foldlM_isSome hash p leaves {} (by omega)
    obtain ⟨htracks,hcount⟩ := tracks_foldlM hstate
    have hpos : 0<leaves.length := length_pos_iff.mpr (by simpa using hempty)
    obtain ⟨k,-,hk,hbit⟩ := exists_bit (by omega : 0 < st.count) htracks.bound
      (by rw [pow_zero]; exact one_dvd _ : 2^0∣st.count)
    obtain ⟨level,hlevel⟩ := @firstLevel_isSome st.count 32 0 k (Nat.zero_le k) (by omega) hbit
    obtain ⟨hset,hdvd⟩ := firstLevel_ok (by rw [pow_zero]; exact one_dvd _) hlevel
    obtain ⟨result,hres⟩ := @sweep_isSome hash leaves p st 32 st.count level _
      (sweeps_start htracks hcount hset hdvd) htracks hcount hlen (by omega)
    grind

end Pyrk.MerkleComputation
