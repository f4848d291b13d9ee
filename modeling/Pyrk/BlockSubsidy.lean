import Pyrk.Binary64
import Pyrk.Superblock
import Mathlib.Tactic.IntervalCases

/-!
# The subsidy and what superblocks may pay

The subsidy falls every hundred thousand blocks, in floating point. From a height on a tenth is kept
back, and a superblock may pay the tenth of a whole cycle.
-/

namespace Pyrk.BlockSubsidy

open ChainParams Transaction Superblock Binary64

/-- Least reduction, the double nearest to 0.0375. -/
def leastReduction : Double := ⟨5404319552844595,57⟩

example : 2*(375*2^57-5404319552844595*10000)<10000 ∧ 5404319552844595*10000<375*2^57 := by
  decide

/-- One round of the loop: the reduction is halved, and the subsidy is reduced by it. -/
def reduceSubsidy (st : Double×ℕ) : Double×ℕ :=
  let reductionPercent := st.1.mul ⟨1,1⟩
  let reductionPercent :=
    if reductionPercent.lt leastReduction then leastReduction else reductionPercent
  let multiplyValue := (Double.ofNat 1).sub reductionPercent
  (reductionPercent,((Double.ofNat st.2).mul multiplyValue).trunc)

/-- Subsidy after a number of reductions. -/
def reducedSubsidy (halvings : ℕ) : ℕ := (reduceSubsidy^[halvings] (Double.ofNat 1,100*10^8)).2

variable (network : Network)

/-- Subsidy of a height, before a part is kept back. -/
def subsidyAt (nHeight : ℕ) : ℤ :=
  reducedSubsidy (nHeight/nSubsidyHalvingInterval network)

/-- What the coinbase at a height may be worth at most, fees aside. -/
def coinbaseAllowance (nHeight : ℕ) : ℤ :=
  getBlockSubsidy (subsidyAt network) network nHeight false+
    getPaymentsLimit (subsidyAt network) network nHeight

/-- The whole subsidy of a height. -/
def fullSubsidy (nHeight : ℕ) : ℤ :=
  getBlockSubsidy (subsidyAt network) network nHeight false+
    getBlockSubsidy (subsidyAt network) network nHeight true

/-- Up to a height the coinbases are allowed no more than the whole subsidies. -/
def NoExtraCoins (nHeight : ℕ) : Prop :=
  ∑ height∈Finset.Icc 1 nHeight,coinbaseAllowance network height≤
    ∑ height∈Finset.Icc 1 nHeight,fullSubsidy network height

theorem reducedSubsidy_first : reducedSubsidy 0=10000000000 ∧ reducedSubsidy 1=5000000000 ∧
    reducedSubsidy 2=3750000000 ∧ reducedSubsidy 3=3281250000 ∧ reducedSubsidy 4=3076171875 ∧
    reduceSubsidy^[5] (Double.ofNat 1,100*10^8)=(leastReduction,2960815429) := by
  decide

theorem reduceSubsidy_least :
    leastReduction.mul ⟨1,1⟩=⟨5404319552844595,58⟩ ∧
      (Double.ofNat 1).sub leastReduction=⟨138710868523011280,57⟩ := by
  decide

theorem reduceSubsidy_of_least {nSubsidy : ℕ} (hsmall : nSubsidy<2^53) :
    (reduceSubsidy (leastReduction,nSubsidy)).1=leastReduction ∧
      (reduceSubsidy (leastReduction,nSubsidy)).2≤nSubsidy := by
  obtain ⟨hhalf,hfactor⟩ := reduceSubsidy_least
  have hclamp : (if (leastReduction.mul ⟨1,1⟩).lt leastReduction then leastReduction
      else leastReduction.mul ⟨1,1⟩)=leastReduction := by
    rw [hhalf]
    exact if_pos (by decide)
  unfold reduceSubsidy
  dsimp only
  rw [hclamp,hfactor]
  exact ⟨rfl,trunc_mul_le hsmall (by decide)⟩

theorem reduceSubsidy_iterate (halvings : ℕ) :
    (reduceSubsidy^[halvings+5] (Double.ofNat 1,100*10^8)).1=leastReduction ∧
      reducedSubsidy (halvings+5)<2^53 := by
  induction halvings with
  | zero =>
    unfold reducedSubsidy
    rw [reducedSubsidy_first.2.2.2.2.2]
    exact ⟨rfl,by decide⟩
  | succ halvings ih =>
    obtain ⟨hpercent,hsmall⟩ := ih
    unfold reducedSubsidy at hsmall ⊢
    rw [Nat.add_right_comm,Function.iterate_succ_apply']
    generalize reduceSubsidy^[halvings+5] (Double.ofNat 1,100*10^8)=st at hpercent hsmall ⊢
    have hround := reduceSubsidy_of_least hsmall
    rw [← hpercent] at hround
    exact ⟨hround.1.trans hpercent,Nat.lt_of_le_of_lt hround.2 hsmall⟩

theorem reducedSubsidy_succ_le (halvings : ℕ) :
    reducedSubsidy (halvings+1) ≤ reducedSubsidy halvings := by
  obtain ⟨h0,h1,h2,h3,h4,h5⟩ := reducedSubsidy_first
  by_cases hearly : halvings<5
  · have hfifth : reducedSubsidy 5=2960815429 := by rw [reducedSubsidy,h5]
    interval_cases halvings <;> simp only [Nat.reduceAdd,h0,h1,h2,h3,h4,hfifth] <;> decide
  · obtain ⟨late,rfl⟩ := Nat.exists_eq_add_of_le' (Nat.le_of_not_lt hearly)
    obtain ⟨hpercent,hsmall⟩ := reduceSubsidy_iterate late
    unfold reducedSubsidy at hsmall ⊢
    rw [Function.iterate_succ_apply']
    generalize reduceSubsidy^[late+5] (Double.ofNat 1,100*10^8)=st at hpercent hsmall ⊢
    have hround := (reduceSubsidy_of_least hsmall).2
    rw [← hpercent] at hround
    exact hround

/-- The part of the subsidy that main network blocks keep back. -/
def keptBack (nHeight : ℕ) : ℤ :=
  if 25000 ≤ nHeight then (reducedSubsidy (nHeight/100000) : ℤ)/10 else 0

/-- Blocks after the last superblock height up to a height. -/
def sinceSuperblock (nHeight : ℕ) : ℕ := nHeight%29200

/-- What the blocks up to a height kept back, less what superblocks may pay. -/
def reserve : ℕ → ℤ
  | 0 => 0
  | nHeight+1 =>
    reserve nHeight+keptBack (nHeight+1)-
      if 25000≤nHeight+1 ∧ sinceSuperblock (nHeight+1)=0 then keptBack (nHeight+1)*29200 else 0

theorem getBlockSubsidy_main (nHeight : ℕ) :
    getBlockSubsidy (subsidyAt .main) .main nHeight true=keptBack nHeight := rfl

theorem getPaymentsLimit_main (nHeight : ℕ) :
    getPaymentsLimit (subsidyAt .main) .main nHeight=
      if 25000 ≤ nHeight ∧ sinceSuperblock nHeight=0 then keptBack nHeight*29200 else 0 := by
  have hvalid : isValidBlockHeight .main nHeight=true ↔
      25000 ≤ nHeight ∧ sinceSuperblock nHeight=0 := by
    unfold isValidBlockHeight
    rw [Bool.and_eq_true,decide_eq_true_eq,decide_eq_true_eq]
    rfl
  unfold getPaymentsLimit
  rw [getBlockSubsidy_main]
  by_cases hheight : isValidBlockHeight .main nHeight=true
  · rw [if_pos (hvalid.mp hheight),if_neg (by rw [hheight]; decide)]
    rfl
  · rw [if_neg (fun h => hheight (hvalid.mpr h))]
    rw [Bool.not_eq_true] at hheight
    exact if_pos (by rw [hheight]; rfl)

theorem reserve_eq (nHeight : ℕ) :
    reserve nHeight=∑ height∈Finset.Icc 1 nHeight,fullSubsidy .main height-
      ∑ height∈Finset.Icc 1 nHeight,coinbaseAllowance .main height := by
  induction nHeight with
  | zero => rfl
  | succ nHeight ih =>
    rw [reserve,ih,Finset.sum_Icc_succ_top (by omega),Finset.sum_Icc_succ_top (by omega)]
    unfold fullSubsidy coinbaseAllowance
    rw [getPaymentsLimit_main,getBlockSubsidy_main]
    ring

theorem noExtraCoins_iff_reserve (nHeight : ℕ) : NoExtraCoins .main nHeight ↔
    0 ≤ reserve nHeight := by
  rw [reserve_eq,NoExtraCoins,sub_nonneg]

variable {nHeight : ℕ}

theorem keptBack_early (hearly : nHeight<100000) :
    keptBack nHeight=if 25000 ≤ nHeight then 1000000000 else 0 := by
  have hfirst : nHeight/100000=0 := by omega
  rw [keptBack,hfirst,reducedSubsidy_first.1]
  rfl

theorem keptBack_succ_le (hstarted : 25000 ≤ nHeight) :
    0≤keptBack (nHeight+1) ∧ keptBack (nHeight+1)≤keptBack nHeight := by
  have hanti := antitone_nat_of_succ_le reducedSubsidy_succ_le
    (show nHeight/100000≤(nHeight+1)/100000 by omega)
  unfold keptBack
  rw [if_pos hstarted,if_pos (by omega)]
  omega

theorem reserve_early {nHeight : ℕ} (hearly : nHeight<100000) :
    reserve nHeight=if 25000 ≤ nHeight then
      1000000000*((nHeight : ℤ)-24999-29200*(nHeight/29200 : ℕ)) else 0 := by
  induction nHeight with
  | zero => rfl
  | succ nHeight ih =>
    rw [reserve,ih (by omega),keptBack_early hearly,sinceSuperblock]
    split_ifs <;> omega

/-- The reserve if no block before the next superblock kept back less. -/
def room (nHeight : ℕ) : ℤ :=
  reserve nHeight+keptBack nHeight*(29199-sinceSuperblock nHeight : ℕ)

theorem room_succ_le (hstarted : 25000 ≤ nHeight) : room (nHeight+1) ≤ room nHeight := by
  obtain ⟨hnonneg,hfall⟩ := keptBack_succ_le hstarted
  have hmod := Nat.mod_lt nHeight (show 0<29200 by decide)
  unfold room
  rw [reserve]
  by_cases hsuper : sinceSuperblock (nHeight+1)=0
  · have hlast : sinceSuperblock nHeight=29199 := by
      unfold sinceSuperblock at hsuper ⊢
      omega
    rw [if_pos ⟨by omega,hsuper⟩,hsuper,hlast]
    omega
  · have hnext : 29199-sinceSuperblock nHeight=29199-sinceSuperblock (nHeight+1)+1 := by
      unfold sinceSuperblock at hsuper ⊢
      omega
    have hscaled := mul_le_mul_of_nonneg_right hfall
      (Int.natCast_nonneg (29199-sinceSuperblock nHeight))
    rw [hnext,Nat.cast_add,Nat.cast_one] at hscaled ⊢
    rw [if_neg (fun h => hsuper h.2)]
    rw [mul_add,mul_one] at hscaled
    omega

theorem reserve_late (hlate : 100000 ≤ nHeight) : reserve nHeight<0 := by
  have hstart : room 100000<0 := by
    have hreserve := @reserve_early 99999 (by decide)
    have hkept : keptBack 100000=500000000 := by
      rw [keptBack,if_pos (by decide),show 100000/100000=1 by decide,reducedSubsidy_first.2.1]
      rfl
    rw [room,reserve,hreserve,hkept]
    decide
  have hroom : room nHeight ≤ room 100000 := by
    induction nHeight,hlate using Nat.le_induction with
    | base => exact le_refl _
    | succ nHeight hlate ih => exact (room_succ_le (by omega)).trans ih
  have hkept : 0≤keptBack nHeight := by
    obtain ⟨before,rfl⟩ := Nat.exists_eq_add_of_le' (show 1 ≤ nHeight by omega)
    exact (keptBack_succ_le (by omega)).1
  have hrest := mul_nonneg hkept (Int.natCast_nonneg (29199-sinceSuperblock nHeight))
  unfold room at hroom hstart
  omega

/-- On the main network no extra coins are allowed up to a height if and only if it is below the
first superblock, or this was made up for in one of the next two cycles. -/
theorem noExtraCoins_iff (nHeight : ℕ) :
    NoExtraCoins .main nHeight ↔
      nHeight<29200 ∨ (54199 ≤ nHeight ∧ nHeight<58400) ∨ (83399 ≤ nHeight ∧ nHeight<87600) := by
  rw [noExtraCoins_iff_reserve]
  by_cases hlate : 100000 ≤ nHeight
  · have hneg := reserve_late hlate
    omega
  · rw [reserve_early (Nat.lt_of_not_le hlate)]
    split_ifs <;> omega

/-- The first superblock may pay for 24999 blocks that kept nothing back. -/
theorem noExtraCoins_first_superblock :
    ¬NoExtraCoins .main 29200 ∧ ∑ height∈Finset.Icc 1 29200,coinbaseAllowance .main height=
        ∑ height∈Finset.Icc 1 29200,fullSubsidy .main height+24999*(10*coin) := by
  have hreserve := @reserve_early 29200 (by decide)
  have hvalue : reserve 29200= -(24999*(10*coin)) := hreserve
  refine ⟨?_,?_⟩
  · rw [noExtraCoins_iff_reserve,hvalue]
    decide
  · rw [reserve_eq] at hvalue
    omega

end Pyrk.BlockSubsidy
