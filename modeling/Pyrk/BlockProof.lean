import Pyrk.NthRoot
import Pyrk.ProofOfWork
import Mathlib.Algebra.Order.BigOperators.Group.List

/-!
# Work of a block

The work of a block is read off the geometric mean of the targets of all algorithms at its height, a
product of truncated roots.
-/

namespace Pyrk.BlockProof

open ArithUint CompactTarget ProofOfWork NthRoot List BaseUint

/-- Algorithms in the order of their numbers. -/
def algoOrder : List Algo := [.sha256d,.scrypt,.x11,.yespower,.lyra2]

/-- Number of algorithms at a height. -/
def currentAlgos (params : Params) (nHeight : ℕ) : ℕ :=
  if params.AlgoChangeHeight ≤ nHeight then numAlgosV3
  else if params.v2DiffChangeHeight ≤ nHeight then numAlgosV2
  else numAlgos

def badTarget (nBits : UInt32) : Bool :=
  compactNegative nBits || compactOverflow nBits || decide ((setCompact nBits).value=0)

/-- Multiply the roots of targets, unless one of them stands for none. -/
def averageTarget (algos : ℕ) : ArithUint256 → List UInt32 → Option ArithUint256
  | bnAvgTarget,[] => some bnAvgTarget
  | bnAvgTarget,nBits::rest =>
    if badTarget nBits then none
    else averageTarget algos (bnAvgTarget.mul (approxNthRoot (setCompact nBits) algos)) rest

def rootProduct (algos : ℕ) (targets : List ArithUint256) : ArithUint256 :=
  targets.foldl (fun bnAvgTarget target => bnAvgTarget.mul (approxNthRoot target algos)) (ofNat 8 1)

theorem averageTarget_eq (algos : ℕ) (bits : List UInt32) :
    averageTarget algos (ofNat 8 1) bits=
      if bits.any badTarget then none else some (rootProduct algos (bits.map setCompact)) := by
  have hloop : ∀ bnAvgTarget, averageTarget algos bnAvgTarget bits=
      if bits.any badTarget then none else some ((bits.map setCompact).foldl
        (fun bnAvgTarget target => bnAvgTarget.mul (approxNthRoot target algos)) bnAvgTarget) := by
    induction bits with
    | nil => intro bnAvgTarget; rfl
    | cons nBits rest ih =>
      intro bnAvgTarget
      unfold averageTarget
      by_cases hbad : badTarget nBits=true
      · simp only [any_cons,hbad,Bool.true_or,if_true]
      · simp only [if_neg hbad,ih,any_cons,Bool.not_eq_true] at hbad ⊢
        simp only [hbad,Bool.false_or,map_cons,foldl_cons]
  exact hloop _

/-- Work of a mean target; no result stands for the error on a zero divisor. -/
def workOfTarget (bnAvgTarget : ArithUint256) : Option ArithUint256 := do
  let bnRes ← bnAvgTarget.not.div (bnAvgTarget.add (ofNat 8 1))
  some ((bnRes.add (ofNat 8 1)).shiftLeft 7)

section Mean

variable {algos : ℕ}

theorem exists_rootBound (halgos : algos∈[3,4,5]) :
    ∃ bound, bound^algos+1<2^256 ∧ 2^256≤(bound+1)^algos := by
  simp only [mem_cons,not_mem_nil,or_false] at halgos
  rcases halgos with rfl | rfl | rfl
  · exact ⟨48740834812604276470692694,by decide,by decide⟩
  · exact ⟨18446744073709551615,by decide,by decide⟩
  · exact ⟨2586638741762874,by decide,by decide⟩

theorem algos_bounds (halgos : algos∈[3,4,5]) : 1<algos ∧ algos<64 := by
  simp only [mem_cons,not_mem_nil,or_false] at halgos
  omega

/-- Roots over unbounded numbers. -/
def roots (algos : ℕ) (targets : List ArithUint256) : List ℕ :=
  targets.map (fun target => approxRoot algos target.value)

@[simp] theorem prod_roots_cons (algos : ℕ) (target : ArithUint256) (targets : List ArithUint256) :
    (roots algos (target::targets)).prod=approxRoot algos target.value*(roots algos targets).prod :=
  prod_cons

theorem approxRoot_le_bound (halgos : 1<algos) {bound : ℕ} (hbound : 2^256≤(bound+1)^algos)
    (target : ArithUint256) : approxRoot algos target.value ≤ bound := by
  refine Nat.le_of_lt_succ (lt_of_pow_lt_pow_left₀ algos (Nat.zero_le _) ?_)
  exact Nat.lt_of_le_of_lt (approxRoot_pow_le halgos _) (Nat.lt_of_lt_of_le target.value_lt hbound)

theorem value_foldl_roots (hdegree : 1<algos ∧ algos<64) {bound : ℕ} (hpos : 0<bound)
    (hbound : 2^256≤(bound+1)^algos) (targets : List ArithUint256) (bnAvgTarget : ArithUint256)
    (hfits : bnAvgTarget.value*bound^targets.length<2^256) :
    (targets.foldl (fun bnAvgTarget target => bnAvgTarget.mul (approxNthRoot target algos))
      bnAvgTarget).value=bnAvgTarget.value*(roots algos targets).prod := by
  induction targets generalizing bnAvgTarget with
  | nil => exact (Nat.mul_one _).symm
  | cons target targets ih =>
    have hroot := approxRoot_le_bound hdegree.1 hbound target
    have hgrow : bnAvgTarget.value*approxRoot algos target.value*bound^targets.length≤
        bnAvgTarget.value*bound^(target::targets).length := by
      rw [length_cons,Nat.pow_succ',← Nat.mul_assoc]
      exact Nat.mul_le_mul_right _ (Nat.mul_le_mul_left _ hroot)
    have hlt := Nat.lt_of_le_of_lt hgrow hfits
    have hstep : (bnAvgTarget.mul (approxNthRoot target algos)).value=
        bnAvgTarget.value*approxRoot algos target.value := by
      rw [value_mul,value_approxNthRoot hdegree.1 hdegree.2,Nat.mod_eq_of_lt]
      exact Nat.lt_of_le_of_lt (Nat.le_mul_of_pos_right _ (Nat.pow_pos hpos)) hlt
    rw [foldl_cons,ih _ (hstep ▸ hlt),hstep,prod_roots_cons,Nat.mul_assoc]

theorem value_rootProduct (halgos : algos∈[3,4,5]) {targets : List ArithUint256}
    (hlen : targets.length=algos) :
    (rootProduct algos targets).value=(roots algos targets).prod ∧
      (roots algos targets).prod+1<2^256 := by
  obtain ⟨bound,hpower,hbound⟩ := exists_rootBound halgos
  have hdegree := algos_bounds halgos
  have hpos : 0<bound := by
    refine Nat.pos_of_ne_zero (fun hzero => ?_)
    rw [hzero,Nat.zero_add,Nat.one_pow] at hbound
    exact absurd hbound (by decide)
  have hone : (ofNat 8 1).value=1 := rfl
  have hprod : (roots algos targets).prod ≤ bound^algos := by
    have hle := prod_le_pow_card (roots algos targets) bound (fun root hroot => by
      obtain ⟨target,-,rfl⟩ := mem_map.mp hroot
      exact approxRoot_le_bound hdegree.1 hbound target)
    rwa [roots,length_map,hlen] at hle
  refine ⟨?_,by omega⟩
  have hvalue := value_foldl_roots hdegree hpos hbound targets (ofNat 8 1)
    (by rw [hone,hlen]; omega)
  rw [hone,Nat.one_mul] at hvalue
  exact hvalue

theorem prod_roots_pow_le (hdegree : 1<algos) (targets : List ArithUint256) :
    (roots algos targets).prod^algos ≤ (targets.map BaseUint.value).prod := by
  induction targets with
  | nil => exact Nat.le_of_eq (Nat.one_pow algos)
  | cons target targets ih =>
    rw [prod_roots_cons,map_cons,prod_cons,Nat.mul_pow]
    exact Nat.mul_le_mul (approxRoot_pow_le hdegree _) ih

theorem prod_roots_mono (hdegree : 1<algos ∧ algos<64) {targets others : List ArithUint256}
    (hle : List.Forall₂ (fun target other => target.value≤other.value) targets others) :
    (roots algos targets).prod≤(roots algos others).prod := by
  induction hle with
  | nil => exact Nat.le_refl _
  | cons hhead htail ih =>
    rw [prod_roots_cons,prod_roots_cons]
    exact Nat.mul_le_mul (approxRoot_mono hdegree.1 hdegree.2 hhead) ih

theorem value_workOfTarget {bnAvgTarget : ArithUint256} (hlt : bnAvgTarget.value+1<2^256) :
    ∃ work, workOfTarget bnAvgTarget=some work ∧
      work.value=2^256/(bnAvgTarget.value+1)*2^7%2^256 := by
  have hone : (ofNat 8 1).value=1 := rfl
  have hdivisor : (bnAvgTarget.add (ofNat 8 1)).value=bnAvgTarget.value+1 := by
    rw [value_add,hone,Nat.mod_eq_of_lt hlt]
  obtain ⟨quotient,hdiv,hquotient⟩ := @value_div 8 bnAvgTarget.not
    (bnAvgTarget.add (ofNat 8 1)) (by rw [hdivisor]; omega)
  have hwork : workOfTarget bnAvgTarget=some ((quotient.add (ofNat 8 1)).shiftLeft 7) := by
    rw [workOfTarget,hdiv]
    rfl
  refine ⟨_,hwork,?_⟩
  have hsum : quotient.value+1=2^256/(bnAvgTarget.value+1) := by
    rw [hquotient,hdivisor,value_not]
    change (2^256-1-bnAvgTarget.value)/(bnAvgTarget.value+1)+1=_
    rw [← Nat.add_div_right _ (Nat.succ_pos _)]
    congr 1
    omega
  rw [value_shiftLeft,value_add,hone,hsum,Nat.mod_mul_mod]

end Mean

/-- Compact targets of every algorithm for the block after a chain. -/
def requiredBits (params : Params) (algos : ℕ) (pprev : List CBlockHeader) : List UInt32 :=
  (algoOrder.take algos).map (getNextWorkRequired params pprev)

/-- Work of the block after a chain; only its height is read of the block itself. -/
def getBlockProof (params : Params) (pprev : List CBlockHeader) : Option ArithUint256 :=
  let algos := currentAlgos params pprev.length
  match averageTarget algos (ofNat 8 1) (requiredBits params algos pprev) with
  | none => some (ofNat 8 0)
  | some bnAvgTarget => workOfTarget bnAvgTarget

theorem currentAlgos_mem (params : Params) (nHeight : ℕ) : currentAlgos params nHeight∈[3,4,5] := by
  unfold currentAlgos
  split_ifs <;> decide

theorem length_requiredBits (params : Params) {algos : ℕ} (halgos : algos∈[3,4,5])
    (pprev : List CBlockHeader) : (requiredBits params algos pprev).length=algos := by
  simp only [mem_cons,not_mem_nil,or_false] at halgos
  rw [requiredBits,length_map,length_take]
  change min algos 5=algos
  omega

def meanTarget (params : Params) (pprev : List CBlockHeader) : ℕ :=
  let algos := currentAlgos params pprev.length
  (roots algos ((requiredBits params algos pprev).map setCompact)).prod

/-- Whether an algorithm has no target for the block after a chain. -/
def missingTarget (params : Params) (pprev : List CBlockHeader) : Bool :=
  (requiredBits params (currentAlgos params pprev.length) pprev).any badTarget

theorem getBlockProof_eq (params : Params) (pprev : List CBlockHeader) :
    ∃ work, getBlockProof params pprev=some work ∧ work.value=if missingTarget params pprev then 0
        else 2^256/(meanTarget params pprev+1)*2^7%2^256 := by
  have halgos := currentAlgos_mem params pprev.length
  have hlen : ((requiredBits params (currentAlgos params pprev.length) pprev).map
      setCompact).length=currentAlgos params pprev.length := by
    rw [length_map,length_requiredBits params halgos]
  obtain ⟨hproduct,hlt⟩ := value_rootProduct halgos hlen
  unfold getBlockProof missingTarget
  dsimp only
  rw [averageTarget_eq]
  split_ifs with hmissing
  · exact ⟨_,rfl,rfl⟩
  · have hmean : meanTarget params pprev=(rootProduct (currentAlgos params pprev.length)
          ((requiredBits params (currentAlgos params pprev.length) pprev).map setCompact)).value :=
      hproduct.symm
    rw [hmean]
    exact value_workOfTarget (hproduct ▸ hlt)

/-- Work of the block after a chain. -/
def blockProof (params : Params) (pprev : List CBlockHeader) : ArithUint256 :=
  (getBlockProof params pprev).get (by
    obtain ⟨work,hwork,-⟩ := getBlockProof_eq params pprev
    rw [hwork]
    rfl)

theorem value_blockProof (params : Params) (pprev : List CBlockHeader) :
    (blockProof params pprev).value=if missingTarget params pprev then 0
      else 2^256/(meanTarget params pprev+1)*2^7%2^256 := by
  obtain ⟨work,hwork,hvalue⟩ := getBlockProof_eq params pprev
  rw [← hvalue]
  simp only [blockProof,hwork,Option.get_some]

end Pyrk.BlockProof
