import Pyrk.BlockTemplate
import Mathlib.Algebra.BigOperators.Ring.List

/-!
# Work of chains

The mean of the targets is a product of truncated roots, and the work of a
block falls where a target rises. The work of a chain is a 256-bit sum, which is
that of unbounded numbers for as long as these fit.
-/

namespace Pyrk.ChainWork

open List

open Limbs ArithUint CompactTarget ProofOfWork RetargetRange RetargetEquilibrium NthRoot
  BlockProof Function
  BlockHeaders BlockTemplate

section Work

variable {algos : ℕ} {targets others : List ArithUint256}

theorem scaledWork_eq {mean : ℕ} (hmean : 128 ≤ mean) :
    2^256/(mean+1)*2^7%2^256=2^256/(mean+1)*2^7 := by
  have hquotient : 2^256/(mean+1)≤2^256/129 := Nat.div_le_div_left (by omega) (by decide)
  have hroom : 2^256/129*2^7<2^256 := by decide
  refine Nat.mod_eq_of_lt (Nat.lt_of_le_of_lt (Nat.mul_le_mul_right _ hquotient) hroom)

theorem scaledWork_pos {mean : ℕ} (hlt : mean+1<2^256) : 0<2^256/(mean+1)*2^7 :=
  Nat.mul_pos (Nat.div_pos (Nat.le_of_lt hlt) (Nat.succ_pos _)) (by decide)

theorem searchedRoots_eq (halgos : algos∈[3,4,5]) (targets : List ArithUint256) :
    targets.map (fun target => (approxNthRoot target algos).value)=roots algos targets := by
  have hdegree := algos_bounds halgos
  refine map_congr_left (fun target _ => ?_)
  exact value_approxNthRoot hdegree.1 hdegree.2 target

theorem work_rootProduct (halgos : algos∈[3,4,5]) (hlen : targets.length=algos)
    (hmean : 128≤(roots algos targets).prod) :
    ∃ work, workOfTarget (rootProduct algos targets)=some work ∧
      work.value=2^256/((roots algos targets).prod+1)*2^7 := by
  obtain ⟨hproduct,hlt⟩ := value_rootProduct halgos hlen
  obtain ⟨work,hwork,hvalue⟩ := value_workOfTarget (hproduct ▸ hlt)
  refine ⟨work,hwork,?_⟩
  rw [hvalue,hproduct,scaledWork_eq hmean]

theorem work_antitone (halgos : algos∈[3,4,5]) (hlen : targets.length=algos)
    (hmean : 128≤(roots algos targets).prod)
    (hle : List.Forall₂ (fun target other => target.value≤other.value) targets others) :
    ∃ work less, workOfTarget (rootProduct algos targets)=some work ∧
      workOfTarget (rootProduct algos others)=some less ∧ less.value ≤ work.value := by
  have hgrow := prod_roots_mono (algos_bounds halgos) hle
  obtain ⟨work,hwork,hvalue⟩ := work_rootProduct halgos hlen hmean
  obtain ⟨less,hless,hlessValue⟩ := work_rootProduct halgos (hle.length_eq ▸ hlen)
    (Nat.le_trans hmean hgrow)
  refine ⟨work,less,hwork,hless,?_⟩
  rw [hvalue,hlessValue]
  exact Nat.mul_le_mul_right _ (Nat.div_le_div_left (Nat.succ_le_succ hgrow) (Nat.succ_pos _))

end Work

/-- Work of the block after a chain over unbounded numbers; a target of zero makes the mean zero. -/
def unboundedProof (params : Params) (pprev : List CBlockHeader) : ℕ :=
  2^256/(meanTarget params pprev+1)*2^7

/-- Work of a chain over unbounded numbers. -/
def unboundedWork (params : Params) : List CBlockHeader → ℕ
  | [] => 0
  | _::pprev => unboundedWork params pprev+unboundedProof params pprev

section Chain

variable {params : HeaderParams} {hashes : HeaderHashes} {headers : List CBlockHeader}
  {mapBlockIndex : BlockMap}

/-- A target that stands for none is zero, as required targets are not negative and fit. -/
theorem meanTarget_of_missing {params : Params} {pprev : List CBlockHeader}
    (h : missingTarget params pprev=true) : meanTarget params pprev=0 := by
  have halgos := algos_bounds (currentAlgos_mem params pprev.length)
  obtain ⟨nBits,hm,hbad⟩ := any_eq_true.mp h
  have hencoded : ∃ target : ArithUint256,nBits=getCompact target := by
    obtain ⟨algo,-,rfl⟩ := mem_map.mp hm
    rw [getNextWorkRequired_eq]
    cases retargetInputs params pprev algo with
    | none => exact ⟨_,rfl⟩
    | some inputs => exact ⟨_,rfl⟩
  obtain ⟨target,rfl⟩ := hencoded
  rw [badTarget,compactNegative_getCompact,compactOverflow_getCompact,Bool.false_or,Bool.false_or,
    decide_eq_true_eq] at hbad
  have hroot : approxRoot (currentAlgos params pprev.length)
      (setCompact (getCompact target)).value=0 := by
    have hpower := approxRoot_pow_le halgos.1 (setCompact (getCompact target)).value
    rw [hbad,Nat.le_zero] at hpower
    rw [hbad]
    exact eq_zero_of_pow_eq_zero hpower
  refine prod_eq_zero ?_
  rw [← hroot]
  exact mem_map_of_mem (mem_map_of_mem hm)

/-- Work that fits has a mean of 128 at least and no target of zero, so it is exact and positive. -/
theorem value_blockProof_of_fits {params : Params} {pprev : List CBlockHeader}
    (hfits : unboundedProof params pprev<2^256) :
    (blockProof params pprev).value=unboundedProof params pprev ∧
      0<unboundedProof params pprev := by
  have hmean : 128 ≤ meanTarget params pprev := by
    by_contra hlow
    have hquotient : 2^256/128≤2^256/(meanTarget params pprev+1) :=
      Nat.div_le_div_left (by omega) (Nat.succ_pos _)
    have hwide : 2^256≤2^256/128*2^7 := by decide
    exact absurd (Nat.le_trans hwide (Nat.mul_le_mul_right _ hquotient)) (Nat.not_le.mpr hfits)
  have htargets : missingTarget params pprev=false := by
    refine eq_false_of_ne_true (fun hmissing => ?_)
    rw [meanTarget_of_missing hmissing] at hmean
    exact absurd hmean (by decide)
  have hlt : meanTarget params pprev+1<2^256 := by
    have halgos := currentAlgos_mem params pprev.length
    refine (value_rootProduct halgos ?_).2
    rw [length_map,length_requiredBits params halgos]
  refine ⟨?_,scaledWork_pos hlt⟩
  rw [value_blockProof,htargets,scaledWork_eq hmean]
  rfl

section

variable (hlimit : params.pow.powLimit.value<2^256-1)
variable (h : AcceptedHeaders params hashes headers mapBlockIndex)

include hlimit h

theorem AcceptedHeaders.find_genesis :
    mapBlockIndex.find (hashGenesisBlock params hashes)=
      some ⟨params.genesis,[],(BaseUint.ofNat 8 0).add (blockProof params.pow [])⟩ := by
  induction h with
  | start => rw [find_genesisIndex,if_pos rfl]
  | accept hbefore haccept ih =>
    exact (acceptBlockHeader_find (AcceptedHeaders.soundIndex hlimit hbefore) haccept).2.1 _ _ ih

/-- While the work of a chain fits, the sums of its blocks do not wrap. -/
theorem nChainWork_eq {hash : ℕ} {pindex : CBlockIndex}
    (hfind : mapBlockIndex.find hash=some pindex)
    (hfits : unboundedWork params.pow pindex.chain<2^256) :
    pindex.nChainWork.value=unboundedWork params.pow pindex.chain := by
  have hsound := AcceptedHeaders.soundIndex hlimit h
  generalize hlen : pindex.pprev.length=length
  induction length using Nat.strong_induction_on generalizing hash pindex with
  | _ length ih =>
    rw [CBlockIndex.chain,unboundedWork] at hfits ⊢
    have hproof := value_blockProof_of_fits (Nat.lt_of_le_of_lt (Nat.le_add_left _ _) hfits)
    by_cases hgenesis : hash=hashGenesisBlock params hashes
    · rw [hgenesis,AcceptedHeaders.find_genesis hlimit h] at hfind
      cases hfind
      rw [BaseUint.value_add,hproof.1]
      exact Nat.mod_eq_of_lt hfits
    · obtain ⟨pindexPrev,hprev,hchain,hwork⟩ := hsound.linked hash pindex hfind hgenesis
      have hshorter : pindexPrev.pprev.length<length := by
        rw [← hlen,hchain]
        exact Nat.lt_succ_self _
      rw [hchain] at hfits hproof ⊢
      rw [hwork,BaseUint.value_add,hproof.1,
        ih _ hshorter hprev (Nat.lt_of_le_of_lt (Nat.le_add_right _ _) hfits) rfl]
      exact Nat.mod_eq_of_lt hfits

end

end Chain

/-- For three, four or five targets the product of the roots fits, and from a mean of 128 on the
work is positive and falls where a target rises. While the work of a chain of accepted blocks fits
into 256 bits, each of its blocks adds to it. -/
theorem chainWork_grows :
    (∀ algos∈[3,4,5], ∀ targets : List ArithUint256, targets.length=algos →
      (rootProduct algos targets).value=
        (targets.map (fun target => (approxNthRoot target algos).value)).prod ∧
      (targets.map (fun target => (approxNthRoot target algos).value)).prod<2^256 ∧
      (rootProduct algos targets).value^algos ≤ (targets.map BaseUint.value).prod ∧
      (128≤(rootProduct algos targets).value →
        ∃ work, workOfTarget (rootProduct algos targets)=some work ∧ 0<work.value ∧
          ∀ others, List.Forall₂ (fun target other => target.value≤other.value) targets others →
            ∃ less, workOfTarget (rootProduct algos others)=some less ∧ less.value ≤ work.value)) ∧
    ∀ (params : HeaderParams) (hashes : HeaderHashes) (headers : List CBlockHeader)
      (mapBlockIndex : BlockMap), params.pow.powLimit.value<2^256-1 →
      AcceptedHeaders params hashes headers mapBlockIndex →
      ∀ hash pindex, mapBlockIndex.find hash=some pindex →
        unboundedWork params.pow pindex.chain<2^256 →
        pindex.nChainWork.value=unboundedWork params.pow pindex.chain ∧
          (hash≠hashGenesisBlock params hashes →
            ∃ pindexPrev, mapBlockIndex.find pindex.header.hashPrevBlock=some pindexPrev ∧
              pindex.pprev=pindexPrev.chain ∧
              pindexPrev.nChainWork.value<pindex.nChainWork.value) := by
  constructor
  · intro algos halgos targets hlen
    obtain ⟨hproduct,hlt⟩ := value_rootProduct halgos hlen
    have hdegree := algos_bounds halgos
    rw [searchedRoots_eq halgos]
    refine ⟨hproduct,by omega,?_,?_⟩
    · rw [hproduct]
      exact prod_roots_pow_le hdegree.1 targets
    · intro hmean
      rw [hproduct] at hmean
      obtain ⟨work,hwork,hvalue⟩ := work_rootProduct halgos hlen hmean
      refine ⟨work,hwork,hvalue ▸ scaledWork_pos hlt,?_⟩
      intro others hle
      obtain ⟨same,less,hsame,hless,hfall⟩ := work_antitone halgos hlen hmean hle
      rw [hwork] at hsame
      cases hsame
      exact ⟨less,hless,hfall⟩
  · intro params hashes headers mapBlockIndex hlimit hacc hash pindex hfind hfits
    have hexact := nChainWork_eq hlimit hacc hfind hfits
    refine ⟨hexact,fun hgenesis => ?_⟩
    obtain ⟨pindexPrev,hprev,hchain,-⟩ :=
      (AcceptedHeaders.soundIndex hlimit hacc).linked hash pindex hfind hgenesis
    refine ⟨pindexPrev,hprev,hchain,?_⟩
    rw [CBlockIndex.chain,unboundedWork] at hfits hexact
    have hpos := (value_blockProof_of_fits
      (Nat.lt_of_le_of_lt (Nat.le_add_left _ _) hfits)).2
    rw [hexact,nChainWork_eq hlimit hacc hprev (by rw [← hchain]; omega),← hchain]
    omega

set_option maxRecDepth 100000 in
/-- Three targets with positive work, and the first blocks after the genesis block. -/
theorem chainWork_grows_sample :
    (∃ work, workOfTarget (rootProduct 3 (List.replicate 3 (BaseUint.ofNat 8 (2^60))))=some work ∧
      0<work.value) ∧
    ∃ headers mapBlockIndex pindex pindexPrev,
      AcceptedHeaders mainHeaderParams raceHashes headers mapBlockIndex ∧
      mapBlockIndex.find (raceHash 3)=some pindex ∧ pindex.chain=raceChain 3 ∧
      mapBlockIndex.find pindex.header.hashPrevBlock=some pindexPrev ∧
      pindexPrev.nChainWork.value<pindex.nChainWork.value := by
  constructor
  · obtain ⟨-,-,-,hwork⟩ := chainWork_grows.1 3 (by decide)
      (List.replicate 3 (BaseUint.ofNat 8 (2^60))) rfl
    obtain ⟨work,hsome,hpos,-⟩ := hwork (by decide)
    exact ⟨work,hsome,hpos⟩
  · obtain ⟨headers,mapBlockIndex,hacc,hknown,-⟩ := @raceChain_accepted 3 (by decide)
    obtain ⟨pindex,hfind,hchain⟩ := hknown 3 (Nat.le_refl _)
    have hgenesis : raceHash 3≠hashGenesisBlock mainHeaderParams raceHashes := by decide
    have hfits : unboundedWork mainHeaderParams.pow pindex.chain<2^256 := by
      rw [hchain]
      decide
    obtain ⟨pindexPrev,hprev,-,hgrows⟩ := (chainWork_grows.2 mainHeaderParams raceHashes headers
      mapBlockIndex powLimit_lt_max hacc _ pindex hfind hfits).2 hgenesis
    exact ⟨headers,mapBlockIndex,pindex,pindexPrev,hacc,hfind,hchain,hprev,hgrows⟩

end Pyrk.ChainWork
