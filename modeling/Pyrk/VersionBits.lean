import Mathlib.Data.List.Infix
import Pyrk.MedianTime
import Pyrk.DeterministicMNList

/-!
# States of deployments

The code walks back to a period whose state is in the cache or that ended before the start time, and
forward again from there.
-/

namespace Pyrk.VersionBits

open ProofOfWork MedianTime DeterministicMNList Function List

inductive ThresholdState where
  | defined
  | started
  | lockedIn
  | active
  | failed
  deriving DecidableEq

/-- Known states by the last block of the period before. -/
abbrev ThresholdConditionCache := List CBlockHeader → Option ThresholdState

/-- Block of a branch at a height. -/
def getAncestor (pindex : List CBlockHeader) (height : ℤ) : List CBlockHeader :=
  if (nHeight pindex : ℤ)<height || height<0 then []
  else pindex.drop (nHeight pindex-height).toNat

/-- Rules of a deployment. -/
structure AbstractThresholdConditionChecker where
  condition : List CBlockHeader → Bool
  beginTime : ℤ
  endTime : ℤ
  period : ℕ
  period_pos : 0<period
  threshold : ℤ

namespace AbstractThresholdConditionChecker

variable (checker : AbstractThresholdConditionChecker)

def countSignals : ℕ → List CBlockHeader → ℕ → Checked ℕ
  | 0,_,count => .ok count
  | _+1,[],_ => .error (.assertion .nullPointer)
  | i+1,header::prev,count =>
    countSignals i prev (if checker.condition (header::prev) then count+1 else count)

variable (pindexPrev : List CBlockHeader)

/-- State after a period from the state in it. -/
def stateNext (st : ThresholdState) : Checked ThresholdState :=
  match st with
  | .defined =>
    if checker.endTime≤getMedianTimePast pindexPrev then .ok .failed
    else if checker.beginTime≤getMedianTimePast pindexPrev then .ok .started
    else .ok .defined
  | .started =>
    if checker.endTime≤getMedianTimePast pindexPrev then .ok .failed
    else do
      let count ← checker.countSignals checker.period pindexPrev 0
      .ok (if checker.threshold ≤ count then .lockedIn else .started)
  | .lockedIn => .ok .active
  | .failed => .ok .failed
  | .active => .ok .active

theorem length_getAncestor_lt (header : CBlockHeader) (prev : List CBlockHeader) :
    (getAncestor (header::prev) (nHeight (header::prev)-checker.period)).length <
      (header::prev).length := by
  have := checker.period_pos
  unfold getAncestor
  split_ifs
  · simp
  · rw [length_drop,length_cons]
    omega

/-- Walk back to a period whose state is known, with the periods to compute on the way. -/
def walkBack (cache : ThresholdConditionCache) (pindexPrev : List CBlockHeader)
    (vToCompute : List (List CBlockHeader)) :
    ThresholdConditionCache×List CBlockHeader×List (List CBlockHeader) :=
  if (cache pindexPrev).isSome then (cache,pindexPrev,vToCompute)
  else match pindexPrev with
    | [] => (Function.update cache [] (some .defined),[],vToCompute)
    | header::prev =>
      if getMedianTimePast (header::prev) < checker.beginTime then
        (Function.update cache (header::prev) (some .defined),header::prev,vToCompute)
      else walkBack cache (getAncestor (header::prev) (nHeight (header::prev)-checker.period))
        ((header::prev)::vToCompute)
termination_by pindexPrev.length
decreasing_by exact checker.length_getAncestor_lt header prev

/-- Compute the states of the periods on the way forward. -/
def walkForward (cache : ThresholdConditionCache) (st : ThresholdState) :
    List (List CBlockHeader) → Checked (ThresholdState×ThresholdConditionCache)
  | [] => .ok (st,cache)
  | pindexPrev::vToCompute => do
    let st ← checker.stateNext pindexPrev st
    walkForward (Function.update cache pindexPrev (some st)) st vToCompute

/-- Walk forward from a period whose state is in the cache. -/
def walkFromKnown (known : ThresholdConditionCache×List CBlockHeader×List (List CBlockHeader)) :
    Checked (ThresholdState×ThresholdConditionCache) :=
  match known.1 known.2.1 with
  | none => .error (.assertion .thresholdCache)
  | some st => checker.walkForward known.1 st known.2.2

/-- Last block of the period before the one of the next block. -/
def periodParent : List CBlockHeader :=
  match pindexPrev with
  | [] => []
  | header::prev => getAncestor (header::prev)
      (nHeight (header::prev)-(nHeight (header::prev)+1)%checker.period)

/-- State for the block after a block. -/
def getStateFor (cache : ThresholdConditionCache) :
    Checked (ThresholdState×ThresholdConditionCache) :=
  checker.walkFromKnown (checker.walkBack cache (checker.periodParent pindexPrev) [])

/-- Go back as long as the period before has the same state. -/
def sinceWalk (initialState : ThresholdState) (pindexPrev : List CBlockHeader)
    (cache : ThresholdConditionCache) : Checked (List CBlockHeader×ThresholdConditionCache) :=
  match pindexPrev with
  | [] => .error (.assertion .nullPointer)
  | header::prev =>
    let previousPeriodParent :=
      getAncestor (header::prev) (nHeight (header::prev)-checker.period)
    if previousPeriodParent=[] then .ok (header::prev,cache)
    else do
      let result ← checker.getStateFor previousPeriodParent cache
      if result.1=initialState then sinceWalk initialState previousPeriodParent result.2
      else .ok (header::prev,result.2)
termination_by pindexPrev.length
decreasing_by exact checker.length_getAncestor_lt header prev

/-- Height of the first block of the run of periods with the state for the block after a block. -/
def getStateSinceHeightFor (cache : ThresholdConditionCache) :
    Checked (ℤ×ThresholdConditionCache) := do
  let initial ← checker.getStateFor pindexPrev cache
  if initial.1=.defined then .ok (0,initial.2)
  else do
    let result ← checker.sinceWalk initial.1 (checker.periodParent pindexPrev) initial.2
    .ok (nHeight result.1+1,result.2)

end AbstractThresholdConditionChecker

structure BIP9Deployment where
  bit : ℕ
  nStartTime : ℤ
  nTimeout : ℤ
  /-- Blocks of a period; zero for the number of the network. -/
  nWindowSize : ℕ := 0
  /-- Blocks that have to signal; zero for the number of the network. -/
  nThreshold : ℤ := 0

/-- Periods of a network. -/
structure ConfirmationWindow where
  nMinerConfirmationWindow : ℕ
  window_pos : 0<nMinerConfirmationWindow
  nRuleChangeActivationThreshold : ℤ

/-- Deployments that are signalled by a bit of the version. -/
def versionBitsConditionChecker (params : ConfirmationWindow) (deployment : BIP9Deployment) :
    AbstractThresholdConditionChecker where
  condition pindex := (pindex.head?.map (fun header =>
    header.nVersion &&& 0xE0000000#32=0x20000000#32 &&
      header.nVersion &&& (1#32<<<deployment.bit)≠0#32)).getD false
  beginTime := deployment.nStartTime
  endTime := deployment.nTimeout
  period := if deployment.nWindowSize≠0 then deployment.nWindowSize
    else params.nMinerConfirmationWindow
  period_pos := by
    have := params.window_pos
    split_ifs <;> omega
  threshold := if deployment.nThreshold≠0 then deployment.nThreshold
    else params.nRuleChangeActivationThreshold

namespace AbstractThresholdConditionChecker

variable (checker : AbstractThresholdConditionChecker)

/-- Transition at the end of a period. -/
def transition (pindexPrev : List CBlockHeader) (st : ThresholdState) : ThresholdState :=
  match st with
  | .defined =>
    if checker.endTime≤getMedianTimePast pindexPrev then .failed
    else if checker.beginTime≤getMedianTimePast pindexPrev then .started
    else .defined
  | .started =>
    if checker.endTime≤getMedianTimePast pindexPrev then .failed
    else if checker.threshold≤
      (range checker.period).countP (fun i => checker.condition (pindexPrev.drop i))
      then .lockedIn
    else .started
  | .lockedIn => .active
  | .failed => .failed
  | .active => .active

/-- Branch up to the last block before a period. -/
def periodStart (chain : List CBlockHeader) (index : ℕ) : List CBlockHeader :=
  chain.drop (chain.length-index*checker.period)

/-- State in a period of a branch, from the first one on. -/
def periodState (chain : List CBlockHeader) : ℕ → ThresholdState
  | 0 => .defined
  | index+1 => checker.transition (checker.periodStart chain (index+1)) (periodState chain index)

/-- State for the block after a branch. -/
def deploymentState (chain : List CBlockHeader) : ThresholdState :=
  checker.periodState chain (chain.length/checker.period)

end AbstractThresholdConditionChecker

/-- Blocks that are later than the median before them. -/
structure BlockIndexTree where
  isBlock : List CBlockHeader → Prop
  parent : ∀ header prev, isBlock (header::prev) → prev≠[] → isBlock prev
  /-- They are later than the median of their parents. -/
  later : ∀ header prev, isBlock (header::prev) → prev≠[] →
    getMedianTimePast prev < header.nTime.toNat

def BlockIndexTree.IsPointer (tree : BlockIndexTree) (pindex : List CBlockHeader) : Prop :=
  pindex=[] ∨ tree.isBlock pindex

namespace AbstractThresholdConditionChecker

variable {checker : AbstractThresholdConditionChecker}

section Branches

variable {tree : BlockIndexTree} {chain blocks : List CBlockHeader}

theorem isPointer_of_append (h : tree.IsPointer (blocks++chain)) : tree.IsPointer chain := by
  induction blocks with
  | nil => exact h
  | cons header blocks ih =>
    refine ih ?_
    rcases h with hnil | hblock
    · cases hnil
    · by_cases hempty : blocks++chain=[]
      · exact Or.inl hempty
      · exact Or.inr (tree.parent header _ hblock hempty)

theorem getMedianTimePast_append (h : tree.IsPointer (blocks++chain)) (hne : chain≠[]) :
    getMedianTimePast chain≤getMedianTimePast (blocks++chain) := by
  induction blocks with
  | nil => exact le_refl _
  | cons header blocks ih =>
    have hempty : blocks++chain≠[] := by simp [hne]
    have hblock : tree.isBlock (header::(blocks++chain)) := by
      rcases h with hnil | hblock
      · cases hnil
      · exact hblock
    exact (ih (Or.inr (tree.parent header _ hblock hempty))).trans
      (getMedianTimePast_mono hempty (tree.later header _ hblock hempty))

theorem getAncestor_eq {count : ℕ} (hne : chain≠[]) :
    getAncestor chain (nHeight chain-count)=chain.drop count := by
  have hpos := length_pos_iff.mpr hne
  unfold getAncestor nHeight
  by_cases hlong : chain.length ≤ count
  · rw [drop_eq_nil_of_le hlong,if_pos]
    rw [Bool.or_eq_true,decide_eq_true_eq,decide_eq_true_eq]
    omega
  · grind

theorem periodParent_eq (chain : List CBlockHeader) :
    checker.periodParent chain=chain.drop (chain.length%checker.period) := by
  cases chain with
  | nil => simp [periodParent]
  | cons header prev =>
    have hmod : ((nHeight (header::prev) : ℤ)+1)%checker.period=
        (((header::prev).length%checker.period : ℕ) : ℤ) := by
      rw [nHeight,length_cons]
      push_cast
      simp
    rw [periodParent,hmod,getAncestor_eq (by simp)]

theorem periodStart_append {index : ℕ} (hindex : index*checker.period ≤ chain.length) :
    checker.periodStart (blocks++chain) index=checker.periodStart chain index := by
  have hsplit : (blocks++chain).length-index*checker.period=
      blocks.length+(chain.length-index*checker.period) := by
    rw [length_append]
    omega
  rw [periodStart,periodStart,hsplit,drop_append]
  simp

theorem periodState_append {index : ℕ} (hindex : index*checker.period ≤ chain.length) :
    checker.periodState (blocks++chain) index=checker.periodState chain index := by
  induction index with
  | zero => rfl
  | succ index ih =>
    have hless : index*checker.period ≤ chain.length := by
      rw [Nat.succ_mul] at hindex
      omega
    rw [periodState,periodState,ih hless,periodStart_append hindex]

theorem deploymentState_append
    (hsame : (blocks++chain).length/checker.period=chain.length/checker.period) :
    checker.deploymentState (blocks++chain)=checker.deploymentState chain := by
  rw [deploymentState,hsame,periodState_append (Nat.div_mul_le_self _ _)]
  rfl

theorem length_periodParent (chain : List CBlockHeader) :
    (checker.periodParent chain).length=chain.length/checker.period*checker.period := by
  have := Nat.div_add_mod' chain.length checker.period
  rw [periodParent_eq,length_drop]
  omega

theorem append_periodParent (chain : List CBlockHeader) :
    chain.take (chain.length%checker.period)++checker.periodParent chain=chain := by
  rw [periodParent_eq,take_append_drop]

theorem deploymentState_periodParent (chain : List CBlockHeader) :
    checker.deploymentState (checker.periodParent chain)=checker.deploymentState chain := by
  have hsplit := @append_periodParent checker chain
  conv_rhs => rw [← hsplit]
  rw [deploymentState_append]
  rw [hsplit,length_periodParent,Nat.mul_div_cancel _ checker.period_pos]

theorem deploymentState_succ (haligned : checker.period∣chain.length) (hne : chain≠[]) :
    checker.deploymentState chain=
      checker.transition chain (checker.deploymentState (chain.drop checker.period)) := by
  have hpos := checker.period_pos
  obtain ⟨count,hcount⟩ := haligned
  have hlen := length_pos_iff.mpr hne
  obtain ⟨index,rfl⟩ : ∃ index, count=index+1 := by
    refine ⟨count-1,?_⟩
    rcases Nat.eq_zero_or_pos count with rfl | hcountPos
    · omega
    · omega
  have hdrop : (chain.drop checker.period).length=index*checker.period := by
    rw [length_drop,hcount,Nat.mul_comm,Nat.succ_mul]
    omega
  have hstart : checker.periodStart chain (index+1)=chain := by
    rw [periodStart,hcount,Nat.mul_comm,Nat.sub_self,drop_zero]
  have hbefore := @periodState_append checker (chain.drop checker.period)
    (chain.take checker.period) index (le_of_eq hdrop.symm)
  rw [take_append_drop] at hbefore
  rw [deploymentState,deploymentState,hcount,Nat.mul_div_cancel_left _ hpos,periodState,hstart,
    hbefore,hdrop,Nat.mul_div_cancel _ hpos]

theorem periodState_defined (h : tree.IsPointer chain)
    (htimes : checker.beginTime ≤ checker.endTime)
    (hearly : getMedianTimePast chain < checker.beginTime) {index : ℕ}
    (hindex : index*checker.period ≤ chain.length) : checker.periodState chain index=.defined := by
  induction index with
  | zero => rfl
  | succ index ih =>
    have hpos := checker.period_pos
    rw [Nat.succ_mul] at hindex
    have hne : checker.periodStart chain (index+1)≠[] := by
      rw [← length_pos_iff,periodStart,length_drop,Nat.succ_mul]
      omega
    have hsplit : chain.take (chain.length-(index+1)*checker.period)++
        checker.periodStart chain (index+1)=chain := take_append_drop _ _
    have hmono := @getMedianTimePast_append tree _ (chain.take
      (chain.length-(index+1)*checker.period)) (by rw [hsplit]; exact h) hne
    rw [hsplit] at hmono
    rw [periodState,ih (by omega),transition,if_neg (by omega),if_neg (by omega)]

theorem transition_ne_defined {st : ThresholdState} (hstate : st≠.defined) :
    checker.transition chain st≠.defined := by
  cases st with
  | defined => exact absurd rfl hstate
  | started =>
    rw [transition]
    split_ifs <;> simp
  | lockedIn => simp [transition]
  | active => simp [transition]
  | failed => simp [transition]

theorem transition_final {st : ThresholdState} (hstate : st=.active ∨ st=.failed) :
    checker.transition chain st=st := by
  rcases hstate with rfl | rfl <;> rfl

theorem periodState_final {index more : ℕ}
    (hstate : checker.periodState chain index=.active ∨ checker.periodState chain index=.failed) :
    checker.periodState chain (index+more)=checker.periodState chain index := by
  induction more with
  | zero => rfl
  | succ more ih =>
    rw [← Nat.add_assoc,periodState,ih,transition_final hstate]

theorem deploymentState_final
    (hstate : checker.deploymentState chain=.active ∨ checker.deploymentState chain=.failed) :
    checker.deploymentState (blocks++chain)=checker.deploymentState chain := by
  have hbefore : checker.periodState (blocks++chain) (chain.length/checker.period)=
      checker.deploymentState chain := periodState_append (Nat.div_mul_le_self _ _)
  have hmore : chain.length/checker.period≤(blocks++chain).length/checker.period :=
    Nat.div_le_div_right (by simp)
  obtain ⟨more,hindex⟩ := Nat.exists_eq_add_of_le hmore
  rw [← hbefore] at hstate
  rw [deploymentState,hindex,periodState_final hstate,hbefore]

theorem periodState_of_defined {index more : ℕ}
    (hstate : checker.periodState chain (index+more)=.defined) :
    checker.periodState chain index=.defined := by
  induction more with
  | zero => exact hstate
  | succ more ih =>
    refine ih ?_
    by_contra hleft
    rw [← Nat.add_assoc,periodState] at hstate
    exact transition_ne_defined hleft hstate

end Branches

section Walks

variable {tree : BlockIndexTree} {chain : List CBlockHeader} {cache : ThresholdConditionCache}
variable {vToCompute : List (List CBlockHeader)}

theorem countSignals_eq {i : ℕ} (hlong : i ≤ chain.length) (count : ℕ) :
    checker.countSignals i chain count=
      .ok (count+(range i).countP (fun i => checker.condition (chain.drop i))) := by
  induction i generalizing chain count with
  | zero => rfl
  | succ i ih =>
    cases chain with
    | nil => simp at hlong
    | cons header prev =>
      rw [length_cons,Nat.succ_le_succ_iff] at hlong
      rw [countSignals,ih hlong,range_succ_eq_map,countP_cons,countP_map,drop_zero]
      have hrest : (fun i => checker.condition ((header::prev).drop i))∘Nat.succ=
          fun i => checker.condition (prev.drop i) := rfl
      rw [hrest]
      split_ifs <;> simp only [Except.ok.injEq] <;> omega

theorem stateNext_eq (hlong : checker.period ≤ chain.length) (st : ThresholdState) :
    checker.stateNext chain st=.ok (checker.transition chain st) := by
  cases st with
  | defined =>
    rw [stateNext,transition]
    split_ifs <;> rfl
  | started =>
    rw [stateNext,transition,countSignals_eq hlong]
    split_ifs with hlate hsignals
    · rfl
    · simpa [ok_bind] using hsignals
    · simpa [ok_bind] using hsignals
  | lockedIn => rfl
  | active => rfl
  | failed => rfl

/-- States in the cache are right. -/
def CacheOk (checker : AbstractThresholdConditionChecker)
    (cache : ThresholdConditionCache) : Prop :=
  ∀ chain st, cache chain=some st → st=checker.deploymentState chain

theorem CacheOk.update (h : CacheOk checker cache) :
    CacheOk checker (Function.update cache chain (some (checker.deploymentState chain))) := by
  intro other st hstate
  by_cases he : other=chain
  · subst he
    rw [update_self,Option.some.injEq] at hstate
    exact hstate.symm
  · rw [update_of_ne he] at hstate
    exact h other st hstate

theorem walkFromKnown_walkBack (h : CacheOk checker cache) (hpointer : tree.IsPointer chain)
    (htimes : checker.beginTime ≤ checker.endTime) (haligned : checker.period∣chain.length) :
    ∃ next, CacheOk checker next ∧ checker.walkFromKnown (checker.walkBack cache chain vToCompute)=
        checker.walkForward next (checker.deploymentState chain) vToCompute := by
  induction hlen : chain.length using Nat.strong_induction_on generalizing chain vToCompute with
  | _ length ih =>
  have hpos := checker.period_pos
  unfold walkBack
  split_ifs with hknown
  · obtain ⟨st,hstate⟩ := Option.isSome_iff_exists.mp hknown
    refine ⟨cache,h,?_⟩
    simp only [walkFromKnown]
    rw [hstate,← h chain st hstate]
  · cases chain with
    | nil =>
      have hfirst : checker.deploymentState []=.defined := by simp [deploymentState,periodState]
      have hupdate := @CacheOk.update checker [] cache h
      rw [hfirst] at hupdate ⊢
      refine ⟨_,hupdate,?_⟩
      simp only [walkFromKnown,update_self]
    | cons header prev =>
      dsimp only
      split_ifs with hearly
      · have hstate : checker.deploymentState (header::prev)=.defined :=
          periodState_defined hpointer htimes hearly (Nat.div_mul_le_self _ _)
        have hupdate := @CacheOk.update checker (header::prev) cache h
        rw [hstate] at hupdate ⊢
        refine ⟨_,hupdate,?_⟩
        simp only [walkFromKnown,update_self]
      · have hlong : checker.period≤(header::prev).length :=
          Nat.le_of_dvd (by simp) haligned
        have hbefore : tree.IsPointer ((header::prev).drop checker.period) :=
          @isPointer_of_append tree _ ((header::prev).take checker.period)
            (by rw [take_append_drop]; exact hpointer)
        rw [getAncestor_eq (by simp)]
        obtain ⟨next,hnext,hwalk⟩ := @ih ((header::prev).drop checker.period).length
          (by rw [length_drop]; omega) ((header::prev).drop checker.period)
          ((header::prev)::vToCompute) hbefore
          (by rw [length_drop]; exact Nat.dvd_sub haligned (Nat.dvd_refl _)) rfl
        refine ⟨_,@CacheOk.update checker (header::prev) next hnext,?_⟩
        rw [hwalk,walkForward,stateNext_eq hlong,ok_bind,deploymentState_succ haligned (by simp)]

theorem getStateFor_eq (h : CacheOk checker cache) (hpointer : tree.IsPointer chain)
    (htimes : checker.beginTime ≤ checker.endTime) :
    ∃ next, CacheOk checker next ∧
      checker.getStateFor chain cache=.ok (checker.deploymentState chain,next) := by
  have hpar : tree.IsPointer (checker.periodParent chain) :=
    @isPointer_of_append tree _ (chain.take (chain.length%checker.period))
      (by rw [append_periodParent]; exact hpointer)
  obtain ⟨next,hnext,hwalk⟩ := @walkFromKnown_walkBack checker tree (checker.periodParent chain)
    cache [] h hpar htimes (by rw [length_periodParent]; exact Nat.dvd_mul_left _ _)
  refine ⟨next,hnext,?_⟩
  rw [getStateFor,hwalk,deploymentState_periodParent]
  rfl

/-- First period of the run of periods with the last state. -/
structure FirstOfRun (checker : AbstractThresholdConditionChecker) (chain : List CBlockHeader)
    (index : ℕ) : Prop where
  le : index ≤ chain.length/checker.period
  same : ∀ other, index≤other → other ≤ chain.length/checker.period →
    checker.periodState chain other=checker.deploymentState chain
  first : ∀ before, before+1=index → checker.periodState chain before≠checker.deploymentState chain

theorem FirstOfRun.append {blocks : List CBlockHeader} {index : ℕ}
    (h : FirstOfRun checker chain index)
    (hstate : checker.deploymentState (blocks++chain)=checker.deploymentState chain)
    (hnext : (blocks++chain).length/checker.period ≤ chain.length/checker.period+1) :
    FirstOfRun checker (blocks++chain) index := by
  have hmore : chain.length/checker.period≤(blocks++chain).length/checker.period :=
    Nat.div_le_div_right (by simp)
  have hsame : ∀ other, other ≤ chain.length/checker.period →
      checker.periodState (blocks++chain) other=checker.periodState chain other := by
    intro other hle
    exact periodState_append ((Nat.mul_le_mul_right _ hle).trans (Nat.div_mul_le_self _ _))
  refine ⟨h.le.trans hmore,fun other hindex hother => ?_,fun before hbefore => ?_⟩
  · by_cases hle : other ≤ chain.length/checker.period
    · rw [hsame other hle,hstate]
      exact h.same other hindex hle
    · have hlast : other=(blocks++chain).length/checker.period := by omega
      rw [hlast]
      rfl
  · have hle := h.le
    rw [hsame before (by omega),hstate]
    exact h.first before hbefore

theorem firstOfRun_last {before : ℕ} (hbefore : before+1=chain.length/checker.period)
    (hother : checker.periodState chain before≠checker.deploymentState chain) :
    FirstOfRun checker chain (chain.length/checker.period) := by
  refine ⟨le_refl _,fun other hindex hle => ?_,fun earlier hearlier => ?_⟩
  · rw [Nat.le_antisymm hle hindex]
    rfl
  · rw [show earlier=before by omega]
    exact hother

section

variable (h : CacheOk checker cache) (hpointer : tree.IsPointer chain)
variable (htimes : checker.beginTime ≤ checker.endTime)

include h hpointer htimes

theorem sinceWalk_eq (haligned : checker.period∣chain.length)
    (hstate : checker.deploymentState chain≠.defined) :
    ∃ found next index, CacheOk checker next ∧ FirstOfRun checker chain index ∧
      found≠[] ∧ found.length=index*checker.period ∧
      checker.sinceWalk (checker.deploymentState chain) chain cache=.ok (found,next) := by
  induction hlen : chain.length using Nat.strong_induction_on generalizing chain cache with
  | _ length ih =>
  have hpos := checker.period_pos
  have hempty : chain≠[] := by
    rintro rfl
    simp [deploymentState,periodState] at hstate
  have hlong : checker.period ≤ chain.length :=
    Nat.le_of_dvd (length_pos_iff.mpr hempty) haligned
  have hdrop : (chain.drop checker.period).length/checker.period+1=
      chain.length/checker.period := by
    rw [length_drop,← Nat.add_div_right _ hpos,Nat.sub_add_cancel hlong]
  have hsplit : chain.take checker.period++chain.drop checker.period=chain :=
    take_append_drop _ _
  have hbefore : checker.periodState chain ((chain.drop checker.period).length/checker.period)=
      checker.deploymentState (chain.drop checker.period) := by
    have happend := @periodState_append checker (chain.drop checker.period)
      (chain.take checker.period) _ (Nat.div_mul_le_self _ _)
    rw [hsplit] at happend
    exact happend
  have hfull : chain.length=chain.length/checker.period*checker.period :=
    (Nat.div_mul_cancel haligned).symm
  have hunfold : checker.sinceWalk (checker.deploymentState chain) chain cache=
      (if chain.drop checker.period=[] then .ok (chain,cache)
      else do
        let result ← checker.getStateFor (chain.drop checker.period) cache
        if result.1=checker.deploymentState chain then
          checker.sinceWalk (checker.deploymentState chain) (chain.drop checker.period) result.2
        else .ok (chain,result.2)) := by
    obtain ⟨header,prev,rfl⟩ := exists_cons_of_ne_nil hempty
    conv_lhs => unfold sinceWalk
    rw [getAncestor_eq (by simp)]
  rw [hunfold]
  split_ifs with hfirst
  · refine ⟨chain,cache,_,h,firstOfRun_last hdrop ?_,hempty,hfull,rfl⟩
    rw [hbefore,hfirst]
    intro he
    rw [← he] at hstate
    simp [deploymentState,periodState] at hstate
  · have hpointer' : tree.IsPointer (chain.drop checker.period) :=
      @isPointer_of_append tree _ (chain.take checker.period) (by rw [hsplit]; exact hpointer)
    obtain ⟨middle,hmid,hcode⟩ := getStateFor_eq h hpointer' htimes
    rw [hcode,ok_bind]
    dsimp only
    split_ifs with hsame
    · obtain ⟨found,next,index,hnext,hrun,hfound,hheight,hwalk⟩ := ih
        (chain.drop checker.period).length (by rw [length_drop]; omega) hmid hpointer'
        (by rw [length_drop]; exact Nat.dvd_sub haligned (Nat.dvd_refl _))
        (by rw [hsame]; exact hstate) rfl
      rw [hsame] at hwalk
      refine ⟨found,next,index,hnext,?_,hfound,hheight,hwalk⟩
      have happend := @FirstOfRun.append checker _ (chain.take checker.period) index hrun
      rw [hsplit] at happend
      exact happend hsame.symm (le_of_eq hdrop.symm)
    · refine ⟨chain,middle,_,hmid,firstOfRun_last hdrop ?_,hempty,hfull,rfl⟩
      rw [hbefore]
      exact hsame

theorem getStateSinceHeightFor_eq :
    ∃ index next, CacheOk checker next ∧ FirstOfRun checker chain index ∧
      checker.getStateSinceHeightFor chain cache=.ok ((index*checker.period : ℕ),next) := by
  obtain ⟨middle,hmid,hcode⟩ := getStateFor_eq h hpointer htimes
  unfold getStateSinceHeightFor
  rw [hcode,ok_bind]
  dsimp only
  split_ifs with hfirst
  · refine ⟨0,middle,hmid,⟨Nat.zero_le _,fun other _ hle => ?_,fun _ hbefore => by omega⟩,by simp⟩
    obtain ⟨more,hmore⟩ := Nat.exists_eq_add_of_le hle
    rw [hfirst]
    refine @periodState_of_defined checker chain other more ?_
    rw [← hmore]
    exact hfirst
  · have hsplit := @append_periodParent checker chain
    have hpar : tree.IsPointer (checker.periodParent chain) :=
      @isPointer_of_append tree _ (chain.take (chain.length%checker.period))
        (by rw [hsplit]; exact hpointer)
    have hstate := @deploymentState_periodParent checker chain
    obtain ⟨found,next,index,hnext,hrun,hfound,hheight,hwalk⟩ := @sinceWalk_eq checker tree
      (checker.periodParent chain) middle hmid hpar htimes
      (by rw [length_periodParent]; exact Nat.dvd_mul_left _ _) (by rw [hstate]; exact hfirst)
    rw [hstate] at hwalk
    refine ⟨index,next,hnext,?_,?_⟩
    · have happend := @FirstOfRun.append checker _ (chain.take
      (chain.length%checker.period)) index hrun
      rw [hsplit] at happend
      refine happend hstate.symm ?_
      rw [length_periodParent,Nat.mul_div_cancel _ checker.period_pos]
      exact Nat.le_succ _
    · have hpos := length_pos_iff.mpr hfound
      rw [hwalk,ok_bind,← hheight,nHeight]
      congr 2
      dsimp only
      omega

end

/-- Caches that queries on blocks of a tree lead to. -/
inductive Queried (checker : AbstractThresholdConditionChecker) (tree : BlockIndexTree) :
    ThresholdConditionCache → Prop where
  | empty : Queried checker tree (fun _ => none)
  | st {cache next : ThresholdConditionCache} {chain : List CBlockHeader}
      {found : ThresholdState} (hpointer : tree.IsPointer chain)
      (hcode : checker.getStateFor chain cache=.ok (found,next)) :
      Queried checker tree cache → Queried checker tree next
  | since {cache next : ThresholdConditionCache} {chain : List CBlockHeader} {height : ℤ}
      (hpointer : tree.IsPointer chain)
      (hcode : checker.getStateSinceHeightFor chain cache=.ok (height,next)) :
      Queried checker tree cache → Queried checker tree next

theorem Queried.cacheOk (h : Queried checker tree cache)
    (htimes : checker.beginTime ≤ checker.endTime) : CacheOk checker cache := by
  induction h with
  | empty =>
    intro chain st hstate
    cases hstate
  | st hpointer hcode _ ih =>
    obtain ⟨next,hnext,hres⟩ := getStateFor_eq ih hpointer htimes
    rw [hcode,Except.ok.injEq,Prod.mk.injEq] at hres
    rwa [hres.2]
  | since hpointer hcode _ ih =>
    obtain ⟨index,next,hnext,-,hres⟩ := getStateSinceHeightFor_eq ih hpointer htimes
    rw [hcode,Except.ok.injEq,Prod.mk.injEq] at hres
    rwa [hres.2]

/-- Whatever was asked before, the state is the one of the rules, the same for all blocks of a
period. Final states are kept, and the height is that of the first block with the state. -/
theorem getStateFor_queried (tree : BlockIndexTree) (checker : AbstractThresholdConditionChecker)
    (htimes : checker.beginTime ≤ checker.endTime) (hcache : Queried checker tree cache)
    (hpointer : tree.IsPointer chain) :
    (∃ next, checker.getStateFor chain cache=.ok (checker.deploymentState chain,next)) ∧
    (∀ blocks, tree.IsPointer (blocks++chain) →
      (blocks++chain).length/checker.period=chain.length/checker.period →
      ∃ next, checker.getStateFor (blocks++chain) cache=.ok (checker.deploymentState chain,next)) ∧
    (∀ blocks, tree.IsPointer (blocks++chain) →
      (checker.deploymentState chain=.active ∨ checker.deploymentState chain=.failed) →
      ∃ next, checker.getStateFor (blocks++chain) cache=.ok (checker.deploymentState chain,next)) ∧
    ∃ index next, FirstOfRun checker chain index ∧
      checker.getStateSinceHeightFor chain cache=.ok ((index*checker.period : ℕ),next) := by
  have hok := hcache.cacheOk htimes
  refine ⟨?_,fun blocks hblocks hsame => ?_,fun blocks hblocks hfinal => ?_,?_⟩
  · obtain ⟨next,-,hcode⟩ := getStateFor_eq hok hpointer htimes
    exact ⟨next,hcode⟩
  · obtain ⟨next,-,hcode⟩ := getStateFor_eq hok hblocks htimes
    exact ⟨next,by rw [hcode,deploymentState_append hsame]⟩
  · obtain ⟨next,-,hcode⟩ := getStateFor_eq hok hblocks htimes
    exact ⟨next,by rw [hcode,deploymentState_final hfinal]⟩
  · obtain ⟨index,next,-,hrun,hcode⟩ := getStateSinceHeightFor_eq hok hpointer htimes
    exact ⟨index,next,hrun,hcode⟩

end Walks

def signalling (nTime : UInt32) : CBlockHeader :=
  { nVersion := 0x30000000#32, nTime := nTime, nBits := 0 }

/-- A block that does not signal and three that do. -/
def sampleBranch : List CBlockHeader :=
  [signalling 63,signalling 62,signalling 61,{ nVersion := 1#32, nTime := 60, nBits := 0 }]

/-- A tree of this branch only. -/
def sampleTree : BlockIndexTree where
  isBlock chain := chain≠[] ∧ chain <:+ sampleBranch
  parent header prev hblock hne := ⟨hne,(suffix_cons header prev).trans hblock.2⟩
  later header prev hblock hne := by
    have hlater : ∀ chain ∈ sampleBranch.tails,chain.tail≠[] →
        getMedianTimePast chain.tail < (chain.head?.map (·.nTime.toNat)).getD 0 := by decide
    exact hlater (header::prev) ((mem_tails _ _).mpr hblock.2) hne

/-- A deployment with periods of one block. -/
def sampleChecker (nStartTime nTimeout : ℤ) : AbstractThresholdConditionChecker :=
  versionBitsConditionChecker ⟨144,by decide,108⟩
    { bit := 28, nStartTime := nStartTime, nTimeout := nTimeout, nWindowSize := 1, nThreshold := 1 }

/-- The rules lock in, are asked about, and are active after two more blocks. -/
theorem getStateFor_queried_sample : ∃ cache next,
    (sampleChecker 50 100).getStateFor (sampleBranch.drop 2) (fun _ => none)=.ok (.lockedIn,cache) ∧
    (sampleChecker 50 100).getStateFor sampleBranch cache=.ok (.active,next) := by
  have hpointer : sampleTree.IsPointer (sampleBranch.drop 2) := Or.inr ⟨by decide,by decide⟩
  obtain ⟨cache,hfirst⟩ := (getStateFor_queried sampleTree (sampleChecker 50 100) (by decide)
    .empty hpointer).1
  have hbranch : sampleTree.IsPointer sampleBranch := Or.inr ⟨by decide,by decide⟩
  obtain ⟨next,hsecond⟩ := (getStateFor_queried sampleTree (sampleChecker 50 100) (by decide)
    (.st hpointer hfirst .empty) hbranch).1
  have hlocked : (sampleChecker 50 100).deploymentState (sampleBranch.drop 2)=.lockedIn := by decide
  have hact : (sampleChecker 50 100).deploymentState sampleBranch=.active := by decide
  exact ⟨cache,next,hlocked ▸ hfirst,hact ▸ hsecond⟩

/-- A deployment that times out before it starts has failed by the rules, but the code does
not look at the timeout before the start. -/
theorem getStateFor_timeout_first :
    sampleTree.isBlock [{ nVersion := 1#32, nTime := 60, nBits := 0 }] ∧
      (sampleChecker 100 50).deploymentState
        [{ nVersion := 1#32, nTime := 60, nBits := 0 }]=.failed ∧
      (sampleChecker 100 50).getStateFor [{ nVersion := 1#32, nTime := 60, nBits := 0 }]
        (fun _ => none)=.ok (.defined,Function.update (fun _ => none)
          [{ nVersion := 1#32, nTime := 60, nBits := 0 }] (some .defined)) := by
  refine ⟨⟨by decide,by decide⟩,by decide,?_⟩
  have hpar : (sampleChecker 100 50).periodParent [{ nVersion := 1#32, nTime := 60, nBits := 0 }]=
      [{ nVersion := 1#32, nTime := 60, nBits := 0 }] := by decide
  have hearly : getMedianTimePast [{ nVersion := 1#32, nTime := 60, nBits := 0 }] <
      (sampleChecker 100 50).beginTime := by decide
  rw [getStateFor,hpar]
  unfold walkBack
  dsimp only
  rw [if_neg (by simp),if_pos hearly]
  simp only [walkFromKnown,update_self,walkForward]

end AbstractThresholdConditionChecker

end Pyrk.VersionBits
