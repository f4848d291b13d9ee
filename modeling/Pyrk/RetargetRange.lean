import Pyrk.ProofOfWork
import Mathlib.Order.Iterate

/-!
# Range of the retarget arithmetic

With unbounded numbers the steps agree with the 256-bit ones exactly as long as there is room for
the greatest product.
-/

namespace Pyrk.RetargetRange

open ArithUint CompactTarget ProofOfWork Function List BaseUint

/-- What the arithmetic of a retarget starts from. -/
structure RetargetInputs where
  timespan : PosInt64
  nActualTimespan : ℤ
  /-- Compact target of the last block of the algorithm. -/
  nBits : UInt32
  /-- Blocks that the algorithm is ahead of its turn. -/
  nAdjustments : ℤ
  deriving DecidableEq

section Inputs

variable (params : Params)

/-- Inputs of a retarget, if the greatest target is not used. -/
def windowInputs (algos : ℕ) (timespan : PosInt64) (minSpan maxSpan : ℤ)
    (chain : List CBlockHeader) (algo : Algo) : Option RetargetInputs :=
  match getLastBlockIndexForAlgo params algo chain with
  | [] => none
  | header::prev =>
    let first := chain.drop (algos*params.nAveragingInterval)
    if first=[] ∨ params.fPowNoRetargeting=true then none
    else some ⟨timespan,actualTimespan timespan minSpan maxSpan chain first,header.nBits,
      adjustments algos chain (header::prev)⟩

/-- Inputs of the retarget of an algorithm after a chain. -/
def retargetInputs (chain : List CBlockHeader) (algo : Algo) : Option RetargetInputs :=
  if chain=[] ∨ nHeight chain<params.v2DiffChangeHeight then
    windowInputs params numAlgos params.nAveragingTargetTimespan params.nMinActualTimespan
      params.nMaxActualTimespan chain algo
  else if nHeight chain<params.v3DiffChangeHeight then
    windowInputs params numAlgosV2 params.nAveragingTargetTimespanV2 params.nMinActualTimespanV2
      params.nMaxActualTimespanV2 chain algo
  else windowInputs params (if nHeight chain<params.AlgoChangeHeight then numAlgosV2
      else numAlgosV3) params.nAveragingTargetTimespanV2 params.nMinActualTimespanV3
      params.nMaxActualTimespanV3 chain algo

/-- Target that the 256-bit arithmetic computes from its inputs. -/
def boundedTarget (inputs : RetargetInputs) : ArithUint256 :=
  adjustTarget params inputs.nAdjustments
    (scaleTarget inputs.timespan inputs.nActualTimespan (setCompact inputs.nBits))

theorem getLastBlockIndexForAlgo_of_ne {algo : Algo} {header : CBlockHeader}
    (h : header.getAlgo≠algo) (prev : List CBlockHeader) :
    getLastBlockIndexForAlgo params algo (header::prev)=
      getLastBlockIndexForAlgo params algo prev := by
  rw [getLastBlockIndexForAlgo.eq_def]
  dsimp only
  rw [if_pos h]

theorem retarget_eq (algos : ℕ) (timespan : PosInt64) (minSpan maxSpan : ℤ)
    (chain : List CBlockHeader) (algo : Algo) :
    retarget params algos timespan minSpan maxSpan chain algo=
      match windowInputs params algos timespan minSpan maxSpan chain algo with
      | none => getCompact params.powLimit
      | some inputs => getCompact (capTarget params (boundedTarget params inputs)) := by
  unfold retarget windowInputs
  cases getLastBlockIndexForAlgo params algo chain with
  | nil => rfl
  | cons header prev =>
    dsimp only
    split_ifs <;> rfl

theorem getNextWorkRequired_eq (chain : List CBlockHeader) (algo : Algo) :
    getNextWorkRequired params chain algo=
      match retargetInputs params chain algo with
      | none => getCompact params.powLimit
      | some inputs => getCompact (capTarget params (boundedTarget params inputs)) := by
  unfold getNextWorkRequired retargetInputs getNextWorkRequiredV1 getNextWorkRequiredV2
    getNextWorkRequiredV3
  split_ifs <;> exact retarget_eq params _ _ _ _ chain algo

/-- Lowering over unbounded numbers. -/
def lower (x : ℕ) : ℕ := x*100/(100+params.nLocalTargetAdjustment)

/-- Raising over unbounded numbers. -/
def raise (x : ℕ) : ℕ := x*(100+params.nLocalTargetAdjustment)/100

/-- Scaled target over unbounded numbers. -/
def scaled (inputs : RetargetInputs) : ℕ :=
  (setCompact inputs.nBits).value*inputs.nActualTimespan.toNat/inputs.timespan.1

/-- Target over unbounded numbers. -/
def unboundedTarget (inputs : RetargetInputs) : ℕ :=
  if 0 < inputs.nAdjustments then (lower params)^[inputs.nAdjustments.toNat] (scaled inputs)
  else if inputs.nAdjustments<0 then (raise params)^[(-inputs.nAdjustments).toNat] (scaled inputs)
  else scaled inputs

/-- Next target over unbounded numbers, capped and encoded. -/
def unboundedNextWork (chain : List CBlockHeader) (algo : Algo) : UInt32 :=
  match retargetInputs params chain algo with
  | none => getCompact params.powLimit
  | some inputs =>
    getCompact (ofNat 8 (min params.powLimit.value (unboundedTarget params inputs)))

/-- Products of all multiplications over unbounded numbers. -/
def products (inputs : RetargetInputs) : List ℕ :=
  (setCompact inputs.nBits).value*inputs.nActualTimespan.toNat::
    if 0 < inputs.nAdjustments then (List.range inputs.nAdjustments.toNat).map (fun i =>
      (lower params)^[i] (scaled inputs)*100)
    else (List.range (-inputs.nAdjustments).toNat).map (fun i =>
      (raise params)^[i] (scaled inputs)*(100+params.nLocalTargetAdjustment))

/-- The retarget of an algorithm after a chain is exact: it gives what unbounded
numbers give, and no product needs more than 256 bits. -/
def ExactRetarget (chain : List CBlockHeader) (algo : Algo) : Prop :=
  getNextWorkRequired params chain algo=unboundedNextWork params chain algo ∧
    ∀ inputs, retargetInputs params chain algo=some inputs →
      ∀ product∈products params inputs, product<2^256

/-- Greatest target that can be raised once for each passed block: its products fit, and one less
block has passed for the target that was raised. -/
def room : ℕ → ℕ
  | 0 => 2^256-1
  | passed+1 => min ((2^256-1)/(100+params.nLocalTargetAdjustment))
      ((100*room passed+99)/(100+params.nLocalTargetAdjustment))

/-- There is room for the retarget: the previous target is not above what the measured seconds
leave room for, and the scaled target not above what the number of passed blocks does. -/
structure HasRoom (inputs : RetargetInputs) : Prop where
  scale : (setCompact inputs.nBits).value≤(2^256-1)/inputs.nActualTimespan.toNat
  /-- Blocks ahead of its turn make a target lower, so that the first product is the greatest. -/
  ahead : 0 < inputs.nAdjustments → scaled inputs≤(2^256-1)/100
  behind : inputs.nAdjustments<0 → scaled inputs ≤ room params (-inputs.nAdjustments).toNat

end Inputs

section Arithmetic

variable {params : Params}

theorem value_scaleTarget {timespan : PosInt64} {nActualTimespan : ℤ} (hspan : 0≤nActualTimespan)
    (hlt : nActualTimespan<2^32) (bnNew : ArithUint256) :
    (scaleTarget timespan nActualTimespan bnNew).value=
      bnNew.value*nActualTimespan.toNat%2^256/timespan.1 := by
  have hword : (UInt32.ofNat (nActualTimespan%2^32).toNat).toNat=nActualTimespan.toNat := by
    rw [UInt32.toNat_ofNat']
    omega
  have hspan := timespan.2.2
  rw [scaleTarget,value_quotient,value_mulWord,value_ofNat,hword,
    Nat.mod_eq_of_lt (show timespan.1<2^(32*8) by omega)]

theorem value_lowerTarget (bnNew : ArithUint256) :
    (lowerTarget params bnNew).value=
      bnNew.value*100%2^256/(100+params.nLocalTargetAdjustment) := by
  have hadjust := params.adjustment_lt
  rw [lowerTarget,value_quotient,value_mulWord,value_ofNat,
    Nat.mod_eq_of_lt (show 100+params.nLocalTargetAdjustment<2^(32*8) by omega)]
  rfl

theorem value_raiseTarget (bnNew : ArithUint256) :
    (raiseTarget params bnNew).value=
      bnNew.value*(100+params.nLocalTargetAdjustment)%2^256/100 := by
  have hword : (UInt32.ofNat (100+params.nLocalTargetAdjustment)).toNat=
      100+params.nLocalTargetAdjustment := by
    rw [UInt32.toNat_ofNat',Nat.mod_eq_of_lt params.adjustment_lt]
  rw [raiseTarget,value_quotient,value_mulWord,value_ofNat,hword]
  rfl

theorem value_iterate {step : ArithUint256 → ArithUint256} {exact : ℕ → ℕ} {factor : ℕ}
    (hstep : ∀ a, a.value*factor<2^256 → (step a).value=exact a.value) (n : ℕ)
    (a : ArithUint256) (hfits : ∀ i<n, exact^[i] a.value*factor<2^256) :
    (step^[n] a).value=exact^[n] a.value := by
  induction n with
  | zero => rfl
  | succ n ih =>
    have hprev := ih (fun i hi => hfits i (Nat.lt_succ_of_lt hi))
    rw [iterate_succ_apply',iterate_succ_apply',
      hstep _ (hprev ▸ hfits n (Nat.lt_succ_self n)),hprev]

theorem id_le_raise : id ≤ raise params := by
  intro x
  unfold raise
  rw [id,Nat.le_div_iff_mul_le (by decide)]
  exact Nat.mul_le_mul_left x (Nat.le_add_right _ _)

theorem lower_le_id : lower params ≤ id := by
  intro x
  rw [id]
  refine Nat.div_le_of_le_mul ?_
  rw [Nat.mul_comm]
  exact Nat.mul_le_mul_right x (Nat.le_add_right _ _)

variable {inputs : RetargetInputs}

/-- The room for a number of blocks is what the products of raising that often allow. -/
theorem le_room_iff (passed : ℕ) {x : ℕ} (hx : x<2^256) :
    x ≤ room params passed ↔
      ∀ i<passed,(raise params)^[i] x*(100+params.nLocalTargetAdjustment)<2^256 := by
  have hpos : 0<100+params.nLocalTargetAdjustment := by omega
  induction passed generalizing x with
  | zero =>
    rw [room]
    exact ⟨fun _ i hi => absurd hi (Nat.not_lt_zero i),fun _ => by omega⟩
  | succ passed ih =>
    rw [room,le_min_iff,Nat.le_div_iff_mul_le hpos,Nat.le_div_iff_mul_le hpos]
    constructor
    · rintro ⟨hfirst,hrest⟩ i hi
      have hraised : raise params x ≤ room params passed := by
        unfold raise
        omega
      have hlt : raise params x<2^256 := by
        unfold raise
        omega
      cases i with
      | zero =>
        rw [iterate_zero_apply]
        omega
      | succ i =>
        rw [iterate_succ_apply]
        exact (ih hlt).mp hraised i (Nat.lt_of_succ_lt_succ hi)
    · intro h
      have hfirst := h 0 (Nat.succ_pos passed)
      rw [iterate_zero_apply] at hfirst
      have hlt : raise params x<2^256 := by
        unfold raise
        omega
      have hraised := (ih hlt).mpr (fun i hi => by
        rw [← iterate_succ_apply]
        exact h (i+1) (Nat.succ_lt_succ hi))
      unfold raise at hraised
      omega

theorem scaled_lt (h : (setCompact inputs.nBits).value*inputs.nActualTimespan.toNat<2^256) :
    scaled inputs<2^256 :=
  Nat.lt_of_le_of_lt (Nat.div_le_self _ _) h

theorem products_lt_iff (hspan : 0 < inputs.nActualTimespan) :
    (∀ product∈products params inputs, product<2^256) ↔ HasRoom params inputs := by
  have hscale : (setCompact inputs.nBits).value≤(2^256-1)/inputs.nActualTimespan.toNat ↔
      (setCompact inputs.nBits).value*inputs.nActualTimespan.toNat<2^256 := by
    rw [Nat.le_div_iff_mul_le (by omega)]
    omega
  unfold products
  constructor
  · intro h
    have hfirst := h _ mem_cons_self
    refine ⟨hscale.mpr hfirst,?_,?_⟩
    · intro hahead
      rw [if_pos hahead] at h
      have hlow := h _ (mem_cons_of_mem _ (mem_map.mpr ⟨0,mem_range.mpr (by omega),rfl⟩))
      rw [iterate_zero_apply] at hlow
      omega
    · intro hbehind
      rw [if_neg (by omega)] at h
      exact (le_room_iff _ (scaled_lt hfirst)).mpr (fun i hi =>
        h _ (mem_cons_of_mem _ (mem_map.mpr ⟨i,mem_range.mpr hi,rfl⟩)))
  · intro h product hm
    have hfirst := hscale.mp h.scale
    rcases mem_cons.mp hm with rfl | hm
    · exact hfirst
    · split_ifs at hm with hahead
      · obtain ⟨i,-,rfl⟩ := mem_map.mp hm
        have hle : (lower params)^[i] (scaled inputs) ≤ scaled inputs :=
          iterate_le_id_of_le_id lower_le_id i (scaled inputs)
        have hroom := h.ahead hahead
        omega
      · obtain ⟨i,hi,rfl⟩ := mem_map.mp hm
        rw [mem_range] at hi
        exact (le_room_iff _ (scaled_lt hfirst)).mp (h.behind (by omega)) i hi

theorem value_boundedTarget (hspan : 0 ≤ inputs.nActualTimespan) (hlt : inputs.nActualTimespan<2^32)
    (h : ∀ product∈products params inputs, product<2^256) :
    (boundedTarget params inputs).value=unboundedTarget params inputs := by
  unfold products at h
  have hscale : (scaleTarget inputs.timespan inputs.nActualTimespan
      (setCompact inputs.nBits)).value=scaled inputs := by
    rw [value_scaleTarget hspan hlt,Nat.mod_eq_of_lt (h _ mem_cons_self),scaled]
  unfold boundedTarget adjustTarget unboundedTarget
  split_ifs with hahead hbehind
  · rw [if_pos hahead] at h
    rw [← hscale]
    refine @value_iterate _ _ 100 (fun a ha => ?_) _ _ (fun i hi => ?_)
    · rw [value_lowerTarget,Nat.mod_eq_of_lt ha,lower]
    · rw [hscale]
      exact h _ (mem_cons_of_mem _ (mem_map.mpr ⟨i,mem_range.mpr hi,rfl⟩))
  · rw [if_neg hahead] at h
    rw [← hscale]
    refine @value_iterate _ _ (100+params.nLocalTargetAdjustment) (fun a ha => ?_) _ _
      (fun i hi => ?_)
    · rw [value_raiseTarget,Nat.mod_eq_of_lt ha,raise]
    · rw [hscale]
      exact h _ (mem_cons_of_mem _ (mem_map.mpr ⟨i,mem_range.mpr hi,rfl⟩))
  · exact hscale

theorem value_capTarget (bnNew : ArithUint256) :
    (capTarget params bnNew).value=min params.powLimit.value bnNew.value := by
  unfold capTarget
  rw [compareTo_eq]
  split_ifs with hgreater
  · rw [Nat.compare_eq_gt] at hgreater
    exact (Nat.min_eq_left (Nat.le_of_lt hgreater)).symm
  · rw [Nat.compare_eq_gt,Nat.not_lt] at hgreater
    exact (Nat.min_eq_right hgreater).symm

end Arithmetic

variable {algo : Algo}

theorem getLastBlockIndexForAlgo_of_eq {header : CBlockHeader}
    (h : header.getAlgo=algo) (prev : List CBlockHeader) :
    getLastBlockIndexForAlgo mainParams algo (header::prev)=header::prev := by
  rw [getLastBlockIndexForAlgo.eq_def]
  dsimp only
  rw [if_neg (by simpa using h)]
  exact if_neg (by simp [mainParams])

theorem actualTimespan_bounds {timespan : PosInt64} {minSpan maxSpan : ℤ}
    (hbounds : minSpan ≤ maxSpan) (chain first : List CBlockHeader) :
    minSpan≤actualTimespan timespan minSpan maxSpan chain first ∧
      actualTimespan timespan minSpan maxSpan chain first ≤ maxSpan := by
  unfold actualTimespan
  dsimp only
  split_ifs <;> omega

variable {chain : List CBlockHeader} {inputs : RetargetInputs}

theorem windowInputs_bounds {params : Params} {algos : ℕ} {timespan : PosInt64}
    {minSpan maxSpan : ℤ} (hbounds : minSpan ≤ maxSpan)
    (h : windowInputs params algos timespan minSpan maxSpan chain algo=some inputs) :
    minSpan ≤ inputs.nActualTimespan ∧ inputs.nActualTimespan ≤ maxSpan := by
  unfold windowInputs at h
  cases hlast : getLastBlockIndexForAlgo params algo chain with
  | nil => rw [hlast] at h; cases h
  | cons header prev =>
    rw [hlast] at h
    dsimp only at h
    split_ifs at h
    cases h
    exact actualTimespan_bounds hbounds chain _

theorem retargetInputs_bounds (h : retargetInputs mainParams chain algo=some inputs) :
    2430 ≤ inputs.nActualTimespan ∧ inputs.nActualTimespan≤4032 := by
  unfold retargetInputs at h
  split_ifs at h
  · have hb := windowInputs_bounds (show mainParams.nMinActualTimespan≤
      mainParams.nMaxActualTimespan by decide) h
    have hmin : mainParams.nMinActualTimespan=2484 := by decide
    have hmax : mainParams.nMaxActualTimespan=3132 := by decide
    omega
  · have hb := windowInputs_bounds (show mainParams.nMinActualTimespanV2≤
      mainParams.nMaxActualTimespanV2 by decide) h
    have hmin : mainParams.nMinActualTimespanV2=2430 := by decide
    have hmax : mainParams.nMaxActualTimespanV2=3024 := by decide
    omega
  all_goals
    have hb := windowInputs_bounds (show mainParams.nMinActualTimespanV3≤
      mainParams.nMaxActualTimespanV3 by decide) h
    have hmin : mainParams.nMinActualTimespanV3=3240 := by decide
    have hmax : mainParams.nMaxActualTimespanV3=4032 := by decide
    omega

/-- On the main network the retarget of every algorithm is exact if and only if its targets are not
above the room that the seconds and the blocks passed leave. -/
theorem exactRetarget_iff (chain : List CBlockHeader) (algo : Algo) :
    ExactRetarget mainParams chain algo ↔
      ∀ inputs, retargetInputs mainParams chain algo=some inputs → HasRoom mainParams inputs := by
  have hfit : ∀ inputs,retargetInputs mainParams chain algo=some inputs →
      ((∀ product∈products mainParams inputs, product<2^256) ↔ HasRoom mainParams inputs) := by
    intro inputs hinputs
    have hb := retargetInputs_bounds hinputs
    exact products_lt_iff (by omega)
  constructor
  · intro h inputs hinputs
    exact (hfit inputs hinputs).mp (h.2 inputs hinputs)
  · intro h
    refine ⟨?_,fun inputs hinputs => (hfit inputs hinputs).mpr (h inputs hinputs)⟩
    rw [getNextWorkRequired_eq,unboundedNextWork]
    cases hinputs : retargetInputs mainParams chain algo with
    | none => rfl
    | some inputs =>
      have hb := retargetInputs_bounds hinputs
      have hexact := value_boundedTarget (by omega) (by omega)
        ((hfit inputs hinputs).mpr (h inputs hinputs))
      dsimp only
      congr 1
      refine eq_of_value ?_
      rw [value_capTarget,hexact,value_ofNat,Nat.mod_eq_of_lt]
      exact Nat.lt_of_le_of_lt (Nat.min_le_left _ _) mainParams.powLimit.value_lt

theorem monotone_raise (params : Params) : Monotone (raise params) := by
  intro first second hle
  exact Nat.div_le_div_right (Nat.mul_le_mul_right _ hle)

/-- On the main network the window never adds more than a sixth to a target. -/
theorem scaled_le (h : retargetInputs mainParams chain algo=some inputs)
    (htarget : (setCompact inputs.nBits).value ≤ mainParams.powLimit.value) :
    scaled inputs ≤ mainParams.powLimit.value*3132/2700 := by
  have hratio : inputs.nActualTimespan.toNat*2700≤3132*inputs.timespan.1 := by
    have hwindow : ∀ {algos : ℕ} {timespan : PosInt64} {minSpan maxSpan : ℤ},
        minSpan ≤ maxSpan → windowInputs mainParams algos timespan minSpan maxSpan chain algo=
          some inputs → inputs.nActualTimespan ≤ maxSpan ∧ inputs.timespan=timespan := by
      intro algos timespan minSpan maxSpan hbounds hwindow
      refine ⟨(windowInputs_bounds hbounds hwindow).2,?_⟩
      unfold windowInputs at hwindow
      cases hlast : getLastBlockIndexForAlgo mainParams algo chain with
      | nil => rw [hlast] at hwindow; cases hwindow
      | cons header prev =>
        grind
    unfold retargetInputs at h
    split_ifs at h
    · obtain ⟨hmax,hspan⟩ := hwindow (by decide) h
      rw [hspan]
      change inputs.nActualTimespan≤3132 at hmax
      change inputs.nActualTimespan.toNat*2700≤3132*2700
      omega
    · obtain ⟨hmax,hspan⟩ := hwindow (by decide) h
      rw [hspan]
      change inputs.nActualTimespan≤3024 at hmax
      change inputs.nActualTimespan.toNat*2700≤3132*3600
      omega
    all_goals
      obtain ⟨hmax,hspan⟩ := hwindow (by decide) h
      rw [hspan]
      change inputs.nActualTimespan≤4032 at hmax
      change inputs.nActualTimespan.toNat*2700≤3132*3600
      omega
  have hspan := inputs.timespan.2.1
  rw [Nat.le_div_iff_mul_le (by decide)]
  refine Nat.le_trans (Nat.mul_le_mul_right 2700 (Nat.div_le_div_right
    (Nat.mul_le_mul_right _ htarget))) ?_
  refine Nat.le_of_mul_le_mul_right ?_ hspan
  calc mainParams.powLimit.value*inputs.nActualTimespan.toNat/inputs.timespan.1*2700*
        inputs.timespan.1
      =mainParams.powLimit.value*inputs.nActualTimespan.toNat/inputs.timespan.1*
        inputs.timespan.1*2700 := by ring
    _ ≤ mainParams.powLimit.value*inputs.nActualTimespan.toNat*2700 :=
        Nat.mul_le_mul_right 2700 (Nat.div_mul_le_self _ _)
    _=mainParams.powLimit.value*(inputs.nActualTimespan.toNat*2700) := by ring
    _ ≤ mainParams.powLimit.value*(3132*inputs.timespan.1) := Nat.mul_le_mul_left _ hratio
    _=mainParams.powLimit.value*3132*inputs.timespan.1 := by ring

set_option maxRecDepth 100000 in
/-- From a target that is not above the greatest one, 232 blocks can pass. -/
theorem hasRoom_of_passed_le (h : retargetInputs mainParams chain algo=some inputs)
    (htarget : (setCompact inputs.nBits).value ≤ mainParams.powLimit.value)
    (hpassed : -232 ≤ inputs.nAdjustments) : HasRoom mainParams inputs := by
  have hlimit := value_powLimit
  have hscaled := scaled_le h htarget
  have hb := retargetInputs_bounds h
  rw [hlimit] at htarget hscaled
  refine ⟨?_,fun _ => by omega,fun hbehind => (le_room_iff _ (by omega)).mpr (fun i hi => ?_)⟩
  · rw [Nat.le_div_iff_mul_le (by omega)]
    calc (setCompact inputs.nBits).value*inputs.nActualTimespan.toNat
        ≤(2^236-1)*4032 := Nat.mul_le_mul htarget (by omega)
      _≤2^256-1 := by decide
  · have hgrown : (raise mainParams)^[i] (scaled inputs)≤
        (raise mainParams)^[231] ((2^236-1)*3132/2700) :=
      Nat.le_trans ((monotone_raise mainParams).iterate _ hscaled)
        (monotone_iterate_of_id_le id_le_raise (by omega) _)
    refine Nat.lt_of_le_of_lt (Nat.mul_le_mul_right _ hgrown) ?_
    decide

set_option maxRecDepth 100000 in
/-- From half of the greatest target on, 255 blocks can not. -/
theorem not_hasRoom_of_passed (hpassed : inputs.nAdjustments≤-255)
    (htarget : 2^235 ≤ scaled inputs) : ¬HasRoom mainParams inputs := by
  intro h
  have hroom := h.behind (by omega)
  obtain ⟨passed,hcount⟩ : ∃ passed,(-inputs.nAdjustments).toNat=passed+1 :=
    ⟨(-inputs.nAdjustments).toNat-1,by omega⟩
  have hlt : scaled inputs<2^256 := by
    rw [hcount,room] at hroom
    exact Nat.lt_of_le_of_lt (Nat.le_trans hroom (Nat.min_le_left _ _)) (by decide)
  have hlast := (@le_room_iff mainParams _ _ hlt).mp hroom 254 (by omega)
  have hover : 2^256≤(raise mainParams)^[254] (2^235)*(100+mainParams.nLocalTargetAdjustment) := by
    decide
  have hgrown := Nat.mul_le_mul_right (100+mainParams.nLocalTargetAdjustment)
    ((monotone_raise mainParams).iterate 254 htarget)
  exact absurd (Nat.lt_of_le_of_lt (Nat.le_trans hover hgrown) hlast) (Nat.lt_irrefl _)

/-- The first block, followed by 237 blocks of another algorithm, one of which came late. -/
def idleChain : List CBlockHeader :=
  (List.range 238).reverse.map (fun height =>
    if height=0 then { nVersion := 1,nTime := 1585180800,nBits := 0x1e0ffff0 }
    else { nVersion := 0x20000400#32
           nTime := UInt32.ofNat (1585180800+90*height+if 203≤height then 452 else 0)
           nBits := 0x1e0fffff })

/-- What the retarget of the first algorithm starts from there. -/
def idleInputs : RetargetInputs := ⟨⟨2700,by decide⟩,2813,0x1e0ffff0,-235⟩

theorem value_iterate_raiseTarget (n : ℕ) (bnNew : ArithUint256) :
    ((raiseTarget mainParams)^[n] bnNew).value=(fun x => x*104%2^256/100)^[n] bnNew.value := by
  induction n with
  | zero => rfl
  | succ n ih =>
    rw [iterate_succ_apply',iterate_succ_apply',← ih,value_raiseTarget]
    rfl

set_option maxRecDepth 100000 in
/-- When nobody mines an algorithm for 237 blocks, its target wraps around. -/
theorem exactRetarget_idle :
    getNextWorkRequired mainParams idleChain .scrypt=0x1e0d32b3 ∧
      unboundedNextWork mainParams idleChain .scrypt=0x1e0fffff ∧
      ¬ExactRetarget mainParams idleChain .scrypt := by
  have hinputs : retargetInputs mainParams idleChain .scrypt=some idleInputs := by decide
  have hcompact : getNextWorkRequired mainParams idleChain .scrypt=0x1e0d32b3 := by
    have hvalue : (boundedTarget mainParams idleInputs).value=
        (fun x => x*104%2^256/100)^[235] (0x0ffff0*2^216*2813%2^256/2700) := by
      rw [boundedTarget,adjustTarget,if_neg (by decide),if_pos (by decide)]
      refine (value_iterate_raiseTarget 235 _).trans ?_
      rw [value_scaleTarget (by decide) (by decide)]
      congr 1
    have htarget : capTarget mainParams (boundedTarget mainParams idleInputs)=
        ofNat 8 ((fun x => x*104%2^256/100)^[235] (0x0ffff0*2^216*2813%2^256/2700)) := by
      refine eq_of_value ?_
      rw [value_capTarget,hvalue,value_ofNat]
      decide
    rw [getNextWorkRequired_eq,hinputs]
    dsimp only
    rw [htarget]
    decide
  have hexact : unboundedNextWork mainParams idleChain .scrypt=0x1e0fffff := by
    rw [unboundedNextWork,hinputs]
    decide
  refine ⟨hcompact,hexact,fun h => ?_⟩
  have heq := h.1
  rw [hcompact,hexact] at heq
  exact absurd heq (by decide)

end Pyrk.RetargetRange
