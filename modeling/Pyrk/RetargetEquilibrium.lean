import Pyrk.RetargetRange
import Mathlib.Data.List.Chain
import Mathlib.Tactic.IntervalCases

/-!
# Equilibrium of the retarget

When blocks come exactly at the target spacing, a target stays only where the measured seconds of a
window are the nominal ones.
-/

namespace Pyrk.RetargetEquilibrium

open CompactTarget ProofOfWork RetargetRange List

/-- A block comes a number of seconds after the one before. -/
def SpacedBy (spacing : ℕ) (later earlier : CBlockHeader) : Prop :=
  earlier.nTime.toNat+spacing=later.nTime.toNat

/-- Blocks of the averaging window and of the median windows come at the target spacing. -/
def SteadyWindow (params : Params) (algos : ℕ) (chain : List CBlockHeader) : Prop :=
  (chain.take (algos*params.nAveragingInterval+11)).IsChain (SpacedBy params.nPowTargetSpacing)

section Median

variable {spacing : ℕ} {header : CBlockHeader} {prev : List CBlockHeader}

theorem time_of_spaced {chain : List CBlockHeader} (hspaced : chain.IsChain (SpacedBy spacing))
    {index : ℕ} (hindex : index < chain.length) :
    chain[index].nTime.toNat+spacing*index=(chain[0]).nTime.toNat := by
  induction index with
  | zero => rfl
  | succ index ih =>
    have hprev := ih (Nat.lt_of_succ_lt hindex)
    have hstep : chain[index+1].nTime.toNat+spacing=chain[index].nTime.toNat :=
      isChain_iff_getElem.mp hspaced index hindex
    rw [Nat.mul_succ]
    omega

theorem insertionSort_of_spaced {chain : List CBlockHeader}
    (hspaced : chain.IsChain (SpacedBy spacing)) :
    (chain.map (fun header => (header.nTime.toNat : ℤ))).insertionSort (·≤·)=
      (chain.map (fun header => (header.nTime.toNat : ℤ))).reverse := by
  have hdescending : (chain.map (fun header => (header.nTime.toNat : ℤ))).Pairwise (·≥·) := by
    rw [← isChain_iff_pairwise,isChain_map]
    refine hspaced.imp ?_
    intro later earlier hstep
    have hstep : earlier.nTime.toNat+spacing=later.nTime.toNat := hstep
    omega
  refine List.Perm.eq_of_pairwise (fun _ _ _ _ => Int.le_antisymm)
    (pairwise_insertionSort _ _) (pairwise_reverse.mpr hdescending) ?_
  exact (perm_insertionSort _ _).trans (reverse_perm _).symm

theorem getMedianTimePast_of_spaced
    (hspaced : ((header::prev).take 11).IsChain (SpacedBy spacing)) :
    getMedianTimePast (header::prev)+(spacing*((min 11 (prev.length+1)-1)/2) : ℕ)=
      header.nTime.toNat := by
  have hlen : ((header::prev).take 11).length=min 11 (prev.length+1) := by
    rw [length_take,length_cons]
  have hmid : (min 11 (prev.length+1)-1)/2<((header::prev).take 11).length := by omega
  have htime := time_of_spaced hspaced hmid
  have hindex : (min 11 (prev.length+1))-1-(min 11 (prev.length+1))/2=
      (min 11 (prev.length+1)-1)/2 := by omega
  unfold getMedianTimePast
  dsimp only
  rw [insertionSort_of_spaced hspaced,length_reverse,length_map,hlen,
    getD_eq_getElem _ _ (by rw [length_reverse,length_map,hlen]; omega),
    getElem_reverse,getElem_map]
  simp only [length_map,hlen,hindex]
  have hhead : ((header::prev).take 11)[0].nTime=header.nTime := rfl
  rw [hhead] at htime
  exact_mod_cast htime

end Median

/-- The medians at both ends of steady blocks measure their seconds, less what a short chain lacks.
-/
theorem measured_of_spaced {spacing window : ℕ} {chain : List CBlockHeader}
    (hspaced : (chain.take (window+11)).IsChain (SpacedBy spacing)) (hten : 10≤window)
    (hlong : window < chain.length) :
    getMedianTimePast chain-getMedianTimePast (chain.drop window)=
      (spacing*(window+(min 11 (chain.length-window)-1)/2) : ℕ)-(spacing*5 : ℕ) := by
  have htip : (chain.take 11).IsChain (SpacedBy spacing) := by
    have htake := List.IsChain.take hspaced 11
    rwa [take_take,Nat.min_eq_left (by omega)] at htake
  have hend : ((chain.drop window).take 11).IsChain (SpacedBy spacing) := by
    have hdrop := List.IsChain.drop hspaced window
    rwa [drop_take,show window+11-window=11 by omega] at hdrop
  have hblock : (chain[window]).nTime.toNat+spacing*window=(chain[0]).nTime.toNat := by
    have hindex : window<(chain.take (window+11)).length := by
      rw [length_take]
      omega
    have htime := time_of_spaced hspaced hindex
    rwa [getElem_take,getElem_take] at htime
  have hhead : chain=chain[0]::chain.drop 1 :=
    @drop_eq_getElem_cons _ 0 chain (by omega)
  have hstart : chain.drop window=chain[window]::chain.drop (window+1) :=
    drop_eq_getElem_cons hlong
  rw [hhead] at htip
  rw [hstart] at hend
  have hlate := getMedianTimePast_of_spaced htip
  have hearly := getMedianTimePast_of_spaced hend
  rw [← hhead] at hlate
  rw [← hstart] at hearly
  have hblocks : min 11 (chain.length-window)=min 11 ((chain.drop (window+1)).length+1) := by
    rw [length_drop]
    omega
  rw [length_drop,show (min 11 (chain.length-1+1)-1)/2=5 by omega] at hlate
  rw [hblocks,Nat.mul_add]
  omega

section Encoding

variable {target : ℕ}

section

variable (hcanon : decode (encode target)=target)

include hcanon

theorem encode_ne_of_lt {x : ℕ} (hlt : x<target) :
    encode x≠encode target := by
  intro heq
  have hle := decode_encode_le x
  rw [heq,hcanon] at hle
  omega

theorem encode_ne_of_sixteenth (hlarge : 16≤target)
    {x : ℕ} (hle : target+target/16≤x) : encode x≠encode target := by
  intro heq
  have hsize : (parts x).1=(parts target).1 := by
    rw [← encode_div,← encode_div,heq]
  have hcut := lt_decode_encode x
  rw [heq,hcanon,hsize] at hcut
  by_cases hshort : (parts target).1≤3
  · rw [show 8*((parts target).1-3)=0 by omega,Nat.pow_zero] at hcut
    omega
  · have hword := parts_word_ge (Nat.not_le.mp hshort)
    have hunit : target=(parts target).2*2^(8*((parts target).1-3)) := by
      have hdecode := hcanon
      unfold decode at hdecode
      rw [encode_div,encode_mod,if_neg hshort] at hdecode
      exact hdecode.symm
    generalize 2^(8*((parts target).1-3))=cut at hcut hunit
    have hsixteen : 16*cut≤target := by
      rw [hunit]
      exact Nat.mul_le_mul_right cut (Nat.le_trans (by decide) hword)
    omega

theorem encode_scaledDown_iff {limit : ℕ}
    {actual nominal : ℕ} (hdown : actual<nominal) :
    encode (min limit (target*actual/nominal))=encode target ↔ target=0 := by
  constructor
  · intro heq
    by_contra hzero
    have hscaled : target*actual/nominal<target := by
      rw [Nat.div_lt_iff_lt_mul (by omega)]
      exact Nat.mul_lt_mul_of_pos_left hdown (Nat.pos_of_ne_zero hzero)
    exact encode_ne_of_lt hcanon (Nat.lt_of_le_of_lt (Nat.min_le_right _ _) hscaled) heq
  · intro hzero
    rw [hzero,Nat.zero_mul,Nat.zero_div,Nat.min_zero]

theorem encode_scaledUp_iff {limit : ℕ}
    (hlimit : target ≤ limit) :
    encode (min limit (target*3825/3600))=encode target ↔
      target<16 ∨ encode target=encode limit := by
  have hscaled : target*3825/3600=target+target/16 := by omega
  rw [hscaled]
  constructor
  · intro heq
    by_cases hlarge : 16≤target
    · right
      by_cases hcap : limit≤target+target/16
      · rw [Nat.min_eq_left hcap] at heq
        exact heq.symm
      · rw [Nat.min_eq_right (by omega)] at heq
        exact absurd heq (encode_ne_of_sixteenth hcanon hlarge (Nat.le_refl _))
    · exact Or.inl (by omega)
  · intro hstay
    by_cases hlarge : 16≤target
    · have hsame : encode limit=encode target := by
        rcases hstay with hsmall | hsame
        · omega
        · exact hsame.symm
      have hcap : limit≤target+target/16 := by
        by_contra hroom
        exact encode_ne_of_sixteenth hcanon hlarge (by omega) hsame
      rw [Nat.min_eq_left hcap,hsame]
    · rw [show target+target/16=target by omega,Nat.min_eq_right hlimit]

end

end Encoding

/-- Algorithms that the version of the retarget after a chain counts. -/
def windowAlgos (params : Params) (chain : List CBlockHeader) : ℕ :=
  if chain=[] ∨ nHeight chain<params.v2DiffChangeHeight then numAlgos
  else if nHeight chain<params.v3DiffChangeHeight then numAlgosV2
  else if nHeight chain<params.AlgoChangeHeight then numAlgosV2
  else numAlgosV3

/-- The blocks of the windows come at the target spacing, and it is the turn of
an algorithm whose last block has a canonical target. -/
structure SteadyTurn (params : Params) (chain : List CBlockHeader) (algo : Algo)
    (header : CBlockHeader) (prev : List CBlockHeader) : Prop where
  steady : SteadyWindow params (windowAlgos params chain) chain
  last : getLastBlockIndexForAlgo params algo chain=header::prev
  turn : adjustments (windowAlgos params chain) chain (header::prev)=0
  canonical : getCompact (setCompact header.nBits)=header.nBits
  limit : (setCompact header.nBits).value ≤ params.powLimit.value

/-- Where the target of a steady chain stays: in the windows of the first version, and of the third
one before the fifth algorithm. -/
def InEquilibrium (height : ℕ) (nBits : UInt32) : Prop :=
  (height<30 ∧ nBits=getCompact mainParams.powLimit) ∨ (30≤height ∧ (setCompact nBits).value=0) ∨
  (40≤height ∧ height<100000) ∨ (100050≤height ∧ height<285000) ∨
  (285000≤height ∧ ((setCompact nBits).value<16 ∨ nBits=getCompact mainParams.powLimit))

section Turn

variable {chain : List CBlockHeader} {algo : Algo} {header : CBlockHeader}
  {prev : List CBlockHeader}

theorem windowInputs_of_last {params : Params}
    (hlast : getLastBlockIndexForAlgo params algo chain=header::prev)
    (hretarget : params.fPowNoRetargeting=false) {algos : ℕ} (timespan : PosInt64)
    (minSpan maxSpan : ℤ) (hfirst : chain.drop (algos*params.nAveragingInterval)≠[]) :
    windowInputs params algos timespan minSpan maxSpan chain algo=
      some ⟨timespan,actualTimespan timespan minSpan maxSpan chain
        (chain.drop (algos*params.nAveragingInterval)),header.nBits,
        adjustments algos chain (header::prev)⟩ := by
  unfold windowInputs
  grind

theorem toNat_getNextWorkRequired {inputs : RetargetInputs}
    (h : retargetInputs mainParams chain algo=some inputs) (hturn : inputs.nAdjustments=0)
    (htarget : (setCompact inputs.nBits).value ≤ mainParams.powLimit.value) :
    (getNextWorkRequired mainParams chain algo).toNat=
      encode (min mainParams.powLimit.value (scaled inputs)) := by
  have hb := retargetInputs_bounds h
  have hroom := hasRoom_of_passed_le h htarget (by omega)
  have hexact := value_boundedTarget (by omega) (by omega) ((products_lt_iff (by omega)).mpr hroom)
  have hscaled : unboundedTarget mainParams inputs=scaled inputs := by
    rw [unboundedTarget,if_neg (by omega),if_neg (by omega)]
  rw [getNextWorkRequired_eq,h]
  rw [toNat_getCompact,value_capTarget,hexact,hscaled]

theorem canonical_encode {nBits : UInt32} (hcanon : getCompact (setCompact nBits)=nBits) :
    nBits.toNat=encode (setCompact nBits).value ∧
      decode (encode (setCompact nBits).value)=(setCompact nBits).value := by
  have hencode : nBits.toNat=encode (setCompact nBits).value := by
    rw [← toNat_getCompact,hcanon]
  refine ⟨hencode,?_⟩
  rw [← value_setCompact_getCompact,hcanon]

theorem unchanged_iff_encode (h : SteadyTurn mainParams chain algo header prev)
    {inputs : RetargetInputs} (hinputs : retargetInputs mainParams chain algo=some inputs)
    (hbits : inputs.nBits=header.nBits) (hturn : inputs.nAdjustments=0) :
    getNextWorkRequired mainParams chain algo=header.nBits ↔
      encode (min mainParams.powLimit.value (scaled inputs))=
        encode (setCompact header.nBits).value := by
  have hencode := (canonical_encode h.canonical).1
  have hnext := toNat_getNextWorkRequired hinputs hturn (hbits ▸ h.limit)
  rw [← UInt32.toNat_inj,hnext,hencode]

/-- Nominal seconds of the window after a chain of the main network. -/
def steadyTimespan (height : ℕ) : PosInt64 :=
  if height<100000 then mainParams.nAveragingTargetTimespan
  else mainParams.nAveragingTargetTimespanV2

/-- Seconds that a steady window of the main network is taken for, damped and bounded. -/
def steadySpan (height : ℕ) : ℤ :=
  if height<40 then 2700+(90*((height-30 : ℕ)/2)-450 : ℤ).tdiv 4
  else if height<100000 then 2700
  else if height<100050 then 3024
  else if height<285000 then 3600
  else 3825

/-- Seconds of a steady window with a number of algorithms, as they are measured. -/
def measuredSpan (algos height : ℕ) : ℤ :=
  90*(algos*10+(min 11 (height+1-algos*10)-1)/2 : ℕ)-450

/-- Damped and bounded seconds. -/
def boundSpan (timespan : PosInt64) (minSpan maxSpan measured : ℤ) : ℤ :=
  min maxSpan (max minSpan (timespan.1+(measured-timespan.1).tdiv 4))

theorem windowInputs_of_steady {algos : ℕ} (hsteady : SteadyWindow mainParams algos chain)
    (hlast : getLastBlockIndexForAlgo mainParams algo chain=header::prev)
    (hturn : adjustments algos chain (header::prev)=0) (hpos : 0<algos)
    (hlong : algos*10≤nHeight chain) (timespan : PosInt64) {minSpan maxSpan : ℤ}
    (hbounds : minSpan ≤ maxSpan) :
    windowInputs mainParams algos timespan minSpan maxSpan chain algo=
      some ⟨timespan,boundSpan timespan minSpan maxSpan (measuredSpan algos (nHeight chain)),
        header.nBits,0⟩ := by
  have hchain : chain.length=nHeight chain+1 := by
    unfold nHeight at hlong ⊢
    omega
  have hfirst : chain.drop (algos*mainParams.nAveragingInterval)≠[] := by
    intro hnil
    have hshort : chain.length≤algos*10 := drop_eq_nil_iff.mp hnil
    omega
  have hmeasured : getMedianTimePast chain-
      getMedianTimePast (chain.drop (algos*mainParams.nAveragingInterval))=
      measuredSpan algos (nHeight chain) := by
    have hten : 10≤algos*10 := by omega
    have hspan := measured_of_spaced hsteady hten (by rw [hchain]; exact Nat.lt_succ_of_le hlong)
    rw [hspan,hchain]
    change ((90*(algos*10+(min 11 (nHeight chain+1-algos*10)-1)/2) : ℕ) : ℤ)-(90*5 : ℕ)=_
    unfold measuredSpan
    omega
  have hbounded : actualTimespan timespan minSpan maxSpan chain
      (chain.drop (algos*mainParams.nAveragingInterval))=
      boundSpan timespan minSpan maxSpan (measuredSpan algos (nHeight chain)) := by
    unfold actualTimespan boundSpan
    grind
  rw [windowInputs_of_last hlast rfl _ _ _ hfirst,hbounded,hturn]

theorem measuredSpan_of_le {algos height : ℕ} (h : algos*10+10≤height) :
    measuredSpan algos height=900*algos := by
  unfold measuredSpan
  rw [show min 11 (height+1-algos*10)=11 by omega]
  omega

theorem boundSpan_first {height : ℕ} (hlong : 30≤height) :
    boundSpan mainParams.nAveragingTargetTimespan mainParams.nMinActualTimespan
      mainParams.nMaxActualTimespan (measuredSpan 3 height)=
      if height<40 then 2700+(90*((height-30 : ℕ)/2)-450 : ℤ).tdiv 4 else 2700 := by
  by_cases hshort : height<40
  · rw [if_pos hshort]
    interval_cases height <;> decide
  · rw [if_neg hshort,measuredSpan_of_le (by omega)]
    decide

/-- Inputs of the retarget after a steady chain that is longer than its window. -/
theorem retargetInputs_of_steady (h : SteadyTurn mainParams chain algo header prev)
    (hlong : 30≤nHeight chain) :
    retargetInputs mainParams chain algo=
      some ⟨steadyTimespan (nHeight chain),steadySpan (nHeight chain),header.nBits,0⟩ := by
  have hchain : chain≠[] := by
    intro hnil
    rw [hnil] at hlong
    exact absurd hlong (by decide)
  have hsteady := h.steady
  have hturn := h.turn
  have hv2 : mainParams.v2DiffChangeHeight=100000 := rfl
  have hv3 : mainParams.v3DiffChangeHeight=100050 := rfl
  have halgo : mainParams.AlgoChangeHeight=285000 := rfl
  unfold windowAlgos at hsteady hturn
  unfold retargetInputs steadyTimespan steadySpan
  rw [hv2,hv3,halgo] at hsteady hturn ⊢
  simp only [hchain,false_or] at hsteady hturn ⊢
  by_cases hfirst : nHeight chain<100000
  · simp only [if_pos hfirst] at hsteady hturn ⊢
    have hlong : numAlgos*10≤nHeight chain := hlong
    rw [windowInputs_of_steady hsteady h.last hturn (by decide) hlong _ (by decide)]
    rw [show numAlgos=3 from rfl,boundSpan_first hlong]
  · simp only [if_neg hfirst] at hsteady hturn ⊢
    rw [if_neg (show ¬nHeight chain<40 by omega)]
    by_cases hsecond : nHeight chain<100050
    · simp only [if_pos hsecond] at hsteady hturn ⊢
      have hlong : numAlgosV2*10+10≤nHeight chain := Nat.le_trans (by decide) (Nat.not_lt.mp hfirst)
      rw [windowInputs_of_steady hsteady h.last hturn (by decide) (by omega) _ (by decide),
        measuredSpan_of_le hlong]
      rfl
    · simp only [if_neg hsecond] at hsteady hturn ⊢
      by_cases hfour : nHeight chain<285000
      · simp only [if_pos hfour] at hsteady hturn ⊢
        have hlong : numAlgosV2*10+10≤nHeight chain :=
          Nat.le_trans (by decide) (Nat.not_lt.mp hfirst)
        rw [windowInputs_of_steady hsteady h.last hturn (by decide) (by omega) _ (by decide),
          measuredSpan_of_le hlong]
        rfl
      · simp only [if_neg hfour] at hsteady hturn ⊢
        have hlong : numAlgosV3*10+10≤nHeight chain :=
          Nat.le_trans (by decide) (Nat.not_lt.mp hfirst)
        rw [windowInputs_of_steady hsteady h.last hturn (by decide) (by omega) _ (by decide),
          measuredSpan_of_le hlong]
        rfl

theorem getNextWorkRequired_of_short (hshort : nHeight chain<30) :
    getNextWorkRequired mainParams chain algo=getCompact mainParams.powLimit := by
  have hnil : chain.drop (numAlgos*mainParams.nAveragingInterval)=[] := by
    refine drop_eq_nil_of_le ?_
    change chain.length≤30
    unfold nHeight at hshort
    omega
  have hnone : retargetInputs mainParams chain algo=none := by
    have hv2 : nHeight chain < mainParams.v2DiffChangeHeight := Nat.lt_trans hshort (by decide)
    unfold retargetInputs
    rw [if_pos (Or.inr hv2)]
    unfold windowInputs
    cases getLastBlockIndexForAlgo mainParams algo chain with
    | nil => rfl
    | cons header prev =>
      dsimp only
      rw [if_pos (Or.inl hnil)]
  rw [getNextWorkRequired_eq,hnone]

theorem steadySpan_short {height : ℕ} (hlong : 30≤height) (hshort : height<40) :
    steadySpan height<2700 ∧ 0 ≤ steadySpan height := by
  interval_cases height <;> decide

/-- After a steady chain longer than its window the target stays if and only if both are in
equilibrium. -/
theorem unchanged_iff_of_long (h : SteadyTurn mainParams chain algo header prev)
    (hlong : 30≤nHeight chain) :
    getNextWorkRequired mainParams chain algo=header.nBits ↔
      InEquilibrium (nHeight chain) header.nBits := by
  have hcanon := (canonical_encode h.canonical).2
  have hencode := (canonical_encode h.canonical).1
  have hlimit := h.limit
  rw [unchanged_iff_encode h (retargetInputs_of_steady h hlong) rfl rfl]
  unfold InEquilibrium scaled
  dsimp only
  have hcap : header.nBits=getCompact mainParams.powLimit ↔
      encode (setCompact header.nBits).value=encode mainParams.powLimit.value := by
    rw [← UInt32.toNat_inj,hencode,toNat_getCompact]
  rw [hcap]
  generalize (setCompact header.nBits).value=target at *
  generalize nHeight chain=height at *
  by_cases hmedian : height<40
  · have hspan := steadySpan_short hlong hmedian
    have hdown : (steadySpan height).toNat<(steadyTimespan height).1 := by
      rw [steadyTimespan,if_pos (by omega)]
      change _<2700
      omega
    rw [encode_scaledDown_iff hcanon hdown]
    omega
  · by_cases hfirst : height<100000
    · have hspan : steadySpan height=2700 := by
        rw [steadySpan,if_neg hmedian,if_pos hfirst]
      rw [hspan,steadyTimespan,if_pos hfirst]
      change encode (min mainParams.powLimit.value (target*2700/2700))=encode target ↔ _
      grind
    · have htimespan : (steadyTimespan height).1=3600 := by
        rw [steadyTimespan,if_neg hfirst]
        rfl
      rw [htimespan]
      by_cases hsecond : height<100050
      · have hspan : steadySpan height=3024 := by
          rw [steadySpan,if_neg hmedian,if_neg hfirst,if_pos hsecond]
        rw [hspan,encode_scaledDown_iff hcanon (by decide)]
        omega
      · by_cases hfour : height<285000
        · have hspan : steadySpan height=3600 := by
            rw [steadySpan,if_neg hmedian,if_neg hfirst,if_neg hsecond,if_pos hfour]
          grind
        · have hspan : steadySpan height=3825 := by
            rw [steadySpan,if_neg hmedian,if_neg hfirst,if_neg hsecond,if_neg hfour]
          rw [hspan]
          change encode (min mainParams.powLimit.value (target*3825/3600))=encode target ↔ _
          rw [encode_scaledUp_iff hcanon hlimit]
          omega

/-- After every steady chain of the main network, the target of an algorithm whose turn it is stays
if and only if both are in equilibrium. -/
theorem getNextWorkRequired_unchanged_iff (h : SteadyTurn mainParams chain algo header prev) :
    getNextWorkRequired mainParams chain algo=header.nBits ↔
      InEquilibrium (nHeight chain) header.nBits := by
  by_cases hlong : 30≤nHeight chain
  · exact unchanged_iff_of_long h hlong
  · rw [getNextWorkRequired_of_short (by omega),eq_comm]
    unfold InEquilibrium
    grind

end Turn

/-- Header at a height of a chain on which a number of algorithms take turns. -/
def steadyHeader (algos height : ℕ) : CBlockHeader where
  nVersion := [0x20000400#32,0x20000000#32,0x20000800#32,0x20000c00#32,0x20000200#32].getD
    (height%algos) 0
  nTime := UInt32.ofNat (1585180800+90*height)
  nBits := 0x1b0ffff0

/-- A number of blocks of such a chain. -/
def steadyChain (algos : ℕ) : ℕ → List CBlockHeader
  | 0 => []
  | height+1 => steadyHeader algos height::steadyChain algos height

theorem length_steadyChain (algos blocks : ℕ) : (steadyChain algos blocks).length=blocks := by
  induction blocks with
  | zero => rfl
  | succ height ih => rw [steadyChain,length_cons,ih]

theorem isChain_steadyChain (algos : ℕ) {blocks : ℕ} (hsmall : blocks≤2^20) :
    (steadyChain algos blocks).IsChain (SpacedBy 90) := by
  induction blocks with
  | zero => exact isChain_nil
  | succ height ih =>
    have hprev := ih (by omega)
    cases height with
    | zero => exact isChain_singleton _
    | succ height =>
      refine isChain_cons_cons.mpr ⟨?_,hprev⟩
      change (UInt32.ofNat (1585180800+90*height)).toNat+90=
        (UInt32.ofNat (1585180800+90*(height+1))).toNat
      rw [UInt32.toNat_ofNat',UInt32.toNat_ofNat',Nat.mod_eq_of_lt (by omega),
        Nat.mod_eq_of_lt (by omega)]
      omega

theorem steadyTurn_three :
    SteadyTurn mainParams (steadyChain 3 42) .sha256d (steadyHeader 3 39) (steadyChain 3 39) where
  steady := (isChain_steadyChain 3 (by decide)).take _
  last := by
    refine (getLastBlockIndexForAlgo_of_ne _ (by decide) _).trans ?_
    refine (getLastBlockIndexForAlgo_of_ne _ (by decide) _).trans ?_
    exact getLastBlockIndexForAlgo_of_eq (by decide) _
  turn := by decide
  canonical := by decide
  limit := by decide

/-- There a target stays as it is. -/
theorem getNextWorkRequired_unchanged_three :
    SteadyTurn mainParams (steadyChain 3 42) .sha256d (steadyHeader 3 39) (steadyChain 3 39) ∧
      InEquilibrium (nHeight (steadyChain 3 42)) 0x1b0ffff0 ∧
      getNextWorkRequired mainParams (steadyChain 3 42) .sha256d=0x1b0ffff0 := by
  have hheight : nHeight (steadyChain 3 42)=41 := by
    rw [nHeight,length_steadyChain]
  have hequilibrium : InEquilibrium (nHeight (steadyChain 3 42)) 0x1b0ffff0 := by
    rw [hheight]
    exact Or.inr (Or.inr (Or.inl ⟨by decide,by decide⟩))
  exact ⟨steadyTurn_three,hequilibrium,
    (getNextWorkRequired_unchanged_iff steadyTurn_three).mpr hequilibrium⟩

/-- With five algorithms, blocks at the target spacing make the target greater
by a sixteenth. -/
theorem getNextWorkRequired_five_algos :
    SteadyTurn mainParams (steadyChain 5 285001) .scrypt (steadyHeader 5 284996)
        (steadyChain 5 284996) ∧
      (steadyHeader 5 284996).nBits=0x1b0ffff0 ∧
      getNextWorkRequired mainParams (steadyChain 5 285001) .scrypt=0x1b10ffef ∧
      getNextWorkRequired mainParams (steadyChain 5 285001) .scrypt≠
        (steadyHeader 5 284996).nBits := by
  have hheight : nHeight (steadyChain 5 285001)=285000 := by
    rw [nHeight,length_steadyChain]
  have halgos : windowAlgos mainParams (steadyChain 5 285001)=5 := by
    unfold windowAlgos
    rw [hheight]
    rfl
  have hturn : SteadyTurn mainParams (steadyChain 5 285001) .scrypt (steadyHeader 5 284996)
      (steadyChain 5 284996) := by
    refine ⟨(isChain_steadyChain 5 (by decide)).take _,?_,?_,by decide,by decide⟩
    · refine (getLastBlockIndexForAlgo_of_ne _ (by decide) _).trans ?_
      refine (getLastBlockIndexForAlgo_of_ne _ (by decide) _).trans ?_
      refine (getLastBlockIndexForAlgo_of_ne _ (by decide) _).trans ?_
      refine (getLastBlockIndexForAlgo_of_ne _ (by decide) _).trans ?_
      exact getLastBlockIndexForAlgo_of_eq (by decide) _
    · rw [halgos,adjustments,hheight,nHeight,length_cons,length_steadyChain]
      rfl
  have hinputs := retargetInputs_of_steady hturn (by rw [hheight]; decide)
  rw [hheight] at hinputs
  have hnext := toNat_getNextWorkRequired hinputs rfl hturn.limit
  have hres : getNextWorkRequired mainParams (steadyChain 5 285001) .scrypt=0x1b10ffef := by
    refine UInt32.toNat_inj.mp (hnext.trans ?_)
    decide
  refine ⟨hturn,rfl,hres,?_⟩
  rw [hres]
  decide

end Pyrk.RetargetEquilibrium
