import Pyrk.CompactTarget
import Mathlib.Data.List.Sort

/-!
# Difficulty of the next block

The target of the last block of an algorithm is scaled by the time that the averaging window took,
then adjusted for the turns of the algorithms, and capped.
-/

namespace Pyrk.ProofOfWork

open ArithUint CompactTarget

inductive Algo where
  | unknown
  | sha256d
  | scrypt
  | x11
  | yespower
  | lyra2
  deriving DecidableEq

/-- Algorithms at the start. -/
def numAlgos : ℕ := 3

/-- Algorithms with yespower. -/
def numAlgosV2 : ℕ := 4

/-- Algorithms with lyra2. -/
def numAlgosV3 : ℕ := 5

structure CBlockHeader where
  nVersion : BitVec 32
  hashPrevBlock : ℕ := 0
  hashMerkleRoot : ℕ := 0
  nTime : UInt32
  nBits : UInt32
  nNonce : UInt32 := 0
  deriving DecidableEq

/-- Bits of the version that tell the algorithm. -/
def blockVersionAlgo : BitVec 32 := 7<<<9

def blockVersionScrypt : BitVec 32 := 0<<<9

def blockVersionLyra2 : BitVec 32 := 1<<<9

/-- Version bits of double SHA-256. -/
def blockVersionSha256d : BitVec 32 := 2<<<9

def blockVersionX11 : BitVec 32 := 4<<<9

def blockVersionYespower : BitVec 32 := 6<<<9

def algoOfVersion (nVersion : BitVec 32) : Algo :=
  let bits := nVersion &&& blockVersionAlgo
  if bits=blockVersionScrypt then .scrypt
  else if bits=blockVersionSha256d then .sha256d
  else if bits=blockVersionX11 then .x11
  else if bits=blockVersionYespower then .yespower
  else if bits=blockVersionLyra2 then .lyra2
  else .unknown

def CBlockHeader.getAlgo (header : CBlockHeader) : Algo := algoOfVersion header.nVersion

/-- A positive signed 64-bit number. -/
abbrev PosInt64 := { n : ℕ // 0<n ∧ n<2^63 }

/-- Consensus parameters of the difficulty. -/
structure Params where
  powLimit : ArithUint256
  /-- Whether late blocks may have the least difficulty. -/
  fPowAllowMinDifficultyBlocks : Bool
  fPowNoRetargeting : Bool
  nPowTargetSpacing : ℕ
  /-- Blocks of each algorithm in the averaging window. -/
  nAveragingInterval : ℕ
  nAveragingTargetTimespan : PosInt64
  nAveragingTargetTimespanV2 : PosInt64
  nMinActualTimespan : ℤ
  nMaxActualTimespan : ℤ
  nMinActualTimespanV2 : ℤ
  nMaxActualTimespanV2 : ℤ
  nMinActualTimespanV3 : ℤ
  nMaxActualTimespanV3 : ℤ
  nLocalTargetAdjustment : ℕ
  adjustment_lt : 100+nLocalTargetAdjustment<2^32
  v2DiffChangeHeight : ℕ
  v3DiffChangeHeight : ℕ
  AlgoChangeHeight : ℕ

def mainParams : Params where
  powLimit := BaseUint.ofNat 8 (2^236-1)
  fPowAllowMinDifficultyBlocks := false
  fPowNoRetargeting := false
  nPowTargetSpacing := 90
  nAveragingInterval := 10
  nAveragingTargetTimespan := ⟨10*(90*3),by decide⟩
  nAveragingTargetTimespanV2 := ⟨10*(90*4),by decide⟩
  nMinActualTimespan := (10*(90*3)*(100-8) : ℤ).tdiv 100
  nMaxActualTimespan := (10*(90*3)*(100+16) : ℤ).tdiv 100
  nMinActualTimespanV2 := (10*(90*3)*(100-10) : ℤ).tdiv 100
  nMaxActualTimespanV2 := (10*(90*3)*(100+12) : ℤ).tdiv 100
  nMinActualTimespanV3 := (10*(90*4)*(100-10) : ℤ).tdiv 100
  nMaxActualTimespanV3 := (10*(90*4)*(100+12) : ℤ).tdiv 100
  nLocalTargetAdjustment := 4
  adjustment_lt := by decide
  v2DiffChangeHeight := 100000
  v3DiffChangeHeight := 100050
  AlgoChangeHeight := 285000

theorem value_powLimit : mainParams.powLimit.value=2^236-1 := by
  decide

theorem value_setCompact_powLimit :
    (setCompact (getCompact mainParams.powLimit)).value=0x0fffff*2^216 := by
  decide

theorem powLimit_lt_max : mainParams.powLimit.value<2^256-1 := by
  rw [value_powLimit]
  decide

/-- Median of the times of the last eleven blocks. A chain is a list of
headers with the last block first. -/
def getMedianTimePast (chain : List CBlockHeader) : ℤ :=
  let times := ((chain.take 11).map (fun header => header.nTime.toNat)).insertionSort (·≤·)
  times.getD (times.length/2) 0

/-- Height of the last block of a chain. -/
def nHeight (chain : List CBlockHeader) : ℕ := chain.length-1

section Retarget

variable (params : Params)

/-- The chain up to the last block of an algorithm; late blocks of a test
network do not count. -/
def getLastBlockIndexForAlgo (algo : Algo) : List CBlockHeader → List CBlockHeader
  | [] => []
  | header::prev =>
    if header.getAlgo≠algo then getLastBlockIndexForAlgo algo prev
    else if params.fPowAllowMinDifficultyBlocks && (match prev with
      | [] => false
      | last::_ => decide (last.nTime.toNat+params.nPowTargetSpacing*6<header.nTime.toNat)) then
      getLastBlockIndexForAlgo algo prev
    else header::prev

/-- Measured seconds of a window, damped and bounded. -/
def actualTimespan (timespan : PosInt64) (minSpan maxSpan : ℤ) (chain first : List CBlockHeader) :
    ℤ :=
  let nActualTimespan := getMedianTimePast chain-getMedianTimePast first
  let nActualTimespan := timespan.1+(nActualTimespan-timespan.1).tdiv 4
  let nActualTimespan := if nActualTimespan < minSpan then minSpan else nActualTimespan
  if maxSpan<nActualTimespan then maxSpan else nActualTimespan

theorem value_ofNat_ne_zero {n : ℕ} (hpos : 0<n) (hlt : n<2^64) :
    (BaseUint.ofNat 8 n).value≠0 := by
  rw [BaseUint.value_ofNat,Nat.mod_eq_of_lt (Nat.lt_trans hlt (by decide))]
  exact Nat.ne_of_gt hpos

def scaleTarget (timespan : PosInt64) (nActualTimespan : ℤ) (bnNew : ArithUint256) :
    ArithUint256 :=
  (bnNew.mulWord (UInt32.ofNat (nActualTimespan%2^32).toNat)).quotient (BaseUint.ofNat 8 timespan.1)
    (value_ofNat_ne_zero timespan.2.1 (Nat.lt_trans timespan.2.2 (by decide)))

variable (bnNew : ArithUint256)

/-- Lower a target for a block out of turn. -/
def lowerTarget : ArithUint256 :=
  (bnNew.mulWord 100).quotient (BaseUint.ofNat 8 (100+params.nLocalTargetAdjustment))
    (value_ofNat_ne_zero (Nat.lt_add_right _ (by decide))
      (Nat.lt_trans params.adjustment_lt (by decide)))

/-- Raise a target for a block that the algorithm let pass. -/
def raiseTarget : ArithUint256 :=
  (bnNew.mulWord (UInt32.ofNat (100+params.nLocalTargetAdjustment))).quotient
    (BaseUint.ofNat 8 100) (value_ofNat_ne_zero (by decide) (by decide))

/-- Adjust a target for blocks out of turn. -/
def adjustTarget (nAdjustments : ℤ) (bnNew : ArithUint256) : ArithUint256 :=
  if 0<nAdjustments then (lowerTarget params)^[nAdjustments.toNat] bnNew
  else if nAdjustments<0 then (raiseTarget params)^[(-nAdjustments).toNat] bnNew
  else bnNew

/-- Blocks that an algorithm is ahead of its turn. -/
def adjustments (algos : ℕ) (chain prevAlgo : List CBlockHeader) : ℤ :=
  nHeight prevAlgo+algos-1-nHeight chain

/-- Target at most the greatest one. -/
def capTarget : ArithUint256 :=
  if bnNew.compareTo params.powLimit=.gt then params.powLimit else bnNew

/-- Compact target of the next block of an algorithm. -/
def retarget (algos : ℕ) (timespan : PosInt64) (minSpan maxSpan : ℤ) (chain : List CBlockHeader)
    (algo : Algo) : UInt32 :=
  let first := chain.drop (algos*params.nAveragingInterval)
  match getLastBlockIndexForAlgo params algo chain with
  | [] => getCompact params.powLimit
  | header::prev =>
    if first=[] ∨ params.fPowNoRetargeting=true then getCompact params.powLimit
    else
      let bnNew := scaleTarget timespan (actualTimespan timespan minSpan maxSpan chain first)
        (setCompact header.nBits)
      let bnNew := adjustTarget params (adjustments algos chain (header::prev)) bnNew
      getCompact (capTarget params bnNew)

variable (chain : List CBlockHeader)

/-- First version: three algorithms. -/
def getNextWorkRequiredV1 (algo : Algo) : UInt32 :=
  retarget params numAlgos params.nAveragingTargetTimespan params.nMinActualTimespan
    params.nMaxActualTimespan chain algo

/-- Second version: four algorithms. -/
def getNextWorkRequiredV2 (algo : Algo) : UInt32 :=
  retarget params numAlgosV2 params.nAveragingTargetTimespanV2 params.nMinActualTimespanV2
    params.nMaxActualTimespanV2 chain algo

/-- Third version: four algorithms, and five from a height on. -/
def getNextWorkRequiredV3 (algo : Algo) : UInt32 :=
  retarget params (if nHeight chain<params.AlgoChangeHeight then numAlgosV2 else numAlgosV3)
    params.nAveragingTargetTimespanV2 params.nMinActualTimespanV3 params.nMaxActualTimespanV3
    chain algo

/-- Compact target of the next block of an algorithm. -/
def getNextWorkRequired (algo : Algo) : UInt32 :=
  if chain=[] ∨ nHeight chain<params.v2DiffChangeHeight then getNextWorkRequiredV1 params chain algo
  else if nHeight chain<params.v3DiffChangeHeight then getNextWorkRequiredV2 params chain algo
  else getNextWorkRequiredV3 params chain algo

end Retarget

/-- Whether a hash meets a compact target. -/
def checkProofOfWork (params : Params) (hash : ℕ) (nBits : UInt32) : Bool :=
  let bnTarget := setCompact nBits
  if compactNegative nBits || decide (bnTarget.value=0) || compactOverflow nBits ||
    decide (bnTarget.compareTo params.powLimit=.gt) then false
  else decide (hash≤bnTarget.value)

end Pyrk.ProofOfWork
