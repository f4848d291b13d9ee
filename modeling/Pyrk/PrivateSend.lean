import Pyrk.Transaction
import Mathlib.Algebra.Order.Ring.Int

/-!
# Denominations

Mixing works with a few standard amounts. A set of denominations is written as
a signed number with a bit for each of them, the largest first, and a collateral
for mixing has an amount of its own.
-/

namespace Pyrk.PrivateSend

open Transaction

section Amounts

def standardDenominations : List ℤ :=
  [10*coin+10000,coin+1000,coin/10+100,coin/100+10,coin/1000+1]

variable (nInputAmount : ℤ)

def isDenominatedAmount : Bool :=
  standardDenominations.any (fun nDenomValue => nInputAmount=nDenomValue)

/-- The smallest standard amount. -/
def smallestDenomination : ℤ := coin/1000+1

/-- Smallest amount of a collateral for mixing. -/
def collateralAmount : ℤ := smallestDenomination/10

/-- Largest amount of a collateral for mixing. -/
def maxCollateralAmount : ℤ := collateralAmount*4

def isCollateralAmount : Bool :=
  collateralAmount≤nInputAmount && nInputAmount ≤ maxCollateralAmount

theorem isDenominatedAmount_iff :
    isDenominatedAmount nInputAmount=true ↔ nInputAmount∈standardDenominations := by
  simp only [isDenominatedAmount,List.any_eq_true,decide_eq_true_eq,exists_eq_right']

end Amounts

/-- Bits of the amounts that some outputs have. -/
def usedBits (vecTxOut : List CTxOut) : ℕ → List ℤ → ℕ
  | _,[] => 0
  | c,nDenomValue::rest =>
    (if vecTxOut.any (fun txout => txout.nValue=nDenomValue) then 1 <<< c else 0) |||
      usedBits vecTxOut (c+1) rest

/-- The denominations of some outputs; zero if some output has none. -/
def getDenominations (vecTxOut : List CTxOut) : ℕ :=
  if vecTxOut.all (fun txout => isDenominatedAmount txout.nValue) then
    usedBits vecTxOut 0 standardDenominations
  else 0

/-- Bit of a signed number of 32 bits. -/
def intBit (nDenom : ℤ) (i : ℕ) : Bool := ((nDenom%2^32).toNat).testBit i

/-- Positions of the denominations of a number; false if it is too large or has none. -/
def getDenominationsBits (nDenom : ℤ) : List ℕ×Bool :=
  if (1 <<< standardDenominations.length : ℕ)≤nDenom then ([],false)
  else
    let vecBitsRet := (List.range standardDenominations.length).filter (fun i => intBit nDenom i)
    (vecBitsRet,!vecBitsRet.isEmpty)

end Pyrk.PrivateSend
