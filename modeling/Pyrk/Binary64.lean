import Mathlib.Data.Nat.Size
import Mathlib.Tactic.Ring

/-!
# Floating-point numbers without a sign

A double is a fraction whose denominator is a power of two. Operations compute exactly and round to
53 significant bits, in a tie to the even number.
-/

namespace Pyrk.Binary64

/-- Nearest number with 53 significant bits. -/
def roundBits (x : ℕ) : ℕ :=
  let unit := 2^(x.size-53)
  let kept := x/unit
  let rest := x%unit
  if unit<2*rest ∨ (2*rest=unit ∧ kept%2=1) then (kept+1)*unit else kept*unit

/-- A double that is not negative. -/
structure Double where
  numerator : ℕ
  exponent : ℕ
  deriving DecidableEq

namespace Double

/-- An integer as a double. -/
def ofNat (n : ℕ) : Double := ⟨roundBits n,0⟩

/-- Product of two doubles. -/
def mul (a b : Double) : Double := ⟨roundBits (a.numerator*b.numerator),a.exponent+b.exponent⟩

/-- Difference of two doubles, the second not the greater one. -/
def sub (a b : Double) : Double :=
  ⟨roundBits (a.numerator*2^b.exponent-b.numerator*2^a.exponent),a.exponent+b.exponent⟩

/-- Comparison of two doubles. -/
def lt (a b : Double) : Bool := decide (a.numerator*2^b.exponent<b.numerator*2^a.exponent)

/-- Conversion to an integer drops the fraction. -/
def trunc (a : Double) : ℕ := a.numerator/2^a.exponent

end Double

theorem roundBits_of_lt {x : ℕ} (h : x<2^53) : roundBits x=x := by
  have hsize : x.size-53=0 := by
    have := Nat.size_le.mpr h
    omega
  unfold roundBits
  simp only [hsize,Nat.pow_zero,Nat.mod_one,Nat.div_one,Nat.mul_one]
  rw [if_neg (by omega)]

theorem roundBits_le_half (x : ℕ) : 2*roundBits x≤2*x+2^(x.size-53) := by
  unfold roundBits
  dsimp only
  have hsplit := Nat.div_add_mod x (2^(x.size-53))
  have hcomm := Nat.mul_comm (2^(x.size-53)) (x/2^(x.size-53))
  split_ifs with h
  · have hrest : 2^(x.size-53)≤2*(x%2^(x.size-53)) := by omega
    rw [Nat.add_mul,Nat.one_mul]
    omega
  · omega

theorem roundBits_le (x : ℕ) : 2^53*roundBits x≤(2^53+1)*x := by
  have hhalf := roundBits_le_half x
  by_cases hsmall : x<2^53
  · rw [roundBits_of_lt hsmall]
    exact Nat.mul_le_mul_right _ (by decide)
  · have hsize : 53<x.size := Nat.lt_size.mpr (by omega)
    have hlow : 2^(x.size-1)≤x := Nat.lt_size.mp (by omega)
    have hunit : 2^52*2^(x.size-53)=2^(x.size-1) := by
      rw [← Nat.pow_add]
      congr 1
      omega
    omega

theorem trunc_mul_le {n : ℕ} {factor : Double} (hn : n<2^53)
    (hfactor : (2^53+1)*factor.numerator≤2^53*2^factor.exponent) :
    ((Double.ofNat n).mul factor).trunc≤n := by
  have hround := roundBits_le (n*factor.numerator)
  unfold Double.trunc Double.mul Double.ofNat
  rw [roundBits_of_lt hn,Nat.zero_add]
  refine Nat.div_le_of_le_mul ?_
  refine Nat.le_of_mul_le_mul_left ?_ (show 0<2^53 by decide)
  calc 2^53*roundBits (n*factor.numerator)
      ≤(2^53+1)*(n*factor.numerator) := hround
    _=n*((2^53+1)*factor.numerator) := by ring
    _≤n*(2^53*2^factor.exponent) := Nat.mul_le_mul_left _ hfactor
    _=2^53*(2^factor.exponent*n) := by ring

end Pyrk.Binary64
