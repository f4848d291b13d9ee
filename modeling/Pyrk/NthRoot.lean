import Pyrk.ArithUint
import Mathlib.Analysis.SpecialFunctions.Pow.NthRootLemmas

/-!
# Truncated roots of wide integers

A root is searched bit by bit in the highest 64 bits of a number, which is shifted by a multiple of
the degree first.
-/

namespace Pyrk.NthRoot

open ArithUint

/-- Multiply a number by itself until it has a degree. -/
def powerLoop (n : ℕ) (nNext : UInt64) : UInt64 := (fun nPower => nPower*nNext)^[n-1] nNext

/-- Set the bits of a root from the highest one down where the power allows it. -/
def rootLoop (n : ℕ) (nHead : UInt64) : ℕ → UInt64 → UInt64
  | 0,nRoot => nRoot
  | i+1,nRoot =>
    let nNext := nRoot ||| 1<<<UInt64.ofNat i
    rootLoop n nHead i (if powerLoop n nNext≤nHead then nNext else nRoot)

/-- Shift of the root of a number with a length in bits. -/
def rootShifts (n nLength : ℕ) : ℕ := (nLength-1)/n+1-64/n

/-- Truncated root of a degree. -/
def approxNthRoot (a : ArithUint256) (n : ℕ) : ArithUint256 :=
  let nShifts := rootShifts n a.bits
  let nHead := (a.shiftRight (n*nShifts)).getLow64
  (BaseUint.ofNat 8 (rootLoop n nHead (64/n) 0).toNat).shiftLeft nShifts

theorem toNat_powerLoop {n : ℕ} (hn : 0<n) (nNext : UInt64) :
    (powerLoop n nNext).toNat=nNext.toNat^n%2^64 := by
  have hloop : ∀ j, ((fun nPower => nPower*nNext)^[j] nNext).toNat=nNext.toNat^(j+1)%2^64 := by
    intro j
    induction j with
    | zero =>
      rw [Function.iterate_zero,id,Nat.zero_add,Nat.pow_one,Nat.mod_eq_of_lt nNext.toNat_lt]
    | succ j ih =>
      rw [Function.iterate_succ_apply',UInt64.toNat_mul,ih,Nat.mod_mul_mod,← Nat.pow_succ]
  rw [powerLoop,hloop,Nat.sub_add_cancel hn]

theorem toNat_setRootBit {nRoot : UInt64} {i : ℕ} (hi : i<64) (hdvd : 2^(i+1)∣nRoot.toNat) :
    (nRoot ||| 1<<<UInt64.ofNat i).toNat=nRoot.toNat+2^i := by
  obtain ⟨q,hq⟩ := hdvd
  have hbit : ((1 : UInt64)<<<UInt64.ofNat i).toNat=2^i := by
    rw [UInt64.toNat_shiftLeft,UInt64.toNat_ofNat',Nat.shiftLeft_eq,Nat.mod_mod_of_dvd _
      (by decide),
      Nat.mod_eq_of_lt hi]
    change 1*2^i%2^64=2^i
    rw [Nat.one_mul,Nat.mod_eq_of_lt (Nat.pow_lt_pow_right (by decide) hi)]
  have hlt : 2^i<2^(i+1) := Nat.pow_lt_pow_right (by decide) (Nat.lt_succ_self i)
  rw [UInt64.toNat_or,hbit,hq,Nat.two_pow_add_eq_or_of_lt hlt]

/-- The root lies between the bits set so far and the next higher multiple. -/
theorem toNat_rootLoop {n : ℕ} (hn : 0<n) {bits : ℕ} (hbits : n*bits≤64) {nHead : UInt64} {i : ℕ}
    (hi : i ≤ bits) {nRoot : UInt64} (hdvd : 2^i∣nRoot.toNat) (hroom : nRoot.toNat+2^i≤2^bits)
    (hle : nRoot.toNat^n≤nHead.toNat) (hlt : nHead.toNat<(nRoot.toNat+2^i)^n) :
    (rootLoop n nHead i nRoot).toNat=Nat.nthRoot n nHead.toNat := by
  induction i generalizing nRoot with
  | zero => exact (Nat.nthRoot_eq_of_le_of_lt hle hlt).symm
  | succ i ih =>
    have hbits64 : bits≤64 := Nat.le_trans (Nat.le_mul_of_pos_left bits hn) hbits
    have hnext := toNat_setRootBit (show i<64 by omega) hdvd
    have hdouble : 2^(i+1)=2^i+2^i := by rw [Nat.pow_succ]; omega
    have hdvd : 2^i∣nRoot.toNat := Nat.dvd_trans (Nat.pow_dvd_pow 2 (Nat.le_succ i)) hdvd
    have hpower : (powerLoop n (nRoot ||| 1<<<UInt64.ofNat i)).toNat=(nRoot.toNat+2^i)^n := by
      rw [toNat_powerLoop hn,hnext,Nat.mod_eq_of_lt]
      calc (nRoot.toNat+2^i)^n
          <(2^bits)^n := by
            refine Nat.pow_lt_pow_left ?_ (by omega)
            have hpos := Nat.two_pow_pos i
            omega
        _=2^(n*bits) := by rw [← Nat.pow_mul,Nat.mul_comm]
        _≤2^64 := Nat.pow_le_pow_right (by decide) hbits
    rw [rootLoop]
    by_cases hfits : powerLoop n (nRoot ||| 1<<<UInt64.ofNat i)≤nHead
    · have hfitsNat := UInt64.le_iff_toNat_le.mp hfits
      rw [hpower] at hfitsNat
      rw [if_pos hfits]
      refine ih (by omega) ?_ ?_ ?_ ?_ <;> rw [hnext]
      · exact Nat.dvd_add hdvd (Nat.dvd_refl _)
      · omega
      · exact hfitsNat
      · rwa [Nat.add_assoc,← hdouble]
    · have hfitsNat := mt UInt64.le_iff_toNat_le.mpr hfits
      rw [hpower] at hfitsNat
      rw [if_neg hfits]
      exact ih (by omega) hdvd (by omega) hle (Nat.not_le.mp hfitsNat)

/-- Truncated root of a number. -/
def approxRoot (n v : ℕ) : ℕ :=
  Nat.nthRoot n (v/2^(n*rootShifts n v.size))*2^rootShifts n v.size

variable {n : ℕ}

theorem head_lt (hn : 1<n) (v : ℕ) : v/2^(n*rootShifts n v.size)<2^(n*(64/n)) := by
  rw [Nat.div_lt_iff_lt_mul (Nat.two_pow_pos _),← Nat.pow_add]
  refine Nat.lt_of_lt_of_le (Nat.lt_size_self v) (Nat.pow_le_pow_right (by decide) ?_)
  have hceil : v.size≤n*((v.size-1)/n+1) := by
    have hdiv := Nat.lt_mul_div_succ (v.size-1) (show 0<n by omega)
    omega
  rw [← Nat.mul_add]
  refine Nat.le_trans hceil (Nat.mul_le_mul_left n ?_)
  unfold rootShifts
  omega

theorem approxRoot_pow_le (hn : 1<n) (v : ℕ) : approxRoot n v^n ≤ v := by
  have hroot : Nat.nthRoot n (v/2^(n*rootShifts n v.size))^n≤v/2^(n*rootShifts n v.size) :=
    (Nat.le_nthRoot_iff (by omega)).mp (Nat.le_refl _)
  calc approxRoot n v^n
      =Nat.nthRoot n (v/2^(n*rootShifts n v.size))^n*2^(n*rootShifts n v.size) := by
        rw [approxRoot,Nat.mul_pow,← Nat.pow_mul,Nat.mul_comm (rootShifts n v.size)]
    _ ≤ v/2^(n*rootShifts n v.size)*2^(n*rootShifts n v.size) := Nat.mul_le_mul_right _ hroot
    _ ≤ v := Nat.div_mul_le_self _ _

theorem approxRoot_le (hn : 1<n) (v : ℕ) : approxRoot n v ≤ v :=
  Nat.le_trans (Nat.le_self_pow (by omega) _) (approxRoot_pow_le hn v)

theorem mul_rootShifts_le (hn : 1<n) (hn64 : n<64) (nLength : ℕ) :
    n*rootShifts n nLength ≤ nLength-1 := by
  have hone : 1≤64/n := by
    rw [Nat.le_div_iff_mul_le (by omega)]
    omega
  refine Nat.le_trans (Nat.mul_le_mul_left n ?_) (Nat.mul_div_le (nLength-1) n)
  unfold rootShifts
  generalize (nLength-1)/n=whole
  omega

theorem two_pow_size_le {v : ℕ} (hv : 0<v) : 2^(v.size-1)≤v := by
  refine Nat.lt_size.mp ?_
  have hsize := Nat.size_pos.mpr hv
  omega

theorem two_pow_le_approxRoot (hn : 1<n) (hn64 : n<64) {c v : ℕ} (h : 2^(n*c)≤v) :
    2^c≤approxRoot n v := by
  have hv : 0<v := Nat.lt_of_lt_of_le (Nat.two_pow_pos _) h
  have hhead : ∀ e, n*e+n*rootShifts n v.size≤n*c ∨ e=0 →
      2^e≤Nat.nthRoot n (v/2^(n*rootShifts n v.size)) := by
    intro e he
    rw [Nat.le_nthRoot_iff (by omega),← Nat.pow_mul,Nat.mul_comm e,
      Nat.le_div_iff_mul_le (Nat.two_pow_pos _),← Nat.pow_add]
    rcases he with he | he
    · exact Nat.le_trans (Nat.pow_le_pow_right (by decide) he) h
    · rw [he,Nat.mul_zero,Nat.zero_add]
      exact Nat.le_trans (Nat.pow_le_pow_right (by decide) (mul_rootShifts_le hn hn64 v.size))
        (two_pow_size_le hv)
  by_cases hshift : rootShifts n v.size ≤ c
  · have hroot := hhead (c-rootShifts n v.size) (Or.inl (by
      rw [← Nat.mul_add,Nat.sub_add_cancel hshift]))
    calc 2^c=2^(c-rootShifts n v.size)*2^rootShifts n v.size := by
          rw [← Nat.pow_add,Nat.sub_add_cancel hshift]
      _ ≤ approxRoot n v := Nat.mul_le_mul_right _ hroot
  · have hroot := hhead 0 (Or.inr rfl)
    calc 2^c≤2^0*2^rootShifts n v.size := by
          rw [Nat.pow_zero,Nat.one_mul]
          exact Nat.pow_le_pow_right (by decide) (by omega)
      _ ≤ approxRoot n v := Nat.mul_le_mul_right _ hroot

theorem approxRoot_mono (hn : 1<n) (hn64 : n<64) : Monotone (approxRoot n) := by
  intro u v huv
  have hsize : u.size ≤ v.size := Nat.size_le_size huv
  have hdiv : (u.size-1)/n≤(v.size-1)/n := Nat.div_le_div_right (by omega)
  by_cases hshift : rootShifts n u.size=rootShifts n v.size
  · unfold approxRoot
    rw [hshift]
    refine Nat.mul_le_mul_right _ ((Nat.le_nthRoot_iff (by omega)).mpr ?_)
    refine Nat.le_trans ((Nat.le_nthRoot_iff (by omega)).mp (Nat.le_refl _)) ?_
    exact Nat.div_le_div_right huv
  · have hnext : (u.size-1)/n+1≤(v.size-1)/n := by
      unfold rootShifts at hshift
      omega
    have hlow : approxRoot n u<2^((u.size-1)/n+1) := by
      refine lt_of_pow_lt_pow_left₀ n (Nat.zero_le _) ?_
      rw [← Nat.pow_mul,Nat.mul_comm]
      refine Nat.lt_of_le_of_lt (approxRoot_pow_le hn u) ?_
      refine Nat.lt_of_lt_of_le (Nat.lt_size_self u) (Nat.pow_le_pow_right (by decide) ?_)
      have hceil := Nat.lt_mul_div_succ (u.size-1) (show 0<n by omega)
      omega
    have hwide : n*((u.size-1)/n+1)≤v.size-1 :=
      Nat.le_trans (Nat.mul_le_mul_left n hnext) (Nat.mul_div_le _ _)
    have hvpos : 0<v := by
      rw [← Nat.size_pos]
      have hpos : 0<n*((u.size-1)/n+1) := Nat.mul_pos (by omega) (Nat.succ_pos _)
      omega
    have hhigh : 2^((u.size-1)/n+1)≤approxRoot n v :=
      two_pow_le_approxRoot hn hn64 (Nat.le_trans (Nat.pow_le_pow_right (by decide) hwide)
        (two_pow_size_le hvpos))
    omega

theorem value_approxNthRoot (hn : 1<n) (hn64 : n<64) (a : ArithUint256) :
    (approxNthRoot a n).value=approxRoot n a.value := by
  have hbits : n*(64/n)≤64 := Nat.mul_div_le 64 n
  have hhead := head_lt hn a.value
  have hword : (a.shiftRight (n*rootShifts n a.bits)).getLow64.toNat=
      a.value/2^(n*rootShifts n a.value.size) := by
    rw [BaseUint.toNat_getLow64,BaseUint.value_shiftRight,BaseUint.bits_eq,Nat.mod_eq_of_lt]
    exact Nat.lt_of_lt_of_le hhead (Nat.pow_le_pow_right (by decide) hbits)
  have hroot : (rootLoop n (a.shiftRight (n*rootShifts n a.bits)).getLow64 (64/n) 0).toNat=
      Nat.nthRoot n (a.value/2^(n*rootShifts n a.value.size)) := by
    rw [← hword]
    refine toNat_rootLoop (by omega) hbits (Nat.le_refl _) (Nat.dvd_zero _) ?_ ?_ ?_
    · rw [UInt64.toNat_zero,Nat.zero_add]
    · rw [UInt64.toNat_zero,Nat.zero_pow (by omega)]
      exact Nat.zero_le _
    · rw [UInt64.toNat_zero,Nat.zero_add,hword,← Nat.pow_mul,Nat.mul_comm (64/n)]
      exact hhead
  have hwidth : approxRoot n a.value<2^(32*8) :=
    Nat.lt_of_le_of_lt (approxRoot_le hn a.value) a.value_lt
  have hsmall : Nat.nthRoot n (a.value/2^(n*rootShifts n a.value.size))<2^(32*8) :=
    Nat.lt_of_le_of_lt (Nat.le_mul_of_pos_right _ (Nat.two_pow_pos _)) hwidth
  unfold approxNthRoot
  rw [BaseUint.value_shiftLeft,BaseUint.value_ofNat,hroot,Nat.mod_eq_of_lt hsmall,BaseUint.bits_eq]
  exact Nat.mod_eq_of_lt hwidth

end Pyrk.NthRoot
