import Pyrk.Limbs

/-!
# Unsigned integers of a fixed width

Big integers are arrays of 32-bit words. Operators go over the words with a 64-bit carry or with
shifts, and compute modulo a power of two.
-/

namespace Pyrk.ArithUint

open Limbs List

/-- An unsigned integer with a fixed number of words, the lowest first. -/
structure BaseUint (width : ℕ) where
  pn : List UInt32
  length_pn : pn.length=width
  deriving DecidableEq

/-- Integers of 256 bits. -/
abbrev ArithUint256 := BaseUint 8

/-- Multiply words by a word, with a carry from below. -/
def mulLimbs (b32 : UInt32) : UInt64 → List UInt32 → List UInt32
  | _,[] => []
  | carry,limb::limbs =>
    let n := carry+b32.toUInt64*limb.toUInt64
    n.toUInt32::mulLimbs b32 (n>>>32) limbs

/-- Add words to words, with a carry from below. -/
def addLimbs : UInt64 → List UInt32 → List UInt32 → List UInt32
  | carry,limb::limbs,other::others =>
    let n := carry+limb.toUInt64+other.toUInt64
    n.toUInt32::addLimbs (n>>>32) limbs others
  | _,_,_ => []

/-- Add one to words; a word that becomes zero carries over. -/
def incLimbs : List UInt32 → List UInt32
  | [] => []
  | limb::limbs => if limb+1=0 then (limb+1)::incLimbs limbs else (limb+1)::limbs

/-- Compare words from the highest one on. -/
def compareLimbs : List UInt32 → List UInt32 → Ordering
  | limb::limbs,other::others =>
    match compareLimbs limbs others with
    | .eq => if limb<other then .lt else if other<limb then .gt else .eq
    | order => order
  | _,_ => .eq

/-- Highest bit set in a word that is not zero, searched from a bit on. -/
def limbBits (limb : UInt32) : ℕ → ℕ
  | 0 => 1
  | bits+1 => if limb &&& 1<<<UInt32.ofNat (bits+1)≠0 then bits+2 else limbBits limb bits

/-- Highest bit set in words, searched from the highest word on. -/
def bitsLimbs : List UInt32 → ℕ
  | [] => 0
  | limb::limbs =>
    if bitsLimbs limbs≠0 then 32+bitsLimbs limbs
    else if limb≠0 then limbBits limb 31 else 0

namespace BaseUint

variable {width : ℕ}

variable (a : BaseUint width)

/-- The number. -/
def value : ℕ := Limbs.value a.pn

/-- An integer with the words of a number. -/
def ofNat (width n : ℕ) : BaseUint width := ⟨words width n,length_words width n⟩

/-- Shift up; each word gets bits of two words. -/
def shiftLeft (shift : ℕ) : BaseUint width where
  pn :=
    let k := shift/32
    let bits := shift%32
    (List.range width).map (fun i =>
      (if k+1 ≤ i ∧ bits≠0 then limb a.pn (i-k-1)>>>UInt32.ofNat (32-bits) else 0) |||
      (if k ≤ i then limb a.pn (i-k)<<<UInt32.ofNat bits else 0))
  length_pn := by rw [length_map,length_range]

/-- Shift down; each word gets bits of two words. -/
def shiftRight (shift : ℕ) : BaseUint width where
  pn :=
    let k := shift/32
    let bits := shift%32
    (List.range width).map (fun i =>
      (if bits≠0 then limb a.pn (i+k+1)<<<UInt32.ofNat (32-bits) else 0) |||
      limb a.pn (i+k)>>>UInt32.ofNat bits)
  length_pn := by rw [length_map,length_range]

theorem length_mulLimbs (b32 : UInt32) (carry : UInt64) (limbs : List UInt32) :
    (mulLimbs b32 carry limbs).length=limbs.length := by
  induction limbs generalizing carry with
  | nil => rfl
  | cons limb limbs ih => rw [mulLimbs,length_cons,ih,length_cons]

theorem length_addLimbs {limbs others : List UInt32} (h : limbs.length=others.length)
    (carry : UInt64) : (addLimbs carry limbs others).length=limbs.length := by
  induction limbs generalizing carry others with
  | nil => rfl
  | cons limb limbs ih =>
    cases others with
    | nil => cases h
    | cons other others => rw [addLimbs,length_cons,ih (Nat.succ.inj h),length_cons]

theorem length_incLimbs (limbs : List UInt32) : (incLimbs limbs).length=limbs.length := by
  induction limbs with
  | nil => rfl
  | cons limb limbs ih =>
    unfold incLimbs
    split_ifs
    · rw [length_cons,ih,length_cons]
    · rfl

def mulWord (b32 : UInt32) : BaseUint width :=
  ⟨mulLimbs b32 0 a.pn,by rw [length_mulLimbs,a.length_pn]⟩

variable (a b : BaseUint width)

def add : BaseUint width :=
  ⟨addLimbs 0 a.pn b.pn,by rw [length_addLimbs (a.length_pn.trans b.length_pn.symm),a.length_pn]⟩

/-- Negate: all bits the other way, plus one. -/
def neg : BaseUint width :=
  ⟨incLimbs (a.pn.map (fun limb => ~~~limb)),by
    rw [length_incLimbs,length_map,a.length_pn]⟩

def sub : BaseUint width := a.add b.neg

def compareTo : Ordering := compareLimbs a.pn b.pn

/-- Position of the highest bit set plus one, or zero. -/
def bits : ℕ := bitsLimbs a.pn

def setBit (shift : ℕ) : BaseUint width where
  pn := a.pn.modify (shift/32) (fun limb => limb ||| 1<<<UInt32.ofNat (shift%32))
  length_pn := by rw [length_modify,a.length_pn]

/-- Subtract the divisor where it fits, from the highest shift down. -/
def divLoop : ℕ → BaseUint width → BaseUint width → BaseUint width → BaseUint width
  | 0,_,_,quotient => quotient
  | shift+1,num,div,quotient =>
    if num.compareTo div≠.lt then
      divLoop shift (num.sub div) (div.shiftRight 1) (quotient.setBit shift)
    else divLoop shift num (div.shiftRight 1) quotient

/-- Divide; no result stands for the error on a zero divisor. -/
def div : Option (BaseUint width) :=
  if b.bits=0 then none
  else if a.bits<b.bits then some (ofNat width 0)
  else some (divLoop (a.bits-b.bits+1) a (b.shiftLeft (a.bits-b.bits)) (ofNat width 0))

/-- The two lowest words. -/
def getLow64 : UInt64 :=
  (limb a.pn 0).toUInt64 ||| (limb a.pn 1).toUInt64<<<32

end BaseUint

theorem value_mulLimbs (b32 : UInt32) (carry : UInt64) (limbs : List UInt32)
    (hcarry : carry.toNat<2^32) :
    Limbs.value (mulLimbs b32 carry limbs)=
      (carry.toNat+b32.toNat*Limbs.value limbs)%2^(32*limbs.length) := by
  induction limbs generalizing carry with
  | nil => rw [mulLimbs,value_nil,length_nil,Nat.mul_zero,Nat.pow_zero,Nat.mod_one]
  | cons limb limbs ih =>
    have hn : (carry+b32.toUInt64*limb.toUInt64).toNat=carry.toNat+b32.toNat*limb.toNat := by
      have hb := b32.toNat_lt
      have hl := limb.toNat_lt
      have hproduct : b32.toNat*limb.toNat≤(2^32-1)*(2^32-1) :=
        Nat.mul_le_mul (by omega) (by omega)
      rw [UInt64.toNat_add,UInt64.toNat_mul,UInt32.toNat_toUInt64,UInt32.toNat_toUInt64,
        Nat.mod_eq_of_lt (show b32.toNat*limb.toNat<2^64 by omega),Nat.mod_eq_of_lt (by omega)]
    have hhigh : ((carry+b32.toUInt64*limb.toUInt64)>>>32).toNat=
        (carry.toNat+b32.toNat*limb.toNat)/2^32 := by
      rw [UInt64.toNat_shiftRight,hn,Nat.shiftRight_eq_div_pow]
      rfl
    have hbound : (carry.toNat+b32.toNat*limb.toNat)/2^32<2^32 := by
      have hlt := (carry+b32.toUInt64*limb.toUInt64).toNat_lt
      rw [hn] at hlt
      omega
    have hsplit : carry.toNat+b32.toNat*(limb.toNat+2^32*Limbs.value limbs)=
        (carry.toNat+b32.toNat*limb.toNat)+2^32*(b32.toNat*Limbs.value limbs) := by ring
    rw [mulLimbs,value_cons,ih _ (hhigh ▸ hbound),hhigh,length_cons,two_pow_succ_width,
      value_cons,hsplit,Nat.mod_mul,Nat.add_mul_mod_self_left,
      Nat.add_mul_div_left _ _ (Nat.two_pow_pos 32),UInt64.toNat_toUInt32,hn]

variable {limbs others : List UInt32}

theorem value_addLimbs (hlen : limbs.length=others.length)
    (carry : UInt64) (hcarry : carry.toNat<2^32) :
    Limbs.value (addLimbs carry limbs others)=
      (carry.toNat+Limbs.value limbs+Limbs.value others)%2^(32*limbs.length) := by
  induction limbs generalizing carry others with
  | nil => rw [addLimbs,value_nil,length_nil,Nat.mul_zero,Nat.pow_zero,Nat.mod_one]; simp
  | cons limb limbs ih =>
    cases others with
    | nil => cases hlen
    | cons other others =>
      have hl := limb.toNat_lt
      have ho := other.toNat_lt
      have hn : (carry+limb.toUInt64+other.toUInt64).toNat=carry.toNat+limb.toNat+other.toNat := by
        rw [UInt64.toNat_add,UInt64.toNat_add,UInt32.toNat_toUInt64,UInt32.toNat_toUInt64]
        omega
      have hhigh : ((carry+limb.toUInt64+other.toUInt64)>>>32).toNat=
          (carry.toNat+limb.toNat+other.toNat)/2^32 := by
        rw [UInt64.toNat_shiftRight,hn,Nat.shiftRight_eq_div_pow]
        rfl
      have hsplit : carry.toNat+(limb.toNat+2^32*Limbs.value limbs)+
          (other.toNat+2^32*Limbs.value others)=
          (carry.toNat+limb.toNat+other.toNat)+2^32*(Limbs.value limbs+Limbs.value others) := by
        ring
      rw [addLimbs,value_cons,ih (Nat.succ.inj hlen) _ (by rw [hhigh]; omega),hhigh,
        length_cons,two_pow_succ_width,value_cons,value_cons,hsplit,Nat.mod_mul,
        Nat.add_mul_mod_self_left,Nat.add_mul_div_left _ _ (Nat.two_pow_pos 32),
        UInt64.toNat_toUInt32,hn,Nat.add_assoc (_/_)]

/-- Adding one to words adds one to the number, up to the length of the list. -/
theorem value_incLimbs (limbs : List UInt32) :
    Limbs.value (incLimbs limbs)=(Limbs.value limbs+1)%2^(32*limbs.length) := by
  induction limbs with
  | nil => rfl
  | cons limb limbs ih =>
    have hl := limb.toNat_lt
    have hadd : (limb+1).toNat=(limb.toNat+1)%2^32 := by
      rw [UInt32.toNat_add]
      rfl
    have hrest := value_lt limbs
    unfold incLimbs
    rw [length_cons,two_pow_succ_width,value_cons]
    split_ifs with hzero
    · have hlimb : limb.toNat+1=2^32 := by
        have hmod := congrArg UInt32.toNat hzero
        rw [hadd] at hmod
        change (limb.toNat+1)%2^32=0 at hmod
        omega
      have hsplit : limb.toNat+2^32*Limbs.value limbs+1=2^32*(Limbs.value limbs+1) := by
        rw [Nat.mul_succ]
        omega
      rw [value_cons,ih,hadd,hlimb,hsplit,Nat.mul_mod_mul_left,Nat.mod_self,Nat.zero_add]
    · have hlimb : (limb+1).toNat=limb.toNat+1 := by
        rw [hadd]
        refine Nat.mod_eq_of_lt (Nat.lt_of_le_of_ne hl ?_)
        intro he
        refine hzero (UInt32.toNat.inj ?_)
        rw [hadd,he]
        rfl
      have hlt := (limb+1).toNat_lt
      rw [value_cons,hlimb,Nat.mod_eq_of_lt]
      · omega
      · rw [hlimb] at hlt
        omega

theorem value_complement (limbs : List UInt32) :
    Limbs.value (limbs.map (fun limb => ~~~limb))+Limbs.value limbs+1=2^(32*limbs.length) := by
  induction limbs with
  | nil => rfl
  | cons limb limbs ih =>
    have hl := limb.toNat_lt
    have hnot : (~~~limb).toNat=2^32-1-limb.toNat := UInt32.toNat_not limb
    rw [map_cons,value_cons,value_cons,length_cons,two_pow_succ_width,← ih,hnot]
    omega

theorem compareLimbs_eq (hlen : limbs.length=others.length) :
    compareLimbs limbs others=compare (Limbs.value limbs) (Limbs.value others) := by
  induction limbs generalizing others with
  | nil =>
    rw [eq_nil_of_length_eq_zero hlen.symm]
    rfl
  | cons limb limbs ih =>
    cases others with
    | nil => cases hlen
    | cons other others =>
      have hl := limb.toNat_lt
      have ho := other.toNat_lt
      rw [compareLimbs,ih (Nat.succ.inj hlen),value_cons,value_cons]
      rcases Nat.lt_trichotomy (Limbs.value limbs) (Limbs.value others) with h | h | h
      · rw [Nat.compare_eq_lt.mpr h,Nat.compare_eq_lt.mpr (by omega)]
      · rw [h,Nat.compare_eq_eq.mpr rfl]
        simp only [UInt32.lt_iff_toNat_lt]
        split_ifs with hless hmore
        · exact (Nat.compare_eq_lt.mpr (by omega)).symm
        · exact (Nat.compare_eq_gt.mpr (by omega)).symm
        · exact (Nat.compare_eq_eq.mpr (by omega)).symm
      · rw [Nat.compare_eq_gt.mpr h,Nat.compare_eq_gt.mpr (by omega)]

theorem toNat_one_shiftLeft {shift : ℕ} (hshift : shift<32) :
    ((1 : UInt32)<<<UInt32.ofNat shift).toNat=2^shift := by
  have hcount : (UInt32.ofNat shift).toNat%32=shift := by
    rw [UInt32.toNat_ofNat']
    omega
  have hpow : 2^shift<2^32 := Nat.pow_lt_pow_right (by decide) hshift
  rw [UInt32.toNat_shiftLeft,hcount,Nat.shiftLeft_eq,UInt32.toNat_one,Nat.one_mul,
    Nat.mod_eq_of_lt hpow]

theorem and_one_shiftLeft_ne_zero (word : UInt32) {shift : ℕ} (hshift : shift<32) :
    word &&& 1<<<UInt32.ofNat shift≠0 ↔ word.toNat.testBit shift=true := by
  have hand : (word &&& 1<<<UInt32.ofNat shift).toNat=
      (word.toNat.testBit shift).toNat*2^shift := by
    rw [UInt32.toNat_and,toNat_one_shiftLeft hshift,Nat.and_two_pow]
  have hpos := Nat.two_pow_pos shift
  rw [Ne,← UInt32.toNat_inj,hand]
  cases word.toNat.testBit shift with
  | false => simp
  | true =>
    rw [Bool.toNat_true,Nat.one_mul]
    exact ⟨fun _ => rfl,fun _ he => absurd he (Nat.ne_of_gt hpos)⟩

theorem limbBits_eq_size {word : UInt32} (hword : word≠0) {bits : ℕ} (hbits : bits<32)
    (hlt : word.toNat<2^(bits+1)) : limbBits word bits=word.toNat.size := by
  have hpos : 0<word.toNat :=
    Nat.pos_of_ne_zero (fun he => hword (UInt32.toNat.inj he))
  induction bits with
  | zero =>
    have hone : word.toNat=1 := by omega
    rw [limbBits,hone,Nat.size_one]
  | succ bits ih =>
    unfold limbBits
    simp only [and_one_shiftLeft_ne_zero word hbits]
    split_ifs with hbit
    · refine (Nat.le_antisymm (Nat.size_le.mpr hlt) ?_).symm
      exact Nat.lt_size.mpr (Nat.ge_two_pow_of_testBit hbit)
    · refine ih (Nat.lt_of_succ_lt hbits) ?_
      refine Nat.lt_pow_two_of_testBit _ (fun i hi => ?_)
      rcases Nat.eq_or_lt_of_le hi with rfl | hi
      · exact Bool.eq_false_of_not_eq_true hbit
      · exact Nat.testBit_lt_two_pow (Nat.lt_of_lt_of_le hlt (Nat.pow_le_pow_right (by decide) hi))

theorem bitsLimbs_eq_size (limbs : List UInt32) : bitsLimbs limbs=(Limbs.value limbs).size := by
  induction limbs with
  | nil => rfl
  | cons word limbs ih =>
    have hword := word.toNat_lt
    unfold bitsLimbs
    rw [ih,value_cons]
    split_ifs with hrest hzero
    · have hlow : 2^((Limbs.value limbs).size-1)≤Limbs.value limbs :=
        Nat.lt_size.mp (Nat.sub_lt (Nat.pos_of_ne_zero hrest) Nat.one_pos)
      have hhigh : Limbs.value limbs<2^(Limbs.value limbs).size := Nat.lt_size_self _
      refine (Nat.le_antisymm (Nat.size_le.mpr ?_) ?_).symm
      · rw [Nat.pow_add]
        omega
      · have hexp : 32+(Limbs.value limbs).size=32+((Limbs.value limbs).size-1)+1 := by omega
        rw [hexp]
        refine Nat.lt_size.mpr ?_
        rw [Nat.pow_add]
        omega
    · have hvalue : Limbs.value limbs=0 := Nat.size_eq_zero.mp (not_not.mp hrest)
      rw [hvalue,Nat.mul_zero,Nat.add_zero]
      exact limbBits_eq_size hzero (by decide) hword
    · have hvalue : Limbs.value limbs=0 := Nat.size_eq_zero.mp (not_not.mp hrest)
      rw [hvalue,not_not.mp hzero]
      rfl

namespace BaseUint

variable {width : ℕ}

variable (a : BaseUint width)

theorem value_lt : a.value<2^(32*width) := by
  have hlt := Limbs.value_lt a.pn
  rwa [a.length_pn] at hlt

theorem eq_of_value {a b : BaseUint width} (h : a.value=b.value) : a=b := by
  cases a with
  | mk pn hpn =>
    cases b with
    | mk other hother =>
      cases value_injective (hpn.trans hother.symm) h
      rfl

@[simp] theorem value_ofNat (n : ℕ) : (ofNat width n).value=n%2^(32*width) := value_words width n

@[simp] theorem value_mulWord (a : BaseUint width) (b32 : UInt32) :
    (a.mulWord b32).value=a.value*b32.toNat%2^(32*width) := by
  have hvalue := value_mulLimbs b32 0 a.pn (by decide)
  rw [a.length_pn,UInt64.toNat_zero,Nat.zero_add,Nat.mul_comm] at hvalue
  exact hvalue

@[simp] theorem compareTo_eq (a b : BaseUint width) :
    a.compareTo b=compare a.value b.value :=
  compareLimbs_eq (a.length_pn.trans b.length_pn.symm)

@[simp] theorem bits_eq (a : BaseUint width) : a.bits=a.value.size := bitsLimbs_eq_size a.pn

theorem value_sub {a b : BaseUint width} (h : b.value≤a.value) :
    (a.sub b).value=a.value-b.value := by
  have hneg : b.neg.value=(2^(32*width)-b.value)%2^(32*width) := by
    have hcomplement := value_complement b.pn
    have hinc := value_incLimbs (b.pn.map (fun limb => ~~~limb))
    rw [b.length_pn] at hcomplement
    rw [length_map,b.length_pn] at hinc
    refine hinc.trans (congrArg (·%2^(32*width)) ?_)
    unfold value
    omega
  have hadd := value_addLimbs (a.length_pn.trans b.neg.length_pn.symm) 0 (by decide)
  rw [a.length_pn,UInt64.toNat_zero,Nat.zero_add] at hadd
  change (a.sub b).value=(a.value+b.neg.value)%2^(32*width) at hadd
  have ha := a.value_lt
  rw [hadd,hneg,Nat.add_mod_mod]
  rw [show a.value+(2^(32*width)-b.value)=a.value-b.value+2^(32*width) by omega,
    Nat.add_mod_right,Nat.mod_eq_of_lt (by omega)]

theorem testBit_value (i : ℕ) :
    a.value.testBit i=(limb a.pn (i/32)).toNat.testBit (i%32) := Limbs.testBit_value a.pn i

theorem testBit_of_le {i : ℕ} (h : 32*width ≤ i) : a.value.testBit i=false :=
  testBit_value_of_length_le (by rwa [a.length_pn])

theorem testBit_border (high low : UInt32) {shift i : ℕ} (hshift : shift<32) (hi : i<32) :
    ((if shift≠0 then low>>>UInt32.ofNat (32-shift) else 0) |||
        high<<<UInt32.ofNat shift).toNat.testBit i=
      if shift ≤ i then high.toNat.testBit (i-shift) else low.toNat.testBit (32+i-shift) := by
  have hlow : (if shift≠0 then low>>>UInt32.ofNat (32-shift) else 0).toNat.testBit i=
      (decide (shift≠0) && low.toNat.testBit (32-shift+i)) := by
    split_ifs with hzero
    · rw [testBit_shiftRight low (by omega),decide_eq_true hzero,Bool.true_and]
    · rw [decide_eq_false hzero,Bool.false_and]
      exact Nat.zero_testBit i
  rw [UInt32.toNat_or,Nat.testBit_or,hlow,testBit_shiftLeft high hshift,decide_eq_true hi,
    Bool.true_and]
  split_ifs with hle
  · have habove : low.toNat.testBit (32-shift+i)=false :=
      Nat.testBit_lt_two_pow (Nat.lt_of_lt_of_le low.toNat_lt
        (Nat.pow_le_pow_right (by decide) (by omega)))
    rw [habove,Bool.and_false,Bool.false_or,decide_eq_true hle,Bool.true_and]
  · grind

theorem value_shiftLeft (shift : ℕ) : (a.shiftLeft shift).value=a.value*2^shift%2^(32*width) := by
  rw [← Nat.shiftLeft_eq]
  refine Nat.eq_of_testBit_eq (fun i => ?_)
  rw [Nat.testBit_mod_two_pow,Nat.testBit_shiftLeft]
  by_cases hi : i<32*width
  · rw [testBit_value,shiftLeft,limb_map_range,if_pos (by omega),decide_eq_true hi,Bool.true_and]
    by_cases hk : shift/32 ≤ i/32
    · rw [if_pos hk]
      by_cases hnext : shift/32+1 ≤ i/32
      · -- both words are there
        simp only [hnext,true_and]
        rw [testBit_border _ _ (Nat.mod_lt _ (by decide)) (Nat.mod_lt _ (by decide)),
          decide_eq_true (show shift ≤ i by omega),Bool.true_and,testBit_value]
        split_ifs with hbit
        · congr 2 <;> [congr 1;skip] <;> omega
        · congr 2 <;> [congr 1;skip] <;> omega
      · simp only [hnext,false_and,if_false]
        rw [UInt32.zero_or,testBit_shiftLeft _ (Nat.mod_lt _ (by decide)),
          decide_eq_true (Nat.mod_lt i (by decide)),Bool.true_and,testBit_value]
        grind
    · rw [if_neg hk,if_neg (by omega),decide_eq_false (show ¬shift ≤ i by omega),Bool.false_and]
      exact Nat.zero_testBit _
  · rw [testBit_of_le _ (Nat.le_of_not_lt hi),decide_eq_false hi,Bool.false_and]

theorem value_shiftRight (shift : ℕ) : (a.shiftRight shift).value=a.value/2^shift := by
  rw [← Nat.shiftRight_eq_div_pow]
  refine Nat.eq_of_testBit_eq (fun i => ?_)
  rw [Nat.testBit_shiftRight]
  by_cases hi : i<32*width
  · rw [testBit_value,shiftRight,limb_map_range,if_pos (by omega),testBit_value]
    by_cases hbits : shift%32=0
    · simp only [hbits,ne_eq,not_true_eq_false,if_false]
      rw [UInt32.zero_or,testBit_shiftRight _ (by decide)]
      congr 2 <;> [congr 1;skip] <;> omega
    · have hborder := @testBit_border (limb a.pn (i/32+shift/32+1)) (limb a.pn (i/32+shift/32))
        (32-shift%32) (i%32) (by omega) (Nat.mod_lt _ (by decide))
      have hback : 32-(32-shift%32)=shift%32 := by omega
      simp only [show 32-shift%32≠0 by omega,ne_eq,not_false_eq_true,if_true,hback] at hborder
      simp only [hbits,ne_eq,not_false_eq_true,if_true]
      rw [UInt32.or_comm,hborder]
      split_ifs with hbit
      · congr 2 <;> [congr 1;skip] <;> omega
      · congr 2 <;> [congr 1;skip] <;> omega
  · rw [testBit_of_le _ (Nat.le_of_not_lt hi),testBit_of_le _ (by omega)]

theorem value_setBit {a : BaseUint width} {shift : ℕ} (hshift : shift<32*width)
    (hlow : 2^(shift+1) ∣ a.value) : (a.setBit shift).value=a.value+2^shift := by
  have hor : (a.setBit shift).value=a.value ||| 2^shift := by
    refine Nat.eq_of_testBit_eq (fun i => ?_)
    rw [Nat.testBit_or,testBit_value,testBit_value,setBit,
      limb_modify (by rw [a.length_pn]; omega),Nat.testBit_two_pow]
    split_ifs with hword
    · rw [UInt32.toNat_or,toNat_one_shiftLeft (Nat.mod_lt _ (by decide)),Nat.testBit_or,
        Nat.testBit_two_pow]
      congr 2
      exact propext (by omega)
    · rw [decide_eq_false (fun he => hword (by rw [he])),Bool.or_false]
  obtain ⟨high,hhigh⟩ := hlow
  rw [hor,hhigh,Nat.two_pow_add_eq_or_of_lt (Nat.pow_lt_pow_right (by decide) (Nat.lt_succ_self _))]

theorem value_divLoop {d shift : ℕ} (hd : 0<d) (hshift : shift≤32*width)
    {num div quotient : BaseUint width} (hnum : num.value<d*2^shift)
    (hdiv : ∀ n, shift=n+1 → div.value=d*2^n) (hlow : 2^shift ∣ quotient.value) :
    (divLoop shift num div quotient).value=quotient.value+num.value/d := by
  induction shift generalizing num div quotient with
  | zero =>
    rw [Nat.pow_zero,Nat.mul_one] at hnum
    rw [divLoop,Nat.div_eq_of_lt hnum,Nat.add_zero]
  | succ shift ih =>
    have hvalue := hdiv shift rfl
    have hnext : ∀ n, shift=n+1 → (div.shiftRight 1).value=d*2^n := by
      rintro n rfl
      rw [value_shiftRight,hvalue,Nat.pow_succ 2 n,← Nat.mul_assoc,Nat.pow_one,
        Nat.mul_div_cancel _ Nat.two_pos]
    have hlower : 2^shift ∣ quotient.value := (Nat.pow_dvd_pow 2 (Nat.le_succ shift)).trans hlow
    rw [Nat.pow_succ,← Nat.mul_assoc] at hnum
    unfold divLoop
    split_ifs with hcompare
    · rw [compareTo_eq,Nat.compare_ne_lt,hvalue] at hcompare
      have hbit := value_setBit (Nat.lt_of_succ_le hshift) hlow
      have hsub : (num.sub div).value=num.value-d*2^shift := by
        rw [value_sub (hvalue ▸ hcompare),hvalue]
      have hquotient : num.value/d=(num.value-d*2^shift)/d+2^shift := by
        rw [← Nat.add_mul_div_left _ _ hd,Nat.sub_add_cancel hcompare]
      rw [ih (Nat.le_of_succ_le hshift) (by rw [hsub]; omega) hnext
        (by rw [hbit]; exact Nat.dvd_add hlower (Nat.dvd_refl _)),hbit,hsub,hquotient]
      omega
    · rw [compareTo_eq,not_not,Nat.compare_eq_lt,hvalue] at hcompare
      exact ih (Nat.le_of_succ_le hshift) hcompare hnext hlower

theorem value_div {a b : BaseUint width} (hb : b.value≠0) :
    ∃ quotient, a.div b=some quotient ∧ quotient.value=a.value/b.value := by
  have hzero : b.bits≠0 := by
    rw [bits_eq]
    exact fun he => hb (Nat.size_eq_zero.mp he)
  have hsize : a.value<2^a.value.size := Nat.lt_size_self a.value
  unfold div
  rw [if_neg hzero]
  split_ifs with hbits
  · refine ⟨_,rfl,?_⟩
    rw [bits_eq,bits_eq,Nat.lt_size] at hbits
    rw [value_ofNat,Nat.zero_mod,Nat.div_eq_of_lt (Nat.lt_of_lt_of_le hsize hbits)]
  · refine ⟨_,rfl,?_⟩
    simp only [bits_eq] at hbits hzero ⊢
    have hbound : a.value.size≤32*width := Nat.size_le.mpr a.value_lt
    have hb' : b.value<2^b.value.size := Nat.lt_size_self b.value
    have hlow : 2^(b.value.size-1)≤b.value :=
      Nat.lt_size.mp (Nat.sub_lt (Nat.pos_of_ne_zero hzero) Nat.one_pos)
    have hexp : b.value.size+(a.value.size-b.value.size)=a.value.size := by omega
    have halign : b.value*2^(a.value.size-b.value.size)<2^(32*width) := by
      calc b.value*2^(a.value.size-b.value.size)
          <2^b.value.size*2^(a.value.size-b.value.size) :=
            Nat.mul_lt_mul_of_pos_right hb' (Nat.two_pow_pos _)
        _=2^a.value.size := by rw [← Nat.pow_add,hexp]
        _≤2^(32*width) := Nat.pow_le_pow_right Nat.two_pos hbound
    rw [value_divLoop (Nat.pos_of_ne_zero hb) (by omega)]
    · rw [value_ofNat,Nat.zero_mod,Nat.zero_add]
    · calc a.value<2^a.value.size := hsize
        _=2^(b.value.size-1)*2^(a.value.size-b.value.size+1) := by
            rw [← Nat.pow_add]
            congr 1
            omega
        _≤b.value*2^(a.value.size-b.value.size+1) := Nat.mul_le_mul_right _ hlow
    · intro n hn
      rw [value_shiftLeft,← Nat.succ.inj hn,Nat.mod_eq_of_lt halign]
    · rw [value_ofNat,Nat.zero_mod]
      exact Nat.dvd_zero _

/-- Division by a number that is known not to be zero. -/
def quotient (a b : BaseUint width) (hb : b.value≠0) : BaseUint width :=
  (a.div b).get (by
    obtain ⟨quotient,hdiv,-⟩ := @value_div width a b hb
    rw [hdiv]
    rfl)

@[simp] theorem value_quotient {a b : BaseUint width} (hb : b.value≠0) :
    (a.quotient b hb).value=a.value/b.value := by
  obtain ⟨quotient,hdiv,hvalue⟩ := @value_div width a b hb
  rw [← hvalue]
  simp only [BaseUint.quotient,hdiv,Option.get_some]

theorem toNat_getLow64 : a.getLow64.toNat=a.value%2^64 := by
  have hhigh : ((limb a.pn 1).toUInt64<<<32).toNat=2^32*(limb a.pn 1).toNat := by
    have hlt := (limb a.pn 1).toNat_lt
    rw [UInt64.toNat_shiftLeft,UInt32.toNat_toUInt64,Nat.shiftLeft_eq]
    change (limb a.pn 1).toNat*2^32%2^64=_
    omega
  have hlow := (limb a.pn 0).toNat_lt
  have hsum : a.getLow64.toNat=2^32*(limb a.pn 1).toNat+(limb a.pn 0).toNat := by
    rw [getLow64,UInt64.toNat_or,UInt32.toNat_toUInt64,hhigh,Nat.or_comm,
      Nat.two_pow_add_eq_or_of_lt hlow]
  rw [hsum]
  unfold value limb
  cases a.pn with
  | nil => rfl
  | cons first limbs =>
    cases limbs with
    | nil =>
      have hfirst := first.toNat_lt
      simp only [getD_cons_zero,getD_cons_succ,getD_nil,value_cons,value_nil,UInt32.toNat_zero]
      omega
    | cons second limbs =>
      have hfirst := first.toNat_lt
      have hsecond := second.toNat_lt
      simp only [getD_cons_zero,getD_cons_succ,value_cons]
      omega

end BaseUint

/-- Add a multiple of a number to words, from a carry on. -/
def mulAddLimbs (word : UInt32) : UInt64 → List UInt32 → List UInt32 → List UInt32
  | _,[],_ => []
  | _,limbs,[] => limbs
  | carry,limb::limbs,other::others =>
    let n := carry+limb.toUInt64+word.toUInt64*other.toUInt64
    n.toUInt32::mulAddLimbs word (n>>>32) limbs others

/-- Multiply row by row; a row starts one word higher than the one before. -/
def mulRows (others : List UInt32) : List UInt32 → List UInt32 → List UInt32
  | [],limbs => limbs
  | word::words,limbs =>
    match mulAddLimbs word 0 limbs others with
    | [] => []
    | limb::limbs => limb::mulRows others words limbs

theorem length_mulAddLimbs (word : UInt32) (carry : UInt64) (limbs others : List UInt32) :
    (mulAddLimbs word carry limbs others).length=limbs.length := by
  induction limbs generalizing carry others with
  | nil => rfl
  | cons limb limbs ih =>
    cases others with
    | nil => rfl
    | cons other others => rw [mulAddLimbs,length_cons,ih,length_cons]

theorem value_mulAddLimbs (word : UInt32) (carry : UInt64)
    (hlen : limbs.length≤others.length) (hcarry : carry.toNat<2^32) :
    Limbs.value (mulAddLimbs word carry limbs others)=
      (carry.toNat+Limbs.value limbs+word.toNat*Limbs.value others)%2^(32*limbs.length) := by
  induction limbs generalizing carry others with
  | nil => rw [mulAddLimbs,value_nil,length_nil,Nat.mul_zero,Nat.pow_zero,Nat.mod_one]
  | cons limb limbs ih =>
    cases others with
    | nil => exact absurd hlen (by simp)
    | cons other others =>
      have hn : (carry+limb.toUInt64+word.toUInt64*other.toUInt64).toNat=
          carry.toNat+limb.toNat+word.toNat*other.toNat := by
        have hw := word.toNat_lt
        have hl := limb.toNat_lt
        have ho := other.toNat_lt
        have hproduct : word.toNat*other.toNat≤(2^32-1)*(2^32-1) :=
          Nat.mul_le_mul (by omega) (by omega)
        rw [UInt64.toNat_add,UInt64.toNat_add,UInt64.toNat_mul,UInt32.toNat_toUInt64,
          UInt32.toNat_toUInt64,UInt32.toNat_toUInt64,
          Nat.mod_eq_of_lt (show word.toNat*other.toNat<2^64 by omega),
          Nat.mod_eq_of_lt (show carry.toNat+limb.toNat<2^64 by omega),Nat.mod_eq_of_lt (by omega)]
      have hhigh : ((carry+limb.toUInt64+word.toUInt64*other.toUInt64)>>>32).toNat=
          (carry.toNat+limb.toNat+word.toNat*other.toNat)/2^32 := by
        rw [UInt64.toNat_shiftRight,hn,Nat.shiftRight_eq_div_pow]
        rfl
      have hbound : (carry.toNat+limb.toNat+word.toNat*other.toNat)/2^32<2^32 := by
        have hlt := (carry+limb.toUInt64+word.toUInt64*other.toUInt64).toNat_lt
        rw [hn] at hlt
        omega
      have hsplit : carry.toNat+(limb.toNat+2^32*Limbs.value limbs)+
          word.toNat*(other.toNat+2^32*Limbs.value others)=
          (carry.toNat+limb.toNat+word.toNat*other.toNat)+
            2^32*(Limbs.value limbs+word.toNat*Limbs.value others) := by ring
      rw [mulAddLimbs,value_cons,ih _ (Nat.le_of_succ_le_succ hlen) (hhigh ▸ hbound),hhigh,
        length_cons,two_pow_succ_width,value_cons,value_cons,hsplit,Nat.mod_mul,
        Nat.add_mul_mod_self_left,Nat.add_mul_div_left _ _ (Nat.two_pow_pos 32),
        UInt64.toNat_toUInt32,hn,Nat.add_assoc (_/_)]

theorem value_mulRows {words limbs others : List UInt32} (hwords : words.length=limbs.length)
    (hothers : limbs.length≤others.length) :
    (mulRows others words limbs).length=limbs.length ∧ Limbs.value (mulRows others words limbs)=
        (Limbs.value limbs+Limbs.value words*Limbs.value others)%2^(32*limbs.length) := by
  induction words generalizing limbs with
  | nil =>
    rw [eq_nil_of_length_eq_zero hwords.symm]
    refine ⟨rfl,?_⟩
    rw [mulRows,value_nil,Nat.zero_mul]
    rfl
  | cons word words ih =>
    have hrow := value_mulAddLimbs word 0 hothers (by decide)
    have hlen := length_mulAddLimbs word 0 limbs others
    rw [UInt64.toNat_zero,Nat.zero_add] at hrow
    unfold mulRows
    cases hadd : mulAddLimbs word 0 limbs others with
    | nil =>
      rw [hadd,← hwords] at hlen
      cases hlen
    | cons low rest =>
      rw [hadd,length_cons] at hlen
      rw [length_cons] at hwords
      have hrest := ih (show words.length=rest.length by omega) (by omega)
      refine ⟨by rw [length_cons,hrest.1,hlen],?_⟩
      have hvalue : low.toNat+2^32*(Limbs.value rest+Limbs.value words*Limbs.value others)=
          Limbs.value (low::rest)+2^32*(Limbs.value words*Limbs.value others) := by
        rw [value_cons]
        ring
      have hlow := low.toNat_lt
      have hfold : ∀ n, low.toNat+2^32*(n%2^(32*rest.length))=
          (low.toNat+2^32*n)%(2^32*2^(32*rest.length)) := by
        intro n
        rw [Nat.mod_mul,Nat.add_mul_mod_self_left,Nat.mod_eq_of_lt hlow,
          Nat.add_mul_div_left _ _ (Nat.two_pow_pos 32),Nat.div_eq_of_lt hlow,Nat.zero_add]
      rw [value_cons,hrest.2,hfold,hvalue,← hadd,hrow,← hlen,two_pow_succ_width,value_cons,
        Nat.mod_add_mod]
      congr 1
      ring

namespace BaseUint

variable {width : ℕ}

def mul (a b : BaseUint width) : BaseUint width where
  pn := mulRows b.pn a.pn (ofNat width 0).pn
  length_pn := by
    have hrows := @value_mulRows a.pn (ofNat width 0).pn b.pn
      (a.length_pn.trans (ofNat width 0).length_pn.symm)
      (Nat.le_of_eq ((ofNat width 0).length_pn.trans b.length_pn.symm))
    rw [hrows.1,(ofNat width 0).length_pn]

@[simp] theorem value_mul (a b : BaseUint width) :
    (a.mul b).value=a.value*b.value%2^(32*width) := by
  have hrows := @value_mulRows a.pn (ofNat width 0).pn b.pn
    (a.length_pn.trans (ofNat width 0).length_pn.symm)
    (Nat.le_of_eq ((ofNat width 0).length_pn.trans b.length_pn.symm))
  have hzero : Limbs.value (ofNat width 0).pn=0 := (value_ofNat 0).trans (Nat.zero_mod _)
  rw [hzero,Nat.zero_add,(ofNat width 0).length_pn] at hrows
  exact hrows.2

/-- All bits the other way. -/
def not (a : BaseUint width) : BaseUint width :=
  ⟨a.pn.map (fun limb => ~~~limb),by rw [length_map,a.length_pn]⟩

theorem value_not (a : BaseUint width) : a.not.value=2^(32*width)-1-a.value := by
  have hcomplement := value_complement a.pn
  rw [a.length_pn] at hcomplement
  change a.not.value+a.value+1=2^(32*width) at hcomplement
  omega

@[simp] theorem value_add (a b : BaseUint width) :
    (a.add b).value=(a.value+b.value)%2^(32*width) := by
  have hadd := value_addLimbs (a.length_pn.trans b.length_pn.symm) 0 (by decide)
  rw [a.length_pn,UInt64.toNat_zero,Nat.zero_add] at hadd
  exact hadd

end BaseUint

/-- Operations on integers of 256 bits are those on numbers modulo 2^256. -/
theorem arithmetic_modular (a b : ArithUint256) (b32 : UInt32) (shift : ℕ) :
    (a.mulWord b32).value=a.value*b32.toNat%2^256 ∧ (a.mul b).value=a.value*b.value%2^256 ∧
    (a.shiftLeft shift).value=a.value*2^shift%2^256 ∧ (a.shiftRight shift).value=a.value/2^shift ∧
    a.compareTo b=compare a.value b.value ∧ a.bits=a.value.size ∧
    (a.div b).map BaseUint.value=if b.value=0 then none else some (a.value/b.value) := by
  refine ⟨a.value_mulWord b32,a.value_mul b,a.value_shiftLeft shift,a.value_shiftRight shift,
    a.compareTo_eq b,a.bits_eq,?_⟩
  split_ifs with hzero
  · rw [BaseUint.div,b.bits_eq,hzero,Nat.size_zero,if_pos rfl,Option.map_none]
  · obtain ⟨quotient,hdiv,hvalue⟩ := BaseUint.value_div hzero
    rw [hdiv,Option.map_some,hvalue]

end Pyrk.ArithUint
