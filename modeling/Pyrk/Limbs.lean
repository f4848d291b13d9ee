import Mathlib.Data.Nat.Size
import Mathlib.Data.Nat.Bitwise
import Mathlib.Tactic.Ring

/-!
# Numbers as lists of words

A list of 32-bit words, the lowest first, stands for a number. Bits of the
number are bits of its words, which settles shifts; carries are settled word by
word.
-/

namespace Pyrk.Limbs

open List

/-- Number that a list of words stands for. -/
def value : List UInt32 → ℕ
  | [] => 0
  | limb::limbs => limb.toNat+2^32*value limbs

/-- Word at a position, zero above the list. -/
def limb (limbs : List UInt32) (i : ℕ) : UInt32 := limbs.getD i 0

/-- Words of a number, as many as asked for. -/
def words : ℕ → ℕ → List UInt32
  | 0,_ => []
  | width+1,n => UInt32.ofNat n::words width (n/2^32)

@[simp] theorem value_nil : value []=0 := rfl

@[simp] theorem value_cons (head : UInt32) (limbs : List UInt32) :
    value (head::limbs)=head.toNat+2^32*value limbs := rfl

@[simp] theorem length_words (width n : ℕ) : (words width n).length=width := by
  induction width generalizing n with
  | zero => rfl
  | succ width ih => rw [words,length_cons,ih]

theorem two_pow_succ_width (width : ℕ) : 2^(32*(width+1))=2^32*2^(32*width) := by
  rw [Nat.mul_succ,Nat.pow_add,Nat.mul_comm]

theorem value_lt (limbs : List UInt32) : value limbs<2^(32*limbs.length) := by
  induction limbs with
  | nil => exact Nat.one_pos
  | cons head limbs ih =>
    have hhead := head.toNat_lt
    rw [value_cons,length_cons,two_pow_succ_width]
    omega

/-- A number is cut to the width. -/
theorem value_words (width n : ℕ) : value (words width n)=n%2^(32*width) := by
  induction width generalizing n with
  | zero => rw [words,value_nil,Nat.mul_zero,Nat.pow_zero,Nat.mod_one]
  | succ width ih =>
    rw [words,value_cons,ih,two_pow_succ_width,Nat.mod_mul,UInt32.toNat_ofNat']

/-- Words of one width are known by their value. -/
theorem value_injective {first second : List UInt32} (hlen : first.length=second.length)
    (h : value first=value second) : first=second := by
  induction first generalizing second with
  | nil => exact (eq_nil_of_length_eq_zero hlen.symm).symm
  | cons head limbs ih =>
    cases second with
    | nil => cases hlen
    | cons other rest =>
      have hhead := head.toNat_lt
      have hother := other.toNat_lt
      rw [value_cons,value_cons] at h
      have hword : head=other := UInt32.toNat.inj (by omega)
      have hrest : limbs=rest := ih (Nat.succ.inj hlen) (by omega)
      rw [hword,hrest]

/-- Bits of a number are those of its words. -/
theorem testBit_value (limbs : List UInt32) (i : ℕ) :
    (value limbs).testBit i=(limb limbs (i/32)).toNat.testBit (i%32) := by
  induction limbs generalizing i with
  | nil =>
    rw [value_nil,Nat.zero_testBit,limb,getD_nil]
    exact (Nat.zero_testBit _).symm
  | cons head limbs ih =>
    rw [value_cons,Nat.add_comm,Nat.testBit_two_pow_mul_add _ head.toNat_lt]
    split_ifs with hi
    · rw [Nat.div_eq_of_lt hi,Nat.mod_eq_of_lt hi]
      rfl
    · have hdiv : i/32=(i-32)/32+1 := by omega
      have hmod : i%32=(i-32)%32 := by omega
      rw [ih,hdiv,hmod]
      rfl

theorem limb_map_range (width : ℕ) (f : ℕ → UInt32) (i : ℕ) :
    limb ((List.range width).map f) i=if i<width then f i else 0 := by
  unfold limb
  rw [getD_eq_getElem?_getD,getElem?_map]
  split_ifs with hi
  · rw [getElem?_range hi,Option.map_some,Option.getD_some]
  · rw [getElem?_eq_none (by rw [length_range]; exact Nat.le_of_not_lt hi)]
    rfl

variable {limbs : List UInt32}

theorem limb_modify {n : ℕ} (hn : n<limbs.length) (f : UInt32 → UInt32)
    (i : ℕ) : limb (limbs.modify n f) i=if n=i then f (limb limbs i) else limb limbs i := by
  simp only [limb,getD_eq_getElem?_getD,getElem?_modify]
  split_ifs with hi
  · subst hi
    rw [getElem?_eq_getElem hn]
    rfl
  · cases limbs[i]? <;> rfl

theorem limb_of_length_le {i : ℕ} (h : limbs.length ≤ i) : limb limbs i=0 := by
  rw [limb,getD_eq_getElem?_getD,getElem?_eq_none h,Option.getD_none]

theorem testBit_value_of_length_le {i : ℕ} (h : 32*limbs.length ≤ i) :
    (value limbs).testBit i=false := by
  rw [testBit_value,limb_of_length_le (by omega)]
  exact Nat.zero_testBit _

theorem testBit_shiftRight (word : UInt32) {shift i : ℕ} (hshift : shift<32) :
    (word>>>UInt32.ofNat shift).toNat.testBit i=word.toNat.testBit (shift+i) := by
  have hcount : (UInt32.ofNat shift).toNat%32=shift := by
    rw [UInt32.toNat_ofNat']
    omega
  rw [UInt32.toNat_shiftRight,hcount,Nat.testBit_shiftRight]

theorem testBit_shiftLeft (word : UInt32) {shift i : ℕ} (hshift : shift<32) :
    (word<<<UInt32.ofNat shift).toNat.testBit i=
      (decide (i<32) && decide (shift ≤ i) && word.toNat.testBit (i-shift)) := by
  have hcount : (UInt32.ofNat shift).toNat%32=shift := by
    rw [UInt32.toNat_ofNat']
    omega
  rw [UInt32.toNat_shiftLeft,hcount,Nat.testBit_mod_two_pow,Nat.testBit_shiftLeft,Bool.and_assoc]

end Pyrk.Limbs
