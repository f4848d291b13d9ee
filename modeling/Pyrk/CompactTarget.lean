import Pyrk.ArithUint

/-!
# Compact targets

Headers hold targets in 32 bits: a length in bytes, a sign bit and the highest bits of the number.
Encoding cuts off what is behind.
-/

namespace Pyrk.CompactTarget

open ArithUint BaseUint

variable (nCompact : UInt32)

/-- Target of a compact number; the sign bit is ignored. -/
def setCompact : ArithUint256 :=
  let nSize := (nCompact>>>24).toNat
  let nWord := nCompact &&& 0x007fffff
  if nSize≤3 then ofNat 8 (nWord>>>UInt32.ofNat (8*(3-nSize))).toNat
  else (ofNat 8 nWord.toNat).shiftLeft (8*(nSize-3))

/-- The word that the flags of a compact number are about. -/
def compactWord : UInt32 :=
  let nSize := (nCompact>>>24).toNat
  let nWord := nCompact &&& 0x007fffff
  if nSize≤3 then nWord>>>UInt32.ofNat (8*(3-nSize)) else nWord

def compactNegative : Bool :=
  compactWord nCompact≠0 && nCompact &&& 0x00800000≠0

/-- Whether a compact number needs more than 256 bits. -/
def compactOverflow : Bool :=
  let nSize := (nCompact>>>24).toNat
  let nWord := compactWord nCompact
  nWord≠0 && (decide (34<nSize) || (decide (0xff<nWord) && decide (33<nSize)) ||
    (decide (0xffff<nWord) && decide (32<nSize)))

variable (a : ArithUint256)

/-- Length in bytes and highest bytes of a target, one byte less where these would set the sign. -/
def compactParts : ℕ×UInt32 :=
  let nSize := (a.bits+7)/8
  let nCompact := if nSize≤3 then (a.getLow64<<<UInt64.ofNat (8*(3-nSize))).toUInt32
    else (a.shiftRight (8*(nSize-3))).getLow64.toUInt32
  if nCompact &&& 0x00800000≠0 then (nSize+1,nCompact>>>8) else (nSize,nCompact)

/-- Compact number of a target. -/
def getCompact : UInt32 :=
  (compactParts a).2 ||| UInt32.ofNat (compactParts a).1<<<24

variable (v : ℕ)

/-- Length and highest bytes of a number. -/
def parts : ℕ×ℕ :=
  let size := (v.size+7)/8
  let word := if size≤3 then v*2^(8*(3-size)) else v/2^(8*(size-3))
  if word<2^23 then (size,word) else (size+1,word/2^8)

def encode : ℕ := (parts v).2+2^24*(parts v).1

def decode (n : ℕ) : ℕ :=
  if n/2^24≤3 then n%2^23/2^(8*(3-n/2^24)) else n%2^23*2^(8*(n/2^24-3))

theorem word_lt :
    (if (v.size+7)/8≤3 then v*2^(8*(3-(v.size+7)/8)) else v/2^(8*((v.size+7)/8-3)))<2^24 := by
  have hsize : v<2^(8*((v.size+7)/8)) :=
    Nat.lt_of_lt_of_le (Nat.lt_size_self v) (Nat.pow_le_pow_right Nat.two_pos (by omega))
  split_ifs with hshort
  · calc v*2^(8*(3-(v.size+7)/8))
        <2^(8*((v.size+7)/8))*2^(8*(3-(v.size+7)/8)) :=
          Nat.mul_lt_mul_of_pos_right hsize (Nat.two_pow_pos _)
      _=2^24 := by
          rw [← Nat.pow_add]
          congr 1
          omega
  · rw [Nat.div_lt_iff_lt_mul (Nat.two_pow_pos _),← Nat.pow_add]
    rwa [show 24+8*((v.size+7)/8-3)=8*((v.size+7)/8) by omega]

theorem parts_word_lt : (parts v).2<2^23 := by
  have hword := word_lt v
  unfold parts
  dsimp only
  split_ifs at hword ⊢ <;> dsimp only <;> omega

theorem parts_size_le {v : ℕ} (h : v<2^256) : (parts v).1≤33 := by
  have hsize : v.size≤256 := Nat.size_le.mpr h
  unfold parts
  dsimp only
  split_ifs <;> dsimp only <;> omega

theorem toNat_compactSize : (nCompact>>>24).toNat=nCompact.toNat/2^24 := by
  rw [UInt32.toNat_shiftRight,Nat.shiftRight_eq_div_pow]
  rfl

theorem toNat_compactMantissa : (nCompact &&& 0x007fffff).toNat=nCompact.toNat%2^23 := by
  rw [UInt32.toNat_and]
  exact Nat.and_two_pow_sub_one_eq_mod nCompact.toNat 23

theorem value_setCompact : (setCompact nCompact).value=decode nCompact.toNat%2^256 := by
  have hsize := toNat_compactSize nCompact
  have hword := toNat_compactMantissa nCompact
  unfold setCompact decode
  dsimp only
  rw [hsize]
  split_ifs with hshort
  · have hcount : (UInt32.ofNat (8*(3-nCompact.toNat/2^24))).toNat%32=
        8*(3-nCompact.toNat/2^24) := by
      rw [UInt32.toNat_ofNat']
      omega
    rw [value_ofNat,UInt32.toNat_shiftRight,hcount,hword,Nat.shiftRight_eq_div_pow]
  · rw [value_shiftLeft,value_ofNat,hword,Nat.mod_eq_of_lt
      (show nCompact.toNat%2^23<2^(32*8) by omega)]

theorem compactParts_eq :
    (compactParts a).1=(parts a.value).1 ∧ (compactParts a).2.toNat=(parts a.value).2 := by
  have hword := word_lt a.value
  have hraw : (if (a.bits+7)/8≤3 then
      (a.getLow64<<<UInt64.ofNat (8*(3-(a.bits+7)/8))).toUInt32
      else (a.shiftRight (8*((a.bits+7)/8-3))).getLow64.toUInt32).toNat=
      if (a.value.size+7)/8≤3 then a.value*2^(8*(3-(a.value.size+7)/8))
      else a.value/2^(8*((a.value.size+7)/8-3)) := by
    rw [bits_eq]
    split_ifs at hword ⊢ with hshort
    · have hcount : (UInt64.ofNat (8*(3-(a.value.size+7)/8))).toNat%64=
          8*(3-(a.value.size+7)/8) := by
        rw [UInt64.toNat_ofNat']
        omega
      have hsmall : a.value<2^64 := by
        have hsize := Nat.lt_size_self a.value
        exact Nat.lt_of_lt_of_le hsize (Nat.pow_le_pow_right Nat.two_pos (by omega))
      rw [UInt64.toNat_toUInt32,UInt64.toNat_shiftLeft,hcount,toNat_getLow64,
        Nat.mod_eq_of_lt hsmall,Nat.shiftLeft_eq]
      omega
    · rw [UInt64.toNat_toUInt32,toNat_getLow64,value_shiftRight,
        Nat.mod_eq_of_lt (Nat.lt_trans hword (by decide)),
        Nat.mod_eq_of_lt (Nat.lt_trans hword (by decide))]
  have hsign : ∀ word : UInt32, word.toNat<2^24 → (word &&& 0x00800000≠0 ↔ ¬word.toNat<2^23) := by
    intro word hlt
    refine (and_one_shiftLeft_ne_zero word (show 23<32 by decide)).trans ?_
    constructor
    · exact fun hbit => Nat.not_lt.mpr (Nat.ge_two_pow_of_testBit hbit)
    · intro hge
      rw [Nat.testBit_eq_decide_div_mod_eq,decide_eq_true_eq]
      omega
  unfold compactParts parts
  dsimp only
  rw [← hraw] at hword ⊢
  rw [bits_eq] at hword ⊢
  simp only [hsign _ hword]
  split_ifs with hshort hlow hlow
  all_goals
    try rw [UInt32.toNat_shiftRight,Nat.shiftRight_eq_div_pow]
    exact ⟨rfl,rfl⟩

theorem toNat_getCompact : (getCompact a).toNat=encode a.value := by
  obtain ⟨hsize,hword⟩ := compactParts_eq a
  have hbound := parts_size_le a.value_lt
  have hlow := parts_word_lt a.value
  have hhigh : (UInt32.ofNat (compactParts a).1<<<24).toNat=2^24*(parts a.value).1 := by
    rw [hsize,UInt32.toNat_shiftLeft,UInt32.toNat_ofNat',Nat.shiftLeft_eq]
    change (parts a.value).1%2^32*2^24%2^32=_
    omega
  unfold getCompact encode
  rw [UInt32.toNat_or,hhigh,hword,Nat.or_comm,← Nat.two_pow_add_eq_or_of_lt (by omega),Nat.add_comm]

theorem encode_div : encode v/2^24=(parts v).1 := by
  have hword := parts_word_lt v
  unfold encode
  omega

theorem encode_mod : encode v%2^23=(parts v).2 := by
  have hword := parts_word_lt v
  unfold encode
  omega

/-- Decoding what was encoded gives the number without its lowest bytes. -/
theorem decode_encode : decode (encode v)=v/2^(8*((parts v).1-3))*2^(8*((parts v).1-3)) := by
  unfold decode
  rw [encode_div,encode_mod]
  by_cases hshort : (v.size+7)/8≤3
  · by_cases hlow : v*2^(8*(3-(v.size+7)/8))<2^23
    · have hparts : parts v=((v.size+7)/8,v*2^(8*(3-(v.size+7)/8))) := by
        simp only [parts,if_pos hshort,if_pos hlow]
      rw [hparts]
      rw [if_pos hshort,Nat.mul_div_cancel _ (Nat.two_pow_pos _),
        Nat.sub_eq_zero_of_le hshort,Nat.mul_zero,Nat.pow_zero,Nat.div_one,Nat.mul_one]
    · have hparts : parts v=((v.size+7)/8+1,v*2^(8*(3-(v.size+7)/8))/2^8) := by
        simp only [parts,if_pos hshort,if_neg hlow]
      rw [hparts]
      dsimp only
      by_cases hthree : (v.size+7)/8=3
      · rw [hthree,if_neg (by decide),Nat.sub_self,Nat.mul_zero,Nat.pow_zero,Nat.mul_one]
      · have hexp : 8*(3-(v.size+7)/8)=8+8*(3-((v.size+7)/8+1)) := by omega
        rw [if_pos (by omega),Nat.div_div_eq_div_mul,← Nat.pow_add,hexp,
          Nat.mul_div_cancel _ (Nat.two_pow_pos _),
          Nat.sub_eq_zero_of_le (show (v.size+7)/8+1≤3 by omega),Nat.mul_zero,Nat.pow_zero,
          Nat.div_one,Nat.mul_one]
  · by_cases hlow : v/2^(8*((v.size+7)/8-3))<2^23
    · have hparts : parts v=((v.size+7)/8,v/2^(8*((v.size+7)/8-3))) := by
        simp only [parts,if_neg hshort,if_pos hlow]
      rw [hparts]
      rw [if_neg hshort]
    · have hparts : parts v=((v.size+7)/8+1,v/2^(8*((v.size+7)/8-3))/2^8) := by
        simp only [parts,if_neg hshort,if_neg hlow]
      rw [hparts]
      rw [if_neg (by omega),Nat.div_div_eq_div_mul,← Nat.pow_add,
        show 8*((v.size+7)/8-3)+8=8*((v.size+7)/8+1-3) by omega]

theorem decode_encode_le : decode (encode v)≤v := by
  rw [decode_encode]
  exact Nat.div_mul_le_self _ _

theorem lt_decode_encode : v<decode (encode v)+2^(8*((parts v).1-3)) := by
  rw [decode_encode]
  exact Nat.lt_div_mul_add (Nat.two_pow_pos _)

theorem parts_word_ge {v : ℕ} (h : 3<(parts v).1) : 2^15≤(parts v).2 := by
  by_cases hshort : (v.size+7)/8≤3
  · by_cases hlow : v*2^(8*(3-(v.size+7)/8))<2^23
    · simp only [parts,if_pos hshort,if_pos hlow] at h
      exact absurd h (Nat.not_lt.mpr hshort)
    · simp only [parts,if_pos hshort,if_neg hlow]
      omega
  · by_cases hlow : v/2^(8*((v.size+7)/8-3))<2^23
    · have hsize : 2^(8*((v.size+7)/8-1))≤v := Nat.lt_size.mp (by omega)
      simp only [parts,if_neg hshort,if_pos hlow]
      rw [Nat.le_div_iff_mul_le (Nat.two_pow_pos _),← Nat.pow_add]
      exact Nat.le_trans (Nat.pow_le_pow_right Nat.two_pos (by omega)) hsize
    · simp only [parts,if_neg hshort,if_neg hlow]
      omega

theorem value_setCompact_getCompact :
    (setCompact (getCompact a)).value=decode (encode a.value) := by
  rw [value_setCompact,toNat_getCompact,Nat.mod_eq_of_lt]
  exact Nat.lt_of_le_of_lt (decode_encode_le a.value) a.value_lt

theorem compactNegative_getCompact : compactNegative (getCompact a)=false := by
  have hsign : getCompact a &&& 0x00800000=0 := by
    refine UInt32.toNat_inj.mp ?_
    have hword := parts_word_lt a.value
    rw [UInt32.toNat_and,toNat_getCompact]
    change encode a.value &&& 2^23=0
    rw [Nat.and_two_pow,Nat.testBit_eq_decide_div_mod_eq,
      show encode a.value/2^23=2*(parts a.value).1 by unfold encode; omega,Nat.mul_mod_right]
    rfl
  unfold compactNegative
  rw [hsign]
  simp

theorem compactOverflow_iff : compactOverflow nCompact=true ↔ 2^256≤decode nCompact.toNat := by
  have hword := toNat_compactMantissa nCompact
  have hlt : nCompact.toNat%2^23<2^23 := Nat.mod_lt _ (by decide)
  unfold compactOverflow compactWord decode
  dsimp only
  rw [toNat_compactSize]
  split_ifs with hshort
  · have hsmall := Nat.div_le_self (nCompact.toNat%2^23) (2^(8*(3-nCompact.toNat/2^24)))
    simp only [show ¬34<nCompact.toNat/2^24 by omega,show ¬33<nCompact.toNat/2^24 by omega,
      show ¬32<nCompact.toNat/2^24 by omega,decide_false,Bool.and_false,Bool.or_false,
      Bool.false_eq_true,false_iff]
    omega
  · simp only [Bool.and_eq_true,Bool.or_eq_true,decide_eq_true_eq,ne_eq,← UInt32.toNat_inj,
      UInt32.lt_iff_toNat_lt,hword]
    generalize nCompact.toNat%2^23=word at hlt ⊢
    generalize nCompact.toNat/2^24=size at hshort ⊢
    change (¬word=0 ∧ ((34 < size ∨ 255<word ∧ 33 < size) ∨ 65535<word ∧ 32 < size)) ↔ _
    by_cases hhuge : 34 < size
    · have hpow : 2^256≤2^(8*(size-3)) := Nat.pow_le_pow_right Nat.two_pos (by omega)
      rcases Nat.eq_zero_or_pos word with rfl | hpos
      · simp
      · have hle := hpow.trans (Nat.le_mul_of_pos_left _ hpos)
        exact ⟨fun _ => hle,fun _ => ⟨by omega,Or.inl (Or.inl hhuge)⟩⟩
    · by_cases hfits : size≤32
      · have hpow : 2^(8*(size-3))≤2^232 := Nat.pow_le_pow_right Nat.two_pos (by omega)
        have hprod := Nat.mul_le_mul hlt.le hpow
        omega
      · obtain rfl | rfl : size=33 ∨ size=34 := by omega
        all_goals
          omega

theorem compactOverflow_getCompact : compactOverflow (getCompact a)=false := by
  rw [← Bool.not_eq_true,compactOverflow_iff,toNat_getCompact]
  have hle := decode_encode_le a.value
  have hlt : a.value<2^256 := a.value_lt
  omega

end Pyrk.CompactTarget
