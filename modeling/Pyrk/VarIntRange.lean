import Pyrk.TransactionEncoding

/-!
# Range of numbers without a fixed width

Digits to the base 128 denote each number in one way, but the reader keeps it in an integer of some
bits and does not notice when it does not fit.
-/

namespace Pyrk.VarIntRange

open UndoData TransactionEncoding List

/-- Count of the digits of a number. -/
def getSizeOfVarInt (n : ℕ) : ℕ := if _h : n≤0x7f then 1 else getSizeOfVarInt (n/128-1)+1
termination_by n
decreasing_by omega

/-- Number that digits denote after others, of any size. -/
def varIntNumber : ℕ → List UInt8 → Option (ℕ×List UInt8)
  | _,[] => none
  | n,chData::rest =>
    if 128 ≤ chData.toNat then varIntNumber (n*128+chData.toNat%128+1) rest
    else some (n*128+chData.toNat%128,rest)

theorem length_varIntDigits (last : Bool) (n : ℕ) :
    (varIntDigits last n).length=getSizeOfVarInt n := by
  induction n using Nat.strong_induction_on generalizing last with
  | _ n ih =>
    rw [varIntDigits,getSizeOfVarInt]
    split_ifs
    · rfl
    · rw [length_append,ih (n/128-1) (by omega),length_singleton]

theorem getSizeOfVarInt_le {n size : ℕ} (hn : n<128^(size+1)) : getSizeOfVarInt n ≤ size+1 := by
  induction size generalizing n with
  | zero => rw [getSizeOfVarInt,dif_pos (by omega)]
  | succ size ih =>
    rw [getSizeOfVarInt]
    split_ifs
    · omega
    · rw [pow_succ] at hn
      exact Nat.succ_le_succ (ih (by omega))

theorem readVarIntLoop_eq (bits n : ℕ) (input : List UInt8) :
    readVarIntLoop bits (n%2^bits) input=
      (varIntNumber n input).map (fun found => (found.1%2^bits,found.2)) := by
  induction input generalizing n with
  | nil => rfl
  | cons chData input ih =>
    have hdigit : (n%2^bits*128+chData.toNat%128)%2^bits=(n*128+chData.toNat%128)%2^bits := by
      rw [Nat.add_mod,Nat.mod_mul_mod,← Nat.add_mod]
    rw [readVarIntLoop,varIntNumber]
    rw [hdigit]
    split_ifs
    · rw [Nat.mod_add_mod]
      exact ih _
    · rfl

/-- Marked digits in front of a number's last ones. -/
def digitsBefore (n : ℕ) : List UInt8 := if n=0 then [] else varIntDigits false (n-1)

theorem varIntDigits_digit (last : Bool) (n : ℕ) {digit : ℕ} (hdigit : digit<128) :
    varIntDigits last (n*128+digit)=digitsBefore n++[varIntDigit last digit] := by
  have hlast : varIntDigit last (n*128+digit)=varIntDigit last digit := by
    rw [varIntDigit,varIntDigit,Nat.mul_add_mod']
  rw [varIntDigits,digitsBefore,hlast]
  rcases Nat.eq_zero_or_pos n with rfl | hpos
  · rw [dif_pos (by omega),if_pos rfl,nil_append]
  · rw [dif_neg (by omega),if_neg (by omega),show (n*128+digit)/128-1=n-1 by omega]

theorem digits_of_varIntNumber {n m : ℕ} {input rest : List UInt8}
    (h : varIntNumber n input=some (m,rest)) : digitsBefore n++input=writeVarInt m++rest := by
  induction input generalizing n with
  | nil => cases h
  | cons chData input ih =>
    have hdigit : chData.toNat%128<128 := Nat.mod_lt _ (by decide)
    have hbyte := chData.toNat_lt
    rw [varIntNumber] at h
    split_ifs at h with hmarked
    · have hrest := ih h
      rw [digitsBefore,if_neg (Nat.succ_ne_zero _),Nat.add_sub_cancel,varIntDigits_digit _ _ hdigit,
        append_assoc] at hrest
      rw [← hrest]
      congr 2
      refine UInt8.toNat_inj.mp ?_
      rw [toNat_varIntDigit_marked]
      omega
    · cases h
      rw [writeVarInt,varIntDigits_digit _ _ hdigit,append_assoc]
      congr 2
      refine UInt8.toNat_inj.mp ?_
      rw [toNat_varIntDigit_last]
      omega

theorem varIntNumber_writeVarInt (n : ℕ) (rest : List UInt8) :
    varIntNumber 0 (writeVarInt n++rest)=some (n,rest) := by
  have hread {bits : ℕ} (hn : n<2^bits) : (varIntNumber 0 (writeVarInt n++rest)).map
      (fun found => (found.1%2^bits,found.2))=some (n,rest) := by
    rw [← readVarIntLoop_eq,Nat.zero_mod]
    exact reads_readVarInt hn rest
  have hself (k : ℕ) : k<2^k := Nat.lt_two_pow_self
  obtain ⟨found,hfound,-⟩ := Option.map_eq_some_iff.mp (hread (hself n))
  -- enough bits for both numbers
  have hboth := hread ((hself (n+found.1)).trans_le' (Nat.le_add_right n found.1))
  rw [hfound,Option.map_some,Nat.mod_eq_of_lt ((hself (n+found.1)).trans_le' (by omega))] at hboth
  exact hfound.trans hboth

/-- Numbers are written with the announced count of digits and read back. Bytes that are read are
those that are written exactly if their number fits. -/
theorem varInt_canonical_iff {bits : ℕ} (hbits : 0<bits) :
    (∀ n<2^bits, (writeVarInt n).length=getSizeOfVarInt n ∧ getSizeOfVarInt n≤(bits+6)/7 ∧
      ∀ rest, (readVarInt bits).run (writeVarInt n++rest)=some (n,rest)) ∧
    (∀ input n rest, (readVarInt bits).run input=some (n,rest) →
      (input=writeVarInt n++rest ↔ ∃ m<2^bits, varIntNumber 0 input=some (m,rest))) ∧
    ∀ input n rest, readCompactSize.run input=some (n,rest) → input=writeCompactSize n++rest := by
  refine ⟨fun n hn => ⟨length_varIntDigits true n,?_,reads_readVarInt hn⟩,?_,
    fun input n rest hrun => (codec_readCompactSize.writes input n rest hrun).2⟩
  · have hsize : (bits+6)/7=(bits-1)/7+1 := by omega
    rw [hsize]
    refine getSizeOfVarInt_le (hn.trans_le ?_)
    rw [show 128=2^7 by rfl,← pow_mul]
    exact Nat.pow_le_pow_right Nat.two_pos (by omega)
  · intro input n rest hrun
    have hloop : readVarIntLoop bits (0%2^bits) input=some (n,rest) := by
      rw [Nat.zero_mod]
      exact hrun
    rw [readVarIntLoop_eq] at hloop
    obtain ⟨⟨m,behind⟩,hnumber,hpair⟩ := Option.map_eq_some_iff.mp hloop
    obtain ⟨rfl,rfl⟩ := Prod.mk.inj hpair
    constructor
    · intro hinput
      have hsame := hinput ▸ varIntNumber_writeVarInt (m%2^bits) behind
      exact ⟨_,Nat.mod_lt _ (Nat.two_pow_pos bits),hsame⟩
    · rintro ⟨other,hother,hsame⟩
      cases hnumber.symm.trans hsame
      rw [Nat.mod_eq_of_lt hother]
      exact digits_of_varIntNumber hnumber

theorem varInt_canonical_two : (readVarInt 64).run (writeVarInt 2)=some (2,[]) := by
  have hread := ((@varInt_canonical_iff 64 (by decide)).1 2 (by decide)).2.2 []
  rwa [append_nil] at hread

/-- The bytes of the number 2^32 are read as zero into an integer of 32 bits. -/
theorem varInt_wraps :
    (readVarInt 32).run [0x8e,0xfe,0xfe,0xff,0x00]=some (0,[]) ∧
      [0x8e,0xfe,0xfe,0xff,0x00]≠writeVarInt 0++[] := by
  refine ⟨by decide,fun he => ?_⟩
  have hlen := congrArg List.length he
  rw [append_nil,writeVarInt,length_varIntDigits,getSizeOfVarInt,dif_pos (by decide)] at hlen
  exact absurd hlen (by decide)

end Pyrk.VarIntRange
