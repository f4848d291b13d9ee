import Pyrk.TransactionEncoding
import Mathlib.Data.Nat.Bitwise

/-!
# Bit sets

Eight bits are packed into a byte, the first one lowest. The mask of the bits that have to be zero
starts at their number instead of the number of the packed ones.
-/

namespace Pyrk.BitSets

open ByteReader ByteCodec UndoData TransactionEncoding List

def orBit (vBytes : List UInt8) (p : ℕ) (bit : Bool) : List UInt8 :=
  vBytes.modify (p/8) (· ||| bit.toUInt8 <<< UInt8.ofNat (p%8))

/-- Pack the bits of a vector into bytes for a number of bits. -/
def writeFixedBitSet (size : ℕ) (vec : List Bool) : List UInt8 :=
  (range (min size vec.length)).foldl (fun vBytes p => orBit vBytes p (vec.getD p false))
    (replicate ((size+7)/8) 0)

/-- Bits of the last byte that must not be set. -/
def paddingMask (rem : ℕ) : UInt8 := 0xff <<< UInt8.ofNat rem

/-- Unpack a number of bits. -/
def readFixedBitSet (size : ℕ) : Reader (List Bool) := do
  let vBytes ← readBytes ((size+7)/8)
  let vec := (range size).map fun p => vBytes.getD (p/8) 0 &&& 1 <<< UInt8.ofNat (p%8) != 0
  if vBytes.length*8≠size ∧
      vBytes.getD (vBytes.length-1) 0 &&& paddingMask (vBytes.length*8-size)≠0 then failure
  else pure vec

/-- Pack the bits of a vector behind their number. -/
def writeDynBitSet (vec : List Bool) : List UInt8 :=
  writeCompactSize vec.length++writeFixedBitSet vec.length vec

/-- Unpack as many bits as are announced. -/
def readDynBitSet : Reader (List Bool) := do readFixedBitSet (← readCompactSize)

/-- Vectors of a size are read from what is written for them, and from nothing else. -/
def OneToOne (read : Reader (List Bool)) (write : List Bool → List UInt8) (size : ℕ) : Prop :=
  (∀ vec, vec.length=size → Reads read (write vec) vec) ∧
    ∀ input vec rest, read.run input=some (vec,rest) → vec.length=size → input=write vec++rest

section Bits

variable {byte other : UInt8} {i : ℕ}

theorem eq_of_bits (h : ∀ i < 8, byte.toNat.testBit i=other.toNat.testBit i) : byte=other := by
  refine UInt8.toNat_inj.mp (Nat.eq_of_testBit_eq fun i => ?_)
  by_cases hi : i < 8
  · exact h i hi
  · have hlarge : ∀ b : UInt8, b.toNat.testBit i=false := fun b => Nat.testBit_lt_two_pow
      (lt_of_lt_of_le b.toNat_lt (Nat.pow_le_pow_right (by decide) (by omega)))
    rw [hlarge,hlarge]

theorem toNat_shift (hi : i < 8) : (byte <<< UInt8.ofNat i).toNat=byte.toNat <<< i%2^8 := by
  rw [UInt8.toNat_shiftLeft,UInt8.toNat_ofNat',Nat.mod_mod_of_dvd _ (by decide),Nat.mod_eq_of_lt hi]

theorem and_paddingMask_eq_zero {rem : ℕ} (hrem : rem < 8) :
    byte &&& paddingMask rem=0 ↔ ∀ i < 8, rem ≤ i → byte.toNat.testBit i=false := by
  have hbit : ∀ i < 8, (byte &&& paddingMask rem).toNat.testBit i=
      (byte.toNat.testBit i && decide (rem ≤ i)) := by
    intro i hi
    have hff : (0xff : UInt8).toNat=2^8-1 := rfl
    rw [UInt8.toNat_and,Nat.testBit_and,paddingMask,toNat_shift hrem,Nat.testBit_mod_two_pow,
      Nat.testBit_shiftLeft,hff,Nat.testBit_two_pow_sub_one]
    simp [hi,show i-rem < 8 by omega]
  constructor
  · intro hzero i hi hle
    have hclear := hbit i hi
    rw [hzero,decide_eq_true hle,Bool.and_true] at hclear
    simpa using hclear.symm
  · intro hclear
    refine eq_of_bits fun i hi => ?_
    rw [hbit i hi]
    by_cases hle : rem ≤ i
    · simp [hclear i hi hle]
    · simp [hle]

theorem and_bit_ne_zero (hi : i < 8) :
    (byte &&& 1 <<< UInt8.ofNat i != 0)=byte.toNat.testBit i := by
  have hone : (1 : UInt8).toNat <<< i%2^8=2^i := by
    rw [UInt8.toNat_one,Nat.one_shiftLeft]
    exact Nat.mod_eq_of_lt (Nat.pow_lt_pow_right (by decide) hi)
  have hand : (byte &&& 1 <<< UInt8.ofNat i).toNat=(byte.toNat.testBit i).toNat*2^i := by
    rw [UInt8.toNat_and,toNat_shift hi,hone,Nat.and_two_pow]
  rw [bne,Bool.eq_iff_iff,Bool.not_eq_true',beq_eq_false_iff_ne,ne_eq,← UInt8.toNat_inj,hand]
  cases byte.toNat.testBit i <;> simp

/-- Bit of a sequence of bytes. -/
def bitAt (vBytes : List UInt8) (p : ℕ) : Bool := (vBytes.getD (p/8) 0).toNat.testBit (p%8)

theorem ext_bitAt {first second : List UInt8} (hlen : first.length=second.length)
    (h : ∀ p < first.length*8, bitAt first p=bitAt second p) : first=second := by
  refine ext_getElem hlen fun k hfirst hsecond => eq_of_bits fun i hi => ?_
  have hbit := h (k*8+i) (by omega)
  unfold bitAt at hbit
  rw [show (k*8+i)/8=k by omega,show (k*8+i)%8=i by omega,getD_eq_getElem _ _ hfirst,
    getD_eq_getElem _ _ hsecond] at hbit
  exact hbit

end Bits

section Packing

variable {size : ℕ} {vec : List Bool}

theorem length_orBit (vBytes : List UInt8) (p : ℕ) (bit : Bool) :
    (orBit vBytes p bit).length=vBytes.length := length_modify ..

theorem length_packed (ps : List ℕ) (vBytes : List UInt8) :
    (ps.foldl (fun vBytes p => orBit vBytes p (vec.getD p false)) vBytes).length=vBytes.length := by
  induction ps generalizing vBytes with
  | nil => rfl
  | cons p ps ih => rw [foldl_cons,ih,length_orBit]

theorem length_writeFixedBitSet : (writeFixedBitSet size vec).length=(size+7)/8 := by
  rw [writeFixedBitSet,length_packed,length_replicate]

theorem bitAt_orBit {vBytes : List UInt8} {n : ℕ} (hn : n/8 < vBytes.length) (bit : Bool)
    (p : ℕ) : bitAt (orBit vBytes n bit) p=(bitAt vBytes p || (decide (p=n) && bit)) := by
  have hbit : (bit.toUInt8).toNat <<< (n%8)%2^8=bit.toNat*2^(n%8) := by
    have hpow := Nat.pow_lt_pow_right (a:=2) (by decide) (Nat.mod_lt n (by decide : 8 > 0))
    cases bit with
    | false =>
      rw [show false.toUInt8.toNat=0 from rfl,Nat.zero_shiftLeft]
      simp
    | true =>
      rw [show true.toUInt8.toNat=1 from rfl,Nat.one_shiftLeft,Nat.mod_eq_of_lt hpow]
      simp
  unfold bitAt orBit
  by_cases hbyte : p/8=n/8
  · rw [hbyte,getD_eq_getElem _ _ (by rw [length_modify]; exact hn),
      getElem_modify_eq,UInt8.toNat_or,Nat.testBit_or,toNat_shift (Nat.mod_lt _ (by decide)),
      hbit,getD_eq_getElem _ _ hn]
    cases bit with
    | false => simp
    | true =>
      have hsame : p=n ↔ n%8=p%8 := by omega
      simp [Nat.testBit_two_pow,hsame]
  · have hp : p≠n := by
      rintro rfl
      exact hbyte rfl
    simp [getD_eq_getElem?_getD,Ne.symm hbyte,hp]

theorem bitAt_writeFixedBitSet (hlen : vec.length=size) (p : ℕ) :
    bitAt (writeFixedBitSet size vec) p=vec.getD p false := by
  suffices h : ∀ n ≤ size, ∀ p, bitAt ((range n).foldl
      (fun vBytes p => orBit vBytes p (vec.getD p false)) (replicate ((size+7)/8) 0)) p=
      (decide (p < n) && vec.getD p false) by
    unfold writeFixedBitSet
    rw [hlen,Nat.min_self,h size le_rfl p]
    by_cases hp : p < size
    · simp [hp]
    · simp [hp,show vec.length≤p by omega]
  intro n
  induction n with
  | zero =>
    intro _ p
    simp [bitAt]
  | succ n ih =>
    intro hn p
    have hbefore := ih (by omega) p
    rw [range_succ,foldl_append,foldl_cons,foldl_nil]
    rw [bitAt_orBit (by rw [length_packed,length_replicate]; omega),hbefore]
    by_cases hp : p=n
    · rw [hp]
      simp
    · have hlt : decide (p < n+1)=decide (p < n) := decide_eq_decide.mpr (by omega)
      rw [hlt,decide_eq_false hp,Bool.false_and,Bool.or_false]

theorem refused_iff {vBytes : List UInt8} (hlen : vBytes.length=(size+7)/8) :
    (vBytes.length*8≠size ∧
      vBytes.getD (vBytes.length-1) 0 &&& paddingMask (vBytes.length*8-size)≠0) ↔
    size%8≠0 ∧ ∃ i < 8, 8-size%8 ≤ i ∧ bitAt vBytes (size/8*8+i)=true := by
  have hfree : vBytes.length*8≠size ↔ size%8≠0 := by omega
  rw [hfree]
  refine and_congr_right fun hrest => ?_
  rw [ne_eq,and_paddingMask_eq_zero (by omega),show vBytes.length*8-size=8-size%8 by omega,
    show vBytes.length-1=size/8 by omega]
  push Not
  refine exists_congr fun i => and_congr_right fun hi => and_congr_right fun _ => ?_
  rw [bitAt,show (size/8*8+i)/8=size/8 by omega,show (size/8*8+i)%8=i by omega,Bool.ne_false_iff]

theorem readFixedBitSet_iff {input rest : List UInt8} :
    (readFixedBitSet size).run input=some (vec,rest) ↔ ∃ vBytes, vBytes.length=(size+7)/8 ∧
      input=vBytes++rest ∧ vec=(range size).map (bitAt vBytes) ∧
      ¬(size%8≠0 ∧ ∃ i < 8, 8-size%8 ≤ i ∧ bitAt vBytes (size/8*8+i)=true) := by
  have hbits : ∀ vBytes : List UInt8, ((range size).map fun p =>
      vBytes.getD (p/8) 0 &&& 1 <<< UInt8.ofNat (p%8) != 0)=(range size).map (bitAt vBytes) :=
    fun vBytes => map_congr_left fun p _ => and_bit_ne_zero (Nat.mod_lt p (by decide))
  constructor
  · intro hrun
    obtain ⟨vBytes,behind,hbytes,hnext⟩ := run_bind_eq_some hrun
    obtain ⟨hlen,hinput⟩ := (codec_readBytes _).writes _ _ _ hbytes
    rw [hbits] at hnext
    split_ifs at hnext with hrefused
    · cases hnext
    · cases hnext
      exact ⟨vBytes,hlen,hinput,rfl,fun hrest => hrefused ((refused_iff hlen).mpr hrest)⟩
  · rintro ⟨vBytes,hlen,rfl,rfl,hrest⟩
    unfold readFixedBitSet
    rw [StateT.run_bind,(codec_readBytes _).reads vBytes hlen rest]
    dsimp only [Option.bind_eq_bind,Option.bind_some]
    rw [hbits,if_neg fun hrefused => hrest ((refused_iff hlen).mp hrefused)]
    rfl

theorem map_bitAt_write (hlen : vec.length=size) :
    (range size).map (bitAt (writeFixedBitSet size vec))=vec := by
  refine ext_getElem (by simp [hlen]) fun p _ hp => ?_
  rw [getElem_map,getElem_range,bitAt_writeFixedBitSet hlen,getD_eq_getElem _ _ hp]

theorem oneToOne_of_half (hsize : size%4=0) :
    OneToOne (readFixedBitSet size) (writeFixedBitSet size) size := by
  constructor
  · intro vec hlen rest
    refine readFixedBitSet_iff.mpr ⟨_,length_writeFixedBitSet,rfl,(map_bitAt_write hlen).symm,?_⟩
    rintro ⟨hrest,i,hi,hle,hset⟩
    rw [bitAt_writeFixedBitSet hlen,getD_eq_default _ _ (by omega)] at hset
    cases hset
  · intro input vec rest hrun hlen
    obtain ⟨vBytes,hbytes,rfl,rfl,hrest⟩ := readFixedBitSet_iff.mp hrun
    refine congrArg (·++rest) (ext_bitAt (by rw [hbytes,length_writeFixedBitSet]) fun p hp => ?_)
    rw [bitAt_writeFixedBitSet hlen]
    by_cases hin : p < size
    · simp [hin]
    · rw [getD_eq_default _ _ (by omega),Bool.eq_false_iff]
      intro hset
      refine hrest ⟨by omega,p%8,by omega,by omega,?_⟩
      rwa [show size/8*8+p%8=p by omega]

theorem not_oneToOne_of_low (hlow : 0 < size%8) (hhalf : size%8 < 4) :
    ¬OneToOne (readFixedBitSet size) (writeFixedBitSet size) size := by
  intro hone
  have hlen : (replicate size false).length=size := length_replicate
  have hbit : ∀ p, bitAt (orBit (writeFixedBitSet size (replicate size false)) size true) p=
      ((replicate size false).getD p false || (decide (p=size) && true)) := by
    intro p
    rw [bitAt_orBit (by rw [length_writeFixedBitSet]; omega),bitAt_writeFixedBitSet hlen]
  have hbytes := hone.2 _ ((range size).map (bitAt _)) [] (readFixedBitSet_iff.mpr
    ⟨orBit (writeFixedBitSet size (replicate size false)) size true,
      by rw [length_orBit,length_writeFixedBitSet],rfl,rfl,?_⟩) (by simp)
  · have hsame : (range size).map (bitAt
        (orBit (writeFixedBitSet size (replicate size false)) size true))=
        replicate size false := by
      refine ext_getElem (by simp) fun p _ hp => ?_
      rw [length_replicate] at hp
      simp [hbit,Nat.ne_of_lt hp]
    rw [hsame] at hbytes
    have hset := hbit size
    rw [append_cancel_right hbytes,bitAt_writeFixedBitSet hlen] at hset
    simp at hset
  · rintro ⟨-,i,hi,hle,hset⟩
    rw [hbit] at hset
    simp at hset
    omega

theorem not_oneToOne_of_high (hhigh : 4 < size%8) :
    ¬OneToOne (readFixedBitSet size) (writeFixedBitSet size) size := by
  intro hone
  have hlen : (replicate (size-1) false++[true]).length=size := by
    rw [length_append,length_replicate,length_singleton]
    omega
  obtain ⟨vBytes,hbytes,hinput,-,hrest⟩ := readFixedBitSet_iff.mp (hone.1 _ hlen [])
  refine hrest ⟨by omega,size%8-1,by omega,by omega,?_⟩
  rw [← append_cancel_right hinput,bitAt_writeFixedBitSet hlen,
    show size/8*8+(size%8-1)=size-1 by omega]
  simp

theorem fixedBitSet_iff : OneToOne (readFixedBitSet size) (writeFixedBitSet size) size ↔
    size%4=0 := by
  refine ⟨fun hone => ?_,oneToOne_of_half⟩
  by_contra hsize
  by_cases hhalf : size%8 < 4
  · exact not_oneToOne_of_low (by omega) hhalf hone
  · exact not_oneToOne_of_high (by omega) hone

theorem dynBitSet_iff (hsize : size ≤ maxSize) : OneToOne readDynBitSet writeDynBitSet size ↔
    OneToOne (readFixedBitSet size) (writeFixedBitSet size) size := by
  have hrun : ∀ input, readDynBitSet.run (writeCompactSize size++input)=
      (readFixedBitSet size).run input := by
    intro input
    unfold readDynBitSet
    rw [StateT.run_bind,codec_readCompactSize.reads size hsize input]
    rfl
  constructor
  · intro hone
    constructor
    · intro vec hlen rest
      have hread := hone.1 vec hlen rest
      rwa [writeDynBitSet,hlen,append_assoc,hrun] at hread
    · intro input vec rest hread hlen
      have hinput := hone.2 (writeCompactSize size++input) vec rest (by rw [hrun,hread]) hlen
      rw [writeDynBitSet,hlen,append_assoc] at hinput
      exact append_cancel_left hinput
  · intro hone
    constructor
    · intro vec hlen rest
      rw [writeDynBitSet,hlen,append_assoc,hrun]
      exact hone.1 vec hlen rest
    · intro input vec rest hread hlen
      obtain ⟨nSize,behind,hcount,hnext⟩ := run_bind_eq_some hread
      obtain ⟨-,rfl⟩ := codec_readCompactSize.writes _ _ _ hcount
      have hcounted : nSize=size := by
        obtain ⟨_,-,-,hvec,-⟩ := readFixedBitSet_iff.mp hnext
        rw [← hlen,hvec,length_map,length_range]
      rw [hcounted] at hnext ⊢
      rw [writeDynBitSet,hlen,append_assoc,hone.2 behind vec rest hnext hlen]

end Packing

/-- Bit sets of a size are encoded one to one exactly if the size is divisible by four. -/
theorem bitSets_oneToOne_iff (size : ℕ) (hsize : size < maxSize) :
    (OneToOne readDynBitSet writeDynBitSet size ↔ size%4=0) ∧
      (OneToOne (readFixedBitSet size) (writeFixedBitSet size) size ↔ size%4=0) :=
  ⟨(dynBitSet_iff hsize.le).trans fixedBitSet_iff,fixedBitSet_iff⟩

/-- The vectors of a quorum of 400 are encoded one to one. -/
theorem bitSets_oneToOne_quorum : OneToOne readDynBitSet writeDynBitSet 400 :=
  (bitSets_oneToOne_iff 400 (by decide)).1.mpr rfl

/-- The vectors of a quorum of 50 are not: six bits are free, and two of them are checked. -/
theorem bitSets_malleable : ¬∀ size < maxSize, OneToOne readDynBitSet writeDynBitSet size :=
  fun hone => not_oneToOne_of_low (by decide : 0 < 50%8) (by decide)
    ((dynBitSet_iff (by decide)).mp (hone 50 (by decide)))

end Pyrk.BitSets
