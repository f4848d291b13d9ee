import Pyrk.DuplicateCoins

/-!
# Numbers of scripts

Numbers have their lowest byte first and their sign in the highest bit, with one more byte where
this bit is taken.
-/

namespace Pyrk.ScriptNum

open Script UndoData ConnectBlock DuplicateCoins List

/-- Bytes of a number; those of its amount leave room for the sign in the last one. -/
def serialize (value : ℤ) : List UInt8 :=
  match (scriptNumBytes value.natAbs).getLast? with
  | none => []
  | some back =>
    if value<0 then (scriptNumBytes value.natAbs).dropLast++[back ||| 0x80]
    else scriptNumBytes value.natAbs

/-- Number of some bytes, without the bit of its sign. Up to eight bytes, it fits 64 bits. -/
def setVch (vch : List UInt8) : ℤ :=
  match vch.getLast? with
  | none => 0
  | some back =>
    -- the bit of the sign is set, and clearing it subtracts it
    if back &&& 0x80≠0 then -((littleEndian vch-0x80*256^(vch.length-1) : ℕ) : ℤ)
    else littleEndian vch

/-- The last byte is more than a sign, unless the one before has no room for it. -/
def minimal (vch : List UInt8) : Bool :=
  match vch.getLast? with
  | none => true
  | some back => back &&& 0x7f≠0 || vch.dropLast.getLast?.any (fun second => second &&& 0x80≠0)

/-- Read a number. -/
def scriptNum (vch : List UInt8) (fRequireMinimal : Bool) (nMaxNumSize : ℕ) : Except String ℤ :=
  if nMaxNumSize<vch.length then .error "script number overflow"
  else if fRequireMinimal && !minimal vch then
    .error "non-minimally encoded script number"
  else .ok (setVch vch)

theorem byte_bits (byte : UInt8) : (byte &&& 0x7f=0 ↔ byte.toNat%128=0) ∧
    (byte &&& 0x80≠0 ↔ 128≤byte.toNat) ∧
    (byte.toNat<128 → (byte ||| 0x80).toNat=byte.toNat+128) := by
  obtain ⟨⟨byte⟩⟩ := byte
  revert byte
  decide +kernel

/-- Amount of a number by its bytes before the last one, and the last one. -/
def amount (front : List UInt8) (back : UInt8) : ℕ :=
  littleEndian front+back.toNat%128*256^front.length

variable {front : List UInt8} {back : UInt8}

theorem littleEndian_concat :
    littleEndian (front++[back])=littleEndian front+back.toNat*256^front.length := by
  induction front with
  | nil => simp [littleEndian]
  | cons byte front ih =>
    rw [cons_append,littleEndian,ih,littleEndian,length_cons,pow_succ]
    ring

theorem setVch_concat : setVch (front++[back])=
    if 128≤back.toNat then -(amount front back : ℤ) else amount front back := by
  have hback := back.toNat_lt
  simp only [setVch,getLast?_append,getLast?_singleton,Option.some_or,(byte_bits back).2.1,
    littleEndian_concat,length_append,length_singleton,Nat.add_sub_cancel,amount]
  split_ifs with hsign
  · have hsplit : back.toNat*256^front.length=
        back.toNat%128*256^front.length+128*256^front.length := by
      rw [← add_mul]
      congr 1
      omega
    rw [hsplit,← add_assoc,show (0x80 : ℕ)=128 from rfl,Nat.add_sub_cancel]
  · rw [Nat.mod_eq_of_lt (by omega)]

theorem minimal_concat : minimal (front++[back])=true ↔ back.toNat%128≠0 ∨
    ∃ second∈front.getLast?,128 ≤ second.toNat := by
  simp [minimal,byte_bits,Option.any_eq_true]

/-- A minimal number of bytes is the one that its amount needs. -/
theorem amount_bounds (h : minimal (front++[back])=true) :
    256^front.length≤2*amount front back ∧ 2*amount front back<256^(front.length+1) := by
  have hlow := littleEndian_lt front
  have hpos : 0<256^front.length := Nat.pow_pos (by decide)
  have hmod : back.toNat%128<128 := Nat.mod_lt _ (by decide)
  constructor
  · rcases minimal_concat.1 h with hback | ⟨second,hsecond,hsign⟩
    · have hle := Nat.mul_le_mul_right (256^front.length) (Nat.one_le_iff_ne_zero.2 hback)
      rw [amount]
      omega
    · obtain ⟨first,rfl⟩ := getLast?_eq_some_iff.1 hsecond
      have hle := Nat.mul_le_mul_right (256^first.length) hsign
      rw [amount,littleEndian_concat,length_append,length_singleton,pow_succ]
      omega
  · have hle := Nat.mul_le_mul_right (256^front.length) (Nat.le_of_lt_succ hmod)
    rw [amount,pow_succ]
    omega

theorem scriptNumBytes_concat {n : ℕ} (hn : n≠0) : ∃ front back,
    scriptNumBytes n=front++[back] ∧ back.toNat<128 ∧ minimal (front++[back])=true := by
  induction n using Nat.strong_induction_on with
  | _ n ih =>
    unfold scriptNumBytes
    rw [dif_neg hn]
    split_ifs with hsmall hsign
    · have hbyte : (UInt8.ofNat n).toNat=n := UInt8.toNat_ofNat_of_lt' hsmall
      exact ⟨[UInt8.ofNat n],0,rfl,by decide,minimal_concat.2 (.inr ⟨UInt8.ofNat n,rfl,by omega⟩)⟩
    · have hbyte : (UInt8.ofNat n).toNat=n := UInt8.toNat_ofNat_of_lt' hsmall
      exact ⟨[],UInt8.ofNat n,rfl,by omega,minimal_concat.2 (.inl (by omega))⟩
    · obtain ⟨front,back,hbytes,hback,hmin⟩ := ih (n/256) (by omega) (by omega)
      refine ⟨UInt8.ofNat (n%256)::front,back,by rw [hbytes,cons_append],hback,?_⟩
      refine minimal_concat.2 ((minimal_concat.1 hmin).imp_right ?_)
      rintro ⟨second,hsecond,hsign⟩
      obtain ⟨first,rfl⟩ := getLast?_eq_some_iff.1 hsecond
      exact ⟨second,by rw [← cons_append,getLast?_concat]; rfl,hsign⟩

theorem serialize_concat {value : ℤ} (h : value≠0) : ∃ front back,
    serialize value=front++[back] ∧ minimal (front++[back])=true ∧
      setVch (front++[back])=value ∧ amount front back=value.natAbs := by
  obtain ⟨front,back,hbytes,hback,hmin⟩ := scriptNumBytes_concat (Int.natAbs_ne_zero.2 h)
  have hamount : amount front back=value.natAbs := by
    rw [← littleEndian_scriptNumBytes value.natAbs,hbytes,littleEndian_concat,amount,
      Nat.mod_eq_of_lt hback]
  have hsum := (byte_bits back).2.2 hback
  have hsigned : amount front (back ||| 0x80)=amount front back := by
    rw [amount,amount,hsum,Nat.add_mod_right]
  simp only [serialize,hbytes,getLast?_concat,dropLast_concat]
  split_ifs with hneg
  · refine ⟨front,back ||| 0x80,rfl,?_,?_,hsigned.trans hamount⟩
    · rw [minimal_concat,hsum,Nat.add_mod_right]
      exact minimal_concat.1 hmin
    · rw [setVch_concat,if_pos (by omega),hsigned,hamount]
      omega
  · refine ⟨front,back,rfl,hmin,?_,hamount⟩
    rw [setVch_concat,if_neg (by omega),hamount]
    omega

theorem serialize_zero : serialize 0=[] := by
  rw [serialize,Int.natAbs_zero,scriptNumBytes,dif_pos rfl]
  rfl

theorem setVch_serialize (value : ℤ) : setVch (serialize value)=value := by
  rcases eq_or_ne value 0 with rfl | h
  · rw [serialize_zero]
    rfl
  · obtain ⟨front,back,hbytes,-,hvalue,-⟩ := serialize_concat h
    rw [hbytes,hvalue]

theorem minimal_serialize (value : ℤ) : minimal (serialize value)=true := by
  rcases eq_or_ne value 0 with rfl | h
  · rw [serialize_zero]
    rfl
  · obtain ⟨front,back,hbytes,hmin,-⟩ := serialize_concat h
    rw [hbytes,hmin]

theorem serialize_setVch {vch : List UInt8} (h : minimal vch=true) :
    serialize (setVch vch)=vch := by
  rcases eq_nil_or_concat vch with rfl | ⟨front,back,rfl⟩
  · exact serialize_zero
  · rw [concat_eq_append] at h ⊢
    obtain ⟨hlow,hhigh⟩ := amount_bounds h
    have hpos : 0<256^front.length := Nat.pow_pos (by decide)
    have hvalue := @setVch_concat front back
    have hne : setVch (front++[back])≠0 := by
      split_ifs at hvalue <;> omega
    obtain ⟨front',back',hbytes,hmin,hsame,hamount⟩ := serialize_concat hne
    obtain ⟨hlow',hhigh'⟩ := amount_bounds hmin
    have hequal : amount front' back'=amount front back := by
      split_ifs at hvalue <;> omega
    rw [hequal] at hlow' hhigh'
    have hle := (Nat.pow_lt_pow_iff_right (by decide : 1<256)).1 (hlow.trans_lt hhigh')
    have hge := (Nat.pow_lt_pow_iff_right (by decide : 1<256)).1 (hlow'.trans_lt hhigh)
    have hlen : front'.length=front.length := by omega
    rw [hbytes]
    apply littleEndian_injective (by simp [hlen])
    have hsign : 128≤back'.toNat ↔ 128≤back.toNat := by
      rw [hvalue,setVch_concat] at hsame
      split_ifs at hsame <;> omega
    obtain ⟨bit,hback',hback⟩ : ∃ bit,back'.toNat=bit+back'.toNat%128 ∧
        back.toNat=bit+back.toNat%128 := by
      have hlt := back.toNat_lt
      have hlt' := back'.toNat_lt
      by_cases hbit : 128≤back.toNat
      · exact ⟨128,by omega,by omega⟩
      · exact ⟨0,by omega,by omega⟩
    rw [amount,amount,hlen] at hequal
    rw [littleEndian_concat,littleEndian_concat,hback',hback,hlen,add_mul,add_mul]
    omega

theorem length_serialize_le (value : ℤ) (nMaxNumSize : ℕ) :
    (serialize value).length≤nMaxNumSize ↔ 2*value.natAbs<256^nMaxNumSize := by
  rcases eq_or_ne value 0 with rfl | h
  · simp [serialize_zero]
  · obtain ⟨front,back,hbytes,hmin,-,hamount⟩ := serialize_concat h
    obtain ⟨hlow,hhigh⟩ := amount_bounds hmin
    rw [hbytes,length_append,length_singleton,← hamount]
    constructor
    · intro hle
      exact hhigh.trans_le (Nat.pow_le_pow_right (by decide) hle)
    · intro hlt
      exact (Nat.pow_lt_pow_iff_right (by decide)).1 (hlow.trans_lt hlt)

/-- A number is read from its own bytes alone, and those of a limited count are the numbers below
half of its power. -/
theorem scriptNum_eq_ok : (∀ vch nMaxNumSize value, scriptNum vch true nMaxNumSize=.ok value ↔
      vch=serialize value ∧ vch.length≤nMaxNumSize) ∧
    ∀ value nMaxNumSize, (serialize value).length≤nMaxNumSize ↔
      2*value.natAbs<256^nMaxNumSize := by
  refine ⟨fun vch nMaxNumSize value => ?_,length_serialize_le⟩
  rw [scriptNum]
  constructor
  · intro h
    split_ifs at h with hlong hbytes
    have hmin : minimal vch=true := by simpa using hbytes
    exact ⟨by rw [← Except.ok.inj h,serialize_setVch hmin],Nat.le_of_not_lt hlong⟩
  · rintro ⟨rfl,hle⟩
    rw [if_neg (Nat.not_lt.2 hle),minimal_serialize,if_neg (by decide),setVch_serialize]

end Pyrk.ScriptNum
