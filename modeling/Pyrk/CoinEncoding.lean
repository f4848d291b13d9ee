import Pyrk.UndoData

/-!
# Bytes of coins

A coin is stored as height and coinbase flag in one number, and amount and script in short forms.
The undo file has a byte of older versions as well.
-/

namespace Pyrk.CoinEncoding

open ByteReader UndoData Transaction Script

section Coins

variable (keys : KeyCoding)

/-- Number of a coin's height and coinbase flag. -/
def coinCode (entry : Coin) : ℕ := entry.nHeight*2+if entry.fCoinBase then 1 else 0

def writeCoin (entry : Coin) : List UInt8 := writeVarInt (coinCode entry)++writeTxOut keys entry.out

def readCoin : Reader Coin := do
  let code ← readVarInt 32
  let out ← readTxOut keys
  pure ⟨out,decide (code%2=1),code/2⟩

/-- Coins of the database: an amount in range, a height and a script that fit. -/
structure StoredCoin (entry : Coin) : Prop where
  range : moneyRange entry.out.nValue=true
  height : entry.nHeight<2^30
  script : entry.out.scriptPubKey.length ≤ maxScriptSize

variable {keys}

theorem coinCode_parts (entry : Coin) :
    coinCode entry/2=entry.nHeight ∧ decide (coinCode entry%2=1)=entry.fCoinBase := by
  rw [coinCode]
  cases entry.fCoinBase with
  | true =>
    rw [if_pos rfl,decide_eq_true_eq]
    omega
  | false =>
    rw [if_neg Bool.false_ne_true,decide_eq_false_iff_not]
    omega

theorem coinCode_lt {entry : Coin} (hheight : entry.nHeight<2^30) : coinCode entry<2^32 := by
  rw [coinCode]
  split <;> omega

theorem reads_readCoin {entry : Coin} (h : StoredCoin entry) :
    Reads (readCoin keys) (writeCoin keys entry) entry := by
  obtain ⟨hheight,hflag⟩ := coinCode_parts entry
  refine (reads_readVarInt (coinCode_lt h.height)).bind ?_
  rw [hheight,hflag]
  exact (reads_readTxOut h.range h.script).map (reads_pure entry)

theorem reads_readUndoCoin_stored {entry : Coin} (h : StoredCoin entry) :
    Reads (readUndoCoin keys) (writeUndoCoin keys entry) entry := by
  by_cases hpos : 0<entry.nHeight
  · exact reads_readUndoCoin ⟨hpos,h.height,h.range,h.script⟩
  · obtain ⟨hheight,hflag⟩ := coinCode_parts entry
    have hcode := @reads_readVarInt 32 _ (coinCode_lt h.height)
    rw [writeUndoCoin,if_neg hpos,List.append_nil]
    refine hcode.bind ?_
    rw [hheight,if_neg hpos,hflag]
    exact (reads_readTxOut h.range h.script).map (reads_pure entry)

end Coins

/-- Number that stands for an amount, without a bound. -/
def compressExact (n : ℕ) : ℕ :=
  if n=0 then 0
  else
    let (n,e) := stripZeros 9 n
    if e<9 then 1+(n/10*9+n%10-1)*10+e else 1+(n-1)*10+9

/-- Amount that a number stands for, without a bound. -/
def decompressExact (x : ℕ) : ℕ :=
  if x=0 then 0
  else
    let e := (x-1)%10
    let x := (x-1)/10
    let n := if e<9 then x/9*10+(x%9+1) else x+1
    (fun n => n*10)^[e] n

theorem iterate_ten (e n : ℕ) : (fun n => n*10)^[e] n=n*10^e := by
  induction e generalizing n with
  | zero => rw [Function.iterate_zero_apply,Nat.pow_zero,Nat.mul_one]
  | succ e ih =>
    rw [Function.iterate_succ_apply,ih,Nat.pow_succ,Nat.mul_assoc,Nat.mul_comm 10]

theorem stripZeros_le (left n : ℕ) : (stripZeros left n).1≤n := by
  induction left generalizing n with
  | zero => exact le_refl n
  | succ left ih =>
    rw [stripZeros]
    split
    · exact (ih (n/10)).trans (Nat.div_le_self n 10)
    · exact le_refl n

theorem compressAmount_eq {n : ℕ} (hn : n≤10^16) :
    compressAmount n=compressExact n ∧ compressExact n<2^64 := by
  have hle := stripZeros_le 9 n
  rw [compressAmount,compressExact]
  split
  · exact ⟨rfl,Nat.two_pow_pos 64⟩
  · dsimp only
    generalize stripZeros 9 n=stripped at hle
    have hsmall : 1+(stripped.1/10*9+stripped.1%10-1)*10+9<2^64 := by omega
    split
    case isTrue hfew =>
      have hlt : 1+(stripped.1/10*9+stripped.1%10-1)*10+stripped.2<2^64 := by omega
      exact ⟨Nat.mod_eq_of_lt hlt,hlt⟩
    case isFalse hmany =>
      have hlt : 1+(stripped.1-1)*10+9<2^64 := by omega
      exact ⟨Nat.mod_eq_of_lt hlt,hlt⟩

theorem decompressExact_compressExact (n : ℕ) : decompressExact (compressExact n)=n := by
  by_cases hzero : n=0
  · rw [hzero]
    rfl
  · obtain ⟨heq,hpos,hle,hlast⟩ := stripZeros_spec 9 n (Nat.pos_of_ne_zero hzero)
    rw [compressExact,if_neg hzero]
    dsimp only
    generalize stripZeros 9 n=stripped at heq hpos hle hlast
    obtain ⟨m,e⟩ := stripped
    split
    case isTrue hfew =>
      obtain ⟨he,hvalue⟩ := decompress_digits (hlast hfew) hfew
      rw [decompressExact,if_neg (by omega)]
      dsimp only
      rw [he,if_pos hfew,hvalue,iterate_ten]
      exact heq.symm
    case isFalse hmany =>
      have hnine : e=9 := by omega
      have he : (1+(m-1)*10+9-1)%10=9 := by omega
      have hvalue : (1+(m-1)*10+9-1)/10+1=m := by omega
      rw [decompressExact,if_neg (by omega)]
      dsimp only
      rw [he,if_neg (Nat.lt_irrefl 9),hvalue,iterate_ten,←hnine]
      exact heq.symm

section Scripts

variable {keys : KeyCoding}

theorem writeVarInt_cancel {n other : ℕ} {bytes rest : List UInt8}
    (heq : writeVarInt n++bytes=writeVarInt other++rest) : n=other ∧ bytes=rest := by
  have hlt : n<2^(n+other+1) := by
    have hself := @Nat.lt_two_pow_self (n+other+1)
    omega
  have hother : other<2^(n+other+1) := by
    have hself := @Nat.lt_two_pow_self (n+other+1)
    omega
  have hread := reads_readVarInt hlt bytes
  rw [heq,reads_readVarInt hother rest] at hread
  have hpair := Option.some.inj hread
  exact ⟨(congrArg Prod.fst hpair).symm,(congrArg Prod.snd hpair).symm⟩

theorem writeVarInt_small {kind : UInt8} (hkind : kind.toNat<128) :
    writeVarInt kind.toNat=[kind] := by
  rw [writeVarInt,varIntDigits,dif_pos (by omega),varIntDigit,if_pos rfl,Nat.add_zero,
    Nat.mod_eq_of_lt hkind,UInt8.ofNat_toNat]

theorem writeScript_special_ne {compr script : List UInt8} {special : CScript}
    (hcompress : compress keys special=some compr) :
    compr≠writeVarInt (script.length+nSpecialScripts)++script := by
  obtain ⟨kind,body,hcompr,hkind,_,_⟩ := compress_some hcompress
  have hspecial : nSpecialScripts=6 := rfl
  intro heq
  rw [hcompr,←List.singleton_append,←writeVarInt_small (by omega)] at heq
  have hsize := (writeVarInt_cancel heq).1
  omega

theorem writeScript_injective {script other : CScript}
    (heq : writeScript keys script=writeScript keys other) : script=other := by
  rw [writeScript,writeScript] at heq
  cases hscript : compress keys script with
  | some compr =>
    rw [hscript] at heq
    cases hother : compress keys other with
    | some comprOther =>
      rw [hother] at heq
      obtain ⟨kind,body,hcompr,_,_,hback⟩ := compress_some hscript
      obtain ⟨kindOther,bodyOther,hcomprOther,_,_,hbackOther⟩ := compress_some hother
      rw [hcompr,hcomprOther,List.cons.injEq] at heq
      rw [heq.1,heq.2] at hback
      exact Option.some.inj (hback.symm.trans hbackOther)
    | none =>
      rw [hother] at heq
      exact absurd heq (writeScript_special_ne hscript)
  | none =>
    rw [hscript] at heq
    cases hother : compress keys other with
    | some comprOther =>
      rw [hother] at heq
      exact absurd heq.symm (writeScript_special_ne hother)
    | none =>
      rw [hother] at heq
      exact (writeVarInt_cancel heq).2

end Scripts

/-- Coins survive both encodings, and different scripts are stored differently. -/
theorem coins_encoded (keys : KeyCoding) :
    (∀ entry,StoredCoin entry → ∀ rest,
      (readCoin keys).run (writeCoin keys entry++rest)=some (entry,rest) ∧
      (readUndoCoin keys).run (writeUndoCoin keys entry++rest)=some (entry,rest)) ∧
    (∀ n : ℕ,(n : ℤ) ≤ maxMoney → decompressAmount (compressAmount n)=n ∧
      compressAmount n=compressExact n ∧ compressExact n<2^64 ∧
      decompressAmount (compressAmount n)=decompressExact (compressAmount n)) ∧
    ∀ script other : CScript,writeScript keys script=writeScript keys other → script=other := by
  refine ⟨?_,?_,fun script other heq => writeScript_injective heq⟩
  · intro entry h rest
    exact ⟨reads_readCoin h rest,reads_readUndoCoin_stored h rest⟩
  · intro n hn
    have hmax : maxMoney=10^16 := by decide
    have hle : n≤10^16 := by omega
    have hback := (decompressAmount_compressAmount hle).1
    obtain ⟨hexact,hlt⟩ := compressAmount_eq hle
    refine ⟨hback,hexact,hlt,?_⟩
    rw [hback,hexact,decompressExact_compressExact]

/-- First coordinate of the generator of the curve. -/
def generatorX : List UInt8 :=
  [0x79,0xbe,0x66,0x7e,0xf9,0xdc,0xbb,0xac,0x55,0xa0,0x62,0x95,0xce,0x87,0x0b,0x07,
    0x02,0x9b,0xfc,0xdb,0x2d,0xce,0x28,0xd9,0x59,0xf2,0x81,0x5b,0x16,0xf8,0x17,0x98]

/-- The generator of the curve in its long form. -/
def generatorKey : List UInt8 :=
  0x04::generatorX++
    [0x48,0x3a,0xda,0x77,0x26,0xa3,0xc4,0x65,0x5d,0xa4,0xfb,0xfc,0x0e,0x11,0x08,0xa8,
      0xfd,0x17,0xb4,0x48,0xa6,0x85,0x54,0x19,0x9c,0x47,0xd0,0x8f,0xfb,0x10,0xd4,0xb8]

/-- Point decompression on the generator. -/
def generatorCoding : KeyCoding where
  isFullyValid pubkey := pubkey=generatorKey
  decompress compr := if compr=0x02::generatorX then some generatorKey else none
  decompress_valid := by
    intro pubkey _ _ hvalid
    rw [decide_eq_true_eq] at hvalid
    rw [hvalid]
    decide

/-- A coinbase output that pays to the generator is read back. -/
theorem coins_encoded_generator :
    (readCoin generatorCoding).run (writeCoin generatorCoding
      ⟨⟨50*coin,[65]++generatorKey++[opCheckSig]⟩,true,1⟩)=
      some (⟨⟨50*coin,[65]++generatorKey++[opCheckSig]⟩,true,1⟩,[]) := by
  have hstored : StoredCoin ⟨⟨50*coin,[65]++generatorKey++[opCheckSig]⟩,true,1⟩ :=
    ⟨by decide,by decide,by decide⟩
  have hread := ((coins_encoded generatorCoding).1 _ hstored []).1
  rw [List.append_nil] at hread
  exact hread

end Pyrk.CoinEncoding
