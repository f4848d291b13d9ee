import Pyrk.ByteReader
import Pyrk.Transaction
import Mathlib.Tactic.NormNum

/-!
# Undo data on disk

For each input of a block the undo file holds the coin that was spent, with its amount and its
script in a shorter form. What is written is read back as it was, and the checksum behind it
agrees.
-/

namespace Pyrk.UndoData

open Transaction Script ByteReader List Option

/-- Largest size that is read. -/
def maxSize : ℕ := 0x02000000

/-- Largest block in bytes. -/
def maxBlockSize : ℕ := 2000000

/-- Inputs that a block can have, each of at least 41 bytes. -/
def maxInputsPerBlock : ℕ := maxBlockSize/41

/-- Number of scripts with a form of their own. -/
def nSpecialScripts : ℕ := 6

/-- Bytes of a number, the lowest one first. -/
def leBytes : ℕ → ℕ → List UInt8
  | 0,_ => []
  | width+1,n => UInt8.ofNat (n%256)::leBytes width (n/256)

def readNumber (width : ℕ) : Reader ℕ := do
  let bytes ← readBytes width
  pure (littleEndian bytes)

def writeCompactSize (nSize : ℕ) : List UInt8 :=
  if nSize<253 then leBytes 1 nSize
  else if nSize≤0xffff then 253::leBytes 2 nSize
  else if nSize≤0xffffffff then 254::leBytes 4 nSize
  else 255::leBytes 8 nSize

/-- Read a size that is stored with more than one byte, and not with too many. -/
def readLargeSize (width least : ℕ) : Reader ℕ := do
  let nSizeRet ← readNumber width
  if nSizeRet<least then failure else pure nSizeRet

def readCompactSize : Reader ℕ := do
  let chSize ← readByte
  let nSizeRet ←
    if chSize.toNat<253 then pure chSize.toNat
    else if chSize.toNat=253 then readLargeSize 2 253
    else if chSize.toNat=254 then readLargeSize 4 0x10000
    else readLargeSize 8 0x100000000
  if maxSize<nSizeRet then failure else pure nSizeRet

/-- Last digit of a number to the base 128, marked if others follow. -/
def varIntDigit (last : Bool) (n : ℕ) : UInt8 := UInt8.ofNat (n%128+if last then 0 else 128)

/-- Digits to the base 128, the highest one first. One is taken from all but the last, and all but
the very last one are marked. -/
def varIntDigits (last : Bool) (n : ℕ) : List UInt8 :=
  if _h : n≤0x7f then [varIntDigit last n]
  else varIntDigits false (n/128-1)++[varIntDigit last n]
termination_by n
decreasing_by omega

/-- Bytes of a number without a fixed width. -/
def writeVarInt (n : ℕ) : List UInt8 := varIntDigits true n

/-- Read digits until one is not marked, into an integer of some bits. -/
def readVarIntLoop (bits : ℕ) : ℕ → List UInt8 → Option (ℕ×List UInt8)
  | _,[] => none
  | n,chData::rest =>
    let n := (n*128+chData.toNat%128)%2^bits
    if 128 ≤ chData.toNat then readVarIntLoop bits ((n+1)%2^bits) rest else some (n,rest)

/-- Read a number without a fixed width. -/
def readVarInt (bits : ℕ) : Reader ℕ := readVarIntLoop bits 0

/-- Take zeros off the end of an amount, up to some number of them. -/
def stripZeros : ℕ → ℕ → ℕ×ℕ
  | 0,n => (n,0)
  | left+1,n =>
    if n%10=0 then ((stripZeros left (n/10)).1,(stripZeros left (n/10)).2+1) else (n,0)

/-- Number that stands for an amount. -/
def compressAmount (n : ℕ) : ℕ :=
  if n=0 then 0
  else
    let (n,e) := stripZeros 9 n
    if e<9 then (1+(n/10*9+n%10-1)*10+e)%2^64 else (1+(n-1)*10+9)%2^64

/-- Amount that a number stands for. -/
def decompressAmount (x : ℕ) : ℕ :=
  if x=0 then 0
  else
    let e := (x-1)%10
    let x := (x-1)/10
    let n := if e<9 then (x/9*10+(x%9+1))%2^64 else (x+1)%2^64
    (fun n => n*10%2^64)^[e] n

/-- Public keys in their long form and in their short one. -/
structure KeyCoding where
  isFullyValid : List UInt8 → Bool
  decompress : List UInt8 → Option (List UInt8)
  /-- A point is given by its first coordinate and the parity of the second. -/
  decompress_valid : ∀ pubkey : List UInt8, pubkey.length=65 → byteAt pubkey 0=0x04 →
    isFullyValid pubkey=true → decompress ((2+byteAt pubkey 64%2)::slice pubkey 1 33)=some pubkey

/-- Checksums of 32 bytes over a block hash and undo data. -/
structure UndoHasher where
  getHash : Uint256 → List UInt8 → List UInt8
  length_getHash : ∀ hashBlock bytes, (getHash hashBlock bytes).length=32

section Scripts

variable (keys : KeyCoding)

/-- Key hash that a script pays to. -/
def isToKeyID (script : CScript) : Option (List UInt8) :=
  if script.length=25 ∧ byteAt script 0=opDup ∧ byteAt script 1=opHash160 ∧
      byteAt script 2=20 ∧ byteAt script 23=opEqualVerify ∧ byteAt script 24=opCheckSig then
    some (slice script 3 23)
  else none

def isToScriptID (script : CScript) : Option (List UInt8) :=
  if script.length=23 ∧ byteAt script 0=opHash160 ∧ byteAt script 1=20 ∧
      byteAt script 22=opEqual then
    some (slice script 2 22)
  else none

/-- Key that a script pays to; a long key has to be a point. -/
def isToPubKey (script : CScript) : Option (List UInt8) :=
  if script.length=35 ∧ byteAt script 0=33 ∧ byteAt script 34=opCheckSig ∧
      (byteAt script 1=0x02 ∨ byteAt script 1=0x03) then
    some (slice script 1 34)
  else if script.length=67 ∧ byteAt script 0=65 ∧ byteAt script 66=opCheckSig ∧
      byteAt script 1=0x04 then
    if keys.isFullyValid (slice script 1 66) then some (slice script 1 66) else none
  else none

/-- Short form of a script, if it has one. -/
def compress (script : CScript) : Option (List UInt8) :=
  match isToKeyID script with
  | some keyID => some (0x00::keyID)
  | none =>
    match isToScriptID script with
    | some scriptID => some (0x01::scriptID)
    | none =>
      match isToPubKey keys script with
      | none => none
      | some pubkey =>
        if byteAt pubkey 0=0x02 ∨ byteAt pubkey 0=0x03 then
          some (byteAt pubkey 0::slice pubkey 1 33)
        else if byteAt pubkey 0=0x04 then
          some ((4+byteAt pubkey 64%2)::slice pubkey 1 33)
        else none

/-- Bytes behind the number of a short form. -/
def getSpecialSize (nSize : ℕ) : ℕ := if nSize=0 ∨ nSize=1 then 20 else 32

/-- Script of a short form. -/
def decompress (nSize : ℕ) (input : List UInt8) : Option CScript :=
  if nSize=0 then some ([opDup,opHash160,20]++input++[opEqualVerify,opCheckSig])
  else if nSize=1 then some ([opHash160,20]++input++[opEqual])
  else if nSize=2 ∨ nSize=3 then some ([33,UInt8.ofNat nSize]++input++[opCheckSig])
  else (keys.decompress (UInt8.ofNat (nSize-2)::input)).map (fun pubkey =>
    [65]++pubkey++[opCheckSig])

def writeScript (script : CScript) : List UInt8 :=
  match compress keys script with
  | some compr => compr
  | none => writeVarInt (script.length+nSpecialScripts)++script

/-- Read a script. One that is too long is passed over and can not be spent. -/
def readScript : Reader CScript := do
  let nSize ← readVarInt 32
  if nSize<nSpecialScripts then
    let vch ← readBytes (getSpecialSize nSize)
    pure ((decompress keys nSize vch).getD [])
  else
    let script ← readBytes (nSize-nSpecialScripts)
    pure (if maxScriptSize<nSize-nSpecialScripts then [opReturn] else script)

/-- Bytes of an output. -/
def writeTxOut (txout : CTxOut) : List UInt8 :=
  writeVarInt (compressAmount (txout.nValue%2^64).toNat)++writeScript keys txout.scriptPubKey

def readTxOut : Reader CTxOut := do
  let nVal ← readVarInt 64
  let scriptPubKey ← readScript keys
  pure ⟨Int.bmod (decompressAmount nVal) (2^64),scriptPubKey⟩

/-- Bytes of a spent coin. A zero stands where older versions have more. -/
def writeUndoCoin (txout : Coin) : List UInt8 :=
  writeVarInt (txout.nHeight*2+if txout.fCoinBase then 1 else 0)++
    (if 0<txout.nHeight then [0] else [])++writeTxOut keys txout.out

def readUndoCoin : Reader Coin := do
  let nCode ← readVarInt 32
  if 0<nCode/2 then
    let _nVersionDummy ← readVarInt 32
    let out ← readTxOut keys
    pure ⟨out,decide (nCode%2=1),nCode/2⟩
  else
    let out ← readTxOut keys
    pure ⟨out,decide (nCode%2=1),nCode/2⟩

/-- Bytes of the spent coins of a transaction. -/
def writeTxUndo (vprevout : List Coin) : List UInt8 :=
  writeCompactSize vprevout.length++vprevout.flatMap (writeUndoCoin keys)

/-- Read the spent coins of a transaction. -/
def readTxUndo : Reader (List Coin) := do
  let count ← readCompactSize
  if maxInputsPerBlock < count then failure else readMany (readUndoCoin keys) count

def writeBlockUndo (vtxundo : List (List Coin)) : List UInt8 :=
  writeCompactSize vtxundo.length++vtxundo.flatMap (writeTxUndo keys)

def readBlockUndo : Reader (List (List Coin)) := do
  let nSize ← readCompactSize
  readMany (readTxUndo keys) nSize

variable (hasher : UndoHasher)

/-- File contents from the position of a block on: undo data and checksum. -/
def undoWriteToDisk (vtxundo : List (List Coin)) (hashBlock : Uint256) : List UInt8 :=
  writeBlockUndo keys vtxundo++hasher.getHash hashBlock (writeBlockUndo keys vtxundo)

/-- Undo data at a position of the file, if the checksum over what was read
agrees. -/
def undoReadFromDisk (file : List UInt8) (hashBlock : Uint256) : Option (List (List Coin)) :=
  match (readBlockUndo keys).run file with
  | none => none
  | some (vtxundo,behind) =>
    match (readBytes 32).run behind with
    | none => none
    | some (hashChecksum,_) =>
      if hashChecksum≠hasher.getHash hashBlock (file.take (file.length-behind.length)) then none
      else some vtxundo

end Scripts

theorem littleEndian_lt (bytes : List UInt8) : littleEndian bytes<256^bytes.length := by
  induction bytes with
  | nil => exact Nat.one_pos
  | cons byte tail ih =>
    have hbyte := byte.toNat_lt
    rw [length_cons,littleEndian,Nat.pow_succ]
    omega

theorem littleEndian_leBytes (width : ℕ) {n : ℕ} (hn : n < 256^width) :
    littleEndian (leBytes width n)=n := by
  induction width generalizing n with
  | zero =>
    rw [Nat.pow_zero,Nat.lt_one_iff] at hn
    rw [hn,leBytes,littleEndian]
  | succ width ih =>
    have hsmall : n/256 < 256^width := by
      rw [Nat.div_lt_iff_lt_mul (by decide),← Nat.pow_succ]
      exact hn
    rw [leBytes,littleEndian,ih hsmall,UInt8.toNat_ofNat',Nat.mod_mod]
    exact Nat.mod_add_div n 256

theorem length_leBytes (width n : ℕ) : (leBytes width n).length=width := by
  induction width generalizing n with
  | zero => rfl
  | succ width ih => rw [leBytes,length_cons,ih]

theorem reads_readNumber {width n : ℕ} (hn : n < 256^width) :
    Reads (readNumber width) (leBytes width n) n := by
  have hread := reads_readBytes (leBytes width n)
  rw [length_leBytes] at hread
  refine hread.map ?_
  rw [littleEndian_leBytes width hn]
  exact reads_pure n

theorem reads_readLargeSize {width least n : ℕ} (hn : n < 256^width) (hleast : least≤n) :
    Reads (readLargeSize width least) (leBytes width n) n := by
  refine (reads_readNumber hn).map ?_
  rw [if_neg (Nat.not_lt.mpr hleast)]
  exact reads_pure n

theorem reads_readCompactSize {n : ℕ} (hn : n ≤ maxSize) :
    Reads readCompactSize (writeCompactSize n) n := by
  have hmax : maxSize=0x02000000 := rfl
  have hend : Reads (if maxSize < n then failure else pure n : Reader ℕ) [] n := by
    rw [if_neg (Nat.not_lt.mpr hn)]
    exact reads_pure n
  unfold writeCompactSize
  split_ifs with hone htwo hfour
  · have hbyte : (UInt8.ofNat (n%256)).toNat=n := by
      rw [UInt8.toNat_ofNat',Nat.mod_mod]
      omega
    refine (reads_readByte (UInt8.ofNat (n%256))).map ?_
    rw [hbyte,if_pos hone]
    exact (reads_pure n).map hend
  · refine (reads_readByte 253).bind  ?_
    rw [if_neg (by decide),if_pos (by decide)]
    exact (reads_readLargeSize (by omega) (by omega)).map hend
  · refine (reads_readByte 254).bind  ?_
    rw [if_neg (by decide),if_neg (by decide),if_pos (by decide)]
    exact (reads_readLargeSize (by omega) (by omega)).map hend
  · omega

theorem toNat_varIntDigit_marked (n : ℕ) : (varIntDigit false n).toNat=n%128+128 := by
  rw [varIntDigit,if_neg Bool.false_ne_true,UInt8.toNat_ofNat',Nat.mod_eq_of_lt (by omega)]

theorem toNat_varIntDigit_last (n : ℕ) : (varIntDigit true n).toNat=n%128 := by
  rw [varIntDigit,if_pos rfl,UInt8.toNat_ofNat',Nat.add_zero,Nat.mod_eq_of_lt (by omega)]

theorem readVarIntLoop_cons_marked {bits n high : ℕ} (hhigh : high*128+n%128=n)
    (hn : n+1 < 2^bits) (rest : List UInt8) :
    readVarIntLoop bits high (varIntDigit false n::rest)=readVarIntLoop bits (n+1) rest := by
  rw [readVarIntLoop,toNat_varIntDigit_marked,if_pos (Nat.le_add_left 128 (n%128)),
    Nat.add_mod_right,Nat.mod_mod,
    hhigh,Nat.mod_eq_of_lt (Nat.lt_of_succ_lt hn),Nat.mod_eq_of_lt hn]

theorem readVarIntLoop_cons_last {bits n high : ℕ} (hhigh : high*128+n%128=n) (hn : n < 2^bits)
    (rest : List UInt8) :
    readVarIntLoop bits high (varIntDigit true n::rest)=some (n,rest) := by
  have hless : n%128 < 128 := Nat.mod_lt n (by decide)
  rw [readVarIntLoop,toNat_varIntDigit_last,if_neg (Nat.not_le.mpr hless),Nat.mod_mod,hhigh,
    Nat.mod_eq_of_lt hn]

theorem readVarIntLoop_marked (bits n : ℕ) (hn : n+1 < 2^bits) (rest : List UInt8) :
    readVarIntLoop bits 0 (varIntDigits false n++rest)=readVarIntLoop bits (n+1) rest := by
  induction n using Nat.strong_induction_on generalizing rest with
  | _ n ih =>
    unfold varIntDigits
    split_ifs with hsmall
    · exact readVarIntLoop_cons_marked (by omega) hn rest
    · rw [append_assoc,ih (n/128-1) (by omega) (by omega)]
      exact readVarIntLoop_cons_marked (by omega) hn rest

theorem reads_readVarInt {bits n : ℕ} (hn : n < 2^bits) :
    Reads (readVarInt bits) (writeVarInt n) n := by
  intro rest
  change readVarIntLoop bits 0 (varIntDigits true n++rest)=some (n,rest)
  unfold varIntDigits
  split_ifs with hsmall
  · exact readVarIntLoop_cons_last (by omega) hn rest
  · rw [append_assoc,readVarIntLoop_marked bits (n/128-1) (by omega)]
    exact readVarIntLoop_cons_last (by omega) hn rest

theorem stripZeros_spec (left n : ℕ) (hpos : 0 < n) :
    n=(stripZeros left n).1*10^(stripZeros left n).2 ∧ 0 < (stripZeros left n).1 ∧
      (stripZeros left n).2≤left ∧ ((stripZeros left n).2 < left → (stripZeros left n).1%10≠0) := by
  induction left generalizing n with
  | zero =>
    refine ⟨?_,hpos,le_refl _,fun hlt => absurd hlt (Nat.lt_irrefl 0)⟩
    rw [stripZeros,Nat.pow_zero,Nat.mul_one]
  | succ left ih =>
    rw [stripZeros]
    split_ifs with hzero
    · obtain ⟨heq,hrest,hle,hlast⟩ := ih (n/10) (by omega)
      refine ⟨?_,hrest,Nat.succ_le_succ hle,fun hlt => hlast (Nat.lt_of_succ_lt_succ hlt)⟩
      rw [Nat.pow_succ,← Nat.mul_assoc,← heq]
      omega
    · refine ⟨?_,hpos,Nat.zero_le _,fun _ => hzero⟩
      rw [Nat.pow_zero,Nat.mul_one]

theorem iterate_times_ten (e n : ℕ) (hn : n*10^e < 2^64) : (fun n => n*10%2^64)^[e] n=n*10^e := by
  induction e generalizing n with
  | zero => rw [Function.iterate_zero_apply,Nat.pow_zero,Nat.mul_one]
  | succ e ih =>
    have hstep : n*10*10^e=n*10^(e+1) := by rw [Nat.pow_succ,Nat.mul_assoc,Nat.mul_comm 10]
    have hsmall : n*10 < 2^64 := by
      have hone : 1≤10^e := Nat.one_le_pow _ _ (by decide)
      calc n*10=n*10*1 := (Nat.mul_one _).symm
        _ ≤ n*10*10^e := Nat.mul_le_mul_left _ hone
        _ < 2^64 := by rw [hstep]; exact hn
    rw [Function.iterate_succ_apply,Nat.mod_eq_of_lt hsmall,ih (n*10)
      (by rw [hstep]; exact hn),hstep]

theorem decompress_digits {m e : ℕ} (hlast : m%10≠0) (he : e<9) :
    (1+(m/10*9+m%10-1)*10+e-1)%10=e ∧
      (1+(m/10*9+m%10-1)*10+e-1)/10/9*10+((1+(m/10*9+m%10-1)*10+e-1)/10%9+1)=m := by
  omega

/-- Amounts are read back as they were written. -/
theorem decompressAmount_compressAmount {n : ℕ} (hn : n≤10^16) :
    decompressAmount (compressAmount n)=n ∧ compressAmount n < 2^64 := by
  by_cases hzero : n=0
  · rw [hzero]
    exact ⟨rfl,Nat.two_pow_pos 64⟩
  · obtain ⟨heq,hpos,hle,hlast⟩ := stripZeros_spec 9 n (Nat.pos_of_ne_zero hzero)
    have hcompress : compressAmount n=if (stripZeros 9 n).2<9 then
        (1+((stripZeros 9 n).1/10*9+(stripZeros 9 n).1%10-1)*10+(stripZeros 9 n).2)%2^64
        else (1+((stripZeros 9 n).1-1)*10+9)%2^64 := by
      rw [compressAmount,if_neg hzero]
    generalize stripZeros 9 n=stripped at hcompress heq hpos hle hlast
    obtain ⟨m,e⟩ := stripped
    have hm : m≤10^16 := by
      refine le_trans ?_ hn
      rw [heq]
      exact Nat.le_mul_of_pos_right _ (Nat.pow_pos (by decide))
    have hback : m*10^e < 2^64 := by
      rw [← heq]
      exact lt_of_le_of_lt hn (by norm_num)
    have hfits : m < 2^64 := lt_of_le_of_lt hm (by norm_num)
    by_cases hfew : e<9
    · have hsmall : 1+(m/10*9+m%10-1)*10+e < 2^64 := by omega
      rw [if_pos hfew,Nat.mod_eq_of_lt hsmall] at hcompress
      obtain ⟨he,hvalue⟩ := decompress_digits (hlast hfew) hfew
      rw [hcompress]
      refine ⟨?_,hsmall⟩
      rw [decompressAmount,if_neg (by omega)]
      dsimp only
      rw [he,if_pos hfew,hvalue,Nat.mod_eq_of_lt hfits,iterate_times_ten e m hback]
      exact heq.symm
    · have hnine : e=9 := by omega
      have hsmall : 1+(m-1)*10+9 < 2^64 := by omega
      rw [if_neg hfew,Nat.mod_eq_of_lt hsmall] at hcompress
      have he : (1+(m-1)*10+9-1)%10=9 := by omega
      have hvalue : (1+(m-1)*10+9-1)/10+1=m := by omega
      rw [hcompress]
      refine ⟨?_,hsmall⟩
      rw [decompressAmount,if_neg (by omega)]
      dsimp only
      rw [hnine] at hback heq
      rw [he,if_neg (Nat.lt_irrefl 9),hvalue,Nat.mod_eq_of_lt hfits,iterate_times_ten 9 m hback]
      exact heq.symm

section ScriptForms

variable {script : CScript}

theorem take_succ_byteAt {k : ℕ} (hk : k < script.length) :
    script.take (k+1)=script.take k++[byteAt script k] := by
  rw [take_succ_eq_append_getElem hk,byteAt,getD_eq_getElem?_getD,getElem?_eq_getElem hk,
    getD_some]

theorem drop_byteAt {k : ℕ} (hk : k < script.length) :
    script.drop k=byteAt script k::script.drop (k+1) := by
  rw [drop_eq_getElem_cons hk,byteAt,getD_eq_getElem?_getD,getElem?_eq_getElem hk,getD_some]

theorem take_slice_drop (script : CScript) {first last : ℕ} (hle : first≤last) :
    script.take first++slice script first last++script.drop last=script := by
  have htake : script.take first=(script.take last).take first := by
    rw [take_take,Nat.min_eq_left hle]
  rw [slice,htake,take_append_drop,take_append_drop]

theorem length_slice {first last : ℕ} (hle : last ≤ script.length) :
    (slice script first last).length=last-first := by
  rw [slice,length_drop,length_take,Nat.min_eq_left hle]

theorem byteAt_slice (script : CScript) {first last k : ℕ} (hk : first+k < last) :
    byteAt (slice script first last) k=byteAt script (first+k) := by
  rw [byteAt,byteAt,slice,getD_eq_getElem?_getD,getD_eq_getElem?_getD,getElem?_drop,
    getElem?_take_of_lt hk]

theorem isToKeyID_some {keyID : List UInt8} (h : isToKeyID script=some keyID) :
    keyID.length=20 ∧ [opDup,opHash160,20]++keyID++[opEqualVerify,opCheckSig]=script := by
  unfold isToKeyID at h
  split_ifs at h with hform
  obtain ⟨hlen,h0,h1,h2,h23,h24⟩ := hform
  cases h
  refine ⟨length_slice (by omega),?_⟩
  have hstart : script.take 3=[opDup,opHash160,20] := by
    rw [take_succ_byteAt (by omega),take_succ_byteAt (by omega),take_succ_byteAt
      (by omega),h0,h1,h2]
    rfl
  have hend : script.drop 23=[opEqualVerify,opCheckSig] := by
    rw [drop_byteAt (by omega),drop_byteAt (by omega),h23,h24,drop_eq_nil_of_le (by omega)]
  have hall := take_slice_drop script (show 3≤23 by decide)
  rwa [hstart,hend] at hall

theorem isToScriptID_some {scriptID : List UInt8} (h : isToScriptID script=some scriptID) :
    scriptID.length=20 ∧ [opHash160,20]++scriptID++[opEqual]=script := by
  unfold isToScriptID at h
  split_ifs at h with hform
  obtain ⟨hlen,h0,h1,h22⟩ := hform
  cases h
  refine ⟨length_slice (by omega),?_⟩
  have hstart : script.take 2=[opHash160,20] := by
    rw [take_succ_byteAt (by omega),take_succ_byteAt (by omega),h0,h1]
    rfl
  have hend : script.drop 22=[opEqual] := by
    rw [drop_byteAt (by omega),h22,drop_eq_nil_of_le (by omega)]
  have hall := take_slice_drop script (show 2≤22 by decide)
  rwa [hstart,hend] at hall

theorem pushed_key {size : ℕ} (hlen : script.length=size+2) {push : UInt8}
    (hpush : byteAt script 0=push) (hcheck : byteAt script (size+1)=opCheckSig) :
    [push]++slice script 1 (size+1)++[opCheckSig]=script := by
  have hstart : script.take 1=[push] := by
    rw [take_succ_byteAt (by omega),hpush]
    rfl
  have hend : script.drop (size+1)=[opCheckSig] := by
    rw [drop_byteAt (by omega),hcheck,drop_eq_nil_of_le (by omega)]
  have hall := take_slice_drop script (show 1 ≤ size+1 by omega)
  rwa [hstart,hend] at hall

theorem byteAt_zero_slice {pubkey : List UInt8} (hpos : 0 < pubkey.length) :
    byteAt pubkey 0::slice pubkey 1 pubkey.length=pubkey := by
  rw [slice,take_length,← drop_byteAt hpos,drop_zero]

variable {keys : KeyCoding}

theorem isToPubKey_some {script pubkey : List UInt8} (h : isToPubKey keys script=some pubkey) :
    pubkey.length=33 ∧ (byteAt pubkey 0=0x02 ∨ byteAt pubkey 0=0x03) ∧
        [33]++pubkey++[opCheckSig]=script ∨
      pubkey.length=65 ∧ byteAt pubkey 0=0x04 ∧ keys.isFullyValid pubkey=true ∧
        [65]++pubkey++[opCheckSig]=script := by
  unfold isToPubKey at h
  split_ifs at h with hshort hlong hvalid
  · obtain ⟨hlen,h0,h34,h1⟩ := hshort
    cases h
    refine Or.inl ⟨length_slice (by omega),?_,pushed_key hlen h0 h34⟩
    rw [byteAt_slice script (by decide)]
    exact h1
  · obtain ⟨hlen,h0,h66,h1⟩ := hlong
    cases h
    refine Or.inr ⟨length_slice (by omega),?_,hvalid,pushed_key hlen h0 h66⟩
    rw [byteAt_slice script (by decide)]
    exact h1

theorem compress_some {script compr : List UInt8} (h : compress keys script=some compr) :
    ∃ kind : UInt8, ∃ body, compr=kind::body ∧ kind.toNat<nSpecialScripts ∧
      body.length=getSpecialSize kind.toNat ∧ decompress keys kind.toNat body=some script := by
  unfold compress at h
  cases hkey : isToKeyID script with
  | some keyID =>
    rw [hkey] at h
    cases h
    obtain ⟨hlen,hscript⟩ := isToKeyID_some hkey
    exact ⟨0,keyID,rfl,by decide,hlen,congrArg some hscript⟩
  | none =>
    rw [hkey] at h
    cases hhash : isToScriptID script with
    | some scriptID =>
      rw [hhash] at h
      cases h
      obtain ⟨hlen,hscript⟩ := isToScriptID_some hhash
      exact ⟨1,scriptID,rfl,by decide,hlen,congrArg some hscript⟩
    | none =>
      rw [hhash] at h
      cases hpubkey : isToPubKey keys script with
      | none => rw [hpubkey] at h; cases h
      | some pubkey =>
        rw [hpubkey] at h
        dsimp only at h
        rcases isToPubKey_some hpubkey with ⟨hlen,hkind,hscript⟩ | ⟨hlen,hkind,hvalid,hscript⟩
        · rw [if_pos hkind] at h
          cases h
          have hbody := @byteAt_zero_slice pubkey (by omega)
          rw [hlen] at hbody
          refine ⟨_,_,rfl,?_,?_,?_⟩
          · rcases hkind with hkind | hkind <;> rw [hkind] <;> decide
          · rw [length_slice (by omega)]
            rcases hkind with hkind | hkind <;> rw [hkind] <;> rfl
          · have hform : decompress keys (byteAt pubkey 0).toNat (slice pubkey 1 33)=
                some ([33]++(byteAt pubkey 0::slice pubkey 1 33)++[opCheckSig]) := by
              rcases hkind with hkind | hkind <;> rw [hkind] <;> rfl
            rw [hform,hbody,hscript]
        · have hneither : ¬(byteAt pubkey 0=0x02 ∨ byteAt pubkey 0=0x03) := by
            rw [hkind]
            decide
          rw [if_neg hneither,if_pos hkind] at h
          cases h
          have hparity : byteAt pubkey 64%2=0 ∨ byteAt pubkey 64%2=1 := by
            grind
          have hlong := keys.decompress_valid pubkey hlen hkind hvalid
          refine ⟨_,_,rfl,?_,?_,?_⟩
          · rcases hparity with hparity | hparity <;> rw [hparity] <;> decide
          · rw [length_slice (by omega)]
            rcases hparity with hparity | hparity <;> rw [hparity] <;> rfl
          · have hform : decompress keys (4+byteAt pubkey 64%2).toNat (slice pubkey 1 33)=
                (keys.decompress ((2+byteAt pubkey 64%2)::slice pubkey 1 33)).map (fun pubkey =>
                  [65]++pubkey++[opCheckSig]) := by
              rcases hparity with hparity | hparity <;> rw [hparity] <;> rfl
            rw [hform,hlong,map_some,hscript]

end ScriptForms

variable {keys : KeyCoding}

/-- Coins that a block can spend: with a height, an amount in range and a script
that is not too long. -/
structure UndoCoin (entry : Coin) : Prop where
  /-- Coins have the height of a block after the first. -/
  height_pos : 0 < entry.nHeight
  height_lt : entry.nHeight < 2^30
  range : moneyRange entry.out.nValue=true
  script : entry.out.scriptPubKey.length ≤ maxScriptSize

/-- Scripts are read back, compressed or not. -/
theorem reads_readScript {script : CScript} (hlen : script.length ≤ maxScriptSize) :
    Reads (readScript keys) (writeScript keys script) script := by
  have hmax : maxScriptSize=10000 := rfl
  have hspecial : nSpecialScripts=6 := rfl
  unfold writeScript
  cases hcompress : compress keys script with
  | some compr =>
    obtain ⟨kind,body,rfl,hkind,hbody,hscript⟩ := compress_some hcompress
    have hread : Reads (readVarInt 32) [kind] kind.toNat := by
      intro rest
      change readVarIntLoop 32 0 (kind::rest)=some (kind.toNat,rest)
      rw [readVarIntLoop,if_neg (by omega)]
      have hvalue : (0*128+kind.toNat%128)%2^32=kind.toNat := by omega
      rw [hvalue]
    change Reads (readScript keys) ([kind]++body) script
    refine hread.bind ?_
    rw [if_pos hkind,← hbody]
    refine (reads_readBytes body).map ?_
    rw [hscript,getD_some]
    exact reads_pure script
  | none =>
    refine (@reads_readVarInt 32 _ (by omega)).bind ?_
    rw [if_neg (by omega),Nat.add_sub_cancel]
    refine (reads_readBytes script).map ?_
    rw [if_neg (Nat.not_lt.mpr hlen)]
    exact reads_pure script

theorem reads_readTxOut {txout : CTxOut} (hrange : moneyRange txout.nValue=true)
    (hlen : txout.scriptPubKey.length ≤ maxScriptSize) :
    Reads (readTxOut keys) (writeTxOut keys txout) txout := by
  rw [moneyRange,Bool.and_eq_true,decide_eq_true_eq,decide_eq_true_eq] at hrange
  obtain ⟨hlow,hhigh⟩ := hrange
  have hmax : maxMoney=10^16 := by decide
  obtain ⟨amount,hamount⟩ := Int.eq_ofNat_of_zero_le hlow
  have hsmall : amount≤10^16 := by omega
  have hnat : (txout.nValue%2^64).toNat=amount := by omega
  obtain ⟨hback,hfits⟩ := decompressAmount_compressAmount hsmall
  unfold writeTxOut
  rw [hnat]
  refine (reads_readVarInt hfits).bind ?_
  refine (reads_readScript hlen).map ?_
  have hvalue : Int.bmod (amount : ℤ) (2^64)=txout.nValue := by
    rw [hamount]
    exact Int.bmod_eq_of_le_mul_two (by omega) (by omega)
  rw [hback,hvalue]
  exact reads_pure txout

theorem reads_readUndoCoin {entry : Coin} (h : UndoCoin entry) :
    Reads (readUndoCoin keys) (writeUndoCoin keys entry) entry := by
  have hpos := h.height_pos
  have hlt := h.height_lt
  have hheight : (entry.nHeight*2+if entry.fCoinBase then 1 else 0)/2=entry.nHeight := by
    cases entry.fCoinBase with
    | true => rw [if_pos rfl]; omega
    | false => rw [if_neg Bool.false_ne_true]; omega
  have hflag : decide ((entry.nHeight*2+if entry.fCoinBase then 1 else 0)%2=1)=entry.fCoinBase := by
    cases entry.fCoinBase with
    | true => rw [if_pos rfl,decide_eq_true_eq]; omega
    | false => rw [if_neg Bool.false_ne_true,decide_eq_false_iff_not]; omega
  have hcode : (entry.nHeight*2+if entry.fCoinBase then 1 else 0) < 2^32 := by
    cases entry.fCoinBase with
    | true => rw [if_pos rfl]; omega
    | false => rw [if_neg Bool.false_ne_true]; omega
  have hdummy : Reads (readVarInt 32) [0] 0 := fun _ => rfl
  unfold writeUndoCoin
  rw [if_pos hpos,append_assoc]
  refine (reads_readVarInt hcode).bind ?_
  rw [hheight,if_pos hpos,hflag]
  refine hdummy.bind ?_
  exact (reads_readTxOut h.range h.script).map (reads_pure entry)

theorem reads_readTxUndo {vprevout : List Coin} (hcount : vprevout.length ≤ maxInputsPerBlock)
    (hcoins : ∀ entry∈vprevout, UndoCoin entry) :
    Reads (readTxUndo keys) (writeTxUndo keys vprevout) vprevout := by
  have hmax : maxInputsPerBlock ≤ maxSize := by decide
  refine (reads_readCompactSize (le_trans hcount hmax)).bind ?_
  rw [if_neg (Nat.not_lt.mpr hcount)]
  exact reads_readMany (fun entry hm => reads_readUndoCoin (hcoins entry hm))

theorem reads_readBlockUndo {vtxundo : List (List Coin)} (hsize : vtxundo.length ≤ maxSize)
    (hcounts : ∀ vprevout∈vtxundo, vprevout.length ≤ maxInputsPerBlock)
    (hcoins : ∀ vprevout∈vtxundo, ∀ entry∈vprevout, UndoCoin entry) :
    Reads (readBlockUndo keys) (writeBlockUndo keys vtxundo) vtxundo := by
  refine (reads_readCompactSize hsize).bind ?_
  exact reads_readMany (fun vprevout hm => reads_readTxUndo (hcounts vprevout hm)
    (hcoins vprevout hm))

/-- Undo data are read back from disk. -/
theorem undoReadFromDisk_written {hasher : UndoHasher} {vtxundo : List (List Coin)}
    (hsize : vtxundo.length ≤ maxSize)
    (hcounts : ∀ vprevout∈vtxundo, vprevout.length ≤ maxInputsPerBlock)
    (hcoins : ∀ vprevout∈vtxundo, ∀ entry∈vprevout, UndoCoin entry) (hashBlock : Uint256) :
    undoReadFromDisk keys hasher (undoWriteToDisk keys hasher vtxundo hashBlock) hashBlock=
      some vtxundo := by
  have hlen := hasher.length_getHash hashBlock (writeBlockUndo keys vtxundo)
  have hread := @reads_readBlockUndo keys _ hsize hcounts hcoins
    (hasher.getHash hashBlock (writeBlockUndo keys vtxundo))
  have hchecksum := reads_readBytes (hasher.getHash hashBlock (writeBlockUndo keys vtxundo)) []
  rw [append_nil,hlen] at hchecksum
  unfold undoReadFromDisk undoWriteToDisk
  rw [hread]
  dsimp only
  rw [hchecksum]
  dsimp only
  rw [length_append,Nat.add_sub_cancel,take_left,if_neg (not_not.mpr rfl)]

end Pyrk.UndoData
