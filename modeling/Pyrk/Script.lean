import Mathlib.Data.List.Basic

/-!
# Output scripts and their destinations

Scripts are byte lists. The fixed-shape tests read the offsets of the node's own tests, and a
destination is found by template comparison.
-/

namespace Pyrk.Script

open List

abbrev CScript := List UInt8

/-- Largest script the interpreter runs; longer scripts are never stored. -/
def maxScriptSize : ℕ := 10000

/-- Opcode that copies the top stack element. -/
def opDup : UInt8 := 0x76
/-- Opcode that marks an output as provably unspendable. -/
def opReturn : UInt8 := 0x6a
/-- Opcode of the script hash equality test. -/
def opEqual : UInt8 := 0x87
/-- Opcode of the key hash equality test. -/
def opEqualVerify : UInt8 := 0x88
/-- Opcode that hashes the top stack element to 160 bits. -/
def opHash160 : UInt8 := 0xa9
/-- Opcode of a single signature check. -/
def opCheckSig : UInt8 := 0xac
/-- Push with a one byte length. -/
def opPushData1 : UInt8 := 0x4c
/-- Push with a two byte length. -/
def opPushData2 : UInt8 := 0x4d
/-- Push with a four byte length. -/
def opPushData4 : UInt8 := 0x4e

/-- Byte at an offset; only read where the length test has passed. -/
def byteAt (script : CScript) (offset : ℕ) : UInt8 := script.getD offset 0

/-- Bytes from one offset up to another. -/
def slice (script : CScript) (first last : ℕ) : List UInt8 := (script.take last).drop first

/-- Little-endian number stored in a byte list. -/
def littleEndian : List UInt8 → ℕ
  | [] => 0
  | byte::tail => byte.toNat+256*littleEndian tail

/-- Pay-to-pubkey-hash scripts are recognised by length and five bytes. -/
def isPayToPublicKeyHash (script : CScript) : Bool :=
  script.length=25 && byteAt script 0=opDup && byteAt script 1=opHash160 &&
    byteAt script 2=0x14 && byteAt script 23=opEqualVerify && byteAt script 24=opCheckSig

/-- Pay-to-script-hash scripts are recognised by length and three bytes. -/
def isPayToScriptHash (script : CScript) : Bool :=
  script.length=23 && byteAt script 0=opHash160 && byteAt script 1=0x14 && byteAt script 22=opEqual

/-- Pay-to-pubkey scripts carry a compressed or an uncompressed key. -/
def isPayToPublicKey (script : CScript) : Bool :=
  if script.length=35 then
    (byteAt script 1=0x02 || byteAt script 1=0x03) && byteAt script 34=opCheckSig
  else if script.length=67 then
    byteAt script 1=0x04 && byteAt script 66=opCheckSig
  else false

/-- Outputs that can never be spent and are kept out of the coin set. -/
def isUnspendable (script : CScript) : Bool :=
  (0 < script.length && byteAt script 0=opReturn) || maxScriptSize < script.length

/-- A parsed operation with the bytes it pushes. -/
structure Operation where
  opcode : UInt8
  /-- Pushed data, empty for every opcode above the push range. -/
  data : List UInt8
  deriving DecidableEq

/-- Length operand of a push opcode and the bytes after it. -/
def pushLength (opcode : UInt8) (tail : CScript) : Option (ℕ×CScript) :=
  if opcode<opPushData1 then some (opcode.toNat,tail)
  else
    let width := if opcode=opPushData1 then 1 else if opcode=opPushData2 then 2 else 4
    if tail.length<width then none else some (littleEndian (tail.take width),tail.drop width)

/-- Read one operation and return the remaining bytes. -/
def getOp : CScript → Option (Operation×CScript)
  | [] => none
  | opcode::tail =>
    if opcode≤opPushData4 then
      match pushLength opcode tail with
      | none => none
      | some (size,rest) =>
        if rest.length < size then none else some (⟨opcode,rest.take size⟩,rest.drop size)
    else some (⟨opcode,[]⟩,tail)

/-- Positions of a script template. -/
inductive TemplateOp where
  | pubKey
  | pubKeyHash
  | exactly (opcode : UInt8)

def TemplateOp.fits (position : TemplateOp) (operation : Operation) : Bool :=
  match position with
  | .pubKey => 33≤operation.data.length && operation.data.length≤65
  | .pubKeyHash => operation.data.length=20
  | .exactly opcode => operation.opcode=opcode && operation.data.isEmpty

/-- Compare a script with a template and collect the matched data. -/
def matchTemplate : List TemplateOp → CScript → Option (List (List UInt8))
  | [],[] => some []
  | [],_::_ => none
  | position::template,script =>
    match getOp script with
    | none => none
    | some (operation,rest) =>
      if position.fits operation=true then
        (matchTemplate template rest).map (fun data =>
          if operation.data.isEmpty then data else operation.data::data)
      else none

def pubKeyTemplate : List TemplateOp := [.pubKey,.exactly opCheckSig]

def pubKeyHashTemplate : List TemplateOp :=
  [.exactly opDup,.exactly opHash160,.pubKeyHash,.exactly opEqualVerify,.exactly opCheckSig]

/-- Where an output pays to. -/
inductive CTxDestination where
  | noDestination
  | keyID (key : ℕ)
  | scriptID (script : ℕ)
  deriving DecidableEq

/-- Length that the header byte of a public key announces. -/
def pubKeyLength (header : UInt8) : ℕ :=
  if header=2 ∨ header=3 then 33
  else if header=4 ∨ header=6 ∨ header=7 then 65
  else 0

/-- A key is valid when its header announces its own length. -/
def isValidPubKey (key : List UInt8) : Bool :=
  match key with
  | [] => false
  | header::_ => pubKeyLength header≠0 && pubKeyLength header=key.length

/-- Single destination of a script. Null data and multisig scripts match no
template that yields one, so they fall through to `none`. -/
def extractDestination (hash160 : List UInt8 → ℕ) (script : CScript) : Option CTxDestination :=
  if isPayToScriptHash script then some (.scriptID (littleEndian (slice script 2 22)))
  else
    match matchTemplate pubKeyTemplate script with
    | some (key::_) => if isValidPubKey key then some (.keyID (hash160 key)) else none
    | _ =>
      match matchTemplate pubKeyHashTemplate script with
      | some (hash::_) => some (.keyID (littleEndian hash))
      | _ => none

theorem littleEndian_injective {first second : List UInt8} (hl : first.length=second.length)
    (he : littleEndian first=littleEndian second) : first=second := by
  induction first generalizing second with
  | nil => exact (eq_nil_of_length_eq_zero hl.symm).symm
  | cons byte tail ih =>
    cases second with
    | nil => cases hl
    | cons other rest =>
      have hb := byte.toNat_lt
      have ho := other.toNat_lt
      simp only [littleEndian,length_cons] at he hl
      have hhead : byte=other := UInt8.toNat.inj (by omega)
      have htail : tail=rest := ih (Nat.succ.inj hl) (by omega)
      rw [hhead,htail]

/-- An operation is its opcode and, if that pushes data, the bytes behind the length. -/
theorem getOp_cases {script rest : CScript} {operation : Operation}
    (h : getOp script=some (operation,rest)) : ∃ tail, script=operation.opcode::tail ∧
      (operation.opcode≤opPushData4 ∧ tail.length ≤ rest.length+operation.data.length+4 ∨
        operation.data=[] ∧ rest=tail) := by
  cases script with
  | nil => cases h
  | cons opcode tail =>
    unfold getOp at h
    dsimp only at h
    split_ifs at h with hpush
    · cases hl : pushLength opcode tail with
      | none => rw [hl] at h; cases h
      | some pair =>
        obtain ⟨size,after⟩ := pair
        rw [hl] at h
        dsimp only at h
        split_ifs at h with hsize
        cases h
        have hafter : tail.length≤after.length+4 := by
          unfold pushLength at hl
          dsimp only at hl
          split_ifs at hl <;> cases hl <;> try simp only [length_drop]
          all_goals omega
        refine ⟨tail,rfl,Or.inl ⟨hpush,?_⟩⟩
        simp only [length_take,length_drop]
        omega
    · cases h
      exact ⟨_,rfl,Or.inr ⟨rfl,rfl⟩⟩

/-- Reading an operation takes at most five bytes beside its data. -/
theorem getOp_length {script rest : CScript} {operation : Operation}
    (h : getOp script=some (operation,rest)) :
    script.length ≤ rest.length+operation.data.length+5 := by
  obtain ⟨tail,he,⟨-,hpush⟩ | ⟨-,hrest⟩⟩ := getOp_cases h
  · rw [he,length_cons]
    omega
  · rw [he,hrest,length_cons]
    omega

/-- An operation starts with its opcode, and has data only if that pushes some. -/
theorem getOp_head {script rest : CScript} {operation : Operation}
    (h : getOp script=some (operation,rest)) :
    0 < script.length ∧ byteAt script 0=operation.opcode ∧
      (operation.data≠[] → operation.opcode≤opPushData4) := by
  obtain ⟨tail,he,hcase⟩ := getOp_cases h
  rw [he]
  refine ⟨Nat.succ_pos _,rfl,fun hdata => ?_⟩
  exact (hcase.resolve_right (fun hnone => hdata hnone.1)).1

variable {script : CScript}

theorem matchTemplate_cons {position : TemplateOp} {template : List TemplateOp}
    {found : List (List UInt8)}
    (h : matchTemplate (position::template) script=some found) :
    ∃ operation rest data, getOp script=some (operation,rest) ∧
      position.fits operation=true ∧ matchTemplate template rest=some data := by
  unfold matchTemplate at h
  cases hg : getOp script with
  | none => rw [hg] at h; cases h
  | some pair =>
    obtain ⟨operation,rest⟩ := pair
    rw [hg] at h
    dsimp only at h
    by_cases hfits : position.fits operation=true
    · rw [if_pos hfits] at h
      obtain ⟨data,hdata,-⟩ := Option.map_eq_some_iff.mp h
      exact ⟨operation,rest,data,rfl,hfits,hdata⟩
    · rw [if_neg hfits] at h
      cases h

theorem matchTemplate_length {template : List TemplateOp}
    {found : List (List UInt8)} (h : matchTemplate template script=some found) :
    script.length≤70*template.length := by
  induction template generalizing script found with
  | nil =>
    cases script with
    | nil => exact Nat.le_refl _
    | cons byte tail => cases h
  | cons position template ih =>
    obtain ⟨operation,rest,data,hop,hfits,hrest⟩ := matchTemplate_cons h
    have hlen := getOp_length hop
    have hdata : operation.data.length≤65 := by
      cases position with
      | pubKey => exact (of_decide_eq_true (Bool.and_eq_true_iff.mp hfits).2)
      | pubKeyHash => exact Nat.le_trans (Nat.le_of_eq (of_decide_eq_true hfits)) (by decide)
      | exactly opcode =>
        have he := (Bool.and_eq_true_iff.mp hfits).2
        rw [List.isEmpty_iff] at he
        rw [he]
        exact Nat.zero_le _
    have := ih hrest
    simp only [length_cons]
    omega

theorem extractDestination_spendable {hash160 : List UInt8 → ℕ}
    {destination : CTxDestination} (h : extractDestination hash160 script=some destination) :
    isUnspendable script=false := by
  have bounded : ∀ size, script.length ≤ size → size≤10000 → byteAt script 0≠opReturn →
      isUnspendable script=false := by
    intro size hsize hmax hfirst
    have hm : ¬maxScriptSize < script.length := by
      unfold maxScriptSize
      omega
    simp only [isUnspendable,hfirst,hm,decide_false,Bool.and_false,Bool.or_false]
  unfold extractDestination at h
  split_ifs at h with hs
  · unfold isPayToScriptHash at hs
    simp only [Bool.and_eq_true,decide_eq_true_eq] at hs
    exact bounded 23 (Nat.le_of_eq hs.1.1.1) (by decide) (hs.1.1.2 ▸ by decide)
  · cases hk : matchTemplate pubKeyTemplate script with
    | some keys =>
      obtain ⟨operation,rest,data,hop,hfits,-⟩ := matchTemplate_cons hk
      obtain ⟨-,hbyte,hpush⟩ := getOp_head hop
      have hd : operation.data≠[] := by
        intro he
        simp only [TemplateOp.fits,he,length_nil] at hfits
        exact absurd hfits (by decide)
      refine bounded _ (matchTemplate_length hk) (by decide) ?_
      rw [hbyte]
      intro he
      exact absurd (he ▸ hpush hd) (by decide)
    | none =>
      rw [hk] at h
      cases hh : matchTemplate pubKeyHashTemplate script with
      | none => rw [hh] at h; cases h
      | some hashes =>
        obtain ⟨operation,rest,data,hop,hfits,-⟩ := matchTemplate_cons hh
        obtain ⟨-,hbyte,-⟩ := getOp_head hop
        refine bounded _ (matchTemplate_length hh) (by decide) ?_
        have hcode : operation.opcode=opDup := of_decide_eq_true (Bool.and_eq_true_iff.mp hfits).1
        rw [hbyte,hcode]
        decide

end Pyrk.Script
