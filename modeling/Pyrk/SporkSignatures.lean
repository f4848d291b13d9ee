import Pyrk.SporkAgreement
import Pyrk.TransactionEncoding
import Mathlib.Logic.Equiv.List

/-!
# What a spork signature authorises

A key signs a hash of number, value and time of a spork. The old format hashes decimal numbers with
nothing in between, so that digits can be moved.
-/

namespace Pyrk.Sporks

open Transaction Script UndoData TransactionEncoding List Option CSporkMessage CSporkManager

/-- Text that is hashed before every signed message. -/
def strMessageMagic : String := "DarkCoin Signed Message:\n"

/-- Bytes of a text. -/
def writeString (text : String) : List UInt8 := writeByteVector text.toByteArray.data.toList

/-- Bytes of number, value and time. -/
def signatureBytes (nSporkID nValue nTimeSigned : ℤ) : List UInt8 :=
  leBytes 4 (nSporkID%256^4).toNat++(leBytes 8 (nValue%256^8).toNat++
    leBytes 8 (nTimeSigned%256^8).toNat)

/-- Bytes that are hashed for a text. -/
def messageBytes (strMessage : String) : List UInt8 :=
  writeString strMessageMagic++writeString strMessage

/-- The hashes of sporks, all made by one hash function. -/
def hashContext (hash : List UInt8 → Uint256)
    (recoverCompact : Uint256 → List UInt8 → Option CKeyID) : SporkContext where
  serializeHash spork := hash (signatureBytes spork.nSporkID spork.nValue spork.nTimeSigned++
    writeByteVector spork.vchSig)
  signatureHash nSporkID nValue nTimeSigned := hash (signatureBytes nSporkID nValue nTimeSigned)
  magicHash strMessage := hash (messageBytes strMessage)
  recoverCompact := recoverCompact

/-- A key that signs. -/
structure CKey where
  keyID : CKeyID
  /-- Signature of a hash. A key that is not valid signs nothing. -/
  signCompact : Uint256 → Option (List UInt8)

namespace CSporkMessage

/-- Sign a message and check the signature. -/
def sign (ctx : SporkContext) (key : CKey) (fSporkSixActive : Bool) (spork : CSporkMessage) :
    Option CSporkMessage := do
  let vchSig ← key.signCompact (spork.signedHash ctx fSporkSixActive)
  if ctx.recoverCompact (spork.signedHash ctx fSporkSixActive) vchSig=some key.keyID then
    some { spork with vchSig }
  else none

/-- The decimal numbers of number, value and time, one after the other. -/
def strMessage (spork : CSporkMessage) : String :=
  toString spork.nSporkID++toString spork.nValue++toString spork.nTimeSigned

/-- The numbers fit into the fields of a message. -/
structure Fits (spork : CSporkMessage) : Prop where
  nSporkID : -2^31 ≤ spork.nSporkID ∧ spork.nSporkID < 2^31
  nValue : -2^63 ≤ spork.nValue ∧ spork.nValue < 2^63
  nTimeSigned : -2^63 ≤ spork.nTimeSigned ∧ spork.nTimeSigned < 2^63

/-- Two messages have the same number, value and time. -/
def SaysSame (first second : CSporkMessage) : Prop :=
  first.nSporkID=second.nSporkID ∧ first.nValue=second.nValue ∧
    first.nTimeSigned=second.nTimeSigned

end CSporkMessage

/-- An authorised key is recovered from a signature of this key with the signed hash only. -/
def Unforgeable (recoverCompact : Uint256 → List UInt8 → Option CKeyID)
    (keys : OrderedSet CKeyID) (key : CKey) : Prop :=
  ∀ hash vchSig other signer, key.signCompact hash=some vchSig → signer∈keys →
    recoverCompact other vchSig=some signer → other=hash

/-- Time and state of a node let it take a message of a signer. -/
def Takes (env : SporkEnv) (mgr : CSporkManager) (signer : CKeyID) (spork : CSporkMessage) :
    Prop :=
  CSporkManager.Timely (env,spork) ∧
    ∀ stored, activeSpork mgr.mapSporksActive spork.nSporkID signer=some stored →
      stored.nTimeSigned < spork.nTimeSigned

/-- Under the signature of a message a node takes nothing else. -/
def AuthorisesOne (ctx : SporkContext) (env : SporkEnv) (mgr : CSporkManager)
    (signed : CSporkMessage) : Prop :=
  ∀ other : CSporkMessage, other.Fits → other.vchSig=signed.vchSig →
    (mgr.processSpork ctx env other).1=.accepted → other.SaysSame signed

theorem signed_of_leBytes {width : ℕ} {first second : ℤ}
    (h : leBytes width (first%256^width).toNat=leBytes width (second%256^width).toNat) :
    first%256^width=second%256^width := by
  have hpos : (0:ℤ) < 256^width := by positivity
  have hlt : ∀ n : ℤ, (n%256^width).toNat < 256^width := by
    intro n
    have hmod := Int.emod_lt_of_pos n hpos
    rw [Int.toNat_lt (Int.emod_nonneg n hpos.ne')]
    exact_mod_cast hmod
  have hvalue := congrArg littleEndian h
  rw [littleEndian_leBytes width (hlt first),littleEndian_leBytes width (hlt second)] at hvalue
  have hfirst := Int.emod_nonneg first hpos.ne'
  have hsecond := Int.emod_nonneg second hpos.ne'
  omega

theorem saysSame_of_signatureBytes {first second : CSporkMessage} (hfirst : first.Fits)
    (hsecond : second.Fits)
    (h : signatureBytes first.nSporkID first.nValue first.nTimeSigned=
      signatureBytes second.nSporkID second.nValue second.nTimeSigned) :
    first.SaysSame second := by
  obtain ⟨hid,h⟩ := append_inj h (by simp only [length_leBytes])
  obtain ⟨hvalue,htime⟩ := append_inj h (by simp only [length_leBytes])
  have hid := signed_of_leBytes hid
  have hvalue := signed_of_leBytes hvalue
  have htime := signed_of_leBytes htime
  have hranges := And.intro hfirst.nSporkID hsecond.nSporkID
  have hvalues := And.intro hfirst.nValue hsecond.nValue
  have htimes := And.intro hfirst.nTimeSigned hsecond.nTimeSigned
  refine ⟨?_,?_,?_⟩ <;> omega

theorem length_writeByteVector (bytes : List UInt8) :
    (writeByteVector bytes).length=(writeCompactSize bytes.length).length+bytes.length :=
  length_append

theorem writeString_injective : Function.Injective writeString := by
  intro first second h
  have hlen := congrArg length h
  simp only [writeString,length_writeByteVector,writeCompactSize] at hlen
  have hsame : first.toByteArray.data.toList.length=second.toByteArray.data.toList.length := by
    split_ifs at hlen <;> simp only [length_cons,length_leBytes] at hlen <;> omega
  unfold writeString writeByteVector at h
  rw [hsame] at h
  have hdata := Array.toList_inj.mp (append_cancel_left h)
  exact String.toByteArray_inj.mp (ByteArray.ext hdata)

theorem signatureBytes_ne (nSporkID nValue nTimeSigned : ℤ) (strMessage : String) :
    signatureBytes nSporkID nValue nTimeSigned≠messageBytes strMessage := by
  intro h
  have hlen := congrArg length h
  have hmagic : (writeString strMessageMagic).length=26 := by decide
  simp only [signatureBytes,messageBytes,length_append,length_leBytes,hmagic] at hlen
  omega

section Acceptance

variable {hash : List UInt8 → Uint256} {recoverCompact : Uint256 → List UInt8 → Option CKeyID}
  {key : CKey} {env : SporkEnv} {mgr : CSporkManager} {spork signed other : CSporkMessage}
  {fSporkSixActive : Bool}

variable {ctx : SporkContext}

theorem CSporkMessage.sign_eq_some (h : spork.sign ctx key fSporkSixActive=some signed) :
    ∃ vchSig, key.signCompact (spork.signedHash ctx fSporkSixActive)=some vchSig ∧
      ctx.recoverCompact (spork.signedHash ctx fSporkSixActive) vchSig=some key.keyID ∧
      signed={ spork with vchSig } := by
  obtain ⟨vchSig,hsig,h⟩ := bind_eq_some_iff.mp h
  split_ifs at h with hcheck
  exact ⟨vchSig,hsig,hcheck,(some.inj h).symm⟩

theorem signedHash_eq (hfree : Function.Injective hash) (hother : other.Fits) (hfits : spork.Fits)
    {format : Bool} (h : other.signedHash (hashContext hash recoverCompact) format=
      spork.signedHash (hashContext hash recoverCompact) fSporkSixActive) :
    format=fSporkSixActive ∧ (fSporkSixActive=true → other.SaysSame spork) ∧
      (fSporkSixActive=false → other.strMessage=spork.strMessage) := by
  cases format with
  | true =>
    cases fSporkSixActive with
    | true =>
      exact ⟨rfl,fun _ => saysSame_of_signatureBytes hother hfits (hfree h),fun he => by cases he⟩
    | false => exact absurd (hfree h) (signatureBytes_ne _ _ _ _)
  | false =>
    cases fSporkSixActive with
    | true => exact absurd (hfree h).symm (signatureBytes_ne _ _ _ _)
    | false =>
      have htext := writeString_injective (append_cancel_left (hfree h))
      exact ⟨rfl,fun he => (by cases he),fun _ => htext⟩

theorem processSpork_accepted : (mgr.processSpork ctx env other).1=.accepted ↔ ∃ signer,
      mgr.findSigner ctx other (mgr.isSporkActive env.nAdjustedTime spork6NewSigs)=
        some signer ∧ Takes env mgr signer other := by
  unfold processSpork
  cases hfound : mgr.findSigner ctx other
      (mgr.isSporkActive env.nAdjustedTime spork6NewSigs) with
  | none => split_ifs <;> simp
  | some signer =>
    simp only [some.injEq,exists_eq_left']
    unfold Takes CSporkManager.Timely
    cases activeSpork mgr.mapSporksActive other.nSporkID signer <;>
      split_ifs <;> simp_all <;> grind

theorem getSignerKeyID_of_findSigner {fSpork6IsActive : Bool}
    {signer : CKeyID} (h : mgr.findSigner ctx other fSpork6IsActive=some signer) :
    ∃ format, other.getSignerKeyID ctx format=some signer ∧
      signer∈mgr.setSporkPubKeyIDs := by
  unfold findSigner at h
  split at h
  case h_1 found hfound =>
    rw [h,filter_eq_some_iff] at hfound
    exact ⟨_,hfound.1,hfound.2⟩
  case h_2 =>
    rw [filter_eq_some_iff] at h
    exact ⟨_,h.1,h.2⟩

theorem findSigner_of_signedHash {ctx : SporkContext}
    (honly : Unforgeable ctx.recoverCompact mgr.setSporkPubKeyIDs key)
    (hkey : key.keyID∈mgr.setSporkPubKeyIDs) {format : Bool}
    (hsig : key.signCompact (other.signedHash ctx format)=some other.vchSig)
    (hcheck : ctx.recoverCompact (other.signedHash ctx format) other.vchSig=
      some key.keyID) (fSpork6IsActive : Bool) :
    mgr.findSigner ctx other fSpork6IsActive=some key.keyID := by
  have hsigned : other.signedBy ctx key.keyID=true :=
    (signedBy_iff _ _ _).mpr ⟨format,hcheck⟩
  have hone : ∀ signer∈mgr.setSporkPubKeyIDs, other.signedBy ctx signer=true →
      signer=key.keyID := by
    intro signer hsigner hby
    obtain ⟨found,hfound⟩ := (signedBy_iff _ _ _).mp hby
    have hsame := honly _ _ _ signer hsig hsigner hfound
    unfold getSignerKeyID at hfound
    rw [hsame,hcheck] at hfound
    exact (some.inj hfound).symm
  have hauth : CSporkManager.Authorised ctx mgr.setSporkPubKeyIDs (·=other) := by
    refine ⟨?_,?_,?_⟩
    · intro message he
      exact ⟨key.keyID,hkey,he ▸ hsigned⟩
    · intro message he first hfirst second hsecond hbyFirst hbySecond
      rw [hone first hfirst (he ▸ hbyFirst),hone second hsecond (he ▸ hbySecond)]
    · intro first second signer hfirst hsecond _ _ _ _ _
      rw [hfirst,hsecond]
  exact findSigner_eq hauth rfl rfl hkey hsigned fSpork6IsActive

/-- Under a signature a node accepts just what has the signed hash and what it takes. -/
theorem accepted_iff (hfree : Function.Injective hash)
    (honly : Unforgeable recoverCompact mgr.setSporkPubKeyIDs key)
    (hkey : key.keyID∈mgr.setSporkPubKeyIDs) (hfits : spork.Fits)
    (hsign : spork.sign (hashContext hash recoverCompact) key fSporkSixActive=some signed)
    (hother : other.Fits) (hsig : other.vchSig=signed.vchSig) :
    (mgr.processSpork (hashContext hash recoverCompact) env other).1=.accepted ↔
      Takes env mgr key.keyID other ∧ (fSporkSixActive=true → other.SaysSame spork) ∧
        (fSporkSixActive=false → other.strMessage=spork.strMessage) := by
  obtain ⟨vchSig,hmade,hcheck,rfl⟩ := sign_eq_some hsign
  rw [processSpork_accepted]
  constructor
  · rintro ⟨signer,hfound,htakes⟩
    obtain ⟨format,hsigner,hmem⟩ := getSignerKeyID_of_findSigner hfound
    unfold getSignerKeyID at hsigner
    rw [hsig] at hsigner
    have hhash := honly _ _ _ signer hmade hmem hsigner
    rw [hhash] at hsigner
    have hkeyID := some.inj (hsigner.symm.trans hcheck)
    exact ⟨hkeyID ▸ htakes,(signedHash_eq hfree hother hfits hhash).2⟩
  · rintro ⟨htakes,hnew,hold⟩
    have hhash : other.signedHash (hashContext hash recoverCompact) fSporkSixActive=
        spork.signedHash (hashContext hash recoverCompact) fSporkSixActive := by
      unfold signedHash
      cases fSporkSixActive with
      | true =>
        obtain ⟨hid,hvalue,htime⟩ := hnew rfl
        rw [hid,hvalue,htime]
      | false =>
        have htext := hold rfl
        unfold strMessage at htext
        rw [htext,if_neg Bool.false_ne_true,if_neg Bool.false_ne_true]
    refine ⟨key.keyID,@findSigner_of_signedHash _ _ _ _ honly hkey fSporkSixActive ?_ ?_ _,htakes⟩
    · rw [hhash,hsig]
      exact hmade
    · rw [hhash,hsig]
      exact hcheck

/-- A signature authorises its message only, exactly if it is of the new format or no other numbers
have the same text. -/
theorem sign_authorisesOne_iff (hfree : Function.Injective hash)
    (honly : Unforgeable recoverCompact mgr.setSporkPubKeyIDs key)
    (hkey : key.keyID∈mgr.setSporkPubKeyIDs) (hfits : spork.Fits)
    (hsign : spork.sign (hashContext hash recoverCompact) key fSporkSixActive=some signed) :
    AuthorisesOne (hashContext hash recoverCompact) env mgr signed ↔
      fSporkSixActive=true ∨ ∀ other : CSporkMessage, other.Fits →
        other.strMessage=spork.strMessage → Takes env mgr key.keyID other →
        other.SaysSame spork := by
  have hnumbers : ∀ other : CSporkMessage, other.SaysSame signed ↔ other.SaysSame spork := by
    obtain ⟨vchSig,-,-,rfl⟩ := sign_eq_some hsign
    exact fun _ => Iff.rfl
  constructor
  · intro hone
    cases fSporkSixActive with
    | true => exact .inl rfl
    | false =>
      refine .inr (fun other hother htext htakes => ?_)
      have hforged : ({ other with vchSig := signed.vchSig } : CSporkMessage).Fits :=
        ⟨hother.nSporkID,hother.nValue,hother.nTimeSigned⟩
      exact (hnumbers _).mp (hone { other with vchSig := signed.vchSig } hforged rfl
        ((accepted_iff hfree honly hkey hfits hsign hforged rfl).mpr
          ⟨htakes,fun he => (by cases he),fun _ => htext⟩))
  · intro hunique other hother hsig hacc
    obtain ⟨htakes,hnew,hold⟩ :=
      (accepted_iff hfree honly hkey hfits hsign hother hsig).mp hacc
    rw [hnumbers]
    cases fSporkSixActive with
    | true => exact hnew rfl
    | false => exact hunique.resolve_left Bool.false_ne_true other hother (hold rfl) htakes

end Acceptance

/-- A hash function without collisions. -/
def spelledHash (bytes : List UInt8) : Uint256 := Encodable.encode (bytes.map UInt8.toNat)

theorem spelledHash_injective : Function.Injective spelledHash :=
  Encodable.encode_injective.comp (map_injective_iff.mpr (fun _ _ => UInt8.toNat_inj.mp))

/-- A key with signatures as long as the hash is large. -/
def unaryKey : CKey := ⟨7,fun hash => some (replicate hash 0)⟩

/-- Recover the key from its own signatures. -/
def recoverUnary (hash : Uint256) (vchSig : List UInt8) : Option CKeyID :=
  if vchSig=replicate hash 0 then some 7 else none

theorem unforgeable_unaryKey (keys : OrderedSet CKeyID) : Unforgeable recoverUnary
    keys unaryKey := by
  intro hash vchSig other signer hsig _ hrecover
  unfold recoverUnary at hrecover
  split_ifs at hrecover with hother
  have hlen := congrArg length ((some.inj hsig).trans hother)
  simpa using hlen.symm

/-- A message for a spork whose value is 1. -/
def instantSpork : CSporkMessage := ⟨[],10001,1,1500000000⟩

/-- The last digits of its time give the same text with the value 11. -/
def splitSpork : CSporkMessage := ⟨[],10001,11,500000000⟩

theorem instantSpork_fits : instantSpork.Fits := ⟨by decide,by decide,by decide⟩

def signedSpork (fSporkSixActive : Bool) : CSporkMessage :=
  { instantSpork with vchSig := replicate (instantSpork.signedHash
      (hashContext spelledHash recoverUnary) fSporkSixActive) 0 }

theorem sign_instantSpork (fSporkSixActive : Bool) :
    instantSpork.sign (hashContext spelledHash recoverUnary) unaryKey fSporkSixActive=
      some (signedSpork fSporkSixActive) :=
  if_pos (if_pos rfl)

/-- A node with one key and without messages. -/
def freshManager : CSporkManager where
  setSporkPubKeyIDs := OrderedSet.empty.insert 7
  nMinSporkKeys := 1

theorem takes_splitSpork (vchSig : List UInt8) :
    Takes ⟨false,true,1500000000⟩ freshManager unaryKey.keyID { splitSpork with vchSig } :=
  ⟨⟨rfl,rfl,by dsimp only [splitSpork]; omega⟩,fun _ hstored =>
    absurd hstored (some_ne_none _).symm⟩

/-- A signature in the new format authorises one message. -/
theorem sign_authorisesOne_new : Function.Injective spelledHash ∧
    Unforgeable recoverUnary freshManager.setSporkPubKeyIDs unaryKey ∧
    unaryKey.keyID∈freshManager.setSporkPubKeyIDs ∧ instantSpork.Fits ∧
    AuthorisesOne (hashContext spelledHash recoverUnary) ⟨false,true,1500000000⟩ freshManager
      (signedSpork true) :=
  ⟨spelledHash_injective,unforgeable_unaryKey _,by decide,instantSpork_fits,
    (sign_authorisesOne_iff spelledHash_injective (unforgeable_unaryKey _) (by decide)
      instantSpork_fits (sign_instantSpork true)).mpr (.inl rfl)⟩

/-- The old signature of a message lets a node take another value. -/
theorem sign_authorises_split : Function.Injective spelledHash ∧
    Unforgeable recoverUnary freshManager.setSporkPubKeyIDs unaryKey ∧
    unaryKey.keyID∈freshManager.setSporkPubKeyIDs ∧ instantSpork.Fits ∧
    instantSpork.sign (hashContext spelledHash recoverUnary) unaryKey false=
      some (signedSpork false) ∧
    ¬AuthorisesOne (hashContext spelledHash recoverUnary) ⟨false,true,1500000000⟩ freshManager
      (signedSpork false) := by
  refine ⟨spelledHash_injective,unforgeable_unaryKey _,by decide,instantSpork_fits,
    sign_instantSpork false,fun hone => ?_⟩
  have hsplit : splitSpork.Fits := ⟨by decide,by decide,by decide⟩
  have hplain : splitSpork.strMessage=instantSpork.strMessage := by decide
  have htext : ∀ vchSig, ({ splitSpork with vchSig } : CSporkMessage).strMessage=
      instantSpork.strMessage := fun _ => hplain
  have hfits : ({ splitSpork with vchSig := (signedSpork false).vchSig } : CSporkMessage).Fits :=
    ⟨hsplit.nSporkID,hsplit.nValue,hsplit.nTimeSigned⟩
  have hsig : ∀ vchSig, ({ splitSpork with vchSig } : CSporkMessage).vchSig=vchSig := fun _ => rfl
  have hsame := hone _ hfits (hsig _) ((accepted_iff spelledHash_injective
    (unforgeable_unaryKey _) (by decide) instantSpork_fits (sign_instantSpork false) hfits
      (hsig _)).mpr
      ⟨takes_splitSpork _,fun he => (by cases he),fun _ => htext _⟩)
  have hvalue := hsame.2.1
  dsimp only [splitSpork,signedSpork,instantSpork] at hvalue
  omega

end Pyrk.Sporks
