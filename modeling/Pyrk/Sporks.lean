import Pyrk.DeterministicMNList
import Pyrk.OrderedSet
import Mathlib.Algebra.Order.BigOperators.Group.List
import Mathlib.Algebra.Order.Ring.Nat

/-!
# Sporks

A few authorised keys sign values. A node keeps the newest message of each key for each spork, and a
value counts when enough keys agree on it.
-/

namespace Pyrk.Sporks

open Transaction DeterministicMNList OrderedMap OrderedSet List

/-- Message about the value of a spork. -/
structure CSporkMessage where
  vchSig : List UInt8
  nSporkID : ℤ
  nValue : ℤ
  nTimeSigned : ℤ
  deriving DecidableEq

/-- Hashes of messages, and the keys that signatures are recovered to. -/
structure SporkContext where
  serializeHash : CSporkMessage → Uint256
  signatureHash : ℤ → ℤ → ℤ → Uint256
  magicHash : String → Uint256
  recoverCompact : Uint256 → List UInt8 → Option CKeyID

structure CSporkManager where
  mapSporksByHash : OrderedMap Uint256 CSporkMessage := .empty
  mapSporksActive : OrderedMap ℤ (OrderedMap CKeyID CSporkMessage) := .empty
  setSporkPubKeyIDs : OrderedSet CKeyID := .empty
  nMinSporkKeys : ℤ

section Signatures

variable (ctx : SporkContext)

variable (spork : CSporkMessage)

/-- What a key signs, in the new format or in the old one. -/
def CSporkMessage.signedHash (fSporkSixActive : Bool) : Uint256 :=
  if fSporkSixActive then ctx.signatureHash spork.nSporkID spork.nValue spork.nTimeSigned
  else ctx.magicHash (toString spork.nSporkID++toString spork.nValue++
    toString spork.nTimeSigned)

/-- Key that a message was signed with, if it was signed in a format. -/
def CSporkMessage.getSignerKeyID (fSporkSixActive : Bool) : Option CKeyID :=
  ctx.recoverCompact (spork.signedHash ctx fSporkSixActive) spork.vchSig

/-- Whether a key signed a message. Without the new format both are tried. -/
def CSporkMessage.checkSignature (pubKeyId : CKeyID) (fSporkSixActive : Bool) : Bool :=
  if fSporkSixActive then spork.getSignerKeyID ctx true=some pubKeyId
  else spork.getSignerKeyID ctx false=some pubKeyId ||
    spork.getSignerKeyID ctx true=some pubKeyId

/-- Whether a key signed a message in one of the formats. -/
def CSporkMessage.signedBy (pubKeyId : CKeyID) : Bool :=
  spork.checkSignature ctx pubKeyId false || spork.checkSignature ctx pubKeyId true

theorem CSporkMessage.signedBy_iff (pubKeyId : CKeyID) : spork.signedBy ctx pubKeyId=true ↔
      ∃ fSporkSixActive, spork.getSignerKeyID ctx fSporkSixActive=some pubKeyId := by
  simp only [signedBy,checkSignature,Bool.false_eq_true,if_false,if_true,Bool.or_eq_true,
    decide_eq_true_eq,Bool.exists_bool]
  tauto

end Signatures

namespace CSporkManager

section Cleanup

variable (ctx : SporkContext) (setSporkPubKeyIDs : OrderedSet CKeyID)

/-- Walk over the messages of one spork. The iterator stands at the first of the entries that are
left. -/
def checkSigners : ℕ → List (CKeyID×CSporkMessage) →
    OrderedMap Uint256 CSporkMessage×OrderedMap CKeyID CSporkMessage →
    Option (OrderedMap Uint256 CSporkMessage×OrderedMap CKeyID CSporkMessage)
  | 0,_,_ => none
  | _+1,[],maps => some maps
  | fuel+1,itSignerPair::rest,maps =>
    -- the iterator is not moved behind a key that is not authorised
    if !setSporkPubKeyIDs.contains itSignerPair.1 then
      checkSigners fuel (itSignerPair::rest)
        (maps.1.erase (ctx.serializeHash itSignerPair.2),maps.2)
    else if !itSignerPair.2.signedBy ctx itSignerPair.1 then
      checkSigners fuel rest
        (maps.1.erase (ctx.serializeHash itSignerPair.2),maps.2.erase itSignerPair.1)
    else checkSigners fuel rest maps

/-- Walk over the sporks. -/
def checkActive (fuel : ℕ) : List (ℤ×OrderedMap CKeyID CSporkMessage) →
    OrderedMap Uint256 CSporkMessage×OrderedMap ℤ (OrderedMap CKeyID CSporkMessage) →
    Option (OrderedMap Uint256 CSporkMessage×OrderedMap ℤ (OrderedMap CKeyID CSporkMessage))
  | [],maps => some maps
  | itActive::rest,maps => do
    let checked ← checkSigners ctx setSporkPubKeyIDs fuel itActive.2.entries (maps.1,itActive.2)
    checkActive fuel rest (checked.1,
      if checked.2.entries.isEmpty then maps.2.erase itActive.1
      else maps.2.set itActive.1 checked.2)

/-- Keep what an authorised key signed. -/
def checkByHash (mapSporksByHash : OrderedMap Uint256 CSporkMessage) :
    OrderedMap Uint256 CSporkMessage :=
  mapSporksByHash.filter (fun entry =>
    setSporkPubKeyIDs.items.any (fun signer => entry.2.signedBy ctx signer))

end Cleanup

/-- Remove messages that no authorised key signed. Without a result the loops have
not ended yet. -/
def checkAndRemove (ctx : SporkContext) (fuel : ℕ) (mgr : CSporkManager) :
    Checked (Option CSporkManager) := do
  assertThat .sporkAddress (!mgr.setSporkPubKeyIDs.items.isEmpty)
  .ok ((checkActive ctx mgr.setSporkPubKeyIDs fuel mgr.mapSporksActive.entries
    (mgr.mapSporksByHash,mgr.mapSporksActive)).map (fun maps =>
      { mgr with
        mapSporksByHash := checkByHash ctx mgr.setSporkPubKeyIDs maps.1
        mapSporksActive := maps.2 }))

/-- Newest message of a key for a spork. -/
def activeSpork (active : OrderedMap ℤ (OrderedMap CKeyID CSporkMessage)) (nSporkID : ℤ)
    (signer : CKeyID) : Option CSporkMessage :=
  (active.find nSporkID).bind (fun signers => signers.find signer)

/-- What is left after a cleanup: the messages that the authorised keys signed. -/
structure CleanedUp (ctx : SporkContext) (mgr result : CSporkManager) : Prop where
  /-- Messages of authorised keys with valid signatures. -/
  active : ∀ nSporkID signer spork, activeSpork result.mapSporksActive nSporkID signer=some spork ↔
      activeSpork mgr.mapSporksActive nSporkID signer=some spork ∧
      signer∈mgr.setSporkPubKeyIDs ∧ spork.signedBy ctx signer=true
  nonempty : ∀ nSporkID signers, result.mapSporksActive.find nSporkID=some signers →
    signers.entries≠[]
  byHash : ∀ hash spork, result.mapSporksByHash.find hash=some spork ↔
    mgr.mapSporksByHash.find hash=some spork ∧
    ∃ signer∈mgr.setSporkPubKeyIDs, spork.signedBy ctx signer=true

/-- The cleanup ends and leaves the right messages. -/
def CleansUp (ctx : SporkContext) (mgr : CSporkManager) : Prop :=
  ∃ fuel result, checkAndRemove ctx fuel mgr=.ok (some result) ∧
    CleanedUp ctx mgr result

/-- Messages of authorised keys only, and no valid message under the hash of an invalid one. -/
structure Cleanable (ctx : SporkContext) (mgr : CSporkManager) : Prop where
  current : ∀ nSporkID signer spork,
    activeSpork mgr.mapSporksActive nSporkID signer=some spork →
      signer∈mgr.setSporkPubKeyIDs
  /-- Nothing valid is found by the hash of an invalid message. -/
  apart : ∀ nSporkID signer spork other signed,
    activeSpork mgr.mapSporksActive nSporkID signer=some spork →
      spork.signedBy ctx signer=false →
      mgr.mapSporksByHash.find (ctx.serializeHash spork)=some other →
      signed∈mgr.setSporkPubKeyIDs → other.signedBy ctx signed=false

section Cleanup

variable {ctx : SporkContext} {setSporkPubKeyIDs : OrderedSet CKeyID}

/-- Entries that their key did not sign. -/
def invalidEntries (ctx : SporkContext) (entries : List (CKeyID×CSporkMessage)) :
    List (CKeyID×CSporkMessage) :=
  entries.filter (fun entry => !entry.2.signedBy ctx entry.1)

/-- Messages of one spork that their keys signed. -/
def validSigners (ctx : SporkContext) (signers : OrderedMap CKeyID CSporkMessage) :
    OrderedMap CKeyID CSporkMessage :=
  signers.filter (fun entry => entry.2.signedBy ctx entry.1)

/-- Both maps without invalid entries. -/
def withoutInvalid (ctx : SporkContext) (entries : List (CKeyID×CSporkMessage))
    (maps : OrderedMap Uint256 CSporkMessage×OrderedMap CKeyID CSporkMessage) :
    OrderedMap Uint256 CSporkMessage×OrderedMap CKeyID CSporkMessage :=
  (((invalidEntries ctx entries).map (fun entry => ctx.serializeHash entry.2)).foldl
      OrderedMap.erase maps.1,
    ((invalidEntries ctx entries).map Prod.fst).foldl OrderedMap.erase maps.2)

theorem checkSigners_some {fuel : ℕ} {entries : List (CKeyID×CSporkMessage)}
    {maps result : OrderedMap Uint256 CSporkMessage×OrderedMap CKeyID CSporkMessage} :
    checkSigners ctx setSporkPubKeyIDs fuel entries maps=some result ↔
      (∀ entry∈entries, entry.1∈setSporkPubKeyIDs) ∧ entries.length < fuel ∧
      result=withoutInvalid ctx entries maps := by
  induction fuel generalizing entries maps with
  | zero => simp [checkSigners]
  | succ fuel ih =>
    cases entries with
    | nil => simp [checkSigners,withoutInvalid,invalidEntries,eq_comm]
    | cons entry entries =>
      cases hcurrent : setSporkPubKeyIDs.contains entry.1 with
      | false =>
        have hnot : ¬entry.1∈setSporkPubKeyIDs := by
          simp [mem_def,hcurrent]
        simp [checkSigners,hcurrent,ih,hnot]
      | true =>
        have hmem : entry.1∈setSporkPubKeyIDs := mem_def.mpr hcurrent
        cases hvalid : entry.2.signedBy ctx entry.1 with
        | false => simp [checkSigners,hcurrent,hvalid,ih,hmem,withoutInvalid,invalidEntries]
        | true => simp [checkSigners,hcurrent,hvalid,ih,hmem,withoutInvalid,invalidEntries]

theorem withoutInvalid_signers (mapSporksByHash : OrderedMap Uint256 CSporkMessage)
    (signers : OrderedMap CKeyID CSporkMessage) :
    (withoutInvalid ctx signers.entries (mapSporksByHash,signers)).2=
      validSigners ctx signers := by
  refine ext_find (fun signer => ?_)
  have hmem : signer∈(invalidEntries ctx signers.entries).map Prod.fst ↔
      ∃ spork, signers.find signer=some spork ∧ spork.signedBy ctx signer=false := by
    simp [invalidEntries,mem_entries_iff]
  rw [withoutInvalid,find_foldl_erase,validSigners,find_filter]
  cases hfind : signers.find signer with
  | none => simp
  | some spork =>
    cases hvalid : spork.signedBy ctx signer with
    | false =>
      rw [if_pos (hmem.mpr ⟨spork,hfind,hvalid⟩)]
      simp [Option.filter,hvalid]
    | true =>
      grind

def afterSpork (ctx : SporkContext)
    (maps : OrderedMap Uint256 CSporkMessage×OrderedMap ℤ (OrderedMap CKeyID CSporkMessage))
    (itActive : ℤ×OrderedMap CKeyID CSporkMessage) :
    OrderedMap Uint256 CSporkMessage×OrderedMap ℤ (OrderedMap CKeyID CSporkMessage) :=
  (((invalidEntries ctx itActive.2.entries).map
      (fun entry => ctx.serializeHash entry.2)).foldl OrderedMap.erase maps.1,
    if (validSigners ctx itActive.2).entries.isEmpty then maps.2.erase itActive.1
    else maps.2.set itActive.1 (validSigners ctx itActive.2))

theorem checkActive_some {fuel : ℕ} {entries : List (ℤ×OrderedMap CKeyID CSporkMessage)}
    {maps result : OrderedMap Uint256 CSporkMessage×
      OrderedMap ℤ (OrderedMap CKeyID CSporkMessage)} :
    checkActive ctx setSporkPubKeyIDs fuel entries maps=some result ↔
      (∀ itActive∈entries, (∀ entry∈itActive.2.entries, entry.1∈setSporkPubKeyIDs) ∧
        itActive.2.entries.length < fuel) ∧
      result=entries.foldl (afterSpork ctx) maps := by
  induction entries generalizing maps with
  | nil => simp [checkActive,eq_comm]
  | cons itActive entries ih =>
    simp only [checkActive,Option.bind_eq_bind,Option.bind_eq_some_iff,checkSigners_some,ih,
      forall_mem_cons,foldl_cons]
    constructor
    · rintro ⟨checked,⟨hcurrent,hfuel,rfl⟩,hrest,hres⟩
      rw [withoutInvalid_signers] at hres
      exact ⟨⟨⟨hcurrent,hfuel⟩,hrest⟩,hres⟩
    · rintro ⟨⟨⟨hcurrent,hfuel⟩,hrest⟩,hres⟩
      refine ⟨_,⟨hcurrent,hfuel,rfl⟩,hrest,?_⟩
      rw [withoutInvalid_signers]
      exact hres

theorem find_afterSporks_byHash (entries : List (ℤ×OrderedMap CKeyID CSporkMessage))
    (maps : OrderedMap Uint256 CSporkMessage×OrderedMap ℤ (OrderedMap CKeyID CSporkMessage))
    (hash : Uint256) :
    (entries.foldl (afterSpork ctx) maps).1.find hash=
      if ∃ itActive∈entries, ∃ entry∈invalidEntries ctx itActive.2.entries,
        ctx.serializeHash entry.2=hash then none else maps.1.find hash := by
  induction entries generalizing maps with
  | nil => simp
  | cons itActive entries ih =>
    rw [foldl_cons,ih,afterSpork,find_foldl_erase]
    simp only [mem_map,exists_mem_cons_iff]
    by_cases hlater : ∃ itActive∈entries, ∃ entry∈invalidEntries ctx itActive.2.entries,
        ctx.serializeHash entry.2=hash
    · rw [if_pos hlater,if_pos (.inr hlater)]
    · rw [if_neg hlater]
      simp only [hlater,or_false]

theorem find_afterSporks_active {entries : List (ℤ×OrderedMap CKeyID CSporkMessage)}
    (hnodup : (entries.map Prod.fst).Nodup)
    (maps : OrderedMap Uint256 CSporkMessage×OrderedMap ℤ (OrderedMap CKeyID CSporkMessage)) :
    (∀ itActive∈entries, (entries.foldl (afterSpork ctx) maps).2.find itActive.1=
      if (validSigners ctx itActive.2).entries.isEmpty then none
      else some (validSigners ctx itActive.2)) ∧
    ∀ nSporkID∉entries.map Prod.fst,
      (entries.foldl (afterSpork ctx) maps).2.find nSporkID=maps.2.find nSporkID := by
  induction entries generalizing maps with
  | nil => simp
  | cons first entries ih =>
    rw [map_cons,nodup_cons] at hnodup
    obtain ⟨hmem,hother⟩ := ih hnodup.2 (afterSpork ctx maps first)
    refine ⟨?_,fun nSporkID hnot => ?_⟩
    · intro itActive hit
      rcases mem_cons.mp hit with rfl | hit
      · rw [foldl_cons,hother _ hnodup.1,afterSpork]
        split_ifs
        · exact find_erase_self _ _
        · exact find_set_self _ _ _
      · exact hmem itActive hit
    · rw [map_cons,mem_cons,not_or] at hnot
      rw [foldl_cons,hother _ hnot.2,afterSpork]
      split_ifs
      · exact find_erase_of_ne _ hnot.1
      · exact find_set_of_ne _ _ hnot.1

end Cleanup

section Ending

variable {ctx : SporkContext} {mgr result : CSporkManager}

theorem activeSpork_eq_some {active : OrderedMap ℤ (OrderedMap CKeyID CSporkMessage)}
    {nSporkID : ℤ} {signer : CKeyID} {spork : CSporkMessage} :
    activeSpork active nSporkID signer=some spork ↔
      ∃ itActive∈active.entries, itActive.1=nSporkID ∧ (signer,spork)∈itActive.2.entries := by
  simp only [activeSpork,Option.bind_eq_some_iff]
  constructor
  · rintro ⟨signers,hsigners,hspork⟩
    exact ⟨(nSporkID,signers),(mem_entries_iff _ _ _).mpr hsigners,rfl,
      (mem_entries_iff _ _ _).mpr hspork⟩
  · rintro ⟨⟨found,signers⟩,hm,rfl,hspork⟩
    exact ⟨signers,(mem_entries_iff _ _ _).mp hm,(mem_entries_iff _ _ _).mp hspork⟩

/-- Messages of the authorised keys, in both maps. -/
def keptSporks (ctx : SporkContext) (mgr : CSporkManager) : CSporkManager :=
  { mgr with
    mapSporksByHash := checkByHash ctx mgr.setSporkPubKeyIDs
      (mgr.mapSporksActive.entries.foldl (afterSpork ctx)
        (mgr.mapSporksByHash,mgr.mapSporksActive)).1
    mapSporksActive := (mgr.mapSporksActive.entries.foldl (afterSpork ctx)
      (mgr.mapSporksByHash,mgr.mapSporksActive)).2 }

theorem checkAndRemove_some {fuel : ℕ} :
    checkAndRemove ctx fuel mgr=.ok (some result) ↔ mgr.setSporkPubKeyIDs.items≠[] ∧
      (∀ itActive∈mgr.mapSporksActive.entries,
        (∀ entry∈itActive.2.entries, entry.1∈mgr.setSporkPubKeyIDs) ∧
        itActive.2.entries.length < fuel) ∧ result=keptSporks ctx mgr := by
  simp only [checkAndRemove,bind_eq_ok,assertThat_eq_ok,Except.ok.injEq,Option.map_eq_some_iff,
    checkActive_some,Bool.not_eq_true',isEmpty_eq_false_iff,exists_const]
  constructor
  · rintro ⟨hset,maps,⟨hcurrent,rfl⟩,rfl⟩
    exact ⟨hset,hcurrent,rfl⟩
  · rintro ⟨hset,hcurrent,rfl⟩
    exact ⟨hset,_,⟨hcurrent,rfl⟩,rfl⟩

theorem find_keptSporks (nSporkID : ℤ) :
    (keptSporks ctx mgr).mapSporksActive.find nSporkID=
      ((mgr.mapSporksActive.find nSporkID).map (validSigners ctx)).filter
        (fun signers => !signers.entries.isEmpty) := by
  obtain ⟨hmem,hother⟩ := @find_afterSporks_active ctx _ mgr.mapSporksActive.nodup_keys
    (mgr.mapSporksByHash,mgr.mapSporksActive)
  cases hfind : mgr.mapSporksActive.find nSporkID with
  | none =>
    refine (hother nSporkID ?_).trans (by simp [hfind])
    rw [mem_map]
    rintro ⟨⟨found,signers⟩,hm,rfl⟩
    rw [mem_entries_iff,hfind] at hm
    cases hm
  | some signers =>
    refine (hmem (nSporkID,signers) ((mem_entries_iff _ _ _).mpr hfind)).trans ?_
    cases hempty : (validSigners ctx signers).entries.isEmpty <;>
      simp [Option.filter,hempty]

theorem activeSpork_keptSporks (nSporkID : ℤ) (signer : CKeyID) (spork : CSporkMessage) :
    activeSpork (keptSporks ctx mgr).mapSporksActive nSporkID signer=some spork ↔
      activeSpork mgr.mapSporksActive nSporkID signer=some spork ∧
      spork.signedBy ctx signer=true := by
  rw [activeSpork,find_keptSporks,activeSpork]
  cases hfind : mgr.mapSporksActive.find nSporkID with
  | none => simp
  | some signers =>
    have hvalid : (validSigners ctx signers).find signer=some spork ↔
        signers.find signer=some spork ∧ spork.signedBy ctx signer=true := by
      rw [validSigners,find_filter,Option.filter_eq_some_iff]
    cases hempty : (validSigners ctx signers).entries.isEmpty with
    | false => simpa [Option.filter,hempty] using hvalid
    | true =>
      have hnone : (validSigners ctx signers).find signer=none := by
        rw [OrderedMap.find,isEmpty_iff.mp hempty]
        rfl
      rw [hnone] at hvalid
      simpa [Option.filter,hempty] using hvalid

theorem find_keptSporks_byHash (hash : Uint256) (spork : CSporkMessage) :
    (keptSporks ctx mgr).mapSporksByHash.find hash=some spork ↔ (¬∃ nSporkID signer invalid,
        activeSpork mgr.mapSporksActive nSporkID signer=some invalid ∧
        invalid.signedBy ctx signer=false ∧ ctx.serializeHash invalid=hash) ∧
      mgr.mapSporksByHash.find hash=some spork ∧
      ∃ signer∈mgr.setSporkPubKeyIDs, spork.signedBy ctx signer=true := by
  have herased : (∃ itActive∈mgr.mapSporksActive.entries,
      ∃ entry∈invalidEntries ctx itActive.2.entries, ctx.serializeHash entry.2=hash) ↔
      ∃ nSporkID signer invalid, activeSpork mgr.mapSporksActive nSporkID signer=some invalid ∧
        invalid.signedBy ctx signer=false ∧ ctx.serializeHash invalid=hash := by
    simp only [activeSpork_eq_some,invalidEntries,mem_filter,Bool.not_eq_true']
    constructor
    · rintro ⟨itActive,hm,⟨signer,invalid⟩,⟨hentry,hinvalid⟩,he⟩
      exact ⟨itActive.1,signer,invalid,⟨itActive,hm,rfl,hentry⟩,hinvalid,he⟩
    · rintro ⟨nSporkID,signer,invalid,⟨itActive,hm,-,hentry⟩,hinvalid,he⟩
      exact ⟨itActive,hm,(signer,invalid),⟨hentry,hinvalid⟩,he⟩
  rw [keptSporks]
  rw [checkByHash,find_filter,Option.filter_eq_some_iff,find_afterSporks_byHash,any_eq_true]
  simp only [mem_items,← herased]
  split_ifs with he
  · simp only [he,false_and,not_true_eq_false]
  · simp only [he,not_false_eq_true,true_and]

theorem CleansUp.cleanable (h : CleansUp ctx mgr) : Cleanable ctx mgr := by
  obtain ⟨fuel,result,hres,hcleaned⟩ := h
  obtain ⟨-,hcurrent,rfl⟩ := checkAndRemove_some.mp hres
  constructor
  · intro nSporkID signer spork hspork
    obtain ⟨itActive,hm,-,hentry⟩ := activeSpork_eq_some.mp hspork
    exact (hcurrent itActive hm).1 _ hentry
  · intro nSporkID signer spork other signed hspork hinvalid hother hsigned
    by_contra hvalid
    rw [Bool.not_eq_false] at hvalid
    have hkept := (hcleaned.byHash _ other).mpr ⟨hother,signed,hsigned,hvalid⟩
    rw [find_keptSporks_byHash] at hkept
    exact hkept.1 ⟨nSporkID,signer,spork,hspork,hinvalid,rfl⟩

theorem Cleanable.cleansUp (h : Cleanable ctx mgr)
    (hset : mgr.setSporkPubKeyIDs.items≠[]) : CleansUp ctx mgr := by
  refine ⟨(mgr.mapSporksActive.entries.map (fun itActive => itActive.2.entries.length)).sum+1,
    keptSporks ctx mgr,checkAndRemove_some.mpr ⟨hset,?_,rfl⟩,?_,?_,?_⟩
  · intro itActive hm
    refine ⟨fun entry hentry => ?_,?_⟩
    · exact h.current itActive.1 entry.1 entry.2 (activeSpork_eq_some.mpr ⟨itActive,hm,rfl,hentry⟩)
    · have hlen : itActive.2.entries.length∈mgr.mapSporksActive.entries.map
          (fun itActive => itActive.2.entries.length) := mem_map.mpr ⟨itActive,hm,rfl⟩
      have hle := single_le_sum (fun _ _ => Nat.zero_le _) _ hlen
      omega
  · intro nSporkID signer spork
    rw [activeSpork_keptSporks]
    constructor
    · exact fun hs => ⟨hs.1,h.current _ _ _ hs.1,hs.2⟩
    · exact fun hs => ⟨hs.1,hs.2.2⟩
  · intro nSporkID signers hfind
    rw [find_keptSporks,Option.filter_eq_some_iff] at hfind
    simpa using hfind.2
  · intro hash spork
    rw [find_keptSporks_byHash]
    constructor
    · exact fun hs => hs.2
    · rintro ⟨hfind,signer,hsigner,hvalid⟩
      refine ⟨?_,hfind,signer,hsigner,hvalid⟩
      rintro ⟨nSporkID,other,invalid,hact,hinvalid,rfl⟩
      rw [h.apart nSporkID other invalid spork signer hact hinvalid hfind hsigner] at hvalid
      cases hvalid

/-- Cleaning up ends and keeps the valid sporks, exactly if all stored keys are authorised and no
hash of an invalid message leads to a valid one. -/
theorem checkAndRemove_iff (ctx : SporkContext) (mgr : CSporkManager)
    (hset : mgr.setSporkPubKeyIDs.items≠[]) :
    CleansUp ctx mgr ↔ Cleanable ctx mgr :=
  ⟨CleansUp.cleanable,fun h => h.cleansUp hset⟩

end Ending

/-- Keys sign with their own number. -/
def sampleContext : SporkContext where
  serializeHash spork := (spork.nSporkID+spork.nTimeSigned).toNat
  signatureHash _ _ _ := 0
  magicHash _ := 1
  recoverCompact _ vchSig := vchSig.head?.map UInt8.toNat

/-- A message of a key. -/
def sampleSpork (signer : UInt8) (nTimeSigned : ℤ) : CSporkMessage := ⟨[signer],10001,0,nTimeSigned⟩

/-- A node that loaded the message of one key and trusts another one. -/
def sampleManager (signer : UInt8) (current : CKeyID) : CSporkManager where
  mapSporksByHash := OrderedMap.empty.set 10021 (sampleSpork signer 20)
  mapSporksActive := OrderedMap.empty.set 10001
    (OrderedMap.empty.set signer.toNat (sampleSpork signer 20))
  setSporkPubKeyIDs := OrderedSet.empty.insert current
  nMinSporkKeys := 1

/-- A node that still trusts the key can clean up. -/
theorem checkAndRemove_sample : CleansUp sampleContext (sampleManager 5 5) := by
  have honly : ∀ {nSporkID signer spork},
      activeSpork (sampleManager 5 5).mapSporksActive nSporkID signer=some spork →
        signer=5 ∧ spork=sampleSpork 5 20 := by
    intro nSporkID signer spork h
    obtain ⟨signers,hsigners,hspork⟩ := Option.bind_eq_some_iff.mp h
    rw [sampleManager,OrderedMap.find_set] at hsigners
    split_ifs at hsigners with hid
    · cases hsigners
      rw [OrderedMap.find_set] at hspork
      split_ifs at hspork with hsigner
      · exact ⟨hsigner,(Option.some.inj hspork).symm⟩
      · cases hspork
    · cases hsigners
  refine (checkAndRemove_iff sampleContext (sampleManager 5 5) (by decide)).mpr ⟨?_,?_⟩
  · intro nSporkID signer spork h
    rw [(honly h).1]
    decide
  · intro nSporkID signer spork other signed h hinvalid
    obtain ⟨rfl,rfl⟩ := honly h
    exact absurd hinvalid (by decide)

/-- A node whose key was replaced does not come to the end of its cleanup. -/
theorem checkAndRemove_rotated : (sampleManager 5 7).setSporkPubKeyIDs.items≠[] ∧
    ¬CleansUp sampleContext (sampleManager 5 7) := by
  refine ⟨by decide,fun h => ?_⟩
  have hcurrent := h.cleanable.current 10001 5 (sampleSpork 5 20) (by decide)
  exact absurd hcurrent (by decide)

end CSporkManager

end Pyrk.Sporks
