import Pyrk.AddrTables

/-!
# Consistency of the address manager

Every call keeps the random order, the lookup by address and the tables in agreement with the
entries, whatever the hashes and random numbers are.
-/

namespace Pyrk.AddrMan

open NetAddress SlotTable OrderedMap Option

/-- What the tables need of an entry. -/
def coreOf (info : CAddrInfo) : Core := ⟨info.addr.service,info.nRefCount,info.fInTried⟩

/-- Entries as the tables see them. -/
def cores (man : CAddrMan) : OrderedMap ℕ Core := man.mapInfo.mapValues coreOf

/-- Positions of the entries in the random order. -/
def positions (man : CAddrMan) : OrderedMap ℕ ℕ := man.mapInfo.mapValues CAddrInfo.nRandomPos

def tablesOf (man : CAddrMan) : Tables :=
  ⟨cores man,man.vvNew,man.vvTried,man.nNew,man.nTried⟩

/-- Secret and setting stay the same. -/
structure SameSetup (man next : CAddrMan) : Prop where
  nKey : next.nKey=man.nKey
  discriminatePorts : next.discriminatePorts=man.discriminatePorts

theorem SameSetup.rfl {man : CAddrMan} : SameSetup man man := ⟨Eq.refl _,Eq.refl _⟩

/-- What holds of an address manager while loose entries are moved and a number of entries is left
out of the number of new ones. -/
structure Kept (ctx : AddrContext) (man : CAddrMan) (loose : Set ℕ) (out : ℤ) : Prop where
  /-- The random order has every entry at its position. -/
  random : Positioned man.vRandom (positions man)
  lookup : ∀ service nId,man.mapAddr.find service=some nId ↔
    ∃ e,(cores man).find nId=some e ∧ man.lookupKey e.service=service
  tables : Held ctx man.nKey (tablesOf man) loose out
  fresh : ∀ nId,man.nIdCount ≤ nId → (cores man).find nId=none

variable {ctx : AddrContext} {man : CAddrMan} {loose : Set ℕ} {out : ℤ} {nId : ℕ}
  {info : CAddrInfo}

theorem find_cores (man : CAddrMan) (nId : ℕ) :
    (cores man).find nId=(man.mapInfo.find nId).map coreOf := find_mapValues _ _ _

theorem find_positions (man : CAddrMan) (nId : ℕ) :
    (positions man).find nId=(man.mapInfo.find nId).map CAddrInfo.nRandomPos :=
  find_mapValues _ _ _

theorem exists_of_find_cores {e : Core} (h : (cores man).find nId=some e) :
    ∃ info,man.mapInfo.find nId=some info ∧ coreOf info=e := by
  rw [find_cores] at h
  exact map_eq_some_iff.mp h

theorem modifyInfo_eq (hfind : man.mapInfo.find nId=some info) (change : CAddrInfo → CAddrInfo) :
    man.modifyInfo nId change={ man with mapInfo := man.mapInfo.set nId (change info) } := by
  rw [CAddrMan.modifyInfo,hfind]

theorem cores_set (man : CAddrMan) (nId : ℕ) (info : CAddrInfo) :
    (man.mapInfo.set nId info).mapValues coreOf=(cores man).set nId (coreOf info) :=
  mapValues_set _ _ _ _

theorem Kept.retable (h : Kept ctx man loose out) (hfind : man.mapInfo.find nId=some info)
    (changed : CAddrInfo) (hservice : changed.addr.service=info.addr.service)
    (hpos : changed.nRandomPos=info.nRandomPos) {vvNew : Table addrmanNewBucketCount}
    {vvTried : Table addrmanTriedBucketCount} {nNew nTried : ℤ} {others : Set ℕ} {left : ℤ}
    (htables : Held ctx man.nKey
      ⟨(cores man).set nId (coreOf changed),vvNew,vvTried,nNew,nTried⟩ others left) :
    Kept ctx { man with
      mapInfo := man.mapInfo.set nId changed
      vvNew := vvNew, vvTried := vvTried, nNew := nNew, nTried := nTried } others left where
  random := by
    dsimp only [positions]
    rw [mapValues_set,hpos,set_find]
    · exact h.random
    · rw [find_mapValues,hfind,map_some]
  lookup := by
    intro service other
    dsimp only [cores]
    rw [cores_set,h.lookup,find_set]
    split
    next heq =>
      rw [heq,find_cores,hfind]
      simp only [map_some,some.injEq,exists_eq_left',coreOf,hservice]
      rfl
    next => rfl
  tables := by
    rw [tablesOf]
    dsimp only [cores]
    rw [cores_set]
    exact htables
  fresh := by
    intro other hge
    dsimp only [cores]
    rw [cores_set,find_set]
    have hnone := h.fresh other hge
    split
    next heq =>
      rw [heq,find_cores,hfind] at hnone
      cases hnone
    next => exact hnone

theorem Kept.modifyInfo (h : Kept ctx man loose out) (nId : ℕ) (change : CAddrInfo → CAddrInfo)
    (hcore : ∀ info,coreOf (change info)=coreOf info)
    (hpos : ∀ info,(change info).nRandomPos=info.nRandomPos) :
    Kept ctx (man.modifyInfo nId change) loose out := by
  cases hfind : man.mapInfo.find nId with
  | none =>
    rw [CAddrMan.modifyInfo,hfind]
    exact h
  | some info =>
    rw [modifyInfo_eq hfind]
    refine h.retable hfind (change info) (congrArg Core.service (hcore info)) (hpos info) ?_
    rw [hcore,set_find]
    · exact h.tables
    · rw [find_cores,hfind,map_some]

theorem swapRandom_spec (h : Positioned man.vRandom (positions man)) {nRndPos1 nRndPos2 : ℕ}
    (h1 : nRndPos1 < man.vRandom.length) (h2 : nRndPos2 < man.vRandom.length) :
    ∃ mapInfo vRandom,man.swapRandom nRndPos1 nRndPos2=
        some { man with mapInfo := mapInfo, vRandom := vRandom } ∧
      mapInfo.mapValues coreOf=cores man ∧
      Positioned vRandom (mapInfo.mapValues CAddrInfo.nRandomPos) ∧
      vRandom.length=man.vRandom.length ∧ vRandom[nRndPos2]?=man.vRandom[nRndPos1]? := by
  rw [CAddrMan.swapRandom]
  split
  next heq => exact ⟨man.mapInfo,man.vRandom,rfl,rfl,h,rfl,by rw [heq]⟩
  next hne =>
    have hfirst := List.getElem?_eq_getElem h1
    have hsecond := List.getElem?_eq_getElem h2
    generalize man.vRandom[nRndPos1]=nId1 at hfirst
    generalize man.vRandom[nRndPos2]=nId2 at hsecond
    have hpos1 := (h.index _ _).mp hfirst
    have hpos2 := (h.index _ _).mp hsecond
    have hids : nId2≠nId1 := by
      intro heq
      rw [heq,hpos1] at hpos2
      exact hne (some.inj hpos2)
    rw [find_positions] at hpos1 hpos2
    obtain ⟨info1,hinfo1,_⟩ := map_eq_some_iff.mp hpos1
    obtain ⟨info2,hinfo2,_⟩ := map_eq_some_iff.mp hpos2
    have hknown : (man.mapInfo.contains nId1 && man.mapInfo.contains nId2)=true := by
      rw [Bool.and_eq_true,contains_iff,contains_iff]
      exact ⟨⟨_,hinfo1⟩,⟨_,hinfo2⟩⟩
    rw [hfirst,hsecond]
    dsimp only
    rw [if_pos hknown,modifyInfo_eq hinfo1,
      modifyInfo_eq (by dsimp only; rw [find_set_of_ne _ _ hids,hinfo2])]
    refine ⟨_,_,rfl,?_,?_,?_,?_⟩
    · rw [mapValues_set,mapValues_set]
      have hcore1 : coreOf { info1 with nRandomPos := nRndPos2 }=coreOf info1 := rfl
      have hcore2 : coreOf { info2 with nRandomPos := nRndPos1 }=coreOf info2 := rfl
      rw [hcore1,hcore2,set_find,set_find]
      · rfl
      · rw [find_mapValues,hinfo1,map_some]
      · rw [find_set_of_ne _ _ hids,find_mapValues,hinfo2,map_some]
    · rw [mapValues_set,mapValues_set]
      exact h.swap hne hfirst hsecond
    · rw [List.length_set,List.length_set]
    · rw [List.getElem?_set_self (by rw [List.length_set]; exact h2)]

theorem Kept.delete (h : Kept ctx man loose out) (hfind : man.mapInfo.find nId=some info)
    (huntried : info.fInTried=false) (hrefs : info.nRefCount=0) :
    ∃ next,man.delete nId=some next ∧ Kept ctx next (loose \ {nId}) out ∧ SameSetup man next ∧
      cores next=(cores man).erase nId ∧ next.vvNew=man.vvNew ∧ next.vvTried=man.vvTried := by
  have hcore : (cores man).find nId=some (coreOf info) := by
    rw [find_cores,hfind,map_some]
  have hpos : man.vRandom[info.nRandomPos]?=some nId := by
    rw [h.random.index,find_positions,hfind,map_some]
  have hlt := (List.getElem?_eq_some_iff.mp hpos).1
  obtain ⟨mapInfo,vRandom,hswap,hcores,hrandom,hlen,hlast⟩ :=
    swapRandom_spec h.random hlt (show man.vRandom.length-1 < man.vRandom.length by omega)
  rw [CAddrMan.delete,hfind]
  dsimp only
  rw [if_neg (by rw [huntried]; exact Bool.false_ne_true),if_neg (not_not_intro hrefs),hswap,
    map_some]
  have herase : (mapInfo.erase nId).mapValues coreOf=(cores man).erase nId := by
    rw [mapValues_erase,hcores]
  refine ⟨_,rfl,⟨?_,?_,?_,?_⟩,⟨rfl,rfl⟩,herase,rfl,rfl⟩
  · dsimp only [positions]
    rw [mapValues_erase]
    refine hrandom.dropLast ?_
    rw [hlen,hlast,hpos]
  · -- the address that is forgotten is that of the dropped entry
    intro service other
    dsimp only [cores]
    rw [herase,find_erase,find_erase]
    have hown := (h.lookup (man.lookupKey info.addr.service) nId).mpr ⟨_,hcore,rfl⟩
    split
    next hservice =>
      simp only [reduceCtorEq,false_iff]
      intro ⟨e,he,hkey⟩
      split at he
      next => cases he
      next hne =>
        have hother := (h.lookup service other).mpr ⟨e,he,hkey⟩
        rw [hservice] at hother
        exact hne (some.inj (hother.symm.trans hown))
    next hservice =>
      rw [h.lookup]
      split
      next heq =>
        rw [heq,hcore]
        simp only [some.injEq,reduceCtorEq,false_and,exists_false,iff_false]
        intro ⟨e,he,hkey⟩
        rw [←he] at hkey
        exact hservice hkey.symm
      next => rfl
  · rw [tablesOf]
    dsimp only [cores]
    rw [herase]
    exact h.tables.drop hcore huntried hrefs
  · intro other hge
    dsimp only [cores]
    rw [herase,find_erase,h.fresh other hge]
    split <;> rfl

theorem Kept.clearNew (h : Kept ctx man loose out) (bucket : Fin addrmanNewBucketCount)
    (pos : Fin addrmanBucketSize) :
    ∃ next,man.clearNew bucket pos=some next ∧ Kept ctx next loose out ∧ SameSetup man next ∧
      next.vvNew bucket pos=none ∧ next.vvTried=man.vvTried ∧
      ∀ other e,(cores man).find other=some e → man.vvNew bucket pos≠some other →
        (cores next).find other=some e := by
  rw [CAddrMan.clearNew]
  cases hslot : man.vvNew bucket pos with
  | none => exact ⟨man,rfl,h,SameSetup.rfl,hslot,rfl,fun _ _ he _ => he⟩
  | some nIdDelete =>
    obtain ⟨e,he,huntried,_⟩ := h.tables.newSlot bucket pos nIdDelete hslot
    have hrefs := (h.tables.refs nIdDelete e he huntried).1
    have hpos := slots_pos hslot
    obtain ⟨info,hfind,hcore⟩ := exists_of_find_cores he
    have hcount : info.nRefCount=e.nRefCount := by rw [←hcore]; rfl
    have hslots : (tablesOf man).vvNew=man.vvNew := rfl
    rw [hslots] at hrefs
    dsimp only
    rw [hfind]
    dsimp only
    rw [if_neg (not_not_intro (by omega)),modifyInfo_eq hfind]
    have hcores : (man.mapInfo.set nIdDelete { info with nRefCount := info.nRefCount-1 }).mapValues
        coreOf=(cores man).set nIdDelete { e with nRefCount := e.nRefCount-1 } := by
      rw [cores_set,←hcore]
      rfl
    have hkept : Kept ctx { man with
        mapInfo := man.mapInfo.set nIdDelete { info with nRefCount := info.nRefCount-1 }
        vvNew := setSlot man.vvNew bucket pos none } (insert nIdDelete loose) out := by
      refine h.retable hfind { info with nRefCount := info.nRefCount-1 } rfl rfl ?_
      rw [←cores_set,hcores]
      exact h.tables.leaveSlot hslot he
    have hothers : ∀ other found,(cores man).find other=some found → some nIdDelete≠some other →
        ((cores man).set nIdDelete { e with nRefCount := e.nRefCount-1 }).find
          other=some found := by
      intro other found hfound hne
      rw [find_set_of_ne _ _ (fun heq => hne (by rw [heq])),hfound]
    split
    next hzero =>
      have hfindNext : ({ man with
          mapInfo := man.mapInfo.set nIdDelete { info with nRefCount := info.nRefCount-1 }
          vvNew := setSlot man.vvNew bucket pos none } : CAddrMan).mapInfo.find nIdDelete=
            some { info with nRefCount := info.nRefCount-1 } := find_set_self _ _ _
      have huntriedInfo : info.fInTried=false := by rw [←huntried,←hcore]; rfl
      obtain ⟨next,hdelete,hnext,hsetup,hnextCores,hvvNew,hvvTried⟩ :=
        hkept.delete hfindNext huntriedInfo hzero
      refine ⟨next,hdelete,⟨hnext.random,hnext.lookup,hnext.tables.tighten ?_,hnext.fresh⟩,
        ⟨hsetup.nKey,hsetup.discriminatePorts⟩,?_,hvvTried,?_⟩
      · intro other hin hnot
        cases hin.1 with
        | inl heq => exact absurd heq hin.2
        | inr hloose => exact absurd hloose hnot
      · rw [hvvNew]
        exact setSlot_self _ _ _ _
      · intro other found hfound hne
        rw [hnextCores,cores,hcores,find_erase_of_ne _ (fun heq => hne (by rw [heq]))]
        exact hothers other found hfound hne
    next hmore =>
      refine ⟨_,rfl,⟨hkept.random,hkept.lookup,hkept.tables.tighten ?_,hkept.fresh⟩,⟨rfl,rfl⟩,
        setSlot_self _ _ _ _,rfl,?_⟩
      · intro other hin hnot found hfound _
        cases hin with
        | inr hloose => exact absurd hloose hnot
        | inl heq =>
          rw [tablesOf,cores,hcores,heq] at hfound
          rw [find_set_self] at hfound
          rw [←some.inj hfound]
          dsimp only
          omega
      · intro other found hfound hne
        rw [cores,hcores]
        exact hothers other found hfound hne

theorem Kept.placeNew (h : Kept ctx man loose out) (hfind : man.mapInfo.find nId=some info)
    (huntried : info.fInTried=false) (hroom : info.nRefCount < addrmanNewBucketsPerAddress)
    (source : CNetAddr) (nNow : ℤ) :
    ∃ next,man.placeNew ctx nId source nNow=some next ∧
      Kept ctx next (loose \ {nId}) out := by
  have hcore : (cores man).find nId=some (coreOf info) := by
    rw [find_cores,hfind,map_some]
  have hrefs : info.nRefCount=(man.vvNew.slots nId).card :=
    (h.tables.refs nId (coreOf info) hcore huntried).1
  have htight : 0 < info.nRefCount → Kept ctx man (loose \ {nId}) out := by
    intro hpos
    refine ⟨h.random,h.lookup,h.tables.tighten (fun other hin hnot e he _ => ?_),h.fresh⟩
    have heq : other=nId := by
      by_contra hne
      exact hnot ⟨hin,hne⟩
    rw [tablesOf,heq] at he
    rw [hcore] at he
    rw [←some.inj he]
    exact hpos
  rw [CAddrMan.placeNew,hfind]
  dsimp only
  generalize hbucket : ctx.getNewBucket man.nKey info.addr.service source=nUBucket
  generalize hpos : man.newPosition ctx info.addr.service nUBucket=nUBucketPos
  split
  next hthere =>
    have hcard := slots_pos hthere
    exact ⟨man,rfl,htight (by omega)⟩
  next hother =>
    split
    next =>
      obtain ⟨next,hclear,hnext,hsetup,hempty,_,hsame⟩ := h.clearNew nUBucket nUBucketPos
      obtain ⟨info',hfind',hcore'⟩ := exists_of_find_cores (hsame nId _ hcore hother)
      have hservice : info'.addr.service=info.addr.service := congrArg Core.service hcore'
      have hcount : info'.nRefCount=info.nRefCount := congrArg Core.nRefCount hcore'
      have huntried' : info'.fInTried=false :=
        (congrArg Core.fInTried hcore').trans huntried
      rw [hclear,map_some,modifyInfo_eq hfind']
      refine ⟨_,rfl,hnext.retable hfind' { info' with nRefCount := info'.nRefCount+1 } rfl rfl ?_⟩
      have hheld := @Held.takeSlot ctx next.nKey (tablesOf next) loose out hnext.tables nId
        (coreOf info') nUBucket nUBucketPos hempty
        (by rw [tablesOf]; dsimp only; rw [find_cores,hfind',map_some]) huntried'
        (by rw [coreOf]; dsimp only; rw [hcount]; exact hroom)
        (by rw [coreOf]; dsimp only; rw [hservice,hsetup.nKey,←hpos]; rfl)
      exact hheld
    next =>
      split
      next hzero =>
        obtain ⟨next,hdelete,hnext,_⟩ := h.delete hfind huntried hzero
        exact ⟨next,hdelete,hnext⟩
      next hnonzero => exact ⟨man,rfl,htight (by omega)⟩

theorem find_eq_some {addr : CService} (hfind : man.find addr=some (nId,info)) :
    man.mapInfo.find nId=some info := by
  obtain ⟨other,_,hsome⟩ := bind_eq_some_iff.mp hfind
  obtain ⟨found,hfound,heq⟩ := map_eq_some_iff.mp hsome
  rw [Prod.mk.injEq] at heq
  rw [←heq.1,hfound,heq.2]

theorem Kept.lookup_eq_none (h : Kept ctx man loose out) {addr : CService}
    (hfind : man.find addr=none) : man.mapAddr.find (man.lookupKey addr)=none := by
  cases hlookup : man.mapAddr.find (man.lookupKey addr) with
  | none => rfl
  | some other =>
    obtain ⟨e,he,_⟩ := (h.lookup _ _).mp hlookup
    obtain ⟨found,hfound,_⟩ := exists_of_find_cores he
    rw [CAddrMan.find,hlookup,bind_some,hfound] at hfind
    cases hfind

theorem Kept.create (h : Kept ctx man loose out) {addr : CAddress} (source : CNetAddr)
    (hnone : man.mapAddr.find (man.lookupKey addr.service)=none) :
    Kept ctx { man.created addr source with nNew := man.nNew+1 }
      (insert man.nIdCount loose) out := by
  have hnew : (cores man).find man.nIdCount=none := h.fresh _ (Nat.le_refl _)
  have hnewPos : (positions man).find man.nIdCount=none := by
    rw [find_cores,map_eq_none_iff] at hnew
    rw [find_positions,hnew,map_none]
  have hcores : (cores { man.created addr source with nNew := man.nNew+1 })=
      (cores man).set man.nIdCount ⟨addr.service,0,false⟩ := cores_set _ _ _
  refine ⟨?_,?_,?_,?_⟩
  · dsimp only [positions,CAddrMan.created]
    rw [mapValues_set]
    exact h.random.append hnewPos
  · intro service other
    rw [hcores]
    change (man.mapAddr.set (man.lookupKey addr.service) man.nIdCount).find service=some other ↔ _
    rw [find_set,find_set]
    have hkey : ∀ service,({ man.created addr source with nNew := man.nNew+1 } :
        CAddrMan).lookupKey service=man.lookupKey service := fun _ => rfl
    split
    next hservice =>
      split
      next heq =>
        simp only [heq,some.injEq,exists_eq_left',true_iff]
        exact hservice.symm
      next hne =>
        constructor
        · exact fun heq => absurd (some.inj heq).symm hne
        · intro ⟨e,he,hlookup⟩
          have hfound := (h.lookup service other).mpr ⟨e,he,hlookup⟩
          rw [hservice,hnone] at hfound
          cases hfound
    next hservice =>
      rw [h.lookup]
      grind
  · rw [tablesOf,hcores]
    exact h.tables.create addr.service hnew
  · intro other hge
    rw [hcores]
    have hlt : man.nIdCount<other := hge
    rw [find_set_of_ne _ _ (Nat.ne_of_gt hlt)]
    exact h.fresh other (Nat.le_of_lt hlt)

theorem Kept.add_ (h : Kept ctx man ∅ 0) (addr : CAddress) (source : CNetAddr)
    (nTimePenalty nNow : ℤ) (nRnd : ℕ)
    (hroom : makesEntry ctx man (.add addr source nTimePenalty nNow nRnd)=true →
      man.nIdCount+1 < 2^31) :
    ∃ next,(man.add_ ctx addr source nTimePenalty nNow nRnd).map Prod.fst=some next ∧
      Kept ctx next ∅ 0 := by
  rw [CAddrMan.add_]
  split
  next => exact ⟨man,rfl,h⟩
  next hroutable =>
    generalize (if addr.service.ip=source.1 then 0 else nTimePenalty)=penalty
    cases hfind : man.find addr.service with
    | some found =>
      obtain ⟨nId,old⟩ := found
      have hold := find_eq_some hfind
      have hkept := h.modifyInfo nId (CAddrMan.refreshInfo addr penalty nNow) (fun _ => rfl)
        (fun _ => rfl)
      have hinfo : (man.modifyInfo nId (CAddrMan.refreshInfo addr penalty nNow)).mapInfo.find nId=
          some (CAddrMan.refreshInfo addr penalty nNow old) := by
        rw [modifyInfo_eq hold]
        exact find_set_self _ _ _
      dsimp only
      split
      next => exact ⟨_,rfl,hkept⟩
      next =>
        split
        next => exact ⟨_,rfl,hkept⟩
        next huntried =>
          have huntried' := Bool.eq_false_of_not_eq_true huntried
          split
          next => exact ⟨_,rfl,hkept⟩
          next hmany =>
            have hle := (hkept.tables.refs nId (coreOf (CAddrMan.refreshInfo addr penalty nNow old))
              (by rw [tablesOf]; dsimp only; rw [find_cores,hinfo,map_some]) huntried').2
            have hle' : (CAddrMan.refreshInfo addr penalty nNow old).nRefCount ≤
              addrmanNewBucketsPerAddress := hle
            split
            next => exact ⟨_,rfl,hkept⟩
            next =>
              obtain ⟨next,hplace,hnext⟩ := hkept.placeNew hinfo huntried' (by omega) source nNow
              rw [hplace]
              refine ⟨next,rfl,?_⟩
              rwa [Set.empty_sdiff] at hnext
    | none =>
      dsimp only
      have hcreate := h.create source (h.lookup_eq_none hfind)
      rw [insert_empty_eq] at hcreate
      have hmakes : makesEntry ctx man (.add addr source nTimePenalty nNow nRnd)=true := by
        simpa [makesEntry,hfind] using hroutable
      rw [CAddrMan.create,if_pos (hroom hmakes),bind_some]
      generalize hman : man.created addr source=created at hcreate ⊢
      have hentry : created.mapInfo.find man.nIdCount=some
          { addr := addr, source := source, nRandomPos := man.vRandom.length } := by
        rw [←hman]
        exact find_set_self _ _ _
      have hnNew : created.nNew=man.nNew := by rw [←hman]; rfl
      generalize hchange : (fun info : CAddrInfo => { info with addr := { info.addr with
        nTime := toUInt32 (max 0 (info.addr.nTime-penalty)) } })=change
      have hkept := hcreate.modifyInfo man.nIdCount change (fun _ => by rw [←hchange]; rfl)
        (fun _ => by rw [←hchange])
      rw [@modifyInfo_eq { created with nNew := man.nNew+1 } _ _ hentry] at hkept
      rw [modifyInfo_eq hentry]
      rw [hnNew]
      obtain ⟨next,hplace,hnext⟩ := hkept.placeNew (find_set_self _ _ _)
        (by rw [←hchange]) (by rw [←hchange]; dsimp only [addrmanNewBucketsPerAddress]; omega)
        source nNow
      rw [hplace]
      refine ⟨next,rfl,?_⟩
      rwa [Set.sdiff_self] at hnext

end Pyrk.AddrMan
