import Pyrk.AddrConsistency

/-!
# Runs of the address manager

An address that answers moves to the tried table, and the entry at its slot moves back, where it may
take the slot of a third one.
-/

namespace Pyrk.AddrMan

open NetAddress SlotTable OrderedMap List

section Moves

variable {ctx : AddrContext} {man : CAddrMan} {loose : Set ℕ} {out : ℤ} {nId : ℕ}
  {info : CAddrInfo}

/-- What holds while an entry is taken out of the buckets of the new table. -/
structure Leaving (ctx : AddrContext) (start man : CAddrMan) (nId : ℕ) (addr : CService) :
    Prop where
  kept : Kept ctx man {nId} 0
  setup : SameSetup start man
  entry : ∃ info,man.mapInfo.find nId=some info ∧ info.addr.service=addr ∧ info.fInTried=false
  slots : ∀ bucket pos,man.vvNew bucket pos=some nId → start.vvNew bucket pos=some nId

variable {start : CAddrMan} {addr : CService}

theorem Leaving.removeFromBucket
    (h : Leaving ctx start man nId addr) (bucket : Fin addrmanNewBucketCount) :
    Leaving ctx start (man.removeFromBucket ctx nId addr bucket) nId addr ∧
      (∀ pos,(man.removeFromBucket ctx nId addr bucket).vvNew bucket pos≠some nId) ∧
      ∀ other pos,(man.removeFromBucket ctx nId addr bucket).vvNew other pos=some nId →
        man.vvNew other pos=some nId := by
  obtain ⟨info,hfind,hservice,huntried⟩ := h.entry
  have hcore : (cores man).find nId=some (coreOf info) := by
    rw [find_cores,hfind,Option.map_some]
  -- a slot of the entry is the one at its position
  have hown : ∀ pos,man.vvNew bucket pos=some nId → pos=man.newPosition ctx addr bucket := by
    intro pos hslot
    obtain ⟨e,he,_,hpos⟩ := h.kept.tables.newSlot bucket pos nId hslot
    have hsame := he.symm.trans hcore
    rw [hpos,Option.some.inj hsame,←hservice]
    rfl
  rw [CAddrMan.removeFromBucket]
  generalize hat : man.newPosition ctx addr bucket=at' at hown
  split
  next hslot =>
    have hslots : ∀ other pos,setSlot man.vvNew bucket at' none other pos=some nId →
        man.vvNew other pos=some nId := by
      intro other pos hvalue
      by_cases hsame : other=bucket ∧ pos=at'
      · rw [setSlot,if_pos hsame] at hvalue
        cases hvalue
      · rwa [setSlot_of_ne _ _ hsame] at hvalue
    have hmodify := @modifyInfo_eq { man with vvNew := setSlot man.vvNew bucket at' none } nId info
      hfind (fun info => { info with nRefCount := info.nRefCount-1 })
    rw [hmodify]
    have hheld := h.kept.tables.leaveSlot hslot hcore
    rw [Set.insert_eq_of_mem (Set.mem_singleton nId)] at hheld
    refine ⟨⟨?_,⟨h.setup.nKey,h.setup.discriminatePorts⟩,?_,?_⟩,?_,hslots⟩
    · exact h.kept.retable hfind { info with nRefCount := info.nRefCount-1 } rfl rfl hheld
    · exact ⟨_,find_set_self _ _ _,hservice,huntried⟩
    · exact fun other pos hvalue => h.slots other pos (hslots other pos hvalue)
    · intro pos hvalue
      have hpos := hown pos (hslots bucket pos hvalue)
      dsimp only at hvalue
      rw [hpos,setSlot_self] at hvalue
      cases hvalue
  next hslot =>
    grind

theorem Leaving.foldl (buckets : List (Fin addrmanNewBucketCount)) : ∀ {man : CAddrMan},
    Leaving ctx start man nId addr →
    Leaving ctx start (buckets.foldl (CAddrMan.removeFromBucket ctx nId addr) man) nId addr ∧
      (∀ bucket∈buckets,∀ pos,(buckets.foldl (CAddrMan.removeFromBucket ctx nId addr)
        man).vvNew bucket pos≠some nId) ∧
      ∀ other pos,(buckets.foldl (CAddrMan.removeFromBucket ctx nId addr) man).vvNew other pos=
        some nId → man.vvNew other pos=some nId := by
  induction buckets with
  | nil => exact fun h => ⟨h,fun _ hm => absurd hm not_mem_nil,fun _ _ hvalue => hvalue⟩
  | cons bucket buckets ih =>
    intro man h
    obtain ⟨hnext,hempty,hback⟩ := h.removeFromBucket bucket
    grind

theorem Leaving.removeFromNew (h : Leaving ctx start man nId addr) :
    Leaving ctx start (man.removeFromNew ctx nId addr) nId addr ∧
      ∀ bucket pos,(man.removeFromNew ctx nId addr).vvNew bucket pos≠some nId := by
  obtain ⟨hleft,hempty,_⟩ := Leaving.foldl (finRange addrmanNewBucketCount) h
  rw [CAddrMan.removeFromNew]
  exact ⟨hleft,fun bucket pos => hempty bucket (mem_finRange bucket) pos⟩

theorem Kept.reenterNew (h : Kept ctx man (insert nId loose) (out+1)) {infoOld : CAddrInfo}
    (hentry : (cores man).find nId=some ⟨infoOld.addr.service,0,false⟩) :
    ∃ next,man.reenterNew ctx nId infoOld=some next ∧ Kept ctx next loose out ∧
      SameSetup man next ∧ next.vvTried=man.vvTried ∧
      ∀ other e,other≠nId → (cores man).find other=some e → e.fInTried=false → e.nRefCount=0 →
        (cores next).find other=some e := by
  have hnoSlot : ∀ other e,(cores man).find other=some e → e.fInTried=false → e.nRefCount=0 →
      ∀ bucket pos,man.vvNew bucket pos≠some other := by
    intro other e he huntried hzero
    have hcard := (h.tables.refs other e he huntried).1
    rw [hzero] at hcard
    exact slots_eq_zero_iff.mp (Int.ofNat.inj hcard).symm
  rw [CAddrMan.reenterNew]
  generalize ctx.getNewBucket man.nKey infoOld.addr.service infoOld.source=nUBucket
  generalize hpos : man.newPosition ctx infoOld.addr.service nUBucket=nUBucketPos
  obtain ⟨cleared,hclear,hkept,hsame,hempty,hvvTried,hothers⟩ := h.clearNew nUBucket nUBucketPos
  have hstays := hothers nId _ hentry (hnoSlot nId _ hentry rfl rfl nUBucket nUBucketPos)
  obtain ⟨info,hfind,hcore⟩ := exists_of_find_cores hstays
  have hservice : info.addr.service=infoOld.addr.service := congrArg Core.service hcore
  have hcount : info.nRefCount=0 := congrArg Core.nRefCount hcore
  have huntried : info.fInTried=false := congrArg Core.fInTried hcore
  rw [hclear,Option.bind_some,if_neg (not_not_intro hempty),modifyInfo_eq hfind]
  refine ⟨_,rfl,hkept.retable hfind { info with nRefCount := 1 } rfl rfl ?_,
    ⟨hsame.nKey,hsame.discriminatePorts⟩,hvvTried,?_⟩
  · have hin : (tablesOf cleared).entries.find nId=some (coreOf info) := by
      rw [tablesOf]
      rw [find_cores,hfind,Option.map_some]
    have htaken := @Held.takeSlot ctx cleared.nKey (tablesOf cleared) _ _ hkept.tables nId
      (coreOf info) nUBucket nUBucketPos hempty hin huntried
      (by
        dsimp only [coreOf,addrmanNewBucketsPerAddress]
        omega)
      (by
        dsimp only [coreOf]
        rw [hservice,hsame.nKey,←hpos]
        rfl)
    have hone : ({ coreOf info with nRefCount := (coreOf info).nRefCount+1 } : Core)=
        coreOf { info with nRefCount := 1 } := by
      dsimp only [coreOf]
      rw [hcount]
      rfl
    rw [hone] at htaken
    have hcounted := htaken.recount (cleared.nNew+1)
    have hout : out+1+(tablesOf cleared).nNew-(cleared.nNew+1)=out := by
      dsimp only [tablesOf]
      omega
    rw [hout] at hcounted
    refine hcounted.tighten (fun other hin hnot => ?_)
    cases hin.1 with
    | inl heq => exact absurd heq hin.2
    | inr hloose => exact absurd hloose hnot
  · intro other e hne he heUntried heZero
    dsimp only [cores]
    rw [cores_set,find_set_of_ne _ _ hne]
    exact hothers other e he (hnoSlot other e he heUntried heZero nUBucket nUBucketPos)

theorem Kept.evictTried (h : Kept ctx man loose out) (bucket : Fin addrmanTriedBucketCount)
    (pos : Fin addrmanBucketSize) :
    ∃ next,man.evictTried ctx bucket pos=some next ∧ Kept ctx next loose out ∧
      SameSetup man next ∧ next.vvTried bucket pos=none ∧
      ∀ other e,(cores man).find other=some e → e.fInTried=false → e.nRefCount=0 →
        (cores next).find other=some e := by
  rw [CAddrMan.evictTried]
  cases hslot : man.vvTried bucket pos with
  | none => exact ⟨man,rfl,h,SameSetup.rfl,hslot,fun _ _ he _ _ => he⟩
  | some nIdEvict =>
    obtain ⟨e,he,htried,_⟩ := (h.tables.triedSlot bucket pos nIdEvict).mp hslot
    obtain ⟨infoOld,hfind,hcore⟩ := exists_of_find_cores he
    have hrefs := h.tables.triedRefs nIdEvict e he htried
    dsimp only
    rw [hfind]
    rw [modifyInfo_eq hfind]
    have hleft : Kept ctx { man with
        mapInfo := man.mapInfo.set nIdEvict { infoOld with fInTried := false }
        vvTried := setSlot man.vvTried bucket pos none
        nTried := man.nTried-1 } (insert nIdEvict loose) (out+1) := by
      refine h.retable hfind { infoOld with fInTried := false } rfl rfl ?_
      rw [←hcore] at he
      exact h.tables.leaveTried hslot he
    have hcores : (man.mapInfo.set nIdEvict { infoOld with fInTried := false }).mapValues coreOf=
        (cores man).set nIdEvict ⟨infoOld.addr.service,0,false⟩ := by
      have hzero : infoOld.nRefCount=0 := by rw [←hrefs,←hcore]; rfl
      rw [cores_set,coreOf]
      rw [hzero]
    obtain ⟨next,hreenter,hnext,hsame,hvvTried,hothers⟩ := hleft.reenterNew
      (by rw [cores,hcores]; exact find_set_self _ _ _)
    refine ⟨next,hreenter,hnext,⟨hsame.nKey,hsame.discriminatePorts⟩,?_,?_⟩
    · rw [hvvTried]
      exact setSlot_self _ _ _ _
    · intro other found hfound huntried hzero
      have hne : other≠nIdEvict := by
        intro heq
        rw [heq,show (cores man).find nIdEvict=some e from he] at hfound
        rw [Option.some.inj hfound,huntried] at htried
        cases htried
      refine hothers other found hne ?_ huntried hzero
      rw [cores,hcores,find_set_of_ne _ _ hne,hfound]

theorem Kept.makeTried (h : Kept ctx man ∅ 0) (hfind : man.mapInfo.find nId=some info)
    (huntried : info.fInTried=false) :
    ∃ next,man.makeTried ctx nId info.addr.service=some next ∧ Kept ctx next ∅ 0 := by
  have hstart : Leaving ctx man man nId info.addr.service :=
    ⟨⟨h.random,h.lookup,h.tables.tighten (fun _ hin => absurd hin (Set.notMem_empty _)),h.fresh⟩,
      SameSetup.rfl,⟨info,hfind,rfl,huntried⟩,fun _ _ hslot => hslot⟩
  unfold CAddrMan.makeTried
  obtain ⟨hleft,hempty⟩ := hstart.removeFromNew
  dsimp only
  generalize man.removeFromNew ctx nId info.addr.service=left at hleft hempty
  obtain ⟨infoLeft,hfindLeft,hservice,huntriedLeft⟩ := hleft.entry
  have hcore : (cores left).find nId=some (coreOf infoLeft) := by
    rw [find_cores,hfindLeft,Option.map_some]
  have hzero : infoLeft.nRefCount=0 := by
    have hcard : infoLeft.nRefCount=(left.vvNew.slots nId).card :=
      (hleft.kept.tables.refs nId (coreOf infoLeft) hcore huntriedLeft).1
    rw [hcard,slots_eq_zero_iff.mpr hempty]
    rfl
  rw [hfindLeft]
  dsimp only
  rw [if_neg (not_not_intro hzero)]
  have hcounted := hleft.kept.tables.recount (left.nNew-1)
  have hout : 0+(tablesOf left).nNew-(left.nNew-1)=1 := by
    dsimp only [tablesOf]
    omega
  rw [hout] at hcounted
  have hkept : Kept ctx { left with nNew := left.nNew-1 } {nId} 1 :=
    ⟨hleft.kept.random,hleft.kept.lookup,hcounted,hleft.kept.fresh⟩
  generalize hbucket : ctx.getTriedBucket left.nKey info.addr.service=nKBucket
  generalize hpos : ({ left with nNew := left.nNew-1 } : CAddrMan).triedPosition ctx
    info.addr.service nKBucket=nKBucketPos
  obtain ⟨evicted,hevict,hkeptNext,hsame,hslot,hothers⟩ := hkept.evictTried nKBucket nKBucketPos
  have hstays := hothers nId (coreOf infoLeft) hcore huntriedLeft hzero
  obtain ⟨infoNext,hfindNext,hcoreNext⟩ := exists_of_find_cores hstays
  have hserviceNext : infoNext.addr.service=info.addr.service :=
    (congrArg Core.service hcoreNext).trans hservice
  rw [hevict,Option.bind_some,if_neg (not_not_intro hslot)]
  refine ⟨_,rfl,?_⟩
  rw [@modifyInfo_eq { evicted with
    vvTried := setSlot evicted.vvTried nKBucket nKBucketPos (some nId)
    nTried := evicted.nTried+1 } nId infoNext hfindNext]
  refine hkeptNext.retable hfindNext { infoNext with fInTried := true } rfl rfl ?_
  have htaken := @Held.takeTried ctx evicted.nKey (tablesOf evicted) _ _ hkeptNext.tables nId
    (coreOf infoNext) nKBucket nKBucketPos hslot
    (by rw [tablesOf]; dsimp only; rw [find_cores,hfindNext,Option.map_some])
    ((congrArg Core.fInTried hcoreNext).trans huntriedLeft)
    ((congrArg Core.nRefCount hcoreNext).trans hzero)
    (by
      dsimp only [coreOf]
      rw [hserviceNext,hsame.nKey,←hbucket])
    (by
      dsimp only [coreOf]
      rw [hserviceNext,hsame.nKey,←hpos]
      rfl)
  rw [Set.sdiff_self,Int.sub_self] at htaken
  exact htaken

theorem Kept.good_ (h : Kept ctx man ∅ 0) (addr : CService) (nTime : ℤ) (nRnd : ℕ) :
    ∃ next,man.good_ ctx addr nTime nRnd=some next ∧ Kept ctx next ∅ 0 := by
  have hgood : Kept ctx { man with nLastGood := nTime } ∅ 0 :=
    ⟨h.random,h.lookup,h.tables,h.fresh⟩
  rw [CAddrMan.good_]
  generalize { man with nLastGood := nTime }=good at hgood
  cases hfind : good.find addr with
  | none => exact ⟨good,rfl,hgood⟩
  | some found =>
    obtain ⟨nId,info⟩ := found
    have hentry := find_eq_some hfind
    dsimp only
    generalize hchange : (fun info : CAddrInfo =>
      { info with nLastSuccess := nTime, nLastTry := nTime, nAttempts := 0 })=change
    have hkept := hgood.modifyInfo nId change (fun _ => by rw [←hchange]; rfl)
      (fun _ => by rw [←hchange])
    have hnext : (good.modifyInfo nId change).mapInfo.find nId=some (change info) := by
      rw [modifyInfo_eq hentry]
      exact find_set_self _ _ _
    split
    next => exact ⟨_,rfl,hgood⟩
    next =>
      split
      next => exact ⟨_,rfl,hkept⟩
      next huntried =>
        split
        next => exact ⟨_,rfl,hkept⟩
        next =>
          have huntried' : (change info).fInTried=false := by
            rw [←hchange]
            exact Bool.eq_false_of_not_eq_true huntried
          have hservice : (change info).addr.service=info.addr.service := by rw [←hchange]
          have htried := hkept.makeTried hnext huntried'
          rwa [hservice] at htried

theorem Kept.attempt_ (h : Kept ctx man loose out) (addr : CService) (fCountFailure : Bool)
    (nTime : ℤ) : Kept ctx (man.attempt_ addr fCountFailure nTime) loose out := by
  rw [CAddrMan.attempt_]
  split
  next => exact h
  next =>
    split
    next => exact h
    next =>
      refine h.modifyInfo _ _ (fun info => ?_) (fun info => ?_)
      · dsimp only
        split <;> rfl
      · dsimp only
        split <;> rfl

theorem Kept.connected_ (h : Kept ctx man loose out) (addr : CService) (nTime : ℤ) :
    Kept ctx (man.connected_ addr nTime) loose out := by
  rw [CAddrMan.connected_]
  split
  next => exact h
  next =>
    split
    next => exact h
    next =>
      refine h.modifyInfo _ _ (fun info => ?_) (fun info => ?_)
      · split <;> rfl
      · split <;> rfl

theorem Kept.setServices_ (h : Kept ctx man loose out) (addr : CService) (nServices : ℕ) :
    Kept ctx (man.setServices_ addr nServices) loose out := by
  rw [CAddrMan.setServices_]
  split
  next => exact h
  next =>
    split
    next => exact h
    next => exact h.modifyInfo _ _ (fun _ => rfl) (fun _ => rfl)

theorem Kept.gatherAddr (nNodes : ℕ) (nNow : ℤ) (random : ℕ → ℕ) (rest : ℕ) :
    ∀ {man : CAddrMan} (n : ℕ) (vAddr : List CAddress),Kept ctx man loose out →
    n+rest=man.vRandom.length →
    ∃ next,CAddrMan.gatherAddr nNodes nNow random rest n man vAddr=some next ∧
      Kept ctx next.1 loose out := by
  induction rest with
  | zero => exact fun n vAddr h _ => ⟨_,rfl,h⟩
  | succ rest ih =>
    intro man n vAddr h hlen
    rw [CAddrMan.gatherAddr]
    split
    next => exact ⟨_,rfl,h⟩
    next =>
      have hn : n < man.vRandom.length := by omega
      have hrandom : random n%(man.vRandom.length-n)+n < man.vRandom.length := by
        have hlt := Nat.mod_lt (random n) (show 0 < man.vRandom.length-n by omega)
        omega
      obtain ⟨mapInfo,vRandom,hswap,hcores,hpositioned,hsame,_⟩ :=
        swapRandom_spec h.random hn hrandom
      have hkept : Kept ctx { man with mapInfo := mapInfo, vRandom := vRandom } loose out := by
        refine ⟨hpositioned,?_,?_,?_⟩
        · rw [show cores { man with mapInfo := mapInfo, vRandom := vRandom }=cores man from hcores]
          exact h.lookup
        · rw [tablesOf,show cores { man with mapInfo := mapInfo, vRandom := vRandom }=cores man
            from hcores]
          exact h.tables
        · rw [show cores { man with mapInfo := mapInfo, vRandom := vRandom }=cores man from hcores]
          exact h.fresh
      dsimp only
      rw [hswap,Option.bind_some]
      have hlt : n<vRandom.length := by omega
      have hat : vRandom[n]?=some vRandom[n] := getElem?_eq_getElem hlt
      have hpos := (hpositioned.index n _).mp hat
      rw [find_mapValues] at hpos
      obtain ⟨info,hinfo,_⟩ := Option.map_eq_some_iff.mp hpos
      rw [hat,Option.bind_some,hinfo]
      exact ih (n+1) _ hkept (by dsimp only; omega)

theorem Kept.getAddr_ (h : Kept ctx man loose out) (nNow : ℤ) (random : ℕ → ℕ) :
    ∃ next,man.getAddr_ nNow random=some next ∧ Kept ctx next.1 loose out := by
  rw [CAddrMan.getAddr_]
  exact Kept.gatherAddr _ nNow random man.vRandom.length 0 [] h (Nat.zero_add _)

theorem Kept.step (h : Kept ctx man ∅ 0) (call : AddrCall)
    (hroom : makesEntry ctx man call=true → man.nIdCount+1 < 2^31) :
    ∃ next,step ctx man call=some next ∧ Kept ctx next ∅ 0 := by
  cases call with
  | add addr source nTimePenalty nNow nRnd => exact h.add_ addr source nTimePenalty nNow nRnd hroom
  | good addr nTime nRnd => exact h.good_ addr nTime nRnd
  | attempt addr fCountFailure nTime => exact ⟨_,rfl,h.attempt_ addr fCountFailure nTime⟩
  | connected addr nTime => exact ⟨_,rfl,h.connected_ addr nTime⟩
  | setServices addr nServices => exact ⟨_,rfl,h.setServices_ addr nServices⟩
  | getAddr nNow random =>
    obtain ⟨next,hget,hnext⟩ := h.getAddr_ nNow random
    refine ⟨next.1,?_,hnext⟩
    rw [AddrMan.step,hget,Option.map_some]

theorem kept_empty (ctx : AddrContext) (discriminatePorts : Bool) (nKey : ℕ) :
    Kept ctx (empty discriminatePorts nKey) ∅ 0 where
  random := Positioned.nil
  lookup := by
    intro service nId
    have hnone : (empty discriminatePorts nKey).mapAddr.find service=none := rfl
    have hcores : (cores (empty discriminatePorts nKey)).find nId=none := rfl
    rw [hnone,hcores]
    simp only [reduceCtorEq,false_and,exists_false]
  tables := by
    refine ⟨nofun,?_,?_,?_,?_,rfl,rfl⟩
    · exact fun _ _ hfind => nomatch hfind
    · exact fun _ _ hfind => nomatch hfind
    · intro bucket pos nId
      have hcores : (tablesOf (empty discriminatePorts nKey)).entries.find nId=none := rfl
      have hslot : (tablesOf (empty discriminatePorts nKey)).vvTried bucket pos=none := rfl
      rw [hcores,hslot]
      simp only [reduceCtorEq,false_and,exists_false]
    · exact fun _ _ hfind => nomatch hfind
  fresh := fun _ _ => rfl

end Moves

section Counter

open CAddrMan

variable {ctx : AddrContext} {man next : CAddrMan} {nId : ℕ} {addr : CService}

@[simp] theorem nIdCount_modifyInfo (man : CAddrMan) (nId : ℕ) (change : CAddrInfo → CAddrInfo) :
    (man.modifyInfo nId change).nIdCount=man.nIdCount := by
  unfold modifyInfo
  split
  · rfl
  · rfl

theorem nIdCount_swapRandom {nRndPos1 nRndPos2 : ℕ}
    (h : man.swapRandom nRndPos1 nRndPos2=some next) : next.nIdCount=man.nIdCount := by
  unfold swapRandom at h
  grind [nIdCount_modifyInfo]

theorem nIdCount_delete (h : man.delete nId=some next) : next.nIdCount=man.nIdCount := by
  unfold delete at h
  grind [nIdCount_swapRandom, Option.map_eq_some_iff, Option.bind_eq_some_iff]

theorem nIdCount_clearNew {bucket : Fin addrmanNewBucketCount} {pos : Fin addrmanBucketSize}
    (h : man.clearNew bucket pos=some next) : next.nIdCount=man.nIdCount := by
  unfold clearNew at h
  split at h
  · cases h
    rfl
  · split at h
    · cases h
    · dsimp only at h
      split_ifs at h
      · exact (nIdCount_delete h).trans (nIdCount_modifyInfo _ _ _)
      · cases h
        exact nIdCount_modifyInfo _ _ _

theorem nIdCount_removeFromNew (man : CAddrMan) (nId : ℕ) (addr : CService) :
    (man.removeFromNew ctx nId addr).nIdCount=man.nIdCount := by
  unfold removeFromNew
  generalize finRange addrmanNewBucketCount=buckets
  induction buckets generalizing man with
  | nil => rfl
  | cons bucket buckets ih =>
    rw [foldl_cons,ih]
    unfold removeFromBucket
    grind [nIdCount_modifyInfo]

theorem nIdCount_evictTried {bucket : Fin addrmanTriedBucketCount} {pos : Fin addrmanBucketSize}
    (h : man.evictTried ctx bucket pos=some next) : next.nIdCount=man.nIdCount := by
  unfold evictTried at h
  split at h
  · cases h
    rfl
  · split at h
    · cases h
    · unfold reenterNew at h
      obtain ⟨cleared,hcleared,h⟩ := Option.bind_eq_some_iff.mp h
      split_ifs at h
      cases h
      exact (nIdCount_modifyInfo _ _ _).trans
        ((nIdCount_clearNew hcleared).trans (nIdCount_modifyInfo _ _ _))

theorem nIdCount_makeTried (h : man.makeTried ctx nId addr=some next) :
    next.nIdCount=man.nIdCount := by
  have hfree := @nIdCount_removeFromNew ctx man nId addr
  unfold makeTried at h
  generalize man.removeFromNew ctx nId addr=free at h hfree
  dsimp only at h
  split at h
  · cases h
  · split_ifs at h
    obtain ⟨evicted,hevicted,h⟩ := Option.bind_eq_some_iff.mp h
    split_ifs at h
    cases h
    rw [nIdCount_modifyInfo]
    exact (nIdCount_evictTried hevicted).trans hfree

theorem nIdCount_placeNew {source : CNetAddr} {nNow : ℤ}
    (h : man.placeNew ctx nId source nNow=some next) : next.nIdCount=man.nIdCount := by
  unfold placeNew at h
  grind [nIdCount_modifyInfo, nIdCount_clearNew, nIdCount_delete, Option.map_eq_some_iff]

theorem nIdCount_gatherAddr {nNodes rest n : ℕ} {nNow : ℤ} {random : ℕ → ℕ}
    {vAddr : List CAddress} {result : CAddrMan×List CAddress}
    (h : gatherAddr nNodes nNow random rest n man vAddr=some result) :
    result.1.nIdCount=man.nIdCount := by
  induction rest generalizing n man vAddr with
  | zero =>
    cases h
    rfl
  | succ rest ih =>
    unfold gatherAddr at h
    grind [nIdCount_swapRandom, Option.map_eq_some_iff, Option.bind_eq_some_iff]

/-- The counter grows with every entry that is made. -/
theorem nIdCount_step {call : AddrCall} (h : step ctx man call=some next) :
    next.nIdCount=man.nIdCount+if makesEntry ctx man call then 1 else 0 := by
  cases call with
  | add addr source nTimePenalty nNow nRnd =>
    obtain ⟨result,hres,rfl⟩ := Option.map_eq_some_iff.mp h
    unfold add_ at hres
    by_cases hroutable : (!isRoutable ctx.fAllowPrivateNet addr.service)=true
    · rw [if_pos hroutable] at hres
      cases hres
      rw [Bool.not_eq_true'] at hroutable
      simp [makesEntry,hroutable]
    · rw [if_neg hroutable] at hres
      generalize (if addr.service.ip=source.1 then 0 else nTimePenalty)=penalty at hres
      cases hfind : man.find addr.service with
      | some found =>
        have hsame := nIdCount_modifyInfo man found.1 (refreshInfo addr penalty nNow)
        simp only [hfind] at hres
        rw [show makesEntry ctx man (.add addr source nTimePenalty nNow nRnd)=false by
          simp [makesEntry,hfind]]
        split_ifs at hres <;> try (cases hres; exact hsame)
        obtain ⟨placed,hplaced,rfl⟩ := Option.map_eq_some_iff.mp hres
        exact (nIdCount_placeNew hplaced).trans hsame
      | none =>
        simp only [hfind] at hres
        rw [show makesEntry ctx man (.add addr source nTimePenalty nNow nRnd)=true by
          simpa [makesEntry,hfind] using hroutable]
        obtain ⟨made,hmade,hres⟩ := Option.bind_eq_some_iff.mp hres
        unfold create at hmade
        split_ifs at hmade
        cases hmade
        obtain ⟨placed,hplaced,rfl⟩ := Option.map_eq_some_iff.mp hres
        exact (nIdCount_placeNew hplaced).trans
          (nIdCount_modifyInfo (man.created addr source) man.nIdCount _)
  | good addr nTime nRnd =>
    have h : man.good_ ctx addr nTime nRnd=some next := h
    unfold good_ at h
    grind [makesEntry, nIdCount_modifyInfo, nIdCount_makeTried]
  | attempt addr fCountFailure nTime =>
    cases h
    unfold attempt_
    grind [makesEntry, nIdCount_modifyInfo]
  | connected addr nTime =>
    cases h
    unfold connected_
    grind [makesEntry, nIdCount_modifyInfo]
  | setServices addr nServices =>
    cases h
    unfold setServices_
    grind [makesEntry, nIdCount_modifyInfo]
  | getAddr nNow random =>
    obtain ⟨result,hres,rfl⟩ := Option.map_eq_some_iff.mp h
    exact nIdCount_gatherAddr hres
theorem step_full {call : AddrCall} (hmakes : makesEntry ctx man call=true)
    (hfull : ¬man.nIdCount+1 < 2^31) : step ctx man call=none := by
  cases call with
  | add addr source nTimePenalty nNow nRnd =>
    simp only [makesEntry,Bool.and_eq_true,Option.isNone_iff_eq_none] at hmakes
    obtain ⟨hroutable,hfind⟩ := hmakes
    simp only [step,add_,hroutable,hfind,create,hfull,Bool.not_true,Bool.false_eq_true,if_false,
      Option.bind_none,Option.map_none]
  | _ => cases hmakes

theorem Kept.run (calls : List AddrCall) : ∀ {man : CAddrMan},Kept ctx man ∅ 0 →
    man.nIdCount+entriesMade ctx man calls < 2^31 →
    ∃ next,run ctx man calls=some next ∧ Kept ctx next ∅ 0 := by
  induction calls with
  | nil => exact fun h _ => ⟨_,rfl,h⟩
  | cons call calls ih =>
    intro man h hroom
    rw [entriesMade] at hroom
    obtain ⟨next,hstep,hnext⟩ := h.step call (fun hmakes => by
      rw [if_pos hmakes] at hroom
      omega)
    have hcount := nIdCount_step hstep
    simp only [hstep] at hroom
    obtain ⟨last,hrun,hlast⟩ := ih hnext (by omega)
    refine ⟨last,?_,hlast⟩
    rw [AddrMan.run,foldlM_cons,hstep]
    exact hrun

/-- A run that returns made less entries than there are ids. -/
theorem entriesMade_lt (calls : List AddrCall) : ∀ {man last : CAddrMan},
    run ctx man calls=some last → man.nIdCount < 2^31 →
    man.nIdCount+entriesMade ctx man calls < 2^31 := by
  induction calls with
  | nil => exact fun _ hroom => hroom
  | cons call calls ih =>
    intro man last hrun hroom
    rw [AddrMan.run,foldlM_cons] at hrun
    obtain ⟨next,hstep,hrun⟩ := Option.bind_eq_some_iff.mp hrun
    have hcount := nIdCount_step hstep
    have hnext : next.nIdCount < 2^31 := by
      by_cases hmakes : makesEntry ctx man call=true
      · by_contra hfull
        rw [hcount,if_pos hmakes] at hfull
        rw [step_full hmakes hfull] at hstep
        cases hstep
      · rw [hcount,if_neg hmakes]
        exact hroom
    have hrest := ih hrun hnext
    simp only [entriesMade,hstep]
    omega

end Counter

/-- The tables of an address manager agree with its entries. -/
structure Consistent (ctx : AddrContext) (man : CAddrMan) : Prop where
  random : man.vRandom.Perm (man.mapInfo.entries.map Prod.fst)
  /-- Each entry knows its place in the random order. -/
  position : ∀ nId info,man.mapInfo.find nId=some info → man.vRandom[info.nRandomPos]?=some nId
  /-- The map by address has the address of each entry, as entries are told apart, and nothing else.
  -/
  lookup : ∀ service nId,man.mapAddr.find service=some nId ↔
    ∃ info,man.mapInfo.find nId=some info ∧ man.lookupKey info.addr.service=service
  /-- Each tried entry is at its own slot of the tried table, and nothing else is there. -/
  tried : ∀ bucket pos nId,man.vvTried bucket pos=some nId ↔
    ∃ info,man.mapInfo.find nId=some info ∧ info.fInTried=true ∧
      bucket=ctx.getTriedBucket man.nKey info.addr.service ∧
      pos=man.triedPosition ctx info.addr.service bucket
  triedRefs : ∀ nId info,man.mapInfo.find nId=some info → info.fInTried=true → info.nRefCount=0
  /-- Slots of the new table have untried entries at their own position of the bucket. -/
  newSlot : ∀ bucket pos nId,man.vvNew bucket pos=some nId →
    ∃ info,man.mapInfo.find nId=some info ∧ info.fInTried=false ∧
      pos=man.newPosition ctx info.addr.service bucket
  /-- Each untried entry has as many slots as it counts, between one and eight. -/
  newRefs : ∀ nId info,man.mapInfo.find nId=some info → info.fInTried=false →
    info.nRefCount=(man.vvNew.slots nId).card ∧ 1 ≤ info.nRefCount ∧
      info.nRefCount ≤ addrmanNewBucketsPerAddress
  nNew : man.nNew=man.mapInfo.values.countP (fun info => !info.fInTried)
  nTried : man.nTried=man.mapInfo.values.countP CAddrInfo.fInTried

variable {ctx : AddrContext} {man : CAddrMan}

theorem Kept.consistent (h : Kept ctx man ∅ 0) : Consistent ctx man := by
  have hentry : ∀ nId (holds : Core → Prop),(∃ e,(cores man).find nId=some e ∧ holds e) ↔
      ∃ info,man.mapInfo.find nId=some info ∧ holds (coreOf info) := by
    intro nId holds
    rw [find_cores]
    cases man.mapInfo.find nId with
    | none => simp only [Option.map_none,reduceCtorEq,false_and,exists_false]
    | some info => simp only [Option.map_some,Option.some.injEq,exists_eq_left']
  have hcore : ∀ {nId info},man.mapInfo.find nId=some info →
      (tablesOf man).entries.find nId=some (coreOf info) := by
    intro nId info hfind
    change (cores man).find nId=_
    rw [find_cores,hfind,Option.map_some]
  refine ⟨?_,?_,?_,?_,?_,?_,?_,?_,?_⟩
  · have hperm := h.random.perm_keys
    have hkeys : (positions man).entries.map Prod.fst=man.mapInfo.entries.map Prod.fst := by
      rw [positions,OrderedMap.mapValues]
      rw [map_map]
      rfl
    rwa [hkeys] at hperm
  · intro nId info hfind
    rw [h.random.index,find_positions,hfind,Option.map_some]
  · intro service nId
    rw [h.lookup]
    exact hentry nId (fun e => man.lookupKey e.service=service)
  · intro bucket pos nId
    rw [show man.vvTried=(tablesOf man).vvTried from rfl,h.tables.triedSlot]
    exact hentry nId (fun e => e.fInTried=true ∧ bucket=ctx.getTriedBucket man.nKey e.service ∧
      pos=ctx.getBucketPosition man.nKey false bucket e.service)
  · exact fun nId info hfind htried => h.tables.triedRefs nId _ (hcore hfind) htried
  · intro bucket pos nId hslot
    exact (hentry nId (fun e => e.fInTried=false ∧
      pos=ctx.getBucketPosition man.nKey true bucket e.service)).mp
      (h.tables.newSlot bucket pos nId hslot)
  · intro nId info hfind huntried
    obtain ⟨hcard,hmany⟩ := h.tables.refs nId _ (hcore hfind) huntried
    exact ⟨hcard,h.tables.used nId _ (hcore hfind) huntried (Set.notMem_empty nId),hmany⟩
  · have hcount := h.tables.countNew
    rw [Int.add_zero] at hcount
    refine hcount.trans (congrArg Nat.cast ?_)
    dsimp only [newCount,tablesOf,cores,OrderedMap.values,OrderedMap.mapValues]
    rw [map_map,countP_map,countP_map]
    rfl
  · refine h.tables.countTried.trans (congrArg Nat.cast ?_)
    dsimp only [triedCount,tablesOf,cores,OrderedMap.values,OrderedMap.mapValues]
    rw [map_map,countP_map,countP_map]
    rfl

/-- A run of calls on an address manager without addresses fails no assertion, and the address
manager is consistent after it, exactly if the run makes less entries than there are ids. -/
theorem run_consistent_iff (ctx : AddrContext) (discriminatePorts : Bool) (nKey : ℕ)
    (calls : List AddrCall) :
    (∃ man,run ctx (empty discriminatePorts nKey) calls=some man ∧ Consistent ctx man) ↔
      entriesMade ctx (empty discriminatePorts nKey) calls < 2^31 := by
  have hzero : (empty discriminatePorts nKey).nIdCount=0 := rfl
  constructor
  · rintro ⟨man,hrun,-⟩
    have hlt := entriesMade_lt calls hrun (by rw [hzero]; decide)
    omega
  · intro hroom
    obtain ⟨man,hrun,hkept⟩ := Kept.run calls (kept_empty ctx discriminatePorts nKey) (by omega)
    exact ⟨man,hrun,hkept.consistent⟩

/-- A new address whose slot is taken by one that stays. -/
structure Refuses (ctx : AddrContext) (man : CAddrMan) (addr : CAddress) (source : CNetAddr)
    (nNow : ℤ) : Prop where
  routable : isRoutable ctx.fAllowPrivateNet addr.service=true
  unknown : man.mapAddr.find (man.lookupKey addr.service)=none
  taken : ∃ nId info,man.vvNew (ctx.getNewBucket man.nKey addr.service source)
      (man.newPosition ctx addr.service (ctx.getNewBucket man.nKey addr.service source))=some nId ∧
    man.mapInfo.find nId=some info ∧ isTerrible info nNow=false ∧ info.nRefCount ≤ 1
  fresh : ∀ nId,man.nIdCount ≤ nId → man.mapInfo.find nId=none

section Overflow

variable {addr : CAddress} {source : CNetAddr} {nNow : ℤ} {nId : ℕ} {info : CAddrInfo}

/-- An entry without a slot that gets none is dropped, and the last of the random order needs no
swap. -/
theorem placeNew_refused (hfind : man.mapInfo.find nId=some info) (huntried : info.fInTried=false)
    (hrefs : info.nRefCount=0) (hpos : info.nRandomPos=man.vRandom.length-1) {other : ℕ}
    (hslot : man.vvNew (ctx.getNewBucket man.nKey info.addr.service source)
      (man.newPosition ctx info.addr.service (ctx.getNewBucket man.nKey info.addr.service source))=
        some other) (hother : other≠nId) (hmay : man.mayInsert info nNow (some other)=false) :
    man.placeNew ctx nId source nNow=some { man with
      vRandom := man.vRandom.dropLast
      mapAddr := man.mapAddr.erase (man.lookupKey info.addr.service)
      mapInfo := man.mapInfo.erase nId
      nNew := man.nNew-1 } := by
  rw [CAddrMan.placeNew,hfind]
  dsimp only
  rw [hslot,if_neg (fun he => hother (Option.some.inj he)),hmay,if_neg Bool.false_ne_true,
    if_pos hrefs,CAddrMan.delete,hfind]
  dsimp only
  rw [huntried,if_neg Bool.false_ne_true,if_neg (not_not_intro hrefs),CAddrMan.swapRandom,
    if_pos hpos]
  rfl

/-- Its entry is dropped at once, and only the counter grows. -/
theorem Refuses.step (h : Refuses ctx man addr source nNow) (hroom : man.nIdCount+1 < 2^31) :
    step ctx man (.add addr source 0 nNow 0)=some { man with nIdCount := man.nIdCount+1 } := by
  obtain ⟨nId,info,hslot,hinfo,hterrible,hrefs⟩ := h.taken
  have hid : nId≠man.nIdCount := by
    intro heq
    rw [h.fresh nId (Nat.le_of_eq heq.symm)] at hinfo
    cases hinfo
  have hfind : man.find addr.service=none := by
    simp only [CAddrMan.find,h.unknown,Option.bind_none]
  have hmay : ¬1 < info.nRefCount := by omega
  simp only [AddrMan.step,CAddrMan.add_,h.routable,hfind,CAddrMan.create,hroom,Bool.not_true,
    Bool.false_eq_true,if_false,if_true,Option.bind_some]
  generalize (if addr.service.ip=source.1 then (0 : ℤ) else 0)=penalty
  rw [modifyInfo_eq (find_set_self _ _ _)]
  rw [placeNew_refused (find_set_self _ _ _) rfl rfl (by simp [CAddrMan.created]) hslot hid ?_]
  · have haddr : (man.mapAddr.set (man.lookupKey addr.service) man.nIdCount).erase
        (man.lookupKey addr.service)=man.mapAddr := by
      rw [erase_of_set,erase_of_none h.unknown]
    simp only [Option.map_some,CAddrMan.created,erase_of_set,erase_of_none
      (h.fresh _ (Nat.le_refl _)),
      dropLast_concat,add_sub_cancel_right]
    exact congrArg (fun mapAddr =>
      some { man with nIdCount := man.nIdCount+1, mapAddr := mapAddr }) haddr
  · simp only [CAddrMan.mayInsert,CAddrMan.created,find_set_of_ne _ _ hid,hinfo,hterrible,hmay,
      decide_false,Bool.false_and,Bool.or_false]

theorem Refuses.counted (h : Refuses ctx man addr source nNow) :
    Refuses ctx { man with nIdCount := man.nIdCount+1 } addr source nNow where
  routable := h.routable
  unknown := h.unknown
  taken := h.taken
  fresh := fun nId hle => h.fresh nId (Nat.le_of_succ_le hle)

/-- Enough of such calls use up all ids. -/
theorem Refuses.overflow (calls : ℕ) : ∀ {man : CAddrMan},Refuses ctx man addr source nNow →
    man.nIdCount < 2^31 → 2^31 ≤ man.nIdCount+calls →
    run ctx man (replicate calls (.add addr source 0 nNow 0))=none := by
  induction calls with
  | zero =>
    intro man _ hlt hle
    omega
  | succ calls ih =>
    intro man h hlt hle
    rw [replicate_succ,AddrMan.run,foldlM_cons]
    by_cases hroom : man.nIdCount+1 < 2^31
    · rw [h.step hroom]
      exact ih h.counted hroom (by dsimp only; omega)
    · have hmakes : makesEntry ctx man (.add addr source 0 nNow 0)=true := by
        simp [makesEntry,CAddrMan.find,h.routable,h.unknown]
      rw [step_full hmakes hroom]
      rfl

end Overflow

/-- Hashes that have few values. -/
def exampleContext : AddrContext where
  getTriedBucket _ _ := ⟨0,by decide⟩
  getNewBucket _ _ _ := ⟨0,by decide⟩
  getBucketPosition _ _ _ addr := ⟨addr.port%64,Nat.mod_lt _ (by decide)⟩
  fAllowPrivateNet := false

def exampleAddress : CAddress where
  service := CService.ipv4 8 8 8 8 8333
  nServices := 1
  nTime := 1000000

def exampleSource : CNetAddr :=
  ⟨(CService.ipv4 9 9 9 9 0).ip,(CService.ipv4 9 9 9 9 0).ip_length⟩

/-- The address manager has heard of the address. -/
def exampleCalls : List AddrCall := [.add exampleAddress exampleSource 0 1000000 0]

/-- What is known of the address after that. -/
def exampleInfo : CAddrInfo where
  addr := exampleAddress
  source := exampleSource
  nRefCount := 1
  nRandomPos := 0

theorem run_example (discriminatePorts : Bool) :
    ∃ man,run exampleContext (empty discriminatePorts 5) exampleCalls=some man ∧
      Consistent exampleContext man ∧ man.discriminatePorts=discriminatePorts ∧ man.nKey=5 ∧
      man.mapInfo.entries=[(0,exampleInfo)] := by
  obtain ⟨man,hrun,hkept⟩ := Kept.run exampleCalls (kept_empty exampleContext discriminatePorts 5)
    (by cases discriminatePorts <;> decide)
  have hvalue : (run exampleContext (empty discriminatePorts 5) exampleCalls).map (fun man =>
      (man.discriminatePorts,man.nKey,man.mapInfo.entries))=
        some (discriminatePorts,5,[(0,exampleInfo)]) := by
    cases discriminatePorts <;> decide
  rw [hrun,Option.map_some,Option.some.injEq,Prod.mk.injEq,Prod.mk.injEq] at hvalue
  exact ⟨man,hrun,hkept.consistent,hvalue⟩

/-- Another address for the same slot. -/
def exampleGuest : CAddress := { exampleAddress with service := CService.ipv4 8 8 4 4 8333 }

/-- As many new addresses as there are ids overflow the counter. -/
theorem ids_overflow : ¬∃ man,run exampleContext (empty false 5)
    (exampleCalls++replicate (2^31-1) (.add exampleGuest exampleSource 0 1000000 0))=some man ∧
      Consistent exampleContext man := by
  rintro ⟨last,hlast,-⟩
  obtain ⟨man,hrun,-,-,-,hentries⟩ := run_example false
  have hvalue : (run exampleContext (empty false 5) exampleCalls).map (fun man =>
      (man.nIdCount,man.mapAddr.find (man.lookupKey exampleGuest.service),
        man.vvNew ⟨0,by decide⟩ ⟨8333%64,by decide⟩))=some (1,none,some 0) := by decide
  rw [hrun,Option.map_some,Option.some.injEq,Prod.mk.injEq,Prod.mk.injEq] at hvalue
  obtain ⟨hcount,hunknown,hslot⟩ := hvalue
  have hfind : ∀ nId info,man.mapInfo.find nId=some info ↔ nId=0 ∧ info=exampleInfo := by
    intro nId info
    rw [←mem_entries_iff,hentries,mem_singleton,Prod.mk.injEq]
  have hrefuses : Refuses exampleContext man exampleGuest exampleSource 1000000 := by
    refine ⟨by decide,hunknown,⟨0,exampleInfo,hslot,(hfind _ _).mpr ⟨rfl,rfl⟩,by decide,
      by decide⟩,?_⟩
    intro nId hle
    refine Option.eq_none_iff_forall_ne_some.mpr (fun info hinfo => ?_)
    have hzero := ((hfind nId info).mp hinfo).1
    omega
  rw [AddrMan.run,foldlM_append] at hlast
  obtain ⟨middle,hmid,hrest⟩ := Option.bind_eq_some_iff.mp hlast
  rw [show foldlM (step exampleContext) (empty false 5) exampleCalls=some man from hrun] at hmid
  cases hmid
  have hnone := hrefuses.overflow (2^31-1) (by rw [hcount]; decide) (by rw [hcount]; decide)
  rw [AddrMan.run,hrest] at hnone
  cases hnone

end Pyrk.AddrMan
