import Pyrk.AddrFile

/-!
# Reloading the address manager

The entries of a file get new ids in order, and each gets back its slots. The map by address gets
the port, while lookups leave it out unless entries are told apart by it.
-/

namespace Pyrk.AddrMan

open NetAddress SlotTable ByteReader OrderedMap Function List CAddrMan

theorem find_numberEntries_of_ne {nId : ℕ} (entries : List (ℕ×CAddrInfo)) :
    ∀ (nIds : ℕ) (mapUnkIds : OrderedMap ℕ ℕ),(∀ entry∈entries,entry.1≠nId) →
      (numberEntries entries nIds mapUnkIds).find nId=mapUnkIds.find nId := by
  induction entries with
  | nil => exact fun _ _ _ => rfl
  | cons entry entries ih =>
    intro nIds mapUnkIds h
    rw [numberEntries,ih _ _ (fun other hm => h other (mem_cons_of_mem _ hm)),
      find_set_of_ne _ _ (h entry mem_cons_self).symm]

theorem find_numberEntries {entry : ℕ×CAddrInfo} (hslots : entry.2.nRefCount≠0)
    (entries : List (ℕ×CAddrInfo)) : ∀ (nIds : ℕ) (mapUnkIds : OrderedMap ℕ ℕ),
    entries.Pairwise (fun first second => first.1≠second.1) → entry∈entries →
    ∃ place,(entries.filter (fun entry => entry.2.nRefCount≠0))[place]?=some entry ∧
      (numberEntries entries nIds mapUnkIds).find entry.1=some (nIds+place) := by
  induction entries with
  | nil => exact fun _ _ _ hm => absurd hm not_mem_nil
  | cons head entries ih =>
    intro nIds mapUnkIds hpairwise hm
    have hhead := pairwise_cons.mp hpairwise
    rw [numberEntries]
    cases mem_cons.mp hm with
    | inl heq =>
      subst heq
      refine ⟨0,?_,?_⟩
      · rw [filter_cons_of_pos (by simpa only [decide_eq_true_eq] using hslots),
          getElem?_cons_zero]
      · rw [find_numberEntries_of_ne _ _ _ (fun other hother => (hhead.1 other hother).symm),
          find_set_self,Nat.add_zero]
    | inr htail =>
      obtain ⟨place,hplace,hnumber⟩ := ih (if head.2.nRefCount≠0 then nIds+1 else nIds)
        (mapUnkIds.set head.1 nIds) hhead.2 htail
      by_cases hheadSlots : head.2.nRefCount≠0
      · refine ⟨place+1,?_,?_⟩
        · rw [filter_cons_of_pos (by simpa only [decide_eq_true_eq] using hheadSlots),
            getElem?_cons_succ]
          exact hplace
        · rw [hnumber,if_pos hheadSlots]
          congr 1
          omega
      · grind

theorem pairwise_entries (man : CAddrMan) :
    man.mapInfo.entries.Pairwise (fun first second => first.1≠second.1) :=
  man.mapInfo.sorted.imp (fun hlt => Nat.ne_of_lt hlt)

theorem newEntries_unkId {man : CAddrMan} {nId : ℕ} {info : CAddrInfo}
    (hfind : man.mapInfo.find nId=some info) (hslots : info.nRefCount≠0) :
    man.newEntries[man.unkId nId]?=some (nId,info) := by
  obtain ⟨place,hplace,hnumber⟩ := @find_numberEntries (nId,info) hslots man.mapInfo.entries 0
    .empty (pairwise_entries man) ((man.mapInfo.mem_entries_iff nId info).mpr hfind)
  rw [unkId,hnumber,Nat.zero_add,Option.getD_some]
  exact hplace

section Entries

variable {ctx : AddrContext} {man : CAddrMan}

/-- Entries in the order in which the file has them. -/
def fileEntries (man : CAddrMan) : List (ℕ×CAddrInfo) := man.newEntries++man.triedEntries

variable {nId : ℕ} {info : CAddrInfo}

theorem Consistent.refs (h : Consistent ctx man)
    (hfind : man.mapInfo.find nId=some info) : info.nRefCount=(man.vvNew.slots nId).card := by
  cases htried : info.fInTried with
  | false => exact (h.newRefs nId info hfind htried).1
  | true =>
    have hnone : (man.vvNew.slots nId).card=0 := by
      refine slots_eq_zero_iff.mpr (fun bucket pos hslot => ?_)
      obtain ⟨found,hfound,huntried,_⟩ := h.newSlot bucket pos nId hslot
      rw [hfind] at hfound
      rw [Option.some.inj hfound,huntried] at htried
      cases htried
    rw [hnone,h.triedRefs nId info hfind htried]
    rfl

theorem Consistent.refs_ne_zero (h : Consistent ctx man)
    (hfind : man.mapInfo.find nId=some info) : info.nRefCount≠0 ↔ info.fInTried=false := by
  cases htried : info.fInTried with
  | false =>
    have hone := (h.newRefs nId info hfind htried).2.1
    simp only [ne_eq,iff_true]
    omega
  | true => simp only [h.triedRefs nId info hfind htried,ne_eq,not_true_eq_false,reduceCtorEq]

theorem Consistent.mem_newEntries (h : Consistent ctx man) :
    (nId,info)∈man.newEntries ↔ man.mapInfo.find nId=some info ∧ info.fInTried=false := by
  rw [newEntries,mem_filter,mem_entries_iff]
  refine and_congr_right (fun hfind => ?_)
  rw [decide_eq_true_eq]
  exact h.refs_ne_zero hfind

theorem mem_triedEntries :
    (nId,info)∈man.triedEntries ↔ man.mapInfo.find nId=some info ∧ info.fInTried=true := by
  rw [triedEntries,mem_filter,mem_entries_iff]

section

variable (h : Consistent ctx man)

include h

theorem Consistent.mem_fileEntries :
    (nId,info)∈fileEntries man ↔ man.mapInfo.find nId=some info := by
  rw [fileEntries,mem_append,h.mem_newEntries,mem_triedEntries,←and_or_left]
  cases info.fInTried <;> simp only [reduceCtorEq,or_false,or_true,and_true]

theorem Consistent.nodup_fileEntries : (fileEntries man).Nodup := by
  have hnodup : man.mapInfo.entries.Nodup :=
    (pairwise_entries man).imp (fun hne heq => hne (congrArg Prod.fst heq))
  refine nodup_append.mpr ⟨hnodup.filter _,hnodup.filter _,?_⟩
  intro first hfirst second hsecond heq
  rw [←heq] at hsecond
  have huntried := (h.mem_newEntries.mp hfirst).2
  have htried := (mem_triedEntries.mp hsecond).2
  rw [huntried] at htried
  cases htried

theorem Consistent.service_ne {first second : ℕ×CAddrInfo}
    (hfirst : first∈fileEntries man) (hsecond : second∈fileEntries man) (hne : first≠second) :
    first.2.addr.service≠second.2.addr.service := by
  intro heq
  have hfindFirst := h.mem_fileEntries.mp hfirst
  have hfindSecond := h.mem_fileEntries.mp hsecond
  have hidFirst := (h.lookup _ first.1).mpr ⟨first.2,hfindFirst,rfl⟩
  have hidSecond := (h.lookup _ second.1).mpr ⟨second.2,hfindSecond,rfl⟩
  grind

theorem Consistent.slot_ne {first second : ℕ×CAddrInfo}
    (hfirst : first∈fileEntries man) (hsecond : second∈fileEntries man) (hne : first≠second)
    (htriedFirst : first.2.fInTried=true) (htriedSecond : second.2.fInTried=true)
    (hbucket : ctx.getTriedBucket man.nKey second.2.addr.service=
      ctx.getTriedBucket man.nKey first.2.addr.service) :
    man.triedPosition ctx second.2.addr.service
        (ctx.getTriedBucket man.nKey first.2.addr.service)≠
      man.triedPosition ctx first.2.addr.service
        (ctx.getTriedBucket man.nKey first.2.addr.service) := by
  intro hpos
  have hfindFirst := h.mem_fileEntries.mp hfirst
  have hfindSecond := h.mem_fileEntries.mp hsecond
  have hslotFirst := (h.tried _ _ first.1).mpr ⟨first.2,hfindFirst,htriedFirst,rfl,rfl⟩
  have hslotSecond := (h.tried _ _ second.1).mpr ⟨second.2,hfindSecond,htriedSecond,rfl,rfl⟩
  grind

theorem Consistent.nNew_eq : man.nNew=man.newEntries.length := by
  rw [h.nNew,OrderedMap.values,countP_map,countP_eq_length_filter,newEntries]
  congr 2
  refine filter_congr (fun entry hm => ?_)
  have hslots := h.refs_ne_zero ((man.mapInfo.mem_entries_iff entry.1 entry.2).mp hm)
  rw [comp_apply]
  cases htried : entry.2.fInTried with
  | false => exact (decide_eq_true (hslots.mpr htried)).symm
  | true =>
    have hzero : ¬entry.2.nRefCount≠0 := fun hne => by
      rw [hslots.mp hne] at htried
      cases htried
    exact (decide_eq_false hzero).symm

theorem Consistent.nTried_eq : man.nTried=man.triedEntries.length := by
  rw [h.nTried,OrderedMap.values,countP_map,countP_eq_length_filter]
  rfl

end

theorem nodup_ids {entries : List (ℕ×CAddrInfo)} (h : entries.Sublist man.mapInfo.entries) :
    (entries.map Prod.fst).Nodup :=
  pairwise_map.mpr ((pairwise_entries man).sublist h)

theorem Consistent.few_new (h : Consistent ctx man) :
    man.newEntries.length ≤ addrmanNewBucketCount*addrmanBucketSize := by
  have hfew := @length_le_of_slots _ _ _ _ man.vvNew (man.newEntries.map Prod.fst)
    (nodup_ids filter_sublist) (by
      intro nId hm
      obtain ⟨entry,hentry,heq⟩ := mem_map.mp hm
      have hfound := h.mem_newEntries.mp hentry
      have hrefs := h.newRefs entry.1 entry.2 hfound.1 hfound.2
      by_contra hnone
      have hzero : (man.vvNew.slots nId).card=0 := slots_eq_zero_iff.mpr
        (fun bucket pos hslot => hnone ⟨bucket,pos,hslot⟩)
      rw [heq,hzero] at hrefs
      omega)
  rwa [length_map] at hfew

theorem Consistent.few_tried (h : Consistent ctx man) :
    man.triedEntries.length ≤ addrmanTriedBucketCount*addrmanBucketSize := by
  have hfew := @length_le_of_slots _ _ _ _ man.vvTried (man.triedEntries.map Prod.fst)
    (nodup_ids filter_sublist) (by
      intro nId hm
      obtain ⟨entry,hentry,heq⟩ := mem_map.mp hm
      have hfound := mem_triedEntries.mp hentry
      rw [←heq]
      exact ⟨_,_,(h.tried _ _ entry.1).mpr ⟨entry.2,hfound.1,hfound.2,rfl,rfl⟩⟩)
  rwa [length_map] at hfew

end Entries

section Loading

variable {ctx : AddrContext} {src man : CAddrMan} {loaded : List (AddrRecord×Bool)}

/-- Entry that is made of a record, in the tried table or not. -/
def loadedInfo (n : ℕ) (record : AddrRecord×Bool) : CAddrInfo :=
  record.1.over { nullInfo with nRandomPos := n, fInTried := record.2 }

/-- What is loaded of a saved address manager before the slots of the new table. -/
structure Filled (ctx : AddrContext) (src man : CAddrMan) (loaded : List (AddrRecord×Bool)) :
    Prop where
  nKey : man.nKey=src.nKey
  discriminatePorts : man.discriminatePorts=src.discriminatePorts
  nNew : man.nNew=src.nNew
  nTried : man.nTried=src.nTried
  entries : ∀ n : ℕ,man.mapInfo.find n=loaded[n]?.map (loadedInfo n)
  random : man.vRandom=List.range loaded.length
  /-- The map by address has their addresses with their ports. -/
  lookup : ∀ service (n : ℕ),man.mapAddr.find service=some n ↔
    ∃ record,loaded[n]?=some record ∧ record.1.addr.service=service
  /-- The tried ones are at their slots of the tried table. -/
  tried : ∀ bucket pos (n : ℕ),man.vvTried bucket pos=some n ↔
    ∃ record,loaded[n]?=some record ∧ record.2=true ∧
      bucket=ctx.getTriedBucket src.nKey record.1.addr.service ∧
      pos=src.triedPosition ctx record.1.addr.service bucket
  new : ∀ bucket pos,man.vvNew bucket pos=none

theorem Filled.append (h : Filled ctx src man loaded) (record : AddrRecord×Bool)
    (hfresh : ∀ other∈loaded,other.1.addr.service≠record.1.addr.service) (nIdCount : ℕ)
    (vvTried : Table addrmanTriedBucketCount)
    (htried : ∀ bucket pos (n : ℕ),vvTried bucket pos=some n ↔ man.vvTried bucket pos=some n ∨
      n=loaded.length ∧ record.2=true ∧
        bucket=ctx.getTriedBucket src.nKey record.1.addr.service ∧
        pos=src.triedPosition ctx record.1.addr.service bucket) :
    Filled ctx src { man with
      mapInfo := man.mapInfo.set loaded.length (loadedInfo loaded.length record)
      mapAddr := man.mapAddr.set record.1.addr.service loaded.length
      vRandom := man.vRandom++[loaded.length]
      vvTried := vvTried
      nIdCount := nIdCount } (loaded++[record]) where
  nKey := h.nKey
  discriminatePorts := h.discriminatePorts
  nNew := h.nNew
  nTried := h.nTried
  entries := by
    intro n
    rw [find_set]
    split
    next heq => rw [heq,getElem?_concat_length,Option.map_some]
    next hne =>
      rw [h.entries]
      grind
  random := by
    rw [h.random,length_append,length_singleton,range_succ]
  lookup := by
    intro service n
    rw [find_set]
    split
    next heq =>
      grind
    next hne =>
      rw [h.lookup]
      grind
  tried := by
    intro bucket pos n
    rw [htried,h.tried]
    grind
  new := h.new

theorem Filled.loadNews (news : List AddrRecord) : ∀ {man : CAddrMan}
    {loaded : List (AddrRecord×Bool)},Filled ctx src man loaded →
    (loaded++news.map (fun record => (record,false))).Pairwise
      (fun first second => first.1.addr.service≠second.1.addr.service) →
    Filled ctx src ((news.zipIdx loaded.length).foldl (loadNew ctx true) man)
      (loaded++news.map (fun record => (record,false))) := by
  induction news with
  | nil =>
    intro man loaded h _
    rw [map_nil,append_nil]
    exact h
  | cons record news ih =>
    intro man loaded h hpairwise
    rw [zipIdx_cons,foldl_cons,map_cons]
    rw [map_cons] at hpairwise
    have hfresh : ∀ other∈loaded,other.1.addr.service≠record.addr.service :=
      fun other hm => (pairwise_append.mp hpairwise).2.2 other hm (record,false) mem_cons_self
    have hnone : man.mapInfo.find loaded.length=none := by
      rw [h.entries,getElem?_eq_none (Nat.le_refl _),Option.map_none]
    have hstep := h.append (record,false) hfresh man.nIdCount man.vvTried
      (fun bucket pos n => by simp only [Bool.false_eq_true,false_and,and_false,or_false])
    have hload : loadNew ctx true man (record,loaded.length)={ man with
        mapInfo := man.mapInfo.set loaded.length (loadedInfo loaded.length (record,false))
        mapAddr := man.mapAddr.set record.addr.service loaded.length
        vRandom := man.vRandom++[loaded.length] } := by
      rw [loadNew]
      rw [hnone,if_pos rfl,h.random,length_range]
      rfl
    rw [hload]
    have hrest := ih hstep (by rwa [append_assoc,singleton_append])
    rwa [length_append,length_singleton,append_assoc,singleton_append] at hrest

theorem setSlot_eq_some_iff {buckets size : ℕ} {table : SlotTable buckets size ℕ}
    {own : Fin buckets} {ownPos : Fin size} (hempty : table own ownPos=none) (value : ℕ)
    (bucket : Fin buckets) (pos : Fin size) (n : ℕ) :
    table.setSlot own ownPos (some value) bucket pos=some n ↔
      table bucket pos=some n ∨ n=value ∧ bucket=own ∧ pos=ownPos := by
  by_cases hsame : bucket=own ∧ pos=ownPos
  · rw [setSlot,if_pos hsame,hsame.1,hsame.2,hempty]
    simp only [Option.some.injEq,reduceCtorEq,and_self,and_true,false_or]
    exact eq_comm
  · rw [setSlot_of_ne _ _ hsame]
    simp only [hsame,and_false,or_false]

theorem Filled.loadTrieds (trieds : List AddrRecord) : ∀ {man : CAddrMan}
    {loaded : List (AddrRecord×Bool)},Filled ctx src man loaded → man.nIdCount=loaded.length →
    (loaded++trieds.map (fun record => (record,true))).Pairwise
      (fun first second => first.1.addr.service≠second.1.addr.service) →
    (loaded++trieds.map (fun record => (record,true))).Pairwise
      (fun first second => first.2=true → second.2=true →
        ctx.getTriedBucket src.nKey second.1.addr.service=
          ctx.getTriedBucket src.nKey first.1.addr.service →
        src.triedPosition ctx second.1.addr.service
            (ctx.getTriedBucket src.nKey first.1.addr.service)≠
          src.triedPosition ctx first.1.addr.service
            (ctx.getTriedBucket src.nKey first.1.addr.service)) →
    ∃ next,trieds.foldl (loadTried ctx) (man,0)=(next,0) ∧
      Filled ctx src next (loaded++trieds.map (fun record => (record,true))) := by
  induction trieds with
  | nil =>
    grind
  | cons record trieds ih =>
    intro man loaded h hcount hpairwise hslots
    rw [foldl_cons,map_cons]
    rw [map_cons] at hpairwise hslots
    have hfresh : ∀ other∈loaded,other.1.addr.service≠record.addr.service :=
      fun other hm => (pairwise_append.mp hpairwise).2.2 other hm (record,true) mem_cons_self
    generalize hbucket : ctx.getTriedBucket man.nKey record.addr.service=nKBucket
    generalize hpos : man.triedPosition ctx record.addr.service nKBucket=nKBucketPos
    have hposition : ∀ addr bucket,man.triedPosition ctx addr bucket=
        src.triedPosition ctx addr bucket := by
      intro addr bucket
      rw [triedPosition,triedPosition,h.nKey]
    have hempty : man.vvTried nKBucket nKBucketPos=none := by
      refine Option.eq_none_iff_forall_ne_some.mpr (fun n hslot => ?_)
      obtain ⟨other,hother,htried,hbucketOther,hposOther⟩ := (h.tried _ _ n).mp hslot
      have hne := (pairwise_append.mp hslots).2.2 other (mem_of_getElem? hother)
        (record,true) mem_cons_self htried rfl
      rw [←hbucketOther] at hne
      rw [h.nKey] at hbucket
      refine hne hbucket ?_
      rw [←hposOther,←hpos,hposition]
    have hstep := h.append (record,true) hfresh (loaded.length+1)
      (setSlot man.vvTried nKBucket nKBucketPos (some loaded.length)) (by
        intro bucket pos n
        rw [setSlot_eq_some_iff hempty]
        refine or_congr_right (and_congr_right (fun _ => ?_))
        rw [←h.nKey,hbucket,←hposition,eq_self,true_and]
        refine and_congr_right (fun heq => ?_)
        rw [heq,hpos])
    have hload : loadTried ctx (man,0) record=({ man with
        mapInfo := man.mapInfo.set loaded.length (loadedInfo loaded.length (record,true))
        mapAddr := man.mapAddr.set record.addr.service loaded.length
        vRandom := man.vRandom++[loaded.length]
        vvTried := setSlot man.vvTried nKBucket nKBucketPos (some loaded.length)
        nIdCount := loaded.length+1 },0) := by
      simp only [loadTried,AddrRecord.over,hbucket,hpos,hempty,if_true,h.random,length_range,hcount]
      rfl
    rw [hload]
    have hrest := ih hstep (by rw [length_append,length_singleton])
      (by rwa [append_assoc,singleton_append])
      (by rwa [append_assoc,singleton_append])
    rwa [append_assoc,singleton_append] at hrest

end Loading

section Slots

variable {ctx : AddrContext} {src man start : CAddrMan}

/-- All slots of a table, bucket by bucket. -/
def allSlots (buckets size : ℕ) : List (Fin buckets×Fin size) :=
  (List.finRange buckets).flatMap (fun bucket => (List.finRange size).map (Prod.mk bucket))

theorem mem_allSlots {buckets size : ℕ} (slot : Fin buckets×Fin size) :
    slot∈allSlots buckets size := by
  refine mem_flatMap.mpr ⟨slot.1,mem_finRange _,?_⟩
  exact mem_map.mpr ⟨slot.2,mem_finRange _,rfl⟩

theorem nodup_allSlots (buckets size : ℕ) : (allSlots buckets size).Nodup :=
  (nodup_finRange buckets).product (nodup_finRange size)

theorem zipIdx_map_finRange {buckets : ℕ} {α : Type} (value : Fin buckets → α) :
    ((List.finRange buckets).map value).zipIdx=
      (List.finRange buckets).map (fun bucket => (value bucket,bucket.val)) := by
  refine ext_getElem ?_ (fun i hi _ => ?_)
  · rw [length_zipIdx,length_map,length_map]
  · rw [getElem_zipIdx,getElem_map,getElem_map,getElem_finRange,Nat.zero_add]
    rfl

/-- Take the number in a slot of a saved address manager from its file. -/
def loadAt (ctx : AddrContext) (src man : CAddrMan)
    (slot : Fin addrmanNewBucketCount×Fin addrmanBucketSize) : CAddrMan :=
  match src.vvNew slot.1 slot.2 with
  | none => man
  | some nId => loadSlot ctx true slot.1 man (src.unkId nId)

theorem foldl_loadBucket (src man : CAddrMan) :
    ((List.finRange addrmanNewBucketCount).map src.bucketIndices).zipIdx.foldl
        (loadBucket ctx true) man=
      (allSlots addrmanNewBucketCount addrmanBucketSize).foldl (loadAt ctx src) man := by
  rw [zipIdx_map_finRange,foldl_map,allSlots,foldl_flatMap]
  refine foldl_ext _ _ man (fun before bucket _ => ?_)
  rw [foldl_map,loadBucket,bucketIndices,foldl_filterMap]
  refine foldl_ext _ _ before (fun before pos _ => ?_)
  dsimp only [loadAt]
  cases src.vvNew bucket pos <;> rfl

/-- The entries that some slots had are in these again, and all others are empty. -/
structure Slotted (src start man : CAddrMan)
    (done : List (Fin addrmanNewBucketCount×Fin addrmanBucketSize)) : Prop where
  same : man={ start with mapInfo := man.mapInfo, vvNew := man.vvNew }
  /-- Slots that were taken have their entry under its number. -/
  taken : ∀ slot∈done,man.vvNew slot.1 slot.2=(src.vvNew slot.1 slot.2).map src.unkId
  left : ∀ slot∉done,man.vvNew slot.1 slot.2=none
  entries : ∀ n,man.mapInfo.find n=(start.mapInfo.find n).map (fun info =>
    { info with nRefCount := (man.vvNew.slots n).card })

variable {bucket : Fin addrmanNewBucketCount}

theorem Consistent.slotEntry (h : Consistent ctx src)
    {pos : Fin addrmanBucketSize} {nId : ℕ} (hslot : src.vvNew bucket pos=some nId) :
    ∃ info,src.mapInfo.find nId=some info ∧ src.newEntries[src.unkId nId]?=some (nId,info) ∧
      pos=src.newPosition ctx info.addr.service bucket := by
  obtain ⟨info,hfind,huntried,hpos⟩ := h.newSlot bucket pos nId hslot
  exact ⟨info,hfind,newEntries_unkId hfind ((h.refs_ne_zero hfind).mpr huntried),hpos⟩

theorem Consistent.untried_of_slot (h : Consistent ctx src)
    {pos : Fin addrmanBucketSize} {nId : ℕ}
    {info : CAddrInfo} (hslot : src.vvNew bucket pos=some nId)
    (hfind : src.mapInfo.find nId=some info) : info.fInTried=false := by
  obtain ⟨found,hfound,huntried,_⟩ := h.newSlot bucket pos nId hslot
  rw [hfind] at hfound
  rw [Option.some.inj hfound,huntried]

theorem Consistent.unkId_inj (h : Consistent ctx src)
    {bucket other : Fin addrmanNewBucketCount} {pos otherPos : Fin addrmanBucketSize}
    {nId nOther : ℕ} (hslot : src.vvNew bucket pos=some nId)
    (hother : src.vvNew other otherPos=some nOther) (heq : src.unkId nId=src.unkId nOther) :
    nId=nOther := by
  obtain ⟨_,_,hplace,_⟩ := h.slotEntry hslot
  obtain ⟨_,_,hplaceOther,_⟩ := h.slotEntry hother
  rw [heq,hplaceOther] at hplace
  exact (congrArg Prod.fst (Option.some.inj hplace)).symm

/-- Records of the entries in the order of the file. -/
def fileRecords (man : CAddrMan) : List (AddrRecord×Bool) :=
  (fileEntries man).map (fun entry => (recordOf entry.2,entry.2.fInTried))

theorem getElem?_fileEntries_left {n : ℕ} {entry : ℕ×CAddrInfo}
    (h : src.newEntries[n]?=some entry) : (fileEntries src)[n]?=some entry := by
  rw [fileEntries,List.getElem?_append_left (List.getElem?_eq_some_iff.mp h).1]
  exact h

theorem Slotted.loadAt (h : Consistent ctx src) (hfilled : Filled ctx src start
    (fileRecords src)) {done : List (Fin addrmanNewBucketCount×Fin addrmanBucketSize)}
    (hdone : Slotted src start man done) {slot : Fin addrmanNewBucketCount×Fin addrmanBucketSize}
    (hnew : slot∉done) : Slotted src start (loadAt ctx src man slot) (done++[slot]) := by
  rw [AddrMan.loadAt]
  cases hslot : src.vvNew slot.1 slot.2 with
  | none =>
    refine ⟨hdone.same,?_,?_,hdone.entries⟩
    · intro other hm
      cases mem_append.mp hm with
      | inl hold => exact hdone.taken other hold
      | inr hlast =>
        rw [mem_singleton.mp hlast,hslot,Option.map_none]
        exact hdone.left slot hnew
    · exact fun other hnot => hdone.left other (fun hm => hnot (mem_append_left _ hm))
  | some nId =>
    dsimp only
    obtain ⟨info,hfind,hplace,hpos⟩ := h.slotEntry hslot
    have hsame := hdone.same
    have hkey : man.nKey=src.nKey := by rw [hsame]; exact hfilled.nKey
    have hcount : man.nNew=src.nNew := by rw [hsame]; exact hfilled.nNew
    have hlt := (List.getElem?_eq_some_iff.mp hplace).1
    have hrange : 0 ≤ (src.unkId nId : ℤ) ∧ (src.unkId nId : ℤ) < man.nNew := by
      rw [hcount,h.nNew_eq]
      omega
    have hrecord : (fileRecords src)[src.unkId nId]?=some (recordOf info,info.fInTried) := by
      rw [fileRecords,List.getElem?_map,getElem?_fileEntries_left hplace,Option.map_some]
    have hentry := hdone.entries (src.unkId nId)
    rw [hfilled.entries,hrecord,Option.map_some,Option.map_some] at hentry
    have hempty := hdone.left slot hnew
    have hless : (man.vvNew.slots (src.unkId nId)).card < (src.vvNew.slots nId).card := by
      refine slots_card_lt (fun bucket pos hother => ?_) (fun heq => ?_) hslot
      · by_cases hm : (bucket,pos)∈done
        · rw [hdone.taken (bucket,pos) hm] at hother
          obtain ⟨nOther,hslotOther,hnumber⟩ := Option.map_eq_some_iff.mp hother
          rw [hslotOther,h.unkId_inj hslotOther hslot hnumber]
        · rw [hdone.left (bucket,pos) hm] at hother
          cases hother
      · rw [hempty] at heq
        cases heq
    have hmany := (h.newRefs nId info hfind (h.untried_of_slot hslot hfind)).2.2
    rw [h.refs hfind] at hmany
    rw [loadSlot,if_pos hrange,Int.toNat_natCast,hentry]
    dsimp only
    rw [dif_pos ⟨rfl,slot.1.isLt⟩]
    have hposition : man.newPosition ctx (loadedInfo (src.unkId nId)
        (recordOf info,info.fInTried)).addr.service slot.1=slot.2 := by
      rw [newPosition,hkey,hpos]
      rfl
    have hfree : man.vvNew slot.1 slot.2=none ∧
        ((man.vvNew.slots (src.unkId nId)).card : ℤ) < addrmanNewBucketsPerAddress :=
      ⟨hempty,by omega⟩
    simp only [Fin.eta,hposition]
    rw [if_pos hfree,modifyInfo_eq hentry]
    have hslots : ∀ n,((man.vvNew.setSlot slot.1 slot.2 (some (src.unkId nId))).slots n).card=
        (man.vvNew.slots n).card+(if n=src.unkId nId then 1 else 0) := by
      intro n
      by_cases hn : n=src.unkId nId
      · rw [if_pos hn,hn]
        exact slots_setSlot_some hempty (src.unkId nId)
      · rw [if_neg hn,Nat.add_zero]
        exact slots_card_congr (setSlot_other
          (hempty.trans_ne (Option.some_ne_none _).symm) (fun he => hn (Option.some.inj he).symm))
    refine ⟨?_,?_,?_,?_⟩
    · dsimp only
      rw [hsame]
    · intro other hm
      dsimp only
      by_cases hother : other.1=slot.1 ∧ other.2=slot.2
      · rw [hother.1,hother.2,setSlot_self,hslot,Option.map_some]
      · rw [setSlot_of_ne _ _ hother]
        cases mem_append.mp hm with
        | inl hold => exact hdone.taken other hold
        | inr hlast =>
          rw [mem_singleton.mp hlast] at hother
          exact absurd ⟨rfl,rfl⟩ hother
    · intro other hnot
      dsimp only
      have hne : ¬(other.1=slot.1 ∧ other.2=slot.2) := fun heq =>
        hnot (mem_append_right _ (mem_singleton.mpr (Prod.ext heq.1 heq.2)))
      rw [setSlot_of_ne _ _ hne]
      exact hdone.left other (fun hm => hnot (mem_append_left _ hm))
    · intro n
      rw [find_set,hslots]
      split
      next heq =>
        rw [heq,hfilled.entries,hrecord,Option.map_some,Option.map_some,Nat.cast_add]
        rfl
      next hne =>
        rw [Nat.add_zero]
        exact hdone.entries n

theorem Slotted.foldl (h : Consistent ctx src) (hfilled : Filled ctx src start
    (fileRecords src)) (rest : List (Fin addrmanNewBucketCount×Fin addrmanBucketSize)) :
    ∀ {man : CAddrMan} {done : List (Fin addrmanNewBucketCount×Fin addrmanBucketSize)},
    Slotted src start man done → (done++rest).Nodup →
    Slotted src start (rest.foldl (AddrMan.loadAt ctx src) man) (done++rest) := by
  induction rest with
  | nil =>
    intro man done hdone _
    rw [append_nil]
    exact hdone
  | cons slot rest ih =>
    intro man done hdone hnodup
    have hnew : slot∉done := fun hm =>
      (nodup_append.mp hnodup).2.2 slot hm slot mem_cons_self rfl
    have hrest := ih (hdone.loadAt h hfilled hnew) (by rwa [append_assoc,singleton_append])
    rw [foldl_cons]
    rwa [append_assoc,singleton_append] at hrest

end Slots

section Reloading

variable {ctx : AddrContext} {src start next : CAddrMan}

/-- Entry of a saved address manager under its new id. -/
def reloadedInfo (n : ℕ) (info : CAddrInfo) : CAddrInfo :=
  { loadedInfo n (recordOf info,info.fInTried) with nRefCount := info.nRefCount }

/-- What is there after a saved address manager was loaded. -/
structure Reloaded (ctx : AddrContext) (src next : CAddrMan) : Prop where
  nKey : next.nKey=src.nKey
  discriminatePorts : next.discriminatePorts=src.discriminatePorts
  nNew : next.nNew=src.nNew
  nTried : next.nTried=src.nTried
  /-- The entries are numbered in the order of the file. -/
  entries : ∀ n,next.mapInfo.find n=(fileEntries src)[n]?.map (fun entry => reloadedInfo n entry.2)
  random : next.vRandom=List.range (fileEntries src).length
  /-- The map by address has their addresses with their ports. -/
  lookup : ∀ service n,next.mapAddr.find service=some n ↔
    ∃ entry,(fileEntries src)[n]?=some entry ∧ entry.2.addr.service=service
  /-- The tried ones are at their slots of the tried table. -/
  tried : ∀ bucket pos n,next.vvTried bucket pos=some n ↔
    ∃ entry,(fileEntries src)[n]?=some entry ∧ src.vvTried bucket pos=some entry.1
  /-- The new ones are at their slots of the new table. -/
  new : ∀ bucket pos n,next.vvNew bucket pos=some n ↔
    ∃ entry,(fileEntries src)[n]?=some entry ∧ src.vvNew bucket pos=some entry.1

theorem Consistent.getElem?_fileEntries (h : Consistent ctx src) {nId : ℕ} {info : CAddrInfo}
    (hfind : src.mapInfo.find nId=some info) : ∃ n : ℕ,(fileEntries src)[n]?=some (nId,info) :=
  mem_iff_getElem?.mp (h.mem_fileEntries.mpr hfind)

theorem Consistent.find_of_getElem? (h : Consistent ctx src) {n : ℕ} {entry : ℕ×CAddrInfo}
    (hentry : (fileEntries src)[n]?=some entry) : src.mapInfo.find entry.1=some entry.2 :=
  h.mem_fileEntries.mp (mem_of_getElem? hentry)

theorem Consistent.place_unique (h : Consistent ctx src) {n place : ℕ}
    {first second : ℕ×CAddrInfo} (hfirst : (fileEntries src)[n]?=some first)
    (hsecond : (fileEntries src)[place]?=some second) (heq : first.1=second.1) : n=place := by
  have hfindFirst := h.find_of_getElem? hfirst
  rw [heq,h.find_of_getElem? hsecond] at hfindFirst
  have hsame : first=second := Prod.ext heq (Option.some.inj hfindFirst).symm
  rw [hsame] at hfirst
  have hlt := (List.getElem?_eq_some_iff.mp hfirst).1
  exact (List.getElem?_inj hlt h.nodup_fileEntries).mp (hfirst.trans hsecond.symm)

theorem foldlM_pruneEntry (entries : List (ℕ×CAddrInfo)) (man : CAddrMan)
    (h : ∀ entry∈entries,¬(entry.2.fInTried=false ∧ entry.2.nRefCount=0)) :
    entries.foldlM pruneEntry man=some man := by
  induction entries with
  | nil => rfl
  | cons entry entries ih =>
    rw [foldlM_cons,pruneEntry,if_neg (h entry mem_cons_self)]
    exact ih (fun other hm => h other (mem_cons_of_mem _ hm))

theorem bucketsOf_flipBuckets :
    bucketsOf 1 (flipBuckets addrmanNewBucketCount)=addrmanNewBucketCount := by decide

/-- The values of the file of a consistent address manager. -/
def fileOf (man : CAddrMan) : AddrFile where
  nVersion := 1
  nKey := man.nKey
  nNew := man.nNew
  nTried := man.nTried
  nUBuckets := flipBuckets addrmanNewBucketCount
  news := man.newEntries.map (fun entry => recordOf entry.2)
  trieds := man.triedEntries.map (fun entry => recordOf entry.2)
  buckets := (List.finRange addrmanNewBucketCount).map man.bucketIndices

section

variable (h : Consistent ctx src)

include h

theorem Consistent.save : src.save=some (fileOf src) := by
  rw [CAddrMan.save,if_neg (by rw [h.nNew_eq]; omega),if_neg (by rw [h.nTried_eq]; omega)]
  rfl

theorem Consistent.fileRecords_eq :
    fileRecords src=(src.newEntries.map (fun entry => recordOf entry.2)).map (fun r => (r,false))++
      (src.triedEntries.map (fun entry => recordOf entry.2)).map (fun r => (r,true)) := by
  rw [fileRecords,fileEntries,map_append,map_map,map_map]
  refine congrArg₂ _ (map_congr_left (fun entry hm => ?_)) (map_congr_left (fun entry hm => ?_))
  · rw [(h.mem_newEntries.mp hm).2]
    rfl
  · rw [(mem_triedEntries.mp hm).2]
    rfl

theorem Consistent.pairwise_services :
    (fileRecords src).Pairwise (fun first second =>
      first.1.addr.service≠second.1.addr.service) :=
  pairwise_map.mpr (h.nodup_fileEntries.imp_of_mem (fun hfirst hsecond hne =>
    h.service_ne hfirst hsecond hne))

theorem Consistent.pairwise_slots :
    (fileRecords src).Pairwise (fun first second => first.2=true → second.2=true →
      ctx.getTriedBucket src.nKey second.1.addr.service=
        ctx.getTriedBucket src.nKey first.1.addr.service →
      src.triedPosition ctx second.1.addr.service
          (ctx.getTriedBucket src.nKey first.1.addr.service)≠
        src.triedPosition ctx first.1.addr.service
          (ctx.getTriedBucket src.nKey first.1.addr.service)) :=
  pairwise_map.mpr (h.nodup_fileEntries.imp_of_mem (fun hfirst hsecond hne =>
    h.slot_ne hfirst hsecond hne))

end

theorem load_of_steps {man filled loaded last : CAddrMan} {file : AddrFile}
    (hknown : (decide (file.nVersion=1) &&
      decide (bucketsOf file.nVersion file.nUBuckets=addrmanNewBucketCount))=true)
    (hnews : file.news.zipIdx.foldl (loadNew ctx true) { man.clear file.nKey with
      nNew := file.nNew, nTried := file.nTried }=filled)
    (htrieds : file.trieds.foldl (loadTried ctx)
      ({ filled with nIdCount := file.nNew.toNat },0)=(loaded,0))
    (hslots : file.buckets.zipIdx.foldl (loadBucket ctx true) loaded=last) :
    man.load ctx file=last.mapInfo.entries.foldlM pruneEntry last := by
  unfold load
  dsimp only
  rw [hknown,hnews,htrieds]
  rw [Int.sub_zero,hslots]

theorem Consistent.filled (h : Consistent ctx src) (nKeyBefore : ℕ) :
    ∃ man,Filled ctx src man (fileRecords src) ∧
      ∀ last,(allSlots addrmanNewBucketCount addrmanBucketSize).foldl (loadAt ctx src) man=last →
        (empty src.discriminatePorts nKeyBefore).load ctx (fileOf src)=
          last.mapInfo.entries.foldlM pruneEntry last := by
  have hstart : Filled ctx src { (empty src.discriminatePorts nKeyBefore).clear src.nKey with
      nNew := src.nNew, nTried := src.nTried } [] := by
    refine ⟨rfl,rfl,rfl,rfl,fun _ => rfl,rfl,?_,?_,fun _ _ => rfl⟩
    · intro service n
      have hnone : ((empty src.discriminatePorts nKeyBefore).clear src.nKey).mapAddr.find service=
        none := rfl
      simp only [hnone,reduceCtorEq,getElem?_nil,false_and,exists_false]
    · intro bucket pos n
      have hnone : ((empty src.discriminatePorts nKeyBefore).clear src.nKey).vvTried bucket pos=
        none := rfl
      simp only [hnone,reduceCtorEq,getElem?_nil,false_and,exists_false]
  have hservices := h.pairwise_services
  have hslots := h.pairwise_slots
  rw [h.fileRecords_eq] at hservices hslots ⊢
  have hnews := hstart.loadNews (src.newEntries.map (fun entry => recordOf entry.2)) (by
      rw [nil_append]
      exact (pairwise_append.mp hservices).1)
  rw [nil_append,length_nil] at hnews
  generalize hman : ((src.newEntries.map (fun entry => recordOf entry.2)).zipIdx 0).foldl
    (loadNew ctx true) { (empty src.discriminatePorts nKeyBefore).clear src.nKey with
      nNew := src.nNew, nTried := src.nTried }=man at hnews
  have hcounted : Filled ctx src { man with nIdCount := src.nNew.toNat }
      ((src.newEntries.map (fun entry => recordOf entry.2)).map (fun r => (r,false))) :=
    ⟨hnews.nKey,hnews.discriminatePorts,hnews.nNew,hnews.nTried,hnews.entries,hnews.random,
      hnews.lookup,hnews.tried,hnews.new⟩
  obtain ⟨loaded,htrieds,hfilled⟩ := hcounted.loadTrieds
    (src.triedEntries.map (fun entry => recordOf entry.2))
    (by
      rw [length_map,length_map]
      have hcount := h.nNew_eq
      dsimp only
      omega) hservices hslots
  refine ⟨loaded,hfilled,fun last hlast => ?_⟩
  refine load_of_steps ?_ hman htrieds ?_
  · rw [Bool.and_eq_true,decide_eq_true_eq,decide_eq_true_eq]
    exact ⟨rfl,bucketsOf_flipBuckets⟩
  · dsimp only [fileOf]
    rw [foldl_loadBucket,hlast]

theorem Slotted.reloaded (h : Consistent ctx src) (hfilled : Filled ctx src start
    (fileRecords src)) {done : List (Fin addrmanNewBucketCount×Fin addrmanBucketSize)}
    (hall : Slotted src start next done) (hmem : ∀ slot,slot∈done) :
    Reloaded ctx src next := by
  have hnew : ∀ bucket pos,next.vvNew bucket pos=(src.vvNew bucket pos).map src.unkId :=
    fun bucket pos => hall.taken (bucket,pos) (hmem (bucket,pos))
  have hslots : ∀ bucket pos n,next.vvNew bucket pos=some n ↔
      ∃ entry,(fileEntries src)[n]?=some entry ∧ src.vvNew bucket pos=some entry.1 := by
    intro bucket pos n
    rw [hnew,Option.map_eq_some_iff]
    constructor
    · intro ⟨nId,hslot,hnumber⟩
      obtain ⟨info,_,hplace,_⟩ := h.slotEntry hslot
      rw [hnumber] at hplace
      exact ⟨(nId,info),getElem?_fileEntries_left hplace,hslot⟩
    · intro ⟨entry,hentry,hslot⟩
      obtain ⟨info,_,hplace,_⟩ := h.slotEntry hslot
      exact ⟨entry.1,hslot,h.place_unique (getElem?_fileEntries_left hplace) hentry rfl⟩
  have hentries : ∀ n,next.mapInfo.find n=
      (fileEntries src)[n]?.map (fun entry => reloadedInfo n entry.2) := by
    intro n
    rw [hall.entries,hfilled.entries,fileRecords,getElem?_map]
    cases hentry : (fileEntries src)[n]? with
    | none => rfl
    | some entry =>
      have hcard : (next.vvNew.slots n).card=(src.vvNew.slots entry.1).card := by
        refine slots_card_congr (fun bucket pos => ?_)
        grind
      rw [Option.map_some,Option.map_some,Option.map_some,Option.map_some,hcard,
        ←h.refs (h.find_of_getElem? hentry)]
      rfl
  have hsame := hall.same
  have hcount : (fileRecords src).length=(fileEntries src).length := length_map _
  have hrecord : ∀ (n : ℕ) record,(fileRecords src)[n]?=some record ↔
      ∃ entry,(fileEntries src)[n]?=some entry ∧ (recordOf entry.2,entry.2.fInTried)=record := by
    intro n record
    rw [fileRecords,getElem?_map,Option.map_eq_some_iff]
  refine ⟨?_,?_,?_,?_,hentries,?_,?_,?_,hslots⟩
  · rw [hsame]
    exact hfilled.nKey
  · rw [hsame]
    exact hfilled.discriminatePorts
  · rw [hsame]
    exact hfilled.nNew
  · rw [hsame]
    exact hfilled.nTried
  · rw [hsame,←hcount]
    exact hfilled.random
  · intro service n
    rw [hsame]
    rw [hfilled.lookup]
    simp only [hrecord]
    constructor
    · intro ⟨record,⟨entry,hentry,heq⟩,hservice⟩
      rw [←heq] at hservice
      exact ⟨entry,hentry,hservice⟩
    · intro ⟨entry,hentry,hservice⟩
      exact ⟨_,⟨entry,hentry,rfl⟩,hservice⟩
  · intro bucket pos n
    rw [hsame]
    rw [hfilled.tried]
    simp only [hrecord,h.tried]
    constructor
    · intro ⟨record,⟨entry,hentry,heq⟩,htried,hbucket,hpos⟩
      rw [←heq] at htried hbucket hpos
      exact ⟨entry,hentry,entry.2,h.find_of_getElem? hentry,htried,hbucket,hpos⟩
    · intro ⟨entry,hentry,info,hfind,htried,hbucket,hpos⟩
      rw [h.find_of_getElem? hentry] at hfind
      rw [←Option.some.inj hfind] at htried hbucket hpos
      exact ⟨_,⟨entry,hentry,rfl⟩,htried,hbucket,hpos⟩

theorem Reloaded.not_pruned (hnext : Reloaded ctx src next) (h : Consistent ctx src) :
    ∀ entry∈next.mapInfo.entries,¬(entry.2.fInTried=false ∧ entry.2.nRefCount=0) := by
  intro entry hm ⟨huntried,hzero⟩
  have hfind := (next.mapInfo.mem_entries_iff entry.1 entry.2).mp hm
  rw [hnext.entries] at hfind
  obtain ⟨found,hfound,hinfo⟩ := Option.map_eq_some_iff.mp hfind
  have hsrc := h.find_of_getElem? hfound
  rw [←hinfo] at huntried hzero
  exact (h.refs_ne_zero hsrc).mpr huntried hzero

theorem Consistent.load_save (h : Consistent ctx src) (nKeyBefore : ℕ) :
    ∃ next,(empty src.discriminatePorts nKeyBefore).load ctx (fileOf src)=some next ∧
      Reloaded ctx src next := by
  obtain ⟨start,hfilled,hload⟩ := h.filled nKeyBefore
  have hnone : ∀ n,(start.vvNew.slots n).card=0 := fun n =>
    slots_eq_zero_iff.mpr (fun bucket pos => by rw [hfilled.new]; exact nofun)
  have hstart : Slotted src start start [] := by
    refine ⟨rfl,nofun,fun slot _ => hfilled.new slot.1 slot.2,fun n => ?_⟩
    rw [hfilled.entries,hnone,Option.map_map]
    refine congrArg (fun change => Option.map change (fileRecords src)[n]?) (funext (fun _ => rfl))
  have hall := hstart.foldl h hfilled (allSlots addrmanNewBucketCount addrmanBucketSize)
    (by rw [nil_append]; exact nodup_allSlots _ _)
  rw [nil_append] at hall
  have hnext := hall.reloaded h hfilled mem_allSlots
  exact ⟨_,(hload _ rfl).trans (foldlM_pruneEntry _ _ (hnext.not_pruned h)),hnext⟩

end Reloading

section Survival

variable {ctx : AddrContext} {src next : CAddrMan}

/-- What is known of an entry, apart from its id and what is never saved. -/
def answerOf (info : CAddrInfo) : AddrRecord×ℤ×Bool :=
  (recordOf info,info.nRefCount,info.fInTried)

/-- Address in a slot of a table. -/
def addressAt {buckets : ℕ} (man : CAddrMan) (table : Table buckets) (bucket : Fin buckets)
    (pos : Fin addrmanBucketSize) : Option CService :=
  (table bucket pos).bind (fun nId => (man.mapInfo.find nId).map (fun info => info.addr.service))

/-- Nothing is lost between two address managers but ids and what is never saved. -/
structure Survives (ctx : AddrContext) (src next : CAddrMan) : Prop where
  consistent : Consistent ctx next
  nKey : next.nKey=src.nKey
  known : ∀ answer,(∃ nId info,next.mapInfo.find nId=some info ∧ answerOf info=answer) ↔
    ∃ nId info,src.mapInfo.find nId=some info ∧ answerOf info=answer
  /-- The slots of the new table have the same addresses. -/
  newAt : ∀ bucket pos,addressAt next next.vvNew bucket pos=addressAt src src.vvNew bucket pos
  /-- The slots of the tried table have the same addresses. -/
  triedAt : ∀ bucket pos,
    addressAt next next.vvTried bucket pos=addressAt src src.vvTried bucket pos
  find : ∀ service,(next.find service).map (fun found => answerOf found.2)=
    (src.find service).map (fun found => answerOf found.2)

theorem Reloaded.addressAt_eq (hnext : Reloaded ctx src next) (h : Consistent ctx src)
    {buckets : ℕ} {table later : Table buckets}
    (htables : ∀ bucket pos n,later bucket pos=some n ↔
      ∃ entry,(fileEntries src)[n]?=some entry ∧ table bucket pos=some entry.1)
    (hentry : ∀ bucket pos nId,table bucket pos=some nId →
      ∃ info,src.mapInfo.find nId=some info) (bucket : Fin buckets)
    (pos : Fin addrmanBucketSize) :
    addressAt next later bucket pos=addressAt src table bucket pos := by
  rw [addressAt,addressAt]
  cases hslot : table bucket pos with
  | none =>
    have hnone : later bucket pos=none := Option.eq_none_iff_forall_ne_some.mpr (fun n hn => by
      obtain ⟨entry,_,hheld⟩ := (htables bucket pos n).mp hn
      rw [hslot] at hheld
      cases hheld)
    rw [hnone]
    rfl
  | some nId =>
    obtain ⟨info,hfind⟩ := hentry bucket pos nId hslot
    obtain ⟨n,hplace⟩ := h.getElem?_fileEntries hfind
    have hlater := (htables bucket pos n).mpr ⟨(nId,info),hplace,hslot⟩
    rw [hlater,Option.bind_some,Option.bind_some,hnext.entries,hplace,hfind]
    rfl

theorem Reloaded.positioned (hnext : Reloaded ctx src next) :
    Positioned next.vRandom (positions next) where
  index := by
    intro i n
    rw [hnext.random,find_positions,hnext.entries,Option.map_map]
    rcases Nat.lt_or_ge n (fileEntries src).length with hlt | hge
    · rw [getElem?_eq_getElem hlt,Option.map_some,getElem?_eq_some_iff]
      simp only [getElem_range,length_range,comp_apply,reloadedInfo,
        loadedInfo,AddrRecord.over,Option.some.injEq]
      grind
    · grind

theorem Consistent.perm_fileEntries (h : Consistent ctx src) :
    (fileEntries src).Perm src.mapInfo.entries := by
  have hnodup : src.mapInfo.entries.Nodup :=
    (pairwise_entries src).imp (fun hne heq => hne (congrArg Prod.fst heq))
  refine (perm_ext_iff_of_nodup h.nodup_fileEntries hnodup).mpr (fun entry => ?_)
  exact h.mem_fileEntries.trans (src.mapInfo.mem_entries_iff entry.1 entry.2).symm

section

variable (hnext : Reloaded ctx src next) (h : Consistent ctx src)

include hnext h

theorem Reloaded.countP_values
    (test : CAddrInfo → Bool) (htest : ∀ n info,test (reloadedInfo n info)=test info) :
    next.mapInfo.values.countP test=src.mapInfo.values.countP test := by
  have hvalues : next.mapInfo.values=
      (fileEntries src).mapIdx (fun n entry => reloadedInfo n entry.2) :=
    values_of_find (fun n => by rw [hnext.entries,getElem?_mapIdx])
  have htests : next.mapInfo.values.map test=
      (fileEntries src).map (fun entry => test entry.2) := by
    refine ext_getElem? (fun n => ?_)
    rw [hvalues,getElem?_map,getElem?_map,getElem?_mapIdx,Option.map_map]
    exact congrArg (fun change => Option.map change (fileEntries src)[n]?)
      (funext (fun entry => htest n entry.2))
  have hcount : ∀ infos : List CAddrInfo,infos.countP test=(infos.map test).countP id :=
    fun infos => by rw [countP_map,id_comp]
  rw [hcount,htests,hcount,OrderedMap.values,map_map]
  exact (h.perm_fileEntries.map _).countP_eq id

/-- Addresses are found under the key of a lookup if they have no other port than these. -/
theorem Reloaded.consistent (hports : ∀ nId info,src.mapInfo.find nId=some info →
      src.lookupKey info.addr.service=info.addr.service) : Consistent ctx next where
  random := by
    have hperm := hnext.positioned.perm_keys
    have hkeys : (positions next).entries.map Prod.fst=next.mapInfo.entries.map Prod.fst := by
      rw [positions,OrderedMap.mapValues]
      rw [map_map]
      rfl
    rwa [hkeys] at hperm
  position := by
    intro n info hfind
    rw [hnext.positioned.index,find_positions,hfind,Option.map_some]
  lookup := by
    intro service n
    rw [hnext.lookup,hnext.entries]
    constructor
    · intro hheld
      obtain ⟨entry,hentry,hservice⟩ := hheld
      refine ⟨_,by rw [hentry,Option.map_some],?_⟩
      rw [CAddrMan.lookupKey,hnext.discriminatePorts]
      exact (hports _ _ (h.find_of_getElem? hentry)).trans hservice
    · intro hheld
      obtain ⟨info,hfind,hkey⟩ := hheld
      obtain ⟨entry,hentry,hinfo⟩ := Option.map_eq_some_iff.mp hfind
      refine ⟨entry,hentry,?_⟩
      rw [CAddrMan.lookupKey,hnext.discriminatePorts,←hinfo] at hkey
      exact (hports _ _ (h.find_of_getElem? hentry)).symm.trans hkey
  tried := by
    intro bucket pos n
    rw [hnext.tried]
    constructor
    · intro hheld
      obtain ⟨entry,hentry,hslot⟩ := hheld
      obtain ⟨info,hfind,htried,hbucket,hpos⟩ := (h.tried _ _ _).mp hslot
      rw [h.find_of_getElem? hentry] at hfind
      refine ⟨reloadedInfo n entry.2,by rw [hnext.entries,hentry,Option.map_some],?_⟩
      rw [←Option.some.inj hfind] at htried hbucket hpos
      rw [hnext.nKey,triedPosition,hnext.nKey]
      exact ⟨htried,hbucket,hpos⟩
    · intro hheld
      obtain ⟨info,hfind,htried,hbucket,hpos⟩ := hheld
      rw [hnext.entries] at hfind
      obtain ⟨entry,hentry,hinfo⟩ := Option.map_eq_some_iff.mp hfind
      rw [←hinfo,hnext.nKey] at hbucket
      rw [←hinfo,triedPosition,hnext.nKey] at hpos
      rw [←hinfo] at htried
      exact ⟨entry,hentry,(h.tried _ _ _).mpr
        ⟨entry.2,h.find_of_getElem? hentry,htried,hbucket,hpos⟩⟩
  triedRefs := by
    intro n info hfind htried
    rw [hnext.entries] at hfind
    obtain ⟨entry,hentry,hinfo⟩ := Option.map_eq_some_iff.mp hfind
    rw [←hinfo] at htried ⊢
    exact h.triedRefs entry.1 entry.2 (h.find_of_getElem? hentry) htried
  newSlot := by
    intro bucket pos n hslot
    obtain ⟨entry,hentry,hheld⟩ := (hnext.new _ _ _).mp hslot
    obtain ⟨info,hfind,huntried,hpos⟩ := h.newSlot _ _ _ hheld
    rw [h.find_of_getElem? hentry] at hfind
    rw [←Option.some.inj hfind] at huntried hpos
    refine ⟨reloadedInfo n entry.2,by rw [hnext.entries,hentry,Option.map_some],huntried,?_⟩
    rw [newPosition,hnext.nKey]
    exact hpos
  newRefs := by
    intro n info hfind huntried
    rw [hnext.entries] at hfind
    obtain ⟨entry,hentry,hinfo⟩ := Option.map_eq_some_iff.mp hfind
    have hcard : (next.vvNew.slots n).card=(src.vvNew.slots entry.1).card := by
      refine slots_card_congr (fun bucket pos => ?_)
      rw [hnext.new]
      grind
    rw [←hinfo] at huntried ⊢
    rw [hcard]
    exact h.newRefs entry.1 entry.2 (h.find_of_getElem? hentry) huntried
  nNew := by
    rw [hnext.nNew,h.nNew,hnext.countP_values h _ (fun _ _ => rfl)]
  nTried := by
    rw [hnext.nTried,h.nTried,hnext.countP_values h _ (fun _ _ => rfl)]

theorem Reloaded.find (hports : ∀ nId info,src.mapInfo.find nId=some info →
      src.lookupKey info.addr.service=info.addr.service) (service : CService) :
    (next.find service).map (fun found => answerOf found.2)=
      (src.find service).map (fun found => answerOf found.2) := by
  have hkey : next.lookupKey service=src.lookupKey service := by
    rw [CAddrMan.lookupKey,hnext.discriminatePorts]
    rfl
  rw [CAddrMan.find,CAddrMan.find,hkey]
  cases hid : src.mapAddr.find (src.lookupKey service) with
  | none =>
    have hnone : next.mapAddr.find (src.lookupKey service)=none :=
      Option.eq_none_iff_forall_ne_some.mpr (fun n hn => by
        obtain ⟨entry,hentry,hservice⟩ := (hnext.lookup _ n).mp hn
        have hfind := h.find_of_getElem? hentry
        have hheld := (h.lookup _ entry.1).mpr ⟨entry.2,hfind,rfl⟩
        rw [hports _ _ hfind,hservice,hid] at hheld
        cases hheld)
    rw [hnone]
    rfl
  | some nId =>
    obtain ⟨info,hfind,hinfo⟩ := (h.lookup _ nId).mp hid
    obtain ⟨n,hplace⟩ := h.getElem?_fileEntries hfind
    rw [hports _ _ hfind] at hinfo
    have hnew := (hnext.lookup _ n).mpr ⟨(nId,info),hplace,hinfo⟩
    rw [hnew,Option.bind_some,Option.bind_some,hnext.entries,hplace,hfind]
    rfl

theorem Reloaded.survives_iff :
    Survives ctx src next ↔ src.discriminatePorts=true ∨
      ∀ nId info,src.mapInfo.find nId=some info → info.addr.service.port=0 := by
  constructor
  · intro hsurvives
    cases hdiscriminate : src.discriminatePorts with
    | true => exact .inl rfl
    | false =>
      refine .inr (fun nId info hfind => ?_)
      obtain ⟨n,hplace⟩ := h.getElem?_fileEntries hfind
      have hraw := (hnext.lookup info.addr.service n).mpr ⟨(nId,info),hplace,rfl⟩
      obtain ⟨found,_,hkey⟩ := (hsurvives.consistent.lookup _ _).mp hraw
      rw [CAddrMan.lookupKey,hnext.discriminatePorts,hdiscriminate,Bool.not_false,
        if_pos rfl] at hkey
      rw [←hkey]
      rfl
  · intro hcond
    have hports : ∀ nId info,src.mapInfo.find nId=some info →
        src.lookupKey info.addr.service=info.addr.service := by
      intro nId info hfind
      rw [CAddrMan.lookupKey]
      cases hcond with
      | inl hdiscriminate => rw [hdiscriminate,Bool.not_true,if_neg Bool.false_ne_true]
      | inr hzero =>
        rw [setPort,←hzero nId info hfind]
        exact ite_self _
    refine ⟨hnext.consistent h hports,hnext.nKey,fun answer => ?_,?_,?_,hnext.find h hports⟩
    · constructor
      · intro ⟨n,info,hfind,hanswer⟩
        rw [hnext.entries] at hfind
        obtain ⟨entry,hentry,hinfo⟩ := Option.map_eq_some_iff.mp hfind
        rw [←hinfo] at hanswer
        exact ⟨entry.1,entry.2,h.find_of_getElem? hentry,hanswer⟩
      · intro ⟨nId,info,hfind,hanswer⟩
        obtain ⟨n,hplace⟩ := h.getElem?_fileEntries hfind
        exact ⟨n,reloadedInfo n info,by rw [hnext.entries,hplace,Option.map_some],hanswer⟩
    · refine hnext.addressAt_eq h hnext.new (fun bucket pos nId hslot => ?_)
      obtain ⟨info,hfind,_⟩ := h.newSlot bucket pos nId hslot
      exact ⟨info,hfind⟩
    · refine hnext.addressAt_eq h hnext.tried (fun bucket pos nId hslot => ?_)
      obtain ⟨info,hfind,_⟩ := (h.tried bucket pos nId).mp hslot
      exact ⟨info,hfind⟩

end

end Survival

variable {ctx : AddrContext} {src : CAddrMan}

section

variable (h : Consistent ctx src) (hkey : src.nKey < 256^32)
variable (hfits : ∀ nId info,src.mapInfo.find nId=some info → Storable (recordOf info))

include h hkey hfits

theorem Consistent.storableFile :
    StorableFile (fileOf src) where
  nKey := hkey
  nNew := h.nNew_eq.trans (by rw [fileOf,length_map])
  fewNews := by
    rw [fileOf,length_map]
    exact h.few_new
  nTried := h.nTried_eq.trans (by rw [fileOf,length_map])
  fewTrieds := by
    rw [fileOf,length_map]
    exact h.few_tried
  nUBuckets := by
    dsimp only [fileOf]
    decide
  buckets := by
    dsimp only [fileOf]
    rw [bucketsOf_flipBuckets,Int.toNat_natCast,length_map,length_finRange]
  news := by
    intro record hm
    obtain ⟨entry,hentry,hrecord⟩ := mem_map.mp hm
    rw [←hrecord]
    exact hfits entry.1 entry.2 (h.mem_newEntries.mp hentry).1
  trieds := by
    intro record hm
    obtain ⟨entry,hentry,hrecord⟩ := mem_map.mp hm
    rw [←hrecord]
    exact hfits entry.1 entry.2 (mem_triedEntries.mp hentry).1
  indices := by
    intro indices hm
    dsimp only [fileOf] at hm
    rw [mem_map] at hm
    obtain ⟨bucket,_,hindices⟩ := hm
    rw [←hindices,bucketIndices]
    constructor
    · refine (length_filterMap_le _ _).trans_lt ?_
      rw [length_finRange]
      decide
    · intro index hindex
      obtain ⟨pos,_,hslot⟩ := mem_filterMap.mp hindex
      obtain ⟨nId,hheld,hnumber⟩ := Option.map_eq_some_iff.mp hslot
      obtain ⟨_,_,hplace,_⟩ := h.slotEntry hheld
      have hlt := (List.getElem?_eq_some_iff.mp hplace).1
      have hfew : src.newEntries.length ≤ 65536 := h.few_new
      omega

theorem Consistent.reload (clientVersion : ℤ) (nKeyBefore : ℕ) :
    ∃ bytes next,src.serialize clientVersion=some bytes ∧
      (unserialize ctx (empty src.discriminatePorts nKeyBefore)).run bytes=
        some (next,[]) ∧ Reloaded ctx src next := by
  obtain ⟨next,hload,hnext⟩ := h.load_save nKeyBefore
  refine ⟨writeFile clientVersion (fileOf src),next,?_,?_,hnext⟩
  · rw [serialize,h.save,Option.map_some]
  · have hread : Reads (unserialize ctx (empty src.discriminatePorts nKeyBefore))
        (writeFile clientVersion (fileOf src)) next := by
      refine (reads_readFile clientVersion (h.storableFile hkey hfits)).map ?_
      rw [hload]
      exact reads_pure next
    have hrest := hread []
    rwa [append_nil] at hrest

end

/-- A consistent address manager survives its file if and only if ports tell entries apart or no
entry has one. -/
theorem survives_file_iff (ctx : AddrContext) (src : CAddrMan)
    (hcons : Consistent ctx src) (hkey : src.nKey < 256^32)
    (hfits : ∀ nId info,src.mapInfo.find nId=some info → Storable (recordOf info))
    (clientVersion : ℤ) (nKeyBefore : ℕ) :
    ∃ bytes next,src.serialize clientVersion=some bytes ∧
      (unserialize ctx (empty src.discriminatePorts nKeyBefore)).run bytes=some (next,[]) ∧
      (Survives ctx src next ↔ src.discriminatePorts=true ∨
        ∀ nId info,src.mapInfo.find nId=some info → info.addr.service.port=0) := by
  obtain ⟨bytes,next,hwrite,hread,hnext⟩ := hcons.reload hkey hfits clientVersion nKeyBefore
  exact ⟨bytes,next,hwrite,hread,hnext.survives_iff hcons⟩

theorem storable_example {man : CAddrMan} (hentries : man.mapInfo.entries=[(0,exampleInfo)])
    (nId : ℕ) (info : CAddrInfo) (hfind : man.mapInfo.find nId=some info) :
    Storable (recordOf info) := by
  have hm := (man.mapInfo.mem_entries_iff nId info).mpr hfind
  rw [hentries,mem_singleton,Prod.mk.injEq] at hm
  rw [hm.2]
  exact ⟨by decide,by decide,by decide,by decide,by decide⟩

/-- An address manager that tells entries apart by their ports survives its file. -/
theorem survives_file_example : ∃ src bytes next,
    run exampleContext (empty true 5) exampleCalls=some src ∧ src.serialize 120300=some bytes ∧
      (unserialize exampleContext (empty src.discriminatePorts 0)).run bytes=
        some (next,[]) ∧ Survives exampleContext src next := by
  obtain ⟨src,hrun,hcons,hports,hkey,hentries⟩ := run_example true
  obtain ⟨bytes,next,hwrite,hread,hsurvives⟩ := survives_file_iff exampleContext src hcons
    (by rw [hkey]; decide) (storable_example hentries) 120300 0
  exact ⟨src,bytes,next,hrun,hwrite,hread,hsurvives.mpr (.inl hports)⟩

/-- An address with a port is not found after the file was read, when entries are not told apart by
their ports. -/
theorem address_lost_in_file : ∃ src bytes next,
    run exampleContext (empty false 5) exampleCalls=some src ∧ Consistent exampleContext src ∧
      src.serialize 120300=some bytes ∧
      (unserialize exampleContext (empty false 0)).run bytes=some (next,[]) ∧
      (src.find exampleAddress.service).isSome=true ∧ next.find exampleAddress.service=none ∧
      ¬Survives exampleContext src next := by
  obtain ⟨src,hrun,hcons,hports,hkey,hentries⟩ := run_example false
  obtain ⟨bytes,next,hwrite,hread,hnext⟩ := hcons.reload (by rw [hkey]; decide)
    (storable_example hentries) 120300 0
  rw [hports] at hread
  have hknown : src.mapInfo.find 0=some exampleInfo := by
    rw [←mem_entries_iff,hentries]
    exact mem_cons_self
  have hfound : (src.find exampleAddress.service).isSome=true := by
    have hid := (hcons.lookup (src.lookupKey exampleAddress.service) 0).mpr
      ⟨exampleInfo,hknown,rfl⟩
    rw [CAddrMan.find,hid,Option.bind_some,hknown]
    rfl
  have hlost : next.find exampleAddress.service=none := by
    have hnone : next.mapAddr.find (next.lookupKey exampleAddress.service)=none := by
      refine Option.eq_none_iff_forall_ne_some.mpr (fun n hn => ?_)
      obtain ⟨entry,hentry,hservice⟩ := (hnext.lookup _ n).mp hn
      have hm := (src.mapInfo.mem_entries_iff entry.1 entry.2).mpr
        (hcons.find_of_getElem? hentry)
      rw [hentries,mem_singleton,Prod.mk.injEq] at hm
      rw [hm.2,CAddrMan.lookupKey,hnext.discriminatePorts,hports] at hservice
      exact absurd (congrArg CService.port hservice) (by decide)
    rw [CAddrMan.find,hnone,Option.bind_none]
  refine ⟨src,bytes,next,hrun,hcons,hwrite,hread,hfound,hlost,fun hsurvives => ?_⟩
  have hsame := hsurvives.find exampleAddress.service
  rw [hlost,Option.map_none] at hsame
  rw [Option.map_eq_none_iff.mp hsame.symm] at hfound
  cases hfound

end Pyrk.AddrMan
