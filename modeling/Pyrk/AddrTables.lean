import Pyrk.AddrMan
import Mathlib.Algebra.Order.Ring.Int

/-!
# Tables of the address manager

What the tables say of the entries, apart from the random order and the lookup by address.
-/

namespace Pyrk

namespace OrderedMap

variable {κ ν : Type} [LinearOrder κ]

theorem countP_values_erase (map : OrderedMap κ ν) (key : κ) (test : ν → Bool) :
    (map.erase key).values.countP test+(if (map.find key).any test then 1 else 0)=
      map.values.countP test := by
  cases hfind : map.find key with
  | none => rw [erase_of_none hfind,Option.any_none,if_neg Bool.false_ne_true,Nat.add_zero]
  | some value =>
    have hperm := (entries_erase_perm hfind).map Prod.snd
    rw [values,values,hperm.countP_eq,List.map_cons,List.countP_cons,Option.any_some]

theorem countP_values_set (map : OrderedMap κ ν) (key : κ) (value : ν) (test : ν → Bool) :
    (map.set key value).values.countP test+(if (map.find key).any test then 1 else 0)=
      map.values.countP test+(if test value then 1 else 0) := by
  have herase := countP_values_erase (map.set key value) key test
  rw [find_set_self,Option.any_some,erase_of_set] at herase
  have hbefore := countP_values_erase map key test
  omega

end OrderedMap

namespace AddrMan

open NetAddress SlotTable OrderedMap

/-- What the tables need of an entry. -/
structure Core where
  service : CService
  nRefCount : ℤ
  fInTried : Bool

/-- The tables with their entries and the numbers of these. -/
structure Tables where
  entries : OrderedMap ℕ Core
  vvNew : Table addrmanNewBucketCount
  vvTried : Table addrmanTriedBucketCount
  nNew : ℤ
  nTried : ℤ

/-- Number of entries in the tried table. -/
def triedCount (entries : OrderedMap ℕ Core) : ℕ := entries.values.countP (fun e => e.fInTried)

/-- Number of the other entries. -/
def newCount (entries : OrderedMap ℕ Core) : ℕ := entries.values.countP (fun e => !e.fInTried)

/-- Entries and tables agree. Loose entries may be in no table and are left out of a number. -/
structure Held (ctx : AddrContext) (nKey : ℕ) (tables : Tables) (loose : Set ℕ) (out : ℤ) :
    Prop where
  /-- In the new table are untried entries, each at its own slot of a bucket. -/
  newSlot : ∀ bucket pos nId,tables.vvNew bucket pos=some nId → ∃ e,tables.entries.find nId=some e ∧
    e.fInTried=false ∧ pos=ctx.getBucketPosition nKey true bucket e.service
  /-- The slots of an untried entry are counted, and there are not too many. -/
  refs : ∀ nId e,tables.entries.find nId=some e → e.fInTried=false →
    e.nRefCount=(tables.vvNew.slots nId).card ∧ e.nRefCount ≤ addrmanNewBucketsPerAddress
  used : ∀ nId e,tables.entries.find nId=some e → e.fInTried=false → nId∉loose → 0 < e.nRefCount
  /-- A tried entry is at its own slot of the tried table, and nowhere else. -/
  triedSlot : ∀ bucket pos nId,tables.vvTried bucket pos=some nId ↔
    ∃ e,tables.entries.find nId=some e ∧ e.fInTried=true ∧
      bucket=ctx.getTriedBucket nKey e.service ∧
      pos=ctx.getBucketPosition nKey false bucket e.service
  triedRefs : ∀ nId e,tables.entries.find nId=some e → e.fInTried=true → e.nRefCount=0
  countNew : tables.nNew+out=newCount tables.entries
  countTried : tables.nTried=triedCount tables.entries

namespace Held

variable {ctx : AddrContext} {nKey : ℕ} {tables : Tables} {loose : Set ℕ} {out : ℤ}

theorem tighten (h : Held ctx nKey tables loose out) {fewer : Set ℕ}
    (hused : ∀ nId∈loose,nId∉fewer → ∀ e,tables.entries.find nId=some e → e.fInTried=false →
      0 < e.nRefCount) : Held ctx nKey tables fewer out where
  newSlot := h.newSlot
  refs := h.refs
  used := by
    intro nId e hfind htried hnot
    by_cases hloose : nId∈loose
    · exact hused nId hloose hnot e hfind htried
    · exact h.used nId e hfind htried hloose
  triedSlot := h.triedSlot
  triedRefs := h.triedRefs
  countNew := h.countNew
  countTried := h.countTried

variable {nId : ℕ}

theorem notNew (h : Held ctx nKey tables loose out)
    (hnone : ∀ e,tables.entries.find nId=some e → e.fInTried=true)
    (bucket : Fin addrmanNewBucketCount) (pos : Fin addrmanBucketSize) :
    tables.vvNew bucket pos≠some nId := by
  intro hslot
  obtain ⟨e,hfind,htried,_⟩ := h.newSlot bucket pos nId hslot
  rw [hnone e hfind] at htried
  cases htried

/-- Only one entry changes, and what the tables say of it holds afterwards. -/
theorem change (h : Held ctx nKey tables loose out) {next : Tables} {others : Set ℕ} {left : ℤ}
    (hentries : ∀ other,other≠nId → next.entries.find other=tables.entries.find other)
    (hnew : ∀ other,other≠nId → ∀ bucket pos,next.vvNew bucket pos=some other ↔
      tables.vvNew bucket pos=some other)
    (htried : ∀ other,other≠nId → ∀ bucket pos,next.vvTried bucket pos=some other ↔
      tables.vvTried bucket pos=some other)
    (hothers : ∀ other,other≠nId → other∉others → other∉loose)
    (hnewSlot : ∀ bucket pos,next.vvNew bucket pos=some nId → ∃ e,next.entries.find nId=some e ∧
      e.fInTried=false ∧ pos=ctx.getBucketPosition nKey true bucket e.service)
    (hrefs : ∀ e,next.entries.find nId=some e → e.fInTried=false →
      e.nRefCount=(next.vvNew.slots nId).card ∧ e.nRefCount ≤ addrmanNewBucketsPerAddress ∧
        (nId∉others → 0 < e.nRefCount))
    (htriedSlot : ∀ bucket pos,next.vvTried bucket pos=some nId ↔
      ∃ e,next.entries.find nId=some e ∧ e.fInTried=true ∧
        bucket=ctx.getTriedBucket nKey e.service ∧
        pos=ctx.getBucketPosition nKey false bucket e.service)
    (htriedRefs : ∀ e,next.entries.find nId=some e → e.fInTried=true → e.nRefCount=0)
    (hcountNew : next.nNew+left=newCount next.entries)
    (hcountTried : next.nTried=triedCount next.entries) :
    Held ctx nKey next others left where
  newSlot := fun bucket pos other hslot => by
    by_cases hne : other=nId
    · exact hne ▸ hnewSlot bucket pos (hne ▸ hslot)
    · rw [hentries other hne]
      exact h.newSlot bucket pos other ((hnew other hne bucket pos).mp hslot)
  refs := fun other e hfind huntried => by
    by_cases hne : other=nId
    · subst hne
      exact ⟨(hrefs e hfind huntried).1,(hrefs e hfind huntried).2.1⟩
    · rw [hentries other hne] at hfind
      rw [slots_card_congr (hnew other hne)]
      exact h.refs other e hfind huntried
  used := fun other e hfind huntried hnot => by
    by_cases hne : other=nId
    · subst hne
      exact (hrefs e hfind huntried).2.2 hnot
    · rw [hentries other hne] at hfind
      exact h.used other e hfind huntried (hothers other hne hnot)
  triedSlot := fun bucket pos other => by
    by_cases hne : other=nId
    · exact hne ▸ htriedSlot bucket pos
    · rw [htried other hne,hentries other hne]
      exact h.triedSlot bucket pos other
  triedRefs := fun other e hfind hin => by
    by_cases hne : other=nId
    · exact htriedRefs e (hne ▸ hfind) hin
    · exact h.triedRefs other e (hentries other hne ▸ hfind) hin
  countNew := hcountNew
  countTried := hcountTried

variable {e : Core}

section

variable (h : Held ctx nKey tables loose out)

include h

theorem notTried (hnone : ∀ e,tables.entries.find nId=some e → e.fInTried=false)
    (bucket : Fin addrmanTriedBucketCount) (pos : Fin addrmanBucketSize) :
    tables.vvTried bucket pos≠some nId := by
  intro hslot
  obtain ⟨e,hfind,htried,_⟩ := (h.triedSlot bucket pos nId).mp hslot
  rw [hnone e hfind] at htried
  cases htried

theorem create (service : CService)
    (hnew : tables.entries.find nId=none) :
    Held ctx nKey { tables with
      entries := tables.entries.set nId ⟨service,0,false⟩
      nNew := tables.nNew+1 } (insert nId loose) out := by
  have hnone := h.notNew (fun e he => by rw [hnew] at he; cases he)
  refine h.change (fun other hne => find_set_of_ne _ _ hne) (fun _ _ _ _ => Iff.rfl)
    (fun _ _ _ _ => Iff.rfl) (fun other _ hnot hin => hnot (.inr hin))
    (fun bucket pos hslot => absurd hslot (hnone bucket pos)) ?_ ?_ ?_ ?_ ?_
  · intro e he _
    rw [find_set_self] at he
    cases he
    rw [slots_eq_zero_iff.mpr hnone]
    exact ⟨rfl,Int.natCast_nonneg _,fun hnot => absurd (.inl rfl) hnot⟩
  · intro bucket pos
    rw [find_set_self]
    refine iff_of_false (h.notTried (fun e he => by rw [hnew] at he; cases he) bucket pos) ?_
    rintro ⟨e,he,htried,-⟩
    cases he
    cases htried
  · intro e he _
    rw [find_set_self] at he
    cases he
    rfl
  · have hcount := countP_values_set tables.entries nId ⟨service,0,false⟩ (fun e => !e.fInTried)
    have hbefore := h.countNew
    dsimp only [newCount] at hbefore ⊢
    simp only [hnew,Option.any_none,Bool.false_eq_true,if_false,Bool.not_false,if_true] at hcount
    omega
  · have hcount := countP_values_set tables.entries nId ⟨service,0,false⟩ (fun e => e.fInTried)
    have hbefore := h.countTried
    dsimp only [triedCount] at hbefore ⊢
    simp only [hnew,Option.any_none,Bool.false_eq_true,if_false] at hcount
    omega

section

variable (hentry : tables.entries.find nId=some e)

include hentry

theorem drop (huntried : e.fInTried=false)
    (hrefs : e.nRefCount=0) :
    Held ctx nKey { tables with
      entries := tables.entries.erase nId
      nNew := tables.nNew-1 } (loose \ {nId}) out := by
  have hcard := (h.refs nId e hentry huntried).1
  have hzero : (tables.vvNew.slots nId).card=0 := by omega
  have hgone : (tables.entries.erase nId).find nId=none := find_erase_self _ _
  refine h.change (fun other hne => find_erase_of_ne _ hne) (fun _ _ _ _ => Iff.rfl)
    (fun _ _ _ _ => Iff.rfl) (fun other hne hnot hin => hnot ⟨hin,hne⟩)
    (fun bucket pos hslot => ?_) ?_ ?_ ?_ ?_ ?_
  · exact absurd hslot (slots_eq_zero_iff.mp hzero bucket pos)
  · exact fun found he => by rw [hgone] at he; cases he
  · intro bucket pos
    refine iff_of_false (h.notTried (fun found he => ?_) bucket pos) ?_
    · rw [hentry] at he
      cases he
      exact huntried
    · exact fun hheld => by rw [hgone] at hheld; obtain ⟨found,he,-⟩ := hheld; cases he
  · exact fun found he => by rw [hgone] at he; cases he
  · have hcount := countP_values_erase tables.entries nId (fun e => !e.fInTried)
    have hbefore := h.countNew
    dsimp only [newCount] at hbefore ⊢
    simp only [hentry,Option.any_some,huntried,Bool.not_false,if_true] at hcount
    omega
  · have hcount := countP_values_erase tables.entries nId (fun e => e.fInTried)
    have hbefore := h.countTried
    dsimp only [triedCount] at hbefore ⊢
    simp only [hentry,Option.any_some,huntried,Bool.false_eq_true,if_false] at hcount
    omega

/-- An entry is changed that stays in the tables. -/
theorem renew
    {core : Core} {vvNew : Table addrmanNewBucketCount} {vvTried : Table addrmanTriedBucketCount}
    {nTried left : ℤ} {others : Set ℕ}
    (hnew : ∀ other,other≠nId → ∀ bucket pos,vvNew bucket pos=some other ↔
      tables.vvNew bucket pos=some other)
    (htried : ∀ other,other≠nId → ∀ bucket pos,vvTried bucket pos=some other ↔
      tables.vvTried bucket pos=some other)
    (hothers : ∀ other,other≠nId → other∉others → other∉loose)
    (hnewSlot : ∀ bucket pos,vvNew bucket pos=some nId →
      core.fInTried=false ∧ pos=ctx.getBucketPosition nKey true bucket core.service)
    (hrefs : core.fInTried=false → core.nRefCount=(vvNew.slots nId).card ∧
      core.nRefCount ≤ addrmanNewBucketsPerAddress ∧ (nId∉others → 0 < core.nRefCount))
    (htriedSlot : ∀ bucket pos,vvTried bucket pos=some nId ↔ core.fInTried=true ∧
      bucket=ctx.getTriedBucket nKey core.service ∧
      pos=ctx.getBucketPosition nKey false bucket core.service)
    (htriedRefs : core.fInTried=true → core.nRefCount=0)
    (hleft : left+(if e.fInTried then 0 else 1)=out+if core.fInTried then 0 else 1)
    (hnTried : nTried+(if e.fInTried then 1 else 0)=tables.nTried+if core.fInTried then 1 else 0) :
    Held ctx nKey { tables with
      entries := tables.entries.set nId core
      vvNew := vvNew
      vvTried := vvTried
      nTried := nTried } others left := by
  refine h.change (fun other hne => find_set_of_ne _ _ hne) hnew htried hothers
    (fun bucket pos hslot => ⟨core,find_set_self _ _ _,hnewSlot bucket pos hslot⟩) ?_ ?_ ?_ ?_ ?_
  · intro found he
    rw [find_set_self] at he
    cases he
    exact hrefs
  · intro bucket pos
    rw [htriedSlot,find_set_self]
    simp only [Option.some.injEq,exists_eq_left']
  · intro found he
    rw [find_set_self] at he
    cases he
    exact htriedRefs
  · have hcount := countP_values_set tables.entries nId core (fun e => !e.fInTried)
    have hbefore := h.countNew
    dsimp only [newCount] at hbefore ⊢
    rw [hentry,Option.any_some] at hcount
    grind
  · have hcount := countP_values_set tables.entries nId core (fun e => e.fInTried)
    have hbefore := h.countTried
    dsimp only [triedCount] at hbefore ⊢
    rw [hentry,Option.any_some] at hcount
    grind

theorem reslot (huntried : e.fInTried=false)
    {vvNew : Table addrmanNewBucketCount} {nRefCount : ℤ} {others : Set ℕ}
    (hnew : ∀ other,other≠nId → ∀ bucket pos,vvNew bucket pos=some other ↔
      tables.vvNew bucket pos=some other)
    (hown : ∀ bucket pos,vvNew bucket pos=some nId →
      pos=ctx.getBucketPosition nKey true bucket e.service)
    (hself : nRefCount=(vvNew.slots nId).card) (hmany : nRefCount ≤ addrmanNewBucketsPerAddress)
    (hloose : nId∉others → 0 < nRefCount)
    (hothers : ∀ other,other≠nId → other∉others → other∉loose) :
    Held ctx nKey { tables with
      entries := tables.entries.set nId { e with nRefCount := nRefCount }
      vvNew := vvNew } others out := by
  have htried : ¬e.fInTried=true := Bool.eq_false_iff.mp huntried
  refine h.renew hentry hnew (fun _ _ _ _ => Iff.rfl) hothers
    (fun bucket pos hslot => ⟨huntried,hown bucket pos hslot⟩) (fun _ => ⟨hself,hmany,hloose⟩)
    (fun bucket pos => iff_of_false (h.notTried (fun found he => ?_) bucket pos)
      (fun hboth => htried hboth.1)) (fun hin => absurd hin htried) rfl rfl
  rw [hentry] at he
  rwa [←Option.some.inj he]

end

theorem leaveSlot {bucket : Fin addrmanNewBucketCount} {pos : Fin addrmanBucketSize}
    (hslot : tables.vvNew bucket pos=some nId) (hentry : tables.entries.find nId=some e) :
    Held ctx nKey { tables with
      entries := tables.entries.set nId { e with nRefCount := e.nRefCount-1 }
      vvNew := tables.vvNew.setSlot bucket pos none } (insert nId loose) out := by
  have hplace : ∀ {bucket pos},tables.vvNew bucket pos=some nId → e.fInTried=false ∧
      pos=ctx.getBucketPosition nKey true bucket e.service := by
    intro bucket pos hslot
    obtain ⟨found,hfind,hfacts⟩ := h.newSlot bucket pos nId hslot
    rw [hentry] at hfind
    cases hfind
    exact hfacts
  have huntried := (hplace hslot).1
  have hrefs := h.refs nId e hentry huntried
  have hcard := slots_setSlot_none hslot
  refine h.reslot hentry huntried (fun other hne => setSlot_other (by grind) nofun) ?_ (by omega)
    (by omega) (fun hnot => absurd (.inl rfl) hnot) (fun other _ hnot hin => hnot (.inr hin))
  intro other otherPos hvalue
  rw [setSlot] at hvalue
  split_ifs at hvalue
  exact (hplace hvalue).2

theorem takeSlot {nId : ℕ} {e : Core}
    {bucket : Fin addrmanNewBucketCount} {pos : Fin addrmanBucketSize}
    (hslot : tables.vvNew bucket pos=none) (hentry : tables.entries.find nId=some e)
    (huntried : e.fInTried=false) (hroom : e.nRefCount < addrmanNewBucketsPerAddress)
    (hpos : pos=ctx.getBucketPosition nKey true bucket e.service) :
    Held ctx nKey { tables with
      entries := tables.entries.set nId { e with nRefCount := e.nRefCount+1 }
      vvNew := tables.vvNew.setSlot bucket pos (some nId) } (loose \ {nId}) out := by
  have hrefs := h.refs nId e hentry huntried
  have hcard := slots_setSlot_some hslot nId
  refine h.reslot hentry huntried (fun other hne => setSlot_other (by grind) (by grind))
    ?_ (by omega)
    (by omega) (fun _ => by omega) (fun other hne hnot hin => hnot ⟨hin,hne⟩)
  intro other otherPos hvalue
  by_cases hsame : other=bucket ∧ otherPos=pos
  · rw [hsame.1,hsame.2,hpos]
  · rw [setSlot_of_ne _ _ hsame] at hvalue
    obtain ⟨found,hfind,-,hplace⟩ := h.newSlot other otherPos nId hvalue
    rw [hentry] at hfind
    rw [Option.some.inj hfind,hplace]

theorem leaveTried {bucket : Fin addrmanTriedBucketCount} {pos : Fin addrmanBucketSize}
    (hslot : tables.vvTried bucket pos=some nId) (hentry : tables.entries.find nId=some e) :
    Held ctx nKey { tables with
      entries := tables.entries.set nId { e with fInTried := false }
      vvTried := tables.vvTried.setSlot bucket pos none
      nTried := tables.nTried-1 } (insert nId loose) (out+1) := by
  obtain ⟨found,hfind,htried,hbucket,hpos⟩ := (h.triedSlot bucket pos nId).mp hslot
  rw [hentry] at hfind
  cases hfind
  have hnot := h.notNew (fun found hfound => by
    rw [hentry] at hfound
    rw [←Option.some.inj hfound,htried])
  refine h.renew hentry (fun _ _ _ _ => Iff.rfl) (fun other hne => setSlot_other (by grind) nofun)
    (fun other _ hnot hin => hnot (.inr hin))
    (fun bucket pos hslot => absurd hslot (hnot bucket pos))
    (fun _ => ?_) ?_ nofun ?_ ?_
  · rw [h.triedRefs nId e hentry htried,slots_eq_zero_iff.mpr hnot]
    exact ⟨rfl,Int.natCast_nonneg _,fun hnot => absurd (.inl rfl) hnot⟩
  · -- the slot is empty, and the entry has no other
    intro other otherPos
    refine iff_of_false (fun hvalue => ?_) (fun hboth => nomatch hboth.1)
    rw [setSlot] at hvalue
    split_ifs at hvalue with hsame
    obtain ⟨found,hfound,-,hplace⟩ := (h.triedSlot other otherPos nId).mp hvalue
    rw [hentry] at hfound
    cases hfound
    rw [hbucket,hpos] at hsame
    grind
  · rw [htried,if_pos rfl,if_neg Bool.false_ne_true]
    omega
  · rw [htried,if_pos rfl,if_neg Bool.false_ne_true]
    omega

theorem takeTried {nId : ℕ} {e : Core}
    {bucket : Fin addrmanTriedBucketCount} {pos : Fin addrmanBucketSize}
    (hslot : tables.vvTried bucket pos=none) (hentry : tables.entries.find nId=some e)
    (huntried : e.fInTried=false) (hrefs : e.nRefCount=0)
    (hbucket : bucket=ctx.getTriedBucket nKey e.service)
    (hpos : pos=ctx.getBucketPosition nKey false bucket e.service) :
    Held ctx nKey { tables with
      entries := tables.entries.set nId { e with fInTried := true }
      vvTried := tables.vvTried.setSlot bucket pos (some nId)
      nTried := tables.nTried+1 } (loose \ {nId}) (out-1) := by
  have hcard := (h.refs nId e hentry huntried).1
  have hnot := (@slots_eq_zero_iff _ _ _ _ tables.vvNew nId).mp (by omega)
  have hlost := h.notTried (fun found hfound => by
    rw [hentry] at hfound
    rw [←Option.some.inj hfound,huntried])
  refine h.renew hentry (fun _ _ _ _ => Iff.rfl)
    (fun other hne => setSlot_other (by grind) (by grind))
    (fun other hne hnot hin => hnot ⟨hin,hne⟩)
    (fun bucket pos hslot => absurd hslot (hnot bucket pos)) nofun ?_ (fun _ => hrefs) ?_ ?_
  · intro other otherPos
    by_cases hsame : other=bucket ∧ otherPos=pos
    · rw [setSlot,if_pos hsame,hsame.1,hsame.2]
      exact iff_of_true rfl ⟨rfl,hbucket,hpos⟩
    · rw [setSlot_of_ne _ _ hsame]
      refine iff_of_false (hlost other otherPos) (fun hheld => hsame ?_)
      grind
  · rw [huntried,if_pos rfl,if_neg Bool.false_ne_true]
    omega
  · rw [huntried,if_pos rfl,if_neg Bool.false_ne_true]
    omega

theorem recount (nNew : ℤ) :
    Held ctx nKey { tables with nNew := nNew } loose (out+tables.nNew-nNew) where
  newSlot := h.newSlot
  refs := h.refs
  used := h.used
  triedSlot := h.triedSlot
  triedRefs := h.triedRefs
  countNew := by
    have hbefore := h.countNew
    dsimp only
    omega
  countTried := h.countTried

end

end Held

end AddrMan

end Pyrk
