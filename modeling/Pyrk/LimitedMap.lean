import Pyrk.OrderedMap

/-!
# A map that keeps entries with high values

The entries are listed a second time by value, and a full map drops the one with the lowest value
before the new one is listed.
-/

namespace Pyrk

open OrderedMap List

/-- Map of limited size. An iterator of `map` is given by its key. -/
structure LimitedMap (κ ν : Type) [LinearOrder κ] where
  map : OrderedMap κ ν := .empty
  rmap : List (ν×κ) := []
  nMaxSize : ℕ

namespace LimitedMap

variable {κ ν : Type} [LinearOrder κ] [LinearOrder ν]

/-- Insert into the multimap, behind the entries with an equal value. -/
def insertMulti (entry : ν×κ) (rmap : List (ν×κ)) : List (ν×κ) :=
  rmap.orderedInsert (fun first second => first.1 < second.1) entry

section Operations

variable (limited : LimitedMap κ ν)

/-- Drop the entry with the lowest value, which an empty multimap has not. -/
def dropLowest : Option (LimitedMap κ ν) :=
  match limited.rmap with
  | [] => none
  | entry::rmap => some { limited with map := limited.map.erase entry.2, rmap := rmap }

/-- Add an entry under a new key. -/
def insert (x : κ×ν) : Option (LimitedMap κ ν) :=
  match limited.map.find x.1 with
  | some _ => some limited
  | none =>
    let added := { limited with map := limited.map.set x.1 x.2 }
    (if limited.nMaxSize<added.map.size then added.dropLowest else some added).map
      (fun limited => { limited with rmap := insertMulti (x.2,x.1) limited.rmap })

/-- Drop the entry of a key. It is an error if the multimap lacks the entry. -/
def erase (k : κ) : Option (LimitedMap κ ν) :=
  match limited.map.find k with
  | none => some limited
  | some value =>
    if (value,k)∈limited.rmap then
      some { limited with map := limited.map.erase k, rmap := limited.rmap.erase (value,k) }
    else none

/-- Change the value of a key. -/
def update (k : κ) (v : ν) : Option (LimitedMap κ ν) :=
  match limited.map.find k with
  | none => some limited
  | some value =>
    if (value,k)∈limited.rmap then
      some { limited with
        map := limited.map.set k v
        rmap := insertMulti (v,k) (limited.rmap.erase (value,k)) }
    else none

/-- Drop entries while there are more than a number. Every round drops one. -/
def shrink (s : ℕ) : ℕ → LimitedMap κ ν → Option (LimitedMap κ ν)
  | 0,limited => some limited
  | rounds+1,limited =>
    if s<limited.map.size then limited.dropLowest.bind (shrink s rounds) else some limited

/-- Change the limit, which may not be zero. -/
def maxSize (s : ℕ) : Option (LimitedMap κ ν) :=
  if s=0 then none
  else (shrink s limited.map.size limited).map (fun limited => { limited with nMaxSize := s })

end Operations

/-- Calls that change a map. -/
inductive Call (κ ν : Type) where
  | insert (x : κ×ν)
  | erase (k : κ)
  | update (k : κ) (v : ν)
  | maxSize (s : ℕ) (positive : 0 < s)

def perform (limited : LimitedMap κ ν) : Call κ ν → Option (LimitedMap κ ν)
  | .insert x => limited.insert x
  | .erase k => limited.erase k
  | .update k v => limited.update k v
  | .maxSize s _ => limited.maxSize s

/-- The multimap has the entries of the map in the order of their values. -/
structure Shadows (map : OrderedMap κ ν) (rmap : List (ν×κ)) : Prop where
  entries : rmap.Perm (map.entries.map Prod.swap)
  sorted : rmap.Pairwise (fun first second => first.1 ≤ second.1)

/-- The multimap shadows the map, which is within its limit. -/
structure Limited (limited : LimitedMap κ ν) : Prop extends
    Shadows limited.map limited.rmap where
  size : limited.map.size≤limited.nMaxSize
  positive : 0<limited.nMaxSize

/-- The map keeps entries with the highest values of its own and a new one. -/
def KeepsHighest (limited : LimitedMap κ ν) (x : κ×ν) (after : LimitedMap κ ν) : Prop :=
  after.map.size=limited.nMaxSize ∧ ∀ kept∈after.map.entries, kept∈x::limited.map.entries ∧
    ∀ dropped∈x::limited.map.entries, dropped∉after.map.entries → dropped.2≤kept.2

variable {map : OrderedMap κ ν} {rmap : List (ν×κ)} {key : κ} {value : ν}
  {limited : LimitedMap κ ν}

namespace Shadows

theorem size_eq (h : Shadows map rmap) : map.size=rmap.length :=
  (h.entries.length_eq.trans (length_map _)).symm

theorem mem_iff (h : Shadows map rmap) : (value,key)∈rmap ↔ map.find key=some value := by
  rw [h.entries.mem_iff,← mem_entries_iff,mem_map]
  refine ⟨fun ⟨entry,hm,heq⟩ => ?_,fun hm => ⟨_,hm,rfl⟩⟩
  rwa [← (Prod.mk.inj heq).1,← (Prod.mk.inj heq).2]

theorem insert (h : Shadows map rmap) (hnew : map.find key=none) (value : ν) :
    Shadows (map.set key value) (insertMulti (value,key) rmap) := by
  refine ⟨(perm_orderedInsert _ _ _).trans ((h.entries.cons _).trans
    ((entries_set_perm value hnew).map Prod.swap).symm),?_⟩
  have hsorted := h.sorted
  clear h
  unfold insertMulti
  induction rmap with
  | nil => exact pairwise_singleton _ _
  | cons head rest ih => grind [pairwise_cons,mem_orderedInsert]

theorem erase (h : Shadows map rmap) (hfind : map.find key=some value) :
    Shadows (map.erase key) (rmap.erase (value,key)) := by
  refine ⟨(h.entries.erase _).trans ?_,h.sorted.sublist erase_sublist⟩
  have hperm := ((entries_erase_perm hfind).map Prod.swap).erase (value,key)
  rwa [map_cons,Prod.swap_prod_mk,erase_cons_head] at hperm

theorem lowest (h : Shadows map ((value,key)::rmap)) : map.find key=some value ∧
    Shadows (map.erase key) rmap ∧ ∀ entry∈map.entries, value≤entry.2 := by
  have hfind := h.mem_iff.mp mem_cons_self
  have herase := h.erase hfind
  rw [erase_cons_head] at herase
  refine ⟨hfind,herase,fun entry hm => ?_⟩
  have hlisted := h.entries.mem_iff.mpr (mem_map_of_mem hm)
  rcases mem_cons.mp hlisted with heq | hrest
  · exact (Prod.mk.inj heq).1.ge
  · exact (pairwise_cons.mp h.sorted).1 _ hrest

end Shadows

/-- As many rounds as there are entries too many drop the lowest. -/
theorem exists_shrink {s : ℕ} (rounds : ℕ) {limited : LimitedMap κ ν}
    (h : Shadows limited.map limited.rmap) (hrounds : limited.map.size ≤ s+rounds) :
    ∃ after, shrink s rounds limited=some after ∧ Shadows after.map after.rmap ∧
      after.map.size=min limited.map.size s ∧ ∀ kept∈after.map.entries,
        kept∈limited.map.entries ∧ ∀ dropped∈limited.map.entries,
          dropped∉after.map.entries → dropped.2≤kept.2 := by
  induction rounds generalizing limited with
  | zero => exact ⟨limited,rfl,h,(min_eq_left hrounds).symm,by grind⟩
  | succ rounds ih =>
    unfold shrink
    split_ifs with hmany
    · obtain ⟨map,_ | ⟨entry,rmap⟩,nMaxSize⟩ := limited
      · exact absurd (lt_of_lt_of_eq hmany h.size_eq) (Nat.not_lt_zero s)
      · obtain ⟨hfind,hrest,hlow⟩ := h.lowest
        have hsize := size_erase hfind
        have hperm := fun item => @Perm.mem_iff _ item _ _ (entries_erase_perm hfind)
        dsimp only at hrounds hsize hmany hlow hperm
        obtain ⟨after,hafter,hshadows,hleft,hkept⟩ :=
          @ih ⟨map.erase entry.2,rmap,nMaxSize⟩ hrest (show (map.erase entry.2).size≤_ by omega)
        refine ⟨after,hafter,hshadows,by dsimp only at *; omega,?_⟩
        grind
    · exact ⟨limited,rfl,h,(min_eq_left (Nat.le_of_not_lt hmany)).symm,by grind⟩

theorem insert_full (h : limited.Limited) {x : κ×ν} (hnew : limited.map.find x.1=none)
    (hfull : limited.map.size=limited.nMaxSize) : ∃ dropped rest after,
      limited.insert x=some after ∧ after.nMaxSize=limited.nMaxSize ∧
      Shadows after.map after.rmap ∧ limited.map.entries.Perm (dropped::rest) ∧
      after.map.entries.Perm (x::rest) ∧ dropped∉after.map.entries ∧
      ∀ entry∈limited.map.entries, dropped.2≤entry.2 := by
  obtain ⟨map,_ | ⟨⟨value,key⟩,rmap⟩,nMaxSize⟩ := limited
  · exact absurd h.positive (by rw [← hfull,h.size_eq]; exact lt_irrefl 0)
  · obtain ⟨hfind,hrest,hlow⟩ := h.lowest
    have hne : key≠x.1 := by
      rintro rfl
      rw [hfind] at hnew
      cases hnew
    have hmap : (map.set x.1 x.2).erase key=(map.erase key).set x.1 x.2 := by
      refine ext_find (fun other => ?_)
      rw [find_erase,find_set,find_set,find_erase]
      grind
    have hfree : (map.erase key).find x.1=none := by
      rw [find_erase_of_ne _ hne.symm,hnew]
    refine ⟨(key,value),_,⟨(map.erase key).set x.1 x.2,insertMulti (x.2,x.1) rmap,nMaxSize⟩,?_,rfl,
      hrest.insert hfree x.2,entries_erase_perm hfind,entries_set_perm x.2 hfree,?_,hlow⟩
    · have hset := (entries_set_perm x.2 hnew).length_eq
      simp only [LimitedMap.insert,hnew,← hmap]
      exact congrArg (Option.map _) (if_pos (hset.ge.trans_lt' (Nat.lt_succ_of_le hfull.ge)))
    · rw [mem_entries_iff,find_set_of_ne _ _ hne,find_erase_self]
      exact nofun

theorem exists_perform (h : limited.Limited) (call : Call κ ν) :
    ∃ after, limited.perform call=some after ∧ after.Limited := by
  cases call with
  | insert x =>
    cases hfind : limited.map.find x.1 with
    | some value =>
      refine ⟨limited,?_,h⟩
      simp only [perform,LimitedMap.insert,hfind]
    | none =>
      by_cases hfull : limited.map.size=limited.nMaxSize
      · obtain ⟨dropped,rest,after,hafter,hmax,hshadows,hbefore,hperm,-⟩ :=
          insert_full h hfind hfull
        refine ⟨after,hafter,hshadows,?_,hmax ▸ h.positive⟩
        rw [hmax,← hfull]
        exact (hperm.length_eq.trans hbefore.length_eq.symm).le
      · have hset :=
        (entries_set_perm x.2 hfind).length_eq.le.trans (Nat.lt_of_le_of_ne h.size hfull)
        refine ⟨⟨limited.map.set x.1 x.2,insertMulti (x.2,x.1) limited.rmap,limited.nMaxSize⟩,?_,
          h.toShadows.insert hfind x.2,hset,h.positive⟩
        simp only [perform,LimitedMap.insert,hfind]
        exact congrArg (Option.map _) (if_neg hset.not_gt)
  | erase k =>
    unfold perform LimitedMap.erase
    dsimp only
    cases hfind : limited.map.find k with
    | none => exact ⟨limited,rfl,h⟩
    | some value =>
      exact ⟨_,if_pos (h.mem_iff.mpr hfind),h.toShadows.erase hfind,
        (Nat.le_of_lt (size_erase hfind).ge).trans h.size,h.positive⟩
  | update k v =>
    unfold perform LimitedMap.update
    dsimp only
    cases hfind : limited.map.find k with
    | none => exact ⟨limited,rfl,h⟩
    | some value =>
      have hshadows := (h.toShadows.erase hfind).insert (find_erase_self _ _) v
      rw [set_of_erase] at hshadows
      refine ⟨_,if_pos (h.mem_iff.mpr hfind),hshadows,?_,h.positive⟩
      rw [size_set,if_pos ((contains_iff _ _).mpr ⟨value,hfind⟩)]
      exact h.size
  | maxSize s positive =>
    obtain ⟨after,hafter,hshadows,hsize,-⟩ := exists_shrink limited.map.size h.toShadows
      (Nat.le_add_left _ s)
    have hless : after.map.size ≤ s := hsize.le.trans (min_le_right _ _)
    refine ⟨{ after with nMaxSize := s },(if_neg positive.ne').trans ?_,hshadows,hless,positive⟩
    rw [hafter]
    rfl

/-- A lower limit drops the entries with the lowest values, and no more than it has to. -/
theorem maxSize_keepsHighest (h : limited.Limited) (s : ℕ) : ∃ after,
    limited.maxSize (s+1)=some after ∧ after.Limited ∧
      after.map.size=min limited.map.size (s+1) ∧ ∀ kept∈after.map.entries,
        kept∈limited.map.entries ∧ ∀ dropped∈limited.map.entries,
          dropped∉after.map.entries → dropped.2≤kept.2 := by
  obtain ⟨after,hafter,hshadows,hsize,hkept⟩ := exists_shrink limited.map.size h.toShadows
    (Nat.le_add_left _ (s+1))
  refine ⟨{ after with nMaxSize := s+1 },(if_neg s.succ_ne_zero).trans ?_,
    ⟨hshadows,hsize.le.trans (min_le_right _ _),s.succ_pos⟩,hsize,hkept⟩
  rw [hafter]
  rfl

/-- In every run the multimap shadows the map and the limit holds. A full map keeps the highest
values if and only if the new one is not the lowest. -/
theorem run_keepsHighest_iff (nMaxSizeIn : ℕ) (calls : List (Call κ ν)) : ∃ limited,
    calls.foldlM perform (⟨.empty,[],nMaxSizeIn+1⟩ : LimitedMap κ ν)=some limited ∧
      limited.Limited ∧ ∀ x, limited.map.find x.1=none → limited.map.size=limited.nMaxSize →
        ∃ after, limited.insert x=some after ∧
          (KeepsHighest limited x after ↔ ∃ entry∈limited.map.entries, entry.2≤x.2) := by
  have hrun : ∀ {start : LimitedMap κ ν}, start.Limited → ∃ limited,
      calls.foldlM perform start=some limited ∧ limited.Limited := by
    induction calls with
    | nil => exact fun h => ⟨_,rfl,h⟩
    | cons call calls ih =>
      intro start h
      obtain ⟨next,hnext,hlimited⟩ := exists_perform h call
      rw [foldlM_cons,hnext]
      exact ih hlimited
  obtain ⟨limited,hlimited,h⟩ := @hrun ⟨.empty,[],nMaxSizeIn+1⟩
    ⟨⟨Perm.nil,Pairwise.nil⟩,Nat.zero_le _,Nat.succ_pos _⟩
  refine ⟨limited,hlimited,h,fun x hnew hfull => ?_⟩
  obtain ⟨dropped,rest,after,hafter,hmax,-,hbefore,hperm,hgone,hlow⟩ := insert_full h hnew hfull
  have hdropped : dropped∈limited.map.entries := hbefore.mem_iff.mpr mem_cons_self
  refine ⟨after,hafter,fun hkeeps => ⟨dropped,hdropped,?_⟩,fun ⟨entry,hm,hle⟩ => ⟨?_,?_⟩⟩
  · exact (hkeeps.2 x (hperm.mem_iff.mpr mem_cons_self)).2 dropped (mem_cons_of_mem
    _ hdropped) hgone
  · exact (hperm.length_eq.trans hbefore.length_eq.symm).trans hfull
  · simp only [hperm.mem_iff,mem_cons,hbefore.mem_iff] at hlow ⊢
    have hless : dropped.2≤x.2 := (hlow entry (mem_cons.mp (hbefore.mem_iff.mp hm))).trans hle
    grind

/-- Map of one entry at most that has one. -/
def fullMap (x : ℕ×ℕ) : LimitedMap ℕ ℕ := ⟨OrderedMap.empty.set x.1 x.2,[(x.2,x.1)],1⟩

/-- A map of two entries keeps the higher value when one fits. -/
theorem maxSize_sample :
    ∃ after, LimitedMap.maxSize ⟨(OrderedMap.empty.set 0 5).set 1 3,[(3,1),(5,0)],2⟩ 1=some after ∧
      after.Limited ∧ after.map.size=1 ∧ after.map.find 0=some 5 := by
  obtain ⟨after,hafter,h,hsize,-⟩ := @maxSize_keepsHighest ℕ ℕ _ _
    ⟨(OrderedMap.empty.set 0 5).set 1 3,[(3,1),(5,0)],2⟩
    ⟨⟨by decide,by decide⟩,by decide,by decide⟩ 0
  refine ⟨after,hafter,h,hsize,?_⟩
  cases hafter
  rfl

/-- It drops its entry for one with a lower value. -/
theorem insert_drops_higher : [.insert (0,5)].foldlM perform ⟨.empty,[],1⟩=some (fullMap (0,5)) ∧
    (fullMap (0,5)).insert (1,3)=some (fullMap (1,3)) ∧
    ¬KeepsHighest (fullMap (0,5)) (1,3) (fullMap (1,3)) := by
  refine ⟨rfl,rfl,?_⟩
  unfold KeepsHighest
  decide

end LimitedMap

end Pyrk
