import Mathlib.Data.List.Sort

/-!
# Caches with a bounded number of entries

The newest entry is in front, and a full cache drops its last entry for a new one. Values under a
key that their order does not tell apart are one value.
-/

namespace Pyrk

open List

/-- Map that keeps a number of the latest entries. -/
structure CacheMap (κ ν : Type) where
  /-- Number of entries at which the last one is dropped. -/
  nMaxSize : ℕ
  listItems : List (κ×ν) := []

/-- Map with several values under a key that keeps the latest entries. -/
structure CacheMultiMap (κ ν : Type) where
  /-- Number of entries at which the last one is dropped. -/
  nMaxSize : ℕ
  listItems : List (κ×ν) := []

/-- Put an entry in front; a full list drops its last one before. -/
def pushItem {α : Type} (nMaxSize : ℕ) (item : α) (listItems : List α) : List α :=
  item::if listItems.length=nMaxSize then listItems.dropLast else listItems

theorem mem_pushItem {α : Type} {nMaxSize : ℕ} {item other : α} {listItems : List α}
    (h : other∈pushItem nMaxSize item listItems) : other=item ∨ other∈listItems := by
  rcases mem_cons.mp h with rfl | hrest
  · exact Or.inl rfl
  · split_ifs at hrest
    · exact Or.inr (dropLast_subset _ hrest)
    · exact Or.inr hrest

namespace CacheMap

variable {κ ν : Type} [DecidableEq κ]

/-- Whether there is an entry under a key. -/
def hasKey (cache : CacheMap κ ν) (key : κ) : Bool := cache.listItems.any (fun item => item.1=key)

/-- Add an entry unless there is one under the key. -/
def insert (cache : CacheMap κ ν) (key : κ) (value : ν) : Bool×CacheMap κ ν :=
  if cache.hasKey key then (false,cache)
  else (true,{ cache with listItems := pushItem cache.nMaxSize (key,value) cache.listItems })

/-- Value under a key. -/
def get (cache : CacheMap κ ν) (key : κ) : Option ν :=
  (cache.listItems.find? (fun item => item.1=key)).map Prod.snd

/-- Drop the entry under a key; there is one at most. -/
def erase (cache : CacheMap κ ν) (key : κ) : CacheMap κ ν :=
  { cache with listItems := cache.listItems.filter (fun item => !decide (item.1=key)) }

/-- There is room for one more entry. -/
def BelowCapacity (cache : CacheMap κ ν) : Prop := cache.listItems.length < cache.nMaxSize

instance (cache : CacheMap κ ν) : Decidable cache.BelowCapacity :=
  inferInstanceAs (Decidable (_ < _))

theorem hasKey_iff_get (cache : CacheMap κ ν) (key : κ) :
    cache.hasKey key=(cache.get key).isSome := by
  unfold hasKey get
  rw [Option.isSome_map,isSome_find?]

variable {cache : CacheMap κ ν}

/-- With room for it, a new key is found. -/
theorem get_insert (hroom : cache.BelowCapacity) {key : κ}
    (hnew : cache.hasKey key=false) (value : ν) (other : κ) :
    (cache.insert key value).1=true ∧
      (cache.insert key value).2.get other=if other=key then some value else cache.get other := by
  have hlen : ¬cache.listItems.length=cache.nMaxSize := Nat.ne_of_lt hroom
  unfold insert get pushItem
  rw [hnew]
  simp only [Bool.false_eq_true,if_false,hlen,true_and,find?_cons]
  by_cases hsame : other=key
  · simp [hsame]
  · simp [hsame,Ne.symm hsame]

theorem get_erase (cache : CacheMap κ ν) (key other : κ) :
    (cache.erase key).get other=if other=key then none else cache.get other := by
  unfold erase get
  rw [find?_filter]
  split_ifs with hsame
  · subst hsame
    rw [find?_eq_none.mpr ?_,Option.map_none]
    intro item _
    simp
  · refine congrArg (Option.map Prod.snd) (congrArg (find? · _) (funext (fun item => ?_)))
    by_cases hitem : item.1=other
    · simp [hitem,hsame]
    · simp [hitem]

theorem get_foldl_erase (keys : List κ) (cache : CacheMap κ ν) (other : κ) :
    (keys.foldl erase cache).get other=if other∈keys then none else cache.get other := by
  induction keys generalizing cache with
  | nil => simp
  | cons key keys ih =>
    rw [foldl_cons,ih,get_erase]
    by_cases hsame : other=key
    · simp [hsame]
    · simp [hsame]

/-- No key has two entries. -/
def Distinct (cache : CacheMap κ ν) : Prop := (cache.listItems.map Prod.fst).Nodup

theorem Distinct.insert {cache : CacheMap κ ν} (h : cache.Distinct) (key : κ) (value : ν) :
    (cache.insert key value).2.Distinct := by
  unfold CacheMap.insert
  split_ifs with hknown
  · exact h
  · have hpart : ((if cache.listItems.length=cache.nMaxSize then cache.listItems.dropLast
        else cache.listItems).map Prod.fst).Sublist (cache.listItems.map Prod.fst) := by
      split_ifs
      · exact (dropLast_sublist _).map _
      · exact List.Sublist.refl _
    unfold Distinct pushItem
    rw [map_cons,nodup_cons]
    refine ⟨?_,hpart.nodup h⟩
    intro hm
    obtain ⟨item,hitem,hkey⟩ := mem_map.mp (hpart.subset hm)
    exact hknown (any_eq_true.mpr ⟨item,hitem,decide_eq_true hkey⟩)

theorem Distinct.foldl_erase (h : cache.Distinct) (keys : List κ) :
    (keys.foldl erase cache).Distinct := by
  induction keys generalizing cache with
  | nil => exact h
  | cons key keys ih => exact ih (((filter_sublist).map _).nodup h)

/-- Without repeated keys the list is what is found. -/
theorem Distinct.get_eq_some (h : cache.Distinct) (key : κ) (value : ν) :
    cache.get key=some value ↔ (key,value)∈cache.listItems := by
  unfold get
  rw [Option.map_eq_some_iff]
  constructor
  · rintro ⟨item,hfind,rfl⟩
    have hkey := find?_some hfind
    rw [decide_eq_true_eq] at hkey
    rw [← hkey]
    exact mem_of_find?_eq_some hfind
  · intro hm
    have hsome : (cache.listItems.find? (fun item => item.1=key)).isSome=true :=
      find?_isSome.mpr ⟨_,hm,decide_eq_true rfl⟩
    obtain ⟨item,hfind⟩ := Option.isSome_iff_exists.mp hsome
    have hkey := find?_some hfind
    rw [decide_eq_true_eq] at hkey
    have hsame := inj_on_of_nodup_map h (mem_of_find?_eq_some hfind) hm hkey
    exact ⟨item,hfind,by rw [hsame]⟩

theorem hasKey_insert {key other : κ} {value : ν}
    (h : (cache.insert key value).2.hasKey other=true) : other=key ∨ cache.hasKey other=true := by
  unfold insert at h
  split_ifs at h with hknown
  · exact Or.inr h
  · obtain ⟨item,hm,hkey⟩ := any_eq_true.mp h
    rw [decide_eq_true_eq] at hkey
    rcases mem_pushItem hm with rfl | hrest
    · exact Or.inl hkey.symm
    · exact Or.inr (any_eq_true.mpr ⟨item,hrest,decide_eq_true hkey⟩)

end CacheMap

namespace CacheMultiMap

variable {κ ν : Type} [DecidableEq κ] (lt : ν → ν → Bool)

/-- Values that the comparison does not tell apart. -/
def equivalent (first second : ν) : Bool := !lt first second && !lt second first

/-- Add an entry unless an equivalent value is there under the key. -/
def insert (cache : CacheMultiMap κ ν) (key : κ) (value : ν) : Bool×CacheMultiMap κ ν :=
  if cache.listItems.any (fun item => item.1=key && equivalent lt value item.2) then (false,cache)
  else (true,{ cache with listItems := pushItem cache.nMaxSize (key,value) cache.listItems })

/-- Values under a key in the order of the comparison. -/
def getAll (cache : CacheMultiMap κ ν) (key : κ) : List ν :=
  ((cache.listItems.filter (fun item => item.1=key)).map Prod.snd).insertionSort
    (fun first second => lt second first=false)

/-- Drop the entry with an equivalent value under a key. -/
def erase (cache : CacheMultiMap κ ν) (key : κ) (value : ν) : CacheMultiMap κ ν :=
  { cache with
    listItems := cache.listItems.eraseP (fun item => item.1=key && equivalent lt value item.2) }

/-- Drop all entries under a key. -/
def eraseKey (cache : CacheMultiMap κ ν) (key : κ) : CacheMultiMap κ ν :=
  { cache with listItems := cache.listItems.filter (fun item => !decide (item.1=key)) }

/-- Only the new item can be added. -/
theorem mem_insert {cache : CacheMultiMap κ ν} {key : κ} {value : ν} {item : κ×ν}
    (h : item∈(cache.insert lt key value).2.listItems) :
    item=(key,value) ∨ item∈cache.listItems := by
  unfold insert at h
  split_ifs at h
  · exact Or.inr h
  · exact mem_pushItem h

/-- All items of a key are found. -/
theorem mem_getAll {cache : CacheMultiMap κ ν} {key : κ} {value : ν} :
    value∈cache.getAll lt key ↔ (key,value)∈cache.listItems := by
  unfold getAll
  rw [mem_insertionSort,mem_map]
  constructor
  · rintro ⟨item,hm,rfl⟩
    obtain ⟨hitem,hkey⟩ := mem_filter.mp hm
    rwa [← of_decide_eq_true hkey]
  · intro hm
    exact ⟨_,mem_filter.mpr ⟨hm,decide_eq_true rfl⟩,rfl⟩

end CacheMultiMap

end Pyrk
