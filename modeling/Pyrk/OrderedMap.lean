import Mathlib.Data.List.Sort

/-!
# Finite maps iterated in key order

An association list with strictly increasing keys: two maps with the same lookups are equal, and
iteration is by ascending key. Every operation recurses on the entry list.
-/

namespace Pyrk

open List Option

/-- A finite map from ordered keys, with each key stored once. -/
structure OrderedMap (κ ν : Type) [LinearOrder κ] where
  entries : List (κ×ν)
  /-- Strictly increasing keys, hence no key occurs twice. -/
  sorted : entries.Pairwise (fun left right => left.1 < right.1)

namespace OrderedMap

section Entries

variable {κ ν : Type} [LinearOrder κ]

/-- First value stored under a key. -/
def findEntry (key : κ) : List (κ×ν) → Option ν
  | [] => none
  | entry::tail => if entry.1=key then some entry.2 else findEntry key tail

/-- Insert before the first larger key, replacing an equal key. -/
def setEntry (key : κ) (value : ν) : List (κ×ν) → List (κ×ν)
  | [] => [(key,value)]
  | entry::tail =>
    if key<entry.1 then (key,value)::entry::tail
    else if entry.1=key then (key,value)::tail
    else entry::setEntry key value tail

theorem findEntry_setEntry (key other : κ) (value : ν) (entries : List (κ×ν)) :
    findEntry other (setEntry key value entries)=
      if other=key then some value else findEntry other entries := by
  induction entries with
  | nil => simp only [setEntry,findEntry,eq_comm]
  | cons entry tail ih =>
    by_cases hlt : key<entry.1
    · simp only [setEntry,if_pos hlt,findEntry,eq_comm]
    · by_cases heq : entry.1=key
      · subst heq
        simp only [setEntry,if_neg hlt,if_true,findEntry,eq_comm]
        split_ifs <;> rfl
      · simp only [setEntry,if_neg hlt,if_neg heq,findEntry,ih]
        by_cases hother : other=key
        · subst hother
          simp only [if_neg heq,if_true]
        · simp only [if_neg hother]

variable {entries : List (κ×ν)}

theorem mem_setEntry {key : κ} {value : ν} {entry : κ×ν}
    (hm : entry∈setEntry key value entries) : entry=(key,value) ∨ entry∈entries := by
  induction entries with
  | nil => exact .inl (mem_singleton.mp hm)
  | cons head tail ih =>
    unfold setEntry at hm
    split_ifs at hm with hlt heq
    · exact mem_cons.mp hm
    · rcases mem_cons.mp hm with he | ht
      · exact .inl he
      · exact .inr (mem_cons_of_mem _ ht)
    · rcases mem_cons.mp hm with he | ht
      · exact .inr (he ▸ mem_cons_self)
      · exact (ih ht).imp_right (mem_cons_of_mem _)

/-- Setting an entry keeps the order. -/
theorem sorted_setEntry (key : κ) (value : ν)
    (hs : entries.Pairwise (fun left right => left.1 < right.1)) :
    (setEntry key value entries).Pairwise (fun left right => left.1 < right.1) := by
  induction entries with
  | nil => exact pairwise_singleton _ _
  | cons head tail ih =>
    obtain ⟨hhead,htail⟩ := pairwise_cons.mp hs
    unfold setEntry
    split_ifs with hlt heq
    · refine pairwise_cons.mpr ⟨?_,hs⟩
      intro entry hm
      rcases mem_cons.mp hm with rfl | hm
      · exact hlt
      · exact hlt.trans (hhead entry hm)
    · refine pairwise_cons.mpr ⟨?_,htail⟩
      intro entry hm
      exact heq ▸ hhead entry hm
    · refine pairwise_cons.mpr ⟨?_,ih htail⟩
      intro entry hm
      rcases mem_setEntry hm with rfl | hm
      · exact lt_of_le_of_ne (not_lt.mp hlt) heq
      · exact hhead entry hm

/-- A sorted list has one entry of a key, and it is found. -/
theorem findEntry_eq_some_iff
    (hs : entries.Pairwise (fun left right => left.1 < right.1)) (key : κ) (value : ν) :
    findEntry key entries=some value ↔ (key,value)∈entries := by
  induction entries with
  | nil => simp only [findEntry,not_mem_nil,reduceCtorEq]
  | cons head tail ih =>
    obtain ⟨hhead,htail⟩ := pairwise_cons.mp hs
    unfold findEntry
    split_ifs with he
    · constructor
      · intro hv
        cases hv
        exact he ▸ mem_cons_self
      · intro hm
        rcases mem_cons.mp hm with hm | hm
        · rw [←hm]
        · exact absurd (hhead _ hm) (he ▸ lt_irrefl _)
    · rw [ih htail]
      constructor
      · exact mem_cons_of_mem _
      · intro hm
        rcases mem_cons.mp hm with hm | hm
        · exact absurd (by rw [←hm]) he
        · exact hm

theorem sorted_ext {first second : List (κ×ν)}
    (hf : first.Pairwise (fun left right => left.1 < right.1))
    (hs : second.Pairwise (fun left right => left.1 < right.1))
    (hm : ∀ entry, entry∈first ↔ entry∈second) : first=second := by
  have nodup : ∀ {entries : List (κ×ν)},
      entries.Pairwise (fun left right => left.1 < right.1) → entries.Nodup := by
    intro entries hp
    exact hp.imp (fun hlt he => absurd (he ▸ hlt) (lt_irrefl _))
  have hp : first.Perm second := (perm_ext_iff_of_nodup (nodup hf) (nodup hs)).mpr hm
  refine hp.eq_of_pairwise ?_ hf hs
  intro left right _ _ hlt hgt
  exact absurd (hlt.trans hgt) (lt_irrefl _)

end Entries

variable {κ ν : Type} [LinearOrder κ]

/-- The map without entries. -/
def empty : OrderedMap κ ν := ⟨[],List.Pairwise.nil⟩

/-- Value stored under a key. -/
def find (map : OrderedMap κ ν) (key : κ) : Option ν := findEntry key map.entries

/-- Whether a key is stored. -/
def contains (map : OrderedMap κ ν) (key : κ) : Bool := (map.find key).isSome

/-- Store a value, replacing an older value of the same key. -/
def set (map : OrderedMap κ ν) (key : κ) (value : ν) : OrderedMap κ ν :=
  ⟨setEntry key value map.entries,sorted_setEntry key value map.sorted⟩

/-- Keep the entries that satisfy a test. -/
def filter (map : OrderedMap κ ν) (keep : κ×ν → Bool) : OrderedMap κ ν :=
  ⟨map.entries.filter keep,map.sorted.filter _⟩

/-- Forget a key. -/
def erase (map : OrderedMap κ ν) (key : κ) : OrderedMap κ ν :=
  map.filter (fun entry => !decide (entry.1=key))

/-- Store a value unless the key is stored already. -/
def emplace (map : OrderedMap κ ν) (key : κ) (value : ν) : OrderedMap κ ν :=
  if map.contains key then map else map.set key value

/-- Store a list of pairs one after another. -/
def ofEntries (entries : List (κ×ν)) : OrderedMap κ ν :=
  entries.foldl (fun map entry => map.set entry.1 entry.2) empty

/-- Store a list of pairs one after another, keeping the first of equal keys. -/
def emplaceEntries (entries : List (κ×ν)) : OrderedMap κ ν :=
  entries.foldl (fun map entry => map.emplace entry.1 entry.2) empty

/-- Number of stored keys. -/
def size (map : OrderedMap κ ν) : ℕ := map.entries.length

/-- Stored values in key order. -/
def values (map : OrderedMap κ ν) : List ν := map.entries.map Prod.snd

/-- Change every stored value. -/
def mapValues {μ : Type} (change : ν → μ) (map : OrderedMap κ ν) : OrderedMap κ μ :=
  ⟨map.entries.map (fun entry => (entry.1,change entry.2)),pairwise_map.mpr map.sorted⟩

theorem mem_entries_iff (map : OrderedMap κ ν) (key : κ) (value : ν) :
    (key,value)∈map.entries ↔ map.find key=some value :=
  (findEntry_eq_some_iff map.sorted key value).symm

/-- A map is known by what it finds. -/
theorem ext_find {first second : OrderedMap κ ν}
    (hf : ∀ key, first.find key=second.find key) : first=second := by
  have he : first.entries=second.entries := by
    refine sorted_ext first.sorted second.sorted ?_
    rintro ⟨key,value⟩
    rw [mem_entries_iff,mem_entries_iff,hf]
  cases first
  cases second
  simpa only [mk.injEq] using he

instance [DecidableEq ν] : DecidableEq (OrderedMap κ ν) := fun first second =>
  decidable_of_iff (first.entries=second.entries) ⟨fun he => by
    cases first
    cases second
    simpa only [mk.injEq] using he,congrArg entries⟩

@[simp] theorem find_empty (key : κ) : (empty : OrderedMap κ ν).find key=none := rfl

/-- Only the key that is set changes. -/
theorem find_set (map : OrderedMap κ ν) (key other : κ) (value : ν) :
    (map.set key value).find other=if other=key then some value else map.find other :=
  findEntry_setEntry key other value map.entries

@[simp] theorem find_set_self (map : OrderedMap κ ν) (key : κ) (value : ν) :
    (map.set key value).find key=some value := by
  rw [find_set,if_pos rfl]

variable {key other : κ}

section

variable (map : OrderedMap κ ν)

include map

theorem find_set_of_ne (value : ν) (hne : other≠key) :
    (map.set key value).find other=map.find other := by
  rw [find_set,if_neg hne]

theorem find_filter (keep : κ×ν → Bool) (key : κ) :
    (map.filter keep).find key=(map.find key).filter (fun value => keep (key,value)) := by
  cases hf : (map.filter keep).find key with
  | some value =>
    have hm := ((map.filter keep).mem_entries_iff key value).mpr hf
    obtain ⟨hold,hk⟩ := mem_filter.mp hm
    rw [(map.mem_entries_iff key value).mp hold,filter_some,if_pos hk]
  | none =>
    cases ho : map.find key with
    | none => rfl
    | some value =>
      by_cases hk : keep (key,value)=true
      · have hm : (key,value)∈(map.filter keep).entries :=
          mem_filter.mpr ⟨(map.mem_entries_iff key value).mpr ho,hk⟩
        rw [mem_entries_iff,hf] at hm
        cases hm
      · rw [filter_some,if_neg hk]

/-- Only the key that is erased changes. -/
theorem find_erase (key other : κ) :
    (map.erase key).find other=if other=key then none else map.find other := by
  rw [erase,find_filter]
  split_ifs with he
  · subst he
    cases map.find other <;> simp
  · cases map.find other <;> simp [he]

@[simp] theorem find_erase_self (key : κ) :
    (map.erase key).find key=none := by
  rw [find_erase,if_pos rfl]

theorem find_erase_of_ne (hne : other≠key) :
    (map.erase key).find other=map.find other := by
  rw [find_erase,if_neg hne]

theorem contains_iff (key : κ) :
    map.contains key=true ↔ ∃ value, map.find key=some value :=
  isSome_iff_exists

theorem contains_eq_false (key : κ) :
    map.contains key=false ↔ map.find key=none := by
  rw [contains,isSome_eq_false_iff,isNone_iff_eq_none]

/-- A key that is there keeps its value. -/
theorem find_emplace (key other : κ) (value : ν) :
    (map.emplace key value).find other=
      if other=key then some ((map.find key).getD value) else map.find other := by
  unfold emplace
  by_cases hc : map.contains key=true
  · obtain ⟨stored,hf⟩ := (map.contains_iff key).mp hc
    rw [if_pos hc]
    split_ifs with he
    · rw [he,hf,getD_some]
    · rfl
  · rw [if_neg hc,find_set]
    rw [(map.contains_eq_false key).mp (Bool.eq_false_of_not_eq_true hc),getD_none]

end

theorem find_foldl_set (entries : List (κ×ν)) (map : OrderedMap κ ν) (key : κ) (value : ν)
    (hd : entries.Pairwise (fun left right => left.1≠right.1)) :
    (entries.foldl (fun stored entry => stored.set entry.1 entry.2) map).find key=some value ↔
      (key,value)∈entries ∨ (∀ entry∈entries, entry.1≠key) ∧ map.find key=some value := by
  induction entries generalizing map with
  | nil =>
    simp only [foldl_nil,not_mem_nil,false_or,IsEmpty.forall_iff,implies_true,true_and]
  | cons head tail ih =>
    obtain ⟨hhead,htail⟩ := pairwise_cons.mp hd
    rw [foldl_cons,ih _ htail]
    by_cases hk : head.1=key
    · subst hk
      rw [find_set_self]
      constructor
      · rintro (hm | ⟨-,hv⟩)
        · exact .inl (mem_cons_of_mem _ hm)
        · cases hv
          exact .inl mem_cons_self
      · rintro (hm | ⟨hnone,-⟩)
        · rcases mem_cons.mp hm with he | hm
          · exact .inr ⟨fun entry he' => (hhead entry he').symm,by rw [←he]⟩
          · exact .inl hm
        · exact absurd rfl (hnone head mem_cons_self)
    · rw [find_set_of_ne _ _ (Ne.symm hk)]
      simp only [mem_cons,forall_eq_or_imp]
      constructor
      · rintro (hm | ⟨hnone,hv⟩)
        · exact .inl (.inr hm)
        · exact .inr ⟨⟨hk,hnone⟩,hv⟩
      · rintro ((he | hm) | ⟨⟨-,hnone⟩,hv⟩)
        · exact absurd (by rw [←he]) hk
        · exact .inl hm
        · exact .inr ⟨hnone,hv⟩

variable {map : OrderedMap κ ν}

/-- A map comes back from its entries in any order. -/
theorem ofEntries_perm {entries : List (κ×ν)}
    (hp : entries.Perm map.entries) : ofEntries entries=map := by
  have hsorted : map.entries.Pairwise (fun left right => left.1≠right.1) :=
    map.sorted.imp (fun hlt => ne_of_lt hlt)
  have hd : entries.Pairwise (fun left right => left.1≠right.1) :=
    hp.symm.pairwise hsorted (fun hne => Ne.symm hne)
  refine ext_find ?_
  intro key
  cases hf : map.find key with
  | some value =>
    have hm := hp.mem_iff.mpr ((map.mem_entries_iff key value).mpr hf)
    exact (find_foldl_set entries empty key value hd).mpr (.inl hm)
  | none =>
    cases hv : (ofEntries entries).find key with
    | none => rfl
    | some value =>
      rcases (find_foldl_set entries empty key value hd).mp hv with hm | ⟨-,he⟩
      · rw [(map.mem_entries_iff key value).mp (hp.mem_iff.mp hm)] at hf
        cases hf
      · cases he

theorem find_foldl_emplace (entries : List (κ×ν)) (map : OrderedMap κ ν) (key : κ) (value : ν)
    (hd : ∀ first second, (key,first)∈entries → (key,second)∈entries → first=second) :
    (entries.foldl (fun stored entry => stored.emplace entry.1 entry.2) map).find key=some value ↔
      map.find key=some value ∨ map.find key=none ∧ (key,value)∈entries := by
  induction entries generalizing map with
  | nil => simp only [foldl_nil,not_mem_nil,and_false,or_false]
  | cons head tail ih =>
    rw [foldl_cons,ih _ (fun first second hf hs =>
      hd first second (mem_cons_of_mem _ hf) (mem_cons_of_mem _ hs)),find_emplace]
    by_cases hk : key=head.1
    · subst hk
      rw [if_pos rfl]
      cases map.find head.1 with
      | some stored => simp only [getD_some,reduceCtorEq,false_and,or_false]
      | none =>
        simp only [getD_none,some.injEq,reduceCtorEq,false_and,or_false,false_or,true_and]
        constructor
        · intro he
          rw [← he]
          exact mem_cons_self
        · intro hm
          exact hd _ _ mem_cons_self hm
    · rw [if_neg hk]
      have hm : (key,value)∈head::tail ↔ (key,value)∈tail := by
        rw [mem_cons,or_iff_right]
        intro he
        exact hk (congrArg Prod.fst he)
      rw [hm]

variable {key : κ} {value : ν}

theorem find_emplaceEntries {entries : List (κ×ν)}
    (hd : ∀ first second, (key,first)∈entries → (key,second)∈entries → first=second) :
    (emplaceEntries entries).find key=some value ↔ (key,value)∈entries := by
  rw [emplaceEntries,find_foldl_emplace entries empty key value hd]
  simp only [find_empty,reduceCtorEq,false_or,true_and]

theorem mem_values_iff (map : OrderedMap κ ν) (value : ν) :
    value∈map.values ↔ ∃ key, map.find key=some value := by
  constructor
  · intro hm
    obtain ⟨⟨key,stored⟩,hentry,rfl⟩ := mem_map.mp hm
    exact ⟨key,(map.mem_entries_iff key stored).mp hentry⟩
  · rintro ⟨key,hf⟩
    exact mem_map.mpr ⟨(key,value),(map.mem_entries_iff key value).mpr hf,rfl⟩

theorem find_mapValues {μ : Type} (change : ν → μ) (map : OrderedMap κ ν) (key : κ) :
    (map.mapValues change).find key=(map.find key).map change := by
  unfold find mapValues
  dsimp only
  induction map.entries with
  | nil => rfl
  | cons entry tail ih =>
    rw [map_cons,findEntry,findEntry]
    split_ifs
    · rfl
    · exact ih

theorem mapValues_set {μ : Type} (change : ν → μ) (map : OrderedMap κ ν) (key : κ) (value : ν) :
    (map.set key value).mapValues change=(map.mapValues change).set key (change value) := by
  refine ext_find (fun other => ?_)
  rw [find_mapValues,find_set,find_set,find_mapValues]
  split_ifs <;> rfl

theorem mapValues_erase {μ : Type} (change : ν → μ) (map : OrderedMap κ ν) (key : κ) :
    (map.erase key).mapValues change=(map.mapValues change).erase key := by
  refine ext_find (fun other => ?_)
  rw [find_mapValues,find_erase,find_erase,find_mapValues]
  split_ifs <;> rfl

theorem set_find (hf : map.find key=some value) : map.set key value=map := by
  refine ext_find (fun other => ?_)
  rw [find_set]
  split_ifs with he
  · rw [he,hf]
  · rfl

theorem set_of_erase (map : OrderedMap κ ν) (key : κ) (value : ν) :
    (map.erase key).set key value=map.set key value := by
  refine ext_find (fun other => ?_)
  rw [find_set,find_set,find_erase]
  split_ifs <;> rfl

theorem set_erase (hf : map.find key=some value) : (map.erase key).set key value=map := by
  rw [set_of_erase,set_find hf]

theorem erase_of_none (hf : map.find key=none) : map.erase key=map := by
  refine ext_find (fun other => ?_)
  rw [find_erase]
  split_ifs with he
  · rw [he,hf]
  · rfl

theorem erase_of_set (map : OrderedMap κ ν) (key : κ) (value : ν) :
    (map.set key value).erase key=map.erase key := by
  refine ext_find (fun other => ?_)
  rw [find_erase,find_erase,find_set]
  split_ifs <;> rfl

theorem erase_set (value : ν) (hf : map.find key=none) : (map.set key value).erase key=map := by
  rw [erase_of_set,erase_of_none hf]

theorem set_comm (map : OrderedMap κ ν) (hne : key≠other) (value changed : ν) :
    (map.set key value).set other changed=(map.set other changed).set key value := by
  refine ext_find (fun found => ?_)
  rw [find_set,find_set,find_set,find_set]
  by_cases hkey : found=key
  · rw [if_pos hkey,if_pos hkey,if_neg (fun he => hne (hkey.symm.trans he))]
  · rw [if_neg hkey,if_neg hkey]

theorem find_foldl_erase (keys : List κ) (map : OrderedMap κ ν) (key : κ) :
    (keys.foldl erase map).find key=if key∈keys then none else map.find key := by
  induction keys generalizing map with
  | nil => simp
  | cons first keys ih =>
    rw [foldl_cons,ih,find_erase]
    by_cases hfirst : key=first
    · simp [hfirst]
    · simp [hfirst]

theorem nodup_keys (map : OrderedMap κ ν) : (map.entries.map Prod.fst).Nodup :=
  (pairwise_map.mpr map.sorted).imp (fun hlt => ne_of_lt hlt)

/-- A new key adds one entry. -/
theorem entries_set_perm {map : OrderedMap κ ν} {key : κ} (value : ν) (hf : map.find key=none) :
    (map.set key value).entries.Perm ((key,value)::map.entries) := by
  have hnot : (key,value)∉map.entries := by
    rw [mem_entries_iff,hf]
    exact some_ne_none value |>.symm
  refine (perm_ext_iff_of_nodup (nodup_keys (map.set key value)).of_map
    (nodup_cons.mpr ⟨hnot,map.nodup_keys.of_map⟩)).mpr ?_
  rintro ⟨other,found⟩
  rw [mem_entries_iff,find_set,mem_cons,mem_entries_iff,Prod.mk.injEq]
  split_ifs with he
  · rw [he,hf,some.injEq]
    simp only [true_and,reduceCtorEq,or_false,eq_comm]
  · simp only [he,false_and,false_or]

/-- An erased key loses one entry. -/
theorem entries_erase_perm (hf : map.find key=some value) :
    map.entries.Perm ((key,value)::(map.erase key).entries) := by
  have hperm := @entries_set_perm κ ν _ (map.erase key) key value (find_erase_self map key)
  rwa [set_erase hf] at hperm

theorem size_erase (hf : map.find key=some value) : map.size=(map.erase key).size+1 :=
  (entries_erase_perm hf).length_eq

theorem size_set (map : OrderedMap κ ν) (key : κ) (value : ν) :
    (map.set key value).size=if map.contains key then map.size else map.size+1 := by
  by_cases hc : map.contains key=true
  · obtain ⟨found,hf⟩ := (map.contains_iff key).mp hc
    have hset := (entries_set_perm value (find_erase_self map key)).length_eq
    rw [set_of_erase] at hset
    rw [if_pos hc]
    exact hset.trans (size_erase hf).symm
  · rw [if_neg hc]
    have hf := (map.contains_eq_false key).mp (Bool.eq_false_of_not_eq_true hc)
    exact (entries_set_perm value hf).length_eq

end OrderedMap

end Pyrk
