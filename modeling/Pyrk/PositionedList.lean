import Pyrk.OrderedMap
import Mathlib.Data.List.Perm.Basic

/-!
# Lists with the positions of their elements

The elements of a list are different, and a map tells the position of each. An element is swapped
with the last one to be removed.
-/

namespace Pyrk

open OrderedMap List

/-- A map tells the positions of the elements of a list. -/
structure Positioned {κ : Type} [LinearOrder κ] (list : List κ) (positions : OrderedMap κ ℕ) :
    Prop where
  /-- An element is at its position, and nowhere else. -/
  index : ∀ (i : ℕ) (key : κ),list[i]?=some key ↔ positions.find key=some i

theorem OrderedMap.values_of_find {ν : Type} {map : OrderedMap ℕ ν} {list : List ν}
    (h : ∀ i : ℕ,map.find i=list[i]?) : map.values=list := by
  have hentries : map.entries=list.zipIdx.map Prod.swap := by
    refine sorted_ext map.sorted ?_ ?_
    · refine pairwise_map.mpr (pairwise_iff_getElem.mpr ?_)
      intro i j hi hj hlt
      rw [getElem_zipIdx,getElem_zipIdx]
      dsimp only [Prod.swap]
      omega
    · intro entry
      obtain ⟨i,value⟩ := entry
      rw [map.mem_entries_iff,h,mem_map]
      constructor
      · intro hvalue
        refine ⟨(value,i),?_,rfl⟩
        rwa [mk_mem_zipIdx_iff_getElem?]
      · intro ⟨pair,hm,hpair⟩
        have hsame : pair=(value,i) := by rw [←Prod.swap_swap pair,hpair,Prod.swap_prod_mk]
        rw [hsame] at hm
        rwa [mk_mem_zipIdx_iff_getElem?] at hm
  have hswap : (Prod.snd ∘ Prod.swap : ν×ℕ → ν)=Prod.fst := rfl
  rw [OrderedMap.values,hentries,map_map,hswap,zipIdx_map_fst]

namespace Positioned

variable {κ : Type} [LinearOrder κ] {list : List κ} {positions : OrderedMap κ ℕ}

theorem nil : Positioned ([] : List κ) OrderedMap.empty where
  index := fun i key => by
    rw [List.getElem?_nil,find_empty]
    simp only [reduceCtorEq]

section

variable (h : Positioned list positions)

include h

theorem lt_length {key : κ} {i : ℕ}
    (hfind : positions.find key=some i) : i<list.length :=
  (List.getElem?_eq_some_iff.mp ((h.index i key).mpr hfind)).1

theorem mem_iff (key : κ) :
    key∈list ↔ (positions.find key).isSome=true := by
  rw [mem_iff_getElem?,Option.isSome_iff_exists]
  exact exists_congr (fun i => h.index i key)

theorem nodup : list.Nodup := by
  rw [nodup_iff_getElem?_ne_getElem?]
  intro i j hlt hj heq
  have hsome : list[j]?=some list[j] := getElem?_eq_getElem hj
  have hfirst := (h.index i _).mp (heq.trans hsome)
  have hsecond := (h.index j _).mp hsome
  rw [hfirst] at hsecond
  exact absurd (Option.some.inj hsecond) (Nat.ne_of_lt hlt)

/-- The list has the keys of the map. -/
theorem perm_keys : list.Perm (positions.entries.map Prod.fst) := by
  refine (perm_ext_iff_of_nodup h.nodup positions.nodup_keys).mpr (fun key => ?_)
  rw [h.mem_iff,Option.isSome_iff_exists,mem_map]
  constructor
  · intro ⟨i,hfind⟩
    exact ⟨(key,i),(positions.mem_entries_iff key i).mpr hfind,rfl⟩
  · intro ⟨entry,hm,hkey⟩
    rw [←hkey]
    exact ⟨entry.2,(positions.mem_entries_iff _ _).mp hm⟩

theorem append {key : κ} (hnew : positions.find key=none) :
    Positioned (list++[key]) (positions.set key list.length) where
  index := by
    intro i other
    rw [find_set]
    by_cases hi : i<list.length
    · rw [getElem?_append_left hi,h.index]
      split
      next heq =>
        rw [heq,hnew]
        simp only [reduceCtorEq,Option.some.injEq,false_iff]
        omega
      next => rfl
    · rw [getElem?_append_right (Nat.le_of_not_lt hi)]
      have hpart : positions.find other≠some i := fun hfind => hi (h.lt_length hfind)
      by_cases hlast : i=list.length
      · rw [hlast,Nat.sub_self,getElem?_cons_zero]
        split
        next heq => simp only [heq]
        next hne =>
          rw [hlast] at hpart
          simp only [Option.some.injEq,hpart,iff_false]
          exact fun heq => hne heq.symm
      · rw [getElem?_eq_none (by rw [length_singleton]; omega)]
        split
        next => simp only [reduceCtorEq,Option.some.injEq,false_iff]; omega
        next => simp only [reduceCtorEq,hpart]

/-- Two entries change places. -/
theorem swap {i j : ℕ} {first second : κ} (hne : i≠j)
    (hi : list[i]?=some first) (hj : list[j]?=some second) :
    Positioned ((list.set i second).set j first) ((positions.set first j).set second i) where
  index := by
    intro k key
    have hfirst := (h.index i first).mp hi
    have hsecond := (h.index j second).mp hj
    have hilt := h.lt_length hfirst
    have hjlt := h.lt_length hsecond
    have hkeys : first≠second := by
      intro heq
      rw [heq,hsecond] at hfirst
      exact hne (Option.some.inj hfirst).symm
    rw [getElem?_set,getElem?_set,length_set,find_set,find_set]
    by_cases hkj : j=k
    · subst hkj
      rw [if_pos rfl,if_pos hjlt]
      by_cases hkey : key=second
      · rw [if_pos hkey,hkey]
        simp only [Option.some.injEq,hkeys,false_iff]
        exact hne
      · rw [if_neg hkey]
        by_cases hkeyf : key=first
        · simp only [hkeyf,if_true]
        · rw [if_neg hkeyf,←h.index,hj]
          simp only [Option.some.injEq]
          exact ⟨fun heq => absurd heq.symm hkeyf,fun heq => absurd heq.symm hkey⟩
    · rw [if_neg hkj]
      by_cases hki : i=k
      · subst hki
        rw [if_pos rfl,if_pos hilt]
        by_cases hkey : key=second
        · simp only [hkey,if_true]
        · rw [if_neg hkey]
          by_cases hkeyf : key=first
          · simp only [hkeyf,if_true,Option.some.injEq]
            exact ⟨fun heq => absurd heq.symm hkeys,fun heq => absurd heq.symm hne⟩
          · rw [if_neg hkeyf,←h.index,hi]
            simp only [Option.some.injEq]
            exact ⟨fun heq => absurd heq.symm hkey,fun heq => absurd heq.symm hkeyf⟩
      · rw [if_neg hki,h.index]
        by_cases hkey : key=second
        · rw [if_pos hkey,hkey,hsecond]
          simp only [Option.some.injEq,hkj,hki]
        · rw [if_neg hkey]
          by_cases hkeyf : key=first
          · rw [if_pos hkeyf,hkeyf,hfirst]
            simp only [Option.some.injEq,hkj,hki]
          · rw [if_neg hkeyf]

theorem dropLast {key : κ} (hlast : list[list.length-1]?=some key) :
    Positioned list.dropLast (positions.erase key) where
  index := by
    intro i other
    have hkey := (h.index _ _).mp hlast
    rw [getElem?_dropLast,find_erase]
    split
    next hlt =>
      rw [h.index]
      split
      next heq =>
        rw [heq,hkey]
        simp only [Option.some.injEq,reduceCtorEq,iff_false]
        omega
      next => rfl
    next hge =>
      split
      next => simp only [reduceCtorEq]
      next hne =>
        simp only [reduceCtorEq,false_iff]
        intro hfind
        have hlt := h.lt_length hfind
        have heq : i=list.length-1 := by omega
        rw [heq,←h.index,hlast] at hfind
        exact hne (Option.some.inj hfind).symm

/-- The last entry takes the place of a removed one. -/
theorem moveLast {i : ℕ} {key last : κ}
    (hi : list[i]?=some key) (hlast : list[list.length-1]?=some last) :
    Positioned (list.set i last).dropLast ((positions.set last i).erase key) := by
  have hlen := h.lt_length ((h.index i key).mp hi)
  by_cases hend : i=list.length-1
  · rw [hend,hlast] at hi
    have hsame : list.set i last=list := by
      obtain ⟨hlt,hget⟩ := List.getElem?_eq_some_iff.mp hlast
      simp only [hend,← hget,set_getElem_self]
    rw [hsame,← Option.some.inj hi,set_find ((h.index i last).mp (by rw [hend,hlast]))]
    exact h.dropLast hlast
  · have hswap := h.swap hend hi hlast
    have hdrop := @Positioned.dropLast _ _ _ _ hswap key (by
      rw [length_set,length_set,List.getElem?_set_self (by
        rw [length_set]; omega)])
    have hlist : ((list.set i last).set (list.length-1) key).dropLast=
        (list.set i last).dropLast := by
      rw [dropLast_eq_take,dropLast_eq_take,length_set,length_set,take_set_of_le (Nat.le_refl _)]
    have hplaces : ((positions.set key (list.length-1)).set last i).erase key=
        (positions.set last i).erase key := by
      refine ext_find (fun other => ?_)
      rw [find_erase,find_erase]
      split_ifs with hother
      · rfl
      · rw [find_set,find_set,find_set,if_neg hother]
    rw [hlist,hplaces] at hdrop
    exact hdrop

end

end Positioned

end Pyrk
