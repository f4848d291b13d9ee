import Pyrk.OrderedMap
import Mathlib.Data.Multiset.AddSub

/-!
# Reference counted ownership

An index from keys to their one owner and how often it holds the key. It means the multiset of keys
each owner holds, and the operations are exact for it.
-/

namespace Pyrk.OwnerIndex

open OrderedMap Function Multiset Option

section Operations

variable {κ ω : Type} [LinearOrder κ] [DecidableEq ω]

/-- Count one more holding of a key. -/
def acquire (index : OrderedMap κ (ω×ℕ)) (owner : ω) (key : κ) : Option (OrderedMap κ (ω×ℕ)) :=
  match index.find key with
  | none => some (index.set key (owner,1))
  | some entry => if entry.1=owner then some (index.set key (owner,entry.2+1)) else none

/-- Count one holding less and forget the key with the last one. -/
def release (index : OrderedMap κ (ω×ℕ)) (owner : ω) (key : κ) : Option (OrderedMap κ (ω×ℕ)) :=
  match index.find key with
  | none => none
  | some entry =>
    if entry.1=owner then
      some (if entry.2=1 then index.erase key else index.set key (owner,entry.2-1))
    else none

end Operations

variable {κ ω : Type} [LinearOrder κ]

/-- The index stores exactly the held keys, each with its owner and count. -/
def Exact (index : OrderedMap κ (ω×ℕ)) (holds : ω → Multiset κ) : Prop :=
  ∀ key owner count, index.find key=some (owner,count) ↔ 0 < count ∧ (holds owner).count key=count

variable {index : OrderedMap κ (ω×ℕ)} {holds : ω → Multiset κ}

theorem exact_empty : Exact (OrderedMap.empty : OrderedMap κ (ω×ℕ)) (fun _ => 0) := by
  intro key owner count
  simp only [find_empty,reduceCtorEq,count_zero,false_iff,not_and]
  omega

variable {key : κ} {owner : ω}

section

variable (h : Exact index holds)

include h

theorem Exact.find_of_mem
    (hm : key∈holds owner) : index.find key=some (owner,(holds owner).count key) :=
  (h key owner _).mpr ⟨count_pos.mpr hm,rfl⟩

theorem Exact.mem_of_find {entry : ω×ℕ} (hf : index.find key=some entry) :
    key∈holds entry.1 ∧ (holds entry.1).count key=entry.2 := by
  have he := (h key entry.1 entry.2).mp hf
  exact ⟨count_pos.mp (by omega),he.2⟩

theorem Exact.owner_unique {first second : ω}
    (hf : key∈holds first) (hs : key∈holds second) : first=second := by
  have he := (h.find_of_mem hf).symm.trans (h.find_of_mem hs)
  exact (Prod.mk.inj (some.inj he)).1

theorem Exact.find_eq_none (key : κ) :
    index.find key=none ↔ ∀ owner, key∉holds owner := by
  constructor
  · intro hn owner hm
    rw [h.find_of_mem hm] at hn
    cases hn
  · intro hn
    cases hf : index.find key with
    | none => rfl
    | some entry => exact absurd (h.mem_of_find hf).1 (hn entry.1)

end

variable [DecidableEq ω]

theorem Exact.acquire_eq_none (h : Exact index holds) (owner : ω) (key : κ) :
    acquire index owner key=none ↔ ∃ other, other≠owner ∧ key∈holds other := by
  unfold acquire
  cases hf : index.find key with
  | none =>
    have hn := (h.find_eq_none key).mp hf
    simp only [reduceCtorEq,false_iff,not_exists,not_and]
    exact fun other _ => hn other
  | some entry =>
    have hm := (h.mem_of_find hf).1
    by_cases he : entry.1=owner
    · simp only [if_pos he,reduceCtorEq,false_iff,not_exists,not_and]
      intro other hne ho
      exact hne ((h.owner_unique ho hm).trans he)
    · simp only [if_neg he,true_iff]
      exact ⟨entry.1,he,hm⟩

theorem Exact.release_eq_none (h : Exact index holds) (owner : ω) (key : κ) :
    release index owner key=none ↔ key∉holds owner := by
  unfold release
  cases hf : index.find key with
  | none => simp only [(h.find_eq_none key).mp hf owner,not_false_eq_true]
  | some entry =>
    have hm := (h.mem_of_find hf).1
    by_cases he : entry.1=owner
    · simp only [if_pos he,reduceCtorEq,false_iff,not_not]
      exact he ▸ hm
    · simp only [if_neg he,true_iff]
      exact fun ho => he (h.owner_unique hm ho)

variable {next : OrderedMap κ (ω×ℕ)}

section

variable (h : Exact index holds)

include h

theorem Exact.acquire_eq_some (ha : acquire index owner key=some next) :
    next=index.set key (owner,(holds owner).count key+1) ∧
      ∀ other, other≠owner → key∉holds other := by
  have hother : ∀ other, other≠owner → key∉holds other := by
    intro other hne hm
    have := (h.acquire_eq_none owner key).mpr ⟨other,hne,hm⟩
    rw [this] at ha
    cases ha
  refine ⟨?_,hother⟩
  unfold acquire at ha
  cases hf : index.find key with
  | none =>
    rw [hf] at ha
    cases ha
    rw [count_eq_zero.mpr ((h.find_eq_none key).mp hf owner)]
  | some entry =>
    rw [hf] at ha
    dsimp only at ha
    split_ifs at ha with he
    cases ha
    rw [←he,(h.mem_of_find hf).2]

theorem Exact.acquire (ha : acquire index owner key=some next) :
    Exact next (Function.update holds owner (key::ₘholds owner)) := by
  obtain ⟨rfl,hother⟩ := h.acquire_eq_some ha
  intro stored holder count
  rw [find_set]
  by_cases hk : stored=key
  · subst hk
    by_cases ho : holder=owner
    · subst ho
      simp only [if_true,update_self,count_cons_self,some.injEq,Prod.mk.injEq,true_and]
      omega
    · have hz := count_eq_zero.mpr (hother holder ho)
      simp only [if_true,update_of_ne ho,hz,some.injEq,Prod.mk.injEq,Ne.symm ho,
        false_and,false_iff]
      omega
  · rw [if_neg hk,h]
    by_cases ho : holder=owner
    · subst ho
      rw [update_self,count_cons_of_ne hk]
    · rw [update_of_ne ho]

theorem Exact.release_eq_some (hr : release index owner key=some next) :
    key∈holds owner ∧ ∀ stored, next.find stored=
      if stored=key then
        if (holds owner).count key=1 then none else some (owner,(holds owner).count key-1)
      else index.find stored := by
  have hheld : key∈holds owner := by
    by_contra hnot
    rw [(h.release_eq_none owner key).mpr hnot] at hr
    cases hr
  refine ⟨hheld,?_⟩
  unfold OwnerIndex.release at hr
  rw [h.find_of_mem hheld] at hr
  simp only [if_true,some.injEq] at hr
  intro stored
  rw [←hr]
  split_ifs with hone hk hk
  · rw [find_erase,if_pos hk]
  · rw [find_erase,if_neg hk]
  · rw [find_set,if_pos hk]
  · rw [find_set,if_neg hk]

theorem Exact.release (hr : release index owner key=some next) :
    Exact next (Function.update holds owner ((holds owner).erase key)) := by
  obtain ⟨hheld,hnext⟩ := h.release_eq_some hr
  have hpos := count_pos.mpr hheld
  intro stored holder count
  rw [hnext]
  by_cases hk : stored=key
  · subst hk
    rw [if_pos rfl]
    by_cases ho : holder=owner
    · subst ho
      rw [update_self,count_erase_self]
      split_ifs with hone
      · simp only [false_iff,not_and]
        omega
      · simp only [some.injEq,Prod.mk.injEq,true_and]
        omega
    · have hz := count_eq_zero.mpr (fun hh => ho (h.owner_unique hh hheld))
      rw [update_of_ne ho,hz]
      split_ifs with hone
      · simp only [false_iff,not_and]
        omega
      · simp only [some.injEq,Prod.mk.injEq,Ne.symm ho,false_and,false_iff]
        omega
  · rw [if_neg hk,h]
    by_cases ho : holder=owner
    · subst ho
      rw [update_self,count_erase_of_ne hk]
    · rw [update_of_ne ho]

end

end Pyrk.OwnerIndex
