import Mathlib.Data.Option.Basic

/-!
# Layers of changes over a map

A layer keeps the keys that were written and deleted since it was empty. A store that takes them
shows what the layer showed over it before.
-/

namespace Pyrk.Layers

open Function List

/-- Written and deleted keys. -/
structure Layer (κ ν : Type) where
  written : κ → Option ν
  deleted : κ → Bool

namespace Layer

variable {κ ν : Type}

/-- No changes. -/
def empty : Layer κ ν := ⟨fun _ => none,fun _ => false⟩

/-- A map with the changes of a layer. -/
def shown (layer : Layer κ ν) (base : κ → Option ν) (key : κ) : Option ν :=
  if layer.deleted key then none else (layer.written key).or (base key)

/-- No key is both written and deleted. -/
def Separate (layer : Layer κ ν) : Prop := ∀ key, layer.deleted key=true → layer.written key=none

theorem separate_empty : (empty : Layer κ ν).Separate := fun _ h => absurd h Bool.false_ne_true

variable [DecidableEq κ]

def write (layer : Layer κ ν) (key : κ) (value : ν) : Layer κ ν :=
  ⟨Function.update layer.written key (some value),Function.update layer.deleted key false⟩

/-- Delete a key. -/
def erase (layer : Layer κ ν) (key : κ) : Layer κ ν :=
  ⟨Function.update layer.written key none,Function.update layer.deleted key true⟩

/-- What is written in a layer is seen through it. -/
theorem shown_write (layer : Layer κ ν) (base : κ → Option ν) (key : κ) (value : ν) :
    (layer.write key value).shown base=Function.update (layer.shown base) key (some value) := by
  funext other
  unfold shown write
  by_cases he : other=key
  · subst he
    simp only [update_self,Bool.false_eq_true,if_false,Option.some_or]
  · simp only [update_of_ne he]

theorem shown_erase (layer : Layer κ ν) (base : κ → Option ν) (key : κ) :
    (layer.erase key).shown base=Function.update (layer.shown base) key none := by
  funext other
  unfold shown erase
  by_cases he : other=key
  · subst he
    simp only [update_self,if_true]
  · simp only [update_of_ne he]

theorem Separate.write {layer : Layer κ ν} (h : layer.Separate) (key : κ) (value : ν) :
    (layer.write key value).Separate := by
  intro other hdeleted
  unfold Layer.write at hdeleted ⊢
  by_cases he : other=key
  · subst he
    simp only [update_self,Bool.false_eq_true] at hdeleted
  · simp only [update_of_ne he] at hdeleted ⊢
    exact h other hdeleted

theorem Separate.erase {layer : Layer κ ν} (h : layer.Separate) (key : κ) :
    (layer.erase key).Separate := by
  intro other hdeleted
  unfold Layer.erase at hdeleted ⊢
  by_cases he : other=key
  · subst he
    exact update_self _ _ _
  · simp only [update_of_ne he] at hdeleted ⊢
    exact h other hdeleted

end Layer

/-- A store that keys can be deleted from and values written to. -/
structure Target (σ κ ω ν : Type) [DecidableEq κ] where
  content : σ → κ → Option ν
  image : ω → ν
  erase : σ → κ → σ
  write : σ → κ → ω → σ
  content_erase : ∀ store key, content (erase store key)=Function.update (content store) key none
  content_write : ∀ store key value,
    content (write store key value)=Function.update (content store) key (some (image value))

namespace Target

variable {σ κ ω ν : Type} [DecidableEq κ] (target : Target σ κ ω ν)

/-- Take all deletions and then all writes. -/
def take (deletes : List κ) (writes : List (κ×ω)) (store : σ) : σ :=
  writes.foldl (fun store entry => target.write store entry.1 entry.2)
    (deletes.foldl target.erase store)

/-- Erased keys are gone below. -/
theorem content_erases (deletes : List κ) (store : σ) (key : κ) :
    target.content (deletes.foldl target.erase store) key=
      if key∈deletes then none else target.content store key := by
  induction deletes generalizing store with
  | nil => rw [foldl_nil,if_neg not_mem_nil]
  | cons first deletes ih =>
    rw [foldl_cons,ih,target.content_erase]
    by_cases he : key=first
    · subst he
      rw [update_self,ite_self,if_pos mem_cons_self]
    · rw [update_of_ne he]
      simp only [mem_cons,he,false_or]

theorem content_writes {layer : Layer κ ν} {writes : List (κ×ω)}
    (hwrites : ∀ entry∈writes, layer.written entry.1=some (target.image entry.2)) (store : σ)
    (key : κ) :
    target.content (writes.foldl (fun store entry => target.write store entry.1 entry.2) store) key=
      if key∈writes.map Prod.fst then layer.written key else target.content store key := by
  induction writes generalizing store with
  | nil => rw [foldl_nil,map_nil,if_neg not_mem_nil]
  | cons entry writes ih =>
    rw [forall_mem_cons] at hwrites
    rw [foldl_cons,ih hwrites.2,target.content_write]
    by_cases he : key=entry.1
    · subst he
      rw [update_self,← hwrites.1,ite_self,map_cons,if_pos mem_cons_self]
    · rw [update_of_ne he]
      simp only [map_cons,mem_cons,he,false_or]

/-- What was seen through a layer is the content below once the layer is written. -/
theorem content_take {layer : Layer κ ν} {deletes : List κ} {writes : List (κ×ω)}
    (hdeletes : ∀ key, key∈deletes ↔ layer.deleted key=true)
    (hwrites : ∀ entry∈writes, layer.written entry.1=some (target.image entry.2))
    (hall : ∀ key, (layer.written key).isSome=true → key∈writes.map Prod.fst)
    (hseparate : layer.Separate) (store : σ) :
    target.content (target.take deletes writes store)=layer.shown (target.content store) := by
  funext key
  unfold take Layer.shown
  rw [target.content_writes hwrites,target.content_erases]
  by_cases hdeleted : layer.deleted key=true
  · have hnone := hseparate key hdeleted
    rw [if_pos hdeleted,hnone,if_pos ((hdeletes key).mpr hdeleted),ite_self]
  · rw [if_neg hdeleted,if_neg (fun hm => hdeleted ((hdeletes key).mp hm))]
    cases hwritten : layer.written key with
    | some value =>
      have hm := hall key (by rw [hwritten]; rfl)
      rw [if_pos hm,Option.some_or]
    | none =>
      have hm : key∉writes.map Prod.fst := by
        intro hm
        obtain ⟨entry,hentry,rfl⟩ := mem_map.mp hm
        rw [hwrites entry hentry] at hwritten
        cases hwritten
      rw [if_neg hm,Option.none_or]

end Target

end Pyrk.Layers
