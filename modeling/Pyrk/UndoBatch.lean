import Mathlib.Data.List.Basic
import Mathlib.Data.List.Induction

/-!
# Batches of writes and their undoing

A batch writes or erases keys in order. Changes are undone back to front, so that what is left under
a key is what its first change restores.
-/

namespace Pyrk.UndoBatch

open Function List

variable {κ ν : Type} [DecidableEq κ]

/-- Write and erase keys in order; no value stands for an erased key. -/
def applyBatch (batch : List (κ×Option ν)) (index : κ → Option ν) : κ → Option ν :=
  batch.foldl (fun index entry => Function.update index entry.1 entry.2) index

@[simp] theorem applyBatch_nil (index : κ → Option ν) : applyBatch [] index=index := rfl

@[simp] theorem applyBatch_cons (entry : κ×Option ν) (batch : List (κ×Option ν))
    (index : κ → Option ν) :
    applyBatch (entry::batch) index=applyBatch batch (Function.update index entry.1 entry.2) := rfl

theorem applyBatch_append (first second : List (κ×Option ν)) (index : κ → Option ν) :
    applyBatch (first++second) index=applyBatch second (applyBatch first index) :=
  foldl_append

variable {batch : List (κ×Option ν)}

theorem applyBatch_apply (batch : List (κ×Option ν)) (index : κ → Option ν) (key : κ) :
    applyBatch batch index key=
      match batch.reverse.find? (fun entry => entry.1=key) with
      | some entry => entry.2
      | none => index key := by
  induction batch using List.reverseRecOn with
  | nil => rfl
  | append_singleton batch entry ih =>
    rw [applyBatch_append,applyBatch_cons,applyBatch_nil,reverse_append,reverse_singleton,
      singleton_append,List.find?_cons]
    by_cases hkey : entry.1=key
    · rw [decide_eq_true hkey,← hkey,update_self]
    · rw [decide_eq_false hkey,update_of_ne (Ne.symm hkey),ih]

theorem applyBatch_eq_self_iff (batch : List (κ×Option ν)) (index : κ → Option ν) :
    applyBatch batch index=index ↔
      ∀ key entry, batch.reverse.find? (fun entry => entry.1=key)=some entry →
        index key=entry.2 := by
  constructor
  · intro h key entry hlast
    have hkey := applyBatch_apply batch index key
    rw [h,hlast] at hkey
    exact hkey
  · intro h
    funext key
    rw [applyBatch_apply]
    cases hlast : batch.reverse.find? (fun entry => entry.1=key) with
    | none => rfl
    | some entry => exact (h key entry hlast).symm

theorem map_flatMap_eq_map_filterMap {α β γ δ : Type} {events : List α} {batch : α → List β}
    {write : β → γ} {change : α → Option δ} {entry : δ → γ}
    (h : ∀ event∈events, (batch event).map write=((change event).map entry).toList) :
    (events.flatMap batch).map write=(events.filterMap change).map entry := by
  induction events with
  | nil => rfl
  | cons event events ih =>
    rw [flatMap_cons,map_append,h event mem_cons_self,
      ih (fun other hm => h other (mem_cons_of_mem _ hm)),filterMap_cons]
    cases change event <;> rfl

/-- A change of one key with what undoing it writes. -/
structure Change (κ ν : Type) where
  key : κ
  value : Option ν
  undo : Option ν

variable (changes : List (Change κ ν))

/-- Undo changes back to front. -/
def undo (index : κ → Option ν) : κ → Option ν :=
  applyBatch (changes.reverse.map (fun change => (change.key,change.undo))) index

end Pyrk.UndoBatch
