import Mathlib.Data.List.Basic

/-!
# Code that may fail

Rules for computations that return a value or fail: a sequence succeeds when
both parts do, and what every step preserves holds after a fold of steps.
-/

namespace Pyrk

open List

variable {ε α β : Type}

theorem bind_eq_ok {x : Except ε α} {f : α → Except ε β} {result : β} :
    (x>>=f)=.ok result ↔ ∃ value, x=.ok value ∧ f value=.ok result := by
  cases x with
  | error failure => simp only [bind,Except.bind,reduceCtorEq,false_and,exists_false]
  | ok value => simp only [bind,Except.bind,Except.ok.injEq,exists_eq_left']

theorem ok_bind (value : α) (f : α → Except ε β) : ((Except.ok value)>>=f)=f value := rfl

theorem eq_ok_of_toOption {result : Except ε α} {value : α}
    (h : result.toOption=some value) : result=.ok value := by
  cases result with
  | error failure => cases h
  | ok found =>
    cases h
    rfl

theorem exists_ok {result : Except ε α} (h : result.toOption.isSome=true) :
    ∃ value, result=.ok value := by
  obtain ⟨value,hvalue⟩ := Option.isSome_iff_exists.mp h
  exact ⟨value,eq_ok_of_toOption hvalue⟩

theorem foldlM_invariant {step : β → α → Except ε β} {P : β → Prop}
    {inputs : List α} (hstep : ∀ {st next : β} {input : α}, input∈inputs → P st →
      step st input=.ok next → P next) {st final : β} (hstart : P st)
    (hrun : inputs.foldlM step st=.ok final) : P final := by
  induction inputs generalizing st with
  | nil =>
    cases hrun
    exact hstart
  | cons input inputs ih =>
    rw [foldlM_cons,bind_eq_ok] at hrun
    obtain ⟨next,hnext,hrest⟩ := hrun
    exact ih (fun hm => hstep (mem_cons_of_mem _ hm)) (hstep mem_cons_self hstart hnext) hrest

theorem foldlM_perm {step : β → α → Except ε β} {P : β → Prop} {inputs others : List α}
    (hperm : inputs.Perm others)
    (hstep : ∀ {st next : β} {input : α}, input∈inputs → P st →
      step st input=.ok next → P next)
    (hcomm : ∀ {st : β} {first second : α}, first∈inputs → second∈inputs → P st →
      (step st first>>=(step · second))=(step st second>>=(step · first)))
    {st : β} (hstart : P st) : inputs.foldlM step st=others.foldlM step st := by
  induction hperm generalizing st with
  | nil => rfl
  | cons input hperm ih =>
    rw [foldlM_cons,foldlM_cons]
    cases hnext : step st input with
    | error failure => rfl
    | ok next =>
      exact ih (fun hm => hstep (mem_cons_of_mem _ hm))
        (fun hfirst hsecond => hcomm (mem_cons_of_mem _ hfirst) (mem_cons_of_mem _ hsecond))
        (hstep mem_cons_self hstart hnext)
  | swap first second inputs =>
    have hboth := hcomm mem_cons_self (mem_cons_of_mem _ mem_cons_self) hstart
    simp only [foldlM_cons,← bind_assoc]
    rw [hboth]
  | trans hleft hright ihleft ihright =>
    rw [ihleft hstep hcomm hstart]
    exact ihright (fun hm => hstep (hleft.mem_iff.mpr hm))
      (fun hfirst hsecond => hcomm (hleft.mem_iff.mpr hfirst) (hleft.mem_iff.mpr hsecond)) hstart

end Pyrk
