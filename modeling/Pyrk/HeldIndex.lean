import Mathlib.Data.Option.Basic

/-!
# Indexes of the keys that owners hold

Every owner holds any number of keys. An index is exact when it names the owner of each held key and
nothing for the others.
-/

namespace Pyrk.HeldIndex

variable {κ ω : Type}

/-- The index names the owner of exactly the held keys. -/
def Exact (index : κ → Option ω) (holds : ω → κ → Prop) : Prop :=
  ∀ key owner, index key=some owner ↔ holds owner key

theorem exact_empty : Exact (fun _ : κ => (none : Option ω)) (fun _ _ => False) := by
  intro key owner
  simp only [reduceCtorEq]

variable {index next : κ → Option ω} {holds after : ω → κ → Prop}

section

variable (h : Exact index holds)

include h

theorem Exact.congr (hindex : ∀ key, next key=index key)
    (hholds : ∀ owner key, after owner key ↔ holds owner key) : Exact next after := by
  intro key owner
  rw [hindex,hholds]
  exact h key owner

theorem Exact.isSome_iff (key : κ) :
    (index key).isSome=true ↔ ∃ owner, holds owner key := by
  rw [Option.isSome_iff_exists]
  exact exists_congr (fun owner => h key owner)

theorem Exact.gain (owner : ω) (key : κ) (hfree : index key=none)
    (hkey : next key=some owner) (hother : ∀ other, other≠key → next other=index other)
    (hholds : ∀ holder other, after holder other ↔
      holds holder other ∨ holder=owner ∧ other=key) : Exact next after := by
  intro other holder
  rw [hholds,← h other holder]
  by_cases hsame : other=key
  · subst hsame
    rw [hkey,hfree]
    constructor
    · intro howner
      exact Or.inr ⟨(Option.some.inj howner).symm,rfl⟩
    · rintro (hnone | ⟨rfl,-⟩)
      · cases hnone
      · rfl
  · rw [hother other hsame]
    constructor
    · exact Or.inl
    · rintro (hfound | ⟨-,hkey⟩)
      · exact hfound
      · exact absurd hkey hsame

theorem Exact.lose (owner : ω) (lost : κ → Prop)
    (hlost : ∀ key, lost key → holds owner key) (hgone : ∀ key, lost key → next key=none)
    (hkept : ∀ key, ¬lost key → next key=index key)
    (hholds : ∀ holder key, after holder key ↔ holds holder key ∧ ¬(holder=owner ∧ lost key)) :
    Exact next after := by
  intro key holder
  rw [hholds,← h key holder]
  by_cases hl : lost key
  · have howner := (h key owner).mpr (hlost key hl)
    rw [hgone key hl,howner]
    constructor
    · intro hnone
      cases hnone
    · rintro ⟨hfound,hnot⟩
      exact absurd ⟨(Option.some.inj hfound).symm,hl⟩ hnot
  · rw [hkept key hl]
    constructor
    · intro hfound
      exact ⟨hfound,fun hboth => hl hboth.2⟩
    · exact And.left

theorem Exact.leave (owner : ω)
    (hgone : ∀ key, index key=some owner → next key=none)
    (hkept : ∀ key, index key≠some owner → next key=index key)
    (hholds : ∀ holder key, after holder key ↔ holds holder key ∧ holder≠owner) :
    Exact next after := by
  refine h.lose owner (holds owner) (fun _ hl => hl) ?_ ?_ ?_
  · intro key hl
    exact hgone key ((h key owner).mpr hl)
  · intro key hl
    exact hkept key (fun hfound => hl ((h key owner).mp hfound))
  · intro holder key
    rw [hholds]
    constructor
    · rintro ⟨hheld,hne⟩
      exact ⟨hheld,fun hboth => hne hboth.1⟩
    · rintro ⟨hheld,hnot⟩
      refine ⟨hheld,?_⟩
      intro heq
      exact hnot ⟨heq,heq ▸ hheld⟩

end

end Pyrk.HeldIndex
