import Pyrk.OrderedMap

/-!
# Indexes of what is claimed

Owners claim at most one key each. An index is exact when it finds the owner of every claimed key
and nothing else. It stays so when an owner claims a free key or gives up its key.
-/

namespace Pyrk.ClaimIndex

open OrderedMap Function Option

variable {κ ω : Type}

section Maps

variable [LinearOrder κ]

/-- The index finds exactly the owners of claimed keys. -/
def Indexes (index : OrderedMap κ ω) (claims : ω → Option κ) : Prop :=
  ∀ key owner, index.find key=some owner ↔ claims owner=some key

/-- Store the owner of a key, if there is one and nobody has it. -/
def emplaceKey (index : OrderedMap κ ω) (key : Option κ) (owner : ω) : OrderedMap κ ω :=
  match key with
  | none => index
  | some key => index.emplace key owner

def eraseKey (index : OrderedMap κ ω) (key : Option κ) : OrderedMap κ ω :=
  match key with
  | none => index
  | some key => index.erase key

theorem indexes_empty : Indexes (OrderedMap.empty : OrderedMap κ ω) (fun _ => none) := by
  intro key owner
  simp [find_empty]

variable {index : OrderedMap κ ω} {claims : ω → Option κ}

theorem Indexes.owner_unique (h : Indexes index claims) {key : κ} {first second : ω}
    (hfirst : claims first=some key) (hsecond : claims second=some key) : first=second := by
  have hfound := (h key first).mpr hfirst
  rw [(h key second).mpr hsecond] at hfound
  exact (some.inj hfound).symm

theorem Indexes.find_eq_none (h : Indexes index claims) {key : κ} :
    index.find key=none ↔ ∀ owner, claims owner≠some key := by
  constructor
  · intro hnone owner hclaim
    rw [(h key owner).mpr hclaim] at hnone
    cases hnone
  · intro hfree
    cases hfind : index.find key with
    | none => rfl
    | some owner => exact absurd ((h key owner).mp hfind) (hfree owner)

variable [DecidableEq ω]

theorem Indexes.emplaceKey (h : Indexes index claims) {key : Option κ} {owner : ω}
    (hnew : claims owner=none) (hfree : ∀ wanted, key=some wanted → index.find wanted=none) :
    Indexes (ClaimIndex.emplaceKey index key owner) (Function.update claims owner key) := by
  intro wanted holder
  cases key with
  | none =>
    have hsame : Function.update claims owner none=claims := by
      rw [← hnew,update_eq_self]
    rw [hsame]
    exact h wanted holder
  | some key =>
    have hkey := hfree key rfl
    simp only [ClaimIndex.emplaceKey,find_emplace]
    by_cases hholder : holder=owner
    · subst hholder
      rw [update_self]
      by_cases hw : wanted=key
      · simp [hw,hkey]
      · have hnone : index.find wanted≠some holder := by
          rw [Ne,h wanted holder,hnew]
          exact some_ne_none wanted ∘ Eq.symm
        simp [hw,hnone,Ne.symm hw]
    · rw [update_of_ne hholder,← h wanted holder]
      by_cases hw : wanted=key
      · simp [hw,hkey,Ne.symm hholder]
      · simp [hw]

theorem Indexes.eraseKey (h : Indexes index claims) (owner : ω) :
    Indexes (ClaimIndex.eraseKey index (claims owner)) (Function.update claims owner none) := by
  intro wanted holder
  cases hkey : claims owner with
  | none =>
    have hsame : Function.update claims owner none=claims := by
      rw [← hkey,update_eq_self]
    rw [hsame]
    exact h wanted holder
  | some key =>
    simp only [ClaimIndex.eraseKey,find_erase]
    by_cases hholder : holder=owner
    · subst hholder
      rw [update_self]
      by_cases hw : wanted=key
      · simp [hw]
      · have hnone : index.find wanted≠some holder := by
          rw [Ne,h wanted holder,hkey,some.injEq]
          exact fun he => hw he.symm
        simp [hw,hnone]
    · rw [update_of_ne hholder,← h wanted holder]
      by_cases hw : wanted=key
      · have hfound := (h key owner).mpr hkey
        simp [hw,hfound,Ne.symm hholder]
      · simp [hw]

end Maps

/-- The list holds every claim once. -/
structure Lists (claimed : List κ) (claims : ω → Option κ) : Prop where
  nodup : claimed.Nodup
  mem_iff : ∀ key, key∈claimed ↔ ∃ owner, claims owner=some key

theorem lists_nil : Lists ([] : List κ) (fun _ : ω => none) :=
  ⟨List.nodup_nil,fun _ => by simp⟩

variable [DecidableEq ω] [DecidableEq κ] {claimed : List κ} {claims : ω → Option κ}

omit [DecidableEq κ] in
theorem Lists.append (h : Lists claimed claims) {key : Option κ} {owner : ω}
    (hnew : claims owner=none) (hfree : ∀ wanted, key=some wanted → ¬wanted∈claimed) :
    Lists (claimed++key.toList) (Function.update claims owner key) := by
  constructor
  · rw [List.nodup_append]
    refine ⟨h.nodup,by cases key <;> simp,?_⟩
    intro wanted hwanted other hother he
    rw [mem_toList] at hother
    exact hfree other hother (he ▸ hwanted)
  · intro wanted
    rw [List.mem_append,mem_toList,h.mem_iff]
    constructor
    · rintro (⟨holder,hholder⟩ | hkey)
      · have hne : holder≠owner := by
          rintro rfl
          rw [hnew] at hholder
          cases hholder
        exact ⟨holder,(update_of_ne hne _ _).trans hholder⟩
      · exact ⟨owner,(update_self _ _ _).trans hkey⟩
    · rintro ⟨holder,hholder⟩
      by_cases he : holder=owner
      · subst he
        rw [update_self] at hholder
        exact Or.inr hholder
      · rw [update_of_ne he] at hholder
        exact Or.inl ⟨holder,hholder⟩

theorem Lists.filter (h : Lists claimed claims) {owner : ω} {dropped : Option κ}
    (hown : ∀ key, claims owner=some key → dropped=some key)
    (hapart : ∀ key, dropped=some key → ∀ other, other≠owner → claims other≠some key) :
    Lists (claimed.filter (fun key => !decide (dropped=some key)))
      (Function.update claims owner none) := by
  refine ⟨h.nodup.filter _,?_⟩
  intro key
  rw [List.mem_filter,h.mem_iff,Bool.not_eq_true',decide_eq_false_iff_not]
  constructor
  · rintro ⟨⟨holder,hholder⟩,hkept⟩
    have hne : holder≠owner := by
      rintro rfl
      exact hkept (hown key hholder)
    exact ⟨holder,(update_of_ne hne _ _).trans hholder⟩
  · rintro ⟨holder,hholder⟩
    have hne : holder≠owner := by
      rintro rfl
      rw [update_self] at hholder
      cases hholder
    rw [update_of_ne hne] at hholder
    exact ⟨⟨holder,hholder⟩,fun hdropped => hapart key hdropped holder hne hholder⟩

end Pyrk.ClaimIndex
