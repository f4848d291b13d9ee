import Mathlib.Data.List.Rotate
import Mathlib.Data.List.Sort
import Mathlib.Data.Prod.Lex

/-!
# Turns by rank

Whoever has the least rank is next, and a turn gives a new rank. As long as it is greater than all
others the members go round in a queue.
-/

namespace Pyrk.Rotation

open Function List

variable {κ : Type}

def turnOrder (rank : κ → ℤ) (member : κ) : ℤ×ₗκ := toLex (rank member,member)

theorem turnOrder_injective (rank : κ → ℤ) : Function.Injective (turnOrder rank) := by
  intro first second he
  exact (Prod.mk.inj (toLex.injective he)).2

/-- Members of a queue, the first one last after its turn. -/
def turns : ℕ → List κ → List κ
  | 0,_ => []
  | _+1,[] => []
  | count+1,member::queue => member::turns count (queue++[member])

@[simp] theorem turns_nil (count : ℕ) : turns count ([] : List κ)=[] := by
  cases count <;> rfl

theorem turns_add (first second : ℕ) (queue : List κ) :
    turns (first+second) queue=turns first queue++turns second (queue.rotate first) := by
  induction first generalizing queue with
  | zero => simp [turns]
  | succ first ih =>
    cases queue with
    | nil => simp
    | cons member queue =>
      rw [Nat.succ_add,turns,turns,ih,rotate_cons_succ,cons_append]

theorem turns_append (served waiting : List κ) : turns served.length (served++waiting)=served := by
  induction served generalizing waiting with
  | nil => rfl
  | cons member served ih =>
    rw [length_cons,cons_append,turns,append_assoc,ih]

theorem turns_length (queue : List κ) : turns queue.length queue=queue := by
  have h := turns_append queue []
  rwa [append_nil] at h

theorem length_turns (count : ℕ) {queue : List κ} (hne : queue≠[]) :
    (turns count queue).length=count := by
  induction count generalizing queue with
  | zero => rfl
  | succ count ih =>
    obtain ⟨member,rest,rfl⟩ := exists_cons_of_ne_nil hne
    rw [turns,length_cons,ih (by simp)]

theorem mem_of_mem_turns {count : ℕ} {queue : List κ} {member : κ} (hm : member∈turns count queue) :
    member∈queue := by
  induction count generalizing queue with
  | zero => simp [turns] at hm
  | succ count ih =>
    cases queue with
    | nil => simp at hm
    | cons first queue =>
      rw [turns,mem_cons] at hm
      rcases hm with rfl | hm
      · exact mem_cons_self
      · have hrest := ih hm
        rw [mem_append,mem_singleton] at hrest
        rw [mem_cons]
        exact hrest.symm

theorem turns_window {count : ℕ} {queue before window after : List κ}
    (hturns : turns count queue=before++window++after) (hwindow : window.length=queue.length) :
    window.Perm queue := by
  cases hqueue : queue with
  | nil =>
    rw [hqueue,length_nil,length_eq_zero_iff] at hwindow
    rw [hwindow]
  | cons member rest =>
    have hne : queue≠[] := by simp [hqueue]
    rw [← hqueue]
    have hcount : count=before.length+(queue.length+after.length) := by
      rw [← length_turns count hne,hturns]
      simp [hwindow]
    rw [hcount,turns_add,turns_add,append_assoc] at hturns
    have hbefore : (turns before.length queue).length=before.length := length_turns _ hne
    have hrest := (append_inj hturns hbefore).2
    have hrotate : (queue.rotate before.length).length=queue.length := length_rotate _ _
    rw [← hrotate,turns_length] at hrest
    rw [← (append_inj hrest (by rw [hrotate,hwindow])).1]
    exact rotate_perm _ _

theorem turns_eq_iff {served first second : List κ} {left right : κ} (hne : left≠right)
    (count : ℕ) :
    turns count (served++left::first)=turns count (served++right::second) ↔
      count ≤ served.length := by
  constructor
  · intro he
    by_contra hlt
    obtain ⟨more,rfl⟩ : ∃ more, count=served.length+(more+1) := ⟨count-served.length-1,by omega⟩
    have hturns : ∀ (next : κ) (rest : List κ), turns (served.length+(more+1)) (served++next::rest)=
          served++next::turns more ((rest++served)++[next]) := by
      intro next rest
      rw [turns_add,turns_append,rotate_append_length_eq,cons_append,turns]
    rw [hturns,hturns,append_cancel_left_eq,List.cons.injEq] at he
    exact hne he.1
  · intro hle
    have htake : ∀ waiting : List κ, turns count (served++waiting)=served.take count := by
      intro waiting
      have hlen : (served.take count).length=count := by
        rw [length_take,min_eq_left hle]
      have h := turns_append (served.take count) (served.drop count++waiting)
      rwa [← append_assoc,take_append_drop,hlen] at h
    rw [htake,htake]

variable [LinearOrder κ]

theorem turnOrder_lt {rank : κ → ℤ} {first second : κ} :
    turnOrder rank first < turnOrder rank second ↔
      rank first < rank second ∨ rank first=rank second ∧ first < second := Prod.Lex.lt_iff

/-- All members in the order of their turns. -/
structure IsQueue (rank : κ → ℤ) (members : κ → Prop) (queue : List κ) : Prop where
  sorted : queue.Pairwise (fun first second => turnOrder rank first < turnOrder rank second)
  mem : ∀ member, member∈queue ↔ members member

variable {rank : κ → ℤ} {members : κ → Prop} {queue : List κ}

theorem exists_queue (rank : κ → ℤ) (waiting : List κ) (hnodup : waiting.Nodup) :
    ∃ queue, IsQueue rank (fun member => member∈waiting) queue ∧ queue.Perm waiting := by
  let before (first second : κ) : Prop := turnOrder rank first≤turnOrder rank second
  have hperm := perm_insertionSort before waiting
  have : Std.Total before := ⟨fun first second => le_total _ _⟩
  have : IsTrans κ before := ⟨fun _ _ _ => le_trans⟩
  refine ⟨waiting.insertionSort before,⟨?_,fun member => hperm.mem_iff⟩,hperm⟩
  refine ((pairwise_insertionSort before waiting).and (hperm.nodup_iff.mpr hnodup)).imp ?_
  intro first second h
  exact lt_of_le_of_ne h.1 (fun he => h.2 (turnOrder_injective rank he))

theorem IsQueue.nodup (h : IsQueue rank members queue) : queue.Nodup :=
  h.sorted.imp (fun hlt he => absurd (he ▸ hlt) (lt_irrefl _))

theorem IsQueue.turn {member : κ} (h : IsQueue rank members (member::queue)) {mark : ℤ}
    (hmark : ∀ other∈queue, rank other < mark) :
    IsQueue (Function.update rank member mark) members (queue++[member]) := by
  obtain ⟨hfirst,hsorted⟩ := pairwise_cons.mp h.sorted
  have hnot : member∉queue := (nodup_cons.mp h.nodup).1
  have hother : ∀ other∈queue, Function.update rank member mark other=rank other := by
    intro other hm
    refine update_of_ne ?_ _ _
    rintro rfl
    exact hnot hm
  refine ⟨pairwise_append.mpr ⟨?_,pairwise_singleton _ _,?_⟩,fun found => ?_⟩
  · refine hsorted.imp_of_mem ?_
    intro first second hf hs hlt
    rw [turnOrder_lt] at hlt ⊢
    rwa [hother first hf,hother second hs]
  · intro other hm last hlast
    rw [mem_singleton.mp hlast,turnOrder_lt,hother other hm,update_self]
    exact Or.inl (hmark other hm)
  · rw [← h.mem found,mem_append,mem_singleton,mem_cons,or_comm]

/-- After a turn with a rank that nobody exceeds a member is among those with this rank. -/
theorem IsQueue.turn_among {member : κ} (h : IsQueue rank members (member::queue)) {mark : ℤ}
    (hmark : ∀ other∈queue, rank other ≤ mark) :
    ∃ served late, queue=served++late ∧
      IsQueue (Function.update rank member mark) members (served++member::late) ∧
      late.length=(queue.filter (fun other => decide (rank other=mark) &&
        decide (member < other))).length := by
  obtain ⟨hfirst,hsorted⟩ := pairwise_cons.mp h.sorted
  have hnot : member∉queue := (nodup_cons.mp h.nodup).1
  let isLate (other : κ) : Bool := decide (rank other=mark) && decide (member < other)
  have hlate : ∀ other, isLate other=true ↔ rank other=mark ∧ member < other := by
    intro other
    simp [isLate]
  have hother : ∀ other∈queue, Function.update rank member mark other=rank other := by
    intro other hm
    refine update_of_ne ?_ _ _
    rintro rfl
    exact hnot hm
  -- whoever comes behind a late member is late, too
  have hsplit : ∀ rest : List κ, (∀ other∈rest, other∈queue) → rest.Pairwise (fun first second =>
      turnOrder rank first < turnOrder rank second) →
      rest=rest.filter (fun other => !isLate other)++rest.filter isLate := by
    intro rest hrest hpairwise
    induction rest with
    | nil => rfl
    | cons first rest ih =>
      obtain ⟨hbefore,hpairwise⟩ := pairwise_cons.mp hpairwise
      have htail := ih (fun other hm => hrest other (mem_cons_of_mem _ hm)) hpairwise
      cases hcase : isLate first with
      | false =>
        rw [filter_cons_of_pos (by simp [hcase]),filter_cons_of_neg (by simp [hcase]),
          cons_append,← htail]
      | true =>
        obtain ⟨hrank,hless⟩ := (hlate first).mp hcase
        have hall : ∀ other∈rest, isLate other=true := by
          intro other hm
          have hlt := turnOrder_lt.mp (hbefore other hm)
          have hle := hmark other (hrest other (mem_cons_of_mem _ hm))
          refine (hlate other).mpr ⟨by omega,?_⟩
          rcases hlt with hlt | ⟨-,hlt⟩
          · omega
          · exact hless.trans hlt
        rw [filter_eq_nil_iff.mpr,nil_append,filter_eq_self.mpr]
        · intro other hm
          rcases mem_cons.mp hm with rfl | hm
          · exact hcase
          · exact hall other hm
        · intro other hm
          rcases mem_cons.mp hm with rfl | hm
          · simp [hcase]
          · simp [hall other hm]
  have hqueue := hsplit queue (fun _ hm => hm) hsorted
  refine ⟨_,_,hqueue,⟨?_,fun found => ?_⟩,rfl⟩
  · have hkept : (queue.filter (fun other => !isLate other)++queue.filter isLate).Pairwise
        (fun first second => turnOrder (Function.update rank member mark) first <
          turnOrder (Function.update rank member mark) second) := by
      rw [← hqueue]
      refine hsorted.imp_of_mem ?_
      intro first second hf hs hlt
      rw [turnOrder_lt] at hlt ⊢
      rwa [hother first hf,hother second hs]
    obtain ⟨hserved,hlates,hcross⟩ := pairwise_append.mp hkept
    refine pairwise_append.mpr ⟨hserved,pairwise_cons.mpr ⟨?_,hlates⟩,?_⟩
    · intro other hm
      obtain ⟨hm,hcase⟩ := mem_filter.mp hm
      rw [turnOrder_lt,update_self,hother other hm]
      exact Or.inr ⟨((hlate other).mp hcase).1.symm,((hlate other).mp hcase).2⟩
    · intro other hserved last hlast
      rcases mem_cons.mp hlast with rfl | hlast
      · obtain ⟨hm,hcase⟩ := mem_filter.mp hserved
        rw [turnOrder_lt,update_self,hother other hm]
        have hle := hmark other hm
        have hnotLate : ¬(rank other=mark ∧ last < other) := by
          rw [← hlate]
          simpa using hcase
        rcases lt_or_eq_of_le hle with hlt | heq
        · exact Or.inl hlt
        · refine Or.inr ⟨heq,lt_of_le_of_ne (not_lt.mp (fun hlt => hnotLate ⟨heq,hlt⟩)) ?_⟩
          rintro rfl
          exact hnot hm
      · exact hcross other hserved last hlast
  · rw [← h.mem found,mem_append,mem_cons,mem_cons,or_left_comm,← mem_append,← hqueue]

end Pyrk.Rotation
