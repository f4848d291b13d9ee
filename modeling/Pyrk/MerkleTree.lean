import Mathlib.Data.List.Nodup
import Mathlib.Tactic.Ring
import Mathlib.Tactic.Linarith

/-!
# Hash trees whose last node may count twice

The left half of a tree is filled first, and a node without a right half combines the left one with
itself.
-/

namespace Pyrk.MerkleTree

open List

variable {α : Type} [Inhabited α] (node : α → α → α)

def treeHash : ℕ → List α → α
  | 0,leaves => leaves.headD default
  | height+1,leaves =>
    if leaves.length ≤ 2^height then node (treeHash height leaves) (treeHash height leaves)
    else node (treeHash height (leaves.take (2^height))) (treeHash height (leaves.drop (2^height)))

/-- Leaves under a position at a height. -/
def block (leaves : List α) (height pos : ℕ) : List α :=
  (leaves.drop (pos*2^height)).take (2^height)

/-- Hash at a position and a height. -/
def nodeAt (leaves : List α) (height pos : ℕ) : α := treeHash node height (block leaves height pos)

section Blocks

variable {leaves : List α} {height pos : ℕ}

omit [Inhabited α] in
theorem length_block (leaves : List α) (height pos : ℕ) :
    (block leaves height pos).length=min (2^height) (leaves.length-pos*2^height) := by
  rw [block,length_take,length_drop]

omit [Inhabited α] in
theorem take_block (leaves : List α) (height pos : ℕ) :
    (block leaves (height+1) pos).take (2^height)=block leaves height (2*pos) := by
  have hle : 2^height ≤ 2^(height+1) := Nat.pow_le_pow_right (by omega) (by omega)
  have hstart : pos*2^(height+1)=2*pos*2^height := by ring
  rw [block,block,take_take,min_eq_left hle,hstart]

omit [Inhabited α] in
theorem drop_block (leaves : List α) (height pos : ℕ) :
    (block leaves (height+1) pos).drop (2^height)=block leaves height (2*pos+1) := by
  have hrest : 2^(height+1)-2^height=2^height := by
    rw [pow_succ]
    omega
  have hstart : pos*2^(height+1)+2^height=(2*pos+1)*2^height := by ring
  rw [block,block,drop_take,drop_drop,hrest,hstart]

omit [Inhabited α] in
theorem block_of_single (hsingle : leaves.length ≤ (2*pos+1)*2^height) :
    block leaves (height+1) pos=block leaves height (2*pos) := by
  have hlen : (block leaves (height+1) pos).length ≤ 2^height := by
    have hstart : pos*2^(height+1)=2*pos*2^height := by ring
    have hnext : (2*pos+1)*2^height=2*pos*2^height+2^height := by ring
    rw [length_block,hstart]
    omega
  rw [← take_block,take_of_length_le hlen]

theorem nodeAt_zero (hpos : pos<leaves.length) : nodeAt node leaves 0 pos=leaves[pos] := by
  rw [nodeAt,treeHash,block,pow_zero,mul_one,take_one,List.head?_drop,List.getElem?_eq_getElem hpos]
  rfl

theorem nodeAt_pair (hpair : (2*pos+1)*2^height<leaves.length) :
    nodeAt node leaves (height+1) pos=
      node (nodeAt node leaves height (2*pos)) (nodeAt node leaves height (2*pos+1)) := by
  have hlen : ¬(block leaves (height+1) pos).length ≤ 2^height := by
    have hstart : pos*2^(height+1)=2*pos*2^height := by ring
    have hnext : (2*pos+1)*2^height=2*pos*2^height+2^height := by ring
    have hdouble : 2^(height+1)=2^height+2^height := by ring
    have hpositive := Nat.two_pow_pos height
    rw [length_block,hstart]
    omega
  rw [nodeAt,treeHash,if_neg hlen,take_block,drop_block]
  rfl

theorem nodeAt_single (hsingle : leaves.length ≤ (2*pos+1)*2^height) :
    nodeAt node leaves (height+1) pos=
      node (nodeAt node leaves height (2*pos)) (nodeAt node leaves height (2*pos)) := by
  have hlen : (block leaves (height+1) pos).length ≤ 2^height := by
    rw [block_of_single hsingle,length_block]
    exact min_le_left _ _
  rw [nodeAt,treeHash,if_pos hlen,block_of_single hsingle]
  rfl

omit [Inhabited α] in
theorem block_all (hheight : leaves.length ≤ 2^height) : block leaves height 0=leaves := by
  rw [block,Nat.zero_mul,drop_zero,take_of_length_le hheight]

end Blocks

variable {node}

/-- Some node has two equal halves that are full. -/
def Repeats (node : α → α → α) : ℕ → List α → Prop
  | 0,_ => False
  | height+1,leaves =>
    if leaves.length ≤ 2^height then Repeats node height leaves
    else Repeats node height (leaves.take (2^height)) ∨
      Repeats node height (leaves.drop (2^height)) ∨
      leaves.length=2^(height+1) ∧ treeHash node height (leaves.take (2^height))=
        treeHash node height (leaves.drop (2^height))

/-- Trees of the same height with the same hash have the same leaves, unless one of
them repeats itself. -/
theorem eq_or_repeats (hinj : ∀ a b c d, node a b=node c d → a=c ∧ b=d) {height : ℕ}
    {first second : List α} (hfirst : 0<first.length) (hfirstFits : first.length ≤ 2^height)
    (hsecond : 0 < second.length) (hsecondFits : second.length ≤ 2^height)
    (h : treeHash node height first=treeHash node height second) :
    first=second ∨ Repeats node height first ∨ Repeats node height second := by
  induction height generalizing first second with
  | zero =>
    obtain ⟨a,rfl⟩ := length_eq_one_iff.mp (le_antisymm hfirstFits hfirst)
    obtain ⟨b,rfl⟩ := length_eq_one_iff.mp (le_antisymm hsecondFits hsecond)
    exact .inl (congrArg (fun leaf => [leaf]) h)
  | succ height ih =>
    have hdouble : 2^(height+1)=2^height+2^height := by ring
    have hpositive := Nat.two_pow_pos height
    -- A half that is not full repeats itself when it equals a half that is.
    have hhalf : ∀ {shorter longer : List α}, 0 < shorter.length → shorter.length ≤ 2^height →
        ¬longer.length ≤ 2^height → longer.length ≤ 2^(height+1) →
        treeHash node (height+1) shorter=treeHash node (height+1) longer →
        Repeats node (height+1) longer := by
      intro shorter longer hpos hshort hlong hfits heq
      rw [treeHash,treeHash,if_pos hshort,if_neg hlong] at heq
      obtain ⟨hleft,hright⟩ := hinj _ _ _ _ heq
      have hsame := hleft.symm.trans hright
      rw [Repeats,if_neg hlong]
      by_cases hfull : longer.length=2^(height+1)
      · exact .inr (.inr ⟨hfull,hsame⟩)
      · have htake : (longer.take (2^height)).length=2^height := by
          rw [length_take]
          omega
        have hdrop : (longer.drop (2^height)).length=longer.length-2^height := by
          rw [length_drop]
        rcases ih (by omega) (by omega) (by omega)
          (by omega) hsame with hequal | hrepeats | hrepeats
        · have hlengths := congrArg List.length hequal
          omega
        · exact .inl hrepeats
        · exact .inr (.inl hrepeats)
    by_cases hshortFirst : first.length ≤ 2^height
    · by_cases hshortSecond : second.length ≤ 2^height
      · rw [treeHash,treeHash,if_pos hshortFirst,if_pos hshortSecond] at h
        rw [Repeats,Repeats,if_pos hshortFirst,if_pos hshortSecond]
        exact ih hfirst hshortFirst hsecond hshortSecond (hinj _ _ _ _ h).1
      · exact .inr (.inr (hhalf hfirst hshortFirst hshortSecond hsecondFits h))
    · by_cases hshortSecond : second.length ≤ 2^height
      · exact .inr (.inl (hhalf hsecond hshortSecond hshortFirst hfirstFits h.symm))
      · rw [treeHash,treeHash,if_neg hshortFirst,if_neg hshortSecond] at h
        rw [Repeats,Repeats,if_neg hshortFirst,if_neg hshortSecond]
        obtain ⟨hleft,hright⟩ := hinj _ _ _ _ h
        have hlengths : ∀ (leaves : List α), ¬leaves.length ≤ 2^height →
            (leaves.take (2^height)).length=2^height := by
          intro leaves hlong
          rw [length_take]
          omega
        have hfirstTake := hlengths first hshortFirst
        have hsecondTake := hlengths second hshortSecond
        have hfirstDrop : (first.drop (2^height)).length=first.length-2^height := length_drop
        have hsecondDrop : (second.drop (2^height)).length=second.length-2^height :=
          length_drop
        rcases ih (by omega) (by omega) (by omega) (by omega) hleft with hl | hl | hl
        · rcases ih (by omega) (by omega) (by omega) (by omega) hright with hr | hr | hr
          · have hfirstAll := take_append_drop (2^height) first
            rw [hl,hr,take_append_drop] at hfirstAll
            exact .inl hfirstAll.symm
          · exact .inr (.inl (.inr (.inl hr)))
          · exact .inr (.inr (.inr (.inl hr)))
        · exact .inr (.inl (.inl hl))
        · exact .inr (.inr (.inl hl))

/-- Trees of different heights have different hashes, when no leaf of the lower one
is a hash of two nodes. -/
theorem treeHash_ne (hinj : ∀ a b c d, node a b=node c d → a=c ∧ b=d) {low high : ℕ}
    (hlow : low<high) {first second : List α} (hfirst : 0<first.length)
    (hleaf : ∀ leaf∈first, ∀ a b, leaf≠node a b) :
    treeHash node low first≠treeHash node high second := by
  have hhigh : ∀ (height : ℕ) (leaves : List α), ∃ part other,
      treeHash node (height+1) leaves=node (treeHash node height part) other := by
    intro height leaves
    rw [treeHash]
    split_ifs with hshort
    · exact ⟨leaves,_,rfl⟩
    · exact ⟨leaves.take (2^height),_,rfl⟩
  induction low generalizing high first second with
  | zero =>
    obtain ⟨height,rfl⟩ := Nat.exists_eq_succ_of_ne_zero (by omega : high≠0)
    obtain ⟨part,other,hnode⟩ := hhigh height second
    obtain ⟨leaf,rest,rfl⟩ := exists_cons_of_length_pos hfirst
    rw [hnode]
    exact hleaf leaf mem_cons_self _ _
  | succ low ih =>
    obtain ⟨height,rfl⟩ := Nat.exists_eq_succ_of_ne_zero (by omega : high≠0)
    obtain ⟨part,other,hnode⟩ := hhigh height second
    intro heq
    rw [hnode,treeHash] at heq
    split_ifs at heq with hshort
    · exact ih (by omega) hfirst hleaf (hinj _ _ _ _ heq).1
    · have hpositive := Nat.two_pow_pos low
      have htake : (first.take (2^low)).length=2^low := by
        rw [length_take]
        omega
      exact ih (by omega) (by omega) (fun leaf hm => hleaf leaf (mem_of_mem_take hm))
        (hinj _ _ _ _ heq).1

theorem exists_pair_of_repeats {leaves : List α} {height pos : ℕ}
    (h : Repeats node height (block leaves height pos)) :
    ∃ level index, level<height ∧ (2*index+2)*2^level ≤ leaves.length ∧
      nodeAt node leaves level (2*index)=nodeAt node leaves level (2*index+1) := by
  induction height generalizing pos with
  | zero => exact h.elim
  | succ height ih =>
    have hlift : ∀ {at_ : ℕ}, Repeats node height (block leaves height at_) →
        ∃ level index, level<height+1 ∧ (2*index+2)*2^level ≤ leaves.length ∧
          nodeAt node leaves level (2*index)=nodeAt node leaves level (2*index+1) := by
      intro at_ hrepeats
      obtain ⟨level,index,hlevel,hfull,hsame⟩ := ih hrepeats
      exact ⟨level,index,by omega,hfull,hsame⟩
    rw [Repeats] at h
    split_ifs at h with hshort
    · have hsingle : block leaves (height+1) pos=block leaves height (2*pos) := by
        rw [← take_block,take_of_length_le hshort]
      exact hlift (hsingle ▸ h)
    · rw [take_block,drop_block] at h
      rcases h with hleft | hright | ⟨hfull,hsame⟩
      · exact hlift hleft
      · exact hlift hright
      · refine ⟨height,pos,by omega,?_,hsame⟩
        have hend : (2*pos+2)*2^height=pos*2^(height+1)+2^(height+1) := by ring
        have hpositive := Nat.two_pow_pos (height+1)
        rw [length_block] at hfull
        omega

theorem nodeAt_ne_of_nodup (hinj : ∀ a b c d, node a b=node c d → a=c ∧ b=d) {leaves : List α}
    (hnodup : leaves.Nodup) {height pos : ℕ} (hpair : (2*pos+1)*2^height<leaves.length) :
    nodeAt node leaves height (2*pos)≠nodeAt node leaves height (2*pos+1) := by
  induction height using Nat.strong_induction_on generalizing pos with
  | h height ih =>
    intro hsame
    have hnext : (2*pos+1)*2^height=2*pos*2^height+2^height := by ring
    have hpositive := Nat.two_pow_pos height
    have hleft := length_block leaves height (2*pos)
    have hright := length_block leaves height (2*pos+1)
    have hnone : ∀ at_ : ℕ, ¬Repeats node height (block leaves height at_) := by
      intro at_ hrepeats
      obtain ⟨level,index,hlevel,hfull,heq⟩ := exists_pair_of_repeats hrepeats
      have hstart : (2*index+2)*2^level=(2*index+1)*2^level+2^level := by ring
      have hlevelPositive := Nat.two_pow_pos level
      exact ih level hlevel (by omega) heq
    rcases eq_or_repeats hinj (by omega) (by omega) (by omega) (by omega) hsame with
      hequal | hrepeats | hrepeats
    · obtain ⟨leaf,hleaf⟩ := exists_mem_of_length_pos (by omega : 0<(block leaves height
        (2*pos+1)).length)
      have hparts := nodup_append.mp
        ((take_append_drop (2^height) (block leaves (height+1) pos)).symm ▸
          (hnodup.sublist ((take_sublist _ _).trans (drop_sublist _ _)) :
            (block leaves (height+1) pos).Nodup))
      rw [take_block,drop_block] at hparts
      exact hparts.2.2 leaf (hequal ▸ hleaf) leaf hleaf rfl
    · exact hnone _ hrepeats
    · exact hnone _ hrepeats

end Pyrk.MerkleTree
