import Pyrk.ProofOfWork

/-!
# The median of the last times

A block may be earlier than the one before it, but not earlier than the median
of the last eleven times. So the median never falls along a branch.
-/

namespace Pyrk.MedianTime

open ProofOfWork List

section Sorted

variable {α : Type} [LinearOrder α]

theorem le_getElem_iff {sorted : List α} (hsorted : sorted.Pairwise (·≤·)) {place : ℕ}
    (hplace : place < sorted.length) (bound : α) :
    bound ≤ sorted[place] ↔ sorted.countP (fun value => value < bound)≤place := by
  induction sorted generalizing place with
  | nil => simp at hplace
  | cons first sorted ih =>
    obtain ⟨hfirst,hrest⟩ := pairwise_cons.mp hsorted
    by_cases hbelow : first < bound
    · rw [countP_cons_of_pos (by simpa using hbelow)]
      cases place with
      | zero => simp [hbelow]
      | succ place =>
        rw [getElem_cons_succ,ih hrest,Nat.succ_le_succ_iff]
    · have hnone : (first::sorted).countP (fun value => value < bound)=0 := by
        rw [countP_eq_zero]
        intro value hm
        rw [decide_eq_true_eq,not_lt]
        rcases mem_cons.mp hm with rfl | hm
        · exact not_lt.mp hbelow
        · exact (not_lt.mp hbelow).trans (hfirst value hm)
      rw [hnone]
      refine iff_of_true ?_ (Nat.zero_le _)
      rw [countP_eq_zero] at hnone
      simpa using hnone _ (getElem_mem hplace)

end Sorted

/-- Times of the blocks that the median is taken of. -/
def lastTimes (chain : List CBlockHeader) : List ℤ :=
  (chain.take 11).map (fun header => (header.nTime.toNat : ℤ))

variable {header : CBlockHeader} {prev : List CBlockHeader}

theorem le_getMedianTimePast_iff {chain : List CBlockHeader} (hne : chain≠[]) (bound : ℤ) :
    bound≤getMedianTimePast chain ↔
      (lastTimes chain).countP (fun time => time < bound)≤(lastTimes chain).length/2 := by
  have hlen : ((lastTimes chain).insertionSort (·≤·)).length=(lastTimes chain).length :=
    (perm_insertionSort _ _).length_eq
  have hpos : 0 < (lastTimes chain).length := by
    rw [lastTimes,length_map,length_take]
    have := length_pos_iff.mpr hne
    omega
  have hplace : (lastTimes chain).length/2 < ((lastTimes chain).insertionSort (·≤·)).length := by
    omega
  have hmedian : getMedianTimePast chain=
      ((lastTimes chain).insertionSort (·≤·))[(lastTimes chain).length/2] := by
    unfold getMedianTimePast
    dsimp only
    rw [← lastTimes,hlen,getD_eq_getElem _ _ hplace]
  rw [hmedian,le_getElem_iff (pairwise_insertionSort _ _) hplace,(perm_insertionSort _ _).countP_eq]

theorem getMedianTimePast_mono (hne : prev≠[])
    (hlater : getMedianTimePast prev < header.nTime.toNat) :
    getMedianTimePast prev≤getMedianTimePast (header::prev) := by
  have hhalf := (le_getMedianTimePast_iff hne _).mp (le_refl (getMedianTimePast prev))
  rw [le_getMedianTimePast_iff (by simp)]
  have htimes : lastTimes (header::prev)=
      (header.nTime.toNat : ℤ)::(prev.take 10).map (fun header => (header.nTime.toNat : ℤ)) := rfl
  have hnot : ¬(header.nTime.toNat : ℤ) < getMedianTimePast prev := not_lt.mpr (le_of_lt hlater)
  have hcount : (lastTimes (header::prev)).countP (fun time => time < getMedianTimePast prev)≤
      (lastTimes prev).countP (fun time => time < getMedianTimePast prev) := by
    rw [htimes,countP_cons_of_neg (by simpa using hnot)]
    exact List.Sublist.countP_le ((take_sublist_take_left (by omega)).map _)
  have hlen : (lastTimes prev).length≤(lastTimes (header::prev)).length := by
    simp only [lastTimes,length_map,length_take,length_cons]
    omega
  omega

end Pyrk.MedianTime
