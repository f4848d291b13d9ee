import Pyrk.CompactBlock
import Mathlib.Data.Nat.Nth

/-!
# Positions of the short hashes of a compact block

Whole transactions take some positions and short hashes get the others. Positions have sixteen bits,
while a block can have three times as many transactions.
-/

namespace Pyrk.CompactPositions

open Transaction UndoData CompactBlock OrderedMap List

section Positions

/-- Positions of whole transactions, starting from one more than the last one. -/
def positionsFrom : ℕ → List PrefilledTransaction → List ℕ
  | _,[] => []
  | next,prefilled::prefilledtxn =>
    (next+prefilled.index.toNat)::positionsFrom (next+prefilled.index.toNat+1) prefilledtxn

/-- Positions of the whole transactions of a compact block. -/
def prefilledPositions (msg : CBlockHeaderAndShortTxIDs) : List ℕ :=
  positionsFrom 0 msg.prefilledtxn

/-- No whole transaction takes the position. -/
def IsOpen (msg : CBlockHeaderAndShortTxIDs) (position : ℕ) : Prop :=
  position∉prefilledPositions msg

instance (msg : CBlockHeaderAndShortTxIDs) : DecidablePred (IsOpen msg) :=
  fun position => inferInstanceAs (Decidable (position∉prefilledPositions msg))

/-- The position that has a rank among those that no whole transaction takes. -/
noncomputable def openPosition (msg : CBlockHeaderAndShortTxIDs) (rank : ℕ) : ℕ :=
  Nat.nth (IsOpen msg) rank

/-- Each whole transaction is one and is not put behind all others. -/
def FitFrom (shortCount next i : ℕ) (prefilledtxn : List PrefilledTransaction) : Prop :=
  ∀ j prefilled position, prefilledtxn[j]?=some prefilled →
    (positionsFrom next prefilledtxn)[j]?=some position →
    isNullTx prefilled.tx=false ∧ position≤0xffff ∧ position ≤ shortCount+(i+j)

/-- The whole transactions of a compact block can be put in place. -/
def PrefilledFit (msg : CBlockHeaderAndShortTxIDs) : Prop :=
  FitFrom msg.shorttxids.length 0 0 msg.prefilledtxn

theorem fitFrom_nil (shortCount next i : ℕ) : FitFrom shortCount next i [] := by
  intro j prefilled position hj
  rw [getElem?_nil] at hj
  cases hj

variable {prefilledtxn : List PrefilledTransaction}

theorem fitFrom_cons {shortCount next i : ℕ} {prefilled : PrefilledTransaction} :
    FitFrom shortCount next i (prefilled::prefilledtxn) ↔
      (isNullTx prefilled.tx=false ∧ next+prefilled.index.toNat≤0xffff ∧
        next+prefilled.index.toNat ≤ shortCount+i) ∧
      FitFrom shortCount (next+prefilled.index.toNat+1) (i+1) prefilledtxn := by
  constructor
  · intro hfit
    constructor
    · exact hfit 0 prefilled _ rfl rfl
    · intro j other position hj hp
      have hnext := hfit (j+1) other position hj hp
      rwa [show i+(j+1)=i+1+j by omega] at hnext
  · intro hboth j other position hj hp
    cases j with
    | zero =>
      cases hj
      cases hp
      exact hboth.1
    | succ j =>
      have hnext := hboth.2 j other position hj hp
      rwa [show i+1+j=i+(j+1) by omega] at hnext

theorem length_positionsFrom (next : ℕ) (prefilledtxn : List PrefilledTransaction) :
    (positionsFrom next prefilledtxn).length=prefilledtxn.length := by
  induction prefilledtxn generalizing next with
  | nil => rfl
  | cons prefilled prefilledtxn ih => simp only [positionsFrom,length_cons,ih]

theorem le_of_mem_positionsFrom {next position : ℕ}
    (hm : position∈positionsFrom next prefilledtxn) : next≤position := by
  induction prefilledtxn generalizing next with
  | nil => cases hm
  | cons prefilled prefilledtxn ih =>
    cases mem_cons.mp hm with
    | inl he => omega
    | inr hm =>
      have := ih hm
      omega

theorem nodup_positionsFrom (next : ℕ) (prefilledtxn : List PrefilledTransaction) :
    (positionsFrom next prefilledtxn).Nodup := by
  induction prefilledtxn generalizing next with
  | nil => exact nodup_nil
  | cons prefilled prefilledtxn ih =>
    refine nodup_cons.mpr ⟨?_,ih _⟩
    intro hm
    have := le_of_mem_positionsFrom hm
    omega

theorem bounds_of_mem {msg : CBlockHeaderAndShortTxIDs} (hfit : PrefilledFit msg)
    {position : ℕ} (hm : position∈prefilledPositions msg) :
    position≤0xffff ∧ position<blockTxCount msg := by
  obtain ⟨j,hj⟩ := List.getElem?_of_mem hm
  have hlt : j < msg.prefilledtxn.length := by
    have := (List.getElem?_eq_some_iff.mp hj).1
    rwa [prefilledPositions,length_positionsFrom] at this
  have hpos := hfit j _ position (List.getElem?_eq_getElem hlt) hj
  unfold blockTxCount
  omega

theorem count_open (msg : CBlockHeaderAndShortTxIDs) (bound : ℕ) :
    Nat.count (IsOpen msg) bound+
      ((Finset.range bound).filter (·∈prefilledPositions msg)).card=bound := by
  have hsplit := @Finset.card_filter_add_card_filter_not _ (Finset.range bound)
    (IsOpen msg) _ _
  have htaken : (Finset.range bound).filter (fun position => ¬IsOpen msg position)=
      (Finset.range bound).filter (·∈prefilledPositions msg) :=
    Finset.filter_congr (fun position _ => not_not)
  rw [htaken,Finset.card_range] at hsplit
  rw [Nat.count_eq_card_filter_range]
  exact hsplit

theorem card_taken_le (msg : CBlockHeaderAndShortTxIDs) (bound : ℕ) :
    ((Finset.range bound).filter (·∈prefilledPositions msg)).card≤
      msg.prefilledtxn.length := by
  have hsub : (Finset.range bound).filter (·∈prefilledPositions msg)⊆
      (prefilledPositions msg).toFinset := by
    intro position hm
    exact mem_toFinset.mpr (Finset.mem_filter.mp hm).2
  have hcard := (Finset.card_le_card hsub).trans (toFinset_card_le _)
  rwa [prefilledPositions,length_positionsFrom] at hcard

theorem card_taken {msg : CBlockHeaderAndShortTxIDs} {bound : ℕ}
    (hbound : ∀ position∈prefilledPositions msg, position<bound) :
    ((Finset.range bound).filter (·∈prefilledPositions msg)).card=
      msg.prefilledtxn.length := by
  have he : (Finset.range bound).filter (·∈prefilledPositions msg)=
      (prefilledPositions msg).toFinset := by
    ext position
    rw [Finset.mem_filter,Finset.mem_range,mem_toFinset]
    exact ⟨And.right,fun hm => ⟨hbound position hm,hm⟩⟩
  have hnodup : (prefilledPositions msg).Nodup := nodup_positionsFrom 0 _
  rw [he,toFinset_card_of_nodup hnodup,prefilledPositions,length_positionsFrom]

theorem infinite_open (msg : CBlockHeaderAndShortTxIDs) :
    (Set.ofPred (IsOpen msg)).Infinite := by
  have hfin : (Set.ofPred (·∈prefilledPositions msg)).Finite :=
    (prefilledPositions msg).finite_toSet
  exact hfin.infinite_compl

variable {msg : CBlockHeaderAndShortTxIDs}

theorem isOpen_openPosition (rank : ℕ) : IsOpen msg (openPosition msg rank) :=
  Nat.nth_mem_of_infinite (infinite_open msg) rank

theorem openPosition_injective {rank other : ℕ}
    (he : openPosition msg rank=openPosition msg other) : rank=other :=
  Nat.nth_injective (infinite_open msg) he

theorem openPosition_le (rank : ℕ) :
    openPosition msg rank ≤ rank+msg.prefilledtxn.length := by
  have hcount := count_open msg (rank+msg.prefilledtxn.length+1)
  have htaken := card_taken_le msg (rank+msg.prefilledtxn.length+1)
  have hlt : rank<Nat.count (IsOpen msg) (rank+msg.prefilledtxn.length+1) := by omega
  exact Nat.lt_succ_iff.mp (Nat.nth_lt_of_lt_count hlt)

theorem openPosition_lt (hfit : PrefilledFit msg) {rank : ℕ}
    (hrank : rank < msg.shorttxids.length) :
    openPosition msg rank<blockTxCount msg := by
  have hcount := count_open msg (blockTxCount msg)
  have htaken := card_taken (fun position hm => (bounds_of_mem hfit hm).2)
  refine Nat.nth_lt_of_lt_count ?_
  unfold blockTxCount at *
  omega

theorem openPosition_last (hfit : PrefilledFit msg) (hlarge : 2^16<blockTxCount msg) :
    openPosition msg (msg.shorttxids.length-1)=blockTxCount msg-1 := by
  have hopen : IsOpen msg (blockTxCount msg-1) := by
    intro hm
    have := (bounds_of_mem hfit hm).1
    omega
  have hcount := count_open msg (blockTxCount msg-1)
  have htaken := @card_taken msg (blockTxCount msg-1)
    (fun position hm => by have := (bounds_of_mem hfit hm).1; omega)
  have hrank : msg.shorttxids.length-1=
      Nat.count (IsOpen msg) (blockTxCount msg-1) := by
    unfold blockTxCount at *
    omega
  unfold openPosition
  rw [hrank,Nat.nth_count hopen]

theorem taken_of_full (hfit : PrefilledFit msg)
    (hfull : msg.prefilledtxn.length=2^16) {position : ℕ} (hp : position<2^16) :
    position∈prefilledPositions msg := by
  have hbound : ∀ taken∈prefilledPositions msg, taken<2^16 := fun taken hm => by
    have := (bounds_of_mem hfit hm).1
    omega
  have hall : (Finset.range (2^16)).filter (·∈prefilledPositions msg)=
      Finset.range (2^16) := by
    refine Finset.eq_of_subset_of_card_le (Finset.filter_subset _ _) ?_
    rw [card_taken hbound,hfull,Finset.card_range]
  have hm := Finset.mem_range.mpr hp
  rw [← hall] at hm
  exact (Finset.mem_filter.mp hm).2

end Positions

section Vectors

variable {α : Type} {vector : List α} {index : ℕ} {value : α}

theorem vectorAt_ok (h : vector[index]?=some value) : vectorAt vector index=.ok value := by
  rw [vectorAt,h]

theorem vectorSet_ok (h : index<vector.length) :
    vectorSet vector index value=.ok (vector.set index value) := if_pos h

end Vectors

section Placing

/-- Slots that hold a transaction exactly at the given positions. -/
def TakenAt (slots : List (Option CTransaction)) (positions : List ℕ) : Prop :=
  ∀ position, position∈positions ↔ ∃ tx, slots[position]?=some (some tx)

variable {prefilledtxn : List PrefilledTransaction}

theorem placePrefilled_fit {shortCount next i : ℕ} {slots : List (Option CTransaction)}
    {positions : List ℕ}
    (hfit : FitFrom shortCount next i prefilledtxn)
    (hlen : shortCount+i+prefilledtxn.length ≤ slots.length) (htaken : TakenAt slots positions) :
    ∃ placed, placePrefilled shortCount next i slots prefilledtxn=.ok (true,placed) ∧
      placed.length=slots.length ∧ TakenAt placed (positions++positionsFrom next prefilledtxn) := by
  induction prefilledtxn generalizing next i slots positions with
  | nil =>
    rw [positionsFrom,append_nil]
    exact ⟨slots,rfl,rfl,htaken⟩
  | cons prefilled prefilledtxn ih =>
    obtain ⟨⟨hnull,hsmall,hplace⟩,hrest⟩ := fitFrom_cons.mp hfit
    rw [length_cons] at hlen
    have hin : next+prefilled.index.toNat < slots.length := by omega
    have hone : TakenAt (slots.set (next+prefilled.index.toNat) (some prefilled.tx))
        (positions++[next+prefilled.index.toNat]) := by
      intro position
      rw [mem_append,mem_singleton,getElem?_set]
      split_ifs with he
      · simp only [he,or_true,Option.some.injEq,exists_eq']
      · rw [htaken position]
        exact or_iff_left (fun hp => he hp.symm)
    obtain ⟨placed,hrun,hl,htaken⟩ := ih hrest (by rw [length_set]; omega) hone
    refine ⟨placed,?_,?_,?_⟩
    · rw [placePrefilled,if_neg (by rw [hnull]; exact Bool.false_ne_true)]
      rw [if_neg (by omega),if_neg (by omega),vectorSet_ok hin,ok_bind,hrun]
    · rw [hl,length_set]
    · rwa [append_assoc] at htaken

/-- Each whole transaction is at its position, and slots before all of them stay. -/
theorem placePrefilled_holds {shortCount next i : ℕ} {slots placed : List (Option CTransaction)}
    (hrun : placePrefilled shortCount next i slots prefilledtxn=.ok (true,placed)) :
    (∀ position, position<next → placed[position]?=slots[position]?) ∧
      ∀ (j : ℕ) (prefilled : PrefilledTransaction) (position : ℕ),
        prefilledtxn[j]?=some prefilled → (positionsFrom next prefilledtxn)[j]?=some position →
        placed[position]?=some (some prefilled.tx) := by
  induction prefilledtxn generalizing next i slots with
  | nil =>
    cases hrun
    grind
  | cons prefilled prefilledtxn ih =>
    rw [placePrefilled] at hrun
    split_ifs at hrun with hnull
    · cases hrun
    · dsimp only at hrun
      split_ifs at hrun with hsmall hplace
      · cases hrun
      · cases hrun
      · rw [bind_eq_ok] at hrun
        obtain ⟨slots',hset,hrun⟩ := hrun
        rw [vectorSet] at hset
        split_ifs at hset with hin
        cases hset
        obtain ⟨hbefore,hafter⟩ := ih hrun
        constructor
        · intro position hlt
          rw [hbefore position (by omega),getElem?_set_ne (by omega)]
        · intro j other position hj hp
          cases j with
          | zero =>
            cases hj
            cases hp
            rw [hbefore _ (Nat.lt_succ_self _),getElem?_set_self hin]
          | succ j => exact hafter j other position hj hp

theorem placePrefilled_unfit {shortCount next i : ℕ} {slots : List (Option CTransaction)}
    (hfit : ¬FitFrom shortCount next i prefilledtxn)
    (hlen : shortCount+i+prefilledtxn.length ≤ slots.length) :
    ∃ placed, placePrefilled shortCount next i slots prefilledtxn=.ok (false,placed) := by
  induction prefilledtxn generalizing next i slots with
  | nil => exact absurd (fitFrom_nil shortCount next i) hfit
  | cons prefilled prefilledtxn ih =>
    rw [fitFrom_cons] at hfit
    rw [length_cons] at hlen
    rw [placePrefilled]
    by_cases hnull : isNullTx prefilled.tx=true
    · rw [if_pos hnull]
      exact ⟨slots,rfl⟩
    · rw [if_neg hnull]
      by_cases hsmall : 0xffff<next+prefilled.index.toNat
      · rw [if_pos hsmall]
        exact ⟨slots,rfl⟩
      · rw [if_neg hsmall]
        by_cases hplace : shortCount+i<next+prefilled.index.toNat
        · rw [if_pos hplace]
          exact ⟨slots,rfl⟩
        · rw [if_neg hplace,vectorSet_ok (by omega),ok_bind]
          refine ih (fun hrest => hfit ⟨⟨Bool.eq_false_of_not_eq_true hnull,?_,?_⟩,hrest⟩) ?_
          · omega
          · omega
          · rw [length_set]
            omega

/-- The slots of a message whose whole transactions are in place. -/
structure Placed (msg : CBlockHeaderAndShortTxIDs) (slots : List (Option CTransaction)) :
    Prop where
  length : slots.length=blockTxCount msg
  taken : TakenAt slots (prefilledPositions msg)
  holds : ∀ (j : ℕ) (prefilled : PrefilledTransaction) (position : ℕ),
    msg.prefilledtxn[j]?=some prefilled → (prefilledPositions msg)[j]?=some position →
    slots[position]?=some (some prefilled.tx)

theorem Placed.empty {msg : CBlockHeaderAndShortTxIDs} {slots : List (Option CTransaction)}
    (hplaced : Placed msg slots) {position : ℕ} (hopen : IsOpen msg position)
    (hlt : position<blockTxCount msg) : slots[position]?=some none := by
  rw [← hplaced.length] at hlt
  cases hslot : slots[position] with
  | none => rw [getElem?_eq_getElem hlt,hslot]
  | some tx =>
    refine absurd ((hplaced.taken position).mpr ⟨tx,?_⟩) hopen
    rw [getElem?_eq_getElem hlt,hslot]

end Placing

section Skipping

variable {slots : List (Option CTransaction)} {i : ℕ}

theorem skipAvailable_ok {target fuel index_offset : ℕ} (hle : i+index_offset≤target)
    (htaken : ∀ position, i+index_offset≤position → position<target →
      ∃ tx, slots[position]?=some (some tx))
    (hempty : slots[target]?=some none) (hsmall : target < i+2^16)
    (hfuel : target < i+index_offset+fuel) :
    skipAvailable slots i fuel index_offset=.ok (target-i) := by
  induction fuel generalizing index_offset with
  | zero => omega
  | succ fuel ih =>
    rw [skipAvailable]
    by_cases he : i+index_offset=target
    · rw [he,vectorAt_ok hempty,ok_bind,Option.isSome_none,if_neg Bool.false_ne_true]
      have hoffset : index_offset=target-i := by omega
      rw [hoffset]
    · obtain ⟨tx,htx⟩ := htaken (i+index_offset) (Nat.le_refl _) (by omega)
      rw [vectorAt_ok htx,ok_bind,Option.isSome_some,if_pos rfl,Nat.mod_eq_of_lt (by omega)]
      exact ih (by omega) (fun position hlow hhigh => htaken position (by omega) hhigh) (by omega)

theorem skipAvailable_endless
    (htaken : ∀ position, position<2^16 → ∃ tx, slots[position]?=some (some tx)) (fuel : ℕ)
    {index_offset : ℕ} (hoffset : index_offset<2^16) :
    skipAvailable slots 0 fuel index_offset=.error .endless := by
  induction fuel generalizing index_offset with
  | zero => rfl
  | succ fuel ih =>
    obtain ⟨tx,htx⟩ := htaken index_offset hoffset
    rw [skipAvailable,Nat.zero_add,vectorAt_ok htx,ok_bind,Option.isSome_some,if_pos rfl]
    exact ih (Nat.mod_lt _ (by omega))

theorem skipAvailable_mono {fuel more index_offset found : ℕ} (hle : fuel ≤ more)
    (hrun : skipAvailable slots i fuel index_offset=.ok found) :
    skipAvailable slots i more index_offset=.ok found := by
  induction fuel generalizing more index_offset with
  | zero => cases hrun
  | succ fuel ih =>
    obtain ⟨more,rfl⟩ := Nat.exists_eq_succ_of_ne_zero (show more≠0 by omega)
    rw [skipAvailable,bind_eq_ok] at hrun ⊢
    grind

theorem assignPositions_mono {bucket : ℕ → ℕ} {fuel more index_offset : ℕ} {table : ShortIdTable}
    {shorttxids : List ℕ} {assigned : Bool×ShortIdTable} (hle : fuel ≤ more)
    (hrun : assignPositions bucket fuel slots i index_offset table shorttxids=.ok assigned) :
    assignPositions bucket more slots i index_offset table shorttxids=.ok assigned := by
  induction shorttxids generalizing i index_offset table with
  | nil => exact hrun
  | cons shortid shorttxids ih =>
    rw [assignPositions,bind_eq_ok] at hrun ⊢
    obtain ⟨offset,hskip,hrun⟩ := hrun
    refine ⟨offset,skipAvailable_mono hle hskip,?_⟩
    grind

end Skipping

section Tables

variable (bucket : ℕ → ℕ) (position : ℕ → ℕ)

/-- The table when each short hash gets the position of its rank. -/
def rankTable : ℕ → ShortIdTable → List ℕ → Bool×ShortIdTable
  | _,table,[] => (true,table)
  | i,table,shortid::shorttxids =>
    if 12<bucketSize bucket (table.set shortid (position i)) shortid then
      (false,table.set shortid (position i))
    else rankTable (i+1) (table.set shortid (position i)) shorttxids

variable {bucket position}

variable {shorttxids : List ℕ}

theorem rankTable_cons {i shortid : ℕ} {table final : ShortIdTable}
    (hrun : rankTable bucket position i table (shortid::shorttxids)=(true,final)) :
    ¬12<bucketSize bucket (table.set shortid (position i)) shortid ∧
      rankTable bucket position (i+1) (table.set shortid (position i)) shorttxids=(true,final) := by
  rw [rankTable] at hrun
  grind

/-- A table that got bigger with every short hash has no short hash twice. -/
theorem fresh_of_size {i : ℕ} {table final : ShortIdTable}
    (hrun : rankTable bucket position i table shorttxids=(true,final)) :
    final.size≤table.size+shorttxids.length ∧ (final.size=table.size+shorttxids.length →
        shorttxids.Nodup ∧ ∀ shortid∈shorttxids, table.find shortid=none) := by
  induction shorttxids generalizing i table with
  | nil =>
    cases hrun
    exact ⟨Nat.le_refl _,fun _ => ⟨nodup_nil,fun shortid hm => absurd hm not_mem_nil⟩⟩
  | cons shortid shorttxids ih =>
    obtain ⟨-,hrun⟩ := rankTable_cons hrun
    obtain ⟨hle,hfresh⟩ := ih hrun
    have hset := table.size_set shortid (position i)
    rw [length_cons]
    constructor
    · split_ifs at hset <;> omega
    · intro hsize
      have hhas : table.contains shortid=false := by
        by_contra hknown
        rw [if_pos (Bool.eq_true_of_not_eq_false hknown)] at hset
        omega
      rw [hhas,if_neg Bool.false_ne_true] at hset
      obtain ⟨hnodup,hall⟩ := hfresh (by omega)
      have hfar : shortid∉shorttxids := by
        intro hm
        have hnone := hall shortid hm
        rw [find_set_self] at hnone
        cases hnone
      refine ⟨nodup_cons.mpr ⟨hfar,hnodup⟩,?_⟩
      intro other hm
      cases mem_cons.mp hm with
      | inl he =>
        rw [he]
        exact (table.contains_eq_false shortid).mp hhas
      | inr hm =>
        have hne : other≠shortid := fun he => hfar (he ▸ hm)
        have hnone := hall other hm
        rwa [table.find_set_of_ne _ hne] at hnone

theorem bucketSize_set {table : ShortIdTable} {shortid : ℕ} (value key : ℕ)
    (hnew : table.find shortid=none) :
    bucketSize bucket (table.set shortid value) key=
      bucketSize bucket table key+if bucket shortid=bucket key then 1 else 0 := by
  unfold bucketSize
  rw [(entries_set_perm value hnew).countP_eq,countP_cons]
  simp only [decide_eq_true_eq]

theorem fresh_tail {table : ShortIdTable} {shortid value : ℕ} (hnodup : (shortid::shorttxids).Nodup)
    (hnew : ∀ other∈shortid::shorttxids, table.find other=none) :
    ∀ other∈shorttxids, (table.set shortid value).find other=none := by
  intro other hm
  have hne : other≠shortid := fun he => (nodup_cons.mp hnodup).1 (he ▸ hm)
  rw [table.find_set_of_ne _ hne]
  exact hnew other (mem_cons_of_mem _ hm)

theorem rankTable_done {i : ℕ} {table : ShortIdTable} {shorttxids : List ℕ}
    (hnodup : shorttxids.Nodup) (hnew : ∀ shortid∈shorttxids, table.find shortid=none) :
    (rankTable bucket position i table shorttxids).1=true ↔
      ∀ shortid∈shorttxids, bucketSize bucket table shortid+
        shorttxids.countP (fun other => bucket other=bucket shortid)≤12 := by
  induction shorttxids generalizing i table with
  | nil => exact ⟨fun _ shortid hm => absurd hm not_mem_nil,fun _ => rfl⟩
  | cons shortid shorttxids ih =>
    have hhead := hnew shortid mem_cons_self
    have hset := fun key => @bucketSize_set bucket table shortid (position i) key hhead
    have hrest := @ih (i+1) (table.set shortid (position i)) (nodup_cons.mp hnodup).2
      (fresh_tail hnodup hnew)
    have hcrowd : ∀ key, bucketSize bucket table key+
        (shortid::shorttxids).countP (fun other => bucket other=bucket key)=
        bucketSize bucket (table.set shortid (position i)) key+
          shorttxids.countP (fun other => bucket other=bucket key) := by
      intro key
      rw [hset,countP_cons]
      simp only [decide_eq_true_eq]
      omega
    rw [rankTable]
    constructor
    · intro hdone
      have hlarge : ¬12<bucketSize bucket (table.set shortid (position i)) shortid := by
        intro hlarge
        rw [if_pos hlarge] at hdone
        cases hdone
      rw [if_neg hlarge] at hdone
      have htail := hrest.mp hdone
      intro key hm
      rw [hcrowd]
      cases mem_cons.mp hm with
      | inr hm => exact htail key hm
      | inl he =>
        subst he
        by_cases hshared : ∃ other∈shorttxids, bucket other=bucket key
        · obtain ⟨other,hother,hbucket⟩ := hshared
          have hle := htail other hother
          unfold bucketSize at hle ⊢
          rwa [hbucket] at hle
        · have hzero : shorttxids.countP (fun other => bucket other=bucket key)=0 := by
            grind
          omega
    · grind

theorem find_rankTable {i : ℕ} {table final : ShortIdTable}
    (hnodup : shorttxids.Nodup) (hrun : rankTable bucket position i table shorttxids=(true,final)) :
    (∀ k shortid, shorttxids[k]?=some shortid → final.find shortid=some (position (i+k))) ∧
      ∀ other, other∉shorttxids → final.find other=table.find other := by
  induction shorttxids generalizing i table with
  | nil =>
    cases hrun
    grind
  | cons shortid shorttxids ih =>
    obtain ⟨-,hrun⟩ := rankTable_cons hrun
    obtain ⟨hfar,hnodup⟩ := nodup_cons.mp hnodup
    obtain ⟨hranks,hothers⟩ := ih hnodup hrun
    constructor
    · intro k other hk
      cases k with
      | zero =>
        cases hk
        rw [hothers shortid hfar,find_set_self,Nat.add_zero]
      | succ k =>
        rw [hranks k other hk,show i+1+k=i+(k+1) by omega]
    · intro other hm
      rw [mem_cons,not_or] at hm
      rw [hothers other hm.2,table.find_set_of_ne _ hm.1]

theorem size_rankTable {i : ℕ} {table final : ShortIdTable}
    (hnodup : shorttxids.Nodup) (hnew : ∀ shortid∈shorttxids, table.find shortid=none)
    (hrun : rankTable bucket position i table shorttxids=(true,final)) :
    final.size=table.size+shorttxids.length := by
  induction shorttxids generalizing i table with
  | nil =>
    cases hrun
    rfl
  | cons shortid shorttxids ih =>
    have hhead := (table.contains_eq_false shortid).mpr (hnew shortid mem_cons_self)
    have hset := table.size_set shortid (position i)
    rw [hhead,if_neg Bool.false_ne_true] at hset
    obtain ⟨-,hrun⟩ := rankTable_cons hrun
    rw [ih (nodup_cons.mp hnodup).2 (fresh_tail hnodup hnew) hrun,hset,length_cons]
    omega

end Tables

section Assigning

variable {msg : CBlockHeaderAndShortTxIDs} {slots : List (Option CTransaction)}
variable {bucket : ℕ → ℕ} {fuel : ℕ}

theorem taken_between {start i position : ℕ} (hplaced : Placed msg slots)
    (hcount : Nat.count (IsOpen msg) start=i) (hlow : start≤position)
    (hhigh : position<openPosition msg i) : ∃ tx, slots[position]?=some (some tx) := by
  refine (hplaced.taken position).mp ?_
  by_contra hopen
  have hmono := Nat.count_monotone (IsOpen msg) hlow
  have hle := Nat.nth_monotone (infinite_open msg) (hcount ▸ hmono)
  rw [Nat.nth_count hopen] at hle
  exact absurd hhigh (Nat.not_lt.mpr hle)

theorem assignPositions_eq (hfit : PrefilledFit msg) (hplaced : Placed msg slots)
    (hsome : msg.prefilledtxn.length<2^16) (hfuel : blockTxCount msg≤fuel)
    {i index_offset : ℕ} {table : ShortIdTable} {shorttxids : List ℕ}
    (hcount : Nat.count (IsOpen msg) (i+index_offset)=i)
    (hlen : i+shorttxids.length ≤ msg.shorttxids.length) :
    assignPositions bucket fuel slots i index_offset table shorttxids=
      .ok (rankTable bucket (fun rank => openPosition msg rank%2^16) i table shorttxids) := by
  induction shorttxids generalizing i index_offset table with
  | nil => rfl
  | cons shortid shorttxids ih =>
    rw [length_cons] at hlen
    have hstart : i+index_offset≤openPosition msg i := by
      have hle := Nat.le_nth_count (infinite_open msg) (i+index_offset)
      rwa [hcount] at hle
    have hlt := @openPosition_lt msg hfit i (by omega)
    have hnear := @openPosition_le msg i
    have hskip : skipAvailable slots i fuel index_offset=.ok (openPosition msg i-i) :=
      skipAvailable_ok hstart (fun position hlow => taken_between hplaced hcount hlow)
        (hplaced.empty (isOpen_openPosition i) hlt) (by omega) (by omega)
    have hplace : i+(openPosition msg i-i)=openPosition msg i := by omega
    have hnext : Nat.count (IsOpen msg) (i+1+(openPosition msg i-i))=i+1 := by
      rw [show i+1+(openPosition msg i-i)=openPosition msg i+1 by omega]
      exact Nat.count_nth_succ_of_infinite (infinite_open msg) i
    rw [assignPositions,hskip,ok_bind,rankTable]
    dsimp only
    rw [hplace]
    split_ifs with hcrowded
    · rfl
    · exact ih hnext (by omega)

theorem assignPositions_endless (hfit : PrefilledFit msg) (hplaced : Placed msg slots)
    (hfull : msg.prefilledtxn.length=2^16) {table : ShortIdTable} {shorttxids : List ℕ}
    (hsome : shorttxids≠[]) :
    assignPositions bucket fuel slots 0 0 table shorttxids=.error .endless := by
  cases shorttxids with
  | nil => exact absurd rfl hsome
  | cons shortid shorttxids =>
    have hskip : skipAvailable slots 0 fuel 0=.error .endless :=
      skipAvailable_endless (fun position hp => (hplaced.taken position).mp
        (taken_of_full hfit hfull hp)) fuel (by omega)
    rw [assignPositions,hskip]
    rfl

end Assigning

section Searching

variable (hashes : ShortHashes) (msg : CBlockHeaderAndShortTxIDs)

/-- Each short hash has the open position of its rank. -/
def Assigned (table : ShortIdTable) : Prop :=
  ∀ rank shortid, msg.shorttxids[rank]?=some shortid →
    table.find shortid=some (openPosition msg rank)

/-- What is there at an open position has the short hash of that position. -/
def Matching (block : PartiallyDownloadedBlock) : Prop :=
  ∀ rank shortid tx, msg.shorttxids[rank]?=some shortid →
    block.txn_available[openPosition msg rank]?=some (some tx) →
    getShortID hashes msg tx.hash=shortid

/-- The block after a search that started from some slots among some known
transactions. -/
structure Filled (known : List CTransaction) (slots : List (Option CTransaction))
    (block : PartiallyDownloadedBlock) : Prop where
  header : block.header=msg.header
  length : block.txn_available.length=blockTxCount msg
  stay : ∀ position∈prefilledPositions msg, block.txn_available[position]?=slots[position]?
  matching : Matching hashes msg block
  found : ∀ rank tx, block.txn_available[openPosition msg rank]?=some (some tx) → tx∈known

/-- The table tells positions of the block that have their rank. -/
def Ranked (table : ShortIdTable) : Prop :=
  ∀ shortid position, table.find shortid=some position → position<blockTxCount msg ∧
      ∃ rank, msg.shorttxids[rank]?=some shortid ∧ position=openPosition msg rank

/-- The vectors keep their size and their transactions match. -/
structure Sound (known : List CTransaction) (slots : List (Option CTransaction))
    (search : Search) : Prop where
  filled : Filled hashes msg known slots search.block
  marks : search.have_txn.length=blockTxCount msg

variable {hashes msg} {table : ShortIdTable} {search : Search} {position : ℕ}
variable {known : List CTransaction} {slots : List (Option CTransaction)}

theorem Filled.set {block : PartiallyDownloadedBlock}
    (hfilled : Filled hashes msg known slots block) {rank shortid : ℕ}
    {slot : Option CTransaction} (hid : msg.shorttxids[rank]?=some shortid)
    (hslot : ∀ tx, slot=some tx → tx∈known ∧ getShortID hashes msg tx.hash=shortid)
    (mempool extra : ℕ) :
    Filled hashes msg known slots
      { block with
        txn_available := block.txn_available.set (openPosition msg rank) slot
        mempool_count := mempool
        extra_count := extra } where
  header := hfilled.header
  length := by
    rw [length_set]
    exact hfilled.length
  stay := fun position hm => by
    have hne : openPosition msg rank≠position := fun he =>
      isOpen_openPosition rank (he ▸ hm)
    rw [getElem?_set_ne hne]
    exact hfilled.stay position hm
  matching := fun other shortid' tx hother htx => by
    rw [getElem?_set] at htx
    split_ifs at htx with he hlt
    · have hrank := openPosition_injective he
      grind
    · exact hfilled.matching other shortid' tx hother htx
  found := fun other tx htx => by
    rw [getElem?_set] at htx
    split_ifs at htx with he hlt
    · exact (hslot tx (Option.some.inj htx)).1
    · exact hfilled.found other tx htx

section

variable (hsound : Sound hashes msg known slots search)

include hsound

theorem Sound.within (hlt : position<blockTxCount msg) :
    position < search.block.txn_available.length ∧ position < search.have_txn.length := by
  rw [hsound.filled.length,hsound.marks]
  exact ⟨hlt,hlt⟩

section

variable (hranked : Ranked msg table)

include hranked

theorem takeTxn_ok {shortid : ℕ} (hfind : table.find shortid=some position)
    {slot : Option CTransaction}
    (hslot : ∀ tx, slot=some tx → tx∈known ∧ getShortID hashes msg tx.hash=shortid)
    (extra : ℕ) :
    ∃ next, takeTxn search position slot extra=.ok next ∧
      Sound hashes msg known slots next := by
  obtain ⟨hlt,rank,hid,hrank⟩ := hranked shortid position hfind
  obtain ⟨hslots,hmarks⟩ := hsound.within hlt
  refine ⟨_,by rw [takeTxn,vectorSet_ok hslots,ok_bind,vectorSet_ok hmarks,ok_bind],?_,?_⟩
  · rw [hrank]
    exact hsound.filled.set hid hslot _ _
  · simp only [length_set,hsound.marks]

theorem dropTxn_ok {shortid : ℕ} (hfind : table.find shortid=some position)
    (extra : ℕ) :
    ∃ next, dropTxn search position extra=.ok next ∧ Sound hashes msg known slots next := by
  obtain ⟨hlt,rank,hid,hrank⟩ := hranked shortid position hfind
  obtain ⟨hslots,-⟩ := hsound.within hlt
  refine ⟨_,by rw [dropTxn,vectorSet_ok hslots,ok_bind],?_,?_⟩
  · rw [hrank]
    exact hsound.filled.set hid (fun tx htx => by cases htx) _ _
  · exact hsound.marks

theorem reads_ok {shortid : ℕ} (hfind : table.find shortid=some position) :
    ∃ found slot, vectorAt search.have_txn position=.ok found ∧
      vectorAt search.block.txn_available position=.ok slot := by
  obtain ⟨hlt,-⟩ := hranked shortid position hfind
  obtain ⟨hslots,hmarks⟩ := hsound.within hlt
  exact ⟨_,_,vectorAt_ok (getElem?_eq_getElem hmarks),
    vectorAt_ok (getElem?_eq_getElem hslots)⟩

theorem matchExtra_ok {tx : CTransaction} (hknown : tx∈known) :
    ∃ next, matchExtra table search (getShortID hashes msg tx.hash) (some tx)=.ok next ∧
      Sound hashes msg known slots next := by
  have hslot : ∀ other, some tx=some other → other∈known ∧
      getShortID hashes msg other.hash=getShortID hashes msg tx.hash := by
    intro other he
    cases he
    exact ⟨hknown,rfl⟩
  unfold matchExtra
  cases hfind : table.find (getShortID hashes msg tx.hash) with
  | none => exact ⟨search,rfl,hsound⟩
  | some position =>
    obtain ⟨found,slot,hfound,hthere⟩ := reads_ok hsound hranked hfind
    simp only [hfound,ok_bind]
    split_ifs with hnew
    · exact takeTxn_ok hsound hranked hfind hslot 1
    · simp only [hthere,ok_bind]
      cases slot with
      | none => exact ⟨search,rfl,hsound⟩
      | some present =>
        dsimp only
        split_ifs with hother
        · exact dropTxn_ok hsound hranked hfind 1
        · exact ⟨search,rfl,hsound⟩

end

end

end Searching

end Pyrk.CompactPositions
