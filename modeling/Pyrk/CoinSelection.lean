import Mathlib.Algebra.Order.BigOperators.Group.List
import Pyrk.WalletCoins

/-!
# Selection of coins

Coins that are just right are taken first, then the smallest one that is large enough, and else
random subsets of the smaller ones are tried. Denominated coins are only used when the others do
not suffice.
-/

namespace Pyrk.CoinSelection

open Transaction PrivateSend WalletCoins List

/-- Amount and place of an output. -/
abbrev Coin := ℤ×COutPoint

structure SelectionNode where
  node : WalletNode
  wallet : CWallet
  transactionWithinChainLimit : Uint256 → ℕ → Bool
  getRealOutpointPrivateSendRounds : COutPoint → ℤ
  nPrivateSendRounds : ℤ
  maxTxFee : ℕ
  instantSendMaxValue : ℤ
  /-- The coins are shuffled, then sorted. -/
  arrange : List COutput → List COutput
  arrange_perm : ∀ vCoins, (arrange vCoins).Perm vCoins
  /-- Random bits by search, round and position. -/
  rand32 : ℕ → ℕ → ℕ → Bool

/-- What is asked for. -/
structure SelectionRequest where
  nTargetValue : ℤ
  nConfMine : ℤ
  nConfTheirs : ℤ
  nMaxAncestors : ℕ
  nCoinType : AvailableCoinsType := .allCoins
  fUseInstantSend : Bool := false

structure Selection where
  setCoinsRet : List COutPoint := []
  nValueRet : ℤ := 0

def Selection.take (selection : Selection) (coin : Coin) : Selection :=
  ⟨selection.setCoinsRet.insert coin.2,selection.nValueRet+coin.1⟩

section Subsets

/-- Values that are tried together, and the best ones so far. -/
structure Subset where
  vfIncluded : List Bool
  nTotal : ℤ
  fReachedTarget : Bool
  vfBest : List Bool
  nBest : ℤ

variable (limit : Option ℤ) (nTargetValue : ℤ)

/-- Include a coin, unless the total gets too large. It is taken out again when it reaches the
target. -/
def Subset.tryCoin (subset : Subset) (i : ℕ) (value : ℤ) (wanted : Bool) : Subset :=
  if limit.any (fun most => most < subset.nTotal+value) || !wanted then subset
  else if subset.nTotal+value<nTargetValue then
    { subset with vfIncluded := subset.vfIncluded.set i true, nTotal := subset.nTotal+value }
  else
    { subset with
      vfIncluded := subset.vfIncluded.set i false
      fReachedTarget := true
      vfBest := if subset.nTotal+value < subset.nBest then subset.vfIncluded.set i true
        else subset.vfBest
      nBest := min subset.nBest (subset.nTotal+value) }

/-- Go over the coins from a position on, by random bits or over those that are left. -/
def Subset.pass (rand : Option (ℕ → Bool)) : List Coin → ℕ → Subset → Subset
  | [],_,subset => subset
  | coin::vValue,i,subset =>
    pass rand vValue (i+1) (subset.tryCoin limit nTargetValue i coin.1
      (match rand with
      | some bit => bit i
      | none => !subset.vfIncluded[i]?.getD false))

/-- A round of two passes. -/
def round (rand : ℕ → Bool) (vValue : List Coin) (best : List Bool×ℤ) : List Bool×ℤ :=
  let first := Subset.pass limit nTargetValue (some rand) vValue 0
    ⟨replicate vValue.length false,0,false,best.1,best.2⟩
  let last := if first.fReachedTarget then first
    else Subset.pass limit nTargetValue none vValue 0 first
  (last.vfBest,last.nBest)

/-- Rounds until the target is met exactly. -/
def rounds (rand : ℕ → ℕ → Bool) (vValue : List Coin) : ℕ → ℕ → List Bool×ℤ → List Bool×ℤ
  | 0,_,best => best
  | iterations+1,nRep,best =>
    if best.2=nTargetValue then best
    else rounds rand vValue iterations (nRep+1) (round limit nTargetValue (rand nRep) vValue best)

/-- Approximate the subset with the least total that reaches the target. -/
def approximateBestSubset (rand : ℕ → ℕ → Bool) (vValue : List Coin) (nTotalLower : ℤ) :
    List Bool×ℤ :=
  rounds limit nTargetValue rand vValue 1000 0 (replicate vValue.length true,nTotalLower)

def included : List Coin → List Bool → List Coin
  | coin::vValue,flag::vfIncluded =>
    if flag then coin::included vValue vfIncluded else included vValue vfIncluded
  | _,_ => []

end Subsets

/-- Coins below the target and its change, and the least one above. -/
structure Gathered where
  coinLowestLarger : Option Coin := none
  vValue : List Coin := []
  nTotalLower : ℤ := 0

variable (node : SelectionNode) (request : SelectionRequest)

/-- Change that is worth an output; none is allowed in mixing. -/
def nMinChange : ℤ := if request.nCoinType=.onlyDenominated then 0 else coin/100

/-- Larger coins do not count. -/
def largest : ℤ := if request.fUseInstantSend then node.instantSendMaxValue*coin else 2^63-1

def coinOf (output : COutput) : Coin :=
  ((output.tx.tx.vout[output.i]?.map CTxOut.nValue).getD 0,⟨output.wtxid,output.i⟩)

/-- Whether a coin may be selected. -/
def usable (output : COutput) : Bool :=
  output.fSpendable &&
  (if isFromMe node.node node.wallet output.tx then request.nConfMine else request.nConfTheirs)
    ≤ output.nDepth &&
  node.transactionWithinChainLimit output.tx.tx.hash request.nMaxAncestors &&
  !(request.nCoinType=.onlyDenominated &&
    node.getRealOutpointPrivateSendRounds ⟨output.tx.tx.hash,output.i⟩<node.nPrivateSendRounds)

/-- Coins of a try; the first one leaves denominated amounts out. -/
def candidates (tryDenom : Bool) (vCoins : List COutput) : List Coin :=
  ((vCoins.filter (usable node request)).map coinOf).filter
    (fun coin => tryDenom || !isDenominatedAmount coin.1)

/-- Sort coins by the target; one that is equal to it ends the search. -/
def gather : List Coin → Gathered → Gathered⊕Coin
  | [],gathered => .inl gathered
  | coin::coins,gathered =>
    if coin.1=request.nTargetValue then .inr coin
    else if coin.1 < request.nTargetValue+nMinChange request then
      gather coins { gathered with
        vValue := gathered.vValue++[coin], nTotalLower := gathered.nTotalLower+coin.1 }
    else if coin.1<(gathered.coinLowestLarger.map Prod.fst).getD (largest node request) then
      gather coins { gathered with coinLowestLarger := some coin }
    else gather coins gathered

/-- Best subset for an amount. -/
def search (attempt : ℕ) (nTarget : ℤ) (vValue : List Coin) (nTotalLower : ℤ) : List Bool×ℤ :=
  approximateBestSubset (if request.fUseInstantSend then some (largest node request) else none)
    nTarget (node.rand32 attempt) vValue nTotalLower

/-- The best subset for the target, or else one with room for the change. -/
def bestSubset (vValue : List Coin) (nTotalLower : ℤ) : List Bool×ℤ :=
  if (search node request 0 request.nTargetValue vValue nTotalLower).2≠request.nTargetValue ∧
      request.nTargetValue+nMinChange request ≤ nTotalLower then
    search node request 1 (request.nTargetValue+nMinChange request) vValue nTotalLower
  else search node request 0 request.nTargetValue vValue nTotalLower

/-- The best subset of the smaller coins, or the larger coin if it is closer. -/
def solve (gathered : Gathered) : Selection :=
  let vValue := (gathered.vValue.mergeSort (fun first second => first.1 ≤ second.1)).reverse
  let best := bestSubset node request vValue gathered.nTotalLower
  match gathered.coinLowestLarger with
  | none => (included vValue best.1).foldl Selection.take {}
  | some coin =>
    if (best.2≠request.nTargetValue ∧ best.2 < request.nTargetValue+nMinChange request) ∨
        coin.1 ≤ best.2 then
      ({} : Selection).take coin
    else (included vValue best.1).foldl Selection.take {}

/-- Mixing has no change, so that what is too much has to be within the fee. -/
def judged (selection : Selection) : Selection×Bool :=
  (selection,request.nCoinType≠.onlyDenominated ||
    selection.nValueRet-request.nTargetValue ≤ node.maxTxFee)

/-- A try with some coins; nothing when they are too few. -/
def selectFrom (coins : List Coin) : Option (Selection×Bool) :=
  match gather node request coins {} with
  | .inr coin => some (({} : Selection).take coin,true)
  | .inl gathered =>
    if gathered.nTotalLower=request.nTargetValue then
      some (gathered.vValue.foldl Selection.take {},true)
    else if gathered.nTotalLower < request.nTargetValue then
      gathered.coinLowestLarger.map (fun coin => judged node request (({} : Selection).take coin))
    else some (judged node request (solve node request gathered))

def selectCoinsMinConf (vCoins : List COutput) : Selection×Bool :=
  let vCoins := node.arrange vCoins
  ((if request.nCoinType=.onlyDenominated then none
    else selectFrom node request (candidates node request false vCoins)).or
      (selectFrom node request (candidates node request true vCoins))).getD ({},false)

/-- Coins that are not too large. -/
def small (coins : List Coin) : List Coin :=
  coins.filter (fun coin => coin.1=request.nTargetValue ∨
    coin.1 < request.nTargetValue+nMinChange request ∨ coin.1<largest node request)

/-- Coins that may be selected and are not too large. -/
def eligible (vCoins : List COutput) : List Coin :=
  small node request (candidates node request true vCoins)

/-- Some of the coins are selected, and their total is told. -/
def Picked (coins : List Coin) (selection : Selection) : Prop :=
  ∃ chosen : List Coin,chosen.Subperm coins ∧ selection.setCoinsRet.Perm (chosen.map Prod.snd) ∧
    selection.nValueRet=(chosen.map Prod.fst).sum

/-- Some of the coins are selected, and a success reaches the target, within the fee when mixing. -/
structure RightlySelected (coins : List Coin) (result : Selection×Bool) : Prop where
  picked : Picked coins result.1
  enough : result.2=true → request.nTargetValue ≤ result.1.nValueRet
  fee : result.2=true → request.nCoinType=.onlyDenominated →
    result.1.nValueRet-request.nTargetValue ≤ node.maxTxFee

section Subsets

variable {limit : Option ℤ} {nTargetValue : ℤ} {vValue : List Coin}

theorem included_sublist (vValue : List Coin) (flags : List Bool) :
    (included vValue flags).Sublist vValue := by
  induction vValue generalizing flags with
  | nil => exact Sublist.refl _
  | cons coin vValue ih =>
    cases flags with
    | nil => exact nil_sublist _
    | cons flag flags =>
      rw [included]
      split_ifs
      · exact (ih flags).cons_cons coin
      · exact (ih flags).cons coin

/-- Total of the coins that are included. -/
def total (vValue : List Coin) (flags : List Bool) : ℤ :=
  ((included vValue flags).map Prod.fst).sum

theorem total_set {i : ℕ} {coin : Coin} (hcoin : vValue[i]?=some coin) {flags : List Bool}
    (hflag : flags[i]?=some false) : total vValue (flags.set i true)=total vValue flags+coin.1 := by
  induction vValue generalizing i flags with
  | nil => cases hcoin
  | cons head vValue ih =>
    cases flags with
    | nil => cases hflag
    | cons flag flags =>
      cases i with
      | zero =>
        cases hcoin
        cases hflag
        simp [total,included,add_comm]
      | succ i =>
        have hrest := @ih i hcoin flags hflag
        unfold total at hrest ⊢
        cases flag
        · exact hrest
        · simp only [set_cons_succ,included,if_pos,map_cons,sum_cons,hrest,add_assoc]

theorem included_replicate (vValue : List Coin) :
    included vValue (replicate vValue.length true)=vValue := by
  induction vValue with
  | nil => rfl
  | cons coin vValue ih => rw [length_cons,replicate_succ,included,if_pos rfl,ih]

theorem total_replicate (vValue : List Coin) :
    total vValue (replicate vValue.length false)=0 := by
  induction vValue with
  | nil => rfl
  | cons coin vValue ih => exact ih

/-- The best total is the one of the best coins, and it reaches the target. -/
def Reaches (nTargetValue : ℤ) (vValue : List Coin) (best : List Bool×ℤ) : Prop :=
  best.2=total vValue best.1 ∧ nTargetValue ≤ best.2

/-- Totals are those of the coins. In the first pass no coin from a position on is included. -/
structure Subset.Adds (nTargetValue : ℤ) (vValue : List Coin) (subset : Subset) : Prop where
  total : subset.nTotal=total vValue subset.vfIncluded
  length : subset.vfIncluded.length=vValue.length
  best : Reaches nTargetValue vValue (subset.vfBest,subset.nBest)

theorem Subset.Adds.tryCoin {subset : Subset} (h : subset.Adds nTargetValue vValue) {i : ℕ}
    {coin : Coin} (hcoin : vValue[i]?=some coin) {wanted : Bool}
    (hwanted : wanted=true → subset.vfIncluded[i]?=some false) :
    (subset.tryCoin limit nTargetValue i coin.1 wanted).Adds nTargetValue vValue := by
  unfold Subset.tryCoin
  by_cases hskip : (limit.any (fun most => most < subset.nTotal+coin.1) || !wanted)=true
  · rw [if_pos hskip]
    exact h
  · rw [if_neg hskip]
    have hflag := hwanted (by grind)
    have hsum := total_set hcoin hflag
    have hback : subset.vfIncluded.set i false=subset.vfIncluded := by
      refine ext_getElem? (fun j => ?_)
      rw [getElem?_set]
      grind
    split_ifs with hless hbetter
    · exact ⟨by rw [hsum,h.total],by rw [length_set,h.length],h.best⟩
    · refine ⟨h.total.trans (by rw [hback]),by rw [hback,h.length],?_⟩
      rw [min_eq_right hbetter.le]
      exact ⟨by rw [hsum,h.total],le_of_not_gt hless⟩
    · refine ⟨h.total.trans (by rw [hback]),by rw [hback,h.length],?_⟩
      rw [min_eq_left (le_of_not_gt hbetter)]
      exact h.best

/-- Coins from a position on are not included. -/
def Fresh (i : ℕ) (flags : List Bool) : Prop := ∀ j≥i,flags[j]?≠some true

theorem Subset.Adds.pass {rand : Option (ℕ → Bool)} {coins : List Coin} {i : ℕ} {subset : Subset}
    (h : subset.Adds nTargetValue vValue) (hcoins : vValue.drop i=coins)
    (hfresh : rand.isSome=true → Fresh i subset.vfIncluded) :
    (Subset.pass limit nTargetValue rand coins i subset).Adds nTargetValue vValue := by
  induction coins generalizing i subset with
  | nil => exact h
  | cons coin coins ih =>
    have hcoin : vValue[i]?=some coin := by
      rw [← head?_drop,hcoins]
      rfl
    have hi : i < subset.vfIncluded.length := by
      rw [h.length]
      exact (List.getElem?_eq_some_iff.mp hcoin).1
    have hflag : subset.vfIncluded[i]?≠some true → subset.vfIncluded[i]?=some false := by
      rw [List.getElem?_eq_getElem hi]
      cases subset.vfIncluded[i] <;> simp
    refine ih (h.tryCoin hcoin ?_) ?_ ?_
    · intro hwanted
      cases rand with
      | none =>
        refine hflag (fun htrue => ?_)
        rw [htrue] at hwanted
        cases hwanted
      | some bit => exact hflag (hfresh rfl i le_rfl)
    · rw [← tail_drop,hcoins,tail_cons]
    · intro hsome j hj
      have hnot := hfresh hsome j (by omega)
      unfold Subset.tryCoin
      grind

theorem Reaches.round {rand : ℕ → Bool} {best : List Bool×ℤ}
    (h : Reaches nTargetValue vValue best) :
    Reaches nTargetValue vValue (round limit nTargetValue rand vValue best) := by
  have hstart : Subset.Adds nTargetValue vValue
      ⟨replicate vValue.length false,0,false,best.1,best.2⟩ :=
    ⟨(total_replicate vValue).symm,length_replicate,h⟩
  have hfirst := @Subset.Adds.pass limit _ _ (some rand) _ _ _ hstart drop_zero (by
    intro _ j _
    grind)
  unfold CoinSelection.round
  dsimp only
  split_ifs
  · exact hfirst.best
  · exact (hfirst.pass drop_zero (fun hsome => by cases hsome)).best

theorem Reaches.rounds {rand : ℕ → ℕ → Bool} {best : List Bool×ℤ} {iterations nRep : ℕ}
    (h : Reaches nTargetValue vValue best) :
    Reaches nTargetValue vValue
      (rounds limit nTargetValue rand vValue iterations nRep best) := by
  induction iterations generalizing nRep best with
  | zero => exact h
  | succ iterations ih =>
    rw [CoinSelection.rounds]
    split_ifs
    · exact h
    · exact ih h.round

theorem approximateBestSubset_reaches {rand : ℕ → ℕ → Bool} {nTotalLower : ℤ}
    (htotal : nTotalLower=(vValue.map Prod.fst).sum) (hle : nTargetValue≤nTotalLower) :
    Reaches nTargetValue vValue
      (approximateBestSubset limit nTargetValue rand vValue nTotalLower) := by
  refine Reaches.rounds ⟨?_,hle⟩
  rw [total,included_replicate]
  exact htotal

end Subsets

variable {node request} {coins pool : List Coin}

theorem foldl_take (hnodup : (coins.map Prod.snd).Nodup) {selection : Selection}
    (hout : ∀ coin∈coins,coin.2∉selection.setCoinsRet) :
    (coins.foldl Selection.take selection).setCoinsRet.Perm
      (coins.map Prod.snd++selection.setCoinsRet) ∧
    (coins.foldl Selection.take selection).nValueRet=
      selection.nValueRet+(coins.map Prod.fst).sum := by
  induction coins generalizing selection with
  | nil => exact ⟨Perm.refl _,(add_zero _).symm⟩
  | cons coin coins ih =>
    rw [map_cons,nodup_cons] at hnodup
    have hinsert : (selection.take coin).setCoinsRet=coin.2::selection.setCoinsRet :=
      insert_of_not_mem (hout coin mem_cons_self)
    obtain ⟨hset,hvalue⟩ := @ih hnodup.2 (selection.take coin) (by
      intro other hother
      rw [hinsert,mem_cons,not_or]
      refine ⟨?_,hout other (mem_cons_of_mem _ hother)⟩
      intro hsame
      exact hnodup.1 (hsame ▸ mem_map_of_mem hother))
    rw [foldl_cons,map_cons,map_cons,sum_cons,hvalue,← add_assoc]
    rw [hinsert] at hset
    exact ⟨hset.trans perm_middle,rfl⟩

theorem picked_foldl (hsub : coins.Subperm pool) (hnodup : (pool.map Prod.snd).Nodup) :
    Picked pool (coins.foldl Selection.take {}) ∧
      (coins.foldl Selection.take {}).nValueRet=(coins.map Prod.fst).sum := by
  have hkeys : (coins.map Prod.snd).Nodup := by
    obtain ⟨part,hperm,hpart⟩ := hsub
    exact (hperm.map _).nodup_iff.mp ((hpart.map _).nodup hnodup)
  obtain ⟨hset,hvalue⟩ := @foldl_take _ hkeys {} (fun _ _ => not_mem_nil)
  rw [append_nil] at hset
  rw [zero_add] at hvalue
  exact ⟨⟨coins,hsub,hset,hvalue⟩,hvalue⟩

/-- What the coins are sorted into. -/
structure Splits (node : SelectionNode) (request : SelectionRequest) (coins : List Coin)
    (gathered next : Gathered) : Prop where
  differ : ∀ coin∈coins,coin.1≠request.nTargetValue
  smaller : next.vValue=gathered.vValue++
    coins.filter (fun coin => coin.1 < request.nTargetValue+nMinChange request)
  total : gathered.nTotalLower=(gathered.vValue.map Prod.fst).sum →
    next.nTotalLower=(next.vValue.map Prod.fst).sum
  larger : ∀ coin,next.coinLowestLarger=some coin → gathered.coinLowestLarger=some coin ∨
    coin∈coins ∧ request.nTargetValue+nMinChange request ≤ coin.1 ∧
      coin.1<(gathered.coinLowestLarger.map Prod.fst).getD (largest node request)
  none : next.coinLowestLarger=none → gathered.coinLowestLarger=none ∧ ∀ coin∈coins,
    coin.1 < request.nTargetValue+nMinChange request ∨ largest node request ≤ coin.1

theorem gather_inr {gathered : Gathered} {coin : Coin}
    (h : gather node request coins gathered=.inr coin) :
    coin∈coins ∧ coin.1=request.nTargetValue := by
  induction coins generalizing gathered with
  | nil => cases h
  | cons head coins ih =>
    unfold gather at h
    split_ifs at h with hsame
    · cases h
      exact ⟨mem_cons_self,hsame⟩
    all_goals exact ⟨mem_cons_of_mem _ (ih h).1,(ih h).2⟩

theorem gather_inl {gathered next : Gathered}
    (h : gather node request coins gathered=.inl next) :
    Splits node request coins gathered next := by
  induction coins generalizing gathered with
  | nil =>
    cases h
    exact ⟨by simp,by simp,id,fun _ => Or.inl,fun hnone => ⟨hnone,by simp⟩⟩
  | cons coin coins ih =>
    unfold gather at h
    split_ifs at h with hsame hsmall hlarge
    · have hrest := ih h
      refine ⟨forall_mem_cons.mpr ⟨hsame,hrest.differ⟩,?_,?_,?_,?_⟩
      · rw [hrest.smaller,filter_cons,if_pos (decide_eq_true hsmall),append_assoc]
        rfl
      · intro htotal
        refine hrest.total ?_
        simp [htotal]
      · grind [hrest.larger]
      · grind [hrest.none]
    all_goals
      have hrest := ih h
      refine ⟨forall_mem_cons.mpr ⟨hsame,hrest.differ⟩,?_,hrest.total,?_,?_⟩
      · rw [hrest.smaller,filter_cons,if_neg (by simpa using hsmall)]
      · grind [hrest.larger]
      · grind [hrest.none]

theorem nMinChange_nonneg : 0≤nMinChange request := by
  unfold nMinChange
  split_ifs <;> decide

theorem bestSubset_reaches {vValue : List Coin} {nTotalLower : ℤ}
    (htotal : nTotalLower=(vValue.map Prod.fst).sum) (hle : request.nTargetValue≤nTotalLower) :
    Reaches request.nTargetValue vValue (bestSubset node request vValue nTotalLower) := by
  unfold bestSubset
  split_ifs with hmore
  · exact (approximateBestSubset_reaches htotal hmore.2).imp_right
      (le_trans (le_add_of_nonneg_right nMinChange_nonneg))
  · exact approximateBestSubset_reaches htotal hle

theorem picked_take {coin : Coin} (hmem : coin∈pool) :
    Picked pool (({} : Selection).take coin) ∧ (({} : Selection).take coin).nValueRet=coin.1 :=
  ⟨⟨[coin],(singleton_sublist.mpr hmem).subperm,Perm.refl _,by simp [Selection.take]⟩,zero_add _⟩

/-- Coins of the pool are picked that reach the target. -/
def Suffices (request : SelectionRequest) (pool : List Coin) (selection : Selection) : Prop :=
  Picked pool selection ∧ request.nTargetValue ≤ selection.nValueRet

/-- What is solved reaches the target, by a subset or by the larger coin. -/
theorem suffices_solve {gathered : Gathered} (hsub : gathered.vValue.Subperm pool)
    (hnodup : (pool.map Prod.snd).Nodup)
    (htotal : gathered.nTotalLower=(gathered.vValue.map Prod.fst).sum)
    (hle : request.nTargetValue≤gathered.nTotalLower)
    (hlarger : ∀ coin,gathered.coinLowestLarger=some coin →
      Suffices request pool (({} : Selection).take coin)) :
    Suffices request pool (solve node request gathered) := by
  unfold solve
  dsimp only
  generalize hvalue : (gathered.vValue.mergeSort (fun first second => first.1 ≤ second.1)).reverse=
    vValue
  have hperm : vValue.Perm gathered.vValue :=
    hvalue ▸ (reverse_perm _).trans (mergeSort_perm _ _)
  rw [← (hperm.map Prod.fst).sum_eq] at htotal
  have hbest := @bestSubset_reaches node _ _ _ htotal hle
  generalize bestSubset node request vValue gathered.nTotalLower=best at hbest ⊢
  have hsubset : Suffices request pool ((included vValue best.1).foldl Selection.take {}) := by
    have hpicked := picked_foldl
      (((included_sublist vValue best.1).subperm.trans hperm.subperm).trans hsub) hnodup
    refine ⟨hpicked.1,?_⟩
    rw [hpicked.2]
    exact hbest.2.trans_eq hbest.1
  cases hcoin : gathered.coinLowestLarger with
  | none => exact hsubset
  | some coin =>
    dsimp only
    split_ifs
    · exact hlarger coin hcoin
    · exact hsubset

theorem right_exact {selection : Selection} (hpicked : Picked pool selection)
    (hvalue : selection.nValueRet=request.nTargetValue) :
    RightlySelected node request pool (selection,true) := by
  refine ⟨hpicked,fun _ => hvalue.ge,fun _ _ => ?_⟩
  rw [hvalue,sub_self]
  exact Int.natCast_nonneg _

theorem right_judged {selection : Selection} (h : Suffices request pool selection) :
    RightlySelected node request pool (judged node request selection) ∧
      (request.nCoinType≠.onlyDenominated → (judged node request selection).2=true) := by
  refine ⟨⟨h.1,fun _ => h.2,fun hok hmixing => ?_⟩,fun hother => ?_⟩
  · simpa [judged,hmixing] using hok
  · simp [judged,hother]

/-- What a try selects is right, and without mixing it is a success. -/
theorem selectFrom_eq_some {result : Selection×Bool}
    (h : selectFrom node request coins=some result)
    (hsub : (small node request coins).Subperm pool) (hnodup : (pool.map Prod.snd).Nodup) :
    RightlySelected node request pool result ∧
      (request.nCoinType≠.onlyDenominated → result.2=true) := by
  unfold selectFrom at h
  cases hgather : gather node request coins {} with
  | inr coin =>
    rw [hgather] at h
    cases h
    obtain ⟨hmem,hvalue⟩ := gather_inr hgather
    have hpicked := picked_take (hsub.subset (mem_filter.mpr ⟨hmem,by simp [hvalue]⟩))
    exact ⟨right_exact hpicked.1 (hpicked.2.trans hvalue),fun _ => rfl⟩
  | inl gathered =>
    have hsplits := gather_inl hgather
    have htotal := hsplits.total rfl
    have hless : gathered.vValue.Subperm pool := by
      refine Subperm.trans (Sublist.subperm ?_) hsub
      rw [hsplits.smaller,nil_append]
      exact monotone_filter_right _ (fun coin hcoin => by simp_all)
    have hlarger : ∀ coin,gathered.coinLowestLarger=some coin →
        Suffices request pool (({} : Selection).take coin) := by
      intro coin hcoin
      obtain hstart | ⟨hmem,hge,hlt⟩ := hsplits.larger coin hcoin
      · cases hstart
      · have hpicked := picked_take
          (hsub.subset (mem_filter.mpr ⟨hmem,by simpa using .inr (.inr hlt)⟩))
        refine ⟨hpicked.1,?_⟩
        rw [hpicked.2]
        exact (le_add_of_nonneg_right nMinChange_nonneg).trans hge
    rw [hgather] at h
    dsimp only at h
    split_ifs at h with hsame hfew
    · cases h
      have hpicked := picked_foldl hless hnodup
      exact ⟨right_exact hpicked.1 (hpicked.2.trans (htotal.symm.trans hsame)),fun _ => rfl⟩
    · obtain ⟨coin,hcoin,rfl⟩ := Option.map_eq_some_iff.mp h
      exact right_judged (hlarger coin hcoin)
    · cases h
      exact right_judged (suffices_solve hless hnodup htotal (le_of_not_gt hfew) hlarger)

theorem selectFrom_eq_none (h : selectFrom node request coins=none) :
    ((small node request coins).map Prod.fst).sum < request.nTargetValue := by
  unfold selectFrom at h
  cases hgather : gather node request coins {} with
  | inr coin =>
    rw [hgather] at h
    cases h
  | inl gathered =>
    have hsplits := gather_inl hgather
    rw [hgather] at h
    dsimp only at h
    split_ifs at h with hsame hfew
    have hnone := hsplits.none (Option.map_eq_none_iff.mp h)
    have hall : small node request coins=gathered.vValue := by
      rw [hsplits.smaller,nil_append]
      refine filter_congr (fun coin hcoin => ?_)
      have hdiffer := hsplits.differ coin hcoin
      have hwhich := hnone.2 coin hcoin
      grind
    rw [hall,← hsplits.total rfl]
    exact hfew

variable {vCoins : List COutput}

theorem eligible_sublist :
    (eligible node request vCoins).Sublist ((vCoins.filter (usable node request)).map coinOf) :=
  filter_sublist.trans filter_sublist

theorem eligible_arrange :
    (eligible node request (node.arrange vCoins)).Perm (eligible node request vCoins) :=
  ((((node.arrange_perm vCoins).filter _).map coinOf).filter _).filter _

theorem candidates_subperm (tryDenom : Bool) :
    (small node request (candidates node request tryDenom (node.arrange vCoins))).Subperm
      (eligible node request vCoins) := by
  refine (Sublist.subperm ?_).trans eligible_arrange.subperm
  exact (monotone_filter_right _ (fun coin _ => rfl)).filter _

/-- Coins without mixing are selected exactly if those that are not too large suffice. -/
theorem selectCoinsMinConf_right (node : SelectionNode) (request : SelectionRequest)
    (vCoins : List COutput) (hdistinct : (vCoins.map (fun output => (coinOf output).2)).Nodup)
    (hvalues : ∀ output∈vCoins,0 ≤ (coinOf output).1) :
    RightlySelected node request (eligible node request vCoins)
      (selectCoinsMinConf node request vCoins) ∧
    (request.nCoinType≠.onlyDenominated → ((selectCoinsMinConf node request vCoins).2=true ↔
      request.nTargetValue ≤ ((eligible node request vCoins).map Prod.fst).sum)) := by
  have hnodup : ((eligible node request vCoins).map Prod.snd).Nodup := by
    refine Nodup.sublist (eligible_sublist.map _) ?_
    rw [map_map]
    exact hdistinct.sublist (filter_sublist.map _)
  have hpos : ∀ n∈(eligible node request vCoins).map Prod.fst,0≤n := by
    intro n hn
    obtain ⟨coin,hcoin,rfl⟩ := mem_map.mp hn
    obtain ⟨output,houtput,rfl⟩ := mem_map.mp (eligible_sublist.subset hcoin)
    exact hvalues output (mem_filter.mp houtput).1
  have hgood : ∀ tryDenom result,
      selectFrom node request (candidates node request tryDenom (node.arrange vCoins))=some result →
      RightlySelected node request (eligible node request vCoins) result ∧
      (request.nCoinType≠.onlyDenominated → (result.2=true ↔
        request.nTargetValue ≤ ((eligible node request vCoins).map Prod.fst).sum)) := by
    intro tryDenom result hres
    obtain ⟨hright,hok⟩ := selectFrom_eq_some hres (candidates_subperm tryDenom) hnodup
    refine ⟨hright,fun hother => ⟨fun h => (hright.enough h).trans ?_,fun _ => hok hother⟩⟩
    obtain ⟨chosen,⟨part,hperm,hsub⟩,-,hvalue⟩ := hright.picked
    rw [hvalue,← (hperm.map Prod.fst).sum_eq]
    exact (hsub.map Prod.fst).sum_le_sum hpos
  unfold selectCoinsMinConf
  dsimp only
  cases hfirst : (if request.nCoinType=.onlyDenominated then none
      else selectFrom node request (candidates node request false (node.arrange vCoins))) with
  | some result =>
    refine hgood false result ?_
    split_ifs at hfirst
    exact hfirst
  | none =>
    cases hlast : selectFrom node request (candidates node request true (node.arrange vCoins)) with
    | some result => exact hgood true result hlast
    | none =>
      have hfew : ((eligible node request (node.arrange vCoins)).map Prod.fst).sum <
          request.nTargetValue := selectFrom_eq_none hlast
      rw [(eligible_arrange.map Prod.fst).sum_eq] at hfew
      refine ⟨⟨⟨[],nil_subperm,Perm.refl _,rfl⟩,?_,?_⟩,fun _ => ⟨?_,?_⟩⟩
      · exact fun h => by cases h
      · exact fun h => by cases h
      · exact fun h => by cases h
      · exact fun hle => absurd hle (not_le_of_gt hfew)

/-- A node whose coins stay in order, without random bits. -/
def plainSelection : SelectionNode where
  node := youngNode
  wallet := lockedWallet
  transactionWithinChainLimit := fun _ _ => true
  getRealOutpointPrivateSendRounds := fun _ => 0
  nPrivateSendRounds := 2
  maxTxFee := 10
  instantSendMaxValue := 1000
  arrange := id
  arrange_perm := fun _ => Perm.refl _
  rand32 := fun _ _ _ => false

/-- Both outputs of a transaction. -/
def bothCoins : List COutput :=
  [0,1].map (fun i => ⟨5,{ tx := twoOutputs, hashBlock := 7, nIndex := 0 },i,1,true,true⟩)

/-- Both coins reach an amount above that of the larger one. -/
theorem selectCoinsMinConf_both :
    (selectCoinsMinConf plainSelection ⟨1000*coin+1,1,1,0,.allCoins,false⟩ bothCoins).2=true :=
  ((selectCoinsMinConf_right plainSelection ⟨1000*coin+1,1,1,0,.allCoins,false⟩ bothCoins
    (by decide) (by decide)).2 (by decide)).mpr (by decide)

end Pyrk.CoinSelection
