import Pyrk.DeterministicMNList

/-!
# The coin set

Unspent outputs by outpoint, and what connecting a transaction does to them:
inputs are checked and spent in order, outputs that can be spent are added.
-/

namespace Pyrk.Coins

open Transaction DeterministicMNList Script OrderedMap

/-- Unspent outputs. A spent coin is not in the map. -/
abbrev CoinsView := OrderedMap COutPoint Coin

/-- Unspent coin of the chain. -/
def getUTXOCoin (view : CoinsView) (outpoint : COutPoint) : Option Coin := view.find outpoint

/-- All inputs are unspent; a coinbase has none to check. -/
def haveInputs (view : CoinsView) (tx : CTransaction) : Bool :=
  tx.isCoinBase || tx.vin.all (fun input => view.contains input.prevout)

/-- Store a coin unless its script can never be spent. A coin that is still
unspent is replaced, also where the source would refuse to. -/
def addCoin (view : CoinsView) (outpoint : COutPoint) (entry : Coin) : CoinsView :=
  if isUnspendable entry.out.scriptPubKey then view else view.set outpoint entry

/-- Store outputs of a transaction, counted from an index on. -/
def addOutputs (hash : Uint256) (fCoinbase : Bool) (nHeight : ℕ) :
    CoinsView → ℕ → List CTxOut → CoinsView
  | view,_,[] => view
  | view,n,out::tail =>
    addOutputs hash fCoinbase nHeight (addCoin view ⟨hash,n⟩ ⟨out,fCoinbase,nHeight⟩) (n+1) tail

/-- Store all outputs of a transaction. -/
def addCoins (view : CoinsView) (tx : CTransaction) (nHeight : ℕ) : CoinsView :=
  addOutputs tx.hash tx.isCoinBase nHeight view 0 tx.vout

/-- Take a coin out of the set. -/
def spendCoin (view : CoinsView) (outpoint : COutPoint) : Option (Coin×CoinsView) :=
  (view.find outpoint).map (fun entry => (entry,view.erase outpoint))

/-- Spend inputs in order and keep the coins for undoing. -/
def spendInputs : CoinsView → List CTxIn → Checked (List Coin×CoinsView)
  | view,[] => .ok ([],view)
  | view,input::tail =>
    match spendCoin view input.prevout with
    | none => .error (.assertion .updateCoins)
    | some spent => do
      let rest ← spendInputs spent.2 tail
      .ok (spent.1::rest.1,rest.2)

def spentInputs (tx : CTransaction) : List CTxIn := if tx.isCoinBase then [] else tx.vin

/-- Apply a transaction to the coin set and return the undo coins. -/
def updateCoins (view : CoinsView) (tx : CTransaction) (nHeight : ℕ) :
    Checked (List Coin×CoinsView) := do
  let spent ← spendInputs view (spentInputs tx)
  .ok (spent.1,addCoins spent.2 tx nHeight)

/-- Check the inputs of a transaction of a block and apply it. -/
def connectTx (nHeight : ℕ) (view : CoinsView) (tx : CTransaction) :
    Checked (List Coin×CoinsView) :=
  if !haveInputs view tx then rejectBlock 100 .invalid "bad-txns-inputs-missingorspent"
  else updateCoins view tx nHeight

/-- Apply the transactions of a block in order. -/
def connectTxs (nHeight : ℕ) (view : CoinsView) (vtx : List CTransaction) : Checked CoinsView :=
  vtx.foldlM (fun view tx => do
    let result ← connectTx nHeight view tx
    .ok result.2) view

/-- The outpoint is an output of the transaction that can be spent. -/
def Creates (tx : CTransaction) (outpoint : COutPoint) : Prop :=
  ∃ n out, tx.vout[n]?=some out ∧ isUnspendable out.scriptPubKey=false ∧ outpoint=⟨tx.hash,n⟩

/-- Spendable outputs are added. -/
theorem contains_addOutputs (hash : Uint256) (fCoinbase : Bool) (nHeight : ℕ) (view : CoinsView)
    (n : ℕ) (outs : List CTxOut) (outpoint : COutPoint) :
    (addOutputs hash fCoinbase nHeight view n outs).contains outpoint=true ↔
      view.contains outpoint=true ∨ ∃ k out, outs[k]?=some out ∧
        isUnspendable out.scriptPubKey=false ∧ outpoint=⟨hash,n+k⟩ := by
  induction outs generalizing view n with
  | nil =>
    simp only [addOutputs,List.getElem?_nil,reduceCtorEq,false_and,exists_false,or_false]
  | cons out tail ih =>
    rw [addOutputs,ih]
    have hadd : (addCoin view ⟨hash,n⟩ ⟨out,fCoinbase,nHeight⟩).contains outpoint=true ↔
        view.contains outpoint=true ∨ isUnspendable out.scriptPubKey=false ∧ outpoint=⟨hash,n⟩ := by
      unfold addCoin
      cases hscript : isUnspendable out.scriptPubKey with
      | true =>
        simp only [if_true,Bool.true_eq_false,false_and,or_false]
      | false =>
        simp only [Bool.false_eq_true,if_false,true_and,contains_iff,find_set]
        by_cases he : outpoint=⟨hash,n⟩
        · simp only [he,if_true,Option.some.injEq,exists_eq',or_true]
        · simp only [he,if_false,or_false]
    rw [hadd,or_assoc]
    refine or_congr_right ?_
    constructor
    · rintro (⟨hscript,he⟩ | ⟨k,found,hget,hscript,he⟩)
      · exact ⟨0,out,rfl,hscript,he⟩
      · refine ⟨k+1,found,hget,hscript,?_⟩
        rw [he,Nat.add_assoc,Nat.add_comm 1 k]
    · rintro ⟨k,found,hget,hscript,he⟩
      cases k with
      | zero =>
        cases hget
        exact .inl ⟨hscript,he⟩
      | succ k =>
        refine .inr ⟨k,found,hget,hscript,?_⟩
        rw [he,Nat.add_assoc,Nat.add_comm 1 k]

variable {nHeight : ℕ} {outpoint : COutPoint}

theorem find_addOutputs {hash : Uint256} {fCoinbase : Bool} {view : CoinsView}
    {n : ℕ} {outs : List CTxOut} {entry : Coin}
    (h : (addOutputs hash fCoinbase nHeight view n outs).find outpoint=some entry) :
    view.find outpoint=some entry ∨ ∃ k out, outs[k]?=some out ∧
      isUnspendable out.scriptPubKey=false ∧ outpoint=⟨hash,n+k⟩ ∧
      entry=⟨out,fCoinbase,nHeight⟩ := by
  induction outs generalizing view n with
  | nil => exact .inl h
  | cons out tail ih =>
    rcases ih h with hadded | ⟨k,found,hget,hscript,he,hentry⟩
    · unfold addCoin at hadded
      split_ifs at hadded with hscript
      · exact .inl hadded
      · rw [find_set] at hadded
        split_ifs at hadded with he
        · cases hadded
          exact .inr ⟨0,out,rfl,Bool.eq_false_of_not_eq_true hscript,he,rfl⟩
        · exact .inl hadded
    · refine .inr ⟨k+1,found,hget,hscript,?_,hentry⟩
      rw [he,Nat.add_assoc,Nat.add_comm 1 k]

variable {view next : CoinsView} {undo : List Coin}

/-- Spent coins are gone, and no others. -/
theorem spendInputs_find {inputs : List CTxIn}
    (h : spendInputs view inputs=.ok (undo,next)) (outpoint : COutPoint) :
    next.find outpoint=
      if outpoint∈inputs.map CTxIn.prevout then none else view.find outpoint := by
  induction inputs generalizing view undo with
  | nil =>
    cases h
    simp only [List.map_nil,List.not_mem_nil,if_false]
  | cons input tail ih =>
    unfold spendInputs at h
    cases hspend : spendCoin view input.prevout with
    | none => rw [hspend] at h; cases h
    | some spent =>
      rw [hspend] at h
      rw [bind_eq_ok] at h
      obtain ⟨rest,hrest,h⟩ := h
      cases h
      obtain ⟨entry,_,rfl⟩ := Option.map_eq_some_iff.mp hspend
      rw [ih hrest,find_erase,List.map_cons]
      by_cases he : outpoint=input.prevout
      · simp only [he,List.mem_cons,true_or,if_true,ite_self]
      · simp only [he,if_false,List.mem_cons,false_or]

/-- Undo data are the coins that were spent. -/
theorem spendInputs_undo {inputs : List CTxIn} (h : spendInputs view inputs=.ok (undo,next)) :
    undo.map some=inputs.map (fun input => view.find input.prevout) := by
  induction inputs generalizing view undo with
  | nil =>
    cases h
    rfl
  | cons input tail ih =>
    unfold spendInputs at h
    cases hspend : spendCoin view input.prevout with
    | none => rw [hspend] at h; cases h
    | some spent =>
      rw [hspend] at h
      rw [bind_eq_ok] at h
      obtain ⟨rest,hrest,h⟩ := h
      cases h
      obtain ⟨entry,hfind,rfl⟩ := Option.map_eq_some_iff.mp hspend
      have htail := ih hrest
      rw [List.map_cons,List.map_cons,hfind,htail]
      congr 1
      refine List.map_congr_left ?_
      intro other hm
      rw [find_erase]
      by_cases he : other.prevout=input.prevout
      · -- a repeated input would not have been found again
        exfalso
        have hvalue : (view.erase input.prevout).find other.prevout∈rest.1.map some := by
          rw [htail]
          exact List.mem_map_of_mem hm
        obtain ⟨found,-,hfound⟩ := List.mem_map.mp hvalue
        rw [he,find_erase_self] at hfound
        cases hfound
      · rw [if_neg he]

variable {tx : CTransaction}

theorem updateCoins_contains
    (h : updateCoins view tx nHeight=.ok (undo,next)) (outpoint : COutPoint) :
    next.contains outpoint=true ↔
      view.contains outpoint=true ∧ outpoint∉(spentInputs tx).map CTxIn.prevout ∨
        Creates tx outpoint := by
  unfold updateCoins at h
  rw [bind_eq_ok] at h
  obtain ⟨spent,hspent,h⟩ := h
  cases h
  have hfind := spendInputs_find hspent outpoint
  rw [addCoins,contains_addOutputs]
  simp only [Nat.zero_add]
  refine or_congr_left ?_
  rw [contains_iff,contains_iff,hfind]
  split_ifs with hm
  · simp only [exists_false,hm,not_true_eq_false,and_false]
  · simp only [hm,not_false_eq_true,and_true]

/-- A coin was there before, or is an output of the transaction. -/
theorem updateCoins_find (h : updateCoins view tx nHeight=.ok (undo,next))
    {entry : Coin} (hf : next.find outpoint=some entry) :
    view.find outpoint=some entry ∨ ∃ k out, tx.vout[k]?=some out ∧
      isUnspendable out.scriptPubKey=false ∧ outpoint=⟨tx.hash,k⟩ ∧
      entry=⟨out,tx.isCoinBase,nHeight⟩ := by
  unfold updateCoins at h
  rw [bind_eq_ok] at h
  obtain ⟨spent,hspent,h⟩ := h
  cases h
  rcases find_addOutputs hf with hold | ⟨k,out,hout,hscript,he,hentry⟩
  · rw [spendInputs_find hspent] at hold
    split_ifs at hold
    exact .inl hold
  · rw [Nat.zero_add] at he
    exact .inr ⟨k,out,hout,hscript,he,hentry⟩

theorem connectTx_ok {view : CoinsView}
    {result : List Coin×CoinsView} (h : connectTx nHeight view tx=.ok result) :
    updateCoins view tx nHeight=.ok result := by
  unfold connectTx at h
  split_ifs at h
  · cases h
  · exact h

theorem connectTxs_contains {vtx : List CTransaction} (h : connectTxs nHeight view vtx=.ok next)
    (hspent : ∀ tx∈vtx, outpoint∉(spentInputs tx).map CTxIn.prevout)
    (hthere : view.contains outpoint=true ∨ ∃ tx∈vtx, Creates tx outpoint) :
    next.contains outpoint=true := by
  induction vtx generalizing view with
  | nil =>
    cases h
    rcases hthere with hthere | ⟨tx,htx,-⟩
    · exact hthere
    · exact absurd htx List.not_mem_nil
  | cons tx vtx ih =>
    unfold connectTxs at h ih
    rw [List.foldlM_cons,bind_eq_ok] at h
    obtain ⟨middle,hmid,hrest⟩ := h
    rw [bind_eq_ok] at hmid
    obtain ⟨result,hres,hmid⟩ := hmid
    cases hmid
    have hupdate := updateCoins_contains (connectTx_ok hres) outpoint
    refine ih hrest (fun other hm => hspent other (List.mem_cons_of_mem _ hm)) ?_
    rcases hthere with hthere | ⟨other,hother,hcreates⟩
    · exact .inl (hupdate.mpr (.inl ⟨hthere,hspent tx List.mem_cons_self⟩))
    · rcases List.mem_cons.mp hother with rfl | hother
      · exact .inl (hupdate.mpr (.inr hcreates))
      · exact .inr ⟨other,hother,hcreates⟩

end Pyrk.Coins
