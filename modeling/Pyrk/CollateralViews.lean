import Pyrk.LiveCollaterals

/-!
# Views of a collateral

The collateral of a registration is a coin of the chain or an output of its own, but the amount is
read through the pool by the outpoint of the payload.
-/

namespace Pyrk.CollateralViews

open List Option

open Transaction Script DeterministicMNList Coins ProviderTx BuildNewList Registry BlockAssertions

def collateralAmountOk (height nValue : ℤ) : Bool :=
  if height<100000 then nValue=1000*coin
  else if height<265000 then nValue=2500*coin
  else if height<285000 then nValue=2500*coin || nValue=5000*coin
  else nValue=5000*coin

/-- There is an amount, and a collateral may have it. -/
def AmountOk (height : ℤ) (nValue : Option ℤ) : Prop :=
  ∃ value, nValue=some value ∧ collateralAmountOk height value=true

/-- Amount of the collateral that a registration has. -/
def collateralAmount (view : ChainView) (tx : CTransaction) (ptx : CProRegTx) : Option ℤ :=
  if ptx.collateralOutpoint.hash=0 then tx.vout[ptx.collateralOutpoint.n]?.map CTxOut.nValue
  else (getUTXOCoin view.pcoinsTip ptx.collateralOutpoint).map (fun entry => entry.out.nValue)

/-- Amount that the node finds under the outpoint of the payload. -/
def lookedUpAmount (view : ChainView) (ptx : CProRegTx) : Option ℤ :=
  (getCoinMemPool view ptx.collateralOutpoint).map (fun entry => entry.out.nValue)

/-- A node with another pool. -/
def withPool (view : ChainView) (mempool : Uint256 → Option CTransaction) : ChainView :=
  { view with mempool := mempool }

/-- Every other check passes with some pool. -/
def OtherChecks (ctx : NodeContext) (view : ChainView) (tx : CTransaction) : Prop :=
  ∃ mempool, checkProRegTx ctx (withPool view mempool) tx=.ok ()

section Amounts

variable {ctx : NodeContext} {view : ChainView} {tx : CTransaction} {ptx : CProRegTx}

theorem validateCollateral_iff {outpoint : COutPoint} :
    validateCollateral view outpoint=true ↔
      AmountOk view.nHeight ((getCoinMemPool view outpoint).map
        (fun entry => entry.out.nValue)) := by
  unfold validateCollateral AmountOk
  cases hentry : getCoinMemPool view outpoint with
  | none => simp only [Bool.false_eq_true,map_none,reduceCtorEq,false_and,exists_false]
  | some entry =>
    simp only [map_some,some.injEq,exists_eq_left']
    have hcoin : coin=100000000 := rfl
    unfold Coin.isSpent CTxOut.isNull collateralAmountOk
    by_cases hspent : entry.out.nValue=-1
    · rw [hspent,hcoin]
      split_ifs <;> decide
    · grind

theorem validateCollateral_lookedUp : validateCollateral view ptx.collateralOutpoint=true ↔
    AmountOk view.nHeight (lookedUpAmount view ptx) := validateCollateral_iff

variable {result : CTxDestination×CKeyID}

theorem checkCollateral_pool {mempool : Uint256 → Option CTransaction}
    (h : checkCollateral ctx (withPool view mempool) tx ptx=.ok result)
    (hvalid : validateCollateral view ptx.collateralOutpoint=true) :
    checkCollateral ctx view tx ptx=.ok result := by
  unfold checkCollateral at h ⊢
  by_cases hzero : ptx.collateralOutpoint.hash=0
  · rw [if_neg (not_not.mpr hzero)] at h ⊢
    simp only [bind_eq_ok,rejectIf_eq_ok] at h ⊢
    obtain ⟨out,hout,_,-,destination,hdestination,hres⟩ := h
    exact ⟨out,hout,(),by rw [hvalid]; rfl,destination,hdestination,hres⟩
  · rw [if_pos hzero] at h ⊢
    simp only [bind_eq_ok,rejectIf_eq_ok] at h ⊢
    obtain ⟨entry,hentry,_,-,hrest⟩ := h
    exact ⟨entry,hentry,(),by rw [hvalid]; rfl,hrest⟩

theorem checkCollateral_valid (h : checkCollateral ctx view tx ptx=.ok result) :
    validateCollateral view ptx.collateralOutpoint=true := by
  unfold checkCollateral at h
  by_cases hzero : ptx.collateralOutpoint.hash=0
  · rw [if_neg (not_not.mpr hzero)] at h
    simp only [bind_eq_ok,rejectIf_eq_ok,Bool.not_eq_false'] at h
    obtain ⟨out,-,_,hvalid,-⟩ := h
    exact hvalid
  · rw [if_pos hzero] at h
    simp only [bind_eq_ok,rejectIf_eq_ok,Bool.not_eq_false'] at h
    obtain ⟨entry,-,_,hvalid,-⟩ := h
    exact hvalid

theorem checkProRegTx_iff (hpayload : tx.getProRegTx=some ptx) :
    checkProRegTx ctx view tx=.ok () ↔
      OtherChecks ctx view tx ∧ AmountOk view.nHeight (lookedUpAmount view ptx) := by
  rw [← validateCollateral_lookedUp]
  constructor
  · intro h
    refine ⟨⟨view.mempool,h⟩,?_⟩
    unfold checkProRegTx at h
    simp only [bind_eq_ok,orReject_eq_ok] at h
    obtain ⟨_,_,found,hfound,_,_,_,_,_,_,_,_,_,_,_,_,_,_,_,_,collateral,hcoll,-⟩ := h
    cases hpayload.symm.trans hfound
    exact checkCollateral_valid hcoll
  · rintro ⟨⟨mempool,h⟩,hvalid⟩
    unfold checkProRegTx at h ⊢
    simp only [bind_eq_ok,orReject_eq_ok] at h ⊢
    obtain ⟨_,htype,found,hfound,_,hver,_,hkind,_,hmode,_,hkeys,payout,hpayout,_,hreuse,
      _,hservice,_,hreward,collateral,hcoll,hrest⟩ := h
    cases hpayload.symm.trans hfound
    exact ⟨(),htype,ptx,hfound,(),hver,(),hkind,(),hmode,(),hkeys,payout,hpayout,(),hreuse,
      (),hservice,(),hreward,collateral,checkCollateral_pool hcoll hvalid,hrest⟩

variable (list : CDeterministicMNList)

theorem onlyAsserts_removeMN (proTxHash : Uint256) :
    OnlyAsserts (list.removeMN ctx.serializeHash proTxHash) := by
  have hif : ∀ (before : CDeterministicMNList) (isSet : Bool) (hash : Uint256) (v : UniqueProperty),
      OnlyAsserts (before.deleteUniquePropertyIf ctx.serializeHash isSet hash v) := by
    intro before isSet hash v
    unfold CDeterministicMNList.deleteUniquePropertyIf
    split_ifs
    · exact onlyAsserts_deleteUniqueProperty _ _ _ _
    · exact onlyAsserts_ok _
  unfold CDeterministicMNList.removeMN
  split
  · intro abort h
    cases h
    exact ⟨_,rfl⟩
  · refine onlyAsserts_bind (onlyAsserts_deleteUniqueProperty _ _ _ _) (fun first => ?_)
    refine onlyAsserts_bind (hif _ _ _ _) (fun second => ?_)
    refine onlyAsserts_bind (onlyAsserts_deleteUniqueProperty _ _ _ _) (fun third => ?_)
    exact onlyAsserts_bind (hif _ _ _ _) (fun _ => onlyAsserts_ok _)

theorem onlyAsserts_addMN (dmn : CDeterministicMN) :
    OnlyAsserts (list.addMN ctx.serializeHash dmn) := by
  have hif : ∀ (before : CDeterministicMNList) (isSet : Bool) (hash : Uint256) (v : UniqueProperty),
      OnlyAsserts (before.addUniquePropertyIf ctx.serializeHash isSet hash v) := by
    intro before isSet hash v
    unfold CDeterministicMNList.addUniquePropertyIf
    split_ifs
    · exact onlyAsserts_addUniqueProperty _ _ _ _
    · exact onlyAsserts_ok _
  have hassert : OnlyAsserts (assertThat .addMN (!list.mnMap.contains dmn.proTxHash)) := by
    intro abort h
    unfold assertThat at h
    split_ifs at h
    cases h
    exact ⟨_,rfl⟩
  refine onlyAsserts_bind hassert (fun _ => ?_)
  refine onlyAsserts_bind (onlyAsserts_addUniqueProperty _ _ _ _) (fun first => ?_)
  refine onlyAsserts_bind (hif _ _ _ _) (fun second => ?_)
  exact onlyAsserts_bind (onlyAsserts_addUniqueProperty _ _ _ _) (fun third => hif _ _ _ _)

theorem onlyAsserts_ne {α : Type} {result : Checked α} (h : OnlyAsserts result) (dos : ℕ)
    (code : RejectCode) (reason : String) : result≠rejectBlock dos code reason := by
  intro he
  obtain ⟨site,hsite⟩ := h _ he
  cases hsite

/-- The new list rejects a registration when there is no coin for it or the amount that is looked up
is not accepted. -/
theorem applyProRegTx_rejected_iff :
    applyProRegTx ctx view list tx ptx=rejectBlock 100 .invalid "bad-protx-collateral" ↔
      ptx.collateralOutpoint.hash≠0 ∧ getUTXOCoin view.pcoinsTip ptx.collateralOutpoint=none ∨
        ¬AmountOk view.nHeight (lookedUpAmount view ptx) := by
  have hcond : ((ptx.collateralOutpoint.hash≠0 &&
      (getUTXOCoin view.pcoinsTip (collateralOutpoint tx ptx)).isNone) ||
      !validateCollateral view ptx.collateralOutpoint)=true ↔
      ptx.collateralOutpoint.hash≠0 ∧ getUTXOCoin view.pcoinsTip ptx.collateralOutpoint=none ∨
        ¬AmountOk view.nHeight (lookedUpAmount view ptx) := by
    rw [← validateCollateral_lookedUp,Bool.or_eq_true,Bool.and_eq_true,decide_eq_true_eq,
      isNone_iff_eq_none,Bool.not_eq_true',Bool.not_eq_true]
    refine or_congr_left (and_congr_right (fun hexternal => ?_))
    rw [collateralOutpoint,if_neg hexternal]
  rw [← hcond]
  unfold applyProRegTx
  constructor
  · intro h
    by_contra hfalse
    rw [Bool.not_eq_true] at hfalse
    rw [hfalse] at h
    have hrest : rejectIf false 100 .invalid "bad-protx-collateral"=.ok () := rfl
    rw [hrest,ok_bind] at h
    have hrepl : OnlyAsserts (removeReplaced ctx list (collateralOutpoint tx ptx)) := by
      unfold removeReplaced
      split
      · exact onlyAsserts_ok _
      · exact onlyAsserts_removeMN _ _
    cases hnext : removeReplaced ctx list (collateralOutpoint tx ptx) with
    | error abort =>
      obtain ⟨site,rfl⟩ := hrepl abort hnext
      rw [hnext] at h
      cases h
    | ok next =>
      rw [hnext,ok_bind] at h
      cases haddr : next.hasUniqueProperty ctx.serializeHash (.service ptx.addr) with
      | true => rw [haddr] at h; cases h
      | false =>
        rw [haddr] at h
        cases hkey : next.hasUniqueProperty ctx.serializeHash (.owner ptx.keyIDOwner) ||
            next.hasUniqueProperty ctx.serializeHash (.operator ptx.pubKeyOperator) with
        | true => rw [hkey] at h; cases h
        | false =>
          rw [hkey] at h
          exact onlyAsserts_ne (onlyAsserts_addMN _ _) _ _ _ h
  · intro h
    rw [h]
    rfl

end Amounts

section Judgement

/-- A registration is judged by the amount of its collateral. -/
structure CollateralJudged (ctx : NodeContext) (view : ChainView) (tx : CTransaction)
    (ptx : CProRegTx) : Prop where
  /-- An own output with an accepted amount is no reason to reject. -/
  own : ptx.collateralOutpoint.hash=0 → AmountOk view.nHeight (collateralAmount view tx ptx) →
    OtherChecks ctx view tx → checkProRegTx ctx view tx=.ok () ∧
      ∀ list, applyTx ctx view list tx≠rejectBlock 100 .invalid "bad-protx-collateral"
  checked : checkProRegTx ctx view tx=.ok () →
    AmountOk view.nHeight (collateralAmount view tx ptx)
  built : OtherChecks ctx view tx → ∀ list next, applyTx ctx view list tx=.ok next →
    AmountOk view.nHeight (collateralAmount view tx ptx)

/-- The amount that is looked up stands for the amount of the collateral. -/
def LooksUpCollateral (ctx : NodeContext) (view : ChainView) (tx : CTransaction)
    (ptx : CProRegTx) : Prop :=
  OtherChecks ctx view tx →
    (ptx.collateralOutpoint.hash=0 → AmountOk view.nHeight (collateralAmount view tx ptx) →
      AmountOk view.nHeight (lookedUpAmount view ptx)) ∧
    (AmountOk view.nHeight (lookedUpAmount view ptx) →
      AmountOk view.nHeight (collateralAmount view tx ptx))

variable {ctx : NodeContext} {view : ChainView} {tx : CTransaction} {ptx : CProRegTx}

theorem applyTx_register (hver : tx.nVersion=3) (htype : tx.nType=.providerRegister)
    (hpayload : tx.getProRegTx=some ptx) (list : CDeterministicMNList) :
    applyTx ctx view list tx=applyProRegTx ctx view list tx ptx := by
  unfold applyTx
  rw [if_neg (not_not.mpr hver),htype]
  rw [hpayload]
  rfl

/-- A registration is judged by its collateral exactly when the amount that is
looked up stands for it. -/
theorem collateralJudged_iff (hver : tx.nVersion=3) (htype : tx.nType=.providerRegister)
    (hpayload : tx.getProRegTx=some ptx) :
    CollateralJudged ctx view tx ptx ↔ LooksUpCollateral ctx view tx ptx := by
  have hcheck := @checkProRegTx_iff ctx view tx ptx hpayload
  have happly := @applyTx_register ctx view tx ptx hver htype hpayload
  constructor
  · intro h hothers
    constructor
    · intro hzero hown
      exact (hcheck.mp (h.own hzero hown hothers).1).2
    · intro hseen
      exact h.checked (hcheck.mpr ⟨hothers,hseen⟩)
  · intro h
    refine ⟨?_,?_,?_⟩
    · intro hzero hown hothers
      have hseen := (h hothers).1 hzero hown
      refine ⟨hcheck.mpr ⟨hothers,hseen⟩,?_⟩
      intro list
      rw [happly,Ne,applyProRegTx_rejected_iff,not_or,not_not]
      exact ⟨fun hexternal => hexternal.1 hzero,hseen⟩
    · intro hpass
      obtain ⟨hothers,hseen⟩ := hcheck.mp hpass
      exact (h hothers).2 hseen
    · intro hothers list next hnext
      refine (h hothers).2 ?_
      by_contra hseen
      have hreject := (@applyProRegTx_rejected_iff ctx view tx ptx list).mpr (.inr hseen)
      rw [← happly,hnext] at hreject
      cases hreject

/-- Registration with its own first output as collateral. -/
def ownProRegTx : CProRegTx :=
  { sampleProRegTx 1 with collateralOutpoint := ⟨0,0⟩ }

/-- Its transaction; the output has the amount of the first heights. -/
def ownRegister : CTransaction where
  nVersion := 3
  nType := .providerRegister
  vin := [{ prevout := ⟨501,0⟩ }]
  vout := [⟨1000*coin,sampleScript 11⟩]
  vExtraPayload := .proReg ownProRegTx
  hash := 1
  payload_special := fun h => absurd h (by decide)

theorem ownRegister_others : OtherChecks sampleNode emptyView ownRegister :=
  ⟨fun hash => if hash=0 then some ownRegister else none,by decide⟩

/-- The registration is rejected for its collateral. -/
theorem ownRegister_rejected :
    AmountOk emptyView.nHeight (collateralAmount emptyView ownRegister ownProRegTx) ∧
    OtherChecks sampleNode emptyView ownRegister ∧ checkProRegTx sampleNode emptyView ownRegister=
      rejectBlock 10 .invalid "bad-protx-collateral" ∧
    buildNewListFromBlock sampleNode emptyView ⟨1001,0,[sampleCoinbase 3,ownRegister]⟩=
      rejectBlock 100 .invalid "bad-protx-collateral" ∧
    ¬CollateralJudged sampleNode emptyView ownRegister ownProRegTx := by
  have hown : AmountOk emptyView.nHeight (collateralAmount emptyView ownRegister ownProRegTx) :=
    ⟨1000*coin,by decide,by decide⟩
  refine ⟨hown,ownRegister_others,by decide,by decide,?_⟩
  intro hjudged
  have hpass := (hjudged.own rfl hown ownRegister_others).1
  have hfail : checkProRegTx sampleNode emptyView ownRegister≠.ok () := by decide
  exact hfail hpass

/-- The registration with an external collateral is judged by it. -/
theorem collateralJudged_external :
    CollateralJudged sampleNode emptyView (sampleRegister 1) (sampleProRegTx 1) :=
  (collateralJudged_iff rfl rfl rfl).mpr (fun _ => ⟨fun hown => absurd hown (by decide),id⟩)

end Judgement

/-- Coin sets of chains; the outputs of the first block cannot be spent. -/
inductive ConnectedCoins : List CBlock → CoinsView → Prop
  | start (block : CBlock) : ConnectedCoins [block] .empty
  | connect {chain : List CBlock} {coins next : CoinsView} {block : CBlock} :
    ConnectedCoins chain coins → connectTxs chain.length coins block.vtx=.ok next →
    ConnectedCoins (chain++[block]) next

/-- Pools that a node with a chain may have: a hash stands for the same outputs in the pool and in
the chain. -/
structure PossiblePool (chain : List CBlock) (mempool : Uint256 → Option CTransaction) : Prop where
  hash : ∀ hash tx, mempool hash=some tx → tx.hash=hash
  same : ∀ hash tx, mempool hash=some tx → ∀ block∈chain, ∀ other∈block.vtx,
    other.hash=tx.hash → other.vout=tx.vout
  null : mempool 0=none

/-- Outputs that transactions create. -/
def CreatedBy (txs : List CTransaction) (coins : CoinsView) : Prop :=
  ∀ outpoint entry, coins.find outpoint=some entry →
    ∃ tx∈txs, tx.hash=outpoint.hash ∧ tx.vout[outpoint.n]?=some entry.out

theorem connectTx_createdBy {txs : List CTransaction} {coins next : CoinsView} {nHeight : ℕ}
    {tx : CTransaction} {undo : List Coin} (hcoins : CreatedBy txs coins) (htx : tx∈txs)
    (h : connectTx nHeight coins tx=.ok (undo,next)) : CreatedBy txs next := by
  unfold connectTx at h
  split_ifs at h
  · cases h
  · unfold updateCoins at h
    rw [bind_eq_ok] at h
    obtain ⟨⟨spent,middle⟩,hspent,h⟩ := h
    cases h
    intro outpoint entry hfind
    rcases find_addOutputs hfind with hold|⟨k,out,hout,-,he,hentry⟩
    · rw [spendInputs_find hspent] at hold
      split_ifs at hold
      exact hcoins outpoint entry hold
    · refine ⟨tx,htx,?_,?_⟩
      · rw [he]
      · rw [he,hentry,Nat.zero_add]
        exact hout

theorem ConnectedCoins.createdBy {chain : List CBlock} {coins : CoinsView}
    (h : ConnectedCoins chain coins) : CreatedBy (chain.flatMap CBlock.vtx) coins := by
  induction h with
  | start block =>
    intro outpoint entry hfind
    rw [OrderedMap.find_empty] at hfind
    cases hfind
  | @connect chain coins next block _ hblock ih =>
    rw [flatMap_append,flatMap_singleton]
    have hbefore : CreatedBy (chain.flatMap CBlock.vtx++block.vtx) coins := by
      intro outpoint entry hfind
      obtain ⟨tx,htx,hcreated⟩ := ih outpoint entry hfind
      exact ⟨tx,mem_append_left _ htx,hcreated⟩
    refine foldlM_invariant (fun hm hmid hstep => ?_) hbefore hblock
    rw [bind_eq_ok] at hstep
    obtain ⟨⟨undo,after⟩,hafter,hstep⟩ := hstep
    cases hstep
    exact connectTx_createdBy hmid (mem_append_right _ hm) hafter

variable {ctx : NodeContext} {view : ChainView} {mempool : Uint256 → Option CTransaction}

theorem getCoinMemPool_out (hcoins : ConnectedCoins view.chain view.pcoinsTip)
    (hpool : PossiblePool view.chain mempool) {outpoint : COutPoint} {entry : Coin}
    (hentry : getUTXOCoin view.pcoinsTip outpoint=some entry) :
    (getCoinMemPool (withPool view mempool) outpoint).map Coin.out=some entry.out := by
  unfold getCoinMemPool withPool
  dsimp only
  cases hfound : mempool outpoint.hash with
  | none =>
    rw [hentry,map_some]
  | some tx =>
    obtain ⟨other,hother,hhash,hout⟩ := hcoins.createdBy outpoint entry hentry
    obtain ⟨block,hblock,hother⟩ := mem_flatMap.mp hother
    have hid := hpool.hash _ tx hfound
    have hsame := hpool.same _ tx hfound block hblock other hother (hhash.trans hid.symm)
    dsimp only
    rw [← hsame,hout]
    rfl

variable {first second : Uint256 → Option CTransaction}

section

variable (hcoins : ConnectedCoins view.chain view.pcoinsTip)
variable (hfirst : PossiblePool view.chain first) (hsecond : PossiblePool view.chain second)

include hcoins hfirst hsecond

theorem validateCollateral_pool {outpoint : COutPoint}
    (hfound : outpoint.hash=0 ∨ (getUTXOCoin view.pcoinsTip outpoint).isSome=true) :
    validateCollateral (withPool view first) outpoint=
      validateCollateral (withPool view second) outpoint := by
  have hsame : (getCoinMemPool (withPool view first) outpoint).map Coin.out=
      (getCoinMemPool (withPool view second) outpoint).map Coin.out := by
    rcases hfound with hzero|hsome
    · unfold getCoinMemPool withPool
      dsimp only
      rw [hzero,hfirst.null,hsecond.null]
    · obtain ⟨entry,hentry⟩ := isSome_iff_exists.mp hsome
      rw [getCoinMemPool_out hcoins hfirst hentry,getCoinMemPool_out hcoins hsecond hentry]
  have hamount : ∀ found : Option Coin, found.map (fun entry => entry.out.nValue)=
      (found.map Coin.out).map CTxOut.nValue := by
    intro found
    rw [Option.map_map]
    rfl
  rw [Bool.eq_iff_iff,validateCollateral_iff,validateCollateral_iff,hamount,hamount,hsame]
  rfl

theorem applyProRegTx_pool (list : CDeterministicMNList) (tx : CTransaction)
    (ptx : CProRegTx) :
    applyProRegTx ctx (withPool view first) list tx ptx=
      applyProRegTx ctx (withPool view second) list tx ptx := by
  have hcond : ((ptx.collateralOutpoint.hash≠0 &&
      (getUTXOCoin view.pcoinsTip (collateralOutpoint tx ptx)).isNone) ||
        !validateCollateral (withPool view first) ptx.collateralOutpoint)=
      ((ptx.collateralOutpoint.hash≠0 &&
      (getUTXOCoin view.pcoinsTip (collateralOutpoint tx ptx)).isNone) ||
        !validateCollateral (withPool view second) ptx.collateralOutpoint) := by
    by_cases hzero : ptx.collateralOutpoint.hash=0
    · rw [validateCollateral_pool hcoins hfirst hsecond (.inl hzero)]
    · cases hfound : getUTXOCoin view.pcoinsTip (collateralOutpoint tx ptx) with
      | none => rw [decide_eq_true hzero,isNone_none,Bool.and_self,Bool.true_or,Bool.true_or]
      | some entry =>
        rw [collateralOutpoint,if_neg hzero] at hfound
        have hsome : (getUTXOCoin view.pcoinsTip ptx.collateralOutpoint).isSome=true := by
          rw [hfound]
          rfl
        rw [validateCollateral_pool hcoins hfirst hsecond (.inr hsome)]
  exact congrArg (fun condition => rejectIf condition 100 .invalid "bad-protx-collateral">>=fun _ =>
    removeReplaced ctx list (collateralOutpoint tx ptx)>>=fun newList =>
    rejectIf (newList.hasUniqueProperty ctx.serializeHash (.service ptx.addr))
      100 .conflict "bad-protx-dup-addr">>=fun _ =>
    rejectIf (newList.hasUniqueProperty ctx.serializeHash (.owner ptx.keyIDOwner) ||
      newList.hasUniqueProperty ctx.serializeHash (.operator ptx.pubKeyOperator))
      100 .conflict "bad-protx-dup-key">>=fun _ =>
    newList.addMN ctx.serializeHash (registeredMN (view.nHeight+1) tx ptx)) hcond

theorem applyTx_pool (list : CDeterministicMNList) (tx : CTransaction) :
    applyTx ctx (withPool view first) list tx=applyTx ctx (withPool view second) list tx := by
  unfold applyTx
  split_ifs with hver
  · rfl
  · cases htype : tx.nType with
    | providerRegister =>
      cases hpayload : tx.getProRegTx with
      | none => rfl
      | some ptx => exact applyProRegTx_pool hcoins hfirst hsecond list tx ptx
    | _ => rfl

theorem checkCollateral_pools (tx : CTransaction) (ptx : CProRegTx) :
    checkCollateral ctx (withPool view first) tx ptx=
      checkCollateral ctx (withPool view second) tx ptx := by
  unfold checkCollateral
  by_cases hzero : ptx.collateralOutpoint.hash=0
  · rw [if_neg (not_not.mpr hzero),if_neg (not_not.mpr hzero),
      validateCollateral_pool hcoins hfirst hsecond (.inl hzero)]
  · rw [if_pos hzero,if_pos hzero]
    cases hfound : getUTXOCoin view.pcoinsTip ptx.collateralOutpoint with
    | none =>
      have hnone : ∀ pool, getUTXOCoin (withPool view pool).pcoinsTip ptx.collateralOutpoint=none :=
        fun _ => hfound
      rw [hnone,hnone]
      rfl
    | some entry =>
      have hsome : (getUTXOCoin view.pcoinsTip ptx.collateralOutpoint).isSome=true := by
        rw [hfound]
        rfl
      rw [validateCollateral_pool hcoins hfirst hsecond (.inr hsome)]
      rfl

theorem checkSpecialTx_pool (tx : CTransaction) :
    checkSpecialTx ctx (withPool view first) tx=
      checkSpecialTx ctx (withPool view second) tx := by
  unfold checkSpecialTx
  cases htype : tx.nType with
  | providerRegister =>
    have hregister : checkProRegTx ctx (withPool view first) tx=
        checkProRegTx ctx (withPool view second) tx := by
      unfold checkProRegTx
      simp only [checkCollateral_pools hcoins hfirst hsecond]
      rfl
    rw [hregister]
    rfl
  | _ => rfl

end

/-- The list of a block and its checks are the same for all pools that agree with the chain, and an
output of the pool only is no collateral. -/
theorem pool_irrelevant (hcoins : ConnectedCoins view.chain view.pcoinsTip)
    {first second : Uint256 → Option CTransaction} (hfirst : PossiblePool view.chain first)
    (hsecond : PossiblePool view.chain second) :
    (∀ block, buildNewListFromBlock ctx (withPool view first) block=
      buildNewListFromBlock ctx (withPool view second) block) ∧
    (∀ tx, checkSpecialTx ctx (withPool view first) tx=
      checkSpecialTx ctx (withPool view second) tx) ∧
    ∀ list tx ptx, ptx.collateralOutpoint.hash≠0 →
      getUTXOCoin view.pcoinsTip ptx.collateralOutpoint=none →
      applyProRegTx ctx (withPool view first) list tx ptx=
        rejectBlock 100 .invalid "bad-protx-collateral" := by
  refine ⟨?_,checkSpecialTx_pool hcoins hfirst hsecond,?_⟩
  · intro block
    have hstep : applyTx ctx (withPool view first)=applyTx ctx (withPool view second) := by
      funext list tx
      exact applyTx_pool hcoins hfirst hsecond list tx
    unfold buildNewListFromBlock
    rw [hstep]
    rfl
  · intro list tx ptx hexternal hnone
    exact (applyProRegTx_rejected_iff list).mpr (.inl ⟨hexternal,hnone⟩)

/-- A coinbase that pays the amount of a collateral. -/
def fundingCoinbase : CTransaction where
  vin := [{ prevout := COutPoint.null }]
  vout := [⟨1000*coin,sampleScript 13⟩]
  hash := 103
  payload_special := CTransaction.payload_plain

/-- The node after a block with that coinbase. -/
def fundedView : ChainView where
  chain := [⟨1000,0,[]⟩]++[⟨1001,0,[fundingCoinbase]⟩]
  pcoinsTip := OrderedMap.ofEntries [(⟨103,0⟩,⟨⟨1000*coin,sampleScript 13⟩,true,1⟩)]
  getListForBlock := fun blockHash => { blockHash := blockHash, nHeight := 1 }

def poolOf (tx : CTransaction) (hash : Uint256) : Option CTransaction :=
  if hash=tx.hash then some tx else none

theorem possiblePool_poolOf {tx : CTransaction} (hnull : tx.hash≠0)
    (hnew : ∀ block∈view.chain, ∀ other∈block.vtx, other.hash≠tx.hash) :
    PossiblePool view.chain (poolOf tx) := by
  have hfind : ∀ hash found, poolOf tx hash=some found → found=tx ∧ hash=tx.hash := by
    intro hash found h
    unfold poolOf at h
    split_ifs at h with he
    cases h
    exact ⟨rfl,he⟩
  refine ⟨?_,?_,if_neg hnull.symm⟩
  · intro hash found h
    obtain ⟨rfl,hhash⟩ := hfind hash found h
    exact hhash.symm
  · grind

/-- A payment of the amount of a collateral that is not in a block. -/
def unconfirmedPayment : CTransaction where
  vin := [{ prevout := ⟨103,0⟩ }]
  vout := [⟨1000*coin,sampleScript 14⟩]
  hash := 900
  payload_special := CTransaction.payload_plain

/-- An unconfirmed output is accepted, and a transaction under the null hash changes the verdict on
a block. -/
theorem pool_consulted :
    (PossiblePool fundedView.chain (poolOf unconfirmedPayment) ∧
      validateCollateral (withPool fundedView (poolOf unconfirmedPayment)) ⟨900,0⟩=true ∧
      validateCollateral (withPool fundedView (fun _ => none)) ⟨900,0⟩=false) ∧
    buildNewListFromBlock sampleNode (withPool emptyView (fun _ => none))
        ⟨1001,0,[sampleCoinbase 3,ownRegister]⟩=
      rejectBlock 100 .invalid "bad-protx-collateral" ∧
    ∃ list, buildNewListFromBlock sampleNode
      (withPool emptyView (fun hash => if hash=0 then some ownRegister else none))
        ⟨1001,0,[sampleCoinbase 3,ownRegister]⟩=.ok list := by
  refine ⟨⟨possiblePool_poolOf (by decide) (by decide),by decide,by decide⟩,by decide,?_⟩
  exact exists_ok (show (buildNewListFromBlock sampleNode
    (withPool emptyView (fun hash => if hash=0 then some ownRegister else none))
      ⟨1001,0,[sampleCoinbase 3,ownRegister]⟩).toOption.isSome=true by decide)

/-- A registration is added with and without a waiting payment. -/
theorem pool_irrelevant_payment :
    ∃ list, buildNewListFromBlock sampleNode (withPool fundedView (fun _ => none))
        ⟨1002,0,[sampleCoinbase 4,sampleRegister 3]⟩=.ok list ∧
      buildNewListFromBlock sampleNode (withPool fundedView (poolOf unconfirmedPayment))
        ⟨1002,0,[sampleCoinbase 4,sampleRegister 3]⟩=.ok list := by
  have hcoins : ConnectedCoins fundedView.chain fundedView.pcoinsTip :=
    .connect (.start _) (by decide)
  have hempty : PossiblePool fundedView.chain (fun _ => none) :=
    ⟨fun _ _ h => (by cases h),fun _ _ h => (by cases h),rfl⟩
  have hpayment : PossiblePool fundedView.chain (poolOf unconfirmedPayment) :=
    possiblePool_poolOf (by decide) (by decide)
  obtain ⟨list,hlist⟩ := exists_ok (show (buildNewListFromBlock sampleNode
    (withPool fundedView (fun _ => none))
      ⟨1002,0,[sampleCoinbase 4,sampleRegister 3]⟩).toOption.isSome=true by decide)
  have hsame := (@pool_irrelevant sampleNode fundedView hcoins _ _ hempty hpayment).1
    ⟨1002,0,[sampleCoinbase 4,sampleRegister 3]⟩
  exact ⟨list,hlist,hsame.symm.trans hlist⟩

end Pyrk.CollateralViews
