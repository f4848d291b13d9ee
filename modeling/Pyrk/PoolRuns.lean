import Pyrk.ProTxIndexes

/-!
# Runs of the pool

Transactions are accepted, mined, replaced by blocks, too old or too many, while the indexes of
masternode transactions have to stay exact.
-/

namespace Pyrk.TxMemPool

open Transaction NetAddress DeterministicMNList ClaimIndex List Option CTxMemPool

section Blocks

variable {ctx : PoolContext} {pool next : CTxMemPool}

/-- An input spends the collateral of no registration in the pool. -/
structure SparesInput (ctx : PoolContext) (view : PoolView) (txin : CTxIn) : Prop where
  /-- No registration in the pool has it as its collateral. -/
  collateral : ∀ {hash claim}, view.claimAt ctx.keyHash hash=some claim →
    claim.collateral≠some txin.prevout
  /-- The registration of the masternode that has it is not there with a collateral. -/
  masternode : ∀ {dmn claim},
    ctx.mnList.getMNByCollateral ctx.serializeHash txin.prevout=some dmn →
    view.claimAt ctx.keyHash dmn.proTxHash=some claim → claim.collateral=none

theorem SparesInput.removals {view after : PoolView} {txin : CTxIn}
    (h : SparesInput ctx view txin) (hremove : Removals ctx view after) :
    SparesInput ctx after txin where
  collateral := fun hclaim => h.collateral (claimAt_of_removals hremove hclaim)
  masternode := fun hdmn hclaim => h.masternode hdmn (claimAt_of_removals hremove hclaim)

theorem TidyView.find_of_ref (htidy : TidyView ctx.keyHash pool.view)
    {reference : Uint256×Uint256} (hmem : reference∈pool.mapProTxRefs)
    (hspare : ∀ {claim}, pool.view.claimAt ctx.keyHash reference.1=some claim →
      claim.collateral=none) :
    ∃ entry, pool.mapTx.find reference.2=some entry ∧ entry.tx.hash=reference.2 := by
  obtain ⟨owner,howner⟩ := (htidy.refs.mem_iff reference).mp hmem
  obtain ⟨claim,hclaim,href⟩ := bind_eq_some_iff.mp howner
  obtain ⟨info,hinfo,hof⟩ := claimAt_eq_some.mp hclaim
  have hkeyed := htidy.keyed hinfo
  rcases claimOf_reference hof href with hupdate | ⟨hown,hcoll⟩
  · rw [hkeyed] at hupdate
    subst hupdate
    obtain ⟨entry,hentry,hsettled⟩ := view_infos_eq_some.mp hinfo
    have hhash : entry.tx.hash=info.tx.hash := by rw [← hsettled]; rfl
    exact ⟨entry,hentry,hhash.trans hkeyed⟩
  · rw [hkeyed] at hown
    rw [hown] at hspare
    exact absurd (hspare hclaim) hcoll

/-- Transactions that refer to a registration are taken out, and with enough rounds
none is left. -/
theorem removeSpentCollateralConflict_ok {proTxHash : Uint256} {rounds : ℕ}
    (htidy : TidyView ctx.keyHash pool.view)
    (hspare : ∀ {claim}, pool.view.claimAt ctx.keyHash proTxHash=some claim →
      claim.collateral=none)
    (h : removeSpentCollateralConflict ctx proTxHash rounds pool=.ok next) :
    Removals ctx pool.view next.view ∧ (pool.mapProTxRefs.length ≤ rounds →
      ∀ reference∈next.mapProTxRefs, reference.1≠proTxHash) := by
  induction rounds generalizing pool with
  | zero =>
    cases h
    refine ⟨Relation.ReflTransGen.refl,?_⟩
    grind
  | succ rounds ih =>
    unfold removeSpentCollateralConflict at h
    cases hfirst : pool.mapProTxRefs.find? (fun ref => ref.1=proTxHash) with
    | none =>
      rw [hfirst] at h
      cases h
      refine ⟨Relation.ReflTransGen.refl,?_⟩
      intro _ reference hmem he
      exact List.find?_eq_none.mp hfirst reference hmem (decide_eq_true he)
    | some reference =>
      have hmem := mem_of_find?_eq_some hfirst
      have hfound := List.find?_some hfirst
      have hrefers : reference.1=proTxHash := of_decide_eq_true hfound
      obtain ⟨entry,hentry,hhash⟩ := htidy.find_of_ref hmem
        (fun hclaim => hspare (hrefers ▸ hclaim))
      rw [hfirst] at h
      dsimp only at h
      rw [hentry] at h
      obtain ⟨after,hafter,h⟩ := bind_eq_ok.mp h
      have hremove := removals_removeRecursive hafter
      have hafterTidy := htidy.removals hremove
      obtain ⟨hrest,hgone⟩ := ih hafterTidy
        (fun hclaim => hspare (claimAt_of_removals hremove hclaim)) h
      refine ⟨hremove.trans hrest,?_⟩
      intro hlen
      apply hgone
      have hhas : pool.mapTx.contains entry.tx.hash=true := by
        rw [hhash]
        exact (OrderedMap.contains_iff _ _).mpr ⟨entry,hentry⟩
      have hnone := infos_removeRecursive_self hhas hafter
      have hsub : ∀ other∈after.mapProTxRefs, other∈pool.mapProTxRefs.erase reference := by
        intro other hother
        obtain ⟨owner,howner⟩ := (hafterTidy.refs.mem_iff other).mp hother
        obtain ⟨claim,hclaim,href⟩ := bind_eq_some_iff.mp howner
        have hold : other∈pool.mapProTxRefs := (htidy.refs.mem_iff other).mpr
          ⟨owner,bind_eq_some_iff.mpr ⟨claim,claimAt_of_removals hremove hclaim,href⟩⟩
        refine (mem_erase_of_ne ?_).mpr hold
        rintro rfl
        obtain ⟨left,hleft,-⟩ := hafterTidy.find_of_ref hother
          (fun hfound => hspare (hrefers ▸ claimAt_of_removals hremove hfound))
        have hthere := view_infos_eq_some.mpr ⟨left,hleft,rfl⟩
        rw [← hhash,hnone] at hthere
        cases hthere
      have hshort : after.mapProTxRefs.length ≤ (pool.mapProTxRefs.erase reference).length :=
        (subperm_of_subset hafterTidy.refs.nodup hsub).length_le
      grind

theorem removeForSpentInput_ok {txin : CTxIn} (htidy : TidyView ctx.keyHash pool.view)
    (hspare : SparesInput ctx pool.view txin)
    (h : pool.removeForSpentInput ctx txin=.ok next) :
    Removals ctx pool.view next.view ∧
      ∀ dmn, ctx.mnList.getMNByCollateral ctx.serializeHash txin.prevout=some dmn →
        ∀ reference∈next.mapProTxRefs, reference.1≠dmn.proTxHash := by
  obtain ⟨first,hfirst,h⟩ := bind_eq_ok.mp h
  have hnone : pool.mapProTxCollaterals.find txin.prevout=none := by
    refine htidy.collaterals.find_eq_none.mpr ?_
    intro owner howner
    obtain ⟨claim,hclaim,hcoll⟩ := bind_eq_some_iff.mp howner
    exact hspare.collateral hclaim hcoll
  rw [hnone] at hfirst
  cases hfirst
  cases hdmn : ctx.mnList.getMNByCollateral ctx.serializeHash txin.prevout with
  | none =>
    rw [hdmn] at h
    cases h
    exact ⟨Relation.ReflTransGen.refl,fun _ he => by cases he⟩
  | some dmn =>
    rw [hdmn] at h
    obtain ⟨hremove,hgone⟩ := removeSpentCollateralConflict_ok htidy
      (fun hclaim => hspare.masternode hdmn hclaim) h
    refine ⟨hremove,?_⟩
    intro other he
    cases he
    exact hgone (Nat.le_add_left _ _)

theorem refs_of_removals (htidy : TidyView ctx.keyHash pool.view)
    (hremove : Removals ctx pool.view next.view) {reference : Uint256×Uint256}
    (hmem : reference∈next.mapProTxRefs) : reference∈pool.mapProTxRefs := by
  obtain ⟨owner,howner⟩ := ((htidy.removals hremove).refs.mem_iff reference).mp hmem
  obtain ⟨claim,hclaim,href⟩ := bind_eq_some_iff.mp howner
  exact (htidy.refs.mem_iff reference).mpr
    ⟨owner,bind_eq_some_iff.mpr ⟨claim,claimAt_of_removals hremove hclaim,href⟩⟩

variable {tx : CTransaction}

theorem removeProTxSpentCollateralConflicts_ok (htidy : TidyView ctx.keyHash pool.view)
    (hspare : ∀ txin∈tx.vin, SparesInput ctx pool.view txin)
    (h : pool.removeProTxSpentCollateralConflicts ctx tx=.ok next) :
    Removals ctx pool.view next.view ∧ ∀ txin∈tx.vin, ∀ dmn,
      ctx.mnList.getMNByCollateral ctx.serializeHash txin.prevout=some dmn →
        ∀ reference∈next.mapProTxRefs, reference.1≠dmn.proTxHash := by
  unfold removeProTxSpentCollateralConflicts at h
  generalize tx.vin=vin at h hspare ⊢
  induction vin generalizing pool with
  | nil =>
    cases h
    exact ⟨Relation.ReflTransGen.refl,fun _ hm => absurd hm not_mem_nil⟩
  | cons txin vin ih =>
    rw [foldlM_cons,bind_eq_ok] at h
    obtain ⟨first,hfirst,h⟩ := h
    obtain ⟨hremove,hgone⟩ :=
      removeForSpentInput_ok htidy (hspare txin mem_cons_self) hfirst
    have hfirstTidy := htidy.removals hremove
    obtain ⟨hrest,hgoneRest⟩ := ih hfirstTidy h
      (fun other hm => (hspare other (mem_cons_of_mem _ hm)).removals hremove)
    refine ⟨hremove.trans hrest,?_⟩
    intro other hm dmn hdmn reference hmem
    rcases mem_cons.mp hm with rfl | hm
    · exact hgone dmn hdmn reference (refs_of_removals hfirstTidy hrest hmem)
    · exact hgoneRest other hm dmn hdmn reference hmem

theorem removals_removeShared {claim : Option ProTxClaim}
    (h : removeShared ctx tx claim pool=.ok next) : Removals ctx pool.view next.view := by
  obtain ⟨first,hfirst,h⟩ := bind_eq_ok.mp h
  obtain ⟨second,hsecond,h⟩ := bind_eq_ok.mp h
  obtain ⟨third,hthird,h⟩ := bind_eq_ok.mp h
  exact ((removals_removeClaimed hfirst).trans (removals_removeClaimed hsecond)).trans
    ((removals_removeClaimed hthird).trans (removals_removeClaimed h))

theorem removals_removeReplaced {replaced : Option (Uint256×CBLSPublicKey)}
    (h : removeReplaced ctx replaced pool=.ok next) : Removals ctx pool.view next.view := by
  cases replaced with
  | none =>
    cases h
    exact Relation.ReflTransGen.refl
  | some replaced => exact removals_removeProTxKeyChangedConflicts h

theorem removals_removeProTxConflicts (htidy : TidyView ctx.keyHash pool.view)
    (hspare : ∀ txin∈tx.vin, SparesInput ctx pool.view txin)
    (h : pool.removeProTxConflicts ctx tx=.ok next) :
    Removals ctx pool.view next.view := by
  rw [removeProTxConflicts_eq] at h
  obtain ⟨spent,hspent,h⟩ := bind_eq_ok.mp h
  obtain ⟨claimed,hclaimed,h⟩ := bind_eq_ok.mp h
  exact (removeProTxSpentCollateralConflicts_ok htidy hspare hspent).1.trans
    ((removals_removeShared hclaimed).trans (removals_removeReplaced h))

/-- Once it was mined, a transaction spends the collateral of no registration in the pool. -/
def SparesTx (ctx : PoolContext) (pool : CTxMemPool) (tx : CTransaction) : Prop :=
  ∀ mined unspent, pool.removeMined ctx tx=.ok mined →
    mined.removeConflicts ctx tx=.ok unspent →
    ∀ txin∈tx.vin, SparesInput ctx unspent.view txin

/-- The transactions of a block do so one after another. -/
def SparesBlock (ctx : PoolContext) : List CTransaction → CTxMemPool → Prop
  | [],_ => True
  | tx::vtx,pool => SparesTx ctx pool tx ∧
      ∀ next, pool.removeForBlockTx ctx tx=.ok next → SparesBlock ctx vtx next

theorem removals_removeForBlockTx (htidy : TidyView ctx.keyHash pool.view)
    (hspare : SparesTx ctx pool tx) (h : pool.removeForBlockTx ctx tx=.ok next) :
    Removals ctx pool.view next.view := by
  obtain ⟨mined,hmined,h⟩ := bind_eq_ok.mp h
  obtain ⟨unspent,hunspent,h⟩ := bind_eq_ok.mp h
  obtain ⟨last,hlast,h⟩ := bind_eq_ok.mp h
  cases h
  have hbefore := (removals_removeMined hmined).trans (removals_removeConflicts hunspent)
  have hafter := removals_removeProTxConflicts (htidy.removals hbefore)
    (hspare mined unspent hmined hunspent) hlast
  exact hbefore.trans hafter

theorem removals_removeForBlock {vtx : List CTransaction}
    (htidy : TidyView ctx.keyHash pool.view) (hspare : SparesBlock ctx vtx pool)
    (h : pool.removeForBlock ctx vtx=.ok next) : Removals ctx pool.view next.view := by
  unfold removeForBlock at h
  induction vtx generalizing pool with
  | nil =>
    cases h
    exact Relation.ReflTransGen.refl
  | cons tx vtx ih =>
    rw [foldlM_cons,bind_eq_ok] at h
    obtain ⟨first,hfirst,h⟩ := h
    have hremove := removals_removeForBlockTx htidy hspare.1 hfirst
    exact hremove.trans (ih (htidy.removals hremove) (hspare.2 first hfirst) h)

end Blocks

/-- What happens to a pool. -/
inductive PoolEvent where
  | accept (limits : CTxMemPool.PackageLimits) (info : EntryInfo)
  | removeRecursive (tx : CTransaction)
  | removeForBlock (vtx : List CTransaction)
  | removeForReorg (rules : CTxMemPool.ReorgRules)
  | expire (isLocked : Uint256 → Bool) (time : ℤ)
  | trimToSize (before : CTxMemPoolEntry → CTxMemPoolEntry → Bool)
    (dynamicMemoryUsage : CTxMemPool → ℕ) (sizelimit : ℕ)
  | prioritiseTransaction (hash : Uint256) (nFeeDelta : ℤ)
  /-- Transactions of a block that was taken back have been accepted again. -/
  | updateTransactionsFromBlock (vHashesToUpdate : List Uint256)

/-- The pool after an event. A transaction is not accepted when it is there, or when
it contradicts masternode transactions of the pool. -/
def perform (ctx : PoolContext) (event : PoolEvent) (pool : CTxMemPool) : Checked CTxMemPool :=
  match event with
  | .accept limits info =>
    if pool.mapTx.contains info.tx.hash || pool.existsProviderTxConflict ctx info.tx then
      .ok pool
    else pool.accept ctx limits info
  | .removeRecursive tx => pool.removeRecursive ctx tx
  | .removeForBlock vtx => pool.removeForBlock ctx vtx
  | .removeForReorg rules => pool.removeForReorg ctx rules
  | .expire isLocked time => do
    let expired ← pool.expire ctx isLocked time
    .ok expired.2
  | .trimToSize before dynamicMemoryUsage sizelimit => do
    let trimmed ← pool.trimToSize ctx before dynamicMemoryUsage sizelimit
    .ok trimmed.2
  | .prioritiseTransaction hash nFeeDelta => pool.prioritiseTransaction hash nFeeDelta
  | .updateTransactionsFromBlock vHashesToUpdate => pool.updateTransactionsFromBlock vHashesToUpdate

/-- Runs from the empty pool whose events meet a condition, with any masternode list at each of
them. -/
inductive PoolRun (serializeHash : UniqueProperty → Uint256)
    (condition : PoolContext → PoolEvent → CTxMemPool → Prop) : CTxMemPool → Prop
  | start : PoolRun serializeHash condition {}
  | step {pool next : CTxMemPool} (mnList : CDeterministicMNList) (event : PoolEvent)
    (hpool : PoolRun serializeHash condition pool)
    (hcond : condition ⟨serializeHash,mnList⟩ event pool)
    (hnext : perform ⟨serializeHash,mnList⟩ event pool=.ok next) :
    PoolRun serializeHash condition next

/-- A transaction does not claim what its own registration in the pool claims, and has a reference
of its own. -/
structure ClaimsApart (keyHash : CBLSPublicKey → Uint256) (view : PoolView) (tx : CTransaction) :
    Prop where
  /-- Address and operator key of its own registration. -/
  own : ∀ {claim own proTxHash}, claimOf keyHash tx=some claim →
    claim.registration=some proTxHash → view.claimAt keyHash proTxHash=some own →
    (claim.addr≠none → own.addr≠claim.addr) ∧ (claim.keyHash≠none → own.keyHash≠claim.keyHash)
  reference : ∀ {claim other hash reference}, claimOf keyHash tx=some claim →
    view.claimAt keyHash hash=some other → claim.dropped=some reference →
    other.dropped≠some reference

/-- Accepted transactions claim something else than their registration, and blocks
spare the collaterals of registrations that wait. -/
def KeepsClaims (ctx : PoolContext) (event : PoolEvent) (pool : CTxMemPool) : Prop :=
  match event with
  | .accept _ info => ClaimsApart ctx.keyHash pool.view info.tx
  | .removeForBlock vtx => SparesBlock ctx vtx pool
  | _ => True

section Runs

variable {ctx : PoolContext} {pool next : CTxMemPool}

theorem freshClaim (haddresses : Indexes pool.view.maps.mapProTxAddresses
      (fun hash => (pool.view.claimAt ctx.keyHash hash).bind ProTxClaim.addr))
    (hkeys : Indexes pool.view.maps.mapProTxBlsPubKeyHashes
      (fun hash => (pool.view.claimAt ctx.keyHash hash).bind ProTxClaim.keyHash))
    {tx : CTransaction} {claim : ProTxClaim}
    (hclash : pool.existsProviderTxConflict ctx tx=false)
    (hclaim : claimOf ctx.keyHash tx=some claim)
    (hcond : ClaimsApart ctx.keyHash pool.view tx) :
    FreshClaim ctx.keyHash pool.view claim := by
  obtain ⟨haddr,howner,hkey,hcoll⟩ := existsProviderTxConflict_eq_false hclash hclaim
  constructor
  · intro hash other reference hother hdropped
    exact hcond.reference hclaim hother hdropped
  · intro addr he
    cases hfind : pool.view.maps.mapProTxAddresses.find addr with
    | none => rfl
    | some hash =>
      obtain ⟨own,hown,hsame⟩ := claimed_of_find haddresses hfind
      have hne := (hcond.own hclaim (haddr addr hash he hfind) hown).1
      rw [he,hsame] at hne
      exact absurd rfl (hne (some_ne_none _))
  · exact howner
  · intro key he
    cases hfind : pool.view.maps.mapProTxBlsPubKeyHashes.find key with
    | none => rfl
    | some hash =>
      obtain ⟨own,hown,hsame⟩ := claimed_of_find hkeys hfind
      have hne := (hcond.own hclaim (hkey key hash he hfind) hown).2
      rw [he,hsame] at hne
      exact absurd rfl (hne (some_ne_none _))
  · exact hcoll

variable {limits : CTxMemPool.PackageLimits}

theorem view_accept {info : EntryInfo} (hnew : pool.mapTx.contains info.tx.hash=false)
    (h : pool.accept ctx limits info=.ok next) :
    next=pool ∨ ∃ added claim, added.tx=info.tx ∧
      (added.tx.nType=.providerUpdateService → added.validForProTxKey=0) ∧
      pool.view.infos added.tx.hash=none ∧ claimOf ctx.keyHash added.tx=some claim ∧
      next.view.infos=Function.update pool.view.infos added.tx.hash (some added) ∧
      next.view.maps=pool.view.maps.record claim added.tx.hash ∧
      next.view.spends=added.tx.vin.foldl
        (fun spends txin => spends.emplace txin.prevout added.tx) pool.view.spends := by
  unfold accept at h
  cases hancestors : pool.calculateMemPoolAncestors (CTxMemPoolEntry.create info) limits true with
  | error failure =>
    rw [hancestors] at h
    cases h
    exact Or.inl rfl
  | ok setAncestors =>
    rw [hancestors] at h
    obtain ⟨added,htx,hservice,hinfos,hmaps,hspends⟩ := view_addUnchecked hnew h
    have haddedTx : added.tx=info.tx := htx
    have hnone : pool.view.infos added.tx.hash=none := by
      rw [haddedTx]
      cases hinfo : pool.view.infos info.tx.hash with
      | none => rfl
      | some found =>
        rw [contains_iff_view.mpr ⟨found,hinfo⟩] at hnew
        cases hnew
    obtain ⟨claim,hclaim,hrecord⟩ := addProTx_ok hmaps
    refine Or.inr ⟨added,claim,haddedTx,hservice,hnone,haddedTx ▸ hclaim,?_,?_,?_⟩
    · rw [haddedTx]
      exact hinfos
    · rw [haddedTx]
      exact hrecord
    · rw [haddedTx]
      exact hspends

theorem TidyView.accept (htidy : TidyView ctx.keyHash pool.view) {info : EntryInfo}
    (hnew : pool.mapTx.contains info.tx.hash=false)
    (hclash : pool.existsProviderTxConflict ctx info.tx=false)
    (hcond : ClaimsApart ctx.keyHash pool.view info.tx)
    (h : pool.accept ctx limits info=.ok next) : TidyView ctx.keyHash next.view := by
  rcases view_accept hnew h with rfl | ⟨added,claim,htx,-,hnone,hclaim,hinfos,hmaps,hspends⟩
  · exact htidy
  · have hfresh := freshClaim htidy.addresses htidy.blsPubKeyHashes hclash (htx ▸ hclaim)
      hcond
    exact htidy.added hnone hclaim hfresh hinfos hmaps hspends

theorem TidyView.perform {event : PoolEvent} (htidy : TidyView ctx.keyHash pool.view)
    (hcond : KeepsClaims ctx event pool)
    (h : TxMemPool.perform ctx event pool=.ok next) : TidyView ctx.keyHash next.view := by
  cases event with
  | accept limits info =>
    unfold TxMemPool.perform at h
    dsimp only at h
    split_ifs at h with hrefused
    · cases h
      exact htidy
    · obtain ⟨hnew,hclash⟩ := Bool.or_eq_false_iff.mp (Bool.eq_false_of_not_eq_true hrefused)
      exact htidy.accept hnew hclash hcond h
  | removeRecursive tx => exact htidy.removals (removals_removeRecursive h)
  | removeForBlock vtx => exact htidy.removals (removals_removeForBlock htidy hcond h)
  | removeForReorg rules => exact htidy.removals (removals_removeForReorg h)
  | expire isLocked time =>
    obtain ⟨result,hres,h⟩ := bind_eq_ok.mp h
    cases h
    exact htidy.removals (removals_expire hres)
  | trimToSize before dynamicMemoryUsage sizelimit =>
    obtain ⟨result,hres,h⟩ := bind_eq_ok.mp h
    cases h
    exact htidy.removals (removals_trimToSize hres)
  | prioritiseTransaction hash nFeeDelta =>
    rw [view_prioritiseTransaction h]
    exact htidy
  | updateTransactionsFromBlock vHashesToUpdate =>
    rw [view_updateTransactionsFromBlock h]
    exact htidy

theorem PoolRun.tidy {serializeHash : UniqueProperty → Uint256}
    (h : PoolRun serializeHash KeepsClaims pool) :
    TidyView (fun key => serializeHash (.operator key)) pool.view := by
  induction h with
  | start => exact tidyView_empty
  | step mnList event _ hcond hnext ih =>
    exact @TidyView.perform ⟨serializeHash,mnList⟩ _ _ event ih hcond hnext

end Runs

/-- Indexes hold exactly what the transactions of the pool claim, each for itself, and masternode
transactions are only refused for that. -/
structure FollowsPool (serializeHash : UniqueProperty → Uint256) (pool : CTxMemPool) : Prop where
  exact : ExactIndexes (fun key => serializeHash (.operator key)) pool.view
  apart : ∀ {first second firstClaim secondClaim},
    pool.view.claimAt (fun key => serializeHash (.operator key)) first=some firstClaim →
    pool.view.claimAt (fun key => serializeHash (.operator key)) second=some secondClaim →
    firstClaim.Shares secondClaim → first=second
  refused : ∀ {mnList tx}, pool.existsProviderTxConflict ⟨serializeHash,mnList⟩ tx=true →
    Refusal ⟨serializeHash,mnList⟩ pool tx

/-- In every run whose events meet the condition, the indexes follow the pool. -/
theorem PoolRun.followsPool {serializeHash : UniqueProperty → Uint256} {pool : CTxMemPool}
    (h : PoolRun serializeHash KeepsClaims pool) : FollowsPool serializeHash pool where
  exact := h.tidy.toExactIndexes
  apart := h.tidy.eq_of_shares
  refused := existsProviderTxConflict_eq_true h.tidy

/-- A node whose masternode list is empty. -/
def quietContext : PoolContext := ⟨fun _ => 5,{}⟩

/-- A registration with a collateral that is not its own output. -/
def waitingRegister : CTransaction where
  nVersion := 3
  nType := .providerRegister
  vExtraPayload := .proReg { collateralOutpoint := ⟨3,0⟩ }
  hash := 1
  payload_special := by decide

/-- A service update that claims the same address. -/
def addressUpdate (proTxHash hash : Uint256) : CTransaction where
  nVersion := 3
  nType := .providerUpdateService
  vExtraPayload := .proUpServ { proTxHash := proTxHash }
  hash := hash
  payload_special := by simp

def collateralSpender : CTransaction where
  vin := [{ prevout := ⟨3,0⟩ }]
  hash := 7
  payload_special := CTransaction.payload_plain

/-- Offer a transaction without limits. -/
def offered (tx : CTransaction) : PoolEvent :=
  .accept {} { tx := tx, nTxSize := 1, nTxSize_pos := Nat.one_pos }

/-- Events one after another. -/
def performAll (ctx : PoolContext) (events : List PoolEvent) : Checked CTxMemPool :=
  events.foldlM (fun pool event => perform ctx event pool) {}

theorem poolRun_of_performAll {ctx : PoolContext} {events : List PoolEvent} {pool : CTxMemPool}
    (h : performAll ctx events=.ok pool) :
    PoolRun ctx.serializeHash (fun _ _ _ => True) pool :=
  @foldlM_invariant _ _ _ _ (PoolRun ctx.serializeHash (fun _ _ _ => True)) _
    (fun _ hrun hstep => hrun.step ctx.mnList _ trivial hstep) _ _ .start h

/-- An update with the address of its waiting registration comes and goes, so the address is free.
In another run a block spends the collateral of a registration that stays. -/
theorem indexes_lose_claims :
    (∃ pool, PoolRun quietContext.serializeHash (fun _ _ _ => True) pool ∧
      ∃ first second, pool.view.claimAt quietContext.keyHash 1=some first ∧
        pool.view.claimAt quietContext.keyHash 4=some second ∧ first.Shares second) ∧
    ∃ pool, PoolRun quietContext.serializeHash (fun _ _ _ => True) pool ∧
      ∃ claim, pool.view.claimAt quietContext.keyHash 1=some claim ∧
        claim.reference=some (1,3) ∧ ¬(1,3)∈pool.mapProTxRefs := by
  constructor
  · have hcheck : (performAll quietContext [offered waitingRegister,offered (addressUpdate 1 2),
        .removeRecursive (addressUpdate 1 2),offered (addressUpdate 9 4)]).toOption.any (fun pool =>
        (pool.view.claimAt quietContext.keyHash 1).any (fun first =>
        (pool.view.claimAt quietContext.keyHash 4).any (fun second =>
          first.addr==some CService.null && second.addr==some CService.null)))=true := rfl
    obtain ⟨pool,hpool,hcheck⟩ := (any_eq_true _ _).mp hcheck
    obtain ⟨first,hfirst,hcheck⟩ := (any_eq_true _ _).mp hcheck
    obtain ⟨second,hsecond,hcheck⟩ := (any_eq_true _ _).mp hcheck
    obtain ⟨hfirstAddr,hsecondAddr⟩ := Bool.and_eq_true_iff.mp hcheck
    exact ⟨pool,poolRun_of_performAll (eq_ok_of_toOption hpool),first,second,hfirst,hsecond,
      Or.inl ⟨CService.null,eq_of_beq hfirstAddr,eq_of_beq hsecondAddr⟩⟩
  · have hcheck : (performAll quietContext [offered waitingRegister,
        .removeForBlock [collateralSpender]]).toOption.any (fun pool =>
        (pool.view.claimAt quietContext.keyHash 1).any (fun claim =>
          claim.reference==some (1,3) && pool.mapProTxRefs.isEmpty))=true := rfl
    obtain ⟨pool,hpool,hcheck⟩ := (any_eq_true _ _).mp hcheck
    obtain ⟨claim,hclaim,hcheck⟩ := (any_eq_true _ _).mp hcheck
    obtain ⟨hreference,hempty⟩ := Bool.and_eq_true_iff.mp hcheck
    refine ⟨pool,poolRun_of_performAll (eq_ok_of_toOption hpool),claim,hclaim,
      eq_of_beq hreference,?_⟩
    rw [isEmpty_iff.mp hempty]
    exact not_mem_nil

theorem claimsApart_of_empty {pool : CTxMemPool} (hempty : pool.mapTx=.empty)
    (keyHash : CBLSPublicKey → Uint256) (tx : CTransaction) : ClaimsApart keyHash pool.view tx := by
  have hclaims : ∀ hash, pool.view.claimAt keyHash hash=none := fun hash => by
    rw [PoolView.claimAt,CTxMemPool.view,hempty]
    rfl
  constructor
  · intro claim own proTxHash _ _ hown
    cases (hclaims proTxHash).symm.trans hown
  · intro claim other hash reference _ hother
    cases (hclaims hash).symm.trans hother

/-- The address of a registration is free again when it is removed. -/
theorem followsPool_waiting : ∃ pool, performAll quietContext [offered waitingRegister,
      .removeRecursive waitingRegister,offered (addressUpdate 9 4)]=.ok pool ∧
    FollowsPool quietContext.serializeHash pool := by
  have hcheck : ((perform quietContext (offered waitingRegister) {}).toOption.bind
      (fun pool => (perform quietContext (.removeRecursive waitingRegister) pool).toOption)).map
        CTxMemPool.mapTx=some .empty := rfl
  obtain ⟨pool,hpool⟩ := @exists_ok _ _ (performAll quietContext [offered waitingRegister,
    .removeRecursive waitingRegister,offered (addressUpdate 9 4)]) rfl
  refine ⟨pool,hpool,?_⟩
  obtain ⟨first,hfirst,hrest⟩ := bind_eq_ok.mp hpool
  obtain ⟨second,hsecond,hrest⟩ := bind_eq_ok.mp hrest
  obtain ⟨next,hnext,hrest⟩ := bind_eq_ok.mp hrest
  cases hrest
  have hempty : second.mapTx=.empty := by
    rw [show perform quietContext (offered waitingRegister) {}=.ok first from hfirst] at hcheck
    change ((perform quietContext (.removeRecursive waitingRegister) first).toOption).map
      CTxMemPool.mapTx=some .empty at hcheck
    rw [show perform quietContext (.removeRecursive waitingRegister) first=.ok second from hsecond]
      at hcheck
    exact some.inj hcheck
  have hregister : PoolRun quietContext.serializeHash KeepsClaims first :=
    PoolRun.start.step {} (offered waitingRegister) (claimsApart_of_empty rfl _ _) hfirst
  exact ((hregister.step {} (.removeRecursive waitingRegister) trivial hsecond).step {}
    (offered (addressUpdate 9 4)) (claimsApart_of_empty hempty _ _) hnext).followsPool

end Pyrk.TxMemPool
