import Pyrk.PoolRuns

/-!
# What a block evicts from the pool

A block takes out updates of masternodes whose collateral is spent, updates that were valid for
another operator key, and transactions that claim the same.
-/

namespace Pyrk.TxMemPool

open Transaction DeterministicMNList ClaimIndex OrderedMap Option CTxMemPool

section Evictions

variable {ctx : PoolContext} {keyHash : CBLSPublicKey → Uint256} {view next : PoolView}

/-- A reference to something that is not in the pool is forgotten. -/
def Forgotten (view next : PoolView) : Prop :=
  ∃ reference, view.infos reference.2=none ∧ next={ view with maps := { view.maps with
    mapProTxRefs := view.maps.mapProTxRefs.erase reference } }

/-- Entries are taken out and references are forgotten, one after another. -/
def Evictions (ctx : PoolContext) : PoolView → PoolView → Prop :=
  Relation.ReflTransGen (fun view next =>
    (∃ hash, Removed ctx hash view next) ∨ Forgotten view next)

theorem Removals.evictions (h : Removals ctx view next) : Evictions ctx view next :=
  Relation.ReflTransGen.mono (fun _ _ hstep => .inl hstep) view next h

variable {hash : Uint256}

theorem Evictions.infos_of (h : Evictions ctx view next) {info : EntryInfo}
    (hinfo : next.infos hash=some info) : view.infos hash=some info := by
  induction h with
  | refl => exact hinfo
  | tail _ hstep ih =>
    rcases hstep with ⟨removed,hremoved⟩ | ⟨reference,-,rfl⟩
    · exact ih (hremoved.infos_of hinfo).2
    · exact ih hinfo

theorem Evictions.infos_none (h : Evictions ctx view next)
    (hnone : view.infos hash=none) : next.infos hash=none := by
  cases hinfo : next.infos hash with
  | none => rfl
  | some info =>
    rw [h.infos_of hinfo] at hnone
    cases hnone

variable {claim : ProTxClaim}

theorem claimAt_of_evictions (h : Evictions ctx view next)
    (hclaim : next.claimAt keyHash hash=some claim) :
    view.claimAt keyHash hash=some claim := by
  obtain ⟨info,hinfo,hof⟩ := claimAt_eq_some.mp hclaim
  exact claimAt_eq_some.mpr ⟨info,h.infos_of hinfo,hof⟩

/-- Indexes are exact and updates are referred to. There may be references to
something else, and registrations may have lost theirs. -/
structure UsableView (keyHash : CBLSPublicKey → Uint256) (view : PoolView) : Prop where
  updates : ∀ {hash claim proTxHash}, view.claimAt keyHash hash=some claim →
    claim.registration=some proTxHash → (proTxHash,hash)∈view.maps.mapProTxRefs
  addresses : Indexes view.maps.mapProTxAddresses
    (fun hash => (view.claimAt keyHash hash).bind ProTxClaim.addr)
  pubKeyIDs : Indexes view.maps.mapProTxPubKeyIDs
    (fun hash => (view.claimAt keyHash hash).bind ProTxClaim.keyIDOwner)
  blsPubKeyHashes : Indexes view.maps.mapProTxBlsPubKeyHashes
    (fun hash => (view.claimAt keyHash hash).bind ProTxClaim.keyHash)
  collaterals : Indexes view.maps.mapProTxCollaterals
    (fun hash => (view.claimAt keyHash hash).bind ProTxClaim.collateral)
  /-- Entries are found by the hash of their transaction. -/
  keyed : ∀ {hash info}, view.infos hash=some info → info.tx.hash=hash
  /-- No removal forgets the reference of another entry. -/
  apart : ∀ {first second firstClaim secondClaim reference},
    view.claimAt keyHash first=some firstClaim → view.claimAt keyHash second=some secondClaim →
    firstClaim.dropped=some reference → secondClaim.dropped=some reference → first=second
  services : ∀ {hash info}, view.infos hash=some info →
    info.tx.nType=.providerUpdateService → info.validForProTxKey=0

theorem UsableView.dropped (h : UsableView keyHash view) {hash proTxHash : Uint256}
    (hclaim : view.claimAt keyHash hash=some claim)
    (hreg : claim.registration=some proTxHash) :
    claim.dropped=some (proTxHash,hash) := by
  obtain ⟨info,hinfo,hof⟩ := claimAt_eq_some.mp hclaim
  rw [← h.keyed hinfo]
  exact claimOf_dropped hof (claimOf_registration hof hreg)

theorem UsableView.removed (h : UsableView ctx.keyHash view)
    (hremoved : Removed ctx hash view next) : UsableView ctx.keyHash next := by
  have hprops : PropertyIndexes ctx.keyHash view := { h with }
  obtain ⟨claim,hat,hforget⟩ := hprops.forget hremoved
  refine {
    hprops.removed hremoved with
    updates := ?_
    services := fun hfound => h.services (hremoved.infos_of hfound).2 }
  intro other found proTxHash hfound hreg
  obtain ⟨hne,hold⟩ := claimAt_of_removed hremoved hfound
  have hmem := h.updates hold hreg
  have hkept : claim.dropped≠some (proTxHash,other) :=
    fun hdropped => hne (h.apart hold hat (h.dropped hold hreg) hdropped)
  rw [hforget]
  exact List.mem_filter.mpr ⟨hmem,by simp [hkept]⟩

theorem UsableView.forgotten (h : UsableView keyHash view) (hforgotten : Forgotten view next) :
    UsableView keyHash next := by
  obtain ⟨reference,hnone,rfl⟩ := hforgotten
  refine { h with updates := ?_ }
  intro hash claim proTxHash hclaim hreg
  have hmem := h.updates hclaim hreg
  have hne : (proTxHash,hash)≠reference := by
    intro he
    obtain ⟨info,hinfo,-⟩ := claimAt_eq_some.mp hclaim
    rw [← he,hinfo] at hnone
    cases hnone
  exact (List.mem_erase_of_ne hne).mpr hmem

theorem UsableView.evictions (h : UsableView ctx.keyHash view)
    (hevict : Evictions ctx view next) : UsableView ctx.keyHash next := by
  induction hevict with
  | refl => exact h
  | tail _ hstep ih =>
    rcases hstep with ⟨hash,hremoved⟩ | hforgotten
    · exact ih.removed hremoved
    · exact ih.forgotten hforgotten

theorem UsableView.refs_sublist (h : UsableView ctx.keyHash view)
    (hevict : Evictions ctx view next) :
    next.maps.mapProTxRefs.Sublist view.maps.mapProTxRefs := by
  induction hevict with
  | refl => exact List.Sublist.refl _
  | tail hbefore hstep ih =>
    refine List.Sublist.trans ?_ ih
    rcases hstep with ⟨hash,hremoved⟩ | ⟨reference,-,rfl⟩
    · obtain ⟨claim,-,hforget⟩ := PropertyIndexes.forget { h.evictions hbefore with } hremoved
      rw [hforget]
      exact List.filter_sublist
    · exact List.erase_sublist

theorem UsableView.added (h : UsableView keyHash view) {info : EntryInfo}
    (hnew : view.infos info.tx.hash=none) (hclaim : claimOf keyHash info.tx=some claim)
    (hfresh : FreshClaim keyHash view claim)
    (hservice : info.tx.nType=.providerUpdateService → info.validForProTxKey=0)
    (hinfos : next.infos=Function.update view.infos info.tx.hash (some info))
    (hmaps : next.maps=view.maps.record claim info.tx.hash) : UsableView keyHash next := by
  have hprops : PropertyIndexes keyHash view := { h with }
  refine {
    hprops.added hnew hclaim hfresh hinfos hmaps with
    updates := ?_
    services := ?_ }
  · intro other found proTxHash hfound hreg
    rw [hmaps]
    rcases claimAt_added hclaim hinfos hfound with ⟨he,rfl⟩ | hold
    · have href := claimOf_registration hclaim hreg
      rw [← he] at href
      exact List.mem_append_right _ (mem_toList.mpr href)
    · exact List.mem_append_left _ (h.updates hold hreg)
  · intro other found hfound
    rcases infos_added hinfos hfound with ⟨-,rfl⟩ | ⟨-,hold⟩
    · exact hservice
    · exact h.services hold

theorem usableView_empty : UsableView keyHash (CTxMemPool.view {}) where
  updates := by
    intro hash claim proTxHash h
    cases h
  addresses := indexes_empty
  pubKeyIDs := indexes_empty
  blsPubKeyHashes := indexes_empty
  collaterals := indexes_empty
  keyed := by
    intro hash info h
    cases h
  apart := by
    intro first second firstClaim secondClaim reference h
    cases h
  services := by
    intro hash info h
    cases h

end Evictions

section Loops

variable {ctx : PoolContext} {pool next : CTxMemPool}

variable {hash : Uint256}

theorem mem_keys_iff :
    hash∈pool.mapTx.entries.map Prod.fst ↔ ∃ info, pool.view.infos hash=some info := by
  rw [← contains_iff_view,contains_iff]
  simp only [← mem_entries_iff,List.mem_map,Prod.exists,exists_and_right,exists_eq_right]

theorem size_lt_of_evictions (h : Evictions ctx pool.view next.view)
    {info : EntryInfo} (hbefore : pool.view.infos hash=some info)
    (hafter : next.view.infos hash=none) : next.mapTx.size < pool.mapTx.size := by
  have hnew : ¬hash∈next.mapTx.entries.map Prod.fst := by
    rw [mem_keys_iff,hafter]
    rintro ⟨_,hfound⟩
    cases hfound
  have hnodup := List.nodup_cons.mpr ⟨hnew,next.mapTx.nodup_keys⟩
  have hsub : hash::next.mapTx.entries.map Prod.fst ⊆ pool.mapTx.entries.map Prod.fst := by
    refine List.cons_subset.mpr ⟨mem_keys_iff.mpr ⟨info,hbefore⟩,?_⟩
    intro other hother
    obtain ⟨found,hfound⟩ := mem_keys_iff.mp hother
    exact mem_keys_iff.mpr ⟨found,h.infos_of hfound⟩
  have hlen := (List.subperm_of_subset hnodup hsub).length_le
  simp only [List.length_cons,List.length_map] at hlen
  unfold OrderedMap.size
  omega

theorem UsableView.hash_eq {keyHash : CBLSPublicKey → Uint256} (h : UsableView keyHash pool.view)
    {entry : CTxMemPoolEntry} (hentry : pool.mapTx.find hash=some entry) :
    entry.tx.hash=hash := by
  have hkeyed := h.keyed (view_infos_eq_some.mpr ⟨entry,hentry,rfl⟩)
  exact hkeyed

theorem UsableView.gone {keyHash : CBLSPublicKey → Uint256} (h : UsableView keyHash pool.view)
    {entry : CTxMemPoolEntry} (hentry : pool.mapTx.find hash=some entry)
    (hremoved : pool.removeRecursive ctx entry.tx=.ok next) : next.view.infos hash=none := by
  have hhash := h.hash_eq hentry
  have hhas : pool.mapTx.contains entry.tx.hash=true := by
    rw [hhash]
    exact (contains_iff _ _).mpr ⟨entry,hentry⟩
  have hgone := infos_removeRecursive_self hhas hremoved
  rw [hhash] at hgone
  exact hgone

theorem removeSpentCollateralConflict_evictions {proTxHash : Uint256} {rounds : ℕ}
    (husable : UsableView ctx.keyHash pool.view)
    (h : removeSpentCollateralConflict ctx proTxHash rounds pool=.ok next) :
    Evictions ctx pool.view next.view ∧ (pool.refRounds ≤ rounds →
      ∀ reference∈next.mapProTxRefs, reference.1≠proTxHash) := by
  unfold refRounds
  induction rounds generalizing pool with
  | zero =>
    cases h
    refine ⟨Relation.ReflTransGen.refl,?_⟩
    intro hrounds reference hmem
    have hpos := List.length_pos_of_mem hmem
    omega
  | succ rounds ih =>
    unfold removeSpentCollateralConflict at h
    cases hfirst : pool.mapProTxRefs.find? (fun ref => ref.1=proTxHash) with
    | none =>
      rw [hfirst] at h
      cases h
      refine ⟨Relation.ReflTransGen.refl,?_⟩
      intro _ reference hmem he
      exact List.find?_eq_none.mp hfirst reference hmem (decide_eq_true he)
    | some reference =>
      have hmem := List.mem_of_find?_eq_some hfirst
      rw [hfirst] at h
      dsimp only at h
      cases hentry : pool.mapTx.find reference.2 with
      | some entry =>
        rw [hentry] at h
        obtain ⟨after,hafter,h⟩ := bind_eq_ok.mp h
        have hinfo := view_infos_eq_some.mpr ⟨entry,hentry,rfl⟩
        have hevict := (removals_removeRecursive hafter).evictions
        have hgone := husable.gone hentry hafter
        obtain ⟨hrest,hnone⟩ := ih (husable.evictions hevict) h
        refine ⟨hevict.trans hrest,?_⟩
        intro hrounds
        have hsize := size_lt_of_evictions hevict hinfo hgone
        have hrefs : after.mapProTxRefs.length ≤ pool.mapProTxRefs.length :=
          (husable.refs_sublist hevict).length_le
        exact hnone (by omega)
      | none =>
        rw [hentry] at h
        have hforgotten : Forgotten pool.view (CTxMemPool.view
            { pool with mapProTxRefs := pool.mapProTxRefs.erase reference }) :=
          ⟨reference,by simp [CTxMemPool.view,hentry],rfl⟩
        obtain ⟨hrest,hnone⟩ := ih (husable.forgotten hforgotten) h
        refine ⟨Relation.ReflTransGen.head (.inr hforgotten) hrest,?_⟩
        grind

theorem removeReferring_evictions {registration : Option Uint256}
    (husable : UsableView ctx.keyHash pool.view)
    (h : pool.removeReferring ctx registration=.ok next) :
    Evictions ctx pool.view next.view ∧ ∀ proTxHash∈registration,
      ∀ reference∈next.mapProTxRefs, reference.1≠proTxHash := by
  cases registration with
  | none =>
    cases h
    exact ⟨Relation.ReflTransGen.refl,fun _ he => by cases he⟩
  | some proTxHash =>
    obtain ⟨hevict,hgone⟩ := removeSpentCollateralConflict_evictions husable h
    refine ⟨hevict,?_⟩
    intro other he
    cases he
    exact hgone (Nat.le_refl _)

/-- No update in the pool is about a masternode of the list with a collateral. -/
def Unreferred (ctx : PoolContext) (view : PoolView) (outpoint : COutPoint) : Prop :=
  ∀ {dmn hash claim}, ctx.mnList.getMNByCollateral ctx.serializeHash outpoint=some dmn →
    view.claimAt ctx.keyHash hash=some claim → claim.registration≠some dmn.proTxHash

theorem removeForSpentInput_evictions {txin : CTxIn}
    (husable : UsableView ctx.keyHash pool.view)
    (h : pool.removeForSpentInput ctx txin=.ok next) :
    Evictions ctx pool.view next.view ∧ Unreferred ctx next.view txin.prevout := by
  obtain ⟨first,hfirst,h⟩ := bind_eq_ok.mp h
  obtain ⟨hwaiting,-⟩ := removeReferring_evictions husable hfirst
  have hfirstUsable := husable.evictions hwaiting
  obtain ⟨hmined,hgone⟩ := removeReferring_evictions hfirstUsable h
  refine ⟨hwaiting.trans hmined,?_⟩
  intro dmn hash claim hdmn hclaim hreg
  have hmem := (hfirstUsable.evictions hmined).updates hclaim hreg
  exact hgone dmn.proTxHash (by rw [hdmn]; rfl) _ hmem rfl

theorem removeProTxSpentCollateralConflicts_evictions {tx : CTransaction}
    (husable : UsableView ctx.keyHash pool.view)
    (h : pool.removeProTxSpentCollateralConflicts ctx tx=.ok next) :
    Evictions ctx pool.view next.view ∧
      ∀ txin∈tx.vin, Unreferred ctx next.view txin.prevout := by
  unfold removeProTxSpentCollateralConflicts at h
  generalize tx.vin=vin at h ⊢
  induction vin generalizing pool with
  | nil =>
    cases h
    exact ⟨Relation.ReflTransGen.refl,fun _ hm => absurd hm List.not_mem_nil⟩
  | cons txin vin ih =>
    rw [List.foldlM_cons,bind_eq_ok] at h
    obtain ⟨first,hfirst,h⟩ := h
    obtain ⟨hevict,hgone⟩ := removeForSpentInput_evictions husable hfirst
    obtain ⟨hrest,hgoneRest⟩ := ih (husable.evictions hevict) h
    refine ⟨hevict.trans hrest,?_⟩
    intro other hm dmn hash claim hdmn hclaim
    rcases List.mem_cons.mp hm with rfl | hm
    · exact hgone hdmn (claimAt_of_evictions hrest hclaim)
    · exact hgoneRest other hm hdmn hclaim

theorem removeClaimed_unclaimed {κ : Type} [LinearOrder κ] {index : OrderedMap κ Uint256}
    {part : ProTxClaim → Option κ} {tx : CTransaction} {key : Option κ}
    (husable : UsableView ctx.keyHash pool.view)
    (hindex : Indexes index (fun hash => (pool.view.claimAt ctx.keyHash hash).bind part))
    (hmined : pool.view.infos tx.hash=none)
    (h : pool.removeClaimed ctx tx (key.bind index.find)=.ok next) :
    Removals ctx pool.view next.view ∧ UsableView ctx.keyHash next.view ∧
      next.view.infos tx.hash=none ∧
      ∀ {hash claim value}, next.view.claimAt ctx.keyHash hash=some claim → key=some value →
        part claim≠some value := by
  have hremove := removals_removeClaimed h
  refine ⟨hremove,husable.evictions hremove.evictions,hremove.evictions.infos_none hmined,?_⟩
  rintro hash claim value hclaim rfl hkey
  have hbefore := claimAt_of_removals hremove hclaim
  obtain ⟨info,hinfo,-⟩ := claimAt_eq_some.mp hbefore
  have hfind : (some value).bind index.find=some hash :=
    (hindex value hash).mpr (bind_eq_some_iff.mpr ⟨claim,hbefore,hkey⟩)
  have hne : hash≠tx.hash := by
    rintro rfl
    rw [hinfo] at hmined
    cases hmined
  obtain ⟨entry,hentry,-⟩ := view_infos_eq_some.mp hinfo
  rw [hfind] at h
  unfold removeClaimed at h
  dsimp only at h
  rw [if_neg hne,hentry] at h
  have hgone := husable.gone hentry h
  obtain ⟨left,hleft,-⟩ := claimAt_eq_some.mp hclaim
  rw [hleft] at hgone
  cases hgone

theorem infos_removeEach {step : CTxMemPool → Uint256 → Checked CTxMemPool}
    (hstep : ∀ {pool next : CTxMemPool} {hash : Uint256}, step pool hash=.ok next →
      ∃ entry, pool.mapTx.find hash=some entry ∧ pool.removeRecursive ctx entry.tx=.ok next)
    {hashes : List Uint256} (husable : UsableView ctx.keyHash pool.view)
    (h : hashes.foldlM step pool=.ok next) (hm : hash∈hashes) :
    next.view.infos hash=none := by
  induction hashes generalizing pool with
  | nil => cases hm
  | cons first rest ih =>
    rw [List.foldlM_cons,bind_eq_ok] at h
    obtain ⟨after,hafter,h⟩ := h
    obtain ⟨entry,hentry,hremoved⟩ := hstep hafter
    have hevict := (removals_removeRecursive hremoved).evictions
    rcases List.mem_cons.mp hm with rfl | hm
    · have hgone := husable.gone hentry hremoved
      have hrest := removals_foldlM (fun hlater => by
        obtain ⟨other,-,hother⟩ := hstep hlater
        exact removals_removeRecursive hother) h
      exact hrest.evictions.infos_none hgone
    · exact ih (husable.evictions hevict) h hm

theorem removeProTxKeyChangedConflicts_unreplaced {proTxHash newKeyHash : Uint256}
    (husable : UsableView ctx.keyHash pool.view)
    (h : pool.removeProTxKeyChangedConflicts ctx proTxHash newKeyHash=.ok next)
    {info : EntryInfo} {claim : ProTxClaim}
    (hinfo : next.view.infos hash=some info) (hclaim : claimOf ctx.keyHash info.tx=some claim)
    (hreg : claim.registration=some proTxHash) : info.validForProTxKey=newKeyHash := by
  by_contra hkey
  have hbefore := (removals_removeProTxKeyChangedConflicts h).infos_of hinfo
  have href := husable.updates (claimAt_eq_some.mpr ⟨info,hbefore,hclaim⟩) hreg
  obtain ⟨entry,hentry,hsettled⟩ := view_infos_eq_some.mp hbefore
  have hvalid : entry.validForProTxKey≠newKeyHash := by
    rw [← hsettled] at hkey
    exact hkey
  unfold removeProTxKeyChangedConflicts at h
  dsimp only at h
  generalize hconflicting : (OrderedSet.empty.insertAll ((pool.mapProTxRefs.filter (fun ref =>
    decide (ref.1=proTxHash) && (pool.mapTx.find ref.2).any (fun entry =>
      entry.validForProTxKey≠newKeyHash))).map Prod.snd)).items=conflictingTxs at h
  have hmem : hash∈conflictingTxs := by
    rw [← hconflicting,OrderedSet.mem_items,OrderedSet.mem_insertAll]
    refine .inl (List.mem_map.mpr ⟨(proTxHash,hash),List.mem_filter.mpr ⟨href,?_⟩,rfl⟩)
    simp [hentry,hvalid]
  have hgone := infos_removeEach (fun hstep => ?_) husable h hmem
  · rw [hinfo] at hgone
    cases hgone
  · rename_i st after other
    cases hother : st.mapTx.find other with
    | none => simp [hother] at hstep
    | some found =>
      rw [hother] at hstep
      exact ⟨found,rfl,hstep⟩

end Loops

/-- What a transaction of a block has against one of the pool. -/
inductive Conflicts (ctx : PoolContext) (tx : CTransaction) (info : EntryInfo) : Prop
  /-- It spends the collateral of the masternode that an update is about. -/
  | masternode {claim : ProTxClaim} {txin : CTxIn} {dmn : CDeterministicMN}
    (hclaim : claimOf ctx.keyHash info.tx=some claim) (hinput : txin∈tx.vin)
    (hdmn : ctx.mnList.getMNByCollateral ctx.serializeHash txin.prevout=some dmn)
    (hreg : claim.registration=some dmn.proTxHash) : Conflicts ctx tx info
  /-- It replaces the operator key that an update was valid for. -/
  | key {claim : ProTxClaim} {proTxHash : Uint256} {pubKeyOperator : CBLSPublicKey}
    (hrepl : replacedKey tx=some (proTxHash,pubKeyOperator))
    (hclaim : claimOf ctx.keyHash info.tx=some claim)
    (hreg : claim.registration=some proTxHash)
    (hkey : info.tx.nType=.providerUpdateService ∨
      info.validForProTxKey≠ctx.keyHash pubKeyOperator) : Conflicts ctx tx info
  /-- It claims the same address, owner key, operator key or collateral. -/
  | claimed {claim other : ProTxClaim} (hclaim : claimOf ctx.keyHash tx=some claim)
    (hother : claimOf ctx.keyHash info.tx=some other) (hshares : claim.Shares other) :
    Conflicts ctx tx info

/-- A registration waits whose collateral a transaction spends. -/
def Waits (ctx : PoolContext) (tx : CTransaction) (info : EntryInfo) : Prop :=
  ∃ claim, claimOf ctx.keyHash info.tx=some claim ∧
    ∃ txin∈tx.vin, claim.collateral=some txin.prevout

section Transactions

variable {ctx : PoolContext} {pool next : CTxMemPool}

/-- Nothing that is claimed is claimed in the pool. -/
def Unclaimed (ctx : PoolContext) (view : PoolView) (claim : ProTxClaim) : Prop :=
  ∀ {hash other}, view.claimAt ctx.keyHash hash=some other → ¬claim.Shares other

/-- Updates of a registration in the pool were valid for a key. -/
def Unreplaced (ctx : PoolContext) (view : PoolView) (proTxHash : Uint256)
    (pubKeyOperator : CBLSPublicKey) : Prop :=
  ∀ {hash info claim}, view.infos hash=some info → claimOf ctx.keyHash info.tx=some claim →
    claim.registration=some proTxHash → info.validForProTxKey=ctx.keyHash pubKeyOperator

variable {tx : CTransaction}

theorem removeShared_unclaimed {claim : Option ProTxClaim}
    (husable : UsableView ctx.keyHash pool.view) (hmined : pool.view.infos tx.hash=none)
    (h : removeShared ctx tx claim pool=.ok next) :
    ∀ {own}, claim=some own → Unclaimed ctx next.view own := by
  obtain ⟨first,hfirst,h⟩ := bind_eq_ok.mp h
  obtain ⟨second,hsecond,h⟩ := bind_eq_ok.mp h
  obtain ⟨third,hthird,h⟩ := bind_eq_ok.mp h
  obtain ⟨-,hfirstUsable,hfirstMined,haddr⟩ :=
    removeClaimed_unclaimed husable husable.addresses hmined hfirst
  obtain ⟨hsecondRemovals,hsecondUsable,hsecondMined,howner⟩ :=
    removeClaimed_unclaimed hfirstUsable hfirstUsable.pubKeyIDs hfirstMined hsecond
  obtain ⟨hthirdRemovals,hthirdUsable,hthirdMined,hkey⟩ :=
    removeClaimed_unclaimed hsecondUsable hsecondUsable.blsPubKeyHashes hsecondMined hthird
  obtain ⟨hlast,-,-,hcoll⟩ :=
    removeClaimed_unclaimed hthirdUsable hthirdUsable.collaterals hthirdMined h
  rintro own rfl hash other hother hshares
  -- a claim that is left was there after each step
  have hthirdOther := claimAt_of_removals hlast hother
  have hsecondOther := claimAt_of_removals hthirdRemovals hthirdOther
  have hfirstOther := claimAt_of_removals hsecondRemovals hsecondOther
  rcases hshares with ⟨_,hown,hsame⟩ | ⟨_,hown,hsame⟩ | ⟨_,hown,hsame⟩ | ⟨_,hown,hsame⟩
  · exact haddr hfirstOther hown hsame
  · exact howner hsecondOther hown hsame
  · exact hkey hthirdOther hown hsame
  · exact hcoll hother hown hsame

/-- After the spent collaterals, what claims the same is removed and what was valid
for another key. -/
theorem removeProTxConflicts_removals
    (husable : UsableView ctx.keyHash pool.view) (hmined : pool.view.infos tx.hash=none)
    (h : pool.removeProTxConflicts ctx tx=.ok next) :
    ∃ spent, pool.removeProTxSpentCollateralConflicts ctx tx=.ok spent ∧
      Removals ctx spent.view next.view ∧
      (∀ {claim}, claimOf ctx.keyHash tx=some claim → Unclaimed ctx next.view claim) ∧
      ∀ {proTxHash pubKeyOperator}, replacedKey tx=some (proTxHash,pubKeyOperator) →
        Unreplaced ctx next.view proTxHash pubKeyOperator := by
  rw [removeProTxConflicts_eq] at h
  obtain ⟨spent,hspent,h⟩ := bind_eq_ok.mp h
  obtain ⟨claimed,hclaimed,h⟩ := bind_eq_ok.mp h
  have hevict := (removeProTxSpentCollateralConflicts_evictions husable hspent).1
  have hspentUsable := husable.evictions hevict
  have hshared := removals_removeShared hclaimed
  have hrepl := removals_removeReplaced h
  refine ⟨spent,hspent,hshared.trans hrepl,?_,?_⟩
  · intro claim hclaim hash other hother
    exact removeShared_unclaimed hspentUsable (hevict.infos_none hmined) hclaimed hclaim
      (claimAt_of_removals hrepl hother)
  · intro proTxHash pubKeyOperator hkey hash info claim
    rw [hkey] at h
    exact removeProTxKeyChangedConflicts_unreplaced (hspentUsable.evictions hshared.evictions) h

section

variable (hkeys : ∀ key, ctx.keyHash key≠0) (husable : UsableView ctx.keyHash pool.view)

include hkeys husable

theorem removeProTxConflicts_evictions (hmined : pool.view.infos tx.hash=none)
    (h : pool.removeProTxConflicts ctx tx=.ok next) :
    Evictions ctx pool.view next.view ∧
      ∀ {hash info}, next.view.infos hash=some info → ¬Conflicts ctx tx info := by
  obtain ⟨spent,hspent,hremove,hunclaimed,hunreplaced⟩ :=
    removeProTxConflicts_removals husable hmined h
  obtain ⟨hevict,hunreferred⟩ := removeProTxSpentCollateralConflicts_evictions husable hspent
  have hall := hevict.trans hremove.evictions
  refine ⟨hall,?_⟩
  intro hash info hinfo hconflicts
  cases hconflicts with
  | masternode hclaim hinput hdmn hreg =>
    have hbefore := hremove.infos_of hinfo
    exact hunreferred _ hinput hdmn (claimAt_eq_some.mpr ⟨info,hbefore,hclaim⟩) hreg
  | key hrepl hclaim hreg hkey =>
    have hvalid := hunreplaced hrepl hinfo hclaim hreg
    rcases hkey with hservice | hkey
    · have hzero := (husable.evictions hall).services hinfo hservice
      rw [hvalid] at hzero
      exact hkeys _ hzero
    · exact hkey hvalid
  | claimed hclaim hother hshares =>
    exact hunclaimed hclaim (claimAt_eq_some.mpr ⟨info,hinfo,hother⟩) hshares

theorem removeForBlockTx_evictions (h : pool.removeForBlockTx ctx tx=.ok next) :
    ∃ mined unspent, pool.removeMined ctx tx=.ok mined ∧
      mined.removeConflicts ctx tx=.ok unspent ∧
      Evictions ctx pool.view unspent.view ∧ Evictions ctx unspent.view next.view ∧
      next.view.infos tx.hash=none ∧
      ∀ {hash info}, next.view.infos hash=some info → ¬Conflicts ctx tx info := by
  obtain ⟨mined,hmined,h⟩ := bind_eq_ok.mp h
  obtain ⟨unspent,hunspent,h⟩ := bind_eq_ok.mp h
  obtain ⟨last,hlast,h⟩ := bind_eq_ok.mp h
  cases h
  have hfirst := (removals_removeMined hmined).evictions
  have hsecond := (removals_removeConflicts hunspent).evictions
  have hbefore := hfirst.trans hsecond
  have hgone := hsecond.infos_none (infos_removeMined hmined)
  obtain ⟨hafter,hconflicts⟩ :=
    removeProTxConflicts_evictions hkeys (husable.evictions hbefore) hgone hlast
  exact ⟨mined,unspent,hmined,hunspent,hbefore,hafter,hafter.infos_none hgone,hconflicts⟩

end

end Transactions

section Blocks

variable {ctx : PoolContext} {pool next : CTxMemPool}

theorem removeForBlock_evictions {vtx : List CTransaction} (hkeys : ∀ key, ctx.keyHash key≠0)
    (husable : UsableView ctx.keyHash pool.view) (h : pool.removeForBlock ctx vtx=.ok next) :
    Evictions ctx pool.view next.view ∧ ∀ tx∈vtx, next.view.infos tx.hash=none ∧
      ∀ {hash info}, next.view.infos hash=some info → ¬Conflicts ctx tx info := by
  unfold removeForBlock at h
  induction vtx generalizing pool with
  | nil =>
    cases h
    exact ⟨Relation.ReflTransGen.refl,fun _ hm => absurd hm List.not_mem_nil⟩
  | cons tx vtx ih =>
    rw [List.foldlM_cons,bind_eq_ok] at h
    obtain ⟨first,hfirst,h⟩ := h
    obtain ⟨_,_,-,-,hbefore,hafter,hgone,hconflicts⟩ :=
      removeForBlockTx_evictions hkeys husable hfirst
    have hevict := hbefore.trans hafter
    obtain ⟨hrest,hothers⟩ := ih (husable.evictions hevict) h
    refine ⟨hevict.trans hrest,?_⟩
    intro other hm
    rcases List.mem_cons.mp hm with rfl | hm
    · exact ⟨hrest.infos_none hgone,fun hinfo => hconflicts (hrest.infos_of hinfo)⟩
    · exact hothers other hm

/-- A transaction is in a block, or one of the block claims the same. -/
def Leaves (ctx : PoolContext) (block : List CTransaction) (tx : CTransaction) : Prop :=
  ∃ other∈block, other.hash=tx.hash ∨ ∃ claim found, claimOf ctx.keyHash other=some claim ∧
    claimOf ctx.keyHash tx=some found ∧ claim.Shares found

/-- Once a transaction was mined, only registrations that leave with the block wait for a collateral
that it spends. -/
def SparesWaiting (ctx : PoolContext) (block : List CTransaction) (tx : CTransaction)
    (pool : CTxMemPool) : Prop :=
  ∀ mined unspent, pool.removeMined ctx tx=.ok mined →
    mined.removeConflicts ctx tx=.ok unspent → ∀ hash info,
      unspent.view.infos hash=some info → Waits ctx tx info → Leaves ctx block info.tx

/-- The transactions of a block do so one after another. -/
def SparesWaitingAll (ctx : PoolContext) (block : List CTransaction) :
    List CTransaction → CTxMemPool → Prop
  | [],_ => True
  | tx::vtx,pool => SparesWaiting ctx block tx pool ∧
      ∀ next, pool.removeForBlockTx ctx tx=.ok next → SparesWaitingAll ctx block vtx next

theorem leaves_of_waits {block vtx : List CTransaction} (hkeys : ∀ key, ctx.keyHash key≠0)
    (husable : UsableView ctx.keyHash pool.view)
    (hspare : SparesWaitingAll ctx block vtx pool)
    (h : pool.removeForBlock ctx vtx=.ok next) {tx : CTransaction} (hm : tx∈vtx)
    {hash : Uint256} {info : EntryInfo} (hinfo : next.view.infos hash=some info)
    (hwaits : Waits ctx tx info) : Leaves ctx block info.tx := by
  induction vtx generalizing pool with
  | nil => cases hm
  | cons other vtx ih =>
    unfold removeForBlock at h
    rw [List.foldlM_cons,bind_eq_ok] at h
    obtain ⟨first,hfirst,h⟩ := h
    obtain ⟨mined,unspent,hmined,hunspent,hbefore,hafter,-⟩ :=
      removeForBlockTx_evictions hkeys husable hfirst
    have hfirstUsable := husable.evictions (hbefore.trans hafter)
    rcases List.mem_cons.mp hm with rfl | hm
    · have hrest := (removeForBlock_evictions hkeys hfirstUsable h).1
      have hlater : Evictions ctx unspent.view next.view := hafter.trans hrest
      have hthere := hlater.infos_of hinfo
      exact hspare.1 mined unspent hmined hunspent hash info hthere hwaits
    · exact ih hfirstUsable (hspare.2 first hfirst) h hm

/-- No transaction of the pool is invalidated by a block. -/
def Evicted (ctx : PoolContext) (block : List CTransaction) (view : PoolView) : Prop :=
  ∀ tx∈block, ∀ {hash info}, view.infos hash=some info →
    ¬Waits ctx tx info ∧ ¬Conflicts ctx tx info

theorem evicted_of_usable {block : List CTransaction} (hkeys : ∀ key, ctx.keyHash key≠0)
    (husable : UsableView ctx.keyHash pool.view)
    (hspare : SparesWaitingAll ctx block block pool)
    (h : pool.removeForBlock ctx block=.ok next) : Evicted ctx block next.view := by
  obtain ⟨hevict,hgone⟩ := removeForBlock_evictions hkeys husable h
  intro tx htx hash info hinfo
  refine ⟨?_,(hgone tx htx).2 hinfo⟩
  intro hwaits
  obtain ⟨other,hother,hleaves⟩ := leaves_of_waits hkeys husable hspare h htx hinfo hwaits
  obtain ⟨hnone,hconflicts⟩ := hgone other hother
  rcases hleaves with hsame | ⟨claim,found,hclaim,hfound,hshares⟩
  · have hkeyed := (husable.evictions hevict).keyed hinfo
    rw [hsame,hkeyed,hinfo] at hnone
    cases hnone
  · exact hconflicts hinfo (.claimed hclaim hfound hshares)

end Blocks

/-- Accepted transactions claim something else than their registration. -/
def AcceptsApart (ctx : PoolContext) (event : PoolEvent) (pool : CTxMemPool) : Prop :=
  match event with
  | .accept _ info => ClaimsApart ctx.keyHash pool.view info.tx
  | _ => True

section Runs

variable {ctx : PoolContext} {pool next : CTxMemPool}

theorem UsableView.accept (husable : UsableView ctx.keyHash pool.view)
    {limits : CTxMemPool.PackageLimits} {info : EntryInfo}
    (hnew : pool.mapTx.contains info.tx.hash=false)
    (hclash : pool.existsProviderTxConflict ctx info.tx=false)
    (hcond : ClaimsApart ctx.keyHash pool.view info.tx)
    (h : pool.accept ctx limits info=.ok next) : UsableView ctx.keyHash next.view := by
  rcases view_accept hnew h with rfl | ⟨added,claim,htx,hservice,hnone,hclaim,hinfos,hmaps,-⟩
  · exact husable
  · have hfresh := freshClaim husable.addresses husable.blsPubKeyHashes hclash
      (htx ▸ hclaim) hcond
    exact husable.added hnone hclaim hfresh hservice hinfos hmaps

theorem UsableView.perform {event : PoolEvent} (hkeys : ∀ key, ctx.keyHash key≠0)
    (husable : UsableView ctx.keyHash pool.view) (hcond : AcceptsApart ctx event pool)
    (h : TxMemPool.perform ctx event pool=.ok next) :
    UsableView ctx.keyHash next.view := by
  cases event with
  | accept limits info =>
    unfold TxMemPool.perform at h
    dsimp only at h
    split_ifs at h with hrefused
    · cases h
      exact husable
    · obtain ⟨hnew,hclash⟩ := Bool.or_eq_false_iff.mp (Bool.eq_false_of_not_eq_true hrefused)
      exact husable.accept hnew hclash hcond h
  | removeRecursive tx => exact husable.evictions (removals_removeRecursive h).evictions
  | removeForBlock vtx => exact husable.evictions (removeForBlock_evictions hkeys husable h).1
  | removeForReorg rules => exact husable.evictions (removals_removeForReorg h).evictions
  | expire isLocked time =>
    obtain ⟨result,hres,h⟩ := bind_eq_ok.mp h
    cases h
    exact husable.evictions (removals_expire hres).evictions
  | trimToSize before dynamicMemoryUsage sizelimit =>
    obtain ⟨result,hres,h⟩ := bind_eq_ok.mp h
    cases h
    exact husable.evictions (removals_trimToSize hres).evictions
  | prioritiseTransaction hash nFeeDelta =>
    rw [view_prioritiseTransaction h]
    exact husable
  | updateTransactionsFromBlock vHashesToUpdate =>
    rw [view_updateTransactionsFromBlock h]
    exact husable

theorem PoolRun.usable {serializeHash : UniqueProperty → Uint256}
    (hkeys : ∀ key, serializeHash (.operator key)≠0)
    (h : PoolRun serializeHash AcceptsApart pool) :
    UsableView (fun key => serializeHash (.operator key)) pool.view := by
  induction h with
  | start => exact usableView_empty
  | step mnList event _ hcond hnext ih =>
    exact @UsableView.perform ⟨serializeHash,mnList⟩ _ _ event hkeys ih hcond hnext

end Runs

end Pyrk.TxMemPool
