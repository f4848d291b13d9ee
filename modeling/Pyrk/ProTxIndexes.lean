import Pyrk.PoolViews
import Pyrk.ClaimIndex

/-!
# Indexes of masternode transactions in the pool

What a masternode transaction claims is found through five indexes. They are exact when they hold
what transactions of the pool claim and nothing else.
-/

namespace Pyrk.TxMemPool

open ProTxMaps CTxMemPool

open Transaction Script NetAddress DeterministicMNList ClaimIndex OrderedMap Function Option

/-- What a masternode transaction claims. -/
structure ProTxClaim where
  registration : Option Uint256 := none
  reference : Option (Uint256×Uint256) := none
  dropped : Option (Uint256×Uint256) := none
  addr : Option CService := none
  keyIDOwner : Option CKeyID := none
  keyHash : Option Uint256 := none
  collateral : Option COutPoint := none

open ProTxClaim

def registrationClaim (keyHash : CBLSPublicKey → Uint256) (hash : Uint256) (proTx : CProRegTx) :
    ProTxClaim where
  reference :=
    if proTx.collateralOutpoint.hash≠0 then some (hash,proTx.collateralOutpoint.hash) else none
  dropped :=
    if proTx.collateralOutpoint.isNull then none else some (hash,proTx.collateralOutpoint.hash)
  addr := some proTx.addr
  keyIDOwner := some proTx.keyIDOwner
  keyHash := some (keyHash proTx.pubKeyOperator)
  collateral := if proTx.collateralOutpoint.hash≠0 then some proTx.collateralOutpoint else none

/-- What an update claims, with an address or an operator key. -/
def updateClaim (hash proTxHash : Uint256) (addr : Option CService) (keyHash : Option Uint256) :
    ProTxClaim where
  registration := some proTxHash
  reference := some (proTxHash,hash)
  dropped := some (proTxHash,hash)
  addr := addr
  keyHash := keyHash

/-- What a transaction claims, if its payload can be read. -/
def claimOf (keyHash : CBLSPublicKey → Uint256) (tx : CTransaction) : Option ProTxClaim :=
  match tx.nType with
  | .providerRegister => tx.getProRegTx.map (registrationClaim keyHash tx.hash)
  | .providerUpdateService => tx.getProUpServTx.map (fun proTx =>
      updateClaim tx.hash proTx.proTxHash (some proTx.addr) none)
  | .providerUpdateRegistrar => tx.getProUpRegTx.map (fun proTx =>
      updateClaim tx.hash proTx.proTxHash none (some (keyHash proTx.pubKeyOperator)))
  | .providerUpdateRevoke => tx.getProUpRevTx.map (fun proTx =>
      updateClaim tx.hash proTx.proTxHash none none)
  | _ => some {}

/-- Registration whose operator key a transaction replaces, with the new key. A
revocation leaves the null key. -/
def replacedKey (tx : CTransaction) : Option (Uint256×CBLSPublicKey) :=
  match tx.nType with
  | .providerUpdateRegistrar =>
    tx.getProUpRegTx.map (fun proTx => (proTx.proTxHash,proTx.pubKeyOperator))
  | .providerUpdateRevoke => tx.getProUpRevTx.map (fun proTx => (proTx.proTxHash,CBLSWrapper.null))
  | _ => none

/-- Remove what claims a part of the same. -/
def removeShared (ctx : PoolContext) (tx : CTransaction) (claim : Option ProTxClaim)
    (pool : CTxMemPool) : Checked CTxMemPool := do
  let pool ← pool.removeClaimed ctx tx
    ((claim.bind ProTxClaim.addr).bind pool.mapProTxAddresses.find)
  let pool ← pool.removeClaimed ctx tx
    ((claim.bind ProTxClaim.keyIDOwner).bind pool.mapProTxPubKeyIDs.find)
  let pool ← pool.removeClaimed ctx tx
    ((claim.bind ProTxClaim.keyHash).bind pool.mapProTxBlsPubKeyHashes.find)
  pool.removeClaimed ctx tx ((claim.bind ProTxClaim.collateral).bind pool.mapProTxCollaterals.find)

/-- Remove updates that were valid for a key that is replaced. -/
def removeReplaced (ctx : PoolContext) (replaced : Option (Uint256×CBLSPublicKey))
    (pool : CTxMemPool) : Checked CTxMemPool :=
  match replaced with
  | none => .ok pool
  | some (proTxHash,pubKeyOperator) =>
    pool.removeProTxKeyChangedConflicts ctx proTxHash (ctx.keyHash pubKeyOperator)

/-- What contradicts a transaction goes in three parts, whatever its type is. -/
theorem removeProTxConflicts_eq (ctx : PoolContext) (pool : CTxMemPool) (tx : CTransaction) :
    pool.removeProTxConflicts ctx tx=
      pool.removeProTxSpentCollateralConflicts ctx tx>>=fun spent =>
        removeShared ctx tx (claimOf ctx.keyHash tx) spent>>=removeReplaced ctx
          (replacedKey tx) := by
  refine congrArg (bind _) (funext (fun spent => ?_))
  have hok : ∀ result : Checked CTxMemPool, result>>=Except.ok=result := by
    rintro (_ | _) <;> rfl
  unfold claimOf replacedKey
  cases htype : tx.nType with
  | providerRegister =>
    cases tx.getProRegTx with
    | none => rfl
    | some proTx =>
      refine Eq.trans ?_ (hok _).symm
      refine congrArg (bind _) (funext (fun first => congrArg (bind _) (funext (fun second =>
        congrArg (bind _) (funext (fun third => ?_))))))
      simp only [Option.map_some,Option.bind_some,registrationClaim]
      split_ifs <;> first | rfl | contradiction
  | providerUpdateService =>
    cases tx.getProUpServTx with
    | none => rfl
    | some proTx => exact ((hok _).trans (hok _)).symm
  | providerUpdateRegistrar =>
    cases tx.getProUpRegTx with
    | none => rfl
    | some proTx => exact congrArg (·>>=_) (hok _).symm
  | providerUpdateRevoke =>
    cases tx.getProUpRevTx with
    | none => rfl
    | some proTx => rfl
  | _ => rfl

/-- Record what a transaction claims. -/
def ProTxMaps.record (maps : ProTxMaps) (claim : ProTxClaim) (hash : Uint256) : ProTxMaps where
  mapProTxRefs := maps.mapProTxRefs++claim.reference.toList
  mapProTxAddresses := emplaceKey maps.mapProTxAddresses claim.addr hash
  mapProTxPubKeyIDs := emplaceKey maps.mapProTxPubKeyIDs claim.keyIDOwner hash
  mapProTxBlsPubKeyHashes := emplaceKey maps.mapProTxBlsPubKeyHashes claim.keyHash hash
  mapProTxCollaterals := emplaceKey maps.mapProTxCollaterals claim.collateral hash

/-- Forget what a transaction claims. -/
def ProTxMaps.forget (maps : ProTxMaps) (claim : ProTxClaim) : ProTxMaps where
  mapProTxRefs := maps.mapProTxRefs.filter (fun ref => !decide (claim.dropped=some ref))
  mapProTxAddresses := eraseKey maps.mapProTxAddresses claim.addr
  mapProTxPubKeyIDs := eraseKey maps.mapProTxPubKeyIDs claim.keyIDOwner
  mapProTxBlsPubKeyHashes := eraseKey maps.mapProTxBlsPubKeyHashes claim.keyHash
  mapProTxCollaterals := eraseKey maps.mapProTxCollaterals claim.collateral

section Claims

variable {ctx : PoolContext}

theorem isNull_eq_false {outpoint : COutPoint} (h : outpoint.hash≠0) : outpoint.isNull=false := by
  simp [COutPoint.isNull,h]

theorem elim_eq_ok {claim : Option ProTxClaim} {maps : ProTxClaim → ProTxMaps} {next : ProTxMaps}
    (h : (claim.elim (.error (.assertion .txPayload)) (fun found => .ok (maps found)) :
      Checked ProTxMaps)=.ok next) : ∃ found, claim=some found ∧ next=maps found := by
  cases claim with
  | none => cases h
  | some found =>
    cases h
    exact ⟨found,rfl,rfl⟩

theorem addProTx_ok {maps next : ProTxMaps} {tx : CTransaction}
    (h : addProTx ctx maps tx=.ok next) :
    ∃ claim, claimOf ctx.keyHash tx=some claim ∧ next=maps.record claim tx.hash := by
  refine elim_eq_ok (Eq.trans ?_ h)
  unfold addProTx claimOf
  cases htype : tx.nType with
  | providerRegister =>
    cases tx.getProRegTx with
    | none => rfl
    | some proTx =>
      by_cases hhash : proTx.collateralOutpoint.hash=0
      · simp [record,registrationClaim,emplaceKey,hhash]
      · simp [record,registrationClaim,emplaceKey,hhash]
  | providerUpdateService => cases tx.getProUpServTx <;> rfl
  | providerUpdateRegistrar => cases tx.getProUpRegTx <;> rfl
  | providerUpdateRevoke => cases tx.getProUpRevTx <;> rfl
  | _ => simp [record,emplaceKey]

theorem erase_absent {κ ν : Type} [LinearOrder κ] {map : OrderedMap κ ν} {key : κ}
    (h : map.find key=none) : map.erase key=map := by
  refine ext_find (fun other => ?_)
  rw [find_erase]
  split_ifs with he
  · rw [he,h]
  · rfl

theorem eraseProTx_ok {maps next : ProTxMaps} {tx : CTransaction}
    (hnull : ∀ outpoint : COutPoint, outpoint.hash=0 → maps.mapProTxCollaterals.find outpoint=none)
    (h : eraseProTx ctx maps tx=.ok next) :
    ∃ claim, claimOf ctx.keyHash tx=some claim ∧ next=maps.forget claim := by
  have hrefs : ∀ (refs : List (Uint256×Uint256)) (proTxHash txHash : Uint256),
      eraseProTxRef refs proTxHash txHash=
        refs.filter (fun ref => !decide (some (proTxHash,txHash)=some ref)) := by
    intro refs proTxHash txHash
    simp only [eraseProTxRef,some.injEq,eq_comm]
  refine elim_eq_ok (Eq.trans ?_ h)
  unfold eraseProTx claimOf
  cases htype : tx.nType with
  | providerRegister =>
    cases tx.getProRegTx with
    | none => rfl
    | some proTx =>
      by_cases hhash : proTx.collateralOutpoint.hash=0
      · have herase := erase_absent (hnull proTx.collateralOutpoint hhash)
        by_cases hisnull : proTx.collateralOutpoint.isNull=true
        · simp [forget,registrationClaim,eraseKey,hhash,hisnull,herase]
        · simp [forget,registrationClaim,eraseKey,hhash,hisnull,herase,hrefs]
      · simp [forget,registrationClaim,eraseKey,hhash,isNull_eq_false hhash,hrefs]
  | providerUpdateService => cases tx.getProUpServTx <;> simp [forget,updateClaim,eraseKey,hrefs]
  | providerUpdateRegistrar => cases tx.getProUpRegTx <;> simp [forget,updateClaim,eraseKey,hrefs]
  | providerUpdateRevoke => cases tx.getProUpRevTx <;> simp [forget,updateClaim,eraseKey,hrefs]
  | _ => simp [forget,eraseKey]

end Claims

section Shapes

variable {keyHash : CBLSPublicKey → Uint256} {tx : CTransaction} {claim : ProTxClaim}

section

variable (h : claimOf keyHash tx=some claim)

include h

theorem claimOf_cases :
    claim={} ∨ (∃ proTx, claim=registrationClaim keyHash tx.hash proTx) ∨
      ∃ proTxHash addr key, claim=updateClaim tx.hash proTxHash addr key := by
  unfold claimOf at h
  cases htype : tx.nType with
  | providerRegister =>
    simp only [htype,map_eq_some_iff] at h
    obtain ⟨proTx,-,rfl⟩ := h
    exact .inr (.inl ⟨proTx,rfl⟩)
  | providerUpdateService =>
    simp only [htype,map_eq_some_iff] at h
    obtain ⟨proTx,-,rfl⟩ := h
    exact .inr (.inr ⟨_,_,_,rfl⟩)
  | providerUpdateRegistrar =>
    simp only [htype,map_eq_some_iff] at h
    obtain ⟨proTx,-,rfl⟩ := h
    exact .inr (.inr ⟨_,_,_,rfl⟩)
  | providerUpdateRevoke =>
    simp only [htype,map_eq_some_iff] at h
    obtain ⟨proTx,-,rfl⟩ := h
    exact .inr (.inr ⟨_,_,_,rfl⟩)
  | _ =>
    simp only [htype,some.injEq] at h
    exact .inl h.symm

theorem claimOf_dropped {reference : Uint256×Uint256}
    (href : claim.reference=some reference) : claim.dropped=some reference := by
  rcases claimOf_cases h with rfl | ⟨proTx,rfl⟩ | ⟨proTxHash,addr,key,rfl⟩
  · cases href
  · dsimp only [registrationClaim] at href ⊢
    split_ifs at href with hhash
    rw [isNull_eq_false hhash,if_neg Bool.false_ne_true]
    exact href
  · exact href

theorem claimOf_collateral {outpoint : COutPoint}
    (hcoll : claim.collateral=some outpoint) : outpoint.hash≠0 := by
  rcases claimOf_cases h with rfl | ⟨proTx,rfl⟩ | ⟨proTxHash,addr,key,rfl⟩
  · cases hcoll
  · dsimp only [registrationClaim] at hcoll
    split_ifs at hcoll with hhash
    cases hcoll
    exact hhash
  · cases hcoll

theorem claimOf_registration {proTxHash : Uint256}
    (hreg : claim.registration=some proTxHash) :
    claim.reference=some (proTxHash,tx.hash) := by
  rcases claimOf_cases h with rfl | ⟨proTx,rfl⟩ | ⟨registration,addr,key,rfl⟩
  · cases hreg
  · cases hreg
  · cases hreg
    rfl

theorem claimOf_reference {reference : Uint256×Uint256}
    (href : claim.reference=some reference) :
    reference.2=tx.hash ∨ reference.1=tx.hash ∧ claim.collateral≠none := by
  rcases claimOf_cases h with rfl | ⟨proTx,rfl⟩ | ⟨proTxHash,addr,key,rfl⟩
  · cases href
  · dsimp only [registrationClaim] at href ⊢
    grind
  · cases href
    exact .inl rfl

end

end Shapes

/-- What the transaction of an entry claims. -/
def PoolView.claimAt (view : PoolView) (keyHash : CBLSPublicKey → Uint256) (hash : Uint256) :
    Option ProTxClaim :=
  (view.infos hash).bind (fun info => claimOf keyHash info.tx)

/-- Indexes hold exactly what transactions of the pool claim. -/
structure ExactIndexes (keyHash : CBLSPublicKey → Uint256) (view : PoolView) : Prop where
  refs : Lists view.maps.mapProTxRefs
    (fun hash => (view.claimAt keyHash hash).bind reference)
  addresses : Indexes view.maps.mapProTxAddresses
    (fun hash => (view.claimAt keyHash hash).bind addr)
  pubKeyIDs : Indexes view.maps.mapProTxPubKeyIDs
    (fun hash => (view.claimAt keyHash hash).bind keyIDOwner)
  blsPubKeyHashes : Indexes view.maps.mapProTxBlsPubKeyHashes
    (fun hash => (view.claimAt keyHash hash).bind ProTxClaim.keyHash)
  collaterals : Indexes view.maps.mapProTxCollaterals
    (fun hash => (view.claimAt keyHash hash).bind collateral)

/-- Indexes are exact, and entries belong to what finds them. -/
structure TidyView (keyHash : CBLSPublicKey → Uint256) (view : PoolView) : Prop
    extends ExactIndexes keyHash view where
  /-- Entries are found by the hash of their transaction. -/
  keyed : ∀ {hash info}, view.infos hash=some info → info.tx.hash=hash
  readable : ∀ {hash info}, view.infos hash=some info → ∃ claim, claimOf keyHash info.tx=some claim
  /-- No removal forgets the reference of another entry. -/
  apart : ∀ {first second firstClaim secondClaim reference},
    view.claimAt keyHash first=some firstClaim → view.claimAt keyHash second=some secondClaim →
    firstClaim.dropped=some reference → secondClaim.dropped=some reference → first=second
  /-- Spent outputs are spent by transactions of the pool. -/
  spends : ∀ {outpoint tx}, view.spends.find outpoint=some tx →
    ∃ info, view.infos tx.hash=some info ∧ info.tx=tx ∧ outpoint∈tx.vin.map CTxIn.prevout

section Tidy

variable {ctx : PoolContext} {keyHash : CBLSPublicKey → Uint256} {view next : PoolView}

theorem claimAt_eq_some {hash : Uint256} {claim : ProTxClaim} :
    view.claimAt keyHash hash=some claim ↔
      ∃ info, view.infos hash=some info ∧ claimOf keyHash info.tx=some claim :=
  bind_eq_some_iff

theorem claims_update {κ : Type} (part : ProTxClaim → Option κ) {hash : Uint256}
    {info : Option EntryInfo} (hinfos : next.infos=Function.update view.infos hash info) :
    (fun other => (next.claimAt keyHash other).bind part)=
      Function.update (fun other => (view.claimAt keyHash other).bind part) hash
        ((info.bind (fun info => claimOf keyHash info.tx)).bind part) := by
  funext other
  by_cases he : other=hash
  · rw [he,update_self,PoolView.claimAt,hinfos,update_self]
  · rw [update_of_ne he,PoolView.claimAt,hinfos,update_of_ne he]
    rfl

theorem collateral_null (h : Indexes view.maps.mapProTxCollaterals
      (fun hash => (view.claimAt keyHash hash).bind collateral))
    {outpoint : COutPoint} (hnull : outpoint.hash=0) :
    view.maps.mapProTxCollaterals.find outpoint=none := by
  rw [h.find_eq_none]
  intro owner hclaim
  obtain ⟨claim,hclaim,hcoll⟩ := bind_eq_some_iff.mp hclaim
  obtain ⟨info,-,hof⟩ := claimAt_eq_some.mp hclaim
  exact claimOf_collateral hof hcoll hnull

theorem indexes_removed {κ : Type} [LinearOrder κ] {index : OrderedMap κ Uint256}
    (part : ProTxClaim → Option κ)
    (h : Indexes index (fun hash => (view.claimAt keyHash hash).bind part)) {hash : Uint256}
    {claim : ProTxClaim} (hat : view.claimAt keyHash hash=some claim)
    (hinfos : next.infos=Function.update view.infos hash none) :
    Indexes (eraseKey index (part claim))
      (fun other => (next.claimAt keyHash other).bind part) := by
  have herase := h.eraseKey hash
  rw [hat,bind_some] at herase
  rw [claims_update _ hinfos]
  exact herase

theorem indexes_added {κ : Type} [LinearOrder κ] {index : OrderedMap κ Uint256}
    (part : ProTxClaim → Option κ)
    (h : Indexes index (fun hash => (view.claimAt keyHash hash).bind part)) {info : EntryInfo}
    {claim : ProTxClaim} (hnew : view.infos info.tx.hash=none)
    (hclaim : claimOf keyHash info.tx=some claim)
    (hinfos : next.infos=Function.update view.infos info.tx.hash (some info))
    (hfree : ∀ key, part claim=some key → index.find key=none) :
    Indexes (ClaimIndex.emplaceKey index (part claim) info.tx.hash)
      (fun other => (next.claimAt keyHash other).bind part) := by
  rw [claims_update _ hinfos,bind_some,hclaim,bind_some]
  refine h.emplaceKey ?_ hfree
  rw [PoolView.claimAt,hnew]
  rfl

/-- The indexes of properties are those of the entries' claims. -/
structure PropertyIndexes (keyHash : CBLSPublicKey → Uint256) (view : PoolView) : Prop where
  addresses : Indexes view.maps.mapProTxAddresses
    (fun hash => (view.claimAt keyHash hash).bind addr)
  pubKeyIDs : Indexes view.maps.mapProTxPubKeyIDs
    (fun hash => (view.claimAt keyHash hash).bind keyIDOwner)
  blsPubKeyHashes : Indexes view.maps.mapProTxBlsPubKeyHashes
    (fun hash => (view.claimAt keyHash hash).bind ProTxClaim.keyHash)
  collaterals : Indexes view.maps.mapProTxCollaterals
    (fun hash => (view.claimAt keyHash hash).bind collateral)
  keyed : ∀ {hash info}, view.infos hash=some info → info.tx.hash=hash
  apart : ∀ {first second firstClaim secondClaim reference},
    view.claimAt keyHash first=some firstClaim → view.claimAt keyHash second=some secondClaim →
    firstClaim.dropped=some reference → secondClaim.dropped=some reference → first=second

section Properties

variable {hash : Uint256} {claim : ProTxClaim}

theorem PropertyIndexes.forget (h : PropertyIndexes ctx.keyHash view)
    (hremoved : Removed ctx hash view next) :
    ∃ claim, view.claimAt ctx.keyHash hash=some claim ∧ next.maps=view.maps.forget claim := by
  obtain ⟨info,hinfo,hmaps,-⟩ := hremoved
  obtain ⟨claim,hclaim,hforget⟩ := eraseProTx_ok (fun _ => collateral_null h.collaterals) hmaps
  exact ⟨claim,claimAt_eq_some.mpr ⟨info,hinfo,hclaim⟩,hforget⟩

theorem claimAt_of_removed (hremoved : Removed ctx hash view next) {other : Uint256}
    (h : next.claimAt keyHash other=some claim) :
    other≠hash ∧ view.claimAt keyHash other=some claim := by
  obtain ⟨info,hinfo,hof⟩ := claimAt_eq_some.mp h
  obtain ⟨hne,hold⟩ := hremoved.infos_of hinfo
  exact ⟨hne,claimAt_eq_some.mpr ⟨info,hold,hof⟩⟩

theorem PropertyIndexes.removed (h : PropertyIndexes ctx.keyHash view)
    (hremoved : Removed ctx hash view next) : PropertyIndexes ctx.keyHash next := by
  obtain ⟨claim,hat,hforget⟩ := h.forget hremoved
  obtain ⟨_,_,_,hinfos,_⟩ := id hremoved
  refine {
    addresses := ?_
    pubKeyIDs := ?_
    blsPubKeyHashes := ?_
    collaterals := ?_
    keyed := fun hfound => h.keyed (hremoved.infos_of hfound).2
    apart := fun hfirst hsecond =>
      h.apart (claimAt_of_removed hremoved hfirst).2 (claimAt_of_removed hremoved hsecond).2 } <;>
    rw [hforget]
  · exact indexes_removed addr h.addresses hat hinfos
  · exact indexes_removed keyIDOwner h.pubKeyIDs hat hinfos
  · exact indexes_removed ProTxClaim.keyHash h.blsPubKeyHashes hat hinfos
  · exact indexes_removed collateral h.collaterals hat hinfos

end Properties

theorem TidyView.removed (h : TidyView ctx.keyHash view) {hash : Uint256}
    (hremoved : Removed ctx hash view next) : TidyView ctx.keyHash next := by
  have hprops : PropertyIndexes ctx.keyHash view := { h with }
  obtain ⟨claim,hat,hforget⟩ := hprops.forget hremoved
  obtain ⟨info,hinfo,-,hinfos,hspends⟩ := id hremoved
  obtain ⟨_,-,hclaim⟩ := claimAt_eq_some.mp hat
  refine {
    hprops.removed hremoved with
    refs := ?_
    readable := fun hfound => h.readable (hremoved.infos_of hfound).2
    spends := ?_ }
  · rw [claims_update _ hinfos,hforget]
    refine h.refs.filter ?_ ?_
    · intro reference href
      rw [hat] at href
      exact claimOf_dropped hclaim href
    · intro reference hdropped other hne hother
      obtain ⟨otherClaim,hotherClaim,href⟩ := bind_eq_some_iff.mp hother
      obtain ⟨otherInfo,-,hof⟩ := claimAt_eq_some.mp hotherClaim
      exact hne (h.apart hotherClaim hat (claimOf_dropped hof href) hdropped)
  · intro outpoint tx hfind
    rw [hspends,← List.foldl_map,find_foldl_erase] at hfind
    split_ifs at hfind with hspent
    obtain ⟨found,hfound,htx,hinput⟩ := h.spends hfind
    have hne : tx.hash≠hash := by
      intro he
      rw [he,hinfo] at hfound
      cases hfound
      exact hspent (htx ▸ hinput)
    exact ⟨found,by rw [hinfos,update_of_ne hne,hfound],htx,hinput⟩

theorem TidyView.removals (h : TidyView ctx.keyHash view)
    (hremove : Removals ctx view next) : TidyView ctx.keyHash next :=
  hremove.preserve (fun hview hremoved => hview.removed hremoved) h

theorem claimAt_of_removals (hremove : Removals ctx view next) {hash : Uint256}
    {claim : ProTxClaim} (h : next.claimAt keyHash hash=some claim) :
    view.claimAt keyHash hash=some claim := by
  obtain ⟨info,hinfo,hof⟩ := claimAt_eq_some.mp h
  exact claimAt_eq_some.mpr ⟨info,hremove.infos_of hinfo,hof⟩

/-- A claim that is free. -/
structure FreshClaim (keyHash : CBLSPublicKey → Uint256) (view : PoolView) (claim : ProTxClaim) :
    Prop where
  dropped : ∀ {hash other reference}, view.claimAt keyHash hash=some other →
    claim.dropped=some reference → other.dropped≠some reference
  addr : ∀ addr, claim.addr=some addr → view.maps.mapProTxAddresses.find addr=none
  keyIDOwner : ∀ key, claim.keyIDOwner=some key → view.maps.mapProTxPubKeyIDs.find key=none
  keyHash : ∀ key, claim.keyHash=some key → view.maps.mapProTxBlsPubKeyHashes.find key=none
  collateral : ∀ outpoint, claim.collateral=some outpoint →
    view.maps.mapProTxCollaterals.find outpoint=none

section Added

variable {info : EntryInfo} {claim : ProTxClaim}

theorem claimAt_added (hclaim : claimOf keyHash info.tx=some claim)
    (hinfos : next.infos=Function.update view.infos info.tx.hash (some info)) {other : Uint256}
    {found : ProTxClaim} (hfound : next.claimAt keyHash other=some found) :
    other=info.tx.hash ∧ found=claim ∨ view.claimAt keyHash other=some found := by
  obtain ⟨otherInfo,hother,hof⟩ := claimAt_eq_some.mp hfound
  rcases infos_added hinfos hother with ⟨he,rfl⟩ | ⟨-,hold⟩
  · rw [hclaim] at hof
    exact .inl ⟨he,(some.inj hof).symm⟩
  · exact .inr (claimAt_eq_some.mpr ⟨otherInfo,hold,hof⟩)

theorem PropertyIndexes.added (h : PropertyIndexes keyHash view)
    (hnew : view.infos info.tx.hash=none) (hclaim : claimOf keyHash info.tx=some claim)
    (hfresh : FreshClaim keyHash view claim)
    (hinfos : next.infos=Function.update view.infos info.tx.hash (some info))
    (hmaps : next.maps=view.maps.record claim info.tx.hash) : PropertyIndexes keyHash next := by
  refine {
    addresses := ?_
    pubKeyIDs := ?_
    blsPubKeyHashes := ?_
    collaterals := ?_
    keyed := ?_
    apart := ?_ }
  · rw [hmaps]
    exact indexes_added addr h.addresses hnew hclaim hinfos hfresh.addr
  · rw [hmaps]
    exact indexes_added keyIDOwner h.pubKeyIDs hnew hclaim hinfos hfresh.keyIDOwner
  · rw [hmaps]
    exact indexes_added ProTxClaim.keyHash h.blsPubKeyHashes hnew hclaim hinfos hfresh.keyHash
  · rw [hmaps]
    exact indexes_added collateral h.collaterals hnew hclaim hinfos hfresh.collateral
  · intro other found hfound
    rcases infos_added hinfos hfound with ⟨he,rfl⟩ | ⟨-,hold⟩
    · exact he.symm
    · exact h.keyed hold
  · intro first second firstClaim secondClaim reference hfirst hsecond hdropped hother
    rcases claimAt_added hclaim hinfos hfirst with ⟨hf,rfl⟩ | holdFirst
    · rcases claimAt_added hclaim hinfos hsecond with ⟨hs,rfl⟩ | holdSecond
      · rw [hf,hs]
      · exact absurd hother (hfresh.dropped holdSecond hdropped)
    · rcases claimAt_added hclaim hinfos hsecond with ⟨hs,rfl⟩ | holdSecond
      · exact absurd hdropped (hfresh.dropped holdFirst hother)
      · exact h.apart holdFirst holdSecond hdropped hother

theorem TidyView.added (h : TidyView keyHash view)
    (hnew : view.infos info.tx.hash=none) (hclaim : claimOf keyHash info.tx=some claim)
    (hfresh : FreshClaim keyHash view claim)
    (hinfos : next.infos=Function.update view.infos info.tx.hash (some info))
    (hmaps : next.maps=view.maps.record claim info.tx.hash)
    (hspends : next.spends=
      info.tx.vin.foldl (fun spends txin => spends.emplace txin.prevout info.tx) view.spends) :
    TidyView keyHash next := by
  have hprops : PropertyIndexes keyHash view := { h with }
  have hnone : view.claimAt keyHash info.tx.hash=none := by
    rw [PoolView.claimAt,hnew]
    rfl
  refine {
    hprops.added hnew hclaim hfresh hinfos hmaps with
    refs := ?_
    readable := ?_
    spends := ?_ }
  · rw [claims_update _ hinfos,hmaps,bind_some,hclaim,bind_some]
    refine h.refs.append ?_ ?_
    · rw [hnone]
      rfl
    intro reference href hmem
    obtain ⟨owner,howner⟩ := (h.refs.mem_iff reference).mp hmem
    obtain ⟨other,hother,hotherRef⟩ := bind_eq_some_iff.mp howner
    obtain ⟨otherInfo,-,hof⟩ := claimAt_eq_some.mp hother
    exact hfresh.dropped hother (claimOf_dropped hclaim href) (claimOf_dropped hof hotherRef)
  · intro other found hfound
    rcases infos_added hinfos hfound with ⟨-,rfl⟩ | ⟨-,hold⟩
    · exact ⟨claim,hclaim⟩
    · exact h.readable hold
  · intro outpoint tx hfind
    have hsame : ∀ first second,
        (outpoint,first)∈info.tx.vin.map (fun txin => (txin.prevout,info.tx)) →
        (outpoint,second)∈info.tx.vin.map (fun txin => (txin.prevout,info.tx)) → first=second := by
      grind
    have hfold : next.spends=(info.tx.vin.map (fun txin => (txin.prevout,info.tx))).foldl
        (fun stored entry => stored.emplace entry.1 entry.2) view.spends := by
      rw [hspends,List.foldl_map]
    rw [hfold,find_foldl_emplace _ _ _ _ hsame] at hfind
    rcases hfind with hold | ⟨-,hm⟩
    · obtain ⟨found,hfound,htx,hinput⟩ := h.spends hold
      have hne : tx.hash≠info.tx.hash := by
        intro he
        rw [he,hnew] at hfound
        cases hfound
      exact ⟨found,by rw [hinfos,update_of_ne hne,hfound],htx,hinput⟩
    · obtain ⟨txin,htxin,he⟩ := List.mem_map.mp hm
      obtain ⟨hprevout,htx⟩ := Prod.mk.inj he
      subst htx hprevout
      exact ⟨info,by rw [hinfos,update_self],rfl,List.mem_map_of_mem htxin⟩

end Added

theorem tidyView_empty : TidyView keyHash (CTxMemPool.view {}) where
  refs := lists_nil
  addresses := indexes_empty
  pubKeyIDs := indexes_empty
  blsPubKeyHashes := indexes_empty
  collaterals := indexes_empty
  keyed := by
    intro hash info h
    cases h
  readable := by
    intro hash info h
    cases h
  apart := by
    intro first second firstClaim secondClaim reference h
    cases h
  spends := by
    intro outpoint tx h
    cases h

/-- Two claims have something in common. -/
def ProTxClaim.Shares (first second : ProTxClaim) : Prop :=
  (∃ addr, first.addr=some addr ∧ second.addr=some addr) ∨
  (∃ key, first.keyIDOwner=some key ∧ second.keyIDOwner=some key) ∨
  (∃ key, first.keyHash=some key ∧ second.keyHash=some key) ∨
  ∃ outpoint, first.collateral=some outpoint ∧ second.collateral=some outpoint

theorem TidyView.eq_of_shares (h : TidyView keyHash view) {first second : Uint256}
    {firstClaim secondClaim : ProTxClaim} (hfirst : view.claimAt keyHash first=some firstClaim)
    (hsecond : view.claimAt keyHash second=some secondClaim)
    (hshares : firstClaim.Shares secondClaim) : first=second := by
  have hpart : ∀ {κ : Type} (part : ProTxClaim → Option κ) {hash : Uint256} {claim : ProTxClaim}
      {key : κ}, view.claimAt keyHash hash=some claim → part claim=some key →
      (view.claimAt keyHash hash).bind part=some key :=
    fun _ _ _ _ hclaim hkey => bind_eq_some_iff.mpr ⟨_,hclaim,hkey⟩
  rcases hshares with ⟨addr,hf,hs⟩ | ⟨key,hf,hs⟩ | ⟨key,hf,hs⟩ | ⟨outpoint,hf,hs⟩
  · exact h.addresses.owner_unique (hpart _ hfirst hf) (hpart _ hsecond hs)
  · exact h.pubKeyIDs.owner_unique (hpart _ hfirst hf) (hpart _ hsecond hs)
  · exact h.blsPubKeyHashes.owner_unique (hpart _ hfirst hf) (hpart _ hsecond hs)
  · exact h.collaterals.owner_unique (hpart _ hfirst hf) (hpart _ hsecond hs)

theorem claimed_of_find {κ : Type} [LinearOrder κ] {index : OrderedMap κ Uint256}
    {part : ProTxClaim → Option κ}
    (h : Indexes index (fun hash => (view.claimAt keyHash hash).bind part)) {key : κ}
    {hash : Uint256} (hfind : index.find key=some hash) :
    ∃ claim, view.claimAt keyHash hash=some claim ∧ part claim=some key :=
  bind_eq_some_iff.mp ((h key hash).mp hfind)

end Tidy

variable {ctx : PoolContext} {pool : CTxMemPool} {tx : CTransaction} {claim : ProTxClaim}

/-- A transaction that is not refused finds nothing of what it claims, but for its registration. -/
theorem existsProviderTxConflict_eq_false (h : pool.existsProviderTxConflict ctx tx=false)
    (hclaim : claimOf ctx.keyHash tx=some claim) :
    (∀ addr hash, claim.addr=some addr → pool.mapProTxAddresses.find addr=some hash →
      claim.registration=some hash) ∧
    (∀ key, claim.keyIDOwner=some key → pool.mapProTxPubKeyIDs.find key=none) ∧
    (∀ key hash, claim.keyHash=some key → pool.mapProTxBlsPubKeyHashes.find key=some hash →
      claim.registration=some hash) ∧
    ∀ outpoint, claim.collateral=some outpoint → pool.mapProTxCollaterals.find outpoint=none := by
  unfold existsProviderTxConflict at h
  unfold claimOf at hclaim
  cases htype : tx.nType with
  | providerRegister =>
    simp only [htype,map_eq_some_iff] at h hclaim
    obtain ⟨proTx,hpayload,rfl⟩ := hclaim
    simp only [hpayload,Bool.or_eq_false_iff,Bool.and_eq_false_iff,
      contains_eq_false,decide_eq_false_iff_not,not_not] at h
    obtain ⟨⟨⟨haddr,howner⟩,hkey⟩,hcoll⟩ := h
    refine ⟨?_,?_,?_,?_⟩
    · intro addr hash he hfind
      cases he
      rw [haddr] at hfind
      cases hfind
    · intro key he
      cases he
      exact howner
    · intro key hash he hfind
      cases he
      rw [hkey] at hfind
      cases hfind
    · intro outpoint he
      dsimp only [registrationClaim] at he
      split_ifs at he with hhash
      cases he
      exact (hcoll.resolve_left hhash).1
  | providerUpdateService =>
    simp only [htype,map_eq_some_iff] at h hclaim
    obtain ⟨proTx,hpayload,rfl⟩ := hclaim
    simp only [hpayload] at h
    refine ⟨?_,fun key he => ?_,fun key hash he => ?_,fun outpoint he => ?_⟩
    · intro addr hash he hfind
      cases he
      rw [hfind] at h
      have hsame := of_decide_eq_false h
      rw [not_not.mp hsame]
      rfl
    · cases he
    · cases he
    · cases he
  | providerUpdateRegistrar =>
    simp only [htype,map_eq_some_iff] at h hclaim
    obtain ⟨proTx,hpayload,rfl⟩ := hclaim
    simp only [hpayload,Bool.or_eq_false_iff] at h
    refine ⟨fun addr hash he => ?_,fun key he => ?_,?_,fun outpoint he => ?_⟩
    · cases he
    · cases he
    · intro key hash he hfind
      cases he
      rw [hfind] at h
      have hsame := of_decide_eq_false h.2
      rw [not_not.mp hsame]
      rfl
    · cases he
  | providerUpdateRevoke =>
    simp only [htype,map_eq_some_iff] at hclaim
    obtain ⟨proTx,-,rfl⟩ := hclaim
    refine ⟨fun addr hash he => ?_,fun key he => ?_,fun key hash he => ?_,fun outpoint he => ?_⟩
    · cases he
    · cases he
    · cases he
    · cases he
  | _ =>
    simp only [htype,some.injEq] at hclaim
    subst hclaim
    refine ⟨fun addr hash he => ?_,fun key he => ?_,fun key hash he => ?_,fun outpoint he => ?_⟩
    · cases he
    · cases he
    · cases he
    · cases he

/-- What transactions of the pool have against a masternode transaction. -/
inductive Refusal (ctx : PoolContext) (pool : CTxMemPool) (tx : CTransaction) : Prop
  | payload (hclaim : claimOf ctx.keyHash tx=none) : Refusal ctx pool tx
  /-- One claims the same and is not its own registration. -/
  | claimed {claim other : ProTxClaim} {hash : Uint256}
    (hclaim : claimOf ctx.keyHash tx=some claim)
    (hother : pool.view.claimAt ctx.keyHash hash=some other) (hshares : claim.Shares other)
    (hown : claim.registration≠some hash) : Refusal ctx pool tx
  | spent {claim : ProTxClaim} {hash : Uint256} {info : EntryInfo} {outpoint : COutPoint}
    (hclaim : claimOf ctx.keyHash tx=some claim)
    (hcoll : claim.collateral=some outpoint) (hinfo : pool.view.infos hash=some info)
    (hspends : outpoint∈info.tx.vin.map CTxIn.prevout) : Refusal ctx pool tx
  | unknown {claim : ProTxClaim} {proTxHash : Uint256}
    (hclaim : claimOf ctx.keyHash tx=some claim)
    (hreg : claim.registration=some proTxHash)
    (hunknown : ctx.mnList.getMN proTxHash=none) : Refusal ctx pool tx
  /-- One that refers to the same registration changes the operator key. -/
  | keyChange {claim other : ProTxClaim} {proTxHash hash changed : Uint256}
    {entry : CTxMemPoolEntry} (hclaim : claimOf ctx.keyHash tx=some claim)
    (hreg : claim.registration=some proTxHash)
    (hother : pool.view.claimAt ctx.keyHash hash=some other)
    (hreference : other.reference=some (proTxHash,changed))
    (hentry : pool.mapTx.find changed=some entry) (hchange : entry.isKeyChangeProTx=true) :
    Refusal ctx pool tx

theorem changesKeyTwice_eq_true (htidy : TidyView ctx.keyHash pool.view)
    {proTxHash : Uint256} {pubKeyOperator : CBLSPublicKey}
    (hclaim : claimOf ctx.keyHash tx=some claim)
    (hreg : claim.registration=some proTxHash)
    (h : pool.changesKeyTwice ctx proTxHash pubKeyOperator=true) :
    Refusal ctx pool tx := by
  unfold changesKeyTwice at h
  cases hdmn : ctx.mnList.getMN proTxHash with
  | none => exact .unknown hclaim hreg hdmn
  | some dmn =>
    rw [hdmn] at h
    obtain ⟨-,hchange⟩ := Bool.and_eq_true_iff.mp h
    obtain ⟨reference,hmem,hreference⟩ := List.any_eq_true.mp hchange
    obtain ⟨hhash,hfound⟩ := Bool.and_eq_true_iff.mp hreference
    obtain ⟨entry,hentry,hkey⟩ := (any_eq_true _ _).mp hfound
    obtain ⟨owner,howner⟩ := (htidy.refs.mem_iff reference).mp hmem
    obtain ⟨other,hother,href⟩ := bind_eq_some_iff.mp howner
    have hpair : reference=(proTxHash,reference.2) :=
      Prod.ext (of_decide_eq_true hhash) rfl
    rw [hpair] at href
    exact .keyChange hclaim hreg hother href hentry hkey

/-- A transaction is only refused for transactions that are in the pool. -/
theorem existsProviderTxConflict_eq_true (htidy : TidyView ctx.keyHash pool.view)
    (h : pool.existsProviderTxConflict ctx tx=true) : Refusal ctx pool tx := by
  unfold existsProviderTxConflict at h
  cases htype : tx.nType with
  | providerRegister =>
    simp only [htype] at h
    cases hpayload : tx.getProRegTx with
    | none => exact .payload (by simp [claimOf,htype,hpayload])
    | some proTx =>
      have hclaim : claimOf ctx.keyHash tx=
          some (registrationClaim ctx.keyHash tx.hash proTx) := by
        simp [claimOf,htype,hpayload]
      simp only [hpayload,Bool.or_eq_true,Bool.and_eq_true,contains_iff] at h
      rcases h with ((⟨hash,hfind⟩ | ⟨hash,hfind⟩) | ⟨hash,hfind⟩) | ⟨hhash,hrest⟩
      · obtain ⟨other,hother,hkey⟩ := claimed_of_find htidy.addresses hfind
        exact .claimed hclaim hother (.inl ⟨_,rfl,hkey⟩) (some_ne_none _).symm
      · obtain ⟨other,hother,hkey⟩ := claimed_of_find htidy.pubKeyIDs hfind
        exact .claimed hclaim hother (.inr (.inl ⟨_,rfl,hkey⟩)) (some_ne_none _).symm
      · obtain ⟨other,hother,hkey⟩ := claimed_of_find htidy.blsPubKeyHashes hfind
        exact .claimed hclaim hother (.inr (.inr (.inl ⟨_,rfl,hkey⟩))) (some_ne_none _).symm
      · have hcoll : (registrationClaim ctx.keyHash tx.hash proTx).collateral=
            some proTx.collateralOutpoint := if_pos (of_decide_eq_true hhash)
        rcases hrest with ⟨hash,hfind⟩ | ⟨spender,hfind⟩
        · obtain ⟨other,hother,hkey⟩ := claimed_of_find htidy.collaterals hfind
          exact .claimed hclaim hother (.inr (.inr (.inr ⟨_,hcoll,hkey⟩)))
            (some_ne_none _).symm
        · obtain ⟨info,hinfo,hspender,hinput⟩ := htidy.spends hfind
          exact .spent hclaim hcoll hinfo (hspender.symm ▸ hinput)
  | providerUpdateService =>
    simp only [htype] at h
    cases hpayload : tx.getProUpServTx with
    | none => exact .payload (by simp [claimOf,htype,hpayload])
    | some proTx =>
      have hclaim : claimOf ctx.keyHash tx=
          some (updateClaim tx.hash proTx.proTxHash (some proTx.addr) none) := by
        simp [claimOf,htype,hpayload]
      simp only [hpayload] at h
      obtain ⟨hash,hfind,hne⟩ := (any_eq_true _ _).mp h
      obtain ⟨other,hother,hkey⟩ := claimed_of_find htidy.addresses hfind
      have hown := of_decide_eq_true hne
      exact .claimed hclaim hother (.inl ⟨_,rfl,hkey⟩) (fun he => hown (some.inj he).symm)
  | providerUpdateRegistrar =>
    simp only [htype] at h
    cases hpayload : tx.getProUpRegTx with
    | none => exact .payload (by simp [claimOf,htype,hpayload])
    | some proTx =>
      have hclaim : claimOf ctx.keyHash tx=some (updateClaim tx.hash proTx.proTxHash none
          (some (ctx.keyHash proTx.pubKeyOperator))) := by
        simp [claimOf,htype,hpayload]
      simp only [hpayload,Bool.or_eq_true] at h
      rcases h with htwice | hfound
      · exact changesKeyTwice_eq_true htidy hclaim rfl htwice
      · obtain ⟨hash,hfind,hne⟩ := (any_eq_true _ _).mp hfound
        obtain ⟨other,hother,hkey⟩ := claimed_of_find htidy.blsPubKeyHashes hfind
        have hown := of_decide_eq_true hne
        exact .claimed hclaim hother (.inr (.inr (.inl ⟨_,rfl,hkey⟩)))
          (fun he => hown (some.inj he).symm)
  | providerUpdateRevoke =>
    simp only [htype] at h
    cases hpayload : tx.getProUpRevTx with
    | none => exact .payload (by simp [claimOf,htype,hpayload])
    | some proTx =>
      have hclaim : claimOf ctx.keyHash tx=
          some (updateClaim tx.hash proTx.proTxHash none none) := by
        simp [claimOf,htype,hpayload]
      simp only [hpayload] at h
      exact changesKeyTwice_eq_true htidy hclaim rfl h
  | _ =>
    simp only [htype] at h
    cases h

end Pyrk.TxMemPool
