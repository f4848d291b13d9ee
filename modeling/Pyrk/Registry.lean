import Pyrk.BuildNewList

/-!
# The registry behind the masternode list

The registry keeps of each masternode only the values that no two may share. Every step of a list
does to the registry what the step of the registry says.
-/

namespace Pyrk.Registry

open Transaction NetAddress DeterministicMNList Coins FinalCommitment OrderedMap
open ProviderTx BuildNewList

/-- Values of a masternode that must be its own. -/
structure MNProperties where
  collateral : COutPoint
  addr : CService
  owner : CKeyID
  operator : CBLSPublicKey
  deriving DecidableEq

open MNProperties

/-- Whether a property is set and one of the masternode's own. -/
def MNProperties.has (properties : MNProperties) (v : UniqueProperty) : Bool :=
  !v.isNull && decide (v∈[UniqueProperty.collateral properties.collateral,
    .service properties.addr,.owner properties.owner,.operator properties.operator])

/-- Properties of all masternodes by registration hash. -/
abbrev MNRegistry := OrderedMap Uint256 MNProperties

/-- Some masternode has the property. -/
def held (registry : MNRegistry) (v : UniqueProperty) : Bool :=
  registry.entries.any (fun entry => entry.2.has v)

/-- A masternode other than the given one has the property. -/
def heldByOther (registry : MNRegistry) (proTxHash : Uint256) (v : UniqueProperty) : Bool :=
  registry.entries.any (fun entry => entry.1≠proTxHash && entry.2.has v)

def propertiesOf (dmn : CDeterministicMN) : MNProperties where
  collateral := dmn.collateralOutpoint
  addr := dmn.pdmnState.addr
  owner := dmn.pdmnState.keyIDOwner
  operator := dmn.pdmnState.pubKeyOperator

def registryOf (list : CDeterministicMNList) : MNRegistry := list.mnMap.mapValues propertiesOf

/-- A registration replaces all others with its collateral and shares nothing with the rest. -/
def registerMN (view : ChainView) (registry : MNRegistry) (tx : CTransaction)
    (proTx : CProRegTx) : Checked MNRegistry := do
  rejectIf ((proTx.collateralOutpoint.hash≠0 &&
      (getUTXOCoin view.pcoinsTip (collateralOutpoint tx proTx)).isNone) ||
    !validateCollateral view proTx.collateralOutpoint) 100 .invalid "bad-protx-collateral"
  let registry := registry.filter (fun entry => entry.2.collateral≠collateralOutpoint tx proTx)
  rejectIf (held registry (.service proTx.addr)) 100 .conflict "bad-protx-dup-addr"
  rejectIf (held registry (.owner proTx.keyIDOwner) ||
    held registry (.operator proTx.pubKeyOperator))
    100 .conflict "bad-protx-dup-key"
  assertThat .addMN (!registry.contains tx.hash)
  .ok (registry.set tx.hash
    ⟨collateralOutpoint tx proTx,proTx.addr,proTx.keyIDOwner,proTx.pubKeyOperator⟩)

/-- A service update moves an address that no other masternode has. -/
def serveMN (registry : MNRegistry) (proTx : CProUpServTx) : Checked MNRegistry := do
  rejectIf (heldByOther registry proTx.proTxHash (.service proTx.addr))
    100 .conflict "bad-protx-dup-addr"
  let properties ← orReject (registry.find proTx.proTxHash) 100 "bad-protx-hash"
  .ok (registry.set proTx.proTxHash { properties with addr := proTx.addr })

/-- Properties after a registrar update; a new operator key gives up the address. -/
def rekeyed (properties : MNProperties) (key : CBLSPublicKey) : MNProperties :=
  if properties.operator≠key then { properties with addr := CService.null, operator := key }
  else properties

/-- A registrar update asserts that no other masternode has the operator key. -/
def rekeyMN (registry : MNRegistry) (proTx : CProUpRegTx) : Checked MNRegistry := do
  let properties ← orReject (registry.find proTx.proTxHash) 100 "bad-protx-hash"
  assertThat .addUniqueProperty
    (!heldByOther registry proTx.proTxHash (.operator proTx.pubKeyOperator))
  .ok (registry.set proTx.proTxHash (rekeyed properties proTx.pubKeyOperator))

/-- A revocation gives up address and operator key. -/
def revokeMN (registry : MNRegistry) (proTx : CProUpRevTx) : Checked MNRegistry := do
  let properties ← orReject (registry.find proTx.proTxHash) 100 "bad-protx-hash"
  .ok (registry.set proTx.proTxHash
    { properties with addr := CService.null, operator := CBLSWrapper.null })

/-- Continue with a payload that is there. -/
def withEntry {α : Type} (payload : Option α) (apply : α → Checked MNRegistry) :
    Checked MNRegistry :=
  match payload with
  | none => .error (.assertion .txPayload)
  | some value => apply value

/-- What a transaction of a block does to the registry. -/
def registryTx (view : ChainView) (registry : MNRegistry) (tx : CTransaction) :
    Checked MNRegistry :=
  if tx.nVersion≠3 then .ok registry
  else
    match tx.nType with
    | .providerRegister => withEntry tx.getProRegTx (registerMN view registry tx)
    | .providerUpdateService => withEntry tx.getProUpServTx (serveMN registry)
    | .providerUpdateRegistrar => withEntry tx.getProUpRegTx (rekeyMN registry)
    | .providerUpdateRevoke => withEntry tx.getProUpRevTx (revokeMN registry)
    | _ => .ok registry

/-- A property that the payload of an update names for a masternode. -/
def NamedBy (tx : CTransaction) (proTxHash : Uint256) (v : UniqueProperty) : Prop :=
  tx.nVersion=3 ∧ ((∃ proTx, tx.nType=.providerUpdateService ∧ tx.getProUpServTx=some proTx ∧
        proTx.proTxHash=proTxHash ∧ v=.service proTx.addr) ∨
      ∃ proTx, tx.nType=.providerUpdateRegistrar ∧ tx.getProUpRegTx=some proTx ∧
        proTx.proTxHash=proTxHash ∧ v=.operator proTx.pubKeyOperator)

/-- A change of one entry: collateral and owner stay, and what is new is named
by the transaction. -/
structure ChangedBy (tx : CTransaction) (proTxHash : Uint256)
    (properties changed : MNProperties) : Prop where
  collateral : changed.collateral=properties.collateral
  owner : changed.owner=properties.owner
  named : ∀ v, changed.has v=true → properties.has v=true ∨ NamedBy tx proTxHash v

variable {properties : MNProperties} {v : UniqueProperty}

theorem MNProperties.has_iff :
    properties.has v=true ↔ v.isNull=false ∧ (v=.collateral properties.collateral ∨
      v=.service properties.addr ∨ v=.owner properties.owner ∨
      v=.operator properties.operator) := by
  rw [has,Bool.and_eq_true,decide_eq_true_eq,Bool.not_eq_true']
  simp only [List.mem_cons,List.not_mem_nil,or_false]

variable {α : Type}

theorem withEntry_ok {payload : Option α} {apply : α → Checked MNRegistry}
    {next : MNRegistry} (h : withEntry payload apply=.ok next) :
    ∃ value, payload=some value ∧ apply value=.ok next := by
  cases payload with
  | none => cases h
  | some value => exact ⟨value,rfl,h⟩

variable {tx : CTransaction}

theorem registerMN_ok {view : ChainView} {registry next : MNRegistry}
    {proTx : CProRegTx} (h : registerMN view registry tx proTx=.ok next) :
    next=(registry.filter (fun entry => entry.2.collateral≠collateralOutpoint tx proTx)).set
      tx.hash ⟨collateralOutpoint tx proTx,proTx.addr,proTx.keyIDOwner,proTx.pubKeyOperator⟩ := by
  dsimp only [registerMN] at h
  simp only [bind_eq_ok] at h
  obtain ⟨_,-,_,-,_,-,_,-,h⟩ := h
  cases h
  rfl

theorem serveMN_ok {registry next : MNRegistry} {proTx : CProUpServTx}
    (h : serveMN registry proTx=.ok next) :
    ∃ properties, registry.find proTx.proTxHash=some properties ∧
      next=registry.set proTx.proTxHash { properties with addr := proTx.addr } := by
  simp only [serveMN,bind_eq_ok,orReject_eq_ok] at h
  obtain ⟨_,-,properties,hf,h⟩ := h
  cases h
  exact ⟨properties,hf,rfl⟩

theorem rekeyMN_ok {registry next : MNRegistry} {proTx : CProUpRegTx}
    (h : rekeyMN registry proTx=.ok next) :
    ∃ properties, registry.find proTx.proTxHash=some properties ∧
      next=registry.set proTx.proTxHash (rekeyed properties proTx.pubKeyOperator) := by
  simp only [rekeyMN,bind_eq_ok,orReject_eq_ok] at h
  obtain ⟨properties,hf,_,-,h⟩ := h
  cases h
  exact ⟨properties,hf,rfl⟩

theorem revokeMN_ok {registry next : MNRegistry} {proTx : CProUpRevTx}
    (h : revokeMN registry proTx=.ok next) :
    ∃ properties, registry.find proTx.proTxHash=some properties ∧
      next=registry.set proTx.proTxHash
        { properties with addr := CService.null, operator := CBLSWrapper.null } := by
  simp only [revokeMN,bind_eq_ok,orReject_eq_ok] at h
  obtain ⟨properties,hf,h⟩ := h
  cases h
  exact ⟨properties,hf,rfl⟩

theorem changedBy_of {proTxHash : Uint256} {addr : CService} {operator : CBLSPublicKey}
    (haddr : (UniqueProperty.service addr).isNull=true ∨ addr=properties.addr ∨
      NamedBy tx proTxHash (.service addr))
    (hop : (UniqueProperty.operator operator).isNull=true ∨
      operator=properties.operator ∨ NamedBy tx proTxHash (.operator operator)) :
    ChangedBy tx proTxHash properties { properties with addr := addr, operator := operator } := by
  refine ⟨rfl,rfl,fun v hv => ?_⟩
  rw [has_iff] at hv ⊢
  obtain ⟨hset,hv | rfl | hv | rfl⟩ := hv
  · exact .inl ⟨hset,.inl hv⟩
  · rcases haddr with hnull | rfl | hnamed
    · exact absurd hnull (Bool.eq_false_iff.mp hset)
    · exact .inl ⟨hset,.inr (.inl rfl)⟩
    · exact .inr hnamed
  · exact .inl ⟨hset,.inr (.inr (.inl hv))⟩
  · rcases hop with hnull | rfl | hnamed
    · exact absurd hnull (Bool.eq_false_iff.mp hset)
    · exact .inl ⟨hset,.inr (.inr (.inr rfl))⟩
    · exact .inr hnamed

theorem changedBy_rekeyed {proTxHash : Uint256}
    {key : CBLSPublicKey} (hnamed : NamedBy tx proTxHash (.operator key)) :
    ChangedBy tx proTxHash properties (rekeyed properties key) := by
  rw [rekeyed]
  split_ifs
  · exact changedBy_of (.inl rfl) (.inr (.inr hnamed))
  · exact changedBy_of (.inr (.inl rfl)) (.inr (.inl rfl))

/-- What a transaction can do to the registry: nothing, a registration in place
of those with its collateral, or a change of one entry. -/
theorem registryTx_cases {view : ChainView} {registry next : MNRegistry}
    (h : registryTx view registry tx=.ok next) :
    next=registry ∨
    (∃ proTx, tx.nVersion=3 ∧ tx.nType=.providerRegister ∧ tx.getProRegTx=some proTx ∧
      next=(registry.filter (fun entry =>
        entry.2.collateral≠collateralOutpoint tx proTx)).set tx.hash
          ⟨collateralOutpoint tx proTx,proTx.addr,proTx.keyIDOwner,proTx.pubKeyOperator⟩) ∨
    ∃ proTxHash properties changed, registry.find proTxHash=some properties ∧
      ChangedBy tx proTxHash properties changed ∧ next=registry.set proTxHash changed := by
  unfold registryTx at h
  by_cases hver : tx.nVersion≠3
  · rw [if_pos hver] at h
    cases h
    exact .inl rfl
  · rw [if_neg hver] at h
    have hthree := not_not.mp hver
    cases htype : tx.nType with
    | normal => rw [htype] at h; cases h; exact .inl rfl
    | coinbase => rw [htype] at h; cases h; exact .inl rfl
    | quorumCommitment => rw [htype] at h; cases h; exact .inl rfl
    | unknown nType => rw [htype] at h; cases h; exact .inl rfl
    | providerRegister =>
      rw [htype] at h
      obtain ⟨proTx,hpayload,h⟩ := withEntry_ok h
      exact .inr (.inl ⟨proTx,hthree,rfl,hpayload,registerMN_ok h⟩)
    | providerUpdateService =>
      rw [htype] at h
      obtain ⟨proTx,hpayload,h⟩ := withEntry_ok h
      obtain ⟨properties,hf,rfl⟩ := serveMN_ok h
      refine .inr (.inr ⟨_,properties,_,hf,changedBy_of ?_ (.inr (.inl rfl)),rfl⟩)
      exact .inr (.inr ⟨hthree,.inl ⟨proTx,htype,hpayload,rfl,rfl⟩⟩)
    | providerUpdateRegistrar =>
      rw [htype] at h
      obtain ⟨proTx,hpayload,h⟩ := withEntry_ok h
      obtain ⟨properties,hf,rfl⟩ := rekeyMN_ok h
      refine .inr (.inr ⟨_,properties,_,hf,changedBy_rekeyed ?_,rfl⟩)
      exact ⟨hthree,.inr ⟨proTx,htype,hpayload,rfl,rfl⟩⟩
    | providerUpdateRevoke =>
      rw [htype] at h
      obtain ⟨proTx,-,h⟩ := withEntry_ok h
      obtain ⟨properties,hf,rfl⟩ := revokeMN_ok h
      exact .inr (.inr ⟨_,properties,_,hf,changedBy_of (.inl rfl) (.inl rfl),rfl⟩)

/-- Exact lists whose masternodes all have a collateral and an owner. -/
structure GoodList (serializeHash : UniqueProperty → Uint256) (list : CDeterministicMNList) :
    Prop where
  exact : ExactList serializeHash list
  collateral : ∀ proTxHash dmn, list.mnMap.find proTxHash=some dmn →
    (UniqueProperty.collateral dmn.collateralOutpoint).isNull=false
  owner : ∀ proTxHash dmn, list.mnMap.find proTxHash=some dmn →
    (UniqueProperty.owner dmn.pdmnState.keyIDOwner).isNull=false

theorem find_registryOf (list : CDeterministicMNList) (proTxHash : Uint256) :
    (registryOf list).find proTxHash=(list.mnMap.find proTxHash).map propertiesOf :=
  find_mapValues _ _ _

theorem has_propertiesOf (dmn : CDeterministicMN) (v : UniqueProperty) :
    (propertiesOf dmn).has v=true ↔ v∈uniqueProperties dmn := by
  rw [has,Bool.and_eq_true,decide_eq_true_eq,uniqueProperties,List.mem_filter,and_comm]
  rfl

theorem held_iff {registry : MNRegistry} :
    held registry v=true ↔ ∃ proTxHash properties, registry.find proTxHash=some properties ∧
      properties.has v=true := by
  rw [held,List.any_eq_true]
  constructor
  · rintro ⟨⟨proTxHash,properties⟩,hm,hv⟩
    exact ⟨proTxHash,properties,(registry.mem_entries_iff _ _).mp hm,hv⟩
  · rintro ⟨proTxHash,properties,hf,hv⟩
    exact ⟨(proTxHash,properties),(registry.mem_entries_iff _ _).mpr hf,hv⟩

theorem heldByOther_iff {registry : MNRegistry} {proTxHash : Uint256} :
    heldByOther registry proTxHash v=true ↔ ∃ other properties, other≠proTxHash ∧
      registry.find other=some properties ∧ properties.has v=true := by
  rw [heldByOther,List.any_eq_true]
  simp only [Bool.and_eq_true,decide_eq_true_eq]
  constructor
  · rintro ⟨⟨other,properties⟩,hm,hne,hv⟩
    exact ⟨other,properties,hne,(registry.mem_entries_iff _ _).mp hm,hv⟩
  · rintro ⟨other,properties,hne,hf,hv⟩
    exact ⟨(other,properties),(registry.mem_entries_iff _ _).mpr hf,hne,hv⟩

section Lists

variable {serializeHash : UniqueProperty → Uint256} (hinj : Function.Injective serializeHash)
  {list next : CDeterministicMNList}

include hinj

theorem mem_holdings {proTxHash : Uint256} {v : UniqueProperty} :
    serializeHash v∈holdings serializeHash list.mnMap proTxHash ↔
      ∃ dmn, list.mnMap.find proTxHash=some dmn ∧ v∈uniqueProperties dmn := by
  cases hf : list.mnMap.find proTxHash with
  | none =>
    rw [holdings_of_none hf]
    simp only [Multiset.notMem_zero,reduceCtorEq,false_and,exists_false]
  | some dmn =>
    rw [holdings_of_find hf,← Multiset.count_pos,count_propertyHashes hinj,List.count_pos_iff]
    simp only [Option.some.injEq,exists_eq_left']

theorem hasUniqueProperty_eq_held (h : ExactList serializeHash list) (v : UniqueProperty) :
    list.hasUniqueProperty serializeHash v=held (registryOf list) v := by
  rw [Bool.eq_iff_iff,held_iff,CDeterministicMNList.hasUniqueProperty,contains_iff]
  constructor
  · rintro ⟨⟨proTxHash,count⟩,hf⟩
    obtain ⟨dmn,w,hdmn,hw,he,-⟩ := (h.find_iff hinj _ _ _).mp hf
    have hv : w=v := hinj he.symm
    subst hv
    refine ⟨proTxHash,propertiesOf dmn,?_,(has_propertiesOf dmn w).mpr hw⟩
    rw [find_registryOf,hdmn,Option.map_some]
  · rintro ⟨proTxHash,properties,hf,hv⟩
    rw [find_registryOf] at hf
    obtain ⟨dmn,hdmn,rfl⟩ := Option.map_eq_some_iff.mp hf
    exact ⟨_,(h.find_iff hinj _ proTxHash _).mpr
      ⟨dmn,v,hdmn,(has_propertiesOf dmn v).mp hv,rfl,rfl⟩⟩

theorem holder_unique (h : ExactList serializeHash list) {v : UniqueProperty}
    {first second : Uint256} {firstDmn secondDmn : CDeterministicMN}
    (hf : list.mnMap.find first=some firstDmn) (hs : list.mnMap.find second=some secondDmn)
    (hfv : v∈uniqueProperties firstDmn) (hsv : v∈uniqueProperties secondDmn) : first=second := by
  have h1 := (h.find_iff hinj (serializeHash v) first _).mpr ⟨firstDmn,v,hf,hfv,rfl,rfl⟩
  have h2 := (h.find_iff hinj (serializeHash v) second _).mpr ⟨secondDmn,v,hs,hsv,rfl,rfl⟩
  rw [h1,Option.some.injEq,Prod.mk.injEq] at h2
  exact h2.1

variable {dmn : CDeterministicMN}

theorem getMNByCollateral_iff (h : ExactList serializeHash list) {outpoint : COutPoint}
    : list.getMNByCollateral serializeHash outpoint=some dmn ↔
      list.mnMap.find dmn.proTxHash=some dmn ∧
        UniqueProperty.collateral outpoint∈uniqueProperties dmn :=
  h.getUniquePropertyMN_iff hinj _ _

theorem GoodList.addMN (h : GoodList serializeHash list) (hnew : list.mnMap.find dmn.proTxHash=none)
    (hcoll : (UniqueProperty.collateral dmn.collateralOutpoint).isNull=false)
    (howner : (UniqueProperty.owner dmn.pdmnState.keyIDOwner).isNull=false)
    (hfree : ∀ v, (propertiesOf dmn).has v=true → held (registryOf list) v=false) :
    ∃ next, list.addMN serializeHash dmn=.ok next ∧ GoodList serializeHash next ∧
      next.mnMap=list.mnMap.set dmn.proTxHash dmn := by
  have hall : ∀ other, ∀ hash∈propertyHashes serializeHash dmn,
      hash∉holdings serializeHash list.mnMap other := by
    intro other hash hhash hheld
    rw [uniqueProperties_hashes,Multiset.mem_coe,List.mem_map] at hhash
    obtain ⟨v,hv,rfl⟩ := hhash
    obtain ⟨holder,hholder,hhas⟩ := (mem_holdings hinj).mp hheld
    have hnone := hfree v ((has_propertiesOf dmn v).mpr hv)
    have hsome : held (registryOf list) v=true := held_iff.mpr ⟨other,propertiesOf holder,by
      rw [find_registryOf,hholder,Option.map_some],(has_propertiesOf holder v).mpr hhas⟩
    rw [hnone] at hsome
    cases hsome
  obtain ⟨next,hnext⟩ := CDeterministicMNList.addMN_ok h.exact hnew hcoll howner hall
  obtain ⟨-,-,-,⟨map,hres⟩,hexact⟩ := CDeterministicMNList.addMN_exact h.exact hnext
  have hmap : next.mnMap=list.mnMap.set dmn.proTxHash dmn := by rw [hres]
  refine ⟨next,hnext,⟨hexact,?_,?_⟩,hmap⟩
  · intro proTxHash other hf
    rw [hmap,find_set] at hf
    split_ifs at hf with he
    · cases hf
      exact hcoll
    · exact h.collateral proTxHash other hf
  · intro proTxHash other hf
    rw [hmap,find_set] at hf
    split_ifs at hf with he
    · cases hf
      exact howner
    · exact h.owner proTxHash other hf

omit hinj in
theorem GoodList.removeMN {proTxHash : Uint256}
    (h : GoodList serializeHash list) (hf : list.mnMap.find proTxHash=some dmn) :
    ∃ next, list.removeMN serializeHash proTxHash=.ok next ∧ GoodList serializeHash next ∧
      next.mnMap=list.mnMap.erase proTxHash := by
  obtain ⟨next,hnext⟩ := CDeterministicMNList.removeMN_ok h.exact hf
    (h.collateral proTxHash dmn hf) (h.owner proTxHash dmn hf)
  obtain ⟨-,⟨map,hres⟩,hexact⟩ := CDeterministicMNList.removeMN_exact h.exact hnext
  have hmap : next.mnMap=list.mnMap.erase proTxHash := by rw [hres]
  have hold : ∀ other found, next.mnMap.find other=some found →
      list.mnMap.find other=some found := by
    intro other found hfound
    rw [hmap,find_erase] at hfound
    split_ifs at hfound
    exact hfound
  exact ⟨next,hnext,⟨hexact,fun other found hfound => h.collateral other found (hold _ _ hfound),
    fun other found hfound => h.owner other found (hold _ _ hfound)⟩,hmap⟩

/-- Replacing the state of a masternode succeeds when nothing new is shared,
and the owner stays. -/
theorem GoodList.updateMN {proTxHash : Uint256} {dmn : CDeterministicMN}
    {pdmnState : CDeterministicMNState} (h : GoodList serializeHash list)
    (hf : list.mnMap.find proTxHash=some dmn)
    (howner : pdmnState.keyIDOwner=dmn.pdmnState.keyIDOwner)
    (hfree : ∀ v, (propertiesOf { dmn with pdmnState := pdmnState }).has v=true →
      (propertiesOf dmn).has v=false → heldByOther (registryOf list) proTxHash v=false) :
    ∃ next, list.updateMN serializeHash proTxHash pdmnState=.ok next ∧ GoodList serializeHash next ∧
      next.mnMap=list.mnMap.set proTxHash { dmn with pdmnState := pdmnState } := by
  have hall : ∀ v∈allProperties { dmn with pdmnState := pdmnState }, v∉allProperties dmn →
      ∀ other, other≠proTxHash → ∀ hash∈hashOf serializeHash v,
        hash∉holdings serializeHash list.mnMap other := by
    intro v hv hold other hne hash hhash hheld
    obtain ⟨hset,rfl⟩ := mem_hashOf.mp hhash
    obtain ⟨holder,hholder,hhas⟩ := (mem_holdings hinj).mp hheld
    have hnew : (propertiesOf { dmn with pdmnState := pdmnState }).has v=true := by
      rw [has_propertiesOf,uniqueProperties,List.mem_filter,hset]
      exact ⟨hv,rfl⟩
    have hnot : (propertiesOf dmn).has v=false := by
      rw [← Bool.not_eq_true,has_propertiesOf,uniqueProperties,List.mem_filter]
      exact fun hm => hold hm.1
    have hnone := hfree v hnew hnot
    have hsome : heldByOther (registryOf list) proTxHash v=true :=
      heldByOther_iff.mpr ⟨other,propertiesOf holder,hne,by
        rw [find_registryOf,hholder,Option.map_some],(has_propertiesOf holder v).mpr hhas⟩
    rw [hnone] at hsome
    cases hsome
  obtain ⟨next,hnext⟩ := CDeterministicMNList.updateMN_ok h.exact hf hall
  obtain ⟨found,hfound,⟨map,hres⟩,hexact⟩ := CDeterministicMNList.updateMN_exact h.exact hnext
  rw [hf] at hfound
  cases hfound
  have hmap : next.mnMap=list.mnMap.set proTxHash { dmn with pdmnState := pdmnState } := by
    rw [hres]
  refine ⟨next,hnext,⟨hexact,?_,?_⟩,hmap⟩
  · intro other found hfound
    rw [hmap,find_set] at hfound
    split_ifs at hfound with he
    · cases hfound
      exact h.collateral proTxHash dmn hf
    · exact h.collateral other found hfound
  · intro other found hfound
    rw [hmap,find_set] at hfound
    split_ifs at hfound with he
    · cases hfound
      rw [howner]
      exact h.owner proTxHash dmn hf
    · exact h.owner other found hfound

theorem GoodList.updateMN_same {proTxHash : Uint256}
    {pdmnState : CDeterministicMNState} (h : GoodList serializeHash list)
    (hf : list.mnMap.find proTxHash=some dmn)
    (hsame : propertiesOf { dmn with pdmnState := pdmnState }=propertiesOf dmn) :
    ∃ next, list.updateMN serializeHash proTxHash pdmnState=.ok next ∧ GoodList serializeHash next ∧
      next.mnMap=list.mnMap.set proTxHash { dmn with pdmnState := pdmnState } ∧
      registryOf next=registryOf list := by
  have howner : pdmnState.keyIDOwner=dmn.pdmnState.keyIDOwner := congrArg MNProperties.owner hsame
  obtain ⟨next,hnext,hgood,hmap⟩ := GoodList.updateMN hinj h hf howner (by
    intro v hv hnot
    rw [hsame,hnot] at hv
    cases hv)
  refine ⟨next,hnext,hgood,hmap,?_⟩
  rw [registryOf,hmap,mapValues_set,hsame]
  exact set_find (by rw [find_mapValues,hf,Option.map_some])

end Lists

/-- A step succeeds and leaves the registry as it is. -/
def Keeps (serializeHash : UniqueProperty → Uint256) (registry : MNRegistry)
    (result : Checked CDeterministicMNList) : Prop :=
  ∃ next, result=.ok next ∧ GoodList serializeHash next ∧ registryOf next=registry

theorem keeps_foldlM {serializeHash : UniqueProperty → Uint256} {α : Type}
    {step : CDeterministicMNList → α → Checked CDeterministicMNList} {registry : MNRegistry}
    {inputs : List α}
    (hstep : ∀ list, GoodList serializeHash list → registryOf list=registry → ∀ input∈inputs,
      Keeps serializeHash registry (step list input))
    {list : CDeterministicMNList} (hlist : GoodList serializeHash list)
    (hregistry : registryOf list=registry) :
    Keeps serializeHash registry (inputs.foldlM step list) := by
  induction inputs generalizing list with
  | nil => exact ⟨list,rfl,hlist,hregistry⟩
  | cons input inputs ih =>
    obtain ⟨middle,hmid,hgood,hsame⟩ := hstep list hlist hregistry input List.mem_cons_self
    rw [List.foldlM_cons,hmid]
    exact ih (fun other h1 h2 next hm => hstep other h1 h2 next (List.mem_cons_of_mem _ hm))
      hgood hsame

section Penalties

variable {ctx : NodeContext} (hinj : Function.Injective ctx.serializeHash)
  {list : CDeterministicMNList} {registry : MNRegistry}

include hinj

variable {dmn : CDeterministicMN}

theorem poSePunish_keeps (h : GoodList ctx.serializeHash list)
    (hregistry : registryOf list=registry) {proTxHash : Uint256}
    (hf : list.mnMap.find proTxHash=some dmn) {penalty : ℤ} (hpenalty : 0<penalty) :
    Keeps ctx.serializeHash registry (poSePunish ctx list proTxHash penalty) := by
  obtain ⟨next,hnext,hgood,-,hsame⟩ := h.updateMN_same hinj hf
    (show propertiesOf { dmn with pdmnState := punishedState list dmn.pdmnState penalty }=
      propertiesOf dmn from rfl)
  refine ⟨next,?_,hgood,hsame.trans hregistry⟩
  rw [poSePunish,assertThat,decide_eq_true hpenalty,CDeterministicMNList.getMN,hf]
  exact hnext

omit hinj in
theorem calcPenalty_pos (list : CDeterministicMNList) :
    ∃ penalty, calcPenalty list 66=.ok penalty ∧ 0<penalty := by
  refine ⟨calcMaxPoSePenalty list*66/100,rfl,?_⟩
  have hmax : 100 ≤ calcMaxPoSePenalty list := le_max_left _ _
  omega

section

variable (h : GoodList ctx.serializeHash list)

include h

theorem punishMember_keeps
    (hregistry : registryOf list=registry) {qc : CFinalCommitment} {member : CDeterministicMN×ℕ}
    (hindex : member.2<qc.validMembers.length) :
    Keeps ctx.serializeHash registry (punishMember ctx qc list member) := by
  unfold punishMember
  rw [List.getElem?_eq_getElem hindex]
  cases hf : list.mnMap.find member.1.proTxHash with
  | none =>
    rw [if_pos (by rw [CDeterministicMNList.hasMN,CDeterministicMNList.getMN,hf]; rfl)]
    exact ⟨list,rfl,h,hregistry⟩
  | some dmn =>
    rw [if_neg (by simp only [CDeterministicMNList.hasMN,CDeterministicMNList.getMN,hf,
      Option.isSome_some,Bool.not_true,Bool.false_eq_true,not_false_eq_true])]
    dsimp only
    split_ifs
    · exact ⟨list,rfl,h,hregistry⟩
    · obtain ⟨penalty,hpenalty,hpos⟩ := calcPenalty_pos list
      rw [hpenalty]
      exact poSePunish_keeps hinj h hregistry hf hpos

theorem handleQuorumCommitment_keeps
    (hregistry : registryOf list=registry) {lists : Uint256 → CDeterministicMNList}
    {qc : CFinalCommitment}
    (hmembers : (getAllQuorumMembers ctx lists qc.llmqType qc.quorumHash).length≤
      qc.validMembers.length) :
    Keeps ctx.serializeHash registry (handleQuorumCommitment ctx lists qc list) := by
  refine keeps_foldlM ?_ h hregistry
  intro middle hgood hsame member hm
  refine punishMember_keeps hinj hgood hsame ?_
  have hlt := List.snd_lt_of_mem_zipIdx hm
  omega

theorem confirmMN_keeps (hregistry : registryOf list=registry) {view : ChainView}
    (hold : registry.find dmn.proTxHash=some (propertiesOf dmn)) :
    Keeps ctx.serializeHash registry (confirmMN ctx view list dmn) := by
  unfold confirmMN
  split_ifs
  · exact ⟨list,rfl,h,hregistry⟩
  · dsimp only
    split_ifs
    · rw [← hregistry,find_registryOf] at hold
      obtain ⟨found,hf,hprops⟩ := Option.map_eq_some_iff.mp hold
      -- the stored state keeps the properties of the old masternode, which are the current ones
      have hsame : propertiesOf { found with
          pdmnState := (dmn.pdmnState.updateConfirmedHash ctx.sha256 dmn.proTxHash
            view.blockHash) }=propertiesOf found := by
        rw [hprops]
        simp only [propertiesOf,mk.injEq] at hprops ⊢
        exact ⟨hprops.1,rfl,rfl,rfl⟩
      obtain ⟨next,hnext,hgood,-,hkeep⟩ := h.updateMN_same hinj hf hsame
      exact ⟨next,hnext,hgood,hkeep.trans hregistry⟩
    · exact ⟨list,rfl,h,hregistry⟩

theorem poSeDecrease_ok {proTxHash : Uint256}
    (hf : list.mnMap.find proTxHash=some dmn)
    (hpenalty : 0<dmn.pdmnState.nPoSePenalty) (hban : dmn.pdmnState.nPoSeBanHeight=-1) :
    ∃ next, poSeDecrease ctx list proTxHash=.ok next ∧ GoodList ctx.serializeHash next ∧
      registryOf next=registryOf list ∧
      ∀ other, other≠proTxHash → next.mnMap.find other=list.mnMap.find other := by
  obtain ⟨next,hnext,hgood,hmap,hsame⟩ := h.updateMN_same hinj hf
    (show propertiesOf { dmn with pdmnState :=
      { dmn.pdmnState with nPoSePenalty := dmn.pdmnState.nPoSePenalty-1 } }=propertiesOf
        dmn from rfl)
  refine ⟨next,?_,hgood,hsame,fun other hne => ?_⟩
  · rw [poSeDecrease,CDeterministicMNList.getMN,hf]
    dsimp only
    rw [assertThat,decide_eq_true hpenalty,decide_eq_true hban]
    exact hnext
  · rw [hmap,find_set_of_ne _ _ hne]

theorem poSeDecrease_run
    (hregistry : registryOf list=registry) {hashes : List Uint256} (hnodup : hashes.Nodup)
    (hdue : ∀ proTxHash∈hashes, ∃ dmn, list.mnMap.find proTxHash=some dmn ∧
      0<dmn.pdmnState.nPoSePenalty ∧ dmn.pdmnState.nPoSeBanHeight=-1) :
    Keeps ctx.serializeHash registry (hashes.foldlM (poSeDecrease ctx) list) := by
  induction hashes generalizing list with
  | nil => exact ⟨list,rfl,h,hregistry⟩
  | cons proTxHash hashes ih =>
    obtain ⟨hnot,hrest⟩ := List.nodup_cons.mp hnodup
    obtain ⟨dmn,hf,hpenalty,hban⟩ := hdue proTxHash List.mem_cons_self
    obtain ⟨next,hnext,hgood,hsame,hothers⟩ := poSeDecrease_ok hinj h hf hpenalty hban
    rw [List.foldlM_cons,hnext]
    refine ih hgood (hsame.trans hregistry) hrest ?_
    grind

end

omit hinj in
theorem mem_forEachMN (h : ExactList ctx.serializeHash list) {onlyValid : Bool}
    (hm : dmn∈list.forEachMN onlyValid) :
    list.mnMap.find dmn.proTxHash=some dmn := h.keyed.find_of_mem hm

theorem decreasePoSePenalties_keeps (h : GoodList ctx.serializeHash list)
    (hregistry : registryOf list=registry) :
    Keeps ctx.serializeHash registry (decreasePoSePenalties ctx list) := by
  refine poSeDecrease_run hinj h hregistry ?_ ?_
  · exact (h.exact.keyed.nodup_forEachMN true).sublist (List.filter_sublist.map _)
  · intro proTxHash hm
    obtain ⟨dmn,hdmn,rfl⟩ := List.mem_map.mp hm
    obtain ⟨hvisited,hdue⟩ := List.mem_filter.mp hdmn
    rw [Bool.and_eq_true,decide_eq_true_eq,decide_eq_true_eq] at hdue
    exact ⟨dmn,mem_forEachMN h.exact hvisited,hdue⟩

theorem prepareNewList_keeps {view : ChainView} (h : GoodList ctx.serializeHash view.mnList) :
    Keeps ctx.serializeHash (registryOf view.mnList) (prepareNewList ctx view) := by
  have hstart : GoodList ctx.serializeHash
      { view.mnList with blockHash := 0, nHeight := view.nHeight+1 } :=
    ⟨⟨h.exact.keyed,h.exact.exact⟩,h.collateral,h.owner⟩
  obtain ⟨middle,hmid,hgood,hsame⟩ := @keeps_foldlM ctx.serializeHash _
    (confirmMN ctx view) (registryOf view.mnList) (view.mnList.forEachMN false) (by
      intro list hlist hregistry dmn hm
      refine confirmMN_keeps hinj hlist hregistry ?_
      rw [find_registryOf,mem_forEachMN h.exact hm,Option.map_some]) _ hstart rfl
  unfold prepareNewList
  dsimp only
  rw [hmid]
  exact decreasePoSePenalties_keeps hinj hgood hsame

end Penalties

/-- The step of a list and that of the registry succeed with matching results, reject for the same
reason, or fail an assertion. -/
inductive Refines (serializeHash : UniqueProperty → Uint256) :
    Checked CDeterministicMNList → Checked MNRegistry → Prop where
  | ok {list : CDeterministicMNList} {registry : MNRegistry} :
      GoodList serializeHash list → registryOf list=registry →
      Refines serializeHash (.ok list) (.ok registry)
  | rejected (verdict : Reject) :
      Refines serializeHash (.error (.rejected verdict)) (.error (.rejected verdict))
  | assertion (first second : AssertSite) :
      Refines serializeHash (.error (.assertion first)) (.error (.assertion second))

theorem Keeps.refines {serializeHash : UniqueProperty → Uint256} {registry : MNRegistry}
    {result : Checked CDeterministicMNList} (h : Keeps serializeHash registry result) :
    Refines serializeHash result (.ok registry) := by
  obtain ⟨next,rfl,hgood,hsame⟩ := h
  exact .ok hgood hsame

theorem refines_rejectIf {serializeHash : UniqueProperty → Uint256} {condition : Bool} {dos : ℕ}
    {code : RejectCode} {reason : String} {first : Checked CDeterministicMNList}
    {second : Checked MNRegistry} (h : condition=false → Refines serializeHash first second) :
    Refines serializeHash (rejectIf condition dos code reason>>=fun _ => first)
      (rejectIf condition dos code reason>>=fun _ => second) := by
  cases condition with
  | true => exact .rejected _
  | false => exact h rfl

theorem refines_orReject {serializeHash : UniqueProperty → Uint256}
    {found : Option CDeterministicMN}
    {dos : ℕ} {reason : String} {first : CDeterministicMN → Checked CDeterministicMNList}
    {second : MNProperties → Checked MNRegistry}
    (h : ∀ dmn, found=some dmn → Refines serializeHash (first dmn) (second (propertiesOf dmn))) :
    Refines serializeHash (orReject found dos reason>>=first)
      (orReject (found.map propertiesOf) dos reason>>=second) := by
  cases found with
  | none => exact .rejected _
  | some dmn => exact h dmn rfl

theorem refines_withPayload {serializeHash : UniqueProperty → Uint256}
    {payload : Option α} {first : α → Checked CDeterministicMNList}
    {second : α → Checked MNRegistry}
    (h : ∀ value, payload=some value → Refines serializeHash (first value) (second value)) :
    Refines serializeHash (withPayload payload first) (withEntry payload second) := by
  cases payload with
  | none => exact .assertion _ _
  | some value => exact h value rfl

theorem refines_foldlM {serializeHash : UniqueProperty → Uint256}
    {first : CDeterministicMNList → α → Checked CDeterministicMNList}
    {second : MNRegistry → α → Checked MNRegistry} {inputs : List α}
    (hstep : ∀ list, GoodList serializeHash list → ∀ input∈inputs,
      Refines serializeHash (first list input) (second (registryOf list) input))
    {list : CDeterministicMNList} (hlist : GoodList serializeHash list) :
    Refines serializeHash (inputs.foldlM first list) (inputs.foldlM second (registryOf list)) := by
  induction inputs generalizing list with
  | nil => exact .ok hlist rfl
  | cons input inputs ih =>
    have hhead := hstep list hlist input List.mem_cons_self
    rw [List.foldlM_cons,List.foldlM_cons]
    generalize first list input=left at hhead
    generalize second (registryOf list) input=right at hhead
    cases hhead with
    | rejected verdict => exact .rejected verdict
    | assertion left right => exact .assertion left right
    | ok hgood hsame =>
      subst hsame
      exact ih (fun other hother next hm =>
        hstep other hother next (List.mem_cons_of_mem _ hm)) hgood

/-- Code that stops only at assertions. -/
def OnlyAsserts {α : Type} (result : Checked α) : Prop :=
  ∀ abort, result=.error abort → ∃ site, abort=.assertion site

theorem onlyAsserts_ok (value : α) : OnlyAsserts (.ok value : Checked α) := by
  intro abort h
  cases h

theorem onlyAsserts_bind {α β : Type} {first : Checked α} {second : α → Checked β}
    (hfirst : OnlyAsserts first) (hsecond : ∀ value, OnlyAsserts (second value)) :
    OnlyAsserts (first>>=second) := by
  cases first with
  | ok value => exact hsecond value
  | error abort =>
    intro other h
    cases h
    exact hfirst abort rfl

section Assertions

variable (serializeHash : UniqueProperty → Uint256) (list : CDeterministicMNList)
  (proTxHash : Uint256)

theorem onlyAsserts_addUniqueProperty (v : UniqueProperty) :
    OnlyAsserts (list.addUniqueProperty serializeHash proTxHash v) := by
  unfold CDeterministicMNList.addUniqueProperty
  intro abort h
  split at h
  · cases h
    exact ⟨_,rfl⟩
  · split at h
    · cases h
      exact ⟨_,rfl⟩
    · cases h

theorem onlyAsserts_deleteUniqueProperty (v : UniqueProperty) :
    OnlyAsserts (list.deleteUniqueProperty serializeHash proTxHash v) := by
  unfold CDeterministicMNList.deleteUniqueProperty
  intro abort h
  split at h
  · cases h
    exact ⟨_,rfl⟩
  · split at h
    · cases h
      exact ⟨_,rfl⟩
    · cases h

theorem onlyAsserts_updateUniqueProperty (oldValue newValue : UniqueProperty) :
    OnlyAsserts (list.updateUniqueProperty serializeHash proTxHash oldValue newValue) := by
  unfold CDeterministicMNList.updateUniqueProperty
  split_ifs
  · exact onlyAsserts_ok _
  · refine onlyAsserts_bind ?_ (fun middle => ?_)
    · unfold CDeterministicMNList.deleteUniquePropertyIf
      split_ifs
      · exact onlyAsserts_deleteUniqueProperty _ _ _ _
      · exact onlyAsserts_ok _
    · unfold CDeterministicMNList.addUniquePropertyIf
      split_ifs
      · exact onlyAsserts_addUniqueProperty _ _ _ _
      · exact onlyAsserts_ok _

theorem onlyAsserts_updateMN (pdmnState : CDeterministicMNState) :
    OnlyAsserts (list.updateMN serializeHash proTxHash pdmnState) := by
  unfold CDeterministicMNList.updateMN
  split
  · intro abort h
    cases h
    exact ⟨_,rfl⟩
  · refine onlyAsserts_bind (onlyAsserts_updateUniqueProperty _ _ _ _ _) (fun first => ?_)
    refine onlyAsserts_bind (onlyAsserts_updateUniqueProperty _ _ _ _ _) (fun second => ?_)
    exact onlyAsserts_updateUniqueProperty _ _ _ _ _

end Assertions

theorem ok_bind {α β : Type} (value : α) (next : α → Checked β) :
    ((.ok value : Checked α)>>=next)=next value := rfl

theorem contains_registryOf (list : CDeterministicMNList) (proTxHash : Uint256) :
    (registryOf list).contains proTxHash=list.mnMap.contains proTxHash := by
  rw [OrderedMap.contains,OrderedMap.contains,find_registryOf,Option.isSome_map]

section Transactions

variable {ctx : NodeContext} (hinj : Function.Injective ctx.serializeHash)
  {list : CDeterministicMNList} {view : ChainView}

include hinj

theorem propertyHolder_eq (h : ExactList ctx.serializeHash list) (v : UniqueProperty)
    (proTxHash : Uint256) :
    propertyHolder ctx list v (fun dmn => dmn.proTxHash≠proTxHash)=
      .ok (heldByOther (registryOf list) proTxHash v) := by
  unfold propertyHolder
  cases hholder : list.getUniquePropertyMN ctx.serializeHash v with
  | none =>
    have hnone : held (registryOf list) v=false := by
      rw [← Bool.not_eq_true,held_iff]
      rintro ⟨other,properties,hf,hv⟩
      rw [find_registryOf] at hf
      obtain ⟨dmn,hdmn,rfl⟩ := Option.map_eq_some_iff.mp hf
      have hkey := h.keyed other dmn hdmn
      subst hkey
      have hsome := (h.getUniquePropertyMN_iff hinj v dmn).mpr ⟨hdmn,(has_propertiesOf dmn v).mp hv⟩
      rw [hholder] at hsome
      cases hsome
    have hother : heldByOther (registryOf list) proTxHash v=false := by
      rw [← Bool.not_eq_true] at hnone ⊢
      rw [held_iff] at hnone
      rw [heldByOther_iff]
      rintro ⟨other,properties,-,hf,hv⟩
      exact hnone ⟨other,properties,hf,hv⟩
    rw [hasUniqueProperty_eq_held hinj h,hnone,if_neg Bool.false_ne_true,hother]
  | some dmn =>
    obtain ⟨hdmn,hv⟩ := (h.getUniquePropertyMN_iff hinj v dmn).mp hholder
    have hheld : held (registryOf list) v=true := held_iff.mpr ⟨dmn.proTxHash,propertiesOf dmn,by
      rw [find_registryOf,hdmn,Option.map_some],(has_propertiesOf dmn v).mpr hv⟩
    rw [hasUniqueProperty_eq_held hinj h,hheld,if_pos rfl]
    dsimp only
    congr 1
    rw [Bool.eq_iff_iff,decide_eq_true_eq,heldByOther_iff]
    constructor
    · intro hne
      exact ⟨dmn.proTxHash,propertiesOf dmn,hne,by rw [find_registryOf,hdmn,Option.map_some],
        (has_propertiesOf dmn v).mpr hv⟩
    · rintro ⟨other,properties,hne,hf,hov⟩
      rw [find_registryOf] at hf
      obtain ⟨otherDmn,hother,rfl⟩ := Option.map_eq_some_iff.mp hf
      rwa [holder_unique hinj h hdmn hother hv ((has_propertiesOf otherDmn v).mp hov)]

section

variable (h : GoodList ctx.serializeHash list)

include h

theorem removeReplaced_ok (outpoint : COutPoint) :
    ∃ next, removeReplaced ctx list outpoint=.ok next ∧ GoodList ctx.serializeHash next ∧
      registryOf next=(registryOf list).filter (fun entry => entry.2.collateral≠outpoint) := by
  -- an entry with the collateral has it as a set property
  have hentry : ∀ other dmn, list.mnMap.find other=some dmn → dmn.collateralOutpoint=outpoint →
      UniqueProperty.collateral outpoint∈uniqueProperties dmn := by
    intro other dmn hf he
    subst he
    rw [uniqueProperties,List.mem_filter,h.collateral other dmn hf]
    exact ⟨List.mem_cons_self,rfl⟩
  unfold removeReplaced
  cases hholder : list.getMNByCollateral ctx.serializeHash outpoint with
  | none =>
    refine ⟨list,rfl,h,ext_find (fun other => ?_)⟩
    rw [find_filter,find_registryOf]
    cases hf : list.mnMap.find other with
    | none => rfl
    | some dmn =>
      have hne : dmn.collateralOutpoint≠outpoint := by
        intro he
        have hkey := h.exact.keyed other dmn hf
        subst hkey
        have hsome := (getMNByCollateral_iff hinj h.exact).mpr ⟨hf,hentry _ dmn hf he⟩
        rw [hholder] at hsome
        cases hsome
      rw [Option.map_some,Option.filter_some]
      exact (if_pos (decide_eq_true hne)).symm
  | some dmn =>
    obtain ⟨hdmn,hv⟩ := (getMNByCollateral_iff hinj h.exact).mp hholder
    have hcoll : dmn.collateralOutpoint=outpoint := by
      rw [uniqueProperties,List.mem_filter,allProperties] at hv
      simp only [List.mem_cons,UniqueProperty.collateral.injEq,reduceCtorEq,List.not_mem_nil,
        or_false] at hv
      exact hv.1.symm
    obtain ⟨next,hnext,hgood,hmap⟩ := h.removeMN hdmn
    refine ⟨next,hnext,hgood,ext_find (fun other => ?_)⟩
    rw [registryOf,hmap,mapValues_erase,find_erase,find_filter]
    change (if other=dmn.proTxHash then none else (registryOf list).find other)=
      ((registryOf list).find other).filter _
    rw [find_registryOf]
    by_cases he : other=dmn.proTxHash
    · subst he
      rw [if_pos rfl,hdmn,Option.map_some,Option.filter_some,if_neg]
      simp only [propertiesOf,hcoll,ne_eq,not_true_eq_false,decide_false,Bool.false_eq_true,
        not_false_eq_true]
    · rw [if_neg he]
      cases hf : list.mnMap.find other with
      | none => rfl
      | some found =>
        have hne : found.collateralOutpoint≠outpoint := by
          intro hsame
          exact he (holder_unique hinj h.exact hf hdmn (hentry other found hf hsame) hv)
        rw [Option.map_some,Option.filter_some]
        exact (if_pos (decide_eq_true hne)).symm

theorem applyProRegTx_refines {tx : CTransaction}
    {proTx : CProRegTx} (howner : proTx.keyIDOwner≠0)
    (hcoll : (UniqueProperty.collateral (collateralOutpoint tx proTx)).isNull=false) :
    Refines ctx.serializeHash (applyProRegTx ctx view list tx proTx)
      (registerMN view (registryOf list) tx proTx) := by
  refine refines_rejectIf (fun _ => ?_)
  obtain ⟨next,hnext,hgood,hregistry⟩ := removeReplaced_ok hinj h (collateralOutpoint tx proTx)
  rw [hnext,ok_bind,← hregistry]
  simp only [hasUniqueProperty_eq_held hinj hgood.exact]
  refine refines_rejectIf (fun haddr => refines_rejectIf (fun hkeys => ?_))
  rw [Bool.or_eq_false_iff] at hkeys
  cases hknown : next.mnMap.contains tx.hash with
  | true =>
    have hcode : next.addMN ctx.serializeHash (registeredMN (view.nHeight+1) tx proTx)=
        .error (.assertion .addMN) := by
      have hhash : (registeredMN (view.nHeight+1) tx proTx).proTxHash=tx.hash := rfl
      rw [CDeterministicMNList.addMN,hhash,hknown]
      rfl
    rw [hcode,contains_registryOf,hknown]
    exact .assertion _ _
  | false =>
    rw [contains_registryOf,hknown]
    have hfree : ∀ v, (propertiesOf (registeredMN (view.nHeight+1) tx proTx)).has v=true →
        held (registryOf next) v=false := by
      intro v hv
      rw [has,Bool.and_eq_true,decide_eq_true_eq] at hv
      obtain ⟨-,hv⟩ := hv
      simp only [propertiesOf,registeredMN,CDeterministicMNState.ofProRegTx,List.mem_cons,
        List.not_mem_nil,or_false] at hv
      rcases hv with rfl | rfl | rfl | rfl
      · rw [← Bool.not_eq_true,held_iff]
        rintro ⟨other,properties,hf,hhas⟩
        rw [hregistry,find_filter,Option.filter_eq_some_iff] at hf
        rw [has,Bool.and_eq_true,decide_eq_true_eq] at hhas
        simp only [List.mem_cons,UniqueProperty.collateral.injEq,reduceCtorEq,List.not_mem_nil,
          or_false] at hhas
        exact absurd hhas.2.symm (of_decide_eq_true hf.2)
      · exact haddr
      · exact hkeys.1
      · exact hkeys.2
    obtain ⟨final,hfinal,hfgood,hmap⟩ := hgood.addMN hinj
      ((contains_eq_false _ _).mp hknown) hcoll (decide_eq_false howner) hfree
    rw [hfinal]
    refine .ok hfgood ?_
    rw [registryOf,hmap,mapValues_set]
    rfl

theorem refines_updateMN {proTxHash : Uint256}
    {dmn : CDeterministicMN} {pdmnState : CDeterministicMNState} {addr : CService}
    {operator : CBLSPublicKey} (hdmn : list.mnMap.find proTxHash=some dmn)
    (hprops : propertiesOf { dmn with pdmnState := pdmnState }=
      { propertiesOf dmn with addr := addr, operator := operator })
    (hfree : ∀ v∈[UniqueProperty.service addr,.operator operator], v.isNull=false →
      (propertiesOf dmn).has v=false → heldByOther (registryOf list) proTxHash v=false) :
    Refines ctx.serializeHash (list.updateMN ctx.serializeHash proTxHash pdmnState)
      (.ok ((registryOf list).set proTxHash
        { propertiesOf dmn with addr := addr, operator := operator })) := by
  obtain ⟨next,hnext,hgood,hmap⟩ := h.updateMN hinj hdmn (congrArg MNProperties.owner hprops) (by
    intro v hv hnot
    have hold := hnot
    rw [hprops] at hv
    simp only [has,Bool.and_eq_true,decide_eq_true_eq,Bool.and_eq_false_iff,decide_eq_false_iff_not,
      List.mem_cons,List.not_mem_nil,or_false,not_or,Bool.not_eq_true'] at hv hnot
    obtain ⟨hset,rfl | rfl | rfl | rfl⟩ := hv
    · simp [hset] at hnot
    · exact hfree _ List.mem_cons_self hset hold
    · simp [hset] at hnot
    · exact hfree _ (List.mem_cons_of_mem _ List.mem_cons_self) hset hold)
  rw [hnext]
  refine .ok hgood ?_
  rw [registryOf,hmap,mapValues_set,hprops]
  rfl

theorem applyProUpServTx_refines (proTx : CProUpServTx) :
    Refines ctx.serializeHash (applyProUpServTx ctx view list proTx)
      (serveMN (registryOf list) proTx) := by
  unfold applyProUpServTx serveMN
  rw [propertyHolder_eq hinj h.exact,ok_bind]
  refine refines_rejectIf (fun haddr => ?_)
  rw [find_registryOf]
  refine refines_orReject (fun dmn hdmn => ?_)
  have hprops : propertiesOf { dmn with
      pdmnState := (servedState (view.nHeight+1) proTx dmn.pdmnState) }=
      { propertiesOf dmn with addr := proTx.addr } := by
    unfold servedState
    split_ifs <;> rfl
  refine refines_updateMN hinj h hdmn hprops (fun v hv hset hnot => ?_)
  obtain rfl | rfl := List.mem_pair.mp hv
  · exact haddr
  · rw [has,hset] at hnot
    simp at hnot

end

omit hinj in
theorem propertiesOf_registrarState (dmn : CDeterministicMN) (proTx : CProUpRegTx) (nHeight : ℤ) :
    propertiesOf { dmn with pdmnState := (registrarState nHeight proTx dmn.pdmnState) }=
      rekeyed (propertiesOf dmn) proTx.pubKeyOperator := by
  by_cases hkey : dmn.pdmnState.pubKeyOperator=proTx.pubKeyOperator
  · simp only [registrarState,rekeyed,propertiesOf,hkey,ne_eq,not_true_eq_false,if_false]
  · simp only [registrarState,rekeyed,propertiesOf,hkey,ne_eq,not_false_eq_true,if_true,
      CDeterministicMNState.banIfNotBanned]
    split_ifs <;> rfl

section

variable (h : GoodList ctx.serializeHash list)

include h

/-- A registrar update fails its assertion when another masternode has the key. -/
theorem updateMN_conflict {proTx : CProUpRegTx}
    {dmn : CDeterministicMN} (hdmn : list.mnMap.find proTx.proTxHash=some dmn)
    (hheld : heldByOther (registryOf list) proTx.proTxHash (.operator proTx.pubKeyOperator)=true) :
    ∃ site, list.updateMN ctx.serializeHash proTx.proTxHash
      (registrarState (view.nHeight+1) proTx dmn.pdmnState)=.error (.assertion site) := by
  obtain ⟨other,properties,hne,hf,hhas⟩ := heldByOther_iff.mp hheld
  rw [find_registryOf] at hf
  obtain ⟨otherDmn,hother,rfl⟩ := Option.map_eq_some_iff.mp hf
  cases hupdate : list.updateMN ctx.serializeHash proTx.proTxHash
      (registrarState (view.nHeight+1) proTx dmn.pdmnState) with
  | error abort =>
    obtain ⟨site,rfl⟩ := onlyAsserts_updateMN _ _ _ _ _ hupdate
    exact ⟨site,rfl⟩
  | ok next =>
    -- both would hold the key in an exact list
    exfalso
    obtain ⟨found,hfound,⟨map,hres⟩,hexact⟩ :=
      CDeterministicMNList.updateMN_exact h.exact hupdate
    rw [hdmn] at hfound
    cases hfound
    have hstay : next.mnMap.find other=some otherDmn := by
      rw [hres,find_set_of_ne _ _ hne,hother]
    have hself : next.mnMap.find proTx.proTxHash=some { dmn with
        pdmnState := (registrarState (view.nHeight+1) proTx dmn.pdmnState) } := by
      rw [hres,find_set_self]
    have hkey : (UniqueProperty.operator proTx.pubKeyOperator)∈uniqueProperties { dmn with
        pdmnState := (registrarState (view.nHeight+1) proTx dmn.pdmnState) } := by
      rw [has,Bool.and_eq_true] at hhas
      rw [uniqueProperties,List.mem_filter]
      refine ⟨?_,hhas.1⟩
      simp only [allProperties,registrarState,List.mem_cons,true_or,or_true]
    exact hne (holder_unique hinj hexact hstay hself ((has_propertiesOf _ _).mp hhas) hkey)

theorem applyProUpRegTx_refines (proTx : CProUpRegTx) :
    Refines ctx.serializeHash (applyProUpRegTx ctx view list proTx)
      (rekeyMN (registryOf list) proTx) := by
  unfold applyProUpRegTx rekeyMN
  rw [find_registryOf]
  refine refines_orReject (fun dmn hdmn => ?_)
  have hprops := propertiesOf_registrarState dmn proTx (view.nHeight+1)
  cases hheld : heldByOther (registryOf list) proTx.proTxHash (.operator proTx.pubKeyOperator) with
  | true =>
    obtain ⟨site,hsite⟩ := updateMN_conflict hinj h hdmn hheld
    rw [hsite]
    exact .assertion _ _
  | false =>
    have hrekeyed : rekeyed (propertiesOf dmn) proTx.pubKeyOperator={ propertiesOf dmn with
        addr := if dmn.pdmnState.pubKeyOperator=proTx.pubKeyOperator then dmn.pdmnState.addr
          else CService.null
        operator := proTx.pubKeyOperator } := by
      rw [rekeyed]
      grind [propertiesOf]
    rw [hrekeyed] at hprops ⊢
    refine refines_updateMN hinj h hdmn hprops (fun v hv hset hnot => ?_)
    obtain rfl | rfl := List.mem_pair.mp hv
    · split_ifs at hset hnot with hkey
      · rw [has,hset] at hnot
        simp [propertiesOf] at hnot
      · cases hset
    · exact hheld

theorem applyProUpRevTx_refines (proTx : CProUpRevTx) :
    Refines ctx.serializeHash (applyProUpRevTx ctx view list proTx)
      (revokeMN (registryOf list) proTx) := by
  unfold applyProUpRevTx revokeMN
  rw [find_registryOf]
  refine refines_orReject (fun dmn hdmn => ?_)
  have hprops : propertiesOf { dmn with
      pdmnState := (revokedState (view.nHeight+1) proTx dmn.pdmnState) }=
      { propertiesOf dmn with addr := CService.null, operator := CBLSWrapper.null } := by
    simp only [revokedState,CDeterministicMNState.banIfNotBanned]
    split_ifs <;> rfl
  refine refines_updateMN hinj h hdmn hprops (fun v hv hset _ => ?_)
  obtain rfl | rfl := List.mem_pair.mp hv <;> cases hset

theorem applyTx_refines {tx : CTransaction}
    (hcheck : checkSpecialTx ctx view tx=.ok ()) (hhash : tx.hash≠0) :
    Refines ctx.serializeHash (applyTx ctx view list tx)
      (registryTx view (registryOf list) tx) := by
  unfold applyTx registryTx
  by_cases hver : tx.nVersion≠3
  · rw [if_pos hver,if_pos hver]
    exact .ok h rfl
  · rw [if_neg hver,if_neg hver]
    unfold checkSpecialTx at hcheck
    cases htype : tx.nType with
    | normal => exact .ok h rfl
    | coinbase => exact .ok h rfl
    | unknown nType => exact .ok h rfl
    | providerUpdateService =>
      exact refines_withPayload (fun proTx _ => applyProUpServTx_refines hinj h proTx)
    | providerUpdateRegistrar =>
      exact refines_withPayload (fun proTx _ => applyProUpRegTx_refines hinj h proTx)
    | providerUpdateRevoke =>
      exact refines_withPayload (fun proTx _ => applyProUpRevTx_refines hinj h proTx)
    | providerRegister =>
      rw [htype,if_neg (by simp only [hver,reduceCtorEq,or_self,not_false_eq_true])] at hcheck
      split_ifs at hcheck
      · cases hcheck
      · obtain ⟨ptx,hptx,howner,hcoll⟩ := checkProRegTx_ok hcheck
        rw [hptx]
        refine applyProRegTx_refines hinj h howner (decide_eq_false ?_)
        intro hnull
        have hzero := congrArg COutPoint.hash hnull
        unfold collateralOutpoint at hzero
        split_ifs at hzero with hinternal
        · exact hhash hzero
        · exact hinternal hzero
    | quorumCommitment =>
      rw [htype,if_neg (by simp only [hver,reduceCtorEq,or_self,not_false_eq_true])] at hcheck
      split_ifs at hcheck
      · cases hcheck
      · obtain ⟨payload,hpayload,hmembers⟩ := checkLLMQCommitment_members hcheck
        rw [hpayload]
        dsimp only [withPayload]
        unfold applyCommitment
        cases hnull : isNull payload.commitment with
        | true =>
          rw [if_pos rfl]
          exact .ok h rfl
        | false =>
          rw [if_neg Bool.false_ne_true]
          exact (handleQuorumCommitment_keeps hinj h rfl (hmembers hnull)).refines

end

theorem removeSpentCollateral_eq (h : ExactList ctx.serializeHash list) (input : CTxIn) :
    removeSpentCollateral ctx list input=removeReplaced ctx list input.prevout := by
  unfold removeSpentCollateral removeReplaced
  cases hholder : list.getMNByCollateral ctx.serializeHash input.prevout with
  | none => rfl
  | some dmn =>
    obtain ⟨-,hv⟩ := (getMNByCollateral_iff hinj h).mp hholder
    rw [uniqueProperties,List.mem_filter,allProperties] at hv
    simp only [List.mem_cons,UniqueProperty.collateral.injEq,reduceCtorEq,List.not_mem_nil,
      or_false] at hv
    exact if_pos hv.1.symm

theorem removeSpentCollateral_run (h : GoodList ctx.serializeHash list) (inputs : List CTxIn) :
    ∃ next, inputs.foldlM (removeSpentCollateral ctx) list=.ok next ∧
      GoodList ctx.serializeHash next ∧ registryOf next=
        (registryOf list).filter (fun entry => entry.2.collateral∉inputs.map CTxIn.prevout) := by
  induction inputs generalizing list with
  | nil =>
    refine ⟨list,rfl,h,ext_find (fun key => ?_)⟩
    rw [find_filter]
    cases (registryOf list).find key <;> rfl
  | cons input inputs ih =>
    obtain ⟨middle,hmid,hgood,hregistry⟩ := removeReplaced_ok hinj h input.prevout
    obtain ⟨next,hnext,hfinal,hfiltered⟩ := ih hgood
    rw [List.foldlM_cons,removeSpentCollateral_eq hinj h.exact,hmid]
    refine ⟨next,hnext,hfinal,ext_find (fun key => ?_)⟩
    rw [hfiltered,hregistry,find_filter,find_filter,find_filter,Option.filter_filter]
    grind

theorem payMN_keeps (h : GoodList ctx.serializeHash list) (nHeight : ℤ)
    (payee : Option CDeterministicMN) :
    Keeps ctx.serializeHash (registryOf list) (payMN ctx nHeight payee list) := by
  unfold payMN
  cases payee with
  | none => exact ⟨list,rfl,h,rfl⟩
  | some payee =>
    cases hf : list.mnMap.find payee.proTxHash with
    | none =>
      dsimp only [CDeterministicMNList.getMN]
      rw [hf]
      exact ⟨list,rfl,h,rfl⟩
    | some dmn =>
      dsimp only [CDeterministicMNList.getMN]
      rw [hf]
      obtain ⟨next,hnext,hgood,-,hsame⟩ := h.updateMN_same hinj hf
        (show propertiesOf { dmn with
          pdmnState := { dmn.pdmnState with nLastPaidHeight := nHeight } }=propertiesOf
            dmn from rfl)
      exact ⟨next,hnext,hgood,hsame⟩

end Transactions

/-- Outpoints that the transactions of a block spend, the coinbase aside. -/
def spentOutpoints (block : CBlock) : List COutPoint :=
  ((listTxs block).flatMap CTransaction.vin).map CTxIn.prevout

/-- Registry of a block: its transactions one after another, and at last
without the masternodes whose collateral the block spends. -/
def registryBlock (view : ChainView) (registry : MNRegistry) (block : CBlock) :
    Checked MNRegistry := do
  let registry ← (listTxs block).foldlM (registryTx view) registry
  .ok (registry.filter (fun entry => entry.2.collateral∉spentOutpoints block))

theorem buildNewListFromBlock_refines {ctx : NodeContext}
    (hinj : Function.Injective ctx.serializeHash) {view : ChainView} {block : CBlock}
    (hlist : GoodList ctx.serializeHash view.mnList)
    (hchecks : ∀ tx∈listTxs block, checkSpecialTx ctx view tx=.ok ())
    (hhashes : ∀ tx∈listTxs block, tx.hash≠0) :
    Refines ctx.serializeHash (buildNewListFromBlock ctx view block)
      (registryBlock view (registryOf view.mnList) block) := by
  obtain ⟨start,hstart,hgood,hregistry⟩ := prepareNewList_keeps hinj hlist
  have htxs := refines_foldlM (fun list h tx hm =>
    applyTx_refines hinj h (hchecks tx hm) (hhashes tx hm)) hgood
  unfold buildNewListFromBlock registryBlock
  rw [hstart,ok_bind,← hregistry]
  generalize (listTxs block).foldlM (applyTx ctx view) start=left at htxs
  generalize (listTxs block).foldlM (registryTx view) (registryOf start)=right at htxs
  cases htxs with
  | rejected verdict => exact .rejected verdict
  | assertion first second => exact .assertion first second
  | @ok middle registry hmid hsame =>
    obtain ⟨removed,hremoved,hrgood,hfiltered⟩ := removeSpentCollateral_run hinj hmid
      ((listTxs block).flatMap CTransaction.vin)
    rw [ok_bind,ok_bind,hremoved,ok_bind]
    have hpay := payMN_keeps hinj hrgood (view.nHeight+1) (getMNPayee view.mnList)
    rw [hfiltered,hsame] at hpay
    exact hpay.refines

/-- Lists that building from checked blocks reaches, with the chain they
belong to. -/
inductive BuiltList (serializeHash : UniqueProperty → Uint256) :
    List CBlock → CDeterministicMNList → Prop where
  | empty (chain : List CBlock) (blockHash : Uint256) (nHeight : ℤ) :
      BuiltList serializeHash chain { blockHash := blockHash, nHeight := nHeight }
  /-- The list of a checked block, with its block set. -/
  | build {ctx : NodeContext} {view : ChainView} {block : CBlock}
      {next : CDeterministicMNList} (hcontext : ctx.serializeHash=serializeHash)
      (hchecks : ∀ tx∈block.vtx, checkSpecialTx ctx view tx=.ok ())
      (hhashes : ∀ tx∈listTxs block, tx.hash≠0) (blockHash : Uint256) (nHeight : ℤ) :
      BuiltList serializeHash view.chain view.mnList →
      buildNewListFromBlock ctx view block=.ok next →
      BuiltList serializeHash (view.chain++[block])
        { next with blockHash := blockHash, nHeight := nHeight }

end Pyrk.Registry
