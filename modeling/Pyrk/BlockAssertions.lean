import Pyrk.Registry

/-!
# Assertions while a list is built

Checked transactions are applied to a list that the earlier ones of the block have already changed.
The registry shows which assertions that leaves.
-/

namespace Pyrk.BlockAssertions

open Transaction NetAddress Script DeterministicMNList Coins ProviderTx BuildNewList OrderedMap
open Registry MinableCommitments

/-- The code returns or rejects. -/
def NoAssertion {α : Type} (result : Checked α) : Prop :=
  ∀ site, result≠.error (.assertion site)

/-- At each registrar update no other masternode of the registry has its operator key. -/
def OperatorKeysFree (view : ChainView) (block : CBlock) : Prop :=
  ∀ before tx after registry proTx, listTxs block=before++tx::after →
    before.foldlM (registryTx view) (registryOf view.mnList)=.ok registry →
    tx.nType=.providerUpdateRegistrar → tx.getProUpRegTx=some proTx →
    registry.contains proTx.proTxHash=true →
    heldByOther registry proTx.proTxHash (.operator proTx.pubKeyOperator)=false

variable {serializeHash : UniqueProperty → Uint256}

theorem refines_noAssertion_iff {first : Checked CDeterministicMNList} {second : Checked MNRegistry}
    (h : Refines serializeHash first second) : NoAssertion first ↔ NoAssertion second := by
  cases h with
  | ok _ _ =>
    constructor
    · exact fun _ site h => by cases h
    · exact fun _ site h => by cases h
  | rejected verdict =>
    constructor
    · exact fun _ site h => by cases h
    · exact fun _ site h => by cases h
  | assertion left right =>
    constructor
    · exact fun h => absurd rfl (h left)
    · exact fun h => absurd rfl (h right)

/-- A run fails an assertion where one of its steps does. -/
theorem foldlM_noAssertion_iff {α β : Type} {step : β → α → Checked β} {inputs : List α}
    {st : β} : NoAssertion (inputs.foldlM step st) ↔
      ∀ before input after middle, inputs=before++input::after →
        before.foldlM step st=.ok middle → NoAssertion (step middle input) := by
  induction inputs generalizing st with
  | nil =>
    constructor
    · intro _ before input after middle hsplit
      exact absurd hsplit.symm (List.append_ne_nil_of_right_ne_nil _ (List.cons_ne_nil _ _))
    · exact fun _ site h => by cases h
  | cons head tail ih =>
    rw [List.foldlM_cons]
    cases hhead : step st head with
    | error abort =>
      constructor
      · intro hnone before input after middle hsplit hbefore
        cases before with
        | nil =>
          cases hsplit
          cases hbefore
          rw [hhead]
          intro site he
          cases he
          exact hnone site rfl
        | cons first before =>
          cases hsplit
          rw [List.foldlM_cons,hhead] at hbefore
          cases hbefore
      · intro hall site he
        have hfirst := hall [] head tail st rfl rfl
        rw [hhead] at hfirst
        cases he
        exact hfirst site rfl
    | ok next =>
      rw [ok_bind,ih]
      constructor
      · intro hall before input after middle hsplit hbefore
        cases before with
        | nil =>
          cases hsplit
          cases hbefore
          rw [hhead]
          exact fun site he => by cases he
        | cons first before =>
          cases hsplit
          rw [List.foldlM_cons,hhead,ok_bind] at hbefore
          exact hall before input after middle rfl hbefore
      · intro hall before input after middle hsplit hbefore
        refine hall (head::before) input after middle (by rw [hsplit]; rfl) ?_
        rw [List.foldlM_cons,hhead,ok_bind,hbefore]

variable {view : ChainView} {tx : CTransaction}

theorem registryTx_keys {registry next : MNRegistry}
    (h : registryTx view registry tx=.ok next) {proTxHash : Uint256}
    (hkey : next.contains proTxHash=true) :
    registry.contains proTxHash=true ∨ proTxHash=tx.hash := by
  rw [contains_iff] at hkey ⊢
  obtain ⟨properties,hf⟩ := hkey
  rcases registryTx_cases h with rfl | ⟨proTx,-,-,-,rfl⟩ | ⟨key,old,new,hold,-,rfl⟩
  · exact .inl ⟨properties,hf⟩
  · rw [find_set] at hf
    split_ifs at hf with he
    · exact .inr he
    · rw [find_filter,Option.filter_eq_some_iff] at hf
      exact .inl ⟨properties,hf.1⟩
  · rw [find_set] at hf
    grind

theorem registryTxs_keys {txs : List CTransaction} {registry next : MNRegistry}
    (h : txs.foldlM (registryTx view) registry=.ok next) {proTxHash : Uint256}
    (hkey : next.contains proTxHash=true) :
    registry.contains proTxHash=true ∨ proTxHash∈txs.map CTransaction.hash := by
  refine @foldlM_invariant _ _ _ _ (fun reached => reached.contains proTxHash=true →
    registry.contains proTxHash=true ∨ proTxHash∈txs.map CTransaction.hash) txs ?_ registry next
    .inl h hkey
  intro st after tx hm hbefore hafter hhas
  rcases registryTx_keys hafter hhas with hold | rfl
  · exact hbefore hold
  · exact .inr (List.mem_map_of_mem hm)

/-- Hashes of the transactions of a chain that can register masternodes. -/
def listTxHashes (chain : List CBlock) : List Uint256 :=
  chain.flatMap (fun block => (listTxs block).map CTransaction.hash)

theorem builtList_good
    (hinj : Function.Injective serializeHash) {chain : List CBlock} {list : CDeterministicMNList}
    (h : BuiltList serializeHash chain list) :
    GoodList serializeHash list ∧
      ∀ proTxHash, (registryOf list).contains proTxHash=true → proTxHash∈listTxHashes chain := by
  induction h with
  | empty chain blockHash nHeight =>
    refine ⟨⟨exactList_empty serializeHash blockHash nHeight,?_,?_⟩,?_⟩
    · exact fun _ _ hf => by cases hf
    · exact fun _ _ hf => by cases hf
    · exact fun _ hf => by cases hf
  | @build ctx view block next hcontext hchecks hhashes blockHash nHeight _ hbuild ih =>
    subst hcontext
    have hrefines := buildNewListFromBlock_refines hinj ih.1
      (fun tx hm => hchecks tx (List.mem_of_mem_drop hm)) hhashes
    rw [hbuild] at hrefines
    generalize hspec : registryBlock view (registryOf view.mnList) block=result at hrefines
    cases hrefines with
    | @ok list registry hgood hsame =>
      refine ⟨⟨⟨hgood.exact.keyed,hgood.exact.exact⟩,hgood.collateral,hgood.owner⟩,?_⟩
      intro proTxHash hkey
      have hhas : registry.contains proTxHash=true := by rwa [← hsame]
      unfold registryBlock at hspec
      rw [bind_eq_ok] at hspec
      obtain ⟨before,hbefore,hfilter⟩ := hspec
      cases hfilter
      rw [contains_iff] at hhas
      obtain ⟨properties,hf⟩ := hhas
      rw [find_filter,Option.filter_eq_some_iff] at hf
      rw [listTxHashes,List.flatMap_append,List.mem_append,List.flatMap_singleton]
      rcases registryTxs_keys hbefore ((contains_iff _ _).mpr ⟨properties,hf.1⟩) with
        hold | hnew
      · exact .inl (ih.2 proTxHash hold)
      · exact .inr hnew

theorem noAssertion_rejectIf {α : Type} {condition : Bool} {dos : ℕ} {code : RejectCode}
    {reason : String} {rest : Unit → Checked α} (h : NoAssertion (rest ())) :
    NoAssertion (rejectIf condition dos code reason>>=rest) := by
  cases condition with
  | true => exact fun site he => by cases he
  | false => exact h

theorem noAssertion_orReject {α β : Type} {value : Option α} {dos : ℕ} {reason : String}
    {rest : α → Checked β} (h : ∀ found, value=some found → NoAssertion (rest found)) :
    NoAssertion (orReject value dos reason>>=rest) := by
  cases value with
  | none => exact fun site he => by cases he
  | some found => exact h found rfl

theorem noAssertion_ok {α : Type} (value : α) : NoAssertion (.ok value : Checked α) :=
  fun site he => by cases he

theorem getProUpRegTx_version {proTx : CProUpRegTx}
    (hpayload : tx.getProUpRegTx=some proTx) : tx.nVersion=3 := by
  by_contra hver
  have hempty := tx.payload_special (.inl hver)
  unfold CTransaction.getProUpRegTx at hpayload
  rw [hempty] at hpayload
  cases hpayload

theorem registerMN_noAssertion {registry : MNRegistry}
    (hfresh : registry.contains tx.hash=false) (proTx : CProRegTx) :
    NoAssertion (registerMN view registry tx proTx) := by
  have hfiltered : (registry.filter (fun entry =>
      entry.2.collateral≠collateralOutpoint tx proTx)).contains tx.hash=false := by
    rw [contains_eq_false] at hfresh ⊢
    rw [find_filter,hfresh,Option.filter_none]
  refine noAssertion_rejectIf (noAssertion_rejectIf (noAssertion_rejectIf ?_))
  rw [hfiltered]
  exact noAssertion_ok _

/-- The registry of a checked transaction fails its assertion at an update to a key of another. -/
theorem registryTx_noAssertion_iff {ctx : NodeContext}
    {registry : MNRegistry} (hcheck : checkSpecialTx ctx view tx=.ok ())
    (hfresh : registry.contains tx.hash=false) :
    NoAssertion (registryTx view registry tx) ↔
      ∀ proTx, tx.nType=.providerUpdateRegistrar → tx.getProUpRegTx=some proTx →
        registry.contains proTx.proTxHash=true →
        heldByOther registry proTx.proTxHash (.operator proTx.pubKeyOperator)=false := by
  by_cases hver : tx.nVersion≠3
  · rw [registryTx,if_pos hver]
    refine ⟨fun _ proTx _ hpayload => ?_,fun _ => noAssertion_ok _⟩
    exact absurd (getProUpRegTx_version hpayload) hver
  · rw [registryTx,if_neg hver]
    unfold checkSpecialTx at hcheck
    cases htype : tx.nType with
    | normal => exact ⟨fun _ _ he => (by cases he),fun _ => noAssertion_ok _⟩
    | coinbase => exact ⟨fun _ _ he => (by cases he),fun _ => noAssertion_ok _⟩
    | quorumCommitment => exact ⟨fun _ _ he => (by cases he),fun _ => noAssertion_ok _⟩
    | unknown nType => exact ⟨fun _ _ he => (by cases he),fun _ => noAssertion_ok _⟩
    | providerRegister =>
      refine ⟨fun _ _ he => (by cases he),fun _ => ?_⟩
      rw [htype,if_neg (by simp only [hver,reduceCtorEq,or_self,not_false_eq_true])] at hcheck
      split_ifs at hcheck
      · cases hcheck
      · obtain ⟨ptx,hptx,-⟩ := checkProRegTx_ok hcheck
        rw [hptx]
        exact registerMN_noAssertion hfresh ptx
    | providerUpdateService =>
      refine ⟨fun _ _ he => (by cases he),fun _ => ?_⟩
      rw [htype,if_neg (by simp only [hver,reduceCtorEq,or_self,not_false_eq_true])] at hcheck
      split_ifs at hcheck
      · cases hcheck
      · obtain ⟨ptx,hptx⟩ := checkProUpServTx_ok hcheck
        rw [hptx]
        exact noAssertion_rejectIf (noAssertion_orReject (fun _ _ => noAssertion_ok _))
    | providerUpdateRevoke =>
      refine ⟨fun _ _ he => (by cases he),fun _ => ?_⟩
      rw [htype,if_neg (by simp only [hver,reduceCtorEq,or_self,not_false_eq_true])] at hcheck
      split_ifs at hcheck
      · cases hcheck
      · obtain ⟨ptx,hptx⟩ := checkProUpRevTx_ok hcheck
        rw [hptx]
        exact noAssertion_orReject (fun _ _ => noAssertion_ok _)
    | providerUpdateRegistrar =>
      rw [htype,if_neg (by simp only [hver,reduceCtorEq,or_self,not_false_eq_true])] at hcheck
      split_ifs at hcheck
      · cases hcheck
      · obtain ⟨ptx,hptx⟩ := checkProUpRegTx_ok hcheck
        rw [hptx]
        dsimp only [withEntry,rekeyMN]
        constructor
        · intro hnone proTx _ hpayload hknown
          cases hpayload
          obtain ⟨properties,hf⟩ := (contains_iff _ _).mp hknown
          rw [hf] at hnone
          by_contra hheld
          rw [Bool.not_eq_false] at hheld
          refine hnone .addUniqueProperty ?_
          rw [hheld]
          rfl
        · intro hfree
          refine noAssertion_orReject (fun properties hf => ?_)
          rw [hfree ptx rfl rfl ((contains_iff _ _).mpr ⟨properties,hf⟩)]
          exact noAssertion_ok _

/-- Without collisions, building the list of a checked block fails no assertion exactly when no
registrar update takes an operator key that another masternode so far has. -/
theorem buildNewListFromBlock_noAssertion_iff {ctx : NodeContext} {view : ChainView}
    {block : CBlock} (hinj : Function.Injective ctx.serializeHash)
    (hlist : BuiltList ctx.serializeHash view.chain view.mnList)
    (hchecks : ∀ tx∈block.vtx, checkSpecialTx ctx view tx=.ok ())
    (hnodup : (listTxHashes (view.chain++[block])).Nodup)
    (hzero : ∀ tx∈listTxs block, tx.hash≠0) :
    NoAssertion (buildNewListFromBlock ctx view block) ↔ OperatorKeysFree view block := by
  obtain ⟨hgood,hkeys⟩ := builtList_good hinj hlist
  have hlistChecks : ∀ tx∈listTxs block, checkSpecialTx ctx view tx=.ok () :=
    fun tx hm => hchecks tx (List.mem_of_mem_drop hm)
  rw [refines_noAssertion_iff (buildNewListFromBlock_refines hinj hgood hlistChecks hzero)]
  have hrun : NoAssertion (registryBlock view (registryOf view.mnList) block) ↔
      NoAssertion ((listTxs block).foldlM (registryTx view) (registryOf view.mnList)) := by
    unfold registryBlock
    cases (listTxs block).foldlM (registryTx view) (registryOf view.mnList) with
    | ok registry => exact ⟨fun _ => noAssertion_ok _,fun _ => noAssertion_ok _⟩
    | error abort =>
      exact ⟨fun h site he => h site (by cases he; rfl),fun h site he => h site (by cases he; rfl)⟩
  rw [hrun,foldlM_noAssertion_iff]
  -- a transaction that is reached has a hash that is not yet registered
  have hfresh : ∀ {before : List CTransaction} {tx : CTransaction} {after : List CTransaction}
      {registry : MNRegistry}, listTxs block=before++tx::after →
      before.foldlM (registryTx view) (registryOf view.mnList)=.ok registry →
      registry.contains tx.hash=false := by
    intro before tx after registry hsplit hbefore
    by_contra hknown
    rw [Bool.not_eq_false] at hknown
    rw [listTxHashes,List.flatMap_append,List.flatMap_singleton,hsplit,List.map_append,
      List.map_cons] at hnodup
    obtain ⟨-,hblock,hdisjoint⟩ := List.nodup_append.mp hnodup
    rcases registryTxs_keys hbefore hknown with hold | hnew
    · exact hdisjoint _ (hkeys _ hold) _ (List.mem_append_right _ List.mem_cons_self) rfl
    · obtain ⟨-,-,hsame⟩ := List.nodup_append.mp hblock
      exact hsame _ hnew _ List.mem_cons_self rfl
  have hstep : ∀ {before : List CTransaction} {tx : CTransaction} {after : List CTransaction}
      {registry : MNRegistry}, listTxs block=before++tx::after →
      before.foldlM (registryTx view) (registryOf view.mnList)=.ok registry →
      (NoAssertion (registryTx view registry tx) ↔
        ∀ proTx, tx.nType=.providerUpdateRegistrar → tx.getProUpRegTx=some proTx →
          registry.contains proTx.proTxHash=true →
          heldByOther registry proTx.proTxHash (.operator proTx.pubKeyOperator)=false) := by
    intro before tx after registry hsplit hbefore
    refine registryTx_noAssertion_iff (hlistChecks tx ?_) (hfresh hsplit hbefore)
    rw [hsplit]
    exact List.mem_append_right _ List.mem_cons_self
  constructor
  · intro hall before tx after registry proTx hsplit hbefore
    exact (hstep hsplit hbefore).mp (hall before tx after registry hsplit hbefore) proTx
  · intro hfree before tx after registry hsplit hbefore
    exact (hstep hsplit hbefore).mpr
      (fun proTx => hfree before tx after registry proTx hsplit hbefore)

/-- A node on the regression test network whose signatures are all in order. -/
def sampleNode : NodeContext where
  network := .regtest
  fLiteMode := false
  fAllowPrivateNet := false
  spork15Value := 0
  hash160 := fun bytes => bytes.length
  serializeHash := propertyCode
  sha256 := fun first second => first+second
  quorumScore := fun confirmed _ _ => confirmed
  commitmentHash := sampleHash
  crypto := sampleCrypto
  dip3Active := fun _ => true
  mapBlockIndex := fun _ => none
  calcTxInputsHash := fun _ => 0
  verifyMessage := fun _ _ => true
  verifyHash := fun _ _ => true
  verifyProUpServ := fun _ _ => true
  verifyProUpRev := fun _ _ => true

/-- Script that pays to a key hash of equal bytes. -/
def sampleScript (byte : UInt8) : CScript :=
  [opDup,opHash160,0x14]++List.replicate 20 byte++[opEqualVerify,opCheckSig]

/-- Registration with an external collateral. -/
def sampleProRegTx (index : ℕ) : CProRegTx where
  collateralOutpoint := ⟨100+index,0⟩
  addr := CService.ipv4 8 8 8 (UInt8.ofNat index) 19994
  keyIDOwner := 200+index
  pubKeyOperator := CBLSWrapper.valid (300+index)
  keyIDVoting := 200+index
  scriptPayout := sampleScript 7

def sampleRegister (index : ℕ) : CTransaction where
  nVersion := 3
  nType := .providerRegister
  vin := [{ prevout := ⟨500+index,0⟩ }]
  vExtraPayload := .proReg (sampleProRegTx index)
  hash := index
  payload_special := fun h => absurd h (by decide)

/-- Registrar update of a masternode to an operator key. -/
def sampleRekey (index key : ℕ) : CTransaction where
  nVersion := 3
  nType := .providerUpdateRegistrar
  vin := [{ prevout := ⟨600+index,0⟩ }]
  vExtraPayload := .proUpReg
    { proTxHash := index
      pubKeyOperator := CBLSWrapper.valid key
      keyIDVoting := 200+index
      scriptPayout := sampleScript 7 }
  hash := 10+index
  payload_special := fun h => absurd h (by decide)

def sampleCoinbase (hash : Uint256) : CTransaction where
  vin := [{ prevout := COutPoint.null }]
  hash := hash
  payload_special := CTransaction.payload_plain

/-- Coins of two collaterals. -/
def sampleCoins : CoinsView :=
  OrderedMap.ofEntries ([1,2].map (fun index =>
    ((⟨100+index,0⟩ : COutPoint),
      (⟨⟨1000*coin,sampleScript (UInt8.ofNat (10+index))⟩,false,1⟩ : Coin))))

/-- Block that registers two masternodes. -/
def registerBlock : CBlock := ⟨1001,0,[sampleCoinbase 3,sampleRegister 1,sampleRegister 2]⟩

/-- The node before that block. -/
def emptyView : ChainView where
  chain := [⟨1000,0,[]⟩]
  pcoinsTip := sampleCoins
  getListForBlock := fun blockHash => { blockHash := blockHash }

/-- List with the two masternodes. -/
def registeredList : CDeterministicMNList where
  nHeight := 1
  mnMap := OrderedMap.ofEntries ([1,2].map (fun index =>
    (index,registeredMN 1 (sampleRegister index) (sampleProRegTx index))))
  mnUniquePropertyMap := OrderedMap.ofEntries ([1,2].flatMap (fun index =>
    (uniqueProperties (registeredMN 1 (sampleRegister index) (sampleProRegTx index))).map
      (fun v => (propertyCode v,(index,1)))))

/-- The node after that block. -/
def registeredView : ChainView where
  chain := [⟨1000,0,[]⟩,registerBlock]
  pcoinsTip := sampleCoins
  getListForBlock := fun _ => { registeredList with blockHash := 1001 }

theorem builtList_registered : BuiltList propertyCode registeredView.chain registeredView.mnList :=
  @BuiltList.build propertyCode sampleNode emptyView registerBlock registeredList rfl (by decide)
    (by decide) 1001 1 (.empty _ _ _) (by decide)

/-- A block with two registrar updates. -/
def rekeyBlock (first second : ℕ) : CBlock :=
  ⟨1002,0,[sampleCoinbase 4,sampleRekey 1 first,sampleRekey 2 second]⟩

/-- Two different new keys are taken over. -/
theorem buildNewListFromBlock_noAssertion_sample :
    NoAssertion (buildNewListFromBlock sampleNode registeredView (rekeyBlock 998 999)) ∧
      OperatorKeysFree registeredView (rekeyBlock 998 999) := by
  have hok : NoAssertion
      (buildNewListFromBlock sampleNode registeredView (rekeyBlock 998 999)) := by
    have hsome : (buildNewListFromBlock sampleNode registeredView
        (rekeyBlock 998 999)).toOption.isSome=true := by decide
    intro site he
    rw [he] at hsome
    cases hsome
  exact ⟨hok,(buildNewListFromBlock_noAssertion_iff propertyCode_injective builtList_registered
    (by decide) (by decide) (by decide)).mp hok⟩

/-- Two updates to the same new key pass their checks, and the second one fails an assertion. -/
theorem buildNewListFromBlock_shared_key :
    BuiltList propertyCode registeredView.chain registeredView.mnList ∧
      (∀ tx∈(rekeyBlock 999 999).vtx, checkSpecialTx sampleNode registeredView tx=.ok ()) ∧
      (listTxHashes (registeredView.chain++[rekeyBlock 999 999])).Nodup ∧
      buildNewListFromBlock sampleNode registeredView (rekeyBlock 999 999)=
        .error (.assertion .addUniqueProperty) :=
  ⟨builtList_registered,by decide,by decide,by decide⟩

end Pyrk.BlockAssertions
