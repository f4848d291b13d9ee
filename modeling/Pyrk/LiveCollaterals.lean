import Pyrk.BlockAssertions

/-!
# Collaterals stay unspent

Registrations are checked against the coins before the block, and spent collaterals are removed
after all additions.
-/

namespace Pyrk.LiveCollaterals

open List

open Transaction DeterministicMNList Coins ProviderTx BuildNewList Registry
  BlockAssertions OrderedMap

/-- What connecting a block does to the coin set and to the list. -/
structure BlockConnected (ctx : NodeContext) (view : ChainView) (block : CBlock)
    (coins : CoinsView) (list : CDeterministicMNList) : Prop where
  coinbase : ∀ tx∈block.vtx.take 1, tx.isCoinBase=true
  connected : connectTxs view.chain.length view.pcoinsTip block.vtx=.ok coins
  /-- Special transactions are checked against the previous block. -/
  checks : ∀ tx∈block.vtx, checkSpecialTx ctx view tx=.ok ()
  hashes : ∀ tx∈listTxs block, tx.hash≠0
  built : buildNewListFromBlock ctx view block=.ok list

/-- Chains of connected blocks with their coin set and list. -/
inductive ConnectedChain (serializeHash : UniqueProperty → Uint256) :
    List CBlock → CoinsView → CDeterministicMNList → Prop where
  /-- Before the first list there is any coin set and the empty list. -/
  | start (chain : List CBlock) (coins : CoinsView) (blockHash : Uint256) (nHeight : ℤ) :
      ConnectedChain serializeHash chain coins { blockHash := blockHash, nHeight := nHeight }
  /-- A block is connected and its list gets its hash and height. -/
  | connect {ctx : NodeContext} {view : ChainView} {block : CBlock} {coins : CoinsView}
      {list : CDeterministicMNList} (hcontext : ctx.serializeHash=serializeHash)
      (blockHash : Uint256) (nHeight : ℤ) :
      ConnectedChain serializeHash view.chain view.pcoinsTip view.mnList →
      BlockConnected ctx view block coins list →
      ConnectedChain serializeHash (view.chain++[block]) coins
        { list with blockHash := blockHash, nHeight := nHeight }

/-- Collaterals of a registry satisfy a condition. -/
def AllCollaterals (condition : COutPoint → Prop) (registry : MNRegistry) : Prop :=
  ∀ proTxHash properties, registry.find proTxHash=some properties → condition properties.collateral

variable {ctx : NodeContext} {view : ChainView} {condition : COutPoint → Prop}

theorem registryTx_collaterals {registry next : MNRegistry} {tx : CTransaction}
    (hcheck : checkSpecialTx ctx view tx=.ok ())
    (hcoins : ∀ outpoint, view.pcoinsTip.contains outpoint=true → condition outpoint)
    (hcreates : ∀ outpoint, Creates tx outpoint → condition outpoint)
    (hold : AllCollaterals condition registry) (h : registryTx view registry tx=.ok next) :
    AllCollaterals condition next := by
  intro proTxHash properties hf
  rcases registryTx_cases h with rfl | ⟨proTx,hver,htype,hpayload,rfl⟩ |
    ⟨key,old,changed,hfind,hsame,rfl⟩
  · exact hold proTxHash properties hf
  · rw [find_set] at hf
    split_ifs at hf
    · cases hf
      unfold checkSpecialTx at hcheck
      rw [if_neg (by rw [hver,htype]; decide),htype] at hcheck
      split_ifs at hcheck
      · cases hcheck
      · obtain ⟨ptx,hptx,-,hcoll⟩ := checkProRegTx_ok hcheck
        rw [hpayload] at hptx
        cases hptx
        rcases hcoll with ⟨-,hcoin⟩ | ⟨-,hcreated⟩
        · exact hcoins _ hcoin
        · exact hcreates _ hcreated
    · rw [find_filter,Option.filter_eq_some_iff] at hf
      exact hold proTxHash properties hf.1
  · rw [find_set] at hf
    split_ifs at hf
    · cases hf
      rw [hsame.collateral]
      exact hold key old hfind
    · exact hold proTxHash properties hf

theorem registryTxs_collaterals {registry next : MNRegistry} {txs : List CTransaction}
    (hchecks : ∀ tx∈txs, checkSpecialTx ctx view tx=.ok ())
    (hcoins : ∀ outpoint, view.pcoinsTip.contains outpoint=true → condition outpoint)
    (hcreates : ∀ tx∈txs, ∀ outpoint, Creates tx outpoint → condition outpoint)
    (hold : AllCollaterals condition registry)
    (h : txs.foldlM (registryTx view) registry=.ok next) : AllCollaterals condition next := by
  refine foldlM_invariant (fun hm hmid hstep => ?_) hold h
  exact registryTx_collaterals (hchecks _ hm) hcoins (hcreates _ hm) hmid hstep

theorem blockConnected_collaterals {block : CBlock}
    {coins : CoinsView} {list : CDeterministicMNList}
    (hinj : Function.Injective ctx.serializeHash)
    (hgood : GoodList ctx.serializeHash view.mnList)
    (hlive : AllCollaterals (fun outpoint => view.pcoinsTip.contains outpoint=true)
      (registryOf view.mnList))
    (h : BlockConnected ctx view block coins list) :
    GoodList ctx.serializeHash list ∧
    AllCollaterals (fun outpoint => coins.contains outpoint=true ∧ outpoint∉spentOutpoints block)
      (registryOf list) := by
  have hchecks : ∀ tx∈listTxs block, checkSpecialTx ctx view tx=.ok () :=
    fun tx hm => h.checks tx (mem_of_mem_drop hm)
  have hrefines := buildNewListFromBlock_refines hinj hgood hchecks h.hashes
  rw [h.built] at hrefines
  generalize hspec : registryBlock view (registryOf view.mnList) block=result at hrefines
  cases hrefines with
  | @ok _ registry hnext hsame =>
    refine ⟨hnext,?_⟩
    rw [hsame]
    unfold registryBlock at hspec
    rw [bind_eq_ok] at hspec
    obtain ⟨middle,hmid,hfilter⟩ := hspec
    cases hfilter
    -- before the removal, collaterals are old coins or created in the block
    have hthere : AllCollaterals (fun outpoint => view.pcoinsTip.contains outpoint=true ∨
        ∃ tx∈block.vtx, Creates tx outpoint) middle := by
      have hstart : AllCollaterals (fun outpoint => view.pcoinsTip.contains outpoint=true ∨
          ∃ tx∈block.vtx, Creates tx outpoint) (registryOf view.mnList) :=
        fun proTxHash properties hf => Or.inl (hlive proTxHash properties hf)
      exact registryTxs_collaterals hchecks (fun outpoint hc => Or.inl hc)
        (fun tx hm outpoint hc => Or.inr ⟨tx,mem_of_mem_drop hm,hc⟩) hstart hmid
    intro proTxHash properties hf
    rw [find_filter,Option.filter_eq_some_iff] at hf
    obtain ⟨hf,hunspent⟩ := hf
    have hnot := of_decide_eq_true hunspent
    refine ⟨connectTxs_contains h.connected ?_ (hthere proTxHash properties hf),hnot⟩
    intro tx htx hspent
    obtain ⟨input,hinput,hprevout⟩ := mem_map.mp hspent
    unfold spentInputs at hinput
    split_ifs at hinput with hbase
    · exact absurd hinput not_mem_nil
    · refine hnot (mem_map.mpr ⟨input,mem_flatMap.mpr ⟨tx,?_,hinput⟩,hprevout⟩)
      rcases mem_append.mp ((take_append_drop 1 block.vtx).symm ▸ htx) with hfirst | hrest
      · exact absurd (h.coinbase tx hfirst) hbase
      · exact hrest

theorem connectedChain_live {serializeHash : UniqueProperty → Uint256}
    (hinj : Function.Injective serializeHash) {chain : List CBlock} {coins : CoinsView}
    {list : CDeterministicMNList} (h : ConnectedChain serializeHash chain coins list) :
    GoodList serializeHash list ∧
      AllCollaterals (fun outpoint => coins.contains outpoint=true) (registryOf list) := by
  induction h with
  | start chain coins blockHash nHeight =>
    refine ⟨⟨exactList_empty serializeHash blockHash nHeight,?_,?_⟩,?_⟩
    · exact fun _ _ hf => by cases hf
    · exact fun _ _ hf => by cases hf
    · exact fun _ _ hf => by cases hf
  | @connect ctx view block coins next hcontext blockHash nHeight _ hblock ih =>
    subst hcontext
    obtain ⟨hgood,hlive⟩ := blockConnected_collaterals hinj ih.1 ih.2 hblock
    refine ⟨⟨⟨hgood.exact.keyed,hgood.exact.exact⟩,hgood.collateral,hgood.owner⟩,?_⟩
    intro proTxHash properties hf
    exact (hlive proTxHash properties hf).1

/-- After each block of a connected chain every masternode has an unspent collateral, and only the
coinbase may spend the collateral of one that is left. -/
theorem connectedChain_collaterals {ctx : NodeContext} {view : ChainView} {block : CBlock}
    {coins : CoinsView} {list : CDeterministicMNList}
    (hinj : Function.Injective ctx.serializeHash)
    (hchain : ConnectedChain ctx.serializeHash view.chain view.pcoinsTip view.mnList)
    (hblock : BlockConnected ctx view block coins list) :
    (∀ proTxHash dmn, list.getMN proTxHash=some dmn →
      ∃ entry, getUTXOCoin coins dmn.collateralOutpoint=some entry) ∧
    ∀ tx∈listTxs block, ∀ input∈tx.vin, ∀ proTxHash dmn, list.getMN proTxHash=some dmn →
      dmn.collateralOutpoint≠input.prevout := by
  obtain ⟨hgood,hlive⟩ := connectedChain_live hinj hchain
  obtain ⟨-,hall⟩ := blockConnected_collaterals hinj hgood hlive hblock
  have hentry : ∀ proTxHash dmn, list.getMN proTxHash=some dmn →
      coins.contains dmn.collateralOutpoint=true ∧ dmn.collateralOutpoint∉spentOutpoints block := by
    intro proTxHash dmn hf
    have hfound : (registryOf list).find proTxHash=some (propertiesOf dmn) := by
      rw [find_registryOf]
      exact congrArg (Option.map propertiesOf) hf
    exact hall proTxHash (propertiesOf dmn) hfound
  constructor
  · intro proTxHash dmn hf
    exact (contains_iff _ _).mp (hentry proTxHash dmn hf).1
  · intro tx htx input hinput proTxHash dmn hf he
    refine (hentry proTxHash dmn hf).2 ?_
    rw [he]
    exact mem_map_of_mem (mem_flatMap.mpr ⟨tx,htx,hinput⟩)

/-- The two collaterals and a coin that pays for each registration. -/
def fundedView : ChainView :=
  { emptyView with
    pcoinsTip := (sampleCoins.set ⟨501,0⟩ ⟨⟨coin,sampleScript 20⟩,false,1⟩).set ⟨502,0⟩
      ⟨⟨coin,sampleScript 21⟩,false,1⟩ }

def spendCollateral : CTransaction where
  vin := [{ prevout := ⟨102,0⟩ }]
  vout := [⟨1000*coin,sampleScript 22⟩]
  hash := 9
  payload_special := CTransaction.payload_plain

/-- A block that spends the second collateral before it registers both. -/
def spendingBlock : CBlock :=
  ⟨1001,0,[sampleCoinbase 3,spendCollateral,sampleRegister 1,sampleRegister 2]⟩

/-- After the block only the first masternode is registered. -/
theorem connectedChain_collaterals_sample :
    ∃ coins list, BlockConnected sampleNode fundedView spendingBlock coins list ∧
      list.hasMN 1=true ∧ list.hasMN 2=false ∧ (∀ proTxHash dmn, list.getMN proTxHash=some dmn →
        ∃ entry, getUTXOCoin coins dmn.collateralOutpoint=some entry) ∧
      ∀ tx∈listTxs spendingBlock, ∀ input∈tx.vin, ∀ proTxHash dmn,
        list.getMN proTxHash=some dmn → dmn.collateralOutpoint≠input.prevout := by
  obtain ⟨coins,hcoins⟩ := exists_ok (show (connectTxs 1 fundedView.pcoinsTip
    spendingBlock.vtx).toOption.isSome=true by decide)
  obtain ⟨list,hlist⟩ := exists_ok (show (buildNewListFromBlock sampleNode fundedView
    spendingBlock).toOption.isSome=true by decide)
  have hmns : (buildNewListFromBlock sampleNode fundedView spendingBlock).toOption.map
      (fun list => (list.hasMN 1,list.hasMN 2))=some (true,false) := by decide
  rw [hlist] at hmns
  obtain ⟨hfirst,hsecond⟩ := Prod.mk.inj (Option.some.inj hmns)
  have hblock : BlockConnected sampleNode fundedView spendingBlock coins list :=
    ⟨by decide,hcoins,by decide,by decide,hlist⟩
  exact ⟨coins,list,hblock,hfirst,hsecond,
    connectedChain_collaterals propertyCode_injective (.start _ _ _ _) hblock⟩

end Pyrk.LiveCollaterals
