import Pyrk.ListDiff

/-!
# Lists of neighbouring blocks

Special transactions are checked against the list of the previous block, so that the built list
succeeds the old one in the sense the diffs need.
-/

namespace Pyrk.ListSuccession

open List Option

open Transaction DeterministicMNList FinalCommitment OrderedMap
open ProviderTx BuildNewList Registry BlockAssertions ListDiff

section Checks

variable {ctx : NodeContext} (hinj : Function.Injective ctx.serializeHash)
  {view : ChainView} {tx : CTransaction}

include hinj

section

variable (hlist : ExactList ctx.serializeHash view.mnList)
variable (hcheck : checkSpecialTx ctx view tx=.ok ())

include hlist hcheck

theorem namedBy_free {proTxHash : Uint256} {v : UniqueProperty}
    (hv : NamedBy tx proTxHash v) :
    heldByOther (registryOf view.mnList) proTxHash v=false := by
  unfold checkSpecialTx at hcheck
  obtain ⟨hver,⟨proTx,htype,hpayload,rfl,rfl⟩ | ⟨proTx,htype,hpayload,rfl,rfl⟩⟩ := hv
  · rw [if_neg (by rw [hver,htype]; decide),htype] at hcheck
    split_ifs at hcheck
    · cases hcheck
    · dsimp only at hcheck
      unfold checkProUpServTx at hcheck
      simp only [bind_eq_ok,orReject_eq_ok,rejectIf_eq_ok,hpayload,some.injEq,
        exists_eq_left'] at hcheck
      obtain ⟨_,-,_,-,_,-,_,-,dupAddr,hdup,_,hfree,-⟩ := hcheck
      rw [propertyHolder_eq hinj hlist] at hdup
      cases hdup
      exact hfree
  · rw [if_neg (by rw [hver,htype]; decide),htype] at hcheck
    split_ifs at hcheck
    · cases hcheck
    · dsimp only at hcheck
      unfold checkProUpRegTx at hcheck
      simp only [bind_eq_ok,orReject_eq_ok,rejectIf_eq_ok,hpayload,some.injEq,
        exists_eq_left'] at hcheck
      obtain ⟨_,-,_,-,_,-,_,-,_,-,_,-,_,-,_,-,_,-,_,-,dupKey,hdup,_,hfree,-⟩ := hcheck
      simp only [ne_comm] at hdup
      have hholder := propertyHolder_eq hinj hlist (.operator proTx.pubKeyOperator) proTx.proTxHash
      rw [hholder] at hdup
      cases hdup
      exact hfree

/-- Only masternodes with the same collateral have something in common with a
checked registration. -/
theorem registered_free {proTx : CProRegTx} (hver : tx.nVersion=3)
    (htype : tx.nType=.providerRegister) (hpayload : tx.getProRegTx=some proTx)
    {other : Uint256} {others : MNProperties} {v : UniqueProperty}
    (hother : (registryOf view.mnList).find other=some others) (hothers : others.has v=true)
    (hv : MNProperties.has ⟨collateralOutpoint tx proTx,proTx.addr,proTx.keyIDOwner,
      proTx.pubKeyOperator⟩ v=true) : others.collateral=collateralOutpoint tx proTx := by
  unfold checkSpecialTx at hcheck
  rw [if_neg (by rw [hver,htype]; decide),htype] at hcheck
  split_ifs at hcheck
  · cases hcheck
  · dsimp only at hcheck
    unfold checkProRegTx at hcheck
    simp only [bind_eq_ok,orReject_eq_ok,rejectIf_eq_ok,hpayload,some.injEq,
      exists_eq_left',Bool.or_eq_false_iff] at hcheck
    obtain ⟨_,-,_,-,_,-,_,-,_,-,_,-,_,-,_,-,_,-,_,-,_,-,dupAddr,hdup,_,hfree,_,hkeys,-⟩ := hcheck
    rw [hasUniqueProperty_eq_held hinj hlist,hasUniqueProperty_eq_held hinj hlist] at hkeys
    have hheld : held (registryOf view.mnList) v=true := held_iff.mpr ⟨other,others,hother,hothers⟩
    obtain ⟨hset,rfl | rfl | rfl | rfl⟩ := MNProperties.has_iff.mp hv
    · obtain ⟨-,he | he | he | he⟩ := MNProperties.has_iff.mp hothers
      · exact (UniqueProperty.collateral.inj he).symm
      · cases he
      · cases he
      · cases he
    · -- the holder of the address was tested for its collateral
      rw [find_registryOf] at hother
      obtain ⟨dmn,hdmn,rfl⟩ := map_eq_some_iff.mp hother
      have hkey := hlist.keyed other dmn hdmn
      subst hkey
      have hholder := (hlist.getUniquePropertyMN_iff hinj _ dmn).mpr
        ⟨hdmn,(has_propertiesOf dmn _).mp hothers⟩
      unfold propertyHolder at hdup
      rw [hasUniqueProperty_eq_held hinj hlist,hheld,if_pos rfl,hholder] at hdup
      cases hdup
      exact not_not.mp (of_decide_eq_false hfree)
    · rw [hkeys.1] at hheld
      cases hheld
    · rw [hkeys.2] at hheld
      cases hheld

end

end Checks

/-- Registry after some transactions of a block, compared with the one before. -/
structure RegistrySucceeds (old new : MNRegistry) : Prop where
  same : ∀ proTxHash first second, old.find proTxHash=some first → new.find proTxHash=some second →
    second.collateral=first.collateral ∧ second.owner=first.owner
  /-- No property is taken from a masternode that stays. -/
  takesNothing : TakesNothing old new

theorem registrySucceeds_refl {serializeHash : UniqueProperty → Uint256}
    (hinj : Function.Injective serializeHash) {list : CDeterministicMNList}
    (h : ExactList serializeHash list) : RegistrySucceeds (registryOf list) (registryOf list) := by
  constructor
  · grind
  · intro proTxHash properties other others v hf hv ho hov
    rw [find_registryOf] at hf ho
    obtain ⟨first,hfirst,rfl⟩ := map_eq_some_iff.mp hf
    obtain ⟨second,hsecond,rfl⟩ := map_eq_some_iff.mp ho
    exact .inl (holder_unique hinj h hsecond hfirst ((has_propertiesOf _ _).mp hov)
      ((has_propertiesOf _ _).mp hv))

/-- A checked transaction with a new hash lets the registry succeed the old one. -/
theorem registryTx_succeeds {ctx : NodeContext}
    (hinj : Function.Injective ctx.serializeHash) {view : ChainView} {tx : CTransaction}
    {registry next : MNRegistry} (hlist : ExactList ctx.serializeHash view.mnList)
    (hcheck : checkSpecialTx ctx view tx=.ok ())
    (hfresh : (registryOf view.mnList).find tx.hash=none)
    (h : RegistrySucceeds (registryOf view.mnList) registry)
    (hnext : registryTx view registry tx=.ok next) :
    RegistrySucceeds (registryOf view.mnList) next := by
  rcases registryTx_cases hnext with rfl | ⟨proTx,hver,htype,hpayload,rfl⟩ |
    ⟨key,properties,changed,hf,hchange,rfl⟩
  · exact h
  · have hold : ∀ {other : Uint256} {others : MNProperties},
        (registryOf view.mnList).find other=some others → other≠tx.hash := by
      rintro other others ho rfl
      rw [hfresh] at ho
      cases ho
    constructor
    · intro proTxHash first second hfirst hsecond
      rw [find_set_of_ne _ _ (hold hfirst),find_filter,filter_eq_some_iff] at hsecond
      exact h.same proTxHash first second hfirst hsecond.1
    · intro proTxHash found other others v hfound hv hother hothers
      rw [find_set_of_ne _ _ (hold hother),find_filter]
      rw [find_set] at hfound
      split_ifs at hfound with he
      · -- whoever has a property of the registration is replaced by it
        cases hfound
        have hcoll := registered_free hinj hlist hcheck hver htype hpayload hother
          hothers hv
        refine .inr (filter_eq_none_iff.mpr (fun second hsecond => ?_))
        rw [(h.same other others second hother hsecond).1,hcoll]
        simp only [ne_eq,not_true_eq_false,decide_false,Bool.false_eq_true,not_false_eq_true]
      · rw [find_filter,filter_eq_some_iff] at hfound
        rcases h.takesNothing _ _ _ _ v hfound.1 hv hother hothers with hsame | hgone
        · exact .inl hsame
        · rw [hgone]
          exact .inr rfl
  · constructor
    · intro proTxHash first second hfirst hsecond
      rw [find_set] at hsecond
      split_ifs at hsecond with he
      · subst he
        cases hsecond
        obtain ⟨hcoll,howner⟩ := h.same _ first properties hfirst hf
        exact ⟨hchange.collateral.trans hcoll,hchange.owner.trans howner⟩
      · exact h.same _ first second hfirst hsecond
    · intro proTxHash found other others v hfound hv hother hothers
      have hmissing : registry.find other=none → (registry.set key changed).find other=none := by
        intro hgone
        rw [find_set_of_ne _ _ ?_,hgone]
        rintro rfl
        rw [hgone] at hf
        cases hf
      rw [find_set] at hfound
      split_ifs at hfound with he
      · subst he
        cases hfound
        rcases hchange.named v hv with hhad | hnamed
        · exact (h.takesNothing _ _ _ _ v hf hhad hother hothers).imp id hmissing
        · refine .inl ?_
          by_contra hne
          have hheld := heldByOther_iff.mpr ⟨other,others,hne,hother,hothers⟩
          rw [namedBy_free hinj hlist hcheck hnamed] at hheld
          cases hheld
      · exact (h.takesNothing _ _ _ _ v hfound hv hother hothers).imp id hmissing

theorem registrySucceeds_filter {old new : MNRegistry} (h : RegistrySucceeds old new)
    (keep : Uint256×MNProperties → Bool) : RegistrySucceeds old (new.filter keep) := by
  have hbefore : ∀ {key value}, (new.filter keep).find key=some value →
      new.find key=some value := by
    intro key value hf
    rw [find_filter,filter_eq_some_iff] at hf
    exact hf.1
  constructor
  · intro proTxHash first second hfirst hsecond
    exact h.same proTxHash first second hfirst (hbefore hsecond)
  · intro proTxHash properties other others v hf hv ho hov
    refine (h.takesNothing _ _ _ _ v (hbefore hf) hv ho hov).imp id (fun hgone => ?_)
    rw [find_filter,hgone,filter_none]

variable {block : CBlock}

theorem registryBlock_succeeds {ctx : NodeContext}
    (hinj : Function.Injective ctx.serializeHash) {view : ChainView}
    {next : MNRegistry} (hlist : ExactList ctx.serializeHash view.mnList)
    (hchecks : ∀ tx∈listTxs block, checkSpecialTx ctx view tx=.ok ())
    (hfresh : ∀ tx∈listTxs block, (registryOf view.mnList).find tx.hash=none)
    (hnext : registryBlock view (registryOf view.mnList) block=.ok next) :
    RegistrySucceeds (registryOf view.mnList) next := by
  unfold registryBlock at hnext
  rw [bind_eq_ok] at hnext
  obtain ⟨middle,hmid,hfilter⟩ := hnext
  cases hfilter
  refine registrySucceeds_filter (foldlM_invariant (fun hm h hstep => ?_)
    (registrySucceeds_refl hinj hlist) hmid) _
  exact registryTx_succeeds hinj hlist (hchecks _ hm) (hfresh _ hm) h hstep

/-- What operations of the list leave of it. -/
structure Continues (hashes : List Uint256) (list next : CDeterministicMNList) : Prop where
  sameBlock : SameBlock list next
  identity : ∀ proTxHash dmn, next.mnMap.find proTxHash=some dmn → proTxHash∉hashes →
    ∃ old, list.mnMap.find proTxHash=some old ∧ { old with pdmnState := dmn.pdmnState }=dmn

theorem Continues.refl (hashes : List Uint256) (list : CDeterministicMNList) :
    Continues hashes list list :=
  ⟨⟨rfl,rfl⟩,fun _ dmn hf _ => ⟨dmn,hf,rfl⟩⟩

theorem Continues.trans {hashes : List Uint256} {list middle next : CDeterministicMNList}
    (hfirst : Continues hashes list middle) (hsecond : Continues hashes middle next) :
    Continues hashes list next := by
  refine ⟨⟨hsecond.sameBlock.1.trans hfirst.sameBlock.1,
    hsecond.sameBlock.2.trans hfirst.sameBlock.2⟩,fun proTxHash dmn hf hnot => ?_⟩
  obtain ⟨between,hbetween,hdmn⟩ := hsecond.identity proTxHash dmn hf hnot
  obtain ⟨old,hold,hsame⟩ := hfirst.identity proTxHash between hbetween hnot
  refine ⟨old,hold,?_⟩
  rw [← hdmn,← hsame]

/-- If the code returns a list, it is exact and continues the given one. -/
def Carries (serializeHash : UniqueProperty → Uint256) (hashes : List Uint256)
    (list : CDeterministicMNList) (result : Checked CDeterministicMNList) : Prop :=
  ∀ next, result=.ok next → ExactList serializeHash next ∧ Continues hashes list next

section Carries

variable {serializeHash : UniqueProperty → Uint256} {hashes : List Uint256}
  {list : CDeterministicMNList}

theorem carries_ok (h : ExactList serializeHash list) :
    Carries serializeHash hashes list (.ok list) := by
  intro next hnext
  cases hnext
  exact ⟨h,.refl hashes list⟩

theorem carries_error (abort : Abort) : Carries serializeHash hashes list (.error abort) :=
  fun _ hnext => by cases hnext

theorem carries_value {α : Type} {first : Checked α} {rest : α → Checked CDeterministicMNList}
    (h : ∀ value, first=.ok value → Carries serializeHash hashes list (rest value)) :
    Carries serializeHash hashes list (first>>=rest) := by
  intro next hnext
  rw [bind_eq_ok] at hnext
  obtain ⟨value,hvalue,hrest⟩ := hnext
  exact h value hvalue next hrest

theorem carries_bind {first : Checked CDeterministicMNList}
    {rest : CDeterministicMNList → Checked CDeterministicMNList}
    (hfirst : Carries serializeHash hashes list first)
    (hrest : ∀ middle, ExactList serializeHash middle →
      Carries serializeHash hashes middle (rest middle)) :
    Carries serializeHash hashes list (first>>=rest) := by
  intro next hnext
  rw [bind_eq_ok] at hnext
  obtain ⟨middle,hmid,hlast⟩ := hnext
  obtain ⟨hexact,hcontinues⟩ := hfirst middle hmid
  obtain ⟨hfinal,hlater⟩ := hrest middle hexact next hlast
  exact ⟨hfinal,hcontinues.trans hlater⟩

theorem carries_foldlM {α : Type}
    {step : CDeterministicMNList → α → Checked CDeterministicMNList} {inputs : List α}
    (hstep : ∀ middle, ExactList serializeHash middle → ∀ input∈inputs,
      Carries serializeHash hashes middle (step middle input))
    (h : ExactList serializeHash list) :
    Carries serializeHash hashes list (inputs.foldlM step list) := by
  intro next hnext
  refine @foldlM_invariant _ _ _ step (fun middle => ExactList serializeHash middle ∧
    Continues hashes list middle) inputs ?_ list next ⟨h,.refl hashes list⟩ hnext
  intro st after input hm hstate hafter
  obtain ⟨hexact,hcontinues⟩ := hstep st hstate.1 input hm after hafter
  exact ⟨hexact,hstate.2.trans hcontinues⟩

theorem carries_updateMN (h : ExactList serializeHash list) (proTxHash : Uint256)
    (pdmnState : CDeterministicMNState) :
    Carries serializeHash hashes list (list.updateMN serializeHash proTxHash pdmnState) := by
  intro next hnext
  obtain ⟨dmn,hdmn,⟨map,rfl⟩,hexact⟩ := CDeterministicMNList.updateMN_exact h hnext
  refine ⟨hexact,⟨rfl,rfl⟩,fun other found hf _ => ?_⟩
  rw [find_set] at hf
  grind

theorem carries_removeMN (h : ExactList serializeHash list) (proTxHash : Uint256) :
    Carries serializeHash hashes list (list.removeMN serializeHash proTxHash) := by
  intro next hnext
  obtain ⟨-,⟨map,rfl⟩,hexact⟩ := CDeterministicMNList.removeMN_exact h hnext
  refine ⟨hexact,⟨rfl,rfl⟩,fun other found hf _ => ?_⟩
  rw [find_erase] at hf
  split_ifs at hf
  exact ⟨found,hf,rfl⟩

theorem carries_addMN (h : ExactList serializeHash list) {dmn : CDeterministicMN}
    (hnew : dmn.proTxHash∈hashes) :
    Carries serializeHash hashes list (list.addMN serializeHash dmn) := by
  intro next hnext
  obtain ⟨-,-,-,⟨map,rfl⟩,hexact⟩ := CDeterministicMNList.addMN_exact h hnext
  refine ⟨hexact,⟨rfl,rfl⟩,fun other found hf hnot => ?_⟩
  rw [find_set] at hf
  split_ifs at hf with he
  · exact absurd (he ▸ hnew) hnot
  · exact ⟨found,hf,rfl⟩

end Carries

section Build

variable {ctx : NodeContext} {view : ChainView} {hashes : List Uint256}
  {list : CDeterministicMNList}

section

variable (h : ExactList ctx.serializeHash list)

include h

theorem carries_confirmMN (dmn : CDeterministicMN) :
    Carries ctx.serializeHash hashes list (confirmMN ctx view list dmn) := by
  unfold confirmMN
  split_ifs
  · exact carries_ok h
  · dsimp only
    split_ifs
    · exact carries_updateMN h _ _
    · exact carries_ok h

theorem carries_poSeDecrease (proTxHash : Uint256) :
    Carries ctx.serializeHash hashes list (poSeDecrease ctx list proTxHash) := by
  unfold poSeDecrease
  split
  · exact carries_error _
  · exact carries_value (fun _ _ => carries_updateMN h _ _)

theorem carries_punishMember (qc : CFinalCommitment)
    (member : CDeterministicMN×ℕ) :
    Carries ctx.serializeHash hashes list (punishMember ctx qc list member) := by
  unfold punishMember
  split_ifs
  · exact carries_ok h
  · split
    · exact carries_error _
    · split_ifs
      · exact carries_ok h
      · refine carries_value (fun penalty _ => carries_value (fun _ _ => ?_))
        split
        · exact carries_error _
        · exact carries_updateMN h _ _

theorem carries_removeReplaced (outpoint : COutPoint) :
    Carries ctx.serializeHash hashes list (removeReplaced ctx list outpoint) := by
  unfold removeReplaced
  split
  · exact carries_ok h
  · exact carries_removeMN h _

theorem carries_applyTx {tx : CTransaction}
    (hnew : tx.hash∈hashes) :
    Carries ctx.serializeHash hashes list (applyTx ctx view list tx) := by
  have hpayload : ∀ {α : Type} {payload : Option α} {apply : α → Checked CDeterministicMNList},
      (∀ value, Carries ctx.serializeHash hashes list (apply value)) →
      Carries ctx.serializeHash hashes list (withPayload payload apply) := by
    intro α payload apply hall
    cases payload with
    | none => exact carries_error _
    | some value => exact hall value
  unfold applyTx
  split_ifs
  · exact carries_ok h
  · split
    · refine hpayload (fun proTx => carries_value (fun _ _ => ?_))
      refine carries_bind (carries_removeReplaced h _) (fun middle hmid => ?_)
      exact carries_value (fun _ _ => carries_value (fun _ _ => carries_addMN hmid hnew))
    · refine hpayload (fun proTx => carries_value (fun _ _ => carries_value (fun _ _ => ?_)))
      exact carries_value (fun _ _ => carries_updateMN h _ _)
    · exact hpayload (fun proTx => carries_value (fun _ _ => carries_updateMN h _ _))
    · exact hpayload (fun proTx => carries_value (fun _ _ => carries_updateMN h _ _))
    · refine hpayload (fun qc => ?_)
      unfold applyCommitment
      split_ifs
      · exact carries_ok h
      · exact carries_foldlM (fun middle hmid member _ => carries_punishMember hmid _ _) h
    · exact carries_ok h

theorem carries_removeSpentCollateral (input : CTxIn) :
    Carries ctx.serializeHash hashes list (removeSpentCollateral ctx list input) := by
  unfold removeSpentCollateral
  split
  · exact carries_ok h
  · split_ifs
    · exact carries_removeMN h _
    · exact carries_ok h

theorem carries_payMN (nHeight : ℤ)
    (payee : Option CDeterministicMN) :
    Carries ctx.serializeHash hashes list (payMN ctx nHeight payee list) := by
  unfold payMN
  split
  · exact carries_ok h
  · split
    · exact carries_ok h
    · exact carries_updateMN h _ _

end

theorem buildNewListFromBlock_continues {block : CBlock} {next : CDeterministicMNList}
    (h : ExactList ctx.serializeHash view.mnList)
    (hnext : buildNewListFromBlock ctx view block=.ok next) :
    ExactList ctx.serializeHash next ∧ Continues ((listTxs block).map CTransaction.hash)
        { view.mnList with blockHash := 0, nHeight := view.nHeight+1 } next := by
  have hstart : ExactList ctx.serializeHash
      { view.mnList with blockHash := 0, nHeight := view.nHeight+1 } := ⟨h.keyed,h.exact⟩
  refine carries_bind (carries_bind ?_ ?_) (fun prepared hprepared => ?_) next hnext
  · exact carries_foldlM (fun middle hmid dmn _ => carries_confirmMN hmid dmn) hstart
  · exact fun middle hmid => carries_foldlM
      (fun other hother proTxHash _ => carries_poSeDecrease hother proTxHash) hmid
  · refine carries_bind (carries_foldlM (fun middle hmid tx hm => carries_applyTx hmid
      (mem_map_of_mem hm)) hprepared) (fun applied happlied => ?_)
    refine carries_bind (carries_foldlM (fun middle hmid input _ =>
      carries_removeSpentCollateral hmid input) happlied) (fun removed hremoved => ?_)
    exact carries_payMN hremoved _ _

end Build

theorem buildNewListFromBlock_succeeds {ctx : NodeContext}
    (hinj : Function.Injective ctx.serializeHash) {view : ChainView}
    {next : CDeterministicMNList} (hgood : GoodList ctx.serializeHash view.mnList)
    (hchecks : ∀ tx∈block.vtx, checkSpecialTx ctx view tx=.ok ())
    (hhashes : ∀ tx∈listTxs block, tx.hash≠0)
    (hfresh : ∀ tx∈listTxs block, (registryOf view.mnList).find tx.hash=none)
    (hnext : buildNewListFromBlock ctx view block=.ok next) (blockHash : Uint256) :
    Succeeds ctx.serializeHash view.mnList { next with blockHash := blockHash } := by
  have hlist : ∀ tx∈listTxs block, checkSpecialTx ctx view tx=.ok () :=
    fun tx hm => hchecks tx (mem_of_mem_drop hm)
  obtain ⟨hexact,hcontinues⟩ := buildNewListFromBlock_continues hgood.exact hnext
  have hrefines := buildNewListFromBlock_refines hinj hgood hlist hhashes
  rw [hnext] at hrefines
  generalize hspec : registryBlock view (registryOf view.mnList) block=result at hrefines
  cases hrefines with
  | @ok _ registry hnextGood hsame =>
    have hregistry := registryBlock_succeeds hinj hgood.exact hlist hfresh hspec
    subst hsame
    refine ⟨hgood,⟨⟨hexact.keyed,hexact.exact⟩,hnextGood.collateral,hnextGood.owner⟩,?_,?_,
      hregistry.takesNothing⟩
    · intro proTxHash first second hfirst hsecond
      obtain ⟨old,hold,hidentity⟩ := hcontinues.identity proTxHash second hsecond (by
        intro hm
        obtain ⟨tx,htx,rfl⟩ := mem_map.mp hm
        have hnone := hfresh tx htx
        rw [find_registryOf,hfirst] at hnone
        cases hnone)
      rw [some.inj (hfirst.symm.trans hold)]
      exact hidentity
    · intro proTxHash first second hfirst hsecond
      refine (hregistry.same proTxHash (propertiesOf first) (propertiesOf second) ?_ ?_).2
      · rw [find_registryOf,hfirst,map_some]
      · rw [find_registryOf]
        exact congrArg (Option.map propertiesOf) hsecond

/-- Contexts with the same consensus rules; what else a node knows may differ. -/
structure SameRules (first second : NodeContext) : Prop where
  network : first.network=second.network
  serializeHash : first.serializeHash=second.serializeHash
  sha256 : first.sha256=second.sha256
  quorumScore : first.quorumScore=second.quorumScore
  dip3Active : first.dip3Active=second.dip3Active

/-- Two pieces of code that both return do so with the same value. -/
def Agree {α : Type} (first second : Checked α) : Prop :=
  ∀ left right, first=.ok left → second=.ok right → left=right

theorem agree_of_eq {α : Type} {first second : Checked α} (h : first=second) :
    Agree first second := by
  intro left right hl hr
  rw [h,hr] at hl
  exact (Except.ok.inj hl).symm

theorem agree_bind {α β : Type} {first second : Checked α} {left right : α → Checked β}
    (h : Agree first second) (hrest : ∀ value, Agree (left value) (right value)) :
    Agree (first>>=left) (second>>=right) := by
  intro a b ha hb
  rw [bind_eq_ok] at ha hb
  obtain ⟨x,hx,ha⟩ := ha
  obtain ⟨y,hy,hb⟩ := hb
  rw [← h x y hx hy] at hb
  exact hrest x a b ha hb

theorem agree_foldlM {α β : Type} {left right : β → α → Checked β} {inputs : List α}
    (h : ∀ st, ∀ input∈inputs, Agree (left st input) (right st input)) (st : β) :
    Agree (inputs.foldlM left st) (inputs.foldlM right st) := by
  induction inputs generalizing st with
  | nil => exact agree_of_eq rfl
  | cons input inputs ih =>
    rw [foldlM_cons,foldlM_cons]
    exact agree_bind (h st input mem_cons_self)
      (fun next => ih (fun other rest hm => h other rest (mem_cons_of_mem _ hm)) next)

/-- Lists of the quorums whose commitments a transaction has. -/
def quorumHashes (tx : CTransaction) : List Uint256 :=
  if tx.nVersion=3 ∧ tx.nType=.quorumCommitment then
    match tx.getFinalCommitment with
    | none => []
    | some qc => if isNull qc.commitment then [] else [qc.commitment.quorumHash]
  else []

/-- What a transaction does depends on the rules and on the lists of its quorums; coins only decide
whether it is rejected. -/
theorem applyTx_agree {first second : NodeContext} (hrules : SameRules first second)
    {left right : ChainView} (hchain : left.chain=right.chain) {tx : CTransaction}
    (hlists : ∀ quorumHash∈quorumHashes tx,
      left.getListForBlock quorumHash=right.getListForBlock quorumHash)
    (list : CDeterministicMNList) :
    Agree (applyTx first left list tx) (applyTx second right list tx) := by
  obtain ⟨hnetwork,hserialize,hsha,hscore,-⟩ := hrules
  cases first
  cases second
  cases left
  cases right
  dsimp only at hnetwork hserialize hsha hscore hchain hlists
  subst hnetwork hserialize hsha hscore hchain
  unfold applyTx
  split_ifs with hver
  · exact agree_of_eq rfl
  · cases htype : tx.nType with
    | normal => exact agree_of_eq rfl
    | coinbase => exact agree_of_eq rfl
    | unknown nType => exact agree_of_eq rfl
    | providerUpdateService => exact agree_of_eq rfl
    | providerUpdateRegistrar => exact agree_of_eq rfl
    | providerUpdateRevoke => exact agree_of_eq rfl
    | providerRegister =>
      cases tx.getProRegTx with
      | none => exact agree_of_eq rfl
      | some proTx => exact agree_bind (fun _ _ _ _ => rfl) (fun _ => agree_of_eq rfl)
    | quorumCommitment =>
      cases hpayload : tx.getFinalCommitment with
      | none => exact agree_of_eq rfl
      | some qc =>
        refine agree_of_eq ?_
        dsimp only [withPayload]
        unfold applyCommitment
        split_ifs with hnull
        · rfl
        · have hsame := hlists qc.commitment.quorumHash (by
            rw [quorumHashes,if_pos ⟨not_not.mp hver,htype⟩,hpayload]
            dsimp only
            rw [if_neg hnull]
            exact mem_singleton_self _)
          unfold handleQuorumCommitment getAllQuorumMembers
          dsimp only
          rw [hsame]
          rfl

theorem buildNewListFromBlock_agree {first second : NodeContext} (hrules : SameRules first second)
    {left right : ChainView} (hchain : left.chain=right.chain)
    (hlist : left.mnList=right.mnList)
    (hlists : ∀ tx∈listTxs block, ∀ quorumHash∈quorumHashes tx,
      left.getListForBlock quorumHash=right.getListForBlock quorumHash) :
    Agree (buildNewListFromBlock first left block) (buildNewListFromBlock second right block) := by
  have hheight : left.nHeight=right.nHeight := by rw [ChainView.nHeight,hchain,ChainView.nHeight]
  have hhash : left.blockHash=right.blockHash := by
    rw [ChainView.blockHash,hchain,ChainView.blockHash]
  have hprepare : prepareNewList first left=prepareNewList second right := by
    unfold prepareNewList
    rw [hlist,hheight]
    obtain ⟨hnetwork,hserialize,hsha,-,-⟩ := hrules
    unfold confirmMN decreasePoSePenalties poSeDecrease
    rw [hnetwork,hserialize,hsha,hheight,hhash]
  refine agree_bind (agree_of_eq hprepare) (fun prepared => ?_)
  refine agree_bind
    (agree_foldlM (fun list tx hm => applyTx_agree hrules hchain (hlists tx hm) list)
    prepared) (fun applied => agree_of_eq ?_)
  unfold removeSpentCollateral payMN
  rw [hrules.serializeHash,hheight,hlist]

/-- A diff is built that leads from the list of the previous block to that of a checked block. -/
theorem buildNewListFromBlock_diff {ctx : NodeContext} {view : ChainView} {block : CBlock}
    {next : CDeterministicMNList} (hinj : Function.Injective ctx.serializeHash)
    (hlist : BuiltList ctx.serializeHash view.chain view.mnList)
    (hheight : view.mnList.nHeight=view.nHeight)
    (hchecks : ∀ tx∈block.vtx, checkSpecialTx ctx view tx=.ok ())
    (hnodup : (listTxHashes (view.chain++[block])).Nodup) (hzero : ∀ tx∈listTxs block, tx.hash≠0)
    (hnext : buildNewListFromBlock ctx view block=.ok next) (blockHash : Uint256) :
    view.mnList.applyDiff ctx.serializeHash
        (view.mnList.buildDiff { next with blockHash := blockHash })=
      .ok { next with blockHash := blockHash } := by
  obtain ⟨hgood,hkeys⟩ := builtList_good hinj hlist
  have hfresh : ∀ tx∈listTxs block, (registryOf view.mnList).find tx.hash=none := by
    intro tx hm
    rw [← contains_eq_false,← Bool.not_eq_true]
    intro hknown
    rw [listTxHashes,flatMap_append,nodup_append] at hnodup
    refine hnodup.2.2 _ (hkeys _ hknown) _ ?_ rfl
    rw [flatMap_singleton]
    exact mem_map_of_mem hm
  have hsucceeds := buildNewListFromBlock_succeeds hinj hgood hchecks hzero hfresh hnext blockHash
  refine applyDiff_buildDiff hinj hsucceeds ?_
  have hcontinues := (buildNewListFromBlock_continues hgood.exact hnext).2
  rw [hheight]
  exact hcontinues.sameBlock.2

/-- The next list after two registrar updates. -/
theorem buildNewListFromBlock_diff_sample :
    ∃ next, buildNewListFromBlock sampleNode registeredView (rekeyBlock 998 999)=.ok next ∧
      registeredView.mnList.applyDiff propertyCode
          (registeredView.mnList.buildDiff { next with blockHash := 1002 })=
        .ok { next with blockHash := 1002 } := by
  obtain ⟨next,hnext⟩ := exists_ok (show (buildNewListFromBlock sampleNode registeredView
    (rekeyBlock 998 999)).toOption.isSome=true by decide)
  exact ⟨next,hnext,buildNewListFromBlock_diff propertyCode_injective builtList_registered
    (by decide) (by decide) (by decide) (by decide) hnext 1002⟩

/-- Service update of a masternode to the address of a registration. -/
def sampleServe (hash : Uint256) (index target : ℕ) : CTransaction where
  nVersion := 3
  nType := .providerUpdateService
  vin := [{ prevout := ⟨700+hash,0⟩ }]
  vExtraPayload := .proUpServ
    { proTxHash := index
      addr := (sampleProRegTx target).addr }
  hash := hash
  payload_special := fun h => absurd h (by decide)

/-- Two masternodes exchange their addresses by way of a third one. -/
def swapBlock : CBlock :=
  ⟨1002,0,[sampleCoinbase 4,sampleServe 11 1 3,sampleServe 12 2 1,sampleServe 13 1 2]⟩

/-- A list can be built from an exchange of addresses, but its diff can not be applied. -/
theorem buildNewListFromBlock_diff_swap :
    BuiltList propertyCode registeredView.chain registeredView.mnList ∧
    registeredView.mnList.nHeight=registeredView.nHeight ∧
    (buildNewListFromBlock sampleNode registeredView swapBlock).toOption.isSome=true ∧
    (buildNewListFromBlock sampleNode registeredView swapBlock).bind (fun next =>
        registeredView.mnList.applyDiff propertyCode
          (registeredView.mnList.buildDiff { next with blockHash := 1002 }))=
      .error (.assertion .addUniqueProperty) :=
  ⟨builtList_registered,by decide,by decide,by decide⟩

end Pyrk.ListSuccession
