import Pyrk.ListSuccession

/-!
# Heights in masternode lists

Heights of registrations, payments and revivals are heights of blocks that a
list was built from. None of them is above the height of the list.
-/

namespace Pyrk.ListHeights

open Transaction DeterministicMNList ProviderTx BuildNewList OrderedMap

/-- Heights of a state that are not above a bound. -/
structure UpTo (bound : ℤ) (st : CDeterministicMNState) : Prop where
  lastPaid : st.nLastPaidHeight≤bound
  registered : st.nRegisteredHeight≤bound
  revived : st.nPoSeRevivedHeight≤bound

/-- Exact lists with heights up to a bound. -/
structure RecordedList (serializeHash : UniqueProperty → Uint256) (bound : ℤ)
    (list : CDeterministicMNList) : Prop where
  exact : ExactList serializeHash list
  upTo : ∀ proTxHash dmn, list.mnMap.find proTxHash=some dmn → UpTo bound dmn.pdmnState

/-- If the code returns a list, its heights are up to a bound. -/
def Records (serializeHash : UniqueProperty → Uint256) (bound : ℤ)
    (result : Checked CDeterministicMNList) : Prop :=
  ∀ next, result=.ok next → RecordedList serializeHash bound next

section Rules

variable {serializeHash : UniqueProperty → Uint256} {bound : ℤ} {list : CDeterministicMNList}

theorem records_ok (h : RecordedList serializeHash bound list) :
    Records serializeHash bound (.ok list) := by
  intro next hnext
  cases hnext
  exact h

theorem records_error (abort : Abort) : Records serializeHash bound (.error abort) :=
  fun _ hnext => by cases hnext

theorem records_value {α : Type} {first : Checked α} {rest : α → Checked CDeterministicMNList}
    (h : ∀ value, first=.ok value → Records serializeHash bound (rest value)) :
    Records serializeHash bound (first>>=rest) := by
  intro next hnext
  rw [bind_eq_ok] at hnext
  obtain ⟨value,hvalue,hrest⟩ := hnext
  exact h value hvalue next hrest

theorem records_bind {first : Checked CDeterministicMNList}
    {rest : CDeterministicMNList → Checked CDeterministicMNList}
    (hfirst : Records serializeHash bound first)
    (hrest : ∀ middle, RecordedList serializeHash bound middle →
      Records serializeHash bound (rest middle)) :
    Records serializeHash bound (first>>=rest) :=
  records_value (fun middle hmid => hrest middle (hfirst middle hmid))

theorem records_foldlM {α : Type}
    {step : CDeterministicMNList → α → Checked CDeterministicMNList} {inputs : List α}
    (hstep : ∀ middle, RecordedList serializeHash bound middle → ∀ input∈inputs,
      Records serializeHash bound (step middle input))
    (h : RecordedList serializeHash bound list) :
    Records serializeHash bound (inputs.foldlM step list) := by
  intro next hnext
  refine foldlM_invariant ?_ h hnext
  intro st after input hm hstate hafter
  exact hstep st hstate input hm after hafter

section

variable (h : RecordedList serializeHash bound list)

include h

theorem records_updateMN (proTxHash : Uint256)
    {pdmnState : CDeterministicMNState} (hstate : UpTo bound pdmnState) :
    Records serializeHash bound (list.updateMN serializeHash proTxHash pdmnState) := by
  intro next hnext
  obtain ⟨dmn,hdmn,⟨map,rfl⟩,hexact⟩ := CDeterministicMNList.updateMN_exact h.exact hnext
  refine ⟨hexact,fun other found hf => ?_⟩
  rw [find_set] at hf
  split_ifs at hf
  · cases hf
    exact hstate
  · exact h.upTo other found hf

theorem records_removeMN (proTxHash : Uint256) :
    Records serializeHash bound (list.removeMN serializeHash proTxHash) := by
  intro next hnext
  obtain ⟨-,⟨map,rfl⟩,hexact⟩ := CDeterministicMNList.removeMN_exact h.exact hnext
  refine ⟨hexact,fun other found hf => ?_⟩
  rw [find_erase] at hf
  split_ifs at hf
  exact h.upTo other found hf

theorem records_addMN {dmn : CDeterministicMN}
    (hstate : UpTo bound dmn.pdmnState) :
    Records serializeHash bound (list.addMN serializeHash dmn) := by
  intro next hnext
  obtain ⟨-,-,-,⟨map,rfl⟩,hexact⟩ := CDeterministicMNList.addMN_exact h.exact hnext
  refine ⟨hexact,fun other found hf => ?_⟩
  rw [find_set] at hf
  split_ifs at hf
  · cases hf
    exact hstate
  · exact h.upTo other found hf

end

end Rules

section Build

variable {ctx : NodeContext} {view : ChainView} {list : CDeterministicMNList}

theorem UpTo.congr {bound : ℤ} {first second : CDeterministicMNState} (h : UpTo bound first)
    (hpaid : second.nLastPaidHeight=first.nLastPaidHeight)
    (hregd : second.nRegisteredHeight=first.nRegisteredHeight)
    (hrevived : second.nPoSeRevivedHeight=first.nPoSeRevivedHeight) : UpTo bound second :=
  ⟨hpaid ▸ h.lastPaid,hregd ▸ h.registered,hrevived ▸ h.revived⟩

variable {st : CDeterministicMNState}

theorem UpTo.banIfNotBanned {bound : ℤ} (h : UpTo bound st)
    (height : ℤ) : UpTo bound (st.resetOperatorFields.banIfNotBanned height) := by
  unfold CDeterministicMNState.banIfNotBanned
  split_ifs <;> exact h.congr rfl rfl rfl

theorem UpTo.servedState {bound : ℤ} (h : UpTo bound st)
    (proTx : CProUpServTx) : UpTo bound (servedState bound proTx st) := by
  unfold BuildNewList.servedState
  split_ifs
  · exact ⟨h.lastPaid,h.registered,le_refl _⟩
  · exact h.congr rfl rfl rfl

theorem UpTo.registrarState {bound : ℤ} (h : UpTo bound st)
    (height : ℤ) (proTx : CProUpRegTx) : UpTo bound (registrarState height proTx st) := by
  unfold BuildNewList.registrarState
  split_ifs
  · exact (h.banIfNotBanned height).congr rfl rfl rfl
  · exact h.congr rfl rfl rfl

theorem records_punishMember {bound : ℤ} (h : RecordedList ctx.serializeHash bound list)
    (qc : CFinalCommitment) (member : CDeterministicMN×ℕ) :
    Records ctx.serializeHash bound (punishMember ctx qc list member) := by
  unfold punishMember
  split_ifs
  · exact records_ok h
  · split
    · exact records_error _
    · split_ifs
      · exact records_ok h
      · refine records_value (fun penalty _ => records_value (fun _ _ => ?_))
        split
        · exact records_error _
        · rename_i dmn hdmn
          exact records_updateMN h _ ((h.upTo _ dmn hdmn).congr rfl rfl rfl)

theorem records_applyTx (h : RecordedList ctx.serializeHash (view.nHeight+1) list)
    (hheight : 0≤view.nHeight+1) (tx : CTransaction) :
    Records ctx.serializeHash (view.nHeight+1) (applyTx ctx view list tx) := by
  have hpayload : ∀ {α : Type} {payload : Option α} {apply : α → Checked CDeterministicMNList},
      (∀ value, Records ctx.serializeHash (view.nHeight+1) (apply value)) →
      Records ctx.serializeHash (view.nHeight+1) (withPayload payload apply) := by
    intro α payload apply hall
    cases payload with
    | none => exact records_error _
    | some value => exact hall value
  have hfound : ∀ {proTxHash : Uint256} {dmn : CDeterministicMN} {dos : ℕ} {reason : String},
      orReject (list.getMN proTxHash) dos reason=.ok dmn → UpTo (view.nHeight+1) dmn.pdmnState := by
    intro proTxHash dmn dos reason hdmn
    unfold orReject at hdmn
    split at hdmn
    · cases hdmn
    · rename_i found hfound
      cases hdmn
      exact h.upTo _ _ hfound
  unfold applyTx
  split_ifs
  · exact records_ok h
  · split
    · refine hpayload (fun proTx => records_value (fun _ _ => ?_))
      have hrepl : Records ctx.serializeHash (view.nHeight+1)
          (removeReplaced ctx list (collateralOutpoint tx proTx)) := by
        unfold removeReplaced
        split
        · exact records_ok h
        · exact records_removeMN h _
      refine records_bind hrepl (fun middle hmid => ?_)
      refine records_value (fun _ _ => records_value (fun _ _ => records_addMN hmid ?_))
      exact ⟨hheight,le_refl _,by change -1≤view.nHeight+1; omega⟩
    · refine hpayload (fun proTx => records_value (fun _ _ => records_value (fun _ _ => ?_)))
      exact records_value (fun dmn hdmn => records_updateMN h _ ((hfound hdmn).servedState _))
    · exact hpayload (fun proTx => records_value (fun dmn hdmn =>
        records_updateMN h _ ((hfound hdmn).registrarState _ _)))
    · exact hpayload (fun proTx => records_value (fun dmn hdmn =>
        records_updateMN h _ (((hfound hdmn).banIfNotBanned _).congr rfl rfl rfl)))
    · refine hpayload (fun qc => ?_)
      unfold applyCommitment
      split_ifs
      · exact records_ok h
      · exact records_foldlM (fun middle hmid member _ => records_punishMember hmid _ _) h
    · exact records_ok h

theorem buildNewListFromBlock_records {block : CBlock}
    (h : RecordedList ctx.serializeHash view.nHeight view.mnList)
    (hheight : 0≤view.nHeight+1) :
    Records ctx.serializeHash (view.nHeight+1) (buildNewListFromBlock ctx view block) := by
  have hmore : ∀ {st : CDeterministicMNState}, UpTo view.nHeight st →
      UpTo (view.nHeight+1) st := by
    intro st hstate
    obtain ⟨hpaid,hregd,hrevived⟩ := hstate
    exact ⟨by omega,by omega,by omega⟩
  have hstart : RecordedList ctx.serializeHash (view.nHeight+1)
      { view.mnList with blockHash := 0, nHeight := view.nHeight+1 } :=
    ⟨⟨h.exact.keyed,h.exact.exact⟩,fun _ _ hf => hmore (h.upTo _ _ hf)⟩
  refine records_bind (records_bind (records_foldlM ?_ hstart) ?_) (fun prepared hprepared => ?_)
  · intro middle hmid dmn hm
    unfold confirmMN
    split_ifs
    · exact records_ok hmid
    · dsimp only
      split_ifs
      · exact records_updateMN hmid _
          ((hmore (h.upTo _ _ (h.exact.keyed.find_of_mem hm))).congr rfl rfl rfl)
      · exact records_ok hmid
  · refine fun middle hmid => records_foldlM (fun other hother proTxHash _ => ?_) hmid
    unfold poSeDecrease
    split
    · exact records_error _
    · rename_i dmn hdmn
      exact records_value (fun _ _ =>
        records_updateMN hother _ ((hother.upTo _ dmn hdmn).congr rfl rfl rfl))
  · refine records_bind (records_foldlM
      (fun middle hmid tx _ => records_applyTx hmid hheight tx) hprepared)
      (fun applied happlied => ?_)
    refine records_bind (records_foldlM (fun middle hmid input _ => ?_) happlied)
      (fun removed hremoved => ?_)
    · unfold removeSpentCollateral
      split
      · exact records_ok hmid
      · split_ifs
        · exact records_removeMN hmid _
        · exact records_ok hmid
    · unfold payMN
      split
      · exact records_ok hremoved
      · split
        · exact records_ok hremoved
        · rename_i dmn hdmn
          have hstate := hremoved.upTo _ dmn hdmn
          exact records_updateMN hremoved _ ⟨le_refl _,hstate.registered,hstate.revived⟩

end Build

/-- Lists that building from blocks reaches, checked or not, with their heights. -/
inductive ReachedList (serializeHash : UniqueProperty → Uint256) :
    ℤ → CDeterministicMNList → Prop where
  | empty (nHeight listHeight : ℤ) (blockHash : Uint256) :
      ReachedList serializeHash nHeight { blockHash := blockHash, nHeight := listHeight }
  /-- The list of a block behind the first one, with its block set. -/
  | build {ctx : NodeContext} {view : ChainView} {block : CBlock}
      {next : CDeterministicMNList} (hcontext : ctx.serializeHash=serializeHash)
      (hchain : view.chain≠[]) (blockHash : Uint256) :
      ReachedList serializeHash view.nHeight view.mnList →
      buildNewListFromBlock ctx view block=.ok next →
      ReachedList serializeHash (view.nHeight+1) { next with blockHash := blockHash }

theorem ReachedList.recorded {serializeHash : UniqueProperty → Uint256} {nHeight : ℤ}
    {list : CDeterministicMNList} (h : ReachedList serializeHash nHeight list) :
    RecordedList serializeHash nHeight list ∧
      ∀ proTxHash dmn, list.mnMap.find proTxHash=some dmn → 0 < nHeight := by
  induction h with
  | empty nHeight listHeight blockHash =>
    exact ⟨⟨exactList_empty serializeHash blockHash listHeight,fun _ _ hf => by cases hf⟩,
      fun _ _ hf => by cases hf⟩
  | @build ctx view block next hcontext hchain blockHash _ hnext ih =>
    subst hcontext
    have hpos : 0≤view.nHeight := by
      have hlen := List.length_pos_iff.mpr hchain
      unfold ChainView.nHeight
      omega
    have hrec := buildNewListFromBlock_records ih.1 (by omega) next hnext
    exact ⟨⟨⟨hrec.exact.keyed,hrec.exact.exact⟩,hrec.upTo⟩,fun _ _ _ => by omega⟩

end Pyrk.ListHeights
