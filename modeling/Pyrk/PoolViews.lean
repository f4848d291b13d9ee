import Pyrk.TxMemPool

/-!
# What operations of the pool change apart from totals and links

A view of the pool leaves out totals and links. Updates of totals and links do
not change the view, and every removal takes single transactions out of it.
-/

namespace Pyrk.TxMemPool

open Transaction DeterministicMNList OrderedMap OrderedSet Function Option

/-- What an entry says of its transaction, without what was added to its fee. -/
def EntryInfo.settled (info : EntryInfo) : EntryInfo := { info with feeDelta := 0 }

/-- The pool without totals and links. -/
@[ext] structure PoolView where
  infos : Uint256 → Option EntryInfo
  maps : ProTxMaps
  spends : OrderedMap COutPoint CTransaction

/-- An entry is taken out, with what it claims and what it spends. -/
def Removed (ctx : PoolContext) (hash : Uint256) (view next : PoolView) : Prop :=
  ∃ info, view.infos hash=some info ∧
    CTxMemPool.eraseProTx ctx view.maps info.tx=.ok next.maps ∧
    next.infos=Function.update view.infos hash none ∧
    next.spends=info.tx.vin.foldl (fun spends txin => spends.erase txin.prevout) view.spends

/-- What is left was there before. -/
theorem Removed.infos_of {ctx : PoolContext} {view next : PoolView} {removed hash : Uint256}
    {info : EntryInfo} (h : Removed ctx removed view next)
    (hinfo : next.infos hash=some info) : hash≠removed ∧ view.infos hash=some info := by
  obtain ⟨_,_,_,hinfos,_⟩ := h
  by_cases he : hash=removed
  · rw [hinfos,he,update_self] at hinfo
    cases hinfo
  · rw [hinfos,update_of_ne he] at hinfo
    exact ⟨he,hinfo⟩

theorem infos_added {view next : PoolView} {hash other : Uint256} {info found : EntryInfo}
    (hinfos : next.infos=Function.update view.infos hash (some info))
    (hfound : next.infos other=some found) :
    other=hash ∧ found=info ∨ other≠hash ∧ view.infos other=some found := by
  by_cases he : other=hash
  · rw [hinfos,he,update_self] at hfound
    exact .inl ⟨he,(some.inj hfound).symm⟩
  · rw [hinfos,update_of_ne he] at hfound
    exact .inr ⟨he,hfound⟩

/-- Entries are taken out one after another. -/
def Removals (ctx : PoolContext) : PoolView → PoolView → Prop :=
  Relation.ReflTransGen (fun view next => ∃ hash, Removed ctx hash view next)

theorem Removals.infos_of {ctx : PoolContext} {view next : PoolView}
    (h : Removals ctx view next) {hash : Uint256} {info : EntryInfo}
    (hinfo : next.infos hash=some info) : view.infos hash=some info := by
  induction h with
  | refl => exact hinfo
  | tail _ hstep ih =>
    obtain ⟨removed,hremoved⟩ := hstep
    exact ih (hremoved.infos_of hinfo).2

/-- What one removal keeps, all of them keep. -/
theorem Removals.preserve {ctx : PoolContext} {P : PoolView → Prop}
    (hstep : ∀ {view next : PoolView} {hash : Uint256}, P view →
      Removed ctx hash view next → P next)
    {view next : PoolView} (h : Removals ctx view next) (hview : P view) : P next := by
  induction h with
  | refl => exact hview
  | tail _ hremoved ih =>
    obtain ⟨hash,hremoved⟩ := hremoved
    exact hstep ih hremoved

namespace CTxMemPool

def view (pool : CTxMemPool) : PoolView where
  infos := fun hash => (pool.mapTx.find hash).map (fun entry => entry.toEntryInfo.settled)
  maps := pool.toProTxMaps
  spends := pool.mapNextTx

theorem view_infos_eq_some {pool : CTxMemPool} {hash : Uint256} {info : EntryInfo} :
    pool.view.infos hash=some info ↔
      ∃ entry, pool.mapTx.find hash=some entry ∧ entry.toEntryInfo.settled=info :=
  map_eq_some_iff

theorem contains_iff_view {pool : CTxMemPool} {hash : Uint256} :
    pool.mapTx.contains hash=true ↔ ∃ info, pool.view.infos hash=some info := by
  rw [contains_iff]
  constructor
  · rintro ⟨entry,hfind⟩
    exact ⟨_,view_infos_eq_some.mpr ⟨entry,hfind,rfl⟩⟩
  · rintro ⟨info,hinfo⟩
    obtain ⟨entry,hfind,-⟩ := view_infos_eq_some.mp hinfo
    exact ⟨entry,hfind⟩

section Frame

theorem view_set {pool : CTxMemPool} {hash : Uint256} {entry next : CTxMemPoolEntry}
    (hfind : pool.mapTx.find hash=some entry)
    (hinfo : next.toEntryInfo.settled=entry.toEntryInfo.settled) :
    CTxMemPool.view { pool with mapTx := pool.mapTx.set hash next }=pool.view := by
  refine PoolView.ext ?_ rfl rfl
  funext other
  by_cases he : other=hash
  · simp [view,he,hfind,hinfo]
  · simp [view,find_set_of_ne _ _ he]

theorem view_foldl {α : Type} {step : CTxMemPool → α → CTxMemPool}
    (hstep : ∀ pool input, (step pool input).view=pool.view) (inputs : List α)
    (pool : CTxMemPool) : (inputs.foldl step pool).view=pool.view := by
  induction inputs generalizing pool with
  | nil => rfl
  | cons input inputs ih => rw [List.foldl_cons,ih,hstep]

/-- A change of an entry that keeps what it says of its transaction. -/
def KeepsInfo (change : CTxMemPoolEntry → Checked CTxMemPoolEntry) : Prop :=
  ∀ {entry next : CTxMemPoolEntry}, change entry=.ok next → next.toEntryInfo=entry.toEntryInfo

theorem keepsInfo_updateDescendantState (modifySize modifyFee modifyCount : ℤ) :
    KeepsInfo (CTxMemPoolEntry.updateDescendantState modifySize modifyFee modifyCount) := by
  intro entry next h
  simp only [CTxMemPoolEntry.updateDescendantState,bind_eq_ok] at h
  obtain ⟨_,_,_,_,h⟩ := h
  cases h
  rfl

theorem keepsInfo_updateAncestorState (modifySize modifyFee modifyCount modifySigOps : ℤ) :
    KeepsInfo
      (CTxMemPoolEntry.updateAncestorState modifySize modifyFee modifyCount modifySigOps) := by
  intro entry next h
  simp only [CTxMemPoolEntry.updateAncestorState,bind_eq_ok] at h
  obtain ⟨_,_,_,_,_,_,h⟩ := h
  cases h
  rfl

variable {pool next : CTxMemPool} {hash : Uint256}
  {change : CTxMemPoolEntry → Checked CTxMemPoolEntry}

theorem modifyEntry_ok (h : pool.modifyEntry hash change=.ok next) :
    ∃ entry changed, pool.mapTx.find hash=some entry ∧ change entry=.ok changed ∧
      next={ pool with mapTx := pool.mapTx.set hash changed } := by
  unfold modifyEntry at h
  cases hfind : pool.mapTx.find hash with
  | none => simp [hfind] at h
  | some entry =>
    rw [hfind] at h
    obtain ⟨changed,hchanged,h⟩ := bind_eq_ok.mp h
    cases h
    exact ⟨entry,changed,rfl,hchanged,rfl⟩

/-- Changed totals are not seen. -/
theorem view_modifyEntry (hchange : KeepsInfo change)
    (h : pool.modifyEntry hash change=.ok next) : next.view=pool.view := by
  obtain ⟨entry,changed,hfind,hchanged,rfl⟩ := modifyEntry_ok h
  exact view_set hfind (by rw [hchange hchanged])

theorem view_modifyEntries {hashes : List Uint256} (hchange : KeepsInfo change)
    (h : pool.modifyEntries hashes change=.ok next) : next.view=pool.view :=
  @foldlM_invariant _ _ _ _ (fun other => other.view=pool.view) _
    (fun _ hview hstep => (view_modifyEntry hchange hstep).trans hview) _ _ rfl h

variable {setAncestors : OrderedSet Uint256}

theorem view_updateAncestorsOf {add : Bool} {it : Uint256}
    (h : pool.updateAncestorsOf add it setAncestors=.ok next) :
    next.view=pool.view :=
  (view_modifyEntries (keepsInfo_updateDescendantState _ _ _) h).trans
    (@view_foldl _ (fun pool piter => pool.updateChild piter it add) (fun _ _ => rfl) _ _)

theorem view_updateEntryForAncestors {it : Uint256}
    (h : pool.updateEntryForAncestors it setAncestors=.ok next) :
    next.view=pool.view :=
  view_modifyEntry (keepsInfo_updateAncestorState _ _ _ _) h

theorem view_updateForRemoveFromMempool
    {entriesToRemove : OrderedSet Uint256} {updateDescendants : Bool}
    (h : pool.updateForRemoveFromMempool entriesToRemove updateDescendants=.ok next) :
    next.view=pool.view := by
  unfold updateForRemoveFromMempool at h
  simp only [bind_eq_ok] at h
  obtain ⟨first,hfirst,second,hsecond,h⟩ := h
  cases h
  have hchildren : ∀ (pool : CTxMemPool) (it : Uint256),
      (pool.updateChildrenForRemoval it).view=pool.view := fun _ it =>
    @view_foldl _ (fun pool child => pool.updateParent child it false) (fun _ _ => rfl) _ _
  rw [view_foldl hchildren]
  have hancestors : first.view=pool.view := by
    unfold forgetAncestors at hfirst
    split_ifs at hfirst with hupdate
    · exact @foldlM_invariant _ _ _ _ (fun other => other.view=pool.view) _
        (fun _ hview hstep => (view_modifyEntries (keepsInfo_updateAncestorState _ _ _ _)
          hstep).trans hview) _ _ rfl hfirst
    · cases hfirst
      rfl
  refine @foldlM_invariant _ _ _ _ (fun other => other.view=pool.view) _ ?_ _ _ hancestors hsecond
  intro st after hash _ hview hstep
  unfold forgetDescendant at hstep
  cases hfind : st.mapTx.find hash with
  | none => simp [hfind] at hstep
  | some entry =>
    rw [hfind] at hstep
    exact (view_updateAncestorsOf hstep).trans hview

theorem view_prioritiseTransaction {nFeeDelta : ℤ}
    (h : pool.prioritiseTransaction hash nFeeDelta=.ok next) : next.view=pool.view := by
  unfold prioritiseTransaction at h
  dsimp only at h
  cases hfind : pool.mapTx.find hash with
  | none =>
    rw [hfind] at h
    cases h
    rfl
  | some entry =>
    rw [hfind] at h
    obtain ⟨first,hfirst,h⟩ := bind_eq_ok.mp h
    rw [view_modifyEntries (keepsInfo_updateAncestorState _ _ _ _) h,
      view_modifyEntries (keepsInfo_updateDescendantState _ _ _) hfirst]
    exact @view_set { pool with
      mapDeltas := pool.mapDeltas.set hash ((pool.mapDeltas.find hash).getD 0+nFeeDelta) }
      hash entry _ hfind rfl

theorem view_updateTransactionsFromBlock {vHashesToUpdate : List Uint256}
    (h : pool.updateTransactionsFromBlock vHashesToUpdate=.ok next) : next.view=pool.view := by
  obtain ⟨result,hres,h⟩ := bind_eq_ok.mp h
  cases h
  refine @foldlM_invariant _ _ _ _ (fun st => st.1.view=pool.view) _ ?_ _ _ rfl hres
  intro st after hash _ hview hstep
  unfold updateFromBlockTx at hstep
  split_ifs at hstep with hhas
  · obtain ⟨linked,hlinked,hstep⟩ := bind_eq_ok.mp hstep
    have hlinks : linked.1.view=pool.view := by
      refine @foldlM_invariant _ _ _ _ (fun st => st.1.view=pool.view) _ ?_ _ _ hview hlinked
      intro before linkedState child _ hbefore hlink
      obtain ⟨_,_,hlink⟩ := bind_eq_ok.mp hlink
      cases hlink
      split_ifs
      · exact hbefore
      · exact hbefore
    obtain ⟨first,hfirst,hstep⟩ := bind_eq_ok.mp hstep
    obtain ⟨second,hsecond,hstep⟩ := bind_eq_ok.mp hstep
    cases hstep
    exact ((view_modifyEntry (keepsInfo_updateDescendantState _ _ _) hsecond).trans
      (view_modifyEntries (keepsInfo_updateAncestorState _ _ _ _) hfirst)).trans hlinks
  · cases hstep
    exact hview

end Frame

section Adding

variable {ctx : PoolContext}

theorem noteProTxKey_ok {info next : EntryInfo} (h : noteProTxKey ctx info=.ok next) :
    next.tx=info.tx := by
  have hnote : ∀ {proTxHash pubKeyOperator}, noteKey ctx info proTxHash pubKeyOperator=.ok next →
      next.tx=info.tx := by
    intro proTxHash pubKeyOperator hnote
    unfold noteKey at hnote
    cases hdmn : ctx.mnList.getMN proTxHash with
    | none => simp [hdmn] at hnote
    | some dmn =>
      rw [hdmn] at hnote
      cases hnote
      rfl
  unfold noteProTxKey at h
  cases htype : info.tx.nType with
  | providerUpdateRegistrar =>
    simp only [htype] at h
    cases hpayload : info.tx.getProUpRegTx with
    | none => simp [hpayload] at h
    | some proTx =>
      rw [hpayload] at h
      exact hnote h
  | providerUpdateRevoke =>
    simp only [htype] at h
    cases hpayload : info.tx.getProUpRevTx with
    | none => simp [hpayload] at h
    | some proTx =>
      rw [hpayload] at h
      exact hnote h
  | _ =>
    simp only [htype] at h
    cases h
    rfl

theorem noteProTxKey_service {info next : EntryInfo} (h : noteProTxKey ctx info=.ok next)
    (htype : info.tx.nType=.providerUpdateService) : next=info := by
  simp only [noteProTxKey,htype,Except.ok.injEq] at h
  exact h.symm

theorem settled_applyDelta (pool : CTxMemPool) (hash : Uint256) (entry : CTxMemPoolEntry) :
    (pool.applyDelta hash entry).toEntryInfo.settled=entry.toEntryInfo.settled := by
  unfold applyDelta
  split
  · rfl
  · split_ifs
    · rfl
    · rfl

/-- A new entry adds what it claims and what it spends. -/
theorem view_addUnchecked {pool next : CTxMemPool} {entry : CTxMemPoolEntry}
    {setAncestors : OrderedSet Uint256} (hnew : pool.mapTx.contains entry.tx.hash=false)
    (h : pool.addUnchecked ctx entry setAncestors=.ok next) :
    ∃ info, info.tx=entry.tx ∧
      (info.tx.nType=.providerUpdateService → info.validForProTxKey=entry.validForProTxKey) ∧
      next.view.infos=Function.update pool.view.infos entry.tx.hash (some info) ∧
      addProTx ctx pool.view.maps entry.tx=.ok next.view.maps ∧
      next.view.spends=entry.tx.vin.foldl (fun spends txin => spends.emplace txin.prevout entry.tx)
        pool.view.spends := by
  unfold addUnchecked at h
  dsimp only at h
  generalize hplaced : ({ pool with
    mapTx := pool.mapTx.emplace entry.tx.hash (pool.applyDelta entry.tx.hash entry)
    mapLinks := pool.mapLinks.emplace entry.tx.hash {}
    mapNextTx := entry.tx.vin.foldl (fun next txin => next.emplace txin.prevout entry.tx)
      pool.mapNextTx } : CTxMemPool)=placed at h
  generalize hlinked : List.foldl
    (fun (pool : CTxMemPool) phash => pool.updateParent entry.tx.hash phash true) placed
    _=linked at h
  have hlinks : linked.view=placed.view := by
    rw [← hlinked]
    exact @view_foldl _ (fun pool phash => pool.updateParent entry.tx.hash phash true)
      (fun _ _ => rfl) _ _
  obtain ⟨first,hfirst,h⟩ := bind_eq_ok.mp h
  obtain ⟨second,hsecond,h⟩ := bind_eq_ok.mp h
  obtain ⟨maps,hmaps,h⟩ := bind_eq_ok.mp h
  have hview : second.view=placed.view :=
    ((view_updateEntryForAncestors hsecond).trans (view_updateAncestorsOf hfirst)).trans hlinks
  obtain ⟨last,changed,hlast,hchanged,rfl⟩ := modifyEntry_ok h
  obtain ⟨info,hinfo,hchanged⟩ := bind_eq_ok.mp hchanged
  cases hchanged
  have hinfos : placed.view.infos=
      Function.update pool.view.infos entry.tx.hash (some entry.toEntryInfo.settled) := by
    funext other
    rw [← hplaced]
    simp only [view,find_emplace,(contains_eq_false _ _).mp hnew,getD_none]
    by_cases he : other=entry.tx.hash
    · rw [if_pos he,he,update_self,map_some,settled_applyDelta]
    · rw [if_neg he,update_of_ne he]
  have hsettled : last.toEntryInfo.settled=entry.toEntryInfo.settled := by
    have hfound : second.view.infos entry.tx.hash=some last.toEntryInfo.settled :=
      view_infos_eq_some.mpr ⟨last,hlast,rfl⟩
    rw [hview,hinfos,update_self] at hfound
    exact (some.inj hfound).symm
  have hlastTx := congrArg EntryInfo.tx hsettled
  have hlastKey := congrArg EntryInfo.validForProTxKey hsettled
  have hinfoTx := noteProTxKey_ok hinfo
  refine ⟨info.settled,hinfoTx.trans hlastTx,?_,?_,?_,?_⟩
  · intro htype
    rw [noteProTxKey_service hinfo (hinfoTx ▸ htype)]
    exact hlastKey
  · have hsecondInfos := congrArg PoolView.infos hview
    rw [hinfos] at hsecondInfos
    funext other
    by_cases he : other=entry.tx.hash
    · simp [view,he]
    · have hother := congrFun hsecondInfos other
      rw [update_of_ne he] at hother
      rw [update_of_ne he,← hother]
      simp [view,find_set_of_ne _ _ he]
  · have hsecondMaps := congrArg PoolView.maps hview
    rw [← hplaced] at hsecondMaps
    rw [show second.toProTxMaps=pool.view.maps from hsecondMaps] at hmaps
    exact hmaps
  · have hsecondSpends := congrArg PoolView.spends hview
    rw [← hplaced] at hsecondSpends
    exact hsecondSpends

end Adding

variable {ctx : PoolContext}

variable {pool next : CTxMemPool}

/-- One entry is removed from all indexes. -/
theorem removed_removeUnchecked {it : Uint256}
    (h : pool.removeUnchecked ctx it=.ok next) : Removed ctx it pool.view next.view := by
  unfold removeUnchecked at h
  cases hfind : pool.mapTx.find it with
  | none => simp [hfind] at h
  | some entry =>
    rw [hfind] at h
    obtain ⟨maps,hmaps,h⟩ := bind_eq_ok.mp h
    cases h
    refine ⟨entry.toEntryInfo.settled,view_infos_eq_some.mpr ⟨entry,hfind,rfl⟩,hmaps,?_,rfl⟩
    funext other
    by_cases he : other=it
    · simp [view,he]
    · simp [view,he,find_erase_of_ne _ he]

/-- A loop whose rounds remove entries. -/
theorem removals_foldlM {α : Type} {step : CTxMemPool → α → Checked CTxMemPool}
    (hstep : ∀ {pool next : CTxMemPool} {input : α}, step pool input=.ok next →
      Removals ctx pool.view next.view) {inputs : List α}
    (h : inputs.foldlM step pool=.ok next) : Removals ctx pool.view next.view := by
  have hstart : Removals ctx pool.view pool.view := Relation.ReflTransGen.refl
  refine @foldlM_invariant _ _ _ _ (fun other => Removals ctx pool.view other.view) _ ?_ _ _
    hstart h
  intro st after input _ hview hnext
  have hlast := hstep hnext
  exact hview.trans hlast

theorem removals_removeStaged {stage : OrderedSet Uint256}
    {updateDescendants : Bool} (h : pool.removeStaged ctx stage updateDescendants=.ok next) :
    Removals ctx pool.view next.view := by
  obtain ⟨updated,hupdated,h⟩ := bind_eq_ok.mp h
  rw [← view_updateForRemoveFromMempool hupdated]
  exact removals_foldlM (fun hstep => Relation.ReflTransGen.single
    ⟨_,removed_removeUnchecked hstep⟩) h

/-- Staged entries are gone. -/
theorem infos_removeStaged {stage : OrderedSet Uint256}
    {updateDescendants : Bool} (h : pool.removeStaged ctx stage updateDescendants=.ok next)
    (hash : Uint256) :
    next.view.infos hash=if hash∈stage then none else pool.view.infos hash := by
  obtain ⟨updated,hupdated,h⟩ := bind_eq_ok.mp h
  have hview := view_updateForRemoveFromMempool hupdated
  simp only [← mem_items,← hview]
  clear hview hupdated
  generalize stage.items=items at h ⊢
  induction items generalizing updated with
  | nil =>
    cases h
    simp
  | cons first rest ih =>
    rw [List.foldlM_cons,bind_eq_ok] at h
    obtain ⟨middle,hmid,hrest⟩ := h
    obtain ⟨_,_,_,hinfos,_⟩ := removed_removeUnchecked hmid
    rw [ih middle hrest,hinfos]
    by_cases he : hash=first
    · simp [he]
    · simp [he]

/-- A walk keeps what it has reached. -/
theorem mem_walk_of_mem {next : Uint256 → List Uint256} {key : Uint256} {rounds : ℕ}
    {stage seen : OrderedSet Uint256} (h : key∈seen) : key∈Walk.walk next rounds stage seen := by
  induction rounds generalizing stage seen with
  | zero => exact h
  | succ rounds ih =>
    unfold Walk.walk
    split
    · exact h
    · exact ih (mem_insert.mpr (.inr h))

variable {setDescendants : OrderedSet Uint256}

theorem mem_calculateDescendants_self {hash : Uint256} (h : pool.mapTx.contains hash=true) :
    hash∈pool.calculateDescendants hash setDescendants := by
  unfold calculateDescendants
  by_cases hin : hash∈setDescendants
  · exact mem_walk_of_mem hin
  · have hnot : setDescendants.contains hash=false := Bool.not_eq_true _ ▸ hin
    rw [hnot]
    obtain ⟨entry,hentry⟩ := (contains_iff _ _).mp h
    have hpos := List.length_pos_of_mem ((pool.mapTx.mem_entries_iff _ _).mpr hentry)
    obtain ⟨rounds,hrounds⟩ := Nat.exists_eq_succ_of_ne_zero (Nat.ne_of_gt hpos)
    have hsize : pool.mapTx.size=rounds+1 := hrounds
    have hstage : ∀ other, other∈(OrderedSet.empty.insert hash).items → other=hash := by simp
    have hmem : hash∈(OrderedSet.empty.insert hash).items := by simp
    rw [hsize,if_neg Bool.false_ne_true]
    unfold Walk.walk
    cases hitems : (OrderedSet.empty.insert hash).items with
    | nil => simp [hitems] at hmem
    | cons first rest =>
      have hfirst := hstage first (hitems ▸ List.mem_cons_self)
      exact mem_walk_of_mem (mem_insert.mpr (.inl hfirst.symm))

theorem mem_calculateDescendants_of_mem {hash other : Uint256} (h : other∈setDescendants) :
    other∈pool.calculateDescendants hash setDescendants := mem_walk_of_mem h

theorem mem_withDescendants_self {hashes : List Uint256} {hash : Uint256}
    (hm : hash∈hashes) (h : pool.mapTx.contains hash=true) : hash∈pool.withDescendants hashes := by
  have hrest : ∀ (rest : List Uint256) (stage : OrderedSet Uint256), hash∈stage →
      hash∈rest.foldl (fun stage hash => pool.calculateDescendants hash stage) stage := by
    intro rest
    induction rest with
    | nil => exact fun _ hstage => hstage
    | cons first rest ih => exact fun _ hstage => ih _ (mem_calculateDescendants_of_mem hstage)
  unfold withDescendants
  generalize (.empty : OrderedSet Uint256)=stage
  induction hashes generalizing stage with
  | nil => cases hm
  | cons first rest ih =>
    rw [List.foldl_cons]
    rcases List.mem_cons.mp hm with rfl | hm
    · exact hrest rest _ (mem_calculateDescendants_self h)
    · exact ih hm _

variable {tx : CTransaction}

/-- A transaction leaves with its descendants. -/
theorem removals_removeRecursive
    (h : pool.removeRecursive ctx tx=.ok next) : Removals ctx pool.view next.view := by
  obtain ⟨_,_,h⟩ := bind_eq_ok.mp h
  exact removals_removeStaged h

/-- The transaction itself is gone. -/
theorem infos_removeRecursive_self (hhas : pool.mapTx.contains tx.hash=true)
    (h : pool.removeRecursive ctx tx=.ok next) : next.view.infos tx.hash=none := by
  obtain ⟨_,_,h⟩ := bind_eq_ok.mp h
  rw [hhas,if_pos rfl] at h
  rw [infos_removeStaged h,if_pos (mem_withDescendants_self (List.mem_singleton.mpr rfl) hhas)]

theorem removals_removeForReorg {rules : ReorgRules}
    (h : pool.removeForReorg ctx rules=.ok next) : Removals ctx pool.view next.view :=
  removals_removeStaged h

theorem removals_removeMined
    (h : pool.removeMined ctx tx=.ok next) : Removals ctx pool.view next.view := by
  unfold removeMined at h
  split_ifs at h with hhas
  · exact removals_removeStaged h
  · cases h
    exact Relation.ReflTransGen.refl

theorem infos_removeMined
    (h : pool.removeMined ctx tx=.ok next) : next.view.infos tx.hash=none := by
  unfold removeMined at h
  split_ifs at h with hhas
  · rw [infos_removeStaged h,if_pos (mem_insert.mpr (.inl rfl))]
  · cases h
    cases hinfo : pool.view.infos tx.hash with
    | none => rfl
    | some info => exact absurd (contains_iff_view.mpr ⟨info,hinfo⟩) hhas

/-- Transactions that spend the same coins leave. -/
theorem removals_removeConflicts
    (h : pool.removeConflicts ctx tx=.ok next) : Removals ctx pool.view next.view := by
  refine removals_foldlM ?_ h
  intro st after txin hstep
  unfold removeConflict at hstep
  cases hfind : st.mapNextTx.find txin.prevout with
  | none =>
    rw [hfind] at hstep
    cases hstep
    exact Relation.ReflTransGen.refl
  | some txConflict =>
    rw [hfind] at hstep
    dsimp only at hstep
    split_ifs at hstep with hsame
    · cases hstep
      exact Relation.ReflTransGen.refl
    · have hremoved := removals_removeRecursive hstep
      exact hremoved

theorem removals_removeClaimed
    {claimed : Option Uint256} (h : pool.removeClaimed ctx tx claimed=.ok next) :
    Removals ctx pool.view next.view := by
  unfold removeClaimed at h
  cases claimed with
  | none =>
    cases h
    exact Relation.ReflTransGen.refl
  | some conflictHash =>
    dsimp only at h
    split_ifs at h with hsame
    · cases h
      exact Relation.ReflTransGen.refl
    · cases hfind : pool.mapTx.find conflictHash with
      | none =>
        rw [hfind] at h
        cases h
        exact Relation.ReflTransGen.refl
      | some entry =>
        rw [hfind] at h
        exact removals_removeRecursive h

theorem removals_removeProTxKeyChangedConflicts {proTxHash newKeyHash : Uint256}
    (h : pool.removeProTxKeyChangedConflicts ctx proTxHash newKeyHash=.ok next) :
    Removals ctx pool.view next.view := by
  refine removals_foldlM ?_ h
  intro st after txHash hstep
  cases hfind : st.mapTx.find txHash with
  | none => simp [hfind] at hstep
  | some entry =>
    rw [hfind] at hstep
    exact removals_removeRecursive hstep

theorem removals_expire {isLocked : Uint256 → Bool} {time : ℤ}
    {result : ℕ×CTxMemPool} (h : pool.expire ctx isLocked time=.ok result) :
    Removals ctx pool.view result.2.view := by
  obtain ⟨after,hafter,h⟩ := bind_eq_ok.mp h
  cases h
  exact removals_removeStaged hafter

theorem removals_trimToSize
    {before : CTxMemPoolEntry → CTxMemPoolEntry → Bool} {dynamicMemoryUsage : CTxMemPool → ℕ}
    {sizelimit : ℕ} {result : List COutPoint×CTxMemPool}
    (h : trimToSize ctx before dynamicMemoryUsage sizelimit pool=.ok result) :
    Removals ctx pool.view result.2.view := by
  unfold trimToSize at h
  generalize pool.mapTx.size=rounds at h
  induction rounds generalizing pool result with
  | zero =>
    cases h
    exact Relation.ReflTransGen.refl
  | succ rounds ih =>
    unfold trimRounds at h
    split_ifs at h with hsmall
    · cases h
      exact Relation.ReflTransGen.refl
    · cases hfirst : firstEntry before pool.mapTx.entries with
      | none =>
        rw [hfirst] at h
        cases h
        exact Relation.ReflTransGen.refl
      | some it =>
        rw [hfirst] at h
        obtain ⟨after,hafter,h⟩ := bind_eq_ok.mp h
        obtain ⟨rest,hrest,h⟩ := bind_eq_ok.mp h
        cases h
        have hlast := ih hrest
        exact (removals_removeStaged hafter).trans hlast

end CTxMemPool

end Pyrk.TxMemPool
