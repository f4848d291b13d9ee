import Pyrk.PoolEvictions

/-!
# Updates of a masternode that spend each other

A block that replaces an operator key takes out the updates that were valid for another one, in the
order of their hashes. Each is looked up again, and one that left with an earlier one is not found.
-/

namespace Pyrk.TxMemPool

open Transaction DeterministicMNList OrderedMap OrderedSet Option CTxMemPool List

section Links

variable {ctx : PoolContext} {pool next : CTxMemPool}

/-- An assertion on totals, links or payloads of the pool failed. -/
def BookkeepingFailure (failure : Abort) : Prop :=
  failure=.assertion .mempoolEntry ∨ failure=.assertion .descendantState ∨
    failure=.assertion .ancestorState ∨ failure=.assertion .txPayload

/-- A removal adds no child to an entry, or an assertion on the pool stops it. -/
def Shrinks (pool : CTxMemPool) : Checked CTxMemPool → Prop
  | .ok next => ∀ hash child, child∈next.getMemPoolChildren hash →
      child∈pool.getMemPoolChildren hash
  | .error failure => BookkeepingFailure failure

theorem shrinks_of_links (h : next.mapLinks=pool.mapLinks) : Shrinks pool (.ok next) := by
  intro hash child hm
  unfold getMemPoolChildren linksOf at hm ⊢
  rwa [h] at hm

theorem Shrinks.trans {result : Checked CTxMemPool} (h : Shrinks pool (.ok next))
    (hres : Shrinks next result) : Shrinks pool result := by
  cases result with
  | error failure => exact hres
  | ok last => exact fun hash child hm => h hash child (hres hash child hm)

theorem shrinks_bind {first : Checked CTxMemPool} {rest : CTxMemPool → Checked CTxMemPool}
    (hfirst : Shrinks pool first) (hrest : ∀ next, first=.ok next → Shrinks next (rest next)) :
    Shrinks pool (first>>=rest) := by
  cases first with
  | error failure => exact hfirst
  | ok next => exact hfirst.trans (hrest next rfl)

theorem shrinks_foldlM {α : Type} {step : CTxMemPool → α → Checked CTxMemPool}
    (hstep : ∀ pool input, Shrinks pool (step pool input)) (inputs : List α)
    (pool : CTxMemPool) : Shrinks pool (inputs.foldlM step pool) := by
  induction inputs generalizing pool with
  | nil => exact shrinks_of_links rfl
  | cons input inputs ih =>
    rw [foldlM_cons]
    exact shrinks_bind (hstep pool input) (fun next _ => ih next)

theorem shrinks_foldl {α : Type} {step : CTxMemPool → α → CTxMemPool}
    (hstep : ∀ pool input, Shrinks pool (.ok (step pool input))) (inputs : List α)
    (pool : CTxMemPool) : Shrinks pool (.ok (inputs.foldl step pool)) := by
  induction inputs generalizing pool with
  | nil => exact shrinks_of_links rfl
  | cons input inputs ih =>
    rw [foldl_cons]
    exact (hstep pool input).trans (ih _)

theorem failure_of_assertThat {α : Type} {site : AssertSite} {condition : Bool}
    {rest : Unit → Checked α} {failure : Abort}
    (h : (assertThat site condition>>=rest)=.error failure) :
    failure=.assertion site ∨ rest ()=.error failure := by
  cases condition with
  | false =>
    cases h
    exact .inl rfl
  | true => exact .inr h

/-- A change of totals stops at no other assertion. -/
def ChangesTotals (change : CTxMemPoolEntry → Checked CTxMemPoolEntry) : Prop :=
  ∀ entry failure, change entry=.error failure → BookkeepingFailure failure

theorem changesTotals_updateDescendantState (modifySize modifyFee modifyCount : ℤ) :
    ChangesTotals
      (CTxMemPoolEntry.updateDescendantState modifySize modifyFee modifyCount) := by
  intro entry failure h
  rcases failure_of_assertThat h with hsize | h
  · exact .inr (.inl hsize)
  · rcases failure_of_assertThat h with hcount | h
    · exact .inr (.inl hcount)
    · cases h

theorem changesTotals_updateAncestorState (modifySize modifyFee modifyCount modifySigOps : ℤ) :
    ChangesTotals
      (CTxMemPoolEntry.updateAncestorState modifySize modifyFee modifyCount modifySigOps) := by
  intro entry failure h
  rcases failure_of_assertThat h with hsize | h
  · exact .inr (.inr (.inl hsize))
  · rcases failure_of_assertThat h with hcount | h
    · exact .inr (.inr (.inl hcount))
    · rcases failure_of_assertThat h with hsigops | h
      · exact .inr (.inr (.inl hsigops))
      · cases h

theorem shrinks_modifyEntries {change : CTxMemPoolEntry → Checked CTxMemPoolEntry}
    (hchange : ChangesTotals change) (hashes : List Uint256) (pool : CTxMemPool) :
    Shrinks pool (pool.modifyEntries hashes change) := by
  refine shrinks_foldlM (fun st hash => ?_) hashes pool
  unfold modifyEntry
  cases hfind : st.mapTx.find hash with
  | none => exact .inl rfl
  | some entry =>
    dsimp only
    cases hchanged : change entry with
    | error failure => exact hchange entry failure hchanged
    | ok changed => exact shrinks_of_links rfl

theorem shrinks_updateChild (entry child : Uint256) :
    Shrinks pool (.ok (pool.updateChild entry child false)) := by
  intro hash other hm
  by_cases he : hash=entry
  · simp [updateChild,modifyLinks,getMemPoolChildren,linksOf,he] at hm ⊢
    exact hm.2
  · simpa [updateChild,modifyLinks,getMemPoolChildren,linksOf,find_set_of_ne _ _ he] using hm

theorem shrinks_updateParent (entry parent : Uint256) :
    Shrinks pool (.ok (pool.updateParent entry parent false)) := by
  intro hash other hm
  by_cases he : hash=entry
  · simpa [updateParent,modifyLinks,getMemPoolChildren,linksOf,he] using hm
  · simpa [updateParent,modifyLinks,getMemPoolChildren,linksOf,find_set_of_ne _ _ he] using hm

theorem shrinks_removeUnchecked (pool : CTxMemPool) (it : Uint256) :
    Shrinks pool (pool.removeUnchecked ctx it) := by
  unfold removeUnchecked
  cases hfind : pool.mapTx.find it with
  | none => exact .inl rfl
  | some entry =>
    dsimp only
    cases hmaps : eraseProTx ctx pool.toProTxMaps entry.tx with
    | error failure =>
      have hpayload : failure=.assertion .txPayload := by
        unfold eraseProTx at hmaps
        grind
      exact .inr (.inr (.inr hpayload))
    | ok maps =>
      intro hash child hm
      by_cases he : hash=it
      · simp [getMemPoolChildren,linksOf,he] at hm
      · simpa [getMemPoolChildren,linksOf,find_erase_of_ne _ he] using hm

theorem shrinks_removeStaged (stage : OrderedSet Uint256) (updateDescendants : Bool)
    (pool : CTxMemPool) : Shrinks pool (pool.removeStaged ctx stage updateDescendants) := by
  refine shrinks_bind ?_ (fun next _ => shrinks_foldlM shrinks_removeUnchecked _ next)
  refine shrinks_bind ?_ (fun first _ => shrinks_bind (shrinks_foldlM ?_ _ first) ?_)
  · unfold forgetAncestors
    split_ifs
    · exact shrinks_foldlM (fun st hash =>
        shrinks_modifyEntries (changesTotals_updateAncestorState _ _ _ _) _ st) _ pool
    · exact shrinks_of_links rfl
  · intro st hash
    unfold forgetDescendant
    cases hfind : st.mapTx.find hash with
    | none => exact .inl rfl
    | some entry =>
      exact (shrinks_foldl (fun pool piter => shrinks_updateChild piter hash) _ st).trans
        (shrinks_modifyEntries (changesTotals_updateDescendantState _ _ _) _ _)
  · intro second _
    refine shrinks_foldl (fun st it => ?_) _ second
    exact shrinks_foldl (fun pool child => shrinks_updateParent child it) _ st

theorem shrinks_removeRecursive (tx : CTransaction) (pool : CTxMemPool) :
    Shrinks pool (pool.removeRecursive ctx tx) := by
  unfold removeRecursive assertThat
  dsimp only
  generalize (if pool.mapTx.contains tx.hash then _ else _ : List Uint256)=txToRemove
  split_ifs
  · exact shrinks_removeStaged _ false pool
  · exact .inl rfl

theorem shrinks_removeConflicts (tx : CTransaction) (pool : CTxMemPool) :
    Shrinks pool (pool.removeConflicts ctx tx) := by
  refine shrinks_foldlM (fun st txin => ?_) tx.vin pool
  unfold removeConflict
  split
  · exact shrinks_of_links rfl
  · split_ifs
    · exact shrinks_of_links rfl
    · exact Shrinks.trans (shrinks_of_links rfl) (shrinks_removeRecursive _ _)

theorem shrinks_removeReferring (registration : Option Uint256) (pool : CTxMemPool) :
    Shrinks pool (pool.removeReferring ctx registration) := by
  unfold removeReferring
  cases registration with
  | none => exact shrinks_of_links rfl
  | some proTxHash =>
    dsimp only
    generalize pool.refRounds=rounds
    induction rounds generalizing pool with
    | zero => exact shrinks_of_links rfl
    | succ rounds ih =>
      unfold removeSpentCollateralConflict
      split
      · exact shrinks_of_links rfl
      · split
        · exact shrinks_bind (shrinks_removeRecursive _ pool) (fun next _ => ih next)
        · exact Shrinks.trans (shrinks_of_links rfl) (ih _)

theorem shrinks_removeProTxSpentCollateralConflicts (tx : CTransaction) (pool : CTxMemPool) :
    Shrinks pool (pool.removeProTxSpentCollateralConflicts ctx tx) :=
  shrinks_foldlM (fun st _ => shrinks_bind (shrinks_removeReferring _ st)
    (fun next _ => shrinks_removeReferring _ next)) tx.vin pool

theorem shrinks_removeClaimed (tx : CTransaction) (claimed : Option Uint256) (pool : CTxMemPool) :
    Shrinks pool (pool.removeClaimed ctx tx claimed) := by
  unfold removeClaimed
  split
  · exact shrinks_of_links rfl
  · split_ifs
    · exact shrinks_of_links rfl
    · split
      · exact shrinks_of_links rfl
      · exact shrinks_removeRecursive _ pool

theorem shrinks_removeShared (tx : CTransaction) (claim : Option ProTxClaim) (pool : CTxMemPool) :
    Shrinks pool (removeShared ctx tx claim pool) :=
  shrinks_bind (shrinks_removeClaimed _ _ pool) (fun first _ =>
    shrinks_bind (shrinks_removeClaimed _ _ first) (fun second _ =>
      shrinks_bind (shrinks_removeClaimed _ _ second) (fun third _ =>
        shrinks_removeClaimed _ _ third)))

theorem shrinks_removeMined (tx : CTransaction) (pool : CTxMemPool) :
    Shrinks pool (pool.removeMined ctx tx) := by
  unfold removeMined
  split_ifs
  · exact shrinks_removeStaged _ true pool
  · exact shrinks_of_links rfl

end Links

section Chains

variable {ctx : PoolContext} {pool next : CTxMemPool}

/-- An entry is another one or a descendant of it. -/
def Descends (pool : CTxMemPool) : Uint256 → Uint256 → Prop :=
  Relation.ReflTransGen (fun hash child => child∈pool.getMemPoolChildren hash)

theorem Descends.of_shrinks {first second : Uint256} (hnext : Shrinks pool (.ok next))
    (h : Descends next first second) : Descends pool first second :=
  Relation.ReflTransGen.mono hnext first second h

theorem descends_of_mem {first second : Uint256}
    (h : second∈pool.withDescendants [first]) : Descends pool first second := by
  refine Walk.walk_stays (fun hpath hchild => ?_) ?_ ?_ second h
  · exact Relation.ReflTransGen.tail hpath (mem_items.mp hchild)
  · intro key hkey
    have hstart : key∈OrderedSet.empty.insert first := hkey
    simp only [mem_insert,mem_empty,or_false] at hstart
    exact hstart ▸ Relation.ReflTransGen.refl
  · intro key hkey
    exact absurd hkey (mem_empty key)

/-- Removing an entry leaves what does not descend from it. -/
theorem infos_kept {entry : CTxMemPoolEntry} {hash : Uint256}
    (hhas : pool.mapTx.contains entry.tx.hash=true)
    (h : pool.removeRecursive ctx entry.tx=.ok next)
    (hapart : ¬Descends pool entry.tx.hash hash) : next.view.infos hash=pool.view.infos hash := by
  obtain ⟨_,_,h⟩ := bind_eq_ok.mp h
  rw [hhas,if_pos rfl] at h
  rw [infos_removeStaged h,if_neg (fun hm => hapart (descends_of_mem hm))]

/-- An update of a masternode is in the pool and was valid for another key. -/
structure Outdated (pool : CTxMemPool) (proTxHash newKeyHash hash : Uint256) : Prop where
  referred : (proTxHash,hash)∈pool.mapProTxRefs
  outdated : ∃ info, pool.view.infos hash=some info ∧ info.validForProTxKey≠newKeyHash

/-- No such update descends from one with a smaller hash. -/
def Unchained (pool : CTxMemPool) (proTxHash newKeyHash : Uint256) : Prop :=
  ∀ first second, Outdated pool proTxHash newKeyHash first →
    Outdated pool proTxHash newKeyHash second → first < second → ¬Descends pool first second

theorem shrinks_removeEach {step : CTxMemPool → Uint256 → Checked CTxMemPool}
    (hstep : ∀ {pool : CTxMemPool} {hash : Uint256} {entry : CTxMemPoolEntry},
      pool.mapTx.find hash=some entry → step pool hash=pool.removeRecursive ctx entry.tx)
    {hashes : List Uint256} (husable : UsableView ctx.keyHash pool.view)
    (hthere : ∀ hash∈hashes, ∃ info, pool.view.infos hash=some info)
    (hapart : hashes.Pairwise (fun first second => ¬Descends pool first second)) :
    Shrinks pool (hashes.foldlM step pool) := by
  induction hashes generalizing pool with
  | nil => exact shrinks_of_links rfl
  | cons first rest ih =>
    obtain ⟨hfirst,hrest⟩ := pairwise_cons.mp hapart
    obtain ⟨info,hinfo⟩ := hthere first mem_cons_self
    obtain ⟨entry,hentry,-⟩ := view_infos_eq_some.mp hinfo
    have hhash := husable.hash_eq hentry
    have hhas : pool.mapTx.contains entry.tx.hash=true := by
      rw [hhash]
      exact (contains_iff _ _).mpr ⟨entry,hentry⟩
    rw [foldlM_cons,hstep hentry]
    refine shrinks_bind (shrinks_removeRecursive _ pool) (fun after hafter => ?_)
    have hshrinks : Shrinks pool (.ok after) := hafter ▸ shrinks_removeRecursive entry.tx pool
    refine ih (husable.evictions (removals_removeRecursive hafter).evictions) ?_ ?_
    · intro hash hm
      rw [infos_kept hhas hafter (hhash ▸ hfirst hash hm)]
      exact hthere hash (mem_cons_of_mem _ hm)
    · exact hrest.imp (fun hnot hpath => hnot (hpath.of_shrinks hshrinks))

theorem shrinks_removeProTxKeyChangedConflicts {proTxHash newKeyHash : Uint256}
    (husable : UsableView ctx.keyHash pool.view)
    (hchains : Unchained pool proTxHash newKeyHash) :
    Shrinks pool (pool.removeProTxKeyChangedConflicts ctx proTxHash newKeyHash) := by
  unfold removeProTxKeyChangedConflicts
  generalize hset : (OrderedSet.empty : OrderedSet Uint256).insertAll _=conflictingTxs
  have houtdated : ∀ hash∈conflictingTxs.items, Outdated pool proTxHash newKeyHash hash := by
    intro hash hm
    rw [mem_items,← hset,mem_insertAll] at hm
    obtain ⟨ref,href,rfl⟩ := mem_map.mp (hm.resolve_right (mem_empty hash))
    obtain ⟨hin,hclash⟩ := mem_filter.mp href
    obtain ⟨hrefers,hany⟩ := Bool.and_eq_true_iff.mp hclash
    obtain ⟨entry,hentry,hkey⟩ := (any_eq_true _ _).mp hany
    refine ⟨of_decide_eq_true hrefers ▸ hin,_,view_infos_eq_some.mpr ⟨entry,hentry,rfl⟩,?_⟩
    exact of_decide_eq_true hkey
  have hsorted : conflictingTxs.items.Pairwise (· < ·) :=
    pairwise_map.mpr conflictingTxs.map.sorted
  refine shrinks_removeEach (fun hentry => ?_) husable (fun hash hm => ?_) ?_
  · rw [hentry]
  · obtain ⟨info,hinfo,-⟩ := (houtdated hash hm).outdated
    exact ⟨info,hinfo⟩
  · refine hsorted.imp_of_mem (fun hfirst hsecond hlt => ?_)
    exact hchains _ _ (houtdated _ hfirst) (houtdated _ hsecond) hlt

/-- When the updates for a replaced key are looked up, none descends from one with a smaller
hash. -/
def SparesChained (ctx : PoolContext) (tx : CTransaction) (pool : CTxMemPool) : Prop :=
  ∀ spent claimed proTxHash pubKeyOperator,
    pool.removeProTxSpentCollateralConflicts ctx tx=.ok spent →
    removeShared ctx tx (claimOf ctx.keyHash tx) spent=.ok claimed →
    replacedKey tx=some (proTxHash,pubKeyOperator) →
    Unchained claimed proTxHash (ctx.keyHash pubKeyOperator)

/-- The transactions of a block do so one after another. -/
def SparesChainedAll (ctx : PoolContext) : List CTransaction → CTxMemPool → Prop
  | [],_ => True
  | tx::vtx,pool =>
    (∀ mined unspent, pool.removeMined ctx tx=.ok mined →
      mined.removeConflicts ctx tx=.ok unspent → SparesChained ctx tx unspent) ∧
    ∀ next, pool.removeForBlockTx ctx tx=.ok next → SparesChainedAll ctx vtx next

theorem shrinks_removeProTxConflicts {tx : CTransaction}
    (husable : UsableView ctx.keyHash pool.view) (hchains : SparesChained ctx tx pool) :
    Shrinks pool (pool.removeProTxConflicts ctx tx) := by
  rw [removeProTxConflicts_eq]
  refine shrinks_bind (shrinks_removeProTxSpentCollateralConflicts tx pool) (fun spent hspent => ?_)
  have hspentUsable :=
    husable.evictions (removeProTxSpentCollateralConflicts_evictions husable hspent).1
  refine shrinks_bind (shrinks_removeShared tx _ spent) (fun claimed hclaimed => ?_)
  cases hkey : replacedKey tx with
  | none => exact shrinks_of_links rfl
  | some replaced =>
    exact shrinks_removeProTxKeyChangedConflicts
      (hspentUsable.evictions (removals_removeShared hclaimed).evictions)
      (hchains spent claimed _ _ hspent hclaimed hkey)

theorem shrinks_removeForBlockTx {tx : CTransaction}
    (husable : UsableView ctx.keyHash pool.view)
    (hchains : ∀ mined unspent, pool.removeMined ctx tx=.ok mined →
      mined.removeConflicts ctx tx=.ok unspent → SparesChained ctx tx unspent) :
    Shrinks pool (pool.removeForBlockTx ctx tx) := by
  refine shrinks_bind (shrinks_removeMined tx pool) (fun mined hmined => ?_)
  refine shrinks_bind (shrinks_removeConflicts tx mined) (fun unspent hunspent => ?_)
  have hbefore :=
    (removals_removeMined hmined).evictions.trans (removals_removeConflicts hunspent).evictions
  refine shrinks_bind (shrinks_removeProTxConflicts (husable.evictions hbefore)
    (hchains mined unspent hmined hunspent)) (fun last _ => ?_)
  exact shrinks_of_links rfl

/-- A block stops at no other assertion, if no update for a replaced key is removed before its
turn. -/
theorem shrinks_removeForBlock {vtx : List CTransaction} (hkeys : ∀ key, ctx.keyHash key≠0)
    (husable : UsableView ctx.keyHash pool.view) (hchains : SparesChainedAll ctx vtx pool) :
    Shrinks pool (pool.removeForBlock ctx vtx) := by
  unfold removeForBlock
  induction vtx generalizing pool with
  | nil => exact shrinks_of_links rfl
  | cons tx vtx ih =>
    obtain ⟨hstart,hrest⟩ := hchains
    rw [foldlM_cons]
    refine shrinks_bind (shrinks_removeForBlockTx husable hstart) (fun next hnext => ?_)
    obtain ⟨_,_,-,-,hbefore,hafter,-⟩ := removeForBlockTx_evictions hkeys husable hnext
    exact ih (husable.evictions (hbefore.trans hafter)) (hrest next hnext)

end Chains

/-- In every run that meets the condition a connected block evicts what it invalidates, if only
registrations that leave with it wait and no update for a replaced key leaves before its turn. Then
the block can only stop at an assertion on the totals and links of the pool. -/
theorem PoolRun.evicted {serializeHash : UniqueProperty → Uint256}
    {mnList : CDeterministicMNList} {block : List CTransaction} {pool : CTxMemPool}
    (hkeys : ∀ key, serializeHash (.operator key)≠0)
    (hrun : PoolRun serializeHash AcceptsApart pool)
    (hspare : SparesWaitingAll ⟨serializeHash,mnList⟩ block block pool)
    (hchains : SparesChainedAll ⟨serializeHash,mnList⟩ block pool) :
    match pool.removeForBlock ⟨serializeHash,mnList⟩ block with
    | .ok next => Evicted ⟨serializeHash,mnList⟩ block next.view
    | .error failure => BookkeepingFailure failure := by
  have husable := hrun.usable hkeys
  have hshrinks := @shrinks_removeForBlock ⟨serializeHash,mnList⟩ pool block hkeys husable hchains
  cases hblock : pool.removeForBlock ⟨serializeHash,mnList⟩ block with
  | error failure =>
    rw [hblock] at hshrinks
    exact hshrinks
  | ok next => exact @evicted_of_usable ⟨serializeHash,mnList⟩ _ _ _ hkeys husable hspare hblock

theorem claimsApart_empty {keyHash : CBLSPublicKey → Uint256} {tx : CTransaction} :
    ClaimsApart keyHash (CTxMemPool.view {}) tx where
  own := by
    intro claim own proTxHash _ _ hown
    cases hown
  reference := by
    intro claim other hash reference _ hother
    cases hother

/-- An update claims nothing of others while neither it nor its registration is in the pool. -/
theorem claimsApart_update {keyHash : CBLSPublicKey → Uint256} {view : PoolView}
    {tx : CTransaction} {claim : ProTxClaim} {proTxHash : Uint256}
    (husable : UsableView keyHash view)
    (hclaim : claimOf keyHash tx=some claim) (hreg : claim.registration=some proTxHash)
    (hnone : view.infos proTxHash=none) (hnew : view.infos tx.hash=none) :
    ClaimsApart keyHash view tx where
  own := by
    intro found own registration hfound hfoundRegistration hown
    rw [hclaim] at hfound
    cases hfound
    rw [hreg] at hfoundRegistration
    cases hfoundRegistration
    obtain ⟨info,hinfo,-⟩ := claimAt_eq_some.mp hown
    rw [hnone] at hinfo
    cases hinfo
  reference := by
    intro found other hash reference hfound hother hdropped
    rw [hclaim] at hfound
    cases hfound
    rw [claimOf_dropped hclaim (claimOf_registration hclaim hreg)] at hdropped
    cases hdropped
    obtain ⟨info,hinfo,hof⟩ := claimAt_eq_some.mp hother
    have hkeyed := husable.keyed hinfo
    intro he
    rcases claimOf_cases hof with rfl | ⟨proTx,rfl⟩ | ⟨registration,addr,key,rfl⟩
    · cases he
    · dsimp only [registrationClaim] at he
      split_ifs at he
      have hsame : info.tx.hash=proTxHash := congrArg Prod.fst (Option.some.inj he)
      rw [← hkeyed,hsame,hnone] at hinfo
      cases hinfo
    · have hsame : info.tx.hash=tx.hash := congrArg Prod.snd (Option.some.inj he)
      rw [← hkeyed,hsame,hnew] at hinfo
      cases hinfo

/-- A service update of masternode 9. -/
def serviceUpdate (hash : Uint256) (port : ℕ) (vin : List CTxIn) : CTransaction where
  nVersion := 3
  nType := .providerUpdateService
  vin := vin
  vExtraPayload := .proUpServ { proTxHash := 9, addr := { NetAddress.CService.null with port } }
  hash := hash
  payload_special := fun h => h.elim (absurd rfl) (fun he => TxType.noConfusion he)

/-- A registrar update of masternode 9. -/
def keyReplacement : CTransaction where
  nVersion := 3
  nType := .providerUpdateRegistrar
  vExtraPayload := .proUpReg { proTxHash := 9 }
  hash := 8
  payload_special := by simp

/-- A registration waits, then come an update 20 and one that spends it. -/
def chainCheck (second : Uint256) (result : CTxMemPool → Bool) : Bool :=
  (perform quietContext (offered waitingRegister) {}).toOption.any (fun waiting =>
    (waiting.view.infos 9).isNone && (waiting.view.infos 20).isNone &&
    (perform quietContext (offered (serviceUpdate 20 1 [])) waiting).toOption.any (fun one =>
      (one.view.infos 9).isNone && (one.view.infos second).isNone &&
      (perform quietContext (offered (serviceUpdate second 2 [{ prevout := ⟨20,0⟩ }]))
        one).toOption.any
        result))

theorem run_of_chainCheck {second : Uint256} {result : CTxMemPool → Bool}
    (h : chainCheck second result=true) :
    ∃ pool, PoolRun quietContext.serializeHash AcceptsApart pool ∧ result pool=true := by
  have hkeys : ∀ key, quietContext.serializeHash (.operator key)≠0 := fun _ =>
    (by decide : (5 : ℕ)≠0)
  obtain ⟨waiting,hwaiting,h⟩ := (any_eq_true _ _).mp h
  simp only [Bool.and_eq_true,isNone_iff_eq_none] at h
  obtain ⟨⟨hfirstNone,hfirstNew⟩,h⟩ := h
  obtain ⟨one,hone,h⟩ := (any_eq_true _ _).mp h
  simp only [Bool.and_eq_true,isNone_iff_eq_none] at h
  obtain ⟨⟨hsecondNone,hsecondNew⟩,h⟩ := h
  obtain ⟨pool,hpool,h⟩ := (any_eq_true _ _).mp h
  have hstart : PoolRun quietContext.serializeHash AcceptsApart waiting :=
    .step {} (offered waitingRegister) .start claimsApart_empty (eq_ok_of_toOption hwaiting)
  have hmid : PoolRun quietContext.serializeHash AcceptsApart one :=
    .step {} (offered (serviceUpdate 20 1 [])) hstart
      (claimsApart_update (hstart.usable hkeys) rfl rfl hfirstNone hfirstNew)
      (eq_ok_of_toOption hone)
  exact ⟨pool,.step {} (offered (serviceUpdate second 2 _)) hmid
    (claimsApart_update (hmid.usable hkeys) rfl rfl hsecondNone hsecondNew)
    (eq_ok_of_toOption hpool),h⟩

/-- A block replaces the key of two updates. The one with the smaller hash spends the other, and
both leave. -/
theorem evicted_chain : ∃ pool next,
    PoolRun quietContext.serializeHash AcceptsApart pool ∧ pool.mapTx.size=3 ∧
      pool.removeForBlock quietContext [keyReplacement]=.ok next ∧
      Evicted quietContext [keyReplacement] next.view := by
  have hkeys : ∀ key, quietContext.serializeHash (.operator key)≠0 := fun _ =>
    (by decide : (5 : ℕ)≠0)
  have hcheck : chainCheck 19 (fun pool => decide (pool.mapTx.size=3) &&
      (decide (pool.mapProTxRefs=[(1,3),(9,20),(9,19)]) &&
        ((pool.getMemPoolChildren 19).items.isEmpty &&
          (pool.removeForBlock quietContext [keyReplacement]).toOption.isSome)))=true := rfl
  obtain ⟨pool,hrun,hres⟩ := run_of_chainCheck hcheck
  simp only [Bool.and_eq_true,decide_eq_true_eq,List.isEmpty_iff] at hres
  obtain ⟨hsize,hrefs,hchildren,hsome⟩ := hres
  obtain ⟨next,hnext⟩ := exists_ok hsome
  have husable := hrun.usable hkeys
  have hspare : SparesWaitingAll quietContext [keyReplacement] [keyReplacement] pool := by
    refine ⟨?_,fun _ _ => trivial⟩
    rintro _ _ _ _ _ _ _ ⟨_,-,_,hinput,-⟩
    cases hinput
  have hchains : SparesChainedAll quietContext [keyReplacement] pool := by
    refine ⟨?_,fun _ _ => trivial⟩
    intro mined unspent hmined hunspent spent claimed proTxHash pubKeyOperator hspent hclaimed hkey
    cases hkey
    cases hunspent
    cases hspent
    have hevict := (removals_removeMined hmined).evictions.trans
      (removals_removeShared hclaimed).evictions
    have hshrinks : Shrinks pool (.ok claimed) := by
      have hfirst := @shrinks_removeMined quietContext keyReplacement pool
      have hsecond := @shrinks_removeShared quietContext keyReplacement
        (claimOf quietContext.keyHash keyReplacement) mined
      rw [hmined] at hfirst
      rw [hclaimed] at hsecond
      exact hfirst.trans hsecond
    have hhashes : ∀ {hash}, Outdated claimed 9 5 hash → hash=20 ∨ hash=19 := by
      intro hash houtdated
      have hmem := (husable.refs_sublist hevict).subset houtdated.referred
      have hlisted : (9,hash)∈pool.mapProTxRefs := hmem
      rw [hrefs] at hlisted
      simpa using hlisted
    -- only 19 comes before 20, and nothing spends 19
    intro first second hfirst hsecond hlt hdescends
    have hstart : first=19 := by
      rcases hhashes hfirst with rfl | rfl
      · rcases hhashes hsecond with rfl | rfl
        · exact absurd hlt (lt_irrefl _)
        · exact absurd hlt (by decide)
      · rfl
    rcases Relation.ReflTransGen.cases_head (hdescends.of_shrinks hshrinks) with rfl |
      ⟨child,hchild,-⟩
    · exact lt_irrefl _ hlt
    · rw [hstart] at hchild
      exact OrderedSet.not_mem_of_items_nil hchildren child hchild
  have hevicted := @PoolRun.evicted quietContext.serializeHash {} [keyReplacement] pool hkeys hrun
    hspare hchains
  have hremoved : pool.removeForBlock ⟨quietContext.serializeHash,{}⟩ [keyReplacement]=.ok next :=
    hnext
  rw [hremoved] at hevicted
  exact ⟨pool,next,hrun,hsize,hnext,hevicted⟩

/-- A registration waits, and stays when a block spends its collateral. In another run the update
that spends the other one has the larger hash, and a block that replaces their key follows the null
pointer of an update that is gone. -/
theorem waiting_stays :
    (∃ pool next, PoolRun quietContext.serializeHash AcceptsApart pool ∧
      pool.removeForBlock quietContext [collateralSpender]=.ok next ∧
      ¬Evicted quietContext [collateralSpender] next.view) ∧
    ∃ pool, PoolRun quietContext.serializeHash AcceptsApart pool ∧
      pool.removeForBlock quietContext [keyReplacement]=.error (.assertion .nullPointer) := by
  constructor
  · have hcheck : (performAll quietContext [offered waitingRegister]).toOption.any (fun pool =>
        (pool.removeForBlock quietContext [collateralSpender]).toOption.any (fun next =>
          (next.view.infos 1).any (fun info =>
            (claimOf quietContext.keyHash info.tx).any (fun claim =>
              claim.collateral==some ⟨3,0⟩))))=true := rfl
    obtain ⟨pool,hpool,hcheck⟩ := (any_eq_true _ _).mp hcheck
    obtain ⟨next,hnext,hcheck⟩ := (any_eq_true _ _).mp hcheck
    obtain ⟨info,hinfo,hcheck⟩ := (any_eq_true _ _).mp hcheck
    obtain ⟨claim,hclaim,hcoll⟩ := (any_eq_true _ _).mp hcheck
    obtain ⟨first,hfirst,hrest⟩ := bind_eq_ok.mp (eq_ok_of_toOption hpool)
    cases hrest
    refine ⟨pool,next,.step {} (offered waitingRegister) .start claimsApart_empty hfirst,
      eq_ok_of_toOption hnext,?_⟩
    intro hevicted
    have hnone := (hevicted collateralSpender mem_cons_self hinfo).1
    exact hnone ⟨claim,hclaim,_,mem_cons_self,eq_of_beq hcoll⟩
  · have hcheck : chainCheck 21 (fun pool =>
        match pool.removeForBlock quietContext [keyReplacement] with
        | .error (.assertion .nullPointer) => true
        | _ => false)=true := rfl
    obtain ⟨pool,hrun,hres⟩ := run_of_chainCheck hcheck
    refine ⟨pool,hrun,?_⟩
    split at hres
    · assumption
    · cases hres

end Pyrk.TxMemPool
