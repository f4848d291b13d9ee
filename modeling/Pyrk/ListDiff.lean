import Pyrk.BlockAssertions

/-!
# Diffs between the lists of neighbouring blocks

The database stores for most blocks how their list differs from the one before. No property passes
between masternodes, so a diff can be applied in any order.
-/

namespace Pyrk.ListDiff

open List

open Transaction DeterministicMNList ProviderTx Registry OrderedMap
/-- What a list does with a stored diff: diffs without changes only move on to
the next block. -/
def applyListDiff (serializeHash : UniqueProperty → Uint256) (snapshot : CDeterministicMNList)
    (diff : CDeterministicMNListDiff) : Checked CDeterministicMNList :=
  if diff.hasChanges then snapshot.applyDiff serializeHash diff
  else .ok { snapshot with blockHash := diff.blockHash, nHeight := diff.nHeight }

/-- Entries of the new registry take no property from an old one that is still there. -/
def TakesNothing (old new : MNRegistry) : Prop :=
  ∀ proTxHash properties other others v, new.find proTxHash=some properties →
    properties.has v=true → old.find other=some others → others.has v=true →
    other=proTxHash ∨ new.find other=none

/-- What makes the diff between two lists applicable. -/
structure Succeeds (serializeHash : UniqueProperty → Uint256)
    (old new : CDeterministicMNList) : Prop where
  oldGood : GoodList serializeHash old
  newGood : GoodList serializeHash new
  /-- Of a masternode in both lists only the state changes. -/
  identity : ∀ proTxHash first second, old.mnMap.find proTxHash=some first →
    new.mnMap.find proTxHash=some second → { first with pdmnState := second.pdmnState }=second
  owner : ∀ proTxHash first second, old.mnMap.find proTxHash=some first →
    new.mnMap.find proTxHash=some second → second.pdmnState.keyIDOwner=first.pdmnState.keyIDOwner
  /-- No property is taken from a masternode that stays. -/
  takesNothing : TakesNothing (registryOf old) (registryOf new)

section Parts

variable {ctx : NodeContext} {old new : CDeterministicMNList}

theorem mem_forEachMN_iff (h : ExactList ctx.serializeHash old) {dmn : CDeterministicMN} :
    dmn∈old.forEachMN false ↔ old.mnMap.find dmn.proTxHash=some dmn := by
  refine ⟨mem_forEachMN h,fun hf => mem_filter.mpr ⟨?_,rfl⟩⟩
  exact (old.mnMap.mem_values_iff dmn).mpr ⟨dmn.proTxHash,hf⟩

variable {proTxHash : Uint256}

theorem find_addedMNs (hnew : ExactList ctx.serializeHash new)
    {dmn : CDeterministicMN} : (old.buildDiff new).addedMNs.find proTxHash=some dmn ↔
      old.mnMap.find proTxHash=none ∧ new.mnMap.find proTxHash=some dmn := by
  have hentries : ∃ entries, (old.buildDiff new).addedMNs=OrderedMap.emplaceEntries entries ∧
      ∀ found, (proTxHash,found)∈entries ↔
        old.mnMap.find proTxHash=none ∧ new.mnMap.find proTxHash=some found := by
    refine ⟨_,rfl,fun found => ?_⟩
    rw [mem_filterMap]
    constructor
    · rintro ⟨toPtr,hm,hs⟩
      have hf := (mem_forEachMN_iff hnew).mp hm
      split at hs
      · cases hs
        exact ⟨by assumption,hf⟩
      · cases hs
    · rintro ⟨hnone,hf⟩
      have hkey := hnew.keyed proTxHash found hf
      subst hkey
      refine ⟨found,(mem_forEachMN_iff hnew).mpr hf,?_⟩
      rw [CDeterministicMNList.getMN,hnone]
  obtain ⟨entries,hadded,hmem⟩ := hentries
  rw [hadded]
  refine (find_emplaceEntries (fun first second hf hs => ?_)).trans (hmem dmn)
  exact Option.some.inj (((hmem first).mp hf).2.symm.trans ((hmem second).mp hs).2)

theorem find_removedMns (hold : ExactList ctx.serializeHash old) :
    (old.buildDiff new).removedMns.find proTxHash=some () ↔
      (∃ dmn, old.mnMap.find proTxHash=some dmn) ∧ new.mnMap.find proTxHash=none := by
  rw [CDeterministicMNList.buildDiff,find_emplaceEntries (fun _ _ _ _ => rfl),mem_filterMap]
  constructor
  · rintro ⟨fromPtr,hm,hs⟩
    have hf := (mem_forEachMN_iff hold).mp hm
    split at hs
    · cases hs
      exact ⟨⟨fromPtr,hf⟩,by assumption⟩
    · cases hs
  · rintro ⟨⟨dmn,hf⟩,hnone⟩
    have hkey := hold.keyed proTxHash dmn hf
    subst hkey
    refine ⟨dmn,(mem_forEachMN_iff hold).mpr hf,?_⟩
    rw [CDeterministicMNList.getMN,hnone]

/-- Masternodes of both lists with another state are updated. -/
theorem find_updatedMNs (hnew : ExactList ctx.serializeHash new)
    {pdmnState : CDeterministicMNState} :
    (old.buildDiff new).updatedMNs.find proTxHash=some pdmnState ↔
      ∃ first second, old.mnMap.find proTxHash=some first ∧
        new.mnMap.find proTxHash=some second ∧ second.pdmnState≠first.pdmnState ∧
        second.pdmnState=pdmnState := by
  have hentries : ∃ entries, (old.buildDiff new).updatedMNs=OrderedMap.emplaceEntries entries ∧
      ∀ st, (proTxHash,st)∈entries ↔ ∃ first second, old.mnMap.find proTxHash=some first ∧
          new.mnMap.find proTxHash=some second ∧ second.pdmnState≠first.pdmnState ∧
          second.pdmnState=st := by
    refine ⟨_,rfl,fun st => ?_⟩
    rw [mem_filterMap]
    constructor
    · rintro ⟨toPtr,hm,hs⟩
      have hf := (mem_forEachMN_iff hnew).mp hm
      split at hs
      · cases hs
      · rename_i fromPtr hfrom
        split_ifs at hs with hne
        cases hs
        exact ⟨fromPtr,toPtr,hfrom,hf,hne,rfl⟩
    · rintro ⟨first,second,hfirst,hsecond,hne,rfl⟩
      have hkey := hnew.keyed proTxHash second hsecond
      subst hkey
      refine ⟨second,(mem_forEachMN_iff hnew).mpr hsecond,?_⟩
      rw [CDeterministicMNList.getMN,hfirst]
      exact if_pos hne
  obtain ⟨entries,hupdated,hmem⟩ := hentries
  rw [hupdated]
  refine (find_emplaceEntries (fun first second hf hs => ?_)).trans (hmem pdmnState)
  grind

end Parts

/-- Storing a masternode or forgetting one does not move a list to another block. -/
def SameBlock (list next : CDeterministicMNList) : Prop :=
  next.blockHash=list.blockHash ∧ next.nHeight=list.nHeight

section Between

variable {serializeHash : UniqueProperty → Uint256} {old new current : CDeterministicMNList}

/-- A list on the way to the next: pending masternodes are those of the old list. -/
structure Between (serializeHash : UniqueProperty → Uint256) (old new : CDeterministicMNList)
    (pending : List Uint256) (current : CDeterministicMNList) : Prop where
  good : GoodList serializeHash current
  sameBlock : SameBlock new current
  find : ∀ proTxHash, current.mnMap.find proTxHash=
    if proTxHash∈pending then old.mnMap.find proTxHash else new.mnMap.find proTxHash

variable {proTxHash : Uint256} {pending : List Uint256}

theorem Between.find_head (h : Between serializeHash old new (proTxHash::pending) current) :
    current.mnMap.find proTxHash=old.mnMap.find proTxHash := by
  rw [h.find,if_pos mem_cons_self]

/-- One masternode less is pending. -/
theorem Between.next {next : CDeterministicMNList}
    (h : Between serializeHash old new (proTxHash::pending) current) (hnot : proTxHash∉pending)
    (hgood : GoodList serializeHash next) (hblock : SameBlock current next)
    (hself : next.mnMap.find proTxHash=new.mnMap.find proTxHash)
    (hothers : ∀ other, other≠proTxHash → next.mnMap.find other=current.mnMap.find other) :
    Between serializeHash old new pending next := by
  refine ⟨hgood,⟨hblock.1.trans h.sameBlock.1,hblock.2.trans h.sameBlock.2⟩,fun other => ?_⟩
  by_cases he : other=proTxHash
  · rw [he,hself,if_neg hnot]
  · rw [hothers other he,h.find other]
    simp only [mem_cons,he,false_or]

variable {dmn : CDeterministicMN}

theorem Between.remove
    (h : Between serializeHash old new (proTxHash::pending) current) (hnot : proTxHash∉pending)
    (hold : old.mnMap.find proTxHash=some dmn) (hnew : new.mnMap.find proTxHash=none) :
    ∃ next, current.removeMN serializeHash proTxHash=.ok next ∧
      Between serializeHash old new pending next := by
  obtain ⟨next,hnext,hgood,hmap⟩ := h.good.removeMN (h.find_head.trans hold)
  obtain ⟨-,⟨map,hres⟩,-⟩ := CDeterministicMNList.removeMN_exact h.good.exact hnext
  refine ⟨next,hnext,h.next hnot hgood ?_ ?_ ?_⟩
  · rw [hres]
    exact ⟨rfl,rfl⟩
  · rw [hmap,find_erase_self,hnew]
  · intro other hne
    rw [hmap,find_erase_of_ne _ hne]

section

variable (hinj : Function.Injective serializeHash) (hs : Succeeds serializeHash old new)

include hinj hs

/-- Nobody else holds what a masternode of the new list has. -/
theorem Between.free (h : Between serializeHash old new pending current)
    (hstay : ∀ other∈pending, new.mnMap.find other≠none)
    (hnew : new.mnMap.find proTxHash=some dmn) {v : UniqueProperty}
    (hv : (propertiesOf dmn).has v=true) :
    heldByOther (registryOf current) proTxHash v=false := by
  rw [← Bool.not_eq_true,heldByOther_iff]
  rintro ⟨other,properties,hne,hf,hhas⟩
  rw [find_registryOf] at hf
  obtain ⟨holder,hholder,rfl⟩ := Option.map_eq_some_iff.mp hf
  rw [h.find] at hholder
  split_ifs at hholder with hpending
  · -- an old holder that stays
    have hfound : (registryOf new).find proTxHash=some (propertiesOf dmn) := by
      rw [find_registryOf,hnew,Option.map_some]
    have hother : (registryOf old).find other=some (propertiesOf holder) := by
      rw [find_registryOf,hholder,Option.map_some]
    rcases hs.takesNothing _ _ _ _ v hfound hv hother hhas with he | hgone
    · exact hne he
    · rw [find_registryOf,Option.map_eq_none_iff] at hgone
      exact hstay other hpending hgone
  · -- two holders in the new list
    exact hne (holder_unique hinj hs.newGood.exact hholder hnew
      ((has_propertiesOf holder v).mp hhas) ((has_propertiesOf dmn v).mp hv))

theorem Between.add (h : Between serializeHash old new (dmn.proTxHash::pending) current)
    (hnot : dmn.proTxHash∉pending) (hstay : ∀ other∈pending, new.mnMap.find other≠none)
    (hold : old.mnMap.find dmn.proTxHash=none) (hnew : new.mnMap.find dmn.proTxHash=some dmn) :
    ∃ next, current.addMN serializeHash dmn=.ok next ∧
      Between serializeHash old new pending next := by
  have hnone := h.find_head.trans hold
  have hthere : ∀ other∈dmn.proTxHash::pending, new.mnMap.find other≠none := by
    intro other hm
    rcases mem_cons.mp hm with rfl | hm
    · rw [hnew]
      exact Option.some_ne_none _
    · exact hstay other hm
  obtain ⟨next,hnext,hgood,hmap⟩ := h.good.addMN hinj hnone (hs.newGood.collateral _ _ hnew)
    (hs.newGood.owner _ _ hnew) (by
      intro v hv
      rw [← Bool.not_eq_true,held_iff]
      rintro ⟨other,properties,hf,hhas⟩
      refine absurd (h.free hinj hs hthere hnew hv) (Bool.not_eq_false _ ▸ ?_)
      refine heldByOther_iff.mpr ⟨other,properties,?_,hf,hhas⟩
      rintro rfl
      rw [find_registryOf,hnone] at hf
      cases hf)
  obtain ⟨-,-,-,⟨map,hres⟩,-⟩ := CDeterministicMNList.addMN_exact h.good.exact hnext
  refine ⟨next,hnext,h.next hnot hgood ?_ ?_ ?_⟩
  · rw [hres]
    exact ⟨rfl,rfl⟩
  · rw [hmap,find_set_self,hnew]
  · intro other hne
    rw [hmap,find_set_of_ne _ _ hne]

theorem Between.update {proTxHash : Uint256} {pending : List Uint256}
    {first second : CDeterministicMN}
    (h : Between serializeHash old new (proTxHash::pending) current) (hnot : proTxHash∉pending)
    (hstay : ∀ other∈pending, new.mnMap.find other≠none)
    (hold : old.mnMap.find proTxHash=some first) (hnew : new.mnMap.find proTxHash=some second) :
    ∃ next, current.updateMN serializeHash proTxHash second.pdmnState=.ok next ∧
      Between serializeHash old new pending next := by
  have hcurrent := h.find_head.trans hold
  have hvalue := hs.identity _ _ _ hold hnew
  have hthere : ∀ other∈proTxHash::pending, new.mnMap.find other≠none := by
    intro other hm
    rcases mem_cons.mp hm with rfl | hm
    · rw [hnew]
      exact Option.some_ne_none _
    · exact hstay other hm
  obtain ⟨next,hnext,hgood,hmap⟩ := h.good.updateMN hinj hcurrent
    (hs.owner _ _ _ hold hnew) (by
      intro v hv _
      rw [hvalue] at hv
      exact h.free hinj hs hthere hnew hv)
  obtain ⟨_,-,⟨map,hres⟩,-⟩ := CDeterministicMNList.updateMN_exact h.good.exact hnext
  refine ⟨next,hnext,h.next hnot hgood ?_ ?_ ?_⟩
  · rw [hres]
    exact ⟨rfl,rfl⟩
  · rw [hmap,find_set_self,hvalue,hnew]
  · intro other hne
    rw [hmap,find_set_of_ne _ _ hne]

end

/-- A loop over some of the pending masternodes. -/
theorem between_run {α : Type} {step : CDeterministicMNList → Uint256×α →
      Checked CDeterministicMNList} {entries : List (Uint256×α)} {rest : List Uint256}
    {condition : Uint256 → Prop}
    (hstep : ∀ entry∈entries, ∀ pending current, entry.1∉pending →
      (∀ other∈pending, condition other) →
      Between serializeHash old new (entry.1::pending) current →
      ∃ next, step current entry=.ok next ∧ Between serializeHash old new pending next)
    (hnodup : (entries.map Prod.fst++rest).Nodup)
    (hall : ∀ other∈entries.map Prod.fst++rest, condition other)
    (h : Between serializeHash old new (entries.map Prod.fst++rest) current) :
    ∃ next, entries.foldlM step current=.ok next ∧ Between serializeHash old new rest next := by
  induction entries generalizing current with
  | nil => exact ⟨current,rfl,h⟩
  | cons entry entries ih =>
    rw [map_cons,cons_append] at hnodup hall h
    obtain ⟨hnot,hrest⟩ := nodup_cons.mp hnodup
    have hlater : ∀ other∈entries.map Prod.fst++rest, condition other :=
      fun other hm => hall other (mem_cons_of_mem _ hm)
    obtain ⟨middle,hmid,hbetween⟩ := hstep entry mem_cons_self _ current hnot hlater h
    rw [foldlM_cons,hmid]
    exact ih (fun other hm => hstep other (mem_cons_of_mem _ hm)) hrest hlater hbetween

end Between

variable {ctx : NodeContext} {old new : CDeterministicMNList}

theorem mem_keys_iff {α : Type} {map : OrderedMap Uint256 α} {key : Uint256} :
    key∈map.entries.map Prod.fst ↔ ∃ value, map.find key=some value := by
  rw [mem_map]
  constructor
  · rintro ⟨⟨key,value⟩,hm,rfl⟩
    exact ⟨value,(map.mem_entries_iff key value).mp hm⟩
  · rintro ⟨value,hf⟩
    exact ⟨(key,value),(map.mem_entries_iff key value).mpr hf,rfl⟩

/-- Masternodes that a diff handles, in the order of its parts. -/
def diffKeys (diff : CDeterministicMNListDiff) : List Uint256 :=
  diff.removedMns.entries.map Prod.fst++
    (diff.addedMNs.entries.map Prod.fst++diff.updatedMNs.entries.map Prod.fst)

theorem stays_of_mem (hnew : ExactList ctx.serializeHash new) {proTxHash : Uint256}
    (hm : proTxHash∈(old.buildDiff new).addedMNs.entries.map Prod.fst++
      (old.buildDiff new).updatedMNs.entries.map Prod.fst) :
    new.mnMap.find proTxHash≠none := by
  intro hnone
  rcases mem_append.mp hm with hm | hm
  · obtain ⟨dmn,hf⟩ := mem_keys_iff.mp hm
    rw [find_addedMNs hnew,hnone] at hf
    cases hf.2
  · obtain ⟨st,hf⟩ := mem_keys_iff.mp hm
    obtain ⟨first,second,-,hsecond,-⟩ := (find_updatedMNs hnew).mp hf
    rw [hnone] at hsecond
    cases hsecond

theorem nodup_diffKeys (hold : ExactList ctx.serializeHash old)
    (hnew : ExactList ctx.serializeHash new) : (diffKeys (old.buildDiff new)).Nodup := by
  refine nodup_append.mpr ⟨nodup_keys _,nodup_append.mpr ⟨nodup_keys _,nodup_keys _,?_⟩,?_⟩
  · rintro proTxHash hadded _ hupdated rfl
    obtain ⟨dmn,hf⟩ := mem_keys_iff.mp hadded
    obtain ⟨st,hs⟩ := mem_keys_iff.mp hupdated
    obtain ⟨first,second,hfirst,-⟩ := (find_updatedMNs hnew).mp hs
    rw [find_addedMNs hnew,hfirst] at hf
    cases hf.1
  · rintro proTxHash hremoved _ hstays rfl
    obtain ⟨_,hf⟩ := mem_keys_iff.mp hremoved
    exact stays_of_mem hnew hstays ((find_removedMns hold).mp hf).2

/-- Masternodes outside the diff are the same in both lists. -/
theorem find_eq_of_not_mem (hs : Succeeds ctx.serializeHash old new) {proTxHash : Uint256}
    (hnot : proTxHash∉diffKeys (old.buildDiff new)) :
    old.mnMap.find proTxHash=new.mnMap.find proTxHash := by
  simp only [diffKeys,mem_append,not_or,mem_keys_iff,not_exists] at hnot
  obtain ⟨hremoved,hadded,hupdated⟩ := hnot
  cases hold : old.mnMap.find proTxHash with
  | none =>
    cases hnew : new.mnMap.find proTxHash with
    | none => rfl
    | some dmn => exact absurd ((find_addedMNs hs.newGood.exact).mpr ⟨hold,hnew⟩) (hadded dmn)
  | some first =>
    cases hnew : new.mnMap.find proTxHash with
    | none =>
      exact absurd ((find_removedMns hs.oldGood.exact).mpr ⟨⟨first,hold⟩,hnew⟩) (hremoved ())
    | some second =>
      have hstate : second.pdmnState=first.pdmnState := by
        by_contra hne
        exact hupdated _ ((find_updatedMNs hs.newGood.exact).mpr ⟨first,second,hold,hnew,hne,rfl⟩)
      rw [← hs.identity _ _ _ hold hnew,hstate]

theorem list_ext {serializeHash : UniqueProperty → Uint256} {first second : CDeterministicMNList}
    (hf : ExactList serializeHash first) (hs : ExactList serializeHash second)
    (hblock : SameBlock second first)
    (hfind : ∀ proTxHash, first.mnMap.find proTxHash=second.mnMap.find proTxHash) :
    first=second := by
  have hmap := ext_find hfind
  have hprops := exactList_unique hf hs hmap
  obtain ⟨hhash,hheight⟩ := hblock
  cases first
  cases second
  cases hhash
  cases hheight
  cases hmap
  cases hprops
  rfl

theorem between_removed (hs : Succeeds ctx.serializeHash old new)
    {current : CDeterministicMNList}
    (h : Between ctx.serializeHash old new (diffKeys (old.buildDiff new)) current) :
    ∃ next, (old.buildDiff new).removedMns.entries.foldlM
        (fun result entry => result.removeMN ctx.serializeHash entry.1) current=.ok next ∧
      Between ctx.serializeHash old new ((old.buildDiff new).addedMNs.entries.map Prod.fst++
          (old.buildDiff new).updatedMNs.entries.map Prod.fst) next := by
  refine @between_run ctx.serializeHash old new current Unit _ _ _ (fun _ => True) ?_
    (nodup_diffKeys hs.oldGood.exact hs.newGood.exact) (fun _ _ => trivial) h
  intro entry hm pending current hnot _ hb
  obtain ⟨⟨dmn,hf⟩,hgone⟩ :=
    (find_removedMns hs.oldGood.exact).mp ((mem_entries_iff _ _ _).mp hm)
  exact hb.remove hnot hf hgone

section

variable (hinj : Function.Injective ctx.serializeHash) (hs : Succeeds ctx.serializeHash old new)

include hinj hs

theorem between_added {current : CDeterministicMNList}
    (h : Between ctx.serializeHash old new ((old.buildDiff new).addedMNs.entries.map Prod.fst++
        (old.buildDiff new).updatedMNs.entries.map Prod.fst) current) :
    ∃ next, (old.buildDiff new).addedMNs.entries.foldlM
        (fun result entry => result.addMN ctx.serializeHash entry.2) current=.ok next ∧
      Between ctx.serializeHash old new
        ((old.buildDiff new).updatedMNs.entries.map Prod.fst) next := by
  have hnodup := nodup_diffKeys hs.oldGood.exact hs.newGood.exact
  refine @between_run ctx.serializeHash old new current CDeterministicMN _ _ _
    (fun other => new.mnMap.find other≠none) ?_ (nodup_append.mp hnodup).2.1
    (fun _ hm => stays_of_mem hs.newGood.exact hm) h
  intro entry hm pending current hnot hstay hb
  obtain ⟨hnone,hf⟩ :=
    (find_addedMNs hs.newGood.exact).mp ((mem_entries_iff _ _ _).mp hm)
  rw [← hs.newGood.exact.keyed _ _ hf] at hb hnot hnone hf
  exact hb.add hinj hs hnot hstay hnone hf

theorem between_updated {current : CDeterministicMNList}
    (h : Between ctx.serializeHash old new
      ((old.buildDiff new).updatedMNs.entries.map Prod.fst) current) :
    ∃ next, (old.buildDiff new).updatedMNs.entries.foldlM
        (fun result entry => result.updateMN ctx.serializeHash entry.1 entry.2)
          current=.ok next ∧
      Between ctx.serializeHash old new [] next := by
  rw [← append_nil ((old.buildDiff new).updatedMNs.entries.map Prod.fst)] at h
  refine @between_run ctx.serializeHash old new current CDeterministicMNState _ _ _
    (fun other => new.mnMap.find other≠none) ?_ ?_ ?_ h
  · intro entry hm pending current hnot hstay hb
    obtain ⟨first,second,hfirst,hsecond,-,hstate⟩ :=
      (find_updatedMNs hs.newGood.exact).mp ((mem_entries_iff _ _ _).mp hm)
    rw [← hstate]
    exact hb.update hinj hs hnot hstay hfirst hsecond
  · rw [append_nil]
    exact nodup_keys _
  · intro other hm
    rw [append_nil] at hm
    exact stays_of_mem hs.newGood.exact (mem_append_right _ hm)

theorem applyDiff_buildDiff (hheight : new.nHeight=old.nHeight+1) :
    old.applyDiff ctx.serializeHash (old.buildDiff new)=.ok new := by
  have hold := hs.oldGood.exact
  have hstart : Between ctx.serializeHash old new (diffKeys (old.buildDiff new))
      { old with blockHash := new.blockHash, nHeight := new.nHeight } := by
    refine ⟨⟨⟨hold.keyed,hold.exact⟩,hs.oldGood.collateral,hs.oldGood.owner⟩,⟨rfl,rfl⟩,?_⟩
    intro proTxHash
    split_ifs with hm
    · rfl
    · exact find_eq_of_not_mem hs hm
  obtain ⟨removed,hremoved,h1⟩ := between_removed hs hstart
  obtain ⟨added,hadded,h2⟩ := between_added hinj hs h1
  obtain ⟨updated,hupdated,h3⟩ := between_updated hinj hs h2
  have hfinal : updated=new := by
    refine list_ext h3.good.exact hs.newGood.exact h3.sameBlock (fun proTxHash => ?_)
    rw [h3.find,if_neg not_mem_nil]
  unfold CDeterministicMNList.applyDiff
  simp only [bind_eq_ok]
  refine ⟨(),assertThat_eq_ok.mpr ?_,removed,hremoved,added,hadded,hfinal ▸ hupdated⟩
  rw [Bool.and_eq_true,decide_eq_true_eq,decide_eq_true_eq]
  exact ⟨rfl,hheight⟩

theorem applyListDiff_buildDiff (hheight : new.nHeight=old.nHeight+1) :
    applyListDiff ctx.serializeHash old (old.buildDiff new)=.ok new := by
  unfold applyListDiff
  split_ifs with hchanges
  · exact applyDiff_buildDiff hinj hs hheight
  · -- without changes both lists have the same masternodes
    simp only [CDeterministicMNListDiff.hasChanges,Bool.or_eq_true,Bool.not_eq_true',not_or,
      Bool.not_eq_false,List.isEmpty_iff] at hchanges
    obtain ⟨⟨hadded,hupdated⟩,hremoved⟩ := hchanges
    have hnone : diffKeys (old.buildDiff new)=[] := by
      rw [diffKeys,hadded,hupdated,hremoved]
      rfl
    refine congrArg Except.ok (@list_ext ctx.serializeHash _ _ ?_ hs.newGood.exact ⟨rfl,rfl⟩ ?_)
    · exact ⟨hs.oldGood.exact.keyed,hs.oldGood.exact.exact⟩
    · intro proTxHash
      exact find_eq_of_not_mem hs (by rw [hnone]; exact not_mem_nil)

end

end Pyrk.ListDiff
