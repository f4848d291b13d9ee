import Pyrk.HashOrder

/-!
# Diffs for light clients

A light client has the entries of one block and is sent those that are new or different at another
one, and hashes of masternodes that are gone.
-/

namespace Pyrk.SimplifiedDiff

open Transaction DeterministicMNList MerkleComputation List HashOrder CSimplifiedMNListEntry

deriving instance DecidableEq for CSimplifiedMNListEntry

/-- What changed between two lists. -/
structure CSimplifiedMNListDiff where
  baseBlockHash : Uint256
  blockHash : Uint256
  deletedMNs : List Uint256
  mnList : List CSimplifiedMNListEntry

/-- Entries in the order of their hashes. -/
def sortedMNList (smlEntries : List CSimplifiedMNListEntry) : List CSimplifiedMNListEntry :=
  smlEntries.mergeSort (fun first second => first.proRegTxHash ≤ second.proRegTxHash)

/-- Compare the entries of two lists. -/
def buildSimplifiedDiff (order : IterationOrder) (dmnList toList : CDeterministicMNList) :
    CSimplifiedMNListDiff where
  baseBlockHash := dmnList.blockHash
  blockHash := toList.blockHash
  mnList := ((forEachMNIn order toList false).filter (fun toPtr =>
    match dmnList.getMN toPtr.proTxHash with
    | none => true
    | some fromPtr => ofMN toPtr≠ofMN fromPtr)).map
      ofMN
  deletedMNs := ((forEachMNIn order dmnList false).filter (fun fromPtr =>
    (toList.getMN fromPtr.proTxHash).isNone)).map CDeterministicMN.proTxHash

def insertEntry (smlEntries : List CSimplifiedMNListEntry) (entry : CSimplifiedMNListEntry) :
    List CSimplifiedMNListEntry :=
  smlEntries.filter (fun other => other.proRegTxHash≠entry.proRegTxHash)++[entry]

/-- What a light client does with a diff. -/
def applySimplifiedDiff (diff : CSimplifiedMNListDiff) (smlEntries : List CSimplifiedMNListEntry) :
    List CSimplifiedMNListEntry :=
  sortedMNList (diff.mnList.foldl insertEntry
    (smlEntries.filter (fun entry => entry.proRegTxHash∉diff.deletedMNs)))

section Entries

variable {smlEntries news : List CSimplifiedMNListEntry} {entry : CSimplifiedMNListEntry}

theorem mem_foldl_insertEntry (hnews : (news.map (·.proRegTxHash)).Nodup) :
    entry∈news.foldl insertEntry smlEntries ↔
      entry∈news ∨ entry∈smlEntries ∧ entry.proRegTxHash∉news.map (·.proRegTxHash) := by
  induction news generalizing smlEntries with
  | nil => simp
  | cons head news ih =>
    rw [map_cons,nodup_cons] at hnews
    have hhead : entry=head → entry.proRegTxHash∉news.map (·.proRegTxHash) := fun he => he ▸ hnews.1
    rw [foldl_cons,ih hnews.2,insertEntry]
    simp only [mem_append,mem_filter,mem_cons,map_cons,decide_eq_true_eq,not_or]
    tauto

theorem nodup_foldl_insertEntry (hkeys : (smlEntries.map (·.proRegTxHash)).Nodup) :
    ((news.foldl insertEntry smlEntries).map (·.proRegTxHash)).Nodup := by
  induction news generalizing smlEntries with
  | nil => exact hkeys
  | cons head news ih =>
    refine ih ?_
    unfold insertEntry
    rw [map_append,nodup_append]
    refine ⟨hkeys.sublist (filter_sublist.map _),nodup_singleton _,?_⟩
    intro hash hold other hnew
    obtain ⟨kept,hkept,rfl⟩ := mem_map.mp hold
    rw [mem_singleton.mp hnew]
    exact of_decide_eq_true (mem_filter.mp hkept).2

end Entries

section Lists

variable {list old new : CDeterministicMNList} {order : IterationOrder}

theorem mem_visited (hkeyed : Keyed list.mnMap) {dmn : CDeterministicMN} :
    dmn∈forEachMNIn order list false ↔ list.mnMap.find dmn.proTxHash=some dmn := by
  rw [(forEachMNIn_perm order list false).mem_iff]
  refine ⟨hkeyed.find_of_mem,fun hf => mem_filter.mpr ⟨?_,rfl⟩⟩
  exact (list.mnMap.mem_values_iff dmn).mpr ⟨dmn.proTxHash,hf⟩

theorem nodup_visited (hkeyed : Keyed list.mnMap) {keep : CDeterministicMN → Bool} :
    ((((forEachMNIn order list false).filter keep).map ofMN).map (·.proRegTxHash)).Nodup := by
  rw [map_map]
  exact (((forEachMNIn_perm order list false).map _).nodup_iff.mpr
    (hkeyed.nodup_forEachMN false)).sublist (filter_sublist.map _)

theorem mem_diff_mnList (hnew : Keyed new.mnMap) {entry : CSimplifiedMNListEntry} :
    entry∈(buildSimplifiedDiff order old new).mnList ↔ ∃ dmn,
      new.mnMap.find dmn.proTxHash=some dmn ∧ entry=ofMN dmn ∧
        ∀ fromPtr, old.mnMap.find dmn.proTxHash=some fromPtr → entry≠ofMN fromPtr := by
  simp only [buildSimplifiedDiff,mem_map,mem_filter,mem_visited hnew,CDeterministicMNList.getMN]
  constructor
  · rintro ⟨dmn,⟨hfind,hchanged⟩,rfl⟩
    refine ⟨dmn,hfind,rfl,fun fromPtr hfrom => ?_⟩
    rw [hfrom] at hchanged
    exact of_decide_eq_true hchanged
  · rintro ⟨dmn,hfind,rfl,hchanged⟩
    refine ⟨dmn,⟨hfind,?_⟩,rfl⟩
    cases hfrom : old.mnMap.find dmn.proTxHash with
    | none => rfl
    | some fromPtr => exact decide_eq_true (hchanged fromPtr hfrom)

theorem mem_diff_deletedMNs (hold : Keyed old.mnMap) {proTxHash : Uint256} :
    proTxHash∈(buildSimplifiedDiff order old new).deletedMNs ↔
      (∃ dmn, old.mnMap.find proTxHash=some dmn) ∧ new.mnMap.find proTxHash=none := by
  simp only [buildSimplifiedDiff,mem_map,mem_filter,mem_visited hold,
    CDeterministicMNList.getMN,Option.isNone_iff_eq_none]
  constructor
  · rintro ⟨dmn,⟨hfind,hgone⟩,rfl⟩
    exact ⟨⟨dmn,hfind⟩,hgone⟩
  · rintro ⟨⟨dmn,hfind⟩,hgone⟩
    have hhash := hold _ _ hfind
    exact ⟨dmn,⟨hhash.symm ▸ hfind,hhash.symm ▸ hgone⟩,hhash⟩

theorem applied_perm (hold : Keyed old.mnMap) (hnew : Keyed new.mnMap)
    (first second third : IterationOrder) :
    (((buildSimplifiedDiff first old new).mnList.foldl insertEntry
      ((simplifiedMNListIn second old).filter (fun entry =>
        entry.proRegTxHash∉(buildSimplifiedDiff first old new).deletedMNs))).Perm
      ((forEachMNIn third new false).map ofMN)) := by
  have hsorted := mergeSort_perm ((forEachMNIn second old false).map
    ofMN) (fun first second => first.proRegTxHash ≤ second.proRegTxHash)
  have hnews : ((buildSimplifiedDiff first old new).mnList.map (·.proRegTxHash)).Nodup :=
    nodup_visited hnew
  have hvisited : ∀ {list : CDeterministicMNList} (order : IterationOrder), Keyed list.mnMap →
      (((forEachMNIn order list false).map ofMN).map (·.proRegTxHash)).Nodup := by
    intro list order hkeyed
    have hall := @nodup_visited list order hkeyed (fun _ => true)
    rwa [filter_true] at hall
  have holdKeys : ((simplifiedMNListIn second old).map (·.proRegTxHash)).Nodup :=
    (hsorted.map _).nodup_iff.mpr (hvisited second hold)
  rw [perm_ext_iff_of_nodup
    (nodup_foldl_insertEntry (holdKeys.sublist (filter_sublist.map _))).of_map
    (hvisited third hnew).of_map]
  intro entry
  rw [mem_foldl_insertEntry hnews,mem_diff_mnList hnew,mem_filter]
  have hmemOld : entry∈simplifiedMNListIn second old ↔ ∃ dmn,
      old.mnMap.find dmn.proTxHash=some dmn ∧ ofMN dmn=entry := by
    rw [simplifiedMNListIn,hsorted.mem_iff,mem_map]
    simp only [mem_visited hold]
  have hmemNew : entry∈(forEachMNIn third new false).map ofMN ↔ ∃ dmn,
      new.mnMap.find dmn.proTxHash=some dmn ∧ ofMN dmn=entry := by
    rw [mem_map]
    simp only [mem_visited hnew]
  rw [hmemOld,hmemNew,decide_eq_true_eq,mem_diff_deletedMNs hold]
  constructor
  · rintro (⟨dmn,hfind,rfl,-⟩ | ⟨⟨⟨dmn,hfind,rfl⟩,hkept⟩,hsame⟩)
    · exact ⟨dmn,hfind,rfl⟩
    · have hthere : new.mnMap.find dmn.proTxHash≠none := fun hnone => hkept ⟨⟨dmn,hfind⟩,hnone⟩
      obtain ⟨toPtr,hto⟩ := Option.ne_none_iff_exists'.mp hthere
      have hhash := hnew _ _ hto
      refine ⟨toPtr,hhash.symm ▸ hto,?_⟩
      by_contra hne
      refine hsame (mem_map.mpr ⟨ofMN toPtr,
        (mem_diff_mnList hnew).mpr ⟨toPtr,hhash.symm ▸ hto,rfl,?_⟩,hhash⟩)
      intro fromPtr hfrom
      rw [hhash,hfind] at hfrom
      rw [← Option.some.inj hfrom]
      exact hne
  · rintro ⟨dmn,hfind,rfl⟩
    by_cases hin : ∃ fromPtr, old.mnMap.find dmn.proTxHash=some fromPtr ∧ ofMN dmn=ofMN fromPtr
    · obtain ⟨fromPtr,hfrom,hsame⟩ := hin
      refine Or.inr ⟨⟨⟨fromPtr,(hold _ _ hfrom).symm ▸ hfrom,hsame.symm⟩,?_⟩,?_⟩
      · rintro ⟨-,hnone⟩
        exact absurd (hfind.symm.trans hnone) (Option.some_ne_none _)
      · intro hmem
        obtain ⟨other,hother,hhash⟩ := mem_map.mp hmem
        obtain ⟨toPtr,hto,rfl,hchanged⟩ := (mem_diff_mnList hnew).mp hother
        have hhash : toPtr.proTxHash=dmn.proTxHash := hhash
        rw [hhash,hfind] at hto
        rw [← Option.some.inj hto] at hchanged
        exact hchanged fromPtr hfrom hsame
    · refine Or.inl ⟨dmn,hfind,rfl,fun fromPtr hfrom hsame => hin ⟨fromPtr,hfrom,hsame⟩⟩

/-- With the diff between two lists a light client gets from the entries of the one to those of
the other, and to their merkle root. -/
theorem applySimplifiedDiff_exact (serializeHash : UniqueProperty → Uint256)
    (old new : CDeterministicMNList) (hold : Reachable serializeHash old)
    (hnew : Reachable serializeHash new) (first second third : IterationOrder) :
    applySimplifiedDiff (buildSimplifiedDiff first old new) (simplifiedMNListIn second old)=
      simplifiedMNListIn third new ∧
    ∀ hash calcHash, computeMerkleRoot hash
      ((applySimplifiedDiff (buildSimplifiedDiff first old new)
      (simplifiedMNListIn second old)).map calcHash)=calcMerkleRootIn third hash calcHash new := by
  have hkeyed := (reachable_exactList hnew).keyed
  have hperm := applied_perm (reachable_exactList hold).keyed hkeyed first second third
  have hlist : applySimplifiedDiff (buildSimplifiedDiff first old new)
      (simplifiedMNListIn second old)=simplifiedMNListIn third new := by
    refine mergeSort_perm_eq (fun _ _ => rfl) hperm ?_
    intro entry hentry other hother hsame
    obtain ⟨dmn,hdmn,rfl⟩ := mem_map.mp (hperm.mem_iff.mp hentry)
    obtain ⟨otherDmn,hotherDmn,rfl⟩ := mem_map.mp (hperm.mem_iff.mp hother)
    have hfind := (mem_visited hkeyed).mp hdmn
    have hhash : dmn.proTxHash=otherDmn.proTxHash := hsame
    rw [hhash,(mem_visited hkeyed).mp hotherDmn] at hfind
    rw [Option.some.inj hfind]
  exact ⟨hlist,fun hash calcHash => by rw [hlist,calcMerkleRootIn]⟩

end Lists

/-- The diff deletes the second masternode and brings the new address of the first. -/
theorem applySimplifiedDiff_sample :
    Reachable propertyCode pairList ∧ Reachable propertyCode movedList ∧
    (buildSimplifiedDiff ascending pairList movedList).deletedMNs=[2] ∧
    (buildSimplifiedDiff ascending pairList movedList).mnList=[ofMN movedMN] ∧
    applySimplifiedDiff (buildSimplifiedDiff ascending pairList movedList)
      (simplifiedMNListIn descending pairList)=simplifiedMNListIn ascending movedList :=
  ⟨reachable_pairList,reachable_movedList,by decide,by decide,
    (applySimplifiedDiff_exact propertyCode pairList movedList reachable_pairList
      reachable_movedList ascending descending ascending).1⟩

end Pyrk.SimplifiedDiff
