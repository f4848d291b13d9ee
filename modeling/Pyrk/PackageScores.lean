import Pyrk.BlockAssembler

/-!
# Totals of packages

A transaction is considered with totals over itself and its ancestors that are not in the block.
Totals of descendants of the block have to be kept exact.
-/

namespace Pyrk.PackageScores

open Transaction DeterministicMNList TxMemPool BlockAssembler OrderedMap OrderedSet CTxMemPool

section Graph

variable (pool : CTxMemPool)

def parentItems (hash : Uint256) : List Uint256 := (pool.getMemPoolParents hash).items

def childItems (hash : Uint256) : List Uint256 := (pool.getMemPoolChildren hash).items

/-- A transaction with all its ancestors. -/
def members (hash : Uint256) : Finset Uint256 := insert hash (ancestorsOf pool hash).toFinset

/-- Sum of a number over transactions. -/
def totalOf (value : CTxMemPoolEntry → ℤ) (hashes : Finset Uint256) : ℤ :=
  ∑ hash∈hashes, pool.valueOf hash value

/-- Totals over some transactions, for one of them. -/
def totals (it : Uint256) (hashes : Finset Uint256) : CTxMemPoolModifiedEntry where
  iter := it
  nSizeWithAncestors := totalOf pool (fun entry => entry.nTxSize) hashes
  nModFeesWithAncestors := totalOf pool (fun entry => entry.getModifiedFee) hashes
  nSigOpCountWithAncestors := totalOf pool (fun entry => entry.sigOpCount) hashes

/-- Links of the pool fit together, and entries have the totals over themselves and
their ancestors. -/
structure ConsistentPool : Prop where
  /-- Entries are found by the hash of their transaction. -/
  keyed : ∀ {hash entry}, pool.mapTx.find hash=some entry → entry.tx.hash=hash
  parents : ∀ {hash parent}, parent∈pool.getMemPoolParents hash →
    pool.mapTx.contains hash=true ∧ pool.mapTx.contains parent=true
  children : ∀ {hash child}, child∈pool.getMemPoolChildren hash ↔ hash∈pool.getMemPoolParents child
  totals : ∀ {hash}, pool.mapTx.contains hash=true →
    newModifiedEntry pool hash=totals pool hash (members pool hash)

/-- Totals over a transaction and its ancestors that are not in the block. -/
def exactEntry (inBlock : OrderedSet Uint256) (it : Uint256) : CTxMemPoolModifiedEntry :=
  totals pool it ((members pool it).filter (fun other => ¬other∈inBlock))

variable {pool}

theorem stageParents_unlimited (setAncestors parentHashes : OrderedSet Uint256)
    (parents : List Uint256) :
    stageParents {} setAncestors parentHashes parents=
      .ok (Walk.stageNew parents setAncestors parentHashes) := by
  induction parents generalizing parentHashes with
  | nil => rfl
  | cons phash parents ih =>
    unfold stageParents Walk.stageNew
    dsimp only
    have hexceeds : ∀ value, exceeds value none=false := fun _ => rfl
    rw [hexceeds,if_neg Bool.false_ne_true,ih]
    cases hseen : setAncestors.contains phash with
    | true =>
      rw [if_pos rfl,List.filter_cons_of_neg (by rw [hseen]; exact Bool.false_ne_true)]
      rfl
    | false =>
      rw [if_neg Bool.false_ne_true,List.filter_cons_of_pos (by rw [hseen]; rfl)]
      rfl

theorem walkAncestors_unlimited (entry : CTxMemPoolEntry) (rounds : ℕ)
    (parentHashes setAncestors : OrderedSet Uint256) (total : ℤ) :
    pool.walkAncestors entry {} rounds parentHashes setAncestors total=
      .ok (Walk.walk (parentItems pool) rounds parentHashes setAncestors) := by
  induction rounds generalizing parentHashes setAncestors total with
  | zero => rfl
  | succ rounds ih =>
    unfold walkAncestors Walk.walk
    have hexceeds : ∀ value, exceeds value none=false := fun _ => rfl
    cases hitems : parentHashes.items with
    | nil => rfl
    | cons stageit rest =>
      dsimp only
      rw [hexceeds,hexceeds,hexceeds,if_neg Bool.false_ne_true,if_neg Bool.false_ne_true,
        if_neg Bool.false_ne_true,stageParents_unlimited]
      exact ih _ _ _

theorem mem_walk_pool {next : Uint256 → List Uint256} {stage : OrderedSet Uint256}
    (hstage : ∀ hash∈stage, pool.mapTx.contains hash=true)
    (hnext : ∀ hash other, other∈next hash → pool.mapTx.contains other=true) (hash : Uint256) :
    hash∈Walk.walk next pool.mapTx.size stage .empty ↔
      ∃ root, root∈stage ∧ Relation.ReflTransGen (Walk.Edge next) root hash := by
  have hnodes : ∀ other, other∈(pool.mapTx.entries.map Prod.fst).toFinset ↔
      pool.mapTx.contains other=true := by
    intro other
    rw [contains_iff,List.mem_toFinset,List.mem_map]
    constructor
    · rintro ⟨entry,hmem,rfl⟩
      exact ⟨entry.2,(pool.mapTx.mem_entries_iff _ _).mp hmem⟩
    · rintro ⟨entry,hfind⟩
      exact ⟨(other,entry),(pool.mapTx.mem_entries_iff _ _).mpr hfind,rfl⟩
  refine Walk.mem_walk (fun key _ other hother => (hnodes other).mpr (hnext key other hother))
    ?_ ?_ hash
  · constructor
    · rintro key (hkey | hkey)
      · exact ⟨key,hkey,Relation.ReflTransGen.refl⟩
      · exact absurd hkey (mem_empty key)
    · exact fun root hroot => .inl hroot
    · exact fun key hkey => absurd hkey (mem_empty key)
    · exact fun key _ hkey => mem_empty key hkey
    · rintro key (hkey | hkey)
      · exact (hnodes key).mpr (hstage key hkey)
      · exact absurd hkey (mem_empty key)
  · refine ((Finset.card_filter_le _ _).trans (List.toFinset_card_le _)).trans ?_
    rw [List.length_map]
    rfl

variable (hpool : ConsistentPool pool)
include hpool

variable {hash other : Uint256}

theorem mem_members (hin : pool.mapTx.contains hash=true) : other∈members pool hash ↔
      Relation.ReflTransGen (Walk.Edge (parentItems pool)) hash other := by
  obtain ⟨entry,hfind⟩ := (contains_iff _ _).mp hin
  have hlink : ancestorsOf pool hash=Walk.walk (parentItems pool) pool.mapTx.size
      (pool.getMemPoolParents hash) .empty := by
    unfold ancestorsOf linkedAncestors calculateMemPoolAncestors
    rw [hfind]
    dsimp only [parentHashes,bind,Except.bind]
    rw [if_neg Bool.false_ne_true]
    dsimp only
    rw [walkAncestors_unlimited,hpool.keyed hfind]
  have hmem : other∈ancestorsOf pool hash ↔
      Relation.TransGen (Walk.Edge (parentItems pool)) hash other := by
    rw [hlink,Relation.TransGen.head'_iff]
    refine (mem_walk_pool (fun parent hpar => (hpool.parents hpar).2)
      (fun child parent hpar => (hpool.parents (mem_items.mp hpar)).2)
      other).trans ?_
    exact exists_congr (fun parent => and_congr_left (fun _ => mem_items.symm))
  rw [members,Finset.mem_insert,mem_toFinset,hmem,Relation.reflTransGen_iff_eq_or_transGen]

theorem mem_descendants {it hash : Uint256} (hin : pool.mapTx.contains it=true) :
    hash∈pool.calculateDescendants it .empty ↔
      pool.mapTx.contains hash=true ∧ it∈members pool hash := by
  have hchild : ∀ hash child, child∈childItems pool hash → pool.mapTx.contains child=true :=
    fun hash child hmem => (hpool.parents (hpool.children.mp (mem_items.mp hmem))).1
  have hedge : ∀ first second, Walk.Edge (childItems pool) first second ↔
      Walk.Edge (parentItems pool) second first := by
    intro first second
    unfold Walk.Edge childItems parentItems
    rw [mem_items,mem_items]
    exact hpool.children
  have hpath : Relation.ReflTransGen (Walk.Edge (childItems pool)) it hash ↔
      Relation.ReflTransGen (Walk.Edge (parentItems pool)) hash it := by
    have hswap : Walk.Edge (childItems pool)=Function.swap (Walk.Edge (parentItems pool)) :=
      funext fun first => funext fun second => propext (hedge first second)
    rw [hswap]
    exact Relation.reflTransGen_swap
  have hwalk : hash∈pool.calculateDescendants it .empty ↔
      Relation.ReflTransGen (Walk.Edge (childItems pool)) it hash := by
    unfold calculateDescendants
    have hempty : (.empty : OrderedSet Uint256).contains it=false := rfl
    rw [hempty,if_neg Bool.false_ne_true]
    refine (mem_walk_pool ?_ hchild hash).trans ?_
    · intro other hother
      rw [mem_insert] at hother
      rcases hother with rfl | hother
      · exact hin
      · exact absurd hother (mem_empty other)
    · constructor
      · rintro ⟨root,hroot,hreach⟩
        rw [mem_insert] at hroot
        rcases hroot with rfl | hroot
        · exact hreach
        · exact absurd hroot (mem_empty root)
      · exact fun hreach => ⟨it,mem_insert.mpr (.inl rfl),hreach⟩
  rw [hwalk]
  constructor
  · intro hreach
    have hhash : pool.mapTx.contains hash=true := by
      rcases Relation.ReflTransGen.cases_tail hreach with rfl | ⟨last,-,hlast⟩
      · exact hin
      · exact hchild last hash hlast
    exact ⟨hhash,(mem_members hpool hhash).mpr (hpath.mp hreach)⟩
  · rintro ⟨hhash,hmem⟩
    exact hpath.mpr ((mem_members hpool hhash).mp hmem)

theorem members_subset (hin : pool.mapTx.contains hash=true)
    (hmem : other∈members pool hash) {parent : Uint256}
    (hpar : parent∈pool.getMemPoolParents other) : parent∈members pool hash := by
  rw [mem_members hpool hin] at hmem ⊢
  exact hmem.tail (mem_items.mpr hpar)

theorem contains_of_member (hin : pool.mapTx.contains hash=true)
    (hmem : other∈members pool hash) : pool.mapTx.contains other=true := by
  rw [mem_members hpool hin] at hmem
  rcases Relation.ReflTransGen.cases_tail hmem with rfl | ⟨last,-,hlast⟩
  · exact hin
  · exact (hpool.parents (mem_items.mp hlast)).2

end Graph

section Lowering

variable (pool : CTxMemPool)

/-- Totals of a descendant after one of its ancestors was taken out. -/
def lowered (desc : Uint256) (old : Option CTxMemPoolModifiedEntry) (it : Uint256) :
    CTxMemPoolModifiedEntry :=
  match old with
  | none => (newModifiedEntry pool desc).without (pool.valueOf it (fun entry => entry.nTxSize))
      (pool.valueOf it (fun entry => entry.getModifiedFee))
      (pool.valueOf it (fun entry => entry.sigOpCount))
  | some entry => entry.without (pool.valueOf it (fun entry => entry.nTxSize))
      (pool.valueOf it (fun entry => entry.nFee)) (pool.valueOf it (fun entry => entry.sigOpCount))

/-- Totals without some ancestors, each with its modified fee. -/
def lowerAll (entry : CTxMemPoolModifiedEntry) (hits : List Uint256) : CTxMemPoolModifiedEntry :=
  entry.without (hits.map (fun it => pool.valueOf it (fun entry => entry.nTxSize))).sum
    (hits.map (fun it => pool.valueOf it (fun entry => entry.getModifiedFee))).sum
    (hits.map (fun it => pool.valueOf it (fun entry => entry.sigOpCount))).sum

variable {pool}

theorem find_updateDescendant (it desc other : Uint256)
    (map : OrderedMap Uint256 CTxMemPoolModifiedEntry) :
    (updateDescendant pool it desc map).find other=
      if other=desc then some (lowered pool desc (map.find desc) it) else map.find other := by
  unfold updateDescendant lowered
  cases hfind : map.find desc with
  | none => exact find_set _ _ _ _
  | some entry => exact find_set _ _ _ _

theorem find_foldl_updateDescendant (it : Uint256) {descs : List Uint256} (hnodup : descs.Nodup)
    (map : OrderedMap Uint256 CTxMemPoolModifiedEntry) (other : Uint256) :
    (descs.foldl (fun map desc => updateDescendant pool it desc map) map).find other=
      if other∈descs then some (lowered pool other (map.find other) it) else map.find other := by
  induction descs generalizing map with
  | nil => rfl
  | cons desc descs ih =>
    rw [List.nodup_cons] at hnodup
    rw [List.foldl_cons,ih hnodup.2,find_updateDescendant]
    by_cases hother : other=desc
    · rw [hother,if_neg hnodup.1,if_pos rfl,if_pos List.mem_cons_self]
    · rw [if_neg hother]
      have hmem : other∈desc::descs ↔ other∈descs := by
        rw [List.mem_cons]
        exact or_iff_right hother
      simp only [hmem]

section

variable (hpool : ConsistentPool pool) (alreadyAdded : OrderedSet Uint256)

include hpool alreadyAdded

theorem find_updateDescendants (map : OrderedMap Uint256 CTxMemPoolModifiedEntry) {it : Uint256}
    (hin : pool.mapTx.contains it=true) (other : Uint256) :
    (updateDescendants pool alreadyAdded map it).find other=
      if pool.mapTx.contains other=true ∧ it∈members pool other ∧ ¬other∈alreadyAdded then
        some (lowered pool other (map.find other) it)
      else map.find other := by
  unfold updateDescendants
  rw [find_foldl_updateDescendant it ((nodup_items _).filter _)]
  have hmem : other∈(pool.calculateDescendants it .empty).items.filter
      (fun desc => !alreadyAdded.contains desc) ↔
        pool.mapTx.contains other=true ∧ it∈members pool other ∧ ¬other∈alreadyAdded := by
    rw [List.mem_filter,mem_items,mem_descendants hpool hin,Bool.not_eq_true',
      ← Bool.not_eq_true,← mem_def,and_assoc]
  simp only [hmem]

theorem find_foldl_updateDescendants {items : List Uint256}
    (hitems : ∀ it∈items, pool.mapTx.contains it=true)
    (map : OrderedMap Uint256 CTxMemPoolModifiedEntry) {other : Uint256}
    (hin : pool.mapTx.contains other=true) (hout : ¬other∈alreadyAdded) :
    (items.foldl (updateDescendants pool alreadyAdded) map).find other=
      (items.filter (fun it => decide (it∈members pool other))).foldl
        (fun old it => some (lowered pool other old it)) (map.find other) := by
  induction items generalizing map with
  | nil => rfl
  | cons it items ih =>
    rw [List.foldl_cons,ih (fun later hlater => hitems later (List.mem_cons_of_mem _ hlater)),
      find_updateDescendants hpool alreadyAdded map (hitems it List.mem_cons_self)]
    by_cases hmem : it∈members pool other
    · rw [if_pos ⟨hin,hmem,hout⟩,List.filter_cons_of_pos (by rw [decide_eq_true_eq]; exact hmem),
        List.foldl_cons]
    · rw [if_neg (fun hboth => hmem hboth.2.1),
        List.filter_cons_of_neg (by rw [decide_eq_true_eq]; exact hmem)]

theorem find_foldl_updateDescendants_of_not {items : List Uint256}
    (hitems : ∀ it∈items, pool.mapTx.contains it=true)
    (map : OrderedMap Uint256 CTxMemPoolModifiedEntry) {other : Uint256}
    (hnot : pool.mapTx.contains other=true → other∈alreadyAdded) :
    (items.foldl (updateDescendants pool alreadyAdded) map).find other=map.find other := by
  induction items generalizing map with
  | nil => rfl
  | cons it items ih =>
    rw [List.foldl_cons,ih (fun later hlater => hitems later (List.mem_cons_of_mem _ hlater)),
      find_updateDescendants hpool alreadyAdded map (hitems it List.mem_cons_self),
      if_neg (fun hboth => hboth.2.2 (hnot hboth.1))]

end

theorem valueOf_modifiedFee (it : Uint256) :
    pool.valueOf it (fun entry => entry.getModifiedFee)=
      pool.valueOf it (fun entry => entry.nFee)+pool.valueOf it (fun entry => entry.feeDelta) := by
  unfold valueOf
  cases pool.mapTx.find it with
  | none => rfl
  | some entry => rfl

theorem foldl_lowered (desc : Uint256) {hits : List Uint256} {entry : CTxMemPoolModifiedEntry}
    (hfees : ∀ it∈hits, pool.valueOf it (fun entry => entry.feeDelta)=0) :
    hits.foldl (fun old it => some (lowered pool desc old it)) (some entry)=
      some (lowerAll pool entry hits) := by
  induction hits generalizing entry with
  | nil =>
    simp only [List.foldl_nil,lowerAll,CTxMemPoolModifiedEntry.without,List.map_nil,List.sum_nil,
      sub_zero]
  | cons it hits ih =>
    have hfee := @valueOf_modifiedFee pool it
    rw [hfees it List.mem_cons_self,add_zero] at hfee
    rw [List.foldl_cons,lowered,ih (fun later hlater =>
      hfees later (List.mem_cons_of_mem _ hlater))]
    simp only [lowerAll,CTxMemPoolModifiedEntry.without,List.map_cons,List.sum_cons,hfee,sub_sub]

theorem foldl_lowered_new (desc it : Uint256) {hits : List Uint256}
    (hfees : ∀ later∈hits, pool.valueOf later (fun entry => entry.feeDelta)=0) :
    (it::hits).foldl (fun old it => some (lowered pool desc old it)) none=
      some (lowerAll pool (newModifiedEntry pool desc) (it::hits)) := by
  rw [List.foldl_cons,lowered,foldl_lowered desc hfees]
  simp only [lowerAll,CTxMemPoolModifiedEntry.without,List.map_cons,List.sum_cons,sub_sub]

theorem lowerAll_totals {it : Uint256} {inBlock next package : OrderedSet Uint256}
    {hits : List Uint256} (hnodup : hits.Nodup)
    (hhits : ∀ other, other∈hits ↔ other∈package ∧ other∈members pool it)
    (hapart : ∀ other∈package, ¬other∈inBlock)
    (hnext : ∀ other, other∈next ↔ other∈inBlock ∨ other∈package) :
    lowerAll pool (exactEntry pool inBlock it) hits=exactEntry pool next it := by
  have hsum : ∀ value : CTxMemPoolEntry → ℤ,
      totalOf pool value ((members pool it).filter (fun other => ¬other∈inBlock))-
        (hits.map (fun other => pool.valueOf other value)).sum=
      totalOf pool value ((members pool it).filter (fun other => ¬other∈next)) := by
    intro value
    have hparts : (members pool it).filter (fun other => ¬other∈inBlock)=
        (members pool it).filter (fun other => ¬other∈next)∪hits.toFinset := by
      ext other
      rw [Finset.mem_union,Finset.mem_filter,Finset.mem_filter,List.mem_toFinset,hhits,hnext,not_or]
      grind
    have hdisjoint : Disjoint ((members pool it).filter (fun other => ¬other∈next))
        hits.toFinset := by
      rw [Finset.disjoint_left]
      intro other hrest hhit
      rw [Finset.mem_filter,hnext] at hrest
      rw [List.mem_toFinset,hhits] at hhit
      exact hrest.2 (.inr hhit.1)
    unfold totalOf
    rw [hparts,Finset.sum_union hdisjoint,← List.sum_toFinset _ hnodup]
    omega
  simp only [lowerAll,exactEntry,totals,CTxMemPoolModifiedEntry.without,hsum]

end Lowering

section Updates

variable (pool : CTxMemPool)

/-- Totals of descendants stay exact: those made anew have no ancestor in the block, and ancestors
taken out of others have no changed fee. -/
structure Undisturbed (inBlock : OrderedSet Uint256)
    (mapModifiedTx : OrderedMap Uint256 CTxMemPoolModifiedEntry)
    (package : OrderedSet Uint256) : Prop where
  anew : ∀ {desc it other}, pool.mapTx.contains desc=true → ¬desc∈package →
    mapModifiedTx.find desc=none → it∈package → it∈members pool desc →
    other∈members pool desc → ¬other∈inBlock
  /-- Totals that exist, or were made for an earlier ancestor. -/
  fees : ∀ {desc it}, pool.mapTx.contains desc=true → ¬desc∈package → it∈package →
    it∈members pool desc → (mapModifiedTx.find desc≠none ∨
      ∃ first∈package, first < it ∧ first∈members pool desc) →
    pool.valueOf it (fun entry => entry.feeDelta)=0

variable {pool} (hpool : ConsistentPool pool) {inBlock next package : OrderedSet Uint256}
  {map erased : OrderedMap Uint256 CTxMemPoolModifiedEntry}
include hpool

theorem exactEntry_of_apart {it : Uint256} (hin : pool.mapTx.contains it=true)
    (hapart : ∀ other∈members pool it, ¬other∈inBlock) :
    exactEntry pool inBlock it=newModifiedEntry pool it := by
  rw [hpool.totals hin,exactEntry,Finset.filter_true_of_mem hapart]

theorem find_updatePackages (hdist : Undisturbed pool inBlock map package)
    (hpackage : ∀ it∈package, pool.mapTx.contains it=true)
    (hapart : ∀ it∈package, ¬it∈inBlock)
    (hnext : ∀ other, other∈next ↔ other∈inBlock ∨ other∈package) {desc : Uint256}
    (hin : pool.mapTx.contains desc=true) (hout : ¬desc∈package)
    (hexact : ∀ entry, map.find desc=some entry → entry=exactEntry pool inBlock desc)
    (herased : erased.find desc=map.find desc) :
    (map.find desc=none → (∀ it∈package, ¬it∈members pool desc) →
      (updatePackagesForAdded pool package erased).find desc=none) ∧
    ((map.find desc≠none ∨ ∃ it∈package, it∈members pool desc) →
      (updatePackagesForAdded pool package erased).find desc=
        some (exactEntry pool next desc)) := by
  unfold updatePackagesForAdded
  rw [find_foldl_updateDescendants hpool package
    (fun it hit => hpackage it (mem_items.mp hit)) erased hin hout,herased]
  generalize hhits : package.items.filter (fun it => decide (it∈members pool desc))=hits
  have hmem : ∀ it, it∈hits ↔ it∈package ∧ it∈members pool desc := by
    intro it
    rw [← hhits,List.mem_filter,mem_items,decide_eq_true_eq]
  have hsorted : hits.Pairwise (· < ·) := by
    rw [← hhits]
    exact (List.pairwise_map.mpr package.map.sorted).filter _
  have hnodup : hits.Nodup := hsorted.imp (fun hlt => ne_of_lt hlt)
  have hlower := @lowerAll_totals pool desc inBlock next package hits hnodup hmem hapart hnext
  cases hfind : map.find desc with
  | some entry =>
    refine ⟨fun hnone => absurd hnone (Option.some_ne_none _),fun _ => ?_⟩
    rw [foldl_lowered desc (fun it hit => hdist.fees hin hout ((hmem it).mp hit).1
      ((hmem it).mp hit).2 (.inl (by rw [hfind]; exact Option.some_ne_none _))),
      hexact entry hfind,hlower]
  | none =>
    cases hits with
    | nil =>
      grind
    | cons first rest =>
      obtain ⟨hfirst,hmember⟩ := (hmem first).mp List.mem_cons_self
      refine ⟨fun _ hnone => absurd hmember (hnone first hfirst),fun _ => ?_⟩
      rw [foldl_lowered_new desc first]
      · have hsame := exactEntry_of_apart hpool hin
          (fun other hother => hdist.anew hin hout hfind hfirst hmember hother)
        rw [← hsame,hlower]
      · intro it hit
        obtain ⟨hitPackage,hitMember⟩ := (hmem it).mp (List.mem_cons_of_mem _ hit)
        exact hdist.fees hin hout hitPackage hitMember
          (.inr ⟨first,hfirst,List.rel_of_pairwise_cons hsorted hit,hmember⟩)

end Updates

section Block

variable {pool : CTxMemPool} {rules : Rules}

/-- With a transaction its parents are in the block, and all are in the pool. -/
structure ClosedBlock (pool : CTxMemPool) (inBlock : OrderedSet Uint256) : Prop where
  parents : ∀ {it parent}, it∈inBlock → parent∈pool.getMemPoolParents it → parent∈inBlock
  known : ∀ {it}, it∈inBlock → pool.mapTx.contains it=true

theorem mem_foldl_addToBlock (items : List Uint256) (assembler : Assembler) (other : Uint256) :
    other∈(items.foldl (addToBlock pool) assembler).inBlock ↔
      other∈assembler.inBlock ∨ other∈items := by
  induction items generalizing assembler with
  | nil => exact (or_iff_left List.not_mem_nil).symm
  | cons it items ih =>
    rw [List.foldl_cons,ih,addToBlock,mem_insert,List.mem_cons,or_comm (a:=other=it),or_assoc]

theorem inBlock_testForBlock (assembler : Assembler) (entry : CTxMemPoolEntry) :
    (testForBlock rules assembler entry).2.inBlock=assembler.inBlock := by
  unfold testForBlock
  split_ifs <;> rfl

/-- A transaction that is taken for its priority has its parents in the block. -/
theorem closedBlock_tryPriorityTx {assembler : Assembler} (iter : Uint256)
    (h : ClosedBlock pool assembler.inBlock) :
    ClosedBlock pool (tryPriorityTx pool rules assembler iter).inBlock := by
  unfold tryPriorityTx
  cases hfind : pool.mapTx.find iter with
  | none => exact h
  | some entry =>
    dsimp only
    split_ifs with hskip htested
    · exact h
    · rw [Bool.or_eq_true,not_or] at hskip
      have hparents : ∀ parent∈pool.getMemPoolParents iter, parent∈assembler.inBlock := by
        intro parent hpar
        by_contra hout
        refine hskip.2 (List.any_eq_true.mpr ⟨parent,mem_items.mpr hpar,?_⟩)
        rw [Bool.not_eq_true',← Bool.not_eq_true]
        exact hout
      have hmem : ∀ other, other∈(addToBlock pool (testForBlock rules assembler entry).2
          iter).inBlock ↔ other=iter ∨ other∈assembler.inBlock := by
        intro other
        rw [addToBlock,mem_insert,inBlock_testForBlock]
      constructor
      · intro it parent hit hpar
        rw [hmem] at hit ⊢
        rcases hit with rfl | hit
        · exact .inr (hparents parent hpar)
        · exact .inr (h.parents hit hpar)
      · intro it hit
        rw [hmem] at hit
        rcases hit with rfl | hit
        · exact (contains_iff _ _).mpr ⟨entry,hfind⟩
        · exact h.known hit
    · rw [inBlock_testForBlock]
      exact h

theorem closedBlock_addPriorityTxs (queue : List Uint256) {assembler : Assembler}
    (h : ClosedBlock pool assembler.inBlock) :
    ClosedBlock pool (addPriorityTxs pool rules queue assembler).inBlock := by
  induction queue generalizing assembler with
  | nil => exact h
  | cons iter queue ih => exact ih (closedBlock_tryPriorityTx iter h)

end Block

/-- The totals of a candidate are those of the transaction and its ancestors that are
not in the block. -/
structure ExactTotals (pool : CTxMemPool) (inBlock : OrderedSet Uint256)
    (cand : Candidate) : Prop where
  packageSize : cand.packageSize=totalOf pool (fun entry => entry.nTxSize)
    ((members pool cand.iter).filter (fun other => ¬other∈inBlock))
  packageFees : cand.packageFees=totalOf pool (fun entry => entry.getModifiedFee)
    ((members pool cand.iter).filter (fun other => ¬other∈inBlock))
  packageSigOps : cand.packageSigOps=totalOf pool (fun entry => entry.sigOpCount)
    ((members pool cand.iter).filter (fun other => ¬other∈inBlock))

/-- A package is only added while it leaves the totals of its descendants exact. -/
def UndisturbedPass (pool : CTxMemPool) (st : PackageState) : Iteration → Prop
  | .added _ package _ =>
    Undisturbed pool st.assembler.inBlock st.mapModifiedTx package
  | _ => True

/-- What holds between two passes. -/
structure Fresh (pool : CTxMemPool) (st : PackageState) : Prop where
  closed : ClosedBlock pool st.assembler.inBlock
  exact : ∀ {it entry}, st.mapModifiedTx.find it=some entry →
    pool.mapTx.contains it=true ∧ entry=exactEntry pool st.assembler.inBlock it
  /-- Descendants of the block have totals, unless they did not fit. -/
  covered : ∀ {it}, pool.mapTx.contains it=true → ¬it∈st.assembler.inBlock →
    st.mapModifiedTx.find it=none → ¬it∈st.failedTx →
    ∀ other∈members pool it, ¬other∈st.assembler.inBlock
  mi : ∀ it∈st.mi, pool.mapTx.contains it=true

section Passes

variable {pool : CTxMemPool} {rules : Rules}

theorem firstModified_mem {entries : List (Uint256×CTxMemPoolModifiedEntry)}
    {best : CTxMemPoolModifiedEntry} (hbest : firstModified rules entries=some best) :
    ∃ it, (it,best)∈entries := by
  induction entries with
  | nil => cases hbest
  | cons entry entries ih =>
    unfold firstModified at hbest
    cases hrest : firstModified rules entries with
    | none =>
      rw [hrest] at hbest
      cases hbest
      exact ⟨entry.1,List.mem_cons_self⟩
    | some other =>
      grind

/-- A chosen candidate has exact totals. -/
structure Chosen (pool : CTxMemPool) (st : PackageState) (cand : Candidate)
    (next : PackageState) : Prop where
  known : pool.mapTx.contains cand.iter=true
  exact : cand=Candidate.of cand.fUsingModified
    (exactEntry pool st.assembler.inBlock cand.iter)
  fresh : Fresh pool next
  assembler : next.assembler=st.assembler
  mapModifiedTx : next.mapModifiedTx=st.mapModifiedTx

variable {st : PackageState}

theorem choose_spec (hpool : ConsistentPool pool) (h : Fresh pool st)
    (hskip : ∀ it mi, st.mi=it::mi → skipMapTxEntry st it=false)
    {chosen : Candidate×PackageState} (hchosen : choose pool rules st=some chosen) :
    Chosen pool st chosen.1 chosen.2 := by
  have hmodified : ∀ {modit}, firstModified rules st.mapModifiedTx.entries=some modit →
      Chosen pool st (.of true modit) st := by
    intro modit hbest
    obtain ⟨it,hmem⟩ := firstModified_mem hbest
    obtain ⟨hin,hentry⟩ := h.exact ((st.mapModifiedTx.mem_entries_iff _ _).mp hmem)
    rw [hentry]
    exact ⟨hin,rfl,h,rfl,rfl⟩
  have hentry : ∀ {it mi}, st.mi=it::mi →
      Chosen pool st (.of false (newModifiedEntry pool it))
        { st with mi := st.mi.tail } := by
    intro it mi hmi
    have hin := h.mi it (by rw [hmi]; exact List.mem_cons_self)
    have hnot := hskip it mi hmi
    unfold skipMapTxEntry at hnot
    rw [Bool.or_eq_false_iff,Bool.or_eq_false_iff,contains_eq_false] at hnot
    have hsame := exactEntry_of_apart hpool hin (h.covered hin (Bool.eq_false_iff.mp hnot.1.2)
      hnot.1.1 (Bool.eq_false_iff.mp hnot.2))
    rw [← hsame]
    exact ⟨hin,rfl,⟨h.closed,h.exact,h.covered,
      fun other hother => h.mi other (List.mem_of_mem_tail hother)⟩,rfl,rfl⟩
  unfold choose at hchosen
  cases hmi : st.mi with
  | nil =>
    cases hbest : firstModified rules st.mapModifiedTx.entries with
    | none => rw [hmi,hbest] at hchosen; cases hchosen
    | some modit =>
      rw [hmi,hbest] at hchosen
      cases hchosen
      exact hmodified hbest
  | cons it mi =>
    have htail := hentry hmi
    cases hbest : firstModified rules st.mapModifiedTx.entries with
    | none =>
      rw [hmi] at htail
      rw [hmi,hbest] at hchosen
      cases hchosen
      exact htail
    | some modit =>
      grind

theorem Fresh.forgetFailed (h : Fresh pool st) (cand : Candidate) (failures : ℕ) :
    Fresh pool { BlockAssembler.forgetFailed cand st with
      nConsecutiveFailed := failures } := by
  unfold BlockAssembler.forgetFailed
  split_ifs
  · refine ⟨h.closed,fun {it entry} hfind => ?_,fun {it} hin hout hnone hfail => ?_,h.mi⟩
    · dsimp only at hfind
      rw [find_erase] at hfind
      split_ifs at hfind
      exact h.exact hfind
    · dsimp only at hnone hfail
      rw [mem_insert,not_or] at hfail
      rw [find_erase,if_neg hfail.1] at hnone
      exact h.covered hin hout hnone hfail.2
  · exact ⟨h.closed,h.exact,h.covered,h.mi⟩

theorem mem_packageOf {assembler : Assembler} {iter : Uint256} (hout : ¬iter∈assembler.inBlock)
    (it : Uint256) :
    it∈packageOf pool assembler iter ↔ it∈members pool iter ∧ ¬it∈assembler.inBlock := by
  unfold packageOf members
  rw [mem_insert,mem_insertAll,List.mem_filter,mem_items,
    Bool.not_eq_true',← Bool.not_eq_true,← mem_def,Finset.mem_insert,mem_toFinset]
  constructor
  · rintro (rfl | ⟨hmem,hnot⟩ | hempty)
    · exact ⟨.inl rfl,hout⟩
    · exact ⟨.inr hmem,hnot⟩
    · exact absurd hempty (mem_empty it)
  · rintro ⟨rfl | hmem,hnot⟩
    · exact .inl rfl
    · exact .inr (.inl ⟨hmem,hnot⟩)

theorem mem_sortForBlock (package : OrderedSet Uint256) (it : Uint256) :
    it∈sortForBlock pool package ↔ it∈package := by
  unfold sortForBlock
  rw [List.mem_insertionSort,mem_items]

/-- Adding the package of a candidate keeps the totals exact, if it leaves those of
its descendants so. -/
theorem Fresh.addPackage (hpool : ConsistentPool pool)
    (h : Fresh pool st) {iter : Uint256} (hin : pool.mapTx.contains iter=true)
    (hout : ¬iter∈st.assembler.inBlock)
    (hdist : Undisturbed pool st.assembler.inBlock st.mapModifiedTx
      (packageOf pool st.assembler iter)) :
    Fresh pool (BlockAssembler.addPackage pool (packageOf pool st.assembler iter) st) := by
  have hmem := @mem_packageOf pool _ _ hout
  generalize packageOf pool st.assembler iter=package at *
  have hknown : ∀ it∈package, pool.mapTx.contains it=true :=
    fun it hit => contains_of_member hpool hin ((hmem it).mp hit).1
  have hapart : ∀ it∈package, ¬it∈st.assembler.inBlock := fun it hit => ((hmem it).mp hit).2
  have hnext : ∀ other,
      other∈((sortForBlock pool package).foldl (addToBlock pool) st.assembler).inBlock ↔
        other∈st.assembler.inBlock ∨ other∈package := by
    intro other
    rw [mem_foldl_addToBlock,mem_sortForBlock]
  have herased : ∀ it, ((sortForBlock pool package).foldl (fun map it => map.erase it)
      st.mapModifiedTx).find it=if it∈package then none else st.mapModifiedTx.find it := by
    intro it
    rw [find_foldl_erase]
    simp only [mem_sortForBlock]
  have hnot : ∀ it, (pool.mapTx.contains it=true → it∈package) →
      (updatePackagesForAdded pool package ((sortForBlock pool package).foldl
        (fun map it => map.erase it) st.mapModifiedTx)).find it=
      if it∈package then none else st.mapModifiedTx.find it := by
    intro it hit
    rw [← herased]
    exact find_foldl_updateDescendants_of_not hpool package
      (fun other hother => hknown other (mem_items.mp hother)) _ hit
  have hupdated : ∀ {it}, pool.mapTx.contains it=true → ¬it∈package → _ := fun {it} hit hitOut =>
    find_updatePackages hpool hdist hknown hapart hnext hit hitOut
      (fun entry hentry => (h.exact hentry).2) ((herased it).trans (if_neg hitOut))
  unfold BlockAssembler.addPackage
  refine ⟨⟨fun {it parent} hit hpar => ?_,fun {it} hit => ?_⟩,fun {it entry} hfind => ?_,
    fun {it} hit hitOut hnone hfail other hother => ?_,h.mi⟩
  · rw [hnext] at hit ⊢
    rcases hit with hit | hit
    · exact .inl (h.closed.parents hit hpar)
    · by_cases hblock : parent∈st.assembler.inBlock
      · exact .inl hblock
      · exact .inr ((hmem parent).mpr
          ⟨members_subset hpool hin ((hmem it).mp hit).1 hpar,hblock⟩)
  · rw [hnext] at hit
    exact hit.elim h.closed.known (hknown it)
  · dsimp only at hfind ⊢
    by_cases hpackage : it∈package
    · rw [hnot it (fun _ => hpackage),if_pos hpackage] at hfind
      cases hfind
    · cases hhas : pool.mapTx.contains it with
      | false =>
        rw [hnot it (fun htrue => by rw [hhas] at htrue; cases htrue),if_neg hpackage] at hfind
        rw [(h.exact hfind).1] at hhas
        cases hhas
      | true =>
        obtain ⟨hgone,hexact⟩ := hupdated hhas hpackage
        refine ⟨rfl,?_⟩
        by_cases hold : st.mapModifiedTx.find it=none ∧ ∀ hit∈package, ¬hit∈members pool it
        · rw [hgone hold.1 hold.2] at hfind
          cases hfind
        · rw [not_and_or] at hold
          push Not at hold
          rw [hexact hold] at hfind
          exact (Option.some.inj hfind).symm
  · dsimp only at hitOut hnone hfail ⊢
    rw [hnext,not_or] at hitOut ⊢
    obtain ⟨-,hexact⟩ := hupdated hit hitOut.2
    have hold : st.mapModifiedTx.find it=none ∧ ∀ hit∈package, ¬hit∈members pool it := by
      grind
    exact ⟨h.covered hit hitOut.1 hold.1 hfail other hother,
      fun hpackage => hold.2 other hpackage hother⟩

/-- What a pass does between two states with exact totals. -/
structure PassSpec (pool : CTxMemPool) (st : PackageState) (pass : Iteration) : Prop where
  exact : ∀ cand, pass.cand=some cand →
    ExactTotals pool st.assembler.inBlock cand
  fresh : UndisturbedPass pool st pass → ∀ next, pass.next=some next → Fresh pool next

theorem consider_spec (hpool : ConsistentPool pool) {st chosen : PackageState}
    {cand : Candidate} (h : Chosen pool st cand chosen) :
    PassSpec pool st (consider pool rules cand chosen) := by
  have hexact : ExactTotals pool st.assembler.inBlock cand := by
    have htotals := h.exact
    exact ⟨congrArg Candidate.packageSize htotals,congrArg Candidate.packageFees htotals,
      congrArg Candidate.packageSigOps htotals⟩
  have hsame : ∀ {other}, some cand=some other →
      ExactTotals pool st.assembler.inBlock other := by
    intro other hother
    rw [← Option.some.inj hother]
    exact hexact
  unfold consider
  dsimp only
  split_ifs with hin hfees hfits hgiveUp hfinal
  · exact ⟨fun other hother => absurd hother.symm (Option.some_ne_none other),
      fun _ next hnext => absurd hnext.symm (Option.some_ne_none next)⟩
  · exact ⟨fun other hother => hsame hother,
      fun _ next hnext => absurd hnext.symm (Option.some_ne_none next)⟩
  · exact ⟨fun other hother => hsame hother,
      fun _ next hnext => absurd hnext.symm (Option.some_ne_none next)⟩
  · refine ⟨fun other hother => hsame hother,fun _ next hnext => ?_⟩
    cases hnext
    exact h.fresh.forgetFailed cand _
  · refine ⟨fun other hother => hsame hother,fun hdist next hnext => ?_⟩
    cases hnext
    refine h.fresh.addPackage hpool h.known hin ?_
    rw [h.assembler,h.mapModifiedTx]
    rw [h.assembler] at hdist
    exact hdist
  · refine ⟨fun other hother => hsame hother,fun _ next hnext => ?_⟩
    cases hnext
    have hforget := h.fresh.forgetFailed cand
      (forgetFailed cand chosen).nConsecutiveFailed
    exact hforget

theorem iteration_spec (hpool : ConsistentPool pool) {st : PackageState}
    (h : Fresh pool st) : PassSpec pool st (iteration pool rules st) := by
  have hconsider : ∀ result, (choose pool rules st=none → result=.finished) →
      (∀ chosen, choose pool rules st=some chosen →
        result=consider pool rules chosen.1 chosen.2) →
      (∀ it mi, st.mi=it::mi → skipMapTxEntry st it=false) → PassSpec pool st result := by
    intro result hnone hsome hskip
    cases hchosen : choose pool rules st with
    | none =>
      rw [hnone hchosen]
      exact ⟨fun other hother => absurd hother.symm (Option.some_ne_none other),
        fun _ next hnext => absurd hnext.symm (Option.some_ne_none next)⟩
    | some chosen =>
      rw [hsome chosen hchosen]
      exact consider_spec hpool (choose_spec hpool h hskip hchosen)
  unfold iteration
  cases hmi : st.mi with
  | nil =>
    refine hconsider _ (fun hnone => by rw [hnone]) (fun chosen hsome => by rw [hsome]) ?_
    intro it mi hcons
    rw [hmi] at hcons
    cases hcons
  | cons it mi =>
    dsimp only
    cases hskip : skipMapTxEntry st it with
    | true =>
      rw [if_pos rfl]
      refine ⟨fun other hother => absurd hother.symm (Option.some_ne_none other),
        fun _ next hnext => ?_⟩
      cases hnext
      exact ⟨h.closed,h.exact,h.covered,
        fun other hother => h.mi other (by rw [hmi]; exact List.mem_cons_of_mem _ hother)⟩
    | false =>
      rw [if_neg Bool.false_ne_true]
      refine hconsider _ (fun hnone => by rw [hnone]) (fun chosen hsome => by rw [hsome]) ?_
      intro other rest hcons
      rw [hmi,List.cons.injEq] at hcons
      rw [← hcons.1,hskip]

/-- The loop starts with exact totals, if the transactions of high priority leave
those of their descendants so. -/
theorem fresh_start (hpool : ConsistentPool pool) {assembler : Assembler}
    (hclosed : ClosedBlock pool assembler.inBlock)
    (hdist : Undisturbed pool .empty .empty assembler.inBlock) :
    Fresh pool (startPackages pool rules assembler) := by
  have hempty : ∀ it, ¬it∈(.empty : OrderedSet Uint256) := mem_empty
  have hnext : ∀ other, other∈assembler.inBlock ↔
      other∈(.empty : OrderedSet Uint256) ∨ other∈assembler.inBlock :=
    fun other => (or_iff_right (hempty other)).symm
  have hupdated : ∀ {it}, pool.mapTx.contains it=true → ¬it∈assembler.inBlock → _ :=
    fun {it} hit hout => find_updatePackages hpool hdist (fun other hother => hclosed.known hother)
      (fun other _ => hempty other) hnext hit hout (fun entry hentry => by cases hentry) rfl
  have hnot : ∀ it, (pool.mapTx.contains it=true → it∈assembler.inBlock) →
      (updatePackagesForAdded pool assembler.inBlock .empty).find it=none :=
    fun it hit => find_foldl_updateDescendants_of_not hpool assembler.inBlock
      (fun other hother => hclosed.known (mem_items.mp hother)) .empty hit
  refine ⟨hclosed,fun {it entry} hfind => ?_,fun {it} hit hout hnone _ other hother hblock => ?_,
    fun it hit => ?_⟩
  · have hout : pool.mapTx.contains it=true ∧ ¬it∈assembler.inBlock := by
      by_contra hcon
      rw [not_and,not_not] at hcon
      change (updatePackagesForAdded pool assembler.inBlock .empty).find it=_ at hfind
      rw [hnot it hcon] at hfind
      cases hfind
    obtain ⟨hgone,hexact⟩ := hupdated hout.1 hout.2
    refine ⟨hout.1,?_⟩
    by_cases hmember : ∃ other∈assembler.inBlock, other∈members pool it
    · exact (Option.some.inj ((hexact (.inr hmember)).symm.trans hfind)).symm
    · push Not at hmember
      exact absurd ((hgone rfl hmember).symm.trans hfind).symm (Option.some_ne_none entry)
  · obtain ⟨-,hexact⟩ := hupdated hit hout
    have hsome := hexact (.inr ⟨other,hblock,hother⟩)
    exact absurd (hsome.symm.trans hnone) (Option.some_ne_none _)
  · have hmem : it∈ancestorScore pool rules := hit
    unfold ancestorScore at hmem
    rw [List.mem_insertionSort,List.mem_map] at hmem
    obtain ⟨entry,hentry,rfl⟩ := hmem
    exact (contains_iff _ _).mpr ⟨entry.2,(pool.mapTx.mem_entries_iff _ _).mp hentry⟩

/-- As long as added packages leave totals of descendants exact, each pass considers its transaction
with the totals over it and its ancestors that are not in the block. -/
theorem addPackageTxs_exact (hpool : ConsistentPool pool) (rules : Rules) (commitments : ℕ)
    (queue : List Uint256) (passes : ℕ)
    (hstart : Undisturbed pool .empty .empty
      (addPriorityTxs pool rules queue (resetBlock commitments)).inBlock)
    (hpasses : ∀ pass∈addPackageTxs pool rules passes (startPackages pool rules
      (addPriorityTxs pool rules queue (resetBlock commitments))),
      UndisturbedPass pool pass.1 pass.2) :
    ∀ pass∈addPackageTxs pool rules passes (startPackages pool rules
      (addPriorityTxs pool rules queue (resetBlock commitments))),
      ∀ cand, pass.2.cand=some cand →
        ExactTotals pool pass.1.assembler.inBlock cand := by
  have hempty : ClosedBlock pool (resetBlock commitments).inBlock :=
    ⟨fun hit => absurd hit (mem_empty _),fun hit => absurd hit (mem_empty _)⟩
  have hfresh := @fresh_start pool rules hpool _ (closedBlock_addPriorityTxs queue hempty) hstart
  generalize startPackages pool rules (addPriorityTxs pool rules queue (resetBlock commitments))=
    st at hfresh hpasses
  induction passes generalizing st with
  | zero => exact fun pass hpass => absurd hpass List.not_mem_nil
  | succ passes ih =>
    have hspec := @iteration_spec pool rules hpool _ hfresh
    unfold addPackageTxs at hpasses ⊢
    intro pass hpass
    rcases List.mem_cons.mp hpass with rfl | hpass
    · exact hspec.exact
    · cases hnext : (iteration pool rules st).next with
      | none =>
        rw [hnext] at hpass
        exact absurd hpass List.not_mem_nil
      | some next =>
        rw [hnext] at hpass hpasses
        exact ih next (hspec.fresh (hpasses _ List.mem_cons_self) next hnext)
          (fun later hlater => hpasses later (List.mem_cons_of_mem _ hlater)) pass hpass

end Passes

/-- Whether links and totals of a pool fit together. -/
def isConsistent (pool : CTxMemPool) : Bool :=
  pool.mapTx.entries.all (fun entry => decide (entry.2.tx.hash=entry.1) &&
    decide (newModifiedEntry pool entry.1=totals pool entry.1 (members pool entry.1))) &&
  pool.mapLinks.entries.all (fun entry => pool.mapTx.contains entry.1 &&
    entry.2.parents.items.all (fun parent => pool.mapTx.contains parent &&
      (pool.getMemPoolChildren parent).contains entry.1) &&
    entry.2.children.items.all (fun child => (pool.getMemPoolParents child).contains entry.1))

theorem consistentPool_of_check {pool : CTxMemPool} (hcheck : isConsistent pool=true) :
    ConsistentPool pool := by
  unfold isConsistent at hcheck
  rw [Bool.and_eq_true,List.all_eq_true,List.all_eq_true] at hcheck
  obtain ⟨hentries,hlinks⟩ := hcheck
  have hlinksOf : ∀ {hash : Uint256}, (∃ other, other∈pool.getMemPoolParents hash) ∨
      (∃ other, other∈pool.getMemPoolChildren hash) →
        ∃ links, (hash,links)∈pool.mapLinks.entries ∧ pool.linksOf hash=links := by
    intro hash hother
    cases hfind : pool.mapLinks.find hash with
    | some links =>
      exact ⟨links,(pool.mapLinks.mem_entries_iff _ _).mpr hfind,by
        rw [linksOf,hfind,Option.getD_some]⟩
    | none =>
      have hempty : pool.linksOf hash={} := by rw [linksOf,hfind,Option.getD_none]
      unfold getMemPoolParents getMemPoolChildren at hother
      rw [hempty] at hother
      rcases hother with ⟨other,hmem⟩ | ⟨other,hmem⟩
      · exact absurd hmem (mem_empty other)
      · exact absurd hmem (mem_empty other)
  have hparents : ∀ {hash parent : Uint256}, parent∈pool.getMemPoolParents hash →
      pool.mapTx.contains hash=true ∧ pool.mapTx.contains parent=true ∧
        hash∈pool.getMemPoolChildren parent := by
    intro hash parent hpar
    obtain ⟨links,hmem,hlinksEq⟩ := hlinksOf (.inl ⟨parent,hpar⟩)
    have hfit := hlinks _ hmem
    rw [Bool.and_eq_true,Bool.and_eq_true,List.all_eq_true] at hfit
    unfold getMemPoolParents at hpar
    rw [hlinksEq] at hpar
    have hboth := hfit.1.2 parent (mem_items.mpr hpar)
    rw [Bool.and_eq_true] at hboth
    exact ⟨hfit.1.1,hboth.1,hboth.2⟩
  refine ⟨fun {hash entry} hfind => ?_,fun {hash parent} hpar =>
    ⟨(hparents hpar).1,(hparents hpar).2.1⟩,fun {hash child} => ⟨fun hchild => ?_,
      fun hpar => (hparents hpar).2.2⟩,fun {hash} hin => ?_⟩
  · have hfit := hentries _ ((pool.mapTx.mem_entries_iff _ _).mpr hfind)
    rw [Bool.and_eq_true,decide_eq_true_eq] at hfit
    exact hfit.1
  · obtain ⟨links,hmem,hlinksEq⟩ := hlinksOf (.inr ⟨child,hchild⟩)
    have hfit := hlinks _ hmem
    rw [Bool.and_eq_true,List.all_eq_true] at hfit
    unfold getMemPoolChildren at hchild
    rw [hlinksEq] at hchild
    exact hfit.2 child (mem_items.mpr hchild)
  · obtain ⟨entry,hfind⟩ := (contains_iff _ _).mp hin
    have hfit := hentries _ ((pool.mapTx.mem_entries_iff _ _).mpr hfind)
    rw [Bool.and_eq_true,decide_eq_true_eq,decide_eq_true_eq] at hfit
    exact hfit.2

/-- A transaction that spends first outputs of others. -/
def sampleInfo (hash : Uint256) (spends : List Uint256) (nFee : ℤ) (nTxSize : ℕ)
    (nTxSize_pos : 0 < nTxSize) : EntryInfo where
  tx := { vin := spends.map (fun parent => { prevout := ⟨parent,0⟩ }), hash := hash,
          payload_special := CTransaction.payload_plain }
  nFee := nFee
  nTxSize := nTxSize
  nTxSize_pos := nTxSize_pos

/-- A pool with two transactions and one that depends on both. -/
def samplePool : CTxMemPool :=
  (([sampleInfo 1 [] 10000 100 (by decide),sampleInfo 2 [] 100 100 (by decide),
    sampleInfo 3 [1,2] 5000 500 (by decide)].foldlM (accept ⟨fun _ => 5,{}⟩ {}) {} :
      Checked CTxMemPool).toOption).getD {}

/-- Rules with exact products and room for so many bytes. -/
def sampleRules (nBlockMaxSize : ℤ) : Rules where
  isFinalTx := fun _ => true
  getFee := fun _ => 0
  product := fun a b => a*b
  nBlockMaxSize := nBlockMaxSize
  maxBlockSigOps := 40000

theorem consistentPool_sample : ConsistentPool samplePool := consistentPool_of_check rfl

/-- Whether a package without changed fees leaves the totals of its descendants
exact. -/
def isUndisturbed (pool : CTxMemPool) (inBlock : OrderedSet Uint256)
    (mapModifiedTx : OrderedMap Uint256 CTxMemPoolModifiedEntry)
    (package : OrderedSet Uint256) : Bool :=
  pool.mapTx.entries.all (fun entry => package.contains entry.1 || package.items.all (fun it =>
    !decide (it∈members pool entry.1) ||
      (decide (pool.valueOf it (fun entry => entry.feeDelta)=0) &&
        (mapModifiedTx.contains entry.1 ||
          decide (∀ other∈members pool entry.1, ¬other∈inBlock)))))

theorem undisturbed_of_check {pool : CTxMemPool} {inBlock package : OrderedSet Uint256}
    {map : OrderedMap Uint256 CTxMemPoolModifiedEntry}
    (hcheck : isUndisturbed pool inBlock map package=true) :
    Undisturbed pool inBlock map package := by
  unfold isUndisturbed at hcheck
  rw [List.all_eq_true] at hcheck
  have hfit : ∀ {desc it : Uint256}, pool.mapTx.contains desc=true → ¬desc∈package →
      it∈package → it∈members pool desc → pool.valueOf it (fun entry => entry.feeDelta)=0 ∧
        (map.contains desc=true ∨ ∀ other∈members pool desc, ¬other∈inBlock) := by
    intro desc it hin hout hit hmember
    obtain ⟨entry,hfind⟩ := (contains_iff _ _).mp hin
    have hdesc := hcheck _ ((pool.mapTx.mem_entries_iff _ _).mpr hfind)
    rw [Bool.or_eq_true,List.all_eq_true] at hdesc
    have hpackage := hdesc.resolve_left hout it (mem_items.mpr hit)
    rw [decide_eq_true hmember,Bool.not_true,Bool.false_or,Bool.and_eq_true,Bool.or_eq_true,
      decide_eq_true_eq,decide_eq_true_eq] at hpackage
    exact hpackage
  refine ⟨fun {desc it other} hin hout hnone hit hmember hother => ?_,
    fun {desc it} hin hout hit hmember _ => (hfit hin hout hit hmember).1⟩
  refine (hfit hin hout hit hmember).2.resolve_left ?_ other hother
  rw [Bool.not_eq_true,contains_eq_false]
  exact hnone

def isUndisturbedPass (pool : CTxMemPool) (pass : PackageState×Iteration) : Bool :=
  match pass.2 with
  | .added _ package _ =>
    isUndisturbed pool pass.1.assembler.inBlock pass.1.mapModifiedTx package
  | _ => true

/-- With room for all, the totals are exact in every pass. -/
theorem addPackageTxs_exact_sample :
    ConsistentPool samplePool ∧
    ∀ pass∈addPackageTxs samplePool (sampleRules 5000) 6 (startPackages samplePool
      (sampleRules 5000) (addPriorityTxs samplePool (sampleRules 5000) [] (resetBlock 0))),
      ∀ cand, pass.2.cand=some cand →
        ExactTotals samplePool pass.1.assembler.inBlock cand := by
  refine ⟨consistentPool_sample,addPackageTxs_exact consistentPool_sample (sampleRules 5000) 0 [] 6
    (undisturbed_of_check rfl) ?_⟩
  have hcheck : (addPackageTxs samplePool (sampleRules 5000) 6 (startPackages samplePool
      (sampleRules 5000) (addPriorityTxs samplePool (sampleRules 5000) [] (resetBlock 0)))).all
        (isUndisturbedPass samplePool)=true := rfl
  intro pass hpass
  have hpassCheck := List.all_eq_true.mp hcheck pass hpass
  unfold isUndisturbedPass at hpassCheck
  cases houtcome : pass.2 with
  | added cand package next =>
    rw [houtcome] at hpassCheck
    exact undisturbed_of_check hpassCheck
  | _ => exact trivial

/-- A transaction that did not fit with its second parent is considered again with the first one
counted, which is in the block. -/
theorem totals_made_again :
    ¬∀ pool rules commitments queue passes, ConsistentPool pool →
      ∀ pass∈addPackageTxs pool rules passes (startPackages pool rules
        (addPriorityTxs pool rules queue (resetBlock commitments))),
        ∀ cand, pass.2.cand=some cand →
          ExactTotals pool pass.1.assembler.inBlock cand := by
  intro hall
  have hcheck : ((addPackageTxs samplePool (sampleRules 1700) 5 (startPackages samplePool
      (sampleRules 1700) (addPriorityTxs samplePool (sampleRules 1700) [] (resetBlock 0))))[4]?.map
      (fun pass => (pass.2.cand,totalOf samplePool (fun entry => entry.nTxSize)
        ((members samplePool 3).filter (fun other => ¬other∈pass.1.assembler.inBlock)))))=
      some (some ⟨3,true,600,15000,0⟩,500) := rfl
  obtain ⟨pass,hpass,hvalues⟩ := Option.map_eq_some_iff.mp hcheck
  obtain ⟨hcand,htotal⟩ := Prod.mk.inj hvalues
  have hexact := (hall samplePool (sampleRules 1700) 0 [] 5 consistentPool_sample pass
    (List.mem_of_getElem? hpass) _ hcand).packageSize
  dsimp only at hexact
  rw [htotal] at hexact
  omega

end Pyrk.PackageScores
