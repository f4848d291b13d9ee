import Pyrk.BlockIndexLoad

/-!
# How the block index grows

Entries are added after entries that are there, and what an entry says of those before it never
changes again.
-/

namespace Pyrk.BlockIndexGrowth

open BlockTree (BlockStatus Validity)
open ProofOfWork BlockIndexFile BlockIndexLoad Option

variable {ctx : IndexContext} {index next : BlockIndex}

/-- The same entry, but for data, status, order and numbers of transactions. -/
structure SameChain (entry changed : CBlockIndex) : Prop where
  hash : changed.hash=entry.hash
  pprev : changed.pprev=entry.pprev
  pskip : changed.pskip=entry.pskip
  nHeight : changed.nHeight=entry.nHeight
  nChainWork : changed.nChainWork=entry.nChainWork
  header : changed.getBlockHeader=entry.getBlockHeader
  nTimeMax : changed.nTimeMax=entry.nTimeMax

theorem SameChain.refl (entry : CBlockIndex) : SameChain entry entry :=
  ⟨rfl,rfl,rfl,rfl,rfl,rfl,rfl⟩

theorem SameChain.nTime {entry changed : CBlockIndex} (h : SameChain entry changed) :
    changed.nTime=entry.nTime :=
  congrArg CBlockHeader.nTime h.header

/-- What an entry says of those before it is right. -/
structure Placed (ctx : IndexContext) (index : BlockIndex) (entry : CBlockIndex) : Prop where
  prev : ∀ hashPrev,entry.pprev=some hashPrev →
    ∃ before,index.find hashPrev=some before ∧ entry.nHeight=before.nHeight+1
  /-- Only a block at height zero has no block before. -/
  root : entry.pprev=none → entry.nHeight=0
  /-- The other pointer is found from the block before. -/
  pskip : entry.pskip=(entry.pprev.bind index.find).bind (fun before =>
    getAncestor index before (getSkipHeight entry.nHeight))
  nChainWork : entry.nChainWork=(((entry.pprev.bind index.find).map CBlockIndex.nChainWork).getD 0+
    blockWork ctx index entry)%2^256
  nTimeMax : entry.nTimeMax=match entry.pprev.bind index.find with
    | none => entry.nTime
    | some before => max before.nTimeMax entry.nTime

variable {entry : CBlockIndex}

theorem placed_of_find (h : IndexSound ctx index) {hash : ℕ}
    (hfind : index.find hash=some entry) : Placed ctx index entry :=
  ⟨fun _ hprev => h.heights.prev hfind hprev,h.heights.root hfind,h.pskip hfind,
    h.nChainWork hfind,h.nTimeMax hfind⟩

theorem Placed.same {entry changed : CBlockIndex} (h : Placed ctx index entry)
    (hsame : SameChain entry changed) : Placed ctx index changed := by
  have hwork : blockWork ctx index changed=blockWork ctx index entry := by
    rw [blockWork,blockWork,hsame.nHeight,hsame.pprev]
  refine ⟨?_,?_,?_,?_,?_⟩
  · rw [hsame.pprev,hsame.nHeight]
    exact h.prev
  · rw [hsame.pprev,hsame.nHeight]
    exact h.root
  · rw [hsame.pprev,hsame.nHeight,hsame.pskip]
    exact h.pskip
  · rw [hsame.pprev,hsame.nChainWork,hwork]
    exact h.nChainWork
  · rw [hsame.pprev,hsame.nTimeMax,hsame.nTime]
    exact h.nTimeMax

theorem Placed.skip (h : Placed ctx index entry)
    (hheights : Heights index) (hhash : ∀ {hash entry},index.find hash=some entry → entry.hash=hash)
    {hashSkip : ℕ} (hskip : entry.pskip=some hashSkip) :
    ∃ before,index.find hashSkip=some before ∧ before.nHeight=getSkipHeight entry.nHeight := by
  have hfound := h.pskip
  rw [hskip] at hfound
  cases hprev : entry.pprev with
  | none =>
    rw [hprev] at hfound
    cases hfound
  | some hashPrev =>
    obtain ⟨before,hbefore,hheight⟩ := h.prev hashPrev hprev
    have hlower := getSkipHeight_lt (show 0<entry.nHeight by omega)
    rw [hprev,bind_some,hbefore,bind_some,getAncestor,if_neg (by omega),hhash hbefore] at hfound
    obtain ⟨target,found,hwalk,htarget,htargetHeight⟩ := hheights.exists_walkBack before.nHeight
      hbefore rfl (show getSkipHeight entry.nHeight ≤ before.nHeight by omega) (by omega)
    rw [hwalk] at hfound
    exact ⟨found,by rw [some.inj hfound]; exact htarget,htargetHeight⟩

/-- The entries of an index are entries of another. -/
def Extends (index next : BlockIndex) : Prop :=
  ∀ hash entry,index.find hash=some entry →
    ∃ changed,next.find hash=some changed ∧ SameChain entry changed

theorem Placed.extend (h : Placed ctx index entry)
    (hheights : Heights index) (hhash : ∀ {hash entry},index.find hash=some entry → entry.hash=hash)
    (hext : Extends index next) : Placed ctx next entry := by
  have hwork : blockWork ctx next entry=blockWork ctx index entry := by
    refine congrArg ctx.getBlockProof (hheights.headersBefore_congr ?_ entry.nHeight ?_)
    · intro hash old hold
      obtain ⟨changed,hchanged,hsame⟩ := hext hash old hold
      exact ⟨changed,hchanged,hsame.pprev,hsame.header⟩
    · intro hashPrev hprev
      obtain ⟨before,hbefore,_⟩ := h.prev hashPrev hprev
      exact ⟨before,hbefore⟩
  have hpskip := h.pskip
  have hchainWork := h.nChainWork
  have htime := h.nTimeMax
  cases hprev : entry.pprev with
  | none =>
    rw [hprev,bind_none] at hpskip hchainWork htime
    refine ⟨?_,h.root,?_,?_,?_⟩
    · intro hashPrev hsome
      rw [hprev] at hsome
      cases hsome
    · rw [hprev]
      exact hpskip
    · rw [hprev,hwork]
      exact hchainWork
    · rw [hprev]
      exact htime
  | some hashPrev =>
    obtain ⟨before,hbefore,hheight⟩ := h.prev hashPrev hprev
    obtain ⟨changed,hchanged,hsame⟩ := hext hashPrev before hbefore
    have hwalk := @Heights.walkBack_congr index next hheights (before.nHeight+1)
      (fun hash old hold _ => by
        obtain ⟨other,hother,hsameOther⟩ := hext hash old hold
        exact ⟨other,hother,hsameOther.pprev,hsameOther.pskip⟩)
      (getSkipHeight entry.nHeight) before.nHeight before.nHeight hashPrev before hbefore rfl
      (Nat.lt_succ_self before.nHeight)
    rw [hprev,bind_some,hbefore] at hpskip hchainWork htime
    refine ⟨?_,h.root,?_,?_,?_⟩
    · intro other hsome
      rw [hprev] at hsome
      rw [←some.inj hsome]
      exact ⟨changed,hchanged,by rw [hsame.nHeight]; exact hheight⟩
    · rw [hprev,bind_some,hchanged,hpskip,bind_some,bind_some,getAncestor,
        getAncestor,hsame.nHeight,hsame.hash,hhash hbefore,hwalk]
    · rw [hprev,bind_some,hchanged,hwork,map_some,getD_some,hsame.nChainWork]
      exact hchainWork
    · rw [hprev,bind_some,hchanged]
      dsimp only
      rw [hsame.nTimeMax]
      exact htime

theorem indexSound_grow (h : IndexSound ctx index) (hext : Extends index next)
    (hall : ∀ hash changed,next.find hash=some changed →
      (changed.hash=hash ∧ hash≠0) ∧ Storable (toDisk changed) ∧ Placed ctx index changed) :
    IndexSound ctx next := by
  have hhash : ∀ {hash entry},index.find hash=some entry → entry.hash=hash :=
    fun hfind => (h.hash hfind).1
  have hplaced : ∀ {hash changed},next.find hash=some changed → Placed ctx next changed :=
    fun hfind => (hall _ _ hfind).2.2.extend h.heights hhash hext
  refine ⟨⟨?_,?_,?_⟩,?_,?_,?_,?_,?_⟩
  · exact fun hfind hprev => (hplaced hfind).prev _ hprev
  · exact fun hfind => (hplaced hfind).root
  · intro hash entry hashSkip hfind hskip
    obtain ⟨before,hbefore,hheight⟩ := (hall _ _ hfind).2.2.skip h.heights hhash hskip
    obtain ⟨changed,hchanged,hsame⟩ := hext hashSkip before hbefore
    exact ⟨changed,hchanged,by rw [hsame.nHeight]; exact hheight⟩
  · exact fun hfind => (hall _ _ hfind).1
  · exact fun hfind => (hplaced hfind).pskip
  · exact fun hfind => (hplaced hfind).nChainWork
  · exact fun hfind => (hplaced hfind).nTimeMax
  · exact fun hfind => (hall _ _ hfind).2.1

theorem indexSound_empty (ctx : IndexContext) : IndexSound ctx .empty := by
  have hnone : ∀ {hash : ℕ} {entry : CBlockIndex} {holds : Prop},
      (.empty : BlockIndex).find hash=some entry → holds := by
    intro hash entry holds hfind
    rw [OrderedMap.find_empty] at hfind
    cases hfind
  exact ⟨⟨fun hfind => hnone hfind,fun hfind => hnone hfind,fun hfind => hnone hfind⟩,
    fun hfind => hnone hfind,fun hfind => hnone hfind,fun hfind => hnone hfind,
    fun hfind => hnone hfind,fun hfind => hnone hfind⟩

end Pyrk.BlockIndexGrowth
