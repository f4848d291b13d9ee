import Pyrk.BlockIndexFile

/-!
# Loading the block index

All stored entries are read in any order, with empty entries in place of blocks that come later.
Then the entries are visited by height, and what was not stored is found from the block before.
-/

namespace Pyrk.BlockIndexLoad

open BlockTree (BlockStatus Validity)
open ProofOfWork BlockIndexFile OrderedMap List

/-- Entries by hash. -/
abbrev BlockIndex := OrderedMap ℕ CBlockIndex

/-- Turn the lowest one of a number into a zero. -/
def invertLowestOne (n : ℕ) : ℕ := n &&& (n-1)

/-- Height to jump back to. -/
def getSkipHeight (height : ℕ) : ℕ :=
  if height<2 then 0
  else if height%2=1 then invertLowestOne (invertLowestOne (height-1))+1
  else invertLowestOne height

/-- Walk back to a height, over pointers that skip blocks where they help. -/
def walkBack (index : BlockIndex) (height : ℕ) : ℕ → ℕ → ℕ → Option ℕ
  | 0,_,pindexWalk => some pindexWalk
  | rounds+1,heightWalk,pindexWalk =>
    if heightWalk ≤ height then some pindexWalk
    else
      match index.find pindexWalk with
      | none => none
      | some entry =>
        let heightSkip := getSkipHeight heightWalk
        let heightSkipPrev := getSkipHeight (heightWalk-1)
        if entry.pskip≠none ∧ (heightSkip=height ∨ (height<heightSkip ∧
            ¬(heightSkipPrev+2<heightSkip ∧ height ≤ heightSkipPrev))) then
          entry.pskip.bind (walkBack index height rounds heightSkip)
        else entry.pprev.bind (walkBack index height rounds (heightWalk-1))

/-- Block of a chain at a height. -/
def getAncestor (index : BlockIndex) (pindex : CBlockIndex) (height : ℕ) : Option ℕ :=
  if pindex.nHeight<height then none
  else walkBack index height pindex.nHeight pindex.nHeight pindex.hash

/-- Pointer that skips blocks. -/
def buildSkip (index : BlockIndex) (pindex : CBlockIndex) : Option ℕ :=
  match pindex.pprev.bind index.find with
  | none => pindex.pskip
  | some pprev => getAncestor index pprev (getSkipHeight pindex.nHeight)

/-- Headers of a block and of those before it, as many as there are. -/
def headersBefore (index : BlockIndex) : ℕ → Option ℕ → List CBlockHeader
  | 0,_ => []
  | _+1,none => []
  | height+1,some hash =>
    match index.find hash with
    | none => []
    | some entry => entry.getBlockHeader::headersBefore index height entry.pprev

/-- What the code reads of headers. -/
structure IndexContext where
  getHash : CBlockHeader → ℕ
  /-- Work of the block after some headers, the last one first. -/
  getBlockProof : List CBlockHeader → ℕ

def blockWork (ctx : IndexContext) (index : BlockIndex) (pindex : CBlockIndex) : ℕ :=
  ctx.getBlockProof (headersBefore index pindex.nHeight pindex.pprev)

/-- Less work, or received later, or at a higher address. -/
def worse (address : ℕ → ℕ) (pa pb : CBlockIndex) : Bool :=
  if pb.nChainWork<pa.nChainWork then false
  else if pa.nChainWork<pb.nChainWork then true
  else if pa.nSequenceId<pb.nSequenceId then false
  else if pb.nSequenceId<pa.nSequenceId then true
  else address pb.hash<address pa.hash

section Guts

variable (ctx : IndexContext)

def getBlockHash (diskindex : CDiskBlockIndex) : ℕ :=
  if diskindex.hash≠0 then diskindex.hash
  else ctx.getHash
    { nVersion := diskindex.nVersion, hashPrevBlock := diskindex.hashPrev
      hashMerkleRoot := diskindex.hashMerkleRoot, nTime := diskindex.nTime
      nBits := diskindex.nBits, nNonce := diskindex.nNonce }

/-- Find an entry, or make an empty one. -/
def insertBlockIndex (index : BlockIndex) (hash : ℕ) : BlockIndex×Option ℕ :=
  if hash=0 then (index,none)
  else if index.contains hash then (index,some hash)
  else (index.set hash { hash := hash },some hash)

/-- Take a stored entry. There is no result where the hash is zero. -/
def loadEntry (index : BlockIndex) (diskindex : CDiskBlockIndex) : Option BlockIndex :=
  let (index,pindexNew) := insertBlockIndex index (getBlockHash ctx diskindex)
  let (index,pprev) := insertBlockIndex index diskindex.hashPrev
  pindexNew.bind (fun hash => (index.find hash).map (fun pindexNew =>
    index.set hash { pindexNew with
      pprev := pprev
      nHeight := diskindex.nHeight
      nFile := diskindex.nFile
      nDataPos := diskindex.nDataPos
      nUndoPos := diskindex.nUndoPos
      nVersion := diskindex.nVersion
      hashMerkleRoot := diskindex.hashMerkleRoot
      nTime := diskindex.nTime
      nBits := diskindex.nBits
      nNonce := diskindex.nNonce
      nStatus := diskindex.nStatus
      nTx := diskindex.nTx }))

/-- Take all stored entries. There is no result where one cannot be read. -/
def loadBlockIndexGuts (values : List (List UInt8)) : Option BlockIndex :=
  values.foldlM (fun index value =>
    (readDiskBlockIndex.run value).bind (fun result => loadEntry ctx index result.1))
    .empty

end Guts

section Load

structure LoadedIndex where
  mapBlockIndex : BlockIndex
  mapBlocksUnlinked : List (ℕ×ℕ) := []
  setBlockIndexCandidates : List ℕ := []
  pindexBestInvalid : Option ℕ := none
  pindexBestHeader : Option ℕ := none

variable (ctx : IndexContext) (address : ℕ → ℕ)

/-- Hashes by height and then by address. -/
def vSortedByHeight (index : BlockIndex) : List ℕ :=
  (index.values.mergeSort (fun first second => first.nHeight < second.nHeight ||
    (first.nHeight=second.nHeight && address first.hash ≤ address second.hash))).map
      CBlockIndex.hash

/-- The entry with what is found from the block before. -/
def chainedEntry (index : BlockIndex) (pindex : CBlockIndex) : CBlockIndex :=
  let pprev := pindex.pprev.bind index.find
  { pindex with
    nChainWork := ((pprev.map CBlockIndex.nChainWork).getD 0+blockWork ctx index pindex)%2^256
    nTimeMax := match pprev with
      | none => pindex.nTime
      | some pprev => max pprev.nTimeMax pindex.nTime
    nChainTx :=
      if 0<pindex.nTx then
        match pprev with
        | none => pindex.nTx
        | some pprev => if pprev.nChainTx≠0 then pprev.nChainTx+pindex.nTx else 0
      else pindex.nChainTx }

/-- Whether a block has transactions and the block before is not linked. -/
def waits (index : BlockIndex) (pindex : CBlockIndex) : Bool :=
  match pindex.pprev.bind index.find with
  | none => false
  | some pprev => decide (0<pindex.nTx) && decide (pprev.nChainTx=0)

/-- Visit an entry. -/
def loadBlock (loaded : LoadedIndex) (hash : ℕ) : LoadedIndex :=
  match loaded.mapBlockIndex.find hash with
  | none => loaded
  | some stored =>
    let pindex := chainedEntry ctx loaded.mapBlockIndex stored
    let index := loaded.mapBlockIndex.set hash pindex
    let skipped := { pindex with pskip := buildSkip index pindex }
    { mapBlockIndex := index.set hash skipped
      mapBlocksUnlinked :=
        if waits loaded.mapBlockIndex stored then
          loaded.mapBlocksUnlinked++[(stored.pprev.getD 0,hash)]
        else loaded.mapBlocksUnlinked
      setBlockIndexCandidates :=
        if pindex.nStatus.isValid .transactions && (pindex.nChainTx≠0 || pindex.pprev=none) then
          loaded.setBlockIndexCandidates.insert hash
        else loaded.setBlockIndexCandidates
      pindexBestInvalid :=
        if pindex.nStatus.failed && (match loaded.pindexBestInvalid.bind index.find with
          | none => true
          | some best => decide (best.nChainWork<pindex.nChainWork)) then some hash
        else loaded.pindexBestInvalid
      pindexBestHeader :=
        if pindex.nStatus.isValid .tree && (match loaded.pindexBestHeader.bind index.find with
          | none => true
          | some best => worse address best pindex) then some hash
        else loaded.pindexBestHeader }

def loadBlockIndexDB (values : List (List UInt8)) : Option LoadedIndex :=
  (loadBlockIndexGuts ctx values).map (fun index =>
    (vSortedByHeight address index).foldl (loadBlock ctx address) { mapBlockIndex := index })

end Load

section Walk

variable {index first second : BlockIndex}

theorem invertLowestOne_le (n : ℕ) : invertLowestOne n ≤ n-1 := Nat.and_le_right

theorem getSkipHeight_lt {height : ℕ} (h : 0<height) : getSkipHeight height<height := by
  rw [getSkipHeight]
  split
  next => exact h
  next =>
    split
    next =>
      have hlow := invertLowestOne_le (height-1)
      have hlower := invertLowestOne_le (invertLowestOne (height-1))
      omega
    next =>
      have hlow := invertLowestOne_le height
      omega

/-- Pointers lead to the heights that they should lead to. -/
structure Heights (index : BlockIndex) : Prop where
  prev : ∀ {hash entry hashPrev},index.find hash=some entry → entry.pprev=some hashPrev →
    ∃ before,index.find hashPrev=some before ∧ entry.nHeight=before.nHeight+1
  /-- Only a block at height zero has no block before. -/
  root : ∀ {hash entry},index.find hash=some entry → entry.pprev=none → entry.nHeight=0
  /-- The other pointer leads to the height to jump back to. -/
  skip : ∀ {hash entry hashSkip},index.find hash=some entry → entry.pskip=some hashSkip →
    ∃ before,index.find hashSkip=some before ∧ before.nHeight=getSkipHeight entry.nHeight

theorem Heights.exists_prev (h : Heights index) {hash : ℕ} {entry : CBlockIndex}
    (hfind : index.find hash=some entry) (hpos : 0<entry.nHeight) :
    ∃ hashPrev before,entry.pprev=some hashPrev ∧ index.find hashPrev=some before ∧
      entry.nHeight=before.nHeight+1 := by
  cases hprev : entry.pprev with
  | none =>
    have hzero := h.root hfind hprev
    omega
  | some hashPrev =>
    obtain ⟨before,hbefore,hheight⟩ := h.prev hfind hprev
    exact ⟨hashPrev,before,rfl,hbefore,hheight⟩

theorem Heights.exists_walkBack (h : Heights index) {height : ℕ} (rounds : ℕ) :
    ∀ {heightWalk hash : ℕ} {entry : CBlockIndex},index.find hash=some entry →
    entry.nHeight=heightWalk → height ≤ heightWalk → heightWalk ≤ height+rounds →
    ∃ target found,walkBack index height rounds heightWalk hash=some target ∧
      index.find target=some found ∧ found.nHeight=height := by
  induction rounds with
  | zero =>
    intro heightWalk hash entry hfind hheight hlow hhigh
    exact ⟨hash,entry,rfl,hfind,by omega⟩
  | succ rounds ih =>
    intro heightWalk hash entry hfind hheight hlow hhigh
    rw [walkBack]
    split
    next hend => exact ⟨hash,entry,rfl,hfind,by omega⟩
    next hmore =>
      rw [hfind]
      dsimp only
      split
      next hjump =>
        obtain ⟨hashSkip,hskip⟩ := Option.ne_none_iff_exists'.mp hjump.1
        obtain ⟨before,hbefore,hbeforeHeight⟩ := h.skip hfind hskip
        rw [hheight] at hbeforeHeight
        have hlower := getSkipHeight_lt (show 0<heightWalk by omega)
        rw [hskip,Option.bind_some]
        exact ih hbefore hbeforeHeight (by omega) (by omega)
      next =>
        obtain ⟨hashPrev,before,hprev,hbefore,hbeforeHeight⟩ := h.exists_prev hfind (by omega)
        rw [hprev,Option.bind_some]
        exact ih hbefore (by omega) (by omega) (by omega)

theorem Heights.walkBack_congr (h : Heights first) {bound : ℕ}
    (hagree : ∀ hash entry,first.find hash=some entry → entry.nHeight<bound →
      ∃ other,second.find hash=some other ∧ other.pprev=entry.pprev ∧ other.pskip=entry.pskip)
    {height : ℕ} (rounds : ℕ) : ∀ {heightWalk hash : ℕ} {entry : CBlockIndex},
    first.find hash=some entry → entry.nHeight=heightWalk → heightWalk<bound →
    walkBack second height rounds heightWalk hash=walkBack first height rounds heightWalk hash := by
  induction rounds with
  | zero => exact fun _ _ _ => rfl
  | succ rounds ih =>
    intro heightWalk hash entry hfind hheight hbound
    obtain ⟨other,hother,hprevSame,hskipSame⟩ := hagree hash entry hfind (by omega)
    rw [walkBack,walkBack]
    split
    next => rfl
    next hmore =>
      rw [hfind,hother]
      dsimp only
      rw [hskipSame,hprevSame]
      split
      next hjump =>
        obtain ⟨hashSkip,hskip⟩ := Option.ne_none_iff_exists'.mp hjump.1
        obtain ⟨before,hbefore,hbeforeHeight⟩ := h.skip hfind hskip
        rw [hheight] at hbeforeHeight
        have hlower := getSkipHeight_lt (show 0<heightWalk by omega)
        rw [hskip,Option.bind_some,Option.bind_some]
        exact ih hbefore hbeforeHeight (by omega)
      next =>
        obtain ⟨hashPrev,before,hprev,hbefore,hbeforeHeight⟩ := h.exists_prev hfind (by omega)
        rw [hprev,Option.bind_some,Option.bind_some]
        exact ih hbefore (by omega) (by omega)

theorem Heights.headersBefore_congr (h : Heights first)
    (hagree : ∀ hash entry,first.find hash=some entry → ∃ other,second.find hash=some other ∧
      other.pprev=entry.pprev ∧ other.getBlockHeader=entry.getBlockHeader) (height : ℕ) :
    ∀ {pprev : Option ℕ},(∀ hash,pprev=some hash → ∃ entry,first.find hash=some entry) →
    headersBefore second height pprev=headersBefore first height pprev := by
  induction height with
  | zero => exact fun _ => rfl
  | succ height ih =>
    intro pprev hknown
    cases pprev with
    | none => rfl
    | some hash =>
      obtain ⟨entry,hfind⟩ := hknown hash rfl
      obtain ⟨other,hother,hprev,hheader⟩ := hagree hash entry hfind
      rw [headersBefore,headersBefore,hfind,hother]
      dsimp only
      rw [hprev,hheader,ih (fun hashPrev hsome => by
        obtain ⟨before,hbefore,_⟩ := h.prev hfind hsome
        exact ⟨before,hbefore⟩)]

end Walk

section Reading

/-- An entry as it is read, without what is only in memory. -/
def stripped (entry : CBlockIndex) : CBlockIndex :=
  { entry with pskip := none, nChainWork := 0, nChainTx := 0, nSequenceId := 0, nTimeMax := 0 }

/-- What headers and pointers of an index say is right, and each entry can be stored. -/
structure IndexSound (ctx : IndexContext) (index : BlockIndex) : Prop where
  heights : Heights index
  /-- Entries are found by their hashes, which are not zero. -/
  hash : ∀ {hash entry},index.find hash=some entry → entry.hash=hash ∧ hash≠0
  /-- The other pointer is found from the block before. -/
  pskip : ∀ {hash entry},index.find hash=some entry →
    entry.pskip=(entry.pprev.bind index.find).bind (fun before =>
      getAncestor index before (getSkipHeight entry.nHeight))
  nChainWork : ∀ {hash entry},index.find hash=some entry →
    entry.nChainWork=(((entry.pprev.bind index.find).map CBlockIndex.nChainWork).getD 0+
      blockWork ctx index entry)%2^256
  nTimeMax : ∀ {hash entry},index.find hash=some entry →
    entry.nTimeMax=match entry.pprev.bind index.find with
      | none => entry.nTime
      | some before => max before.nTimeMax entry.nTime
  /-- The fields fit, and positions are known only of what is there. -/
  storable : ∀ {hash entry},index.find hash=some entry → Storable (toDisk entry)

variable {ctx : IndexContext} {index : BlockIndex}

/-- What is there after some entries were read: these, and empty ones before them. -/
structure PartlyRead (done : List CBlockIndex) (read : BlockIndex) : Prop where
  loaded : ∀ entry∈done,read.find entry.hash=some (stripped entry)
  known : ∀ hash found,read.find hash=some found → (∃ entry∈done,entry.hash=hash) ∨
    (∃ entry∈done,entry.pprev=some hash) ∧ found={ hash := hash }

theorem insertBlockIndex_spec {read : BlockIndex} {hash : ℕ} (h : hash≠0) :
    ∃ next,insertBlockIndex read hash=(next,some hash) ∧ ∀ other,next.find other=
      if other=hash then some ((read.find hash).getD { hash := hash }) else read.find other := by
  rw [insertBlockIndex,if_neg h]
  split
  next hknown =>
    refine ⟨read,rfl,fun other => ?_⟩
    obtain ⟨found,hfound⟩ := (read.contains_iff hash).mp hknown
    split
    next heq => rw [heq,hfound,Option.getD_some]
    next => rfl
  next hnew =>
    refine ⟨_,rfl,fun other => ?_⟩
    rw [find_set]
    rw [Bool.not_eq_true,contains_eq_false] at hnew
    rw [hnew,Option.getD_none]

theorem PartlyRead.read_entry {done : List CBlockIndex} {read : BlockIndex}
    (h : PartlyRead done read) {entry : CBlockIndex} (hhash : entry.hash≠0)
    (hprev : ∀ hashPrev,entry.pprev=some hashPrev → hashPrev≠0 ∧ hashPrev≠entry.hash)
    (hnew : ∀ other∈done,other.hash≠entry.hash) :
    ∃ next,loadEntry ctx read (toDisk entry)=some next ∧ PartlyRead (done++[entry]) next := by
  have hgetHash : getBlockHash ctx (toDisk entry)=entry.hash := if_pos hhash
  obtain ⟨first,hfirst,hfindFirst⟩ := @insertBlockIndex_spec read entry.hash hhash
  have hempty : (read.find entry.hash).getD { hash := entry.hash }={ hash := entry.hash } := by
    cases hfind : read.find entry.hash with
    | none => rfl
    | some found =>
      cases h.known _ _ hfind with
      | inl hdone =>
        obtain ⟨other,hm,heq⟩ := hdone
        exact absurd heq (hnew other hm)
      | inr hplace => rw [Option.getD_some,hplace.2]
  rw [hempty] at hfindFirst
  obtain ⟨second,hsecond,hfindSecond⟩ : ∃ second,
      insertBlockIndex first (toDisk entry).hashPrev=(second,entry.pprev) ∧
      ∀ other,second.find other=if entry.pprev=some other then
        some ((first.find other).getD { hash := other }) else first.find other := by
    dsimp only [toDisk]
    cases hpprev : entry.pprev with
    | none => exact ⟨first,rfl,fun other => by rw [if_neg (nofun)]⟩
    | some hashPrev =>
      obtain ⟨second,hsecond,hfind⟩ := @insertBlockIndex_spec first hashPrev (hprev _ hpprev).1
      grind
  have hself : second.find entry.hash=some { hash := entry.hash } := by
    rw [hfindSecond,if_neg (fun hsame => (hprev _ hsame).2 rfl),hfindFirst,if_pos rfl]
  have hload : loadEntry ctx read (toDisk entry)=
      some (second.set entry.hash (stripped entry)) := by
    rw [loadEntry,hgetHash,hfirst]
    dsimp only
    rw [hsecond]
    rw [Option.bind_some,hself,Option.map_some]
    rfl
  refine ⟨_,hload,?_,?_⟩
  · intro other hm
    rw [find_set]
    cases mem_append.mp hm with
    | inl hold =>
      have hne := hnew other hold
      have hfound := h.loaded other hold
      rw [if_neg hne,hfindSecond,hfindFirst,if_neg hne,hfound,Option.getD_some,ite_self]
    | inr hlast =>
      rw [mem_singleton.mp hlast,if_pos rfl]
  · intro hash found hfound
    rw [find_set] at hfound
    by_cases heq : hash=entry.hash
    · exact .inl ⟨entry,mem_append_right _ mem_cons_self,heq.symm⟩
    · rw [if_neg heq,hfindSecond,hfindFirst,if_neg heq] at hfound
      by_cases hbefore : entry.pprev=some hash
      · rw [if_pos hbefore] at hfound
        cases hfind : read.find hash with
        | none =>
          rw [hfind,Option.getD_none] at hfound
          exact .inr ⟨⟨entry,mem_append_right _ mem_cons_self,hbefore⟩,
            (Option.some.inj hfound).symm⟩
        | some old =>
          rw [hfind,Option.getD_some] at hfound
          cases h.known hash old hfind with
          | inl hdone =>
            obtain ⟨other,hm,hother⟩ := hdone
            exact .inl ⟨other,mem_append_left _ hm,hother⟩
          | inr hplace =>
            obtain ⟨⟨other,hm,hother⟩,hold⟩ := hplace
            exact .inr ⟨⟨other,mem_append_left _ hm,hother⟩,
              (Option.some.inj hfound).symm.trans hold⟩
      · rw [if_neg hbefore] at hfound
        cases h.known hash found hfound with
        | inl hdone =>
          obtain ⟨other,hm,hother⟩ := hdone
          exact .inl ⟨other,mem_append_left _ hm,hother⟩
        | inr hplace =>
          obtain ⟨⟨other,hm,hother⟩,hold⟩ := hplace
          exact .inr ⟨⟨other,mem_append_left _ hm,hother⟩,hold⟩

theorem Heights.prev_ne (h : Heights index) {hash hashPrev : ℕ} {entry : CBlockIndex}
    (hfind : index.find hash=some entry) (hprev : entry.pprev=some hashPrev) : hashPrev≠hash := by
  intro heq
  obtain ⟨before,hbefore,hheight⟩ := h.prev hfind hprev
  rw [heq,hfind] at hbefore
  rw [←Option.some.inj hbefore] at hheight
  omega

/-- Bytes of entries. -/
def storedValues (clientVersion : ℕ) (entries : List CBlockIndex) : List (List UInt8) :=
  entries.map (fun entry => writeDiskBlockIndex clientVersion (toDisk entry))

theorem IndexSound.foldlM_read (h : IndexSound ctx index) {clientVersion : ℕ}
    (hver : clientVersion < 2^32) (entries : List CBlockIndex) :
    ∀ {done : List CBlockIndex} {read : BlockIndex},PartlyRead done read →
    (∀ entry∈entries,index.find entry.hash=some entry) →
    (done++entries).Pairwise (fun first second => first.hash≠second.hash) →
    ∃ next,(storedValues clientVersion entries).foldlM (fun index value =>
        (readDiskBlockIndex.run value).bind (fun result =>
          loadEntry ctx index result.1)) read=some next ∧
      PartlyRead (done++entries) next := by
  induction entries with
  | nil =>
    intro done read hread _ _
    rw [append_nil]
    exact ⟨read,rfl,hread⟩
  | cons entry entries ih =>
    intro done read hread hknown hdistinct
    have hfind := hknown entry mem_cons_self
    have hbytes := reads_readDiskBlockIndex hver (h.storable hfind) []
    rw [append_nil] at hbytes
    obtain ⟨next,hload,hnext⟩ := @PartlyRead.read_entry ctx done read hread entry
      (h.hash hfind).2
      (fun hashPrev hprev => by
        obtain ⟨before,hbefore,_⟩ := h.heights.prev hfind hprev
        exact ⟨(h.hash hbefore).2,h.heights.prev_ne hfind hprev⟩)
      (fun other hm => (pairwise_append.mp hdistinct).2.2 other hm entry mem_cons_self)
    obtain ⟨last,hrest,hlast⟩ := ih hnext
      (fun other hm => hknown other (mem_cons_of_mem _ hm))
      (by rwa [append_assoc,singleton_append])
    refine ⟨last,?_,?_⟩
    · rw [storedValues,map_cons,foldlM_cons,hbytes,Option.bind_some,hload]
      exact hrest
    · rwa [append_assoc,singleton_append] at hlast

theorem IndexSound.read_guts (h : IndexSound ctx index) {clientVersion : ℕ}
    (hver : clientVersion < 2^32) {entries : List CBlockIndex}
    (hperm : entries.Perm index.values) :
    ∃ read,loadBlockIndexGuts ctx (storedValues clientVersion entries)=some read ∧
      ∀ hash,read.find hash=(index.find hash).map stripped := by
  have hmem : ∀ entry,entry∈entries ↔ index.find entry.hash=some entry := by
    intro entry
    rw [hperm.mem_iff,mem_values_iff]
    constructor
    · intro hknown
      obtain ⟨hash,hfind⟩ := hknown
      rw [(h.hash hfind).1]
      exact hfind
    · exact fun hfind => ⟨entry.hash,hfind⟩
  have hdistinct : entries.Pairwise (fun first second => first.hash≠second.hash) := by
    refine (hperm.pairwise_iff (fun hne => hne.symm)).mpr (pairwise_map.mpr ?_)
    refine index.sorted.imp_of_mem (fun hfirst hsecond hlt => ?_)
    rw [(h.hash ((index.mem_entries_iff _ _).mp hfirst)).1,
      (h.hash ((index.mem_entries_iff _ _).mp hsecond)).1]
    exact Nat.ne_of_lt hlt
  have hstart : PartlyRead [] (.empty : BlockIndex) :=
    ⟨fun _ hm => absurd hm not_mem_nil,fun hash _ hfind => by
      rw [find_empty] at hfind
      cases hfind⟩
  obtain ⟨read,hread,hpartly⟩ := h.foldlM_read hver entries hstart
    (fun entry hm => (hmem entry).mp hm) hdistinct
  refine ⟨read,hread,fun hash => ?_⟩
  rw [nil_append] at hpartly
  cases hfind : index.find hash with
  | some entry =>
    have hself := (h.hash hfind).1
    have hloaded := hpartly.loaded entry ((hmem entry).mpr (by rw [hself]; exact hfind))
    rw [hself] at hloaded
    exact hloaded
  | none =>
    refine Option.eq_none_iff_forall_ne_some.mpr (fun found hfound => ?_)
    cases hpartly.known hash found hfound with
    | inl hdone =>
      grind
    | inr hplace =>
      obtain ⟨⟨entry,hm,hprev⟩,_⟩ := hplace
      obtain ⟨before,hbefore,_⟩ := h.heights.prev ((hmem entry).mp hm) hprev
      rw [hfind] at hbefore
      cases hbefore

end Reading

variable {ctx : IndexContext} {address : ℕ → ℕ} {index : BlockIndex} {count : ℕ → ℕ}

/-- Number of transactions up to a block, if those before it are counted. -/
def countAfter (count : ℕ → ℕ) (nTx : ℕ) (pprev : Option ℕ) : ℕ :=
  if 0<nTx then
    pprev.elim nTx (fun hashPrev => if count hashPrev≠0 then count hashPrev+nTx else 0)
  else 0

/-- Transactions are counted from the first block on, as long as all of them are there. -/
def Counted (index : BlockIndex) (count : ℕ → ℕ) : Prop :=
  ∀ hash entry,index.find hash=some entry → count hash=countAfter count entry.nTx entry.pprev

/-- An entry after loading: its order is lost, and its transactions are counted again. -/
def rebuilt (count : ℕ → ℕ) (entry : CBlockIndex) : CBlockIndex :=
  { entry with nSequenceId := 0, nChainTx := count entry.hash }

/-- What is there after some entries were visited. -/
structure Visited (index : BlockIndex) (count : ℕ → ℕ) (done : List ℕ) (loaded : LoadedIndex) :
    Prop where
  find : ∀ hash,loaded.mapBlockIndex.find hash=
    (index.find hash).map (fun entry => if hash∈done then rebuilt count entry else stripped entry)
  /-- Visited entries wait that have transactions after an entry that is not counted. -/
  unlinked : ∀ hashPrev hash,(hashPrev,hash)∈loaded.mapBlocksUnlinked ↔ hash∈done ∧
    ∃ entry,index.find hash=some entry ∧ entry.pprev=some hashPrev ∧ 0<entry.nTx ∧ count hashPrev=0
  /-- Visited entries that are valid and counted are candidates. -/
  candidates : ∀ hash,hash∈loaded.setBlockIndexCandidates ↔ hash∈done ∧
    ∃ entry,index.find hash=some entry ∧ entry.nStatus.isValid .transactions=true ∧
      (count hash≠0 ∨ entry.pprev=none)

variable {done : List ℕ} {loaded : LoadedIndex} {hash : ℕ} {entry : CBlockIndex}

theorem Visited.find_known (h : Visited index count done loaded)
    (hfind : index.find hash=some entry) : loaded.mapBlockIndex.find hash=
      some (if hash∈done then rebuilt count entry else stripped entry) := by
  rw [h.find,hfind,Option.map_some]

section

variable (h : IndexSound ctx index)

include h

theorem Visited.blockWork (hvisited : Visited index count done loaded)
    (hfind : index.find hash=some entry) :
    blockWork ctx loaded.mapBlockIndex (stripped entry)=blockWork ctx index entry := by
  refine congrArg ctx.getBlockProof (h.heights.headersBefore_congr ?_ entry.nHeight ?_)
  · intro other found hfound
    refine ⟨_,hvisited.find_known hfound,?_,?_⟩ <;> split <;> rfl
  · intro hashPrev hprev
    obtain ⟨before,hbefore,_⟩ := h.heights.prev hfind hprev
    exact ⟨before,hbefore⟩

theorem Visited.chainedEntry (hcount : Counted index count)
    (hvisited : Visited index count done loaded)
    (hfind : index.find hash=some entry)
    (hbefore : ∀ hashPrev,entry.pprev=some hashPrev → hashPrev∈done) :
    chainedEntry ctx loaded.mapBlockIndex (stripped entry)=
      { rebuilt count entry with pskip := none } := by
  have hwork := hvisited.blockWork h hfind
  have hcounted := hcount hash entry hfind
  have hchainWork := h.nChainWork hfind
  have htime := h.nTimeMax hfind
  rw [←(h.hash hfind).1] at hcounted
  rw [BlockIndexLoad.chainedEntry,hwork,rebuilt,hchainWork,htime,hcounted,countAfter]
  have hpprev : (stripped entry).pprev=entry.pprev := rfl
  rw [hpprev]
  cases hprev : entry.pprev with
  | none => rfl
  | some hashPrev =>
    obtain ⟨before,hfindPrev,_⟩ := h.heights.prev hfind hprev
    have hknown := hvisited.find_known hfindPrev
    rw [if_pos (hbefore hashPrev hprev)] at hknown
    rw [Option.bind_some,Option.bind_some,hknown,hfindPrev]
    dsimp only [rebuilt,stripped,Option.map_some,Option.getD_some]
    rw [(h.hash hfindPrev).1]
    rfl

/-- The pointer that skips blocks is found again. -/
theorem Visited.buildSkip {done : List ℕ} {loaded : LoadedIndex}
    (hvisited : Visited index count done loaded) {hash : ℕ} {entry pindex : CBlockIndex}
    (hfind : index.find hash=some entry) (hprevSame : pindex.pprev=entry.pprev)
    (hskipNone : pindex.pskip=none) (hheightSame : pindex.nHeight=entry.nHeight)
    (hlower : ∀ other found,index.find other=some found → found.nHeight<entry.nHeight →
      other∈done) :
    buildSkip (loaded.mapBlockIndex.set hash pindex) pindex=entry.pskip := by
  have hlow : ∀ other found,index.find other=some found → found.nHeight<entry.nHeight →
      (loaded.mapBlockIndex.set hash pindex).find other=some (rebuilt count found) := by
    intro other found hfound hheight
    have hne : other≠hash := by
      intro heq
      rw [heq,hfind] at hfound
      rw [Option.some.inj hfound] at hheight
      omega
    rw [find_set,if_neg hne,hvisited.find_known hfound,if_pos (hlower other found hfound hheight)]
  have hwas := h.pskip hfind
  rw [BlockIndexLoad.buildSkip,hprevSame,hskipNone,hheightSame,hwas]
  cases hprev : entry.pprev with
  | none => rfl
  | some hashPrev =>
    obtain ⟨before,hfindPrev,hheight⟩ := h.heights.prev hfind hprev
    have hself := (h.hash hfindPrev).1
    rw [Option.bind_some,Option.bind_some,hlow hashPrev before hfindPrev (by omega),hfindPrev]
    dsimp only
    rw [Option.bind_some,getAncestor,getAncestor]
    dsimp only [rebuilt]
    have hwalk := @Heights.walkBack_congr index (loaded.mapBlockIndex.set hash pindex) h.heights
      entry.nHeight (fun other found hfound hbound =>
        ⟨rebuilt count found,hlow other found hfound hbound,rfl,rfl⟩)
      (getSkipHeight entry.nHeight) before.nHeight before.nHeight hashPrev before hfindPrev rfl
      (by omega)
    rw [hself,hwalk]
    rfl

theorem Visited.waits (hvisited : Visited index count done loaded)
    (hfind : index.find hash=some entry)
    (hbefore : ∀ hashPrev,entry.pprev=some hashPrev → hashPrev∈done) :
    waits loaded.mapBlockIndex (stripped entry)=true ↔
      ∃ hashPrev,entry.pprev=some hashPrev ∧ 0<entry.nTx ∧ count hashPrev=0 := by
  have hpprev : (stripped entry).pprev=entry.pprev := rfl
  rw [BlockIndexLoad.waits,hpprev]
  cases hprev : entry.pprev with
  | none =>
    grind
  | some hashPrev =>
    obtain ⟨before,hfindPrev,_⟩ := h.heights.prev hfind hprev
    have hknown := hvisited.find_known hfindPrev
    rw [if_pos (hbefore hashPrev hprev)] at hknown
    rw [Option.bind_some,hknown]
    dsimp only [rebuilt,stripped]
    rw [(h.hash hfindPrev).1,Bool.and_eq_true]
    grind

theorem Visited.loadBlock (hcount : Counted index count)
    {done : List ℕ} {loaded : LoadedIndex} (hvisited : Visited index count done loaded)
    {hash : ℕ} {entry : CBlockIndex} (hfind : index.find hash=some entry) (hnew : hash∉done)
    (hlower : ∀ other found,index.find other=some found → found.nHeight<entry.nHeight →
      other∈done) :
    Visited index count (done++[hash]) (loadBlock ctx address loaded hash) := by
  have hself := (h.hash hfind).1
  have hbefore : ∀ hashPrev,entry.pprev=some hashPrev → hashPrev∈done := by
    intro hashPrev hprev
    obtain ⟨before,hfindPrev,hheight⟩ := h.heights.prev hfind hprev
    exact hlower hashPrev before hfindPrev (by omega)
  have hstored := hvisited.find_known hfind
  rw [if_neg hnew] at hstored
  have hchained := hvisited.chainedEntry h hcount hfind hbefore
  have hskip := @Visited.buildSkip ctx index count h done loaded hvisited hash entry
    { rebuilt count entry with pskip := none } hfind rfl rfl rfl hlower
  have hwaits := hvisited.waits h hfind hbefore
  rw [BlockIndexLoad.loadBlock,hstored]
  dsimp only
  rw [hchained,hskip]
  refine ⟨?_,?_,?_⟩
  · intro other
    rw [find_set,find_set,hvisited.find]
    by_cases heq : other=hash
    · rw [if_pos heq,heq,hfind,Option.map_some,if_pos (mem_append_right _ mem_cons_self)]
      rfl
    · grind
  · intro hashPrev other
    have hmem : (hashPrev,other)∈(if BlockIndexLoad.waits loaded.mapBlockIndex (stripped entry) then
        loaded.mapBlocksUnlinked++[((stripped entry).pprev.getD 0,hash)]
        else loaded.mapBlocksUnlinked) ↔ (hashPrev,other)∈loaded.mapBlocksUnlinked ∨
        other=hash ∧ entry.pprev=some hashPrev ∧ 0<entry.nTx ∧ count hashPrev=0 := by
      split
      next hwait =>
        obtain ⟨found,hprev,hnTx,hzero⟩ := hwaits.mp hwait
        have hpprev : (stripped entry).pprev=some found := hprev
        grind
      next hready =>
        grind
    rw [hmem,hvisited.unlinked,mem_append,mem_singleton]
    grind
  · intro other
    have hready : (entry.nStatus.isValid .transactions && ((rebuilt count entry).nChainTx≠0 ||
        (rebuilt count entry).pprev=none))=true ↔ entry.nStatus.isValid .transactions=true ∧
        (count hash≠0 ∨ entry.pprev=none) := by
      rw [Bool.and_eq_true,Bool.or_eq_true,decide_eq_true_iff,decide_eq_true_iff]
      dsimp only [rebuilt]
      rw [hself]
    have hmem : other∈(if (entry.nStatus.isValid .transactions &&
        ((rebuilt count entry).nChainTx≠0 || (rebuilt count entry).pprev=none))=true then
          loaded.setBlockIndexCandidates.insert hash
        else loaded.setBlockIndexCandidates) ↔ other∈loaded.setBlockIndexCandidates ∨
        other=hash ∧ entry.nStatus.isValid .transactions=true ∧
          (count hash≠0 ∨ entry.pprev=none) := by
      grind
    refine hmem.trans ?_
    rw [hvisited.candidates,mem_append,mem_singleton]
    grind

end

/-- Lower entries come first. -/
def Ascending (index : BlockIndex) (first second : ℕ) : Prop :=
  ∀ low high,index.find first=some low → index.find second=some high → low.nHeight ≤ high.nHeight

theorem IndexSound.foldl_loadBlock (h : IndexSound ctx index) (hcount : Counted index count)
    (rest : List ℕ) : ∀ {done : List ℕ} {loaded : LoadedIndex},Visited index count done loaded →
    (∀ hash,hash∈done++rest ↔ ∃ entry,index.find hash=some entry) → (done++rest).Nodup →
    rest.Pairwise (Ascending index) →
    Visited index count (done++rest) (rest.foldl (loadBlock ctx address) loaded) := by
  induction rest with
  | nil =>
    intro done loaded hvisited _ _ _
    rw [append_nil]
    exact hvisited
  | cons hash rest ih =>
    intro done loaded hvisited hall hnodup hsorted
    obtain ⟨entry,hfind⟩ := (hall hash).mp (mem_append_right _ mem_cons_self)
    have hnew : hash∉done := fun hold =>
      disjoint_of_nodup_append hnodup hold mem_cons_self
    have hlower : ∀ other found,index.find other=some found → found.nHeight<entry.nHeight →
        other∈done := by
      intro other found hfound hheight
      cases mem_append.mp ((hall other).mpr ⟨found,hfound⟩) with
      | inl hdone => exact hdone
      | inr hlater =>
        cases mem_cons.mp hlater with
        | inl hsame =>
          rw [hsame,hfind] at hfound
          rw [Option.some.inj hfound] at hheight
          omega
        | inr hrest =>
          have hle := (pairwise_cons.mp hsorted).1 other hrest entry found hfind hfound
          omega
    have hnext := ih (@Visited.loadBlock ctx address index count h hcount done loaded hvisited
      hash entry hfind hnew hlower)
      (by rwa [append_assoc,singleton_append])
      (by rwa [append_assoc,singleton_append]) (pairwise_cons.mp hsorted).2
    rwa [append_assoc,singleton_append] at hnext

theorem before_trans (first second third : CBlockIndex) (hfirst : (first.nHeight < second.nHeight ||
      (first.nHeight=second.nHeight && address first.hash ≤ address second.hash))=true)
    (hsecond : (second.nHeight<third.nHeight ||
      (second.nHeight=third.nHeight && address second.hash ≤ address third.hash))=true) :
    (first.nHeight<third.nHeight ||
      (first.nHeight=third.nHeight && address first.hash ≤ address third.hash))=true := by
  simp only [Bool.or_eq_true,Bool.and_eq_true,decide_eq_true_iff] at *
  omega

theorem before_total (first second : CBlockIndex) :
    ((first.nHeight < second.nHeight ||
        (first.nHeight=second.nHeight && address first.hash ≤ address second.hash)) ||
      (second.nHeight<first.nHeight ||
        (second.nHeight=first.nHeight && address second.hash ≤ address first.hash)))=true := by
  simp only [Bool.or_eq_true,Bool.and_eq_true,decide_eq_true_iff]
  omega

/-- The order of the visit: every entry comes once, and lower ones first. -/
theorem vSortedByHeight_spec (hhash : ∀ {hash entry},index.find hash=some entry → entry.hash=hash) :
    (∀ hash,hash∈vSortedByHeight address index ↔ ∃ entry,index.find hash=some entry) ∧
      (vSortedByHeight address index).Nodup ∧
      (vSortedByHeight address index).Pairwise (Ascending index) := by
  have hperm := index.values.mergeSort_perm (fun first second => first.nHeight < second.nHeight ||
    (first.nHeight=second.nHeight && address first.hash ≤ address second.hash))
  have hknown : ∀ {entry},entry∈index.values → index.find entry.hash=some entry := by
    intro entry hm
    obtain ⟨hash,hfind⟩ := (index.mem_values_iff entry).mp hm
    rw [hhash hfind]
    exact hfind
  refine ⟨?_,?_,?_⟩
  · intro hash
    rw [vSortedByHeight,mem_map]
    constructor
    · grind
    · intro hex
      obtain ⟨entry,hfind⟩ := hex
      exact ⟨entry,hperm.mem_iff.mpr ((index.mem_values_iff entry).mpr ⟨hash,hfind⟩),hhash hfind⟩
  · refine (hperm.map CBlockIndex.hash).nodup_iff.mpr ?_
    have hkeys : index.values.map CBlockIndex.hash=index.entries.map Prod.fst := by
      rw [OrderedMap.values,map_map]
      exact map_congr_left (fun entry hm => hhash ((index.mem_entries_iff _ _).mp hm))
    rw [hkeys]
    exact index.nodup_keys
  · rw [vSortedByHeight,pairwise_map]
    have hsorted := pairwise_mergeSort (@before_trans address) (@before_total address) index.values
    refine hsorted.imp_of_mem (fun hfirst hsecond hbefore => ?_)
    intro low high hlow hhigh
    grind

structure Reloaded (index : BlockIndex) (count : ℕ → ℕ) (loaded : LoadedIndex) : Prop where
  /-- Every entry is back, without its order and with its transactions counted again. -/
  find : ∀ hash,loaded.mapBlockIndex.find hash=(index.find hash).map (rebuilt count)
  /-- Entries wait that have transactions after an entry that is not counted. -/
  unlinked : ∀ hashPrev hash,(hashPrev,hash)∈loaded.mapBlocksUnlinked ↔
    ∃ entry,index.find hash=some entry ∧ entry.pprev=some hashPrev ∧ 0<entry.nTx ∧ count hashPrev=0
  /-- Entries that are valid and counted are candidates. -/
  candidates : ∀ hash,hash∈loaded.setBlockIndexCandidates ↔
    ∃ entry,index.find hash=some entry ∧ entry.nStatus.isValid .transactions=true ∧
      (count hash≠0 ∨ entry.pprev=none)

theorem IndexSound.reloaded (h : IndexSound ctx index) (hcount : Counted index count)
    {clientVersion : ℕ} (hver : clientVersion < 2^32) {entries : List CBlockIndex}
    (hperm : entries.Perm index.values) :
    ∃ loaded,loadBlockIndexDB ctx address (storedValues clientVersion entries)=some loaded ∧
      Reloaded index count loaded := by
  obtain ⟨read,hread,hfind⟩ := h.read_guts hver hperm
  have hknown : ∀ hash,(∃ entry,read.find hash=some entry) ↔
      ∃ entry,index.find hash=some entry := by
    intro hash
    rw [hfind]
    constructor
    · intro hex
      obtain ⟨found,hmap⟩ := hex
      obtain ⟨entry,hentry,_⟩ := Option.map_eq_some_iff.mp hmap
      exact ⟨entry,hentry⟩
    · grind
  have hhash : ∀ {hash entry},read.find hash=some entry → entry.hash=hash := by
    intro hash entry hentry
    rw [hfind] at hentry
    obtain ⟨found,hfound,heq⟩ := Option.map_eq_some_iff.mp hentry
    rw [←heq]
    exact (h.hash hfound).1
  obtain ⟨hmem,hnodup,hsorted⟩ := @vSortedByHeight_spec address read hhash
  have hstart : Visited index count [] { mapBlockIndex := read } := by
    refine ⟨fun hash => ?_,fun hashPrev hash => ?_,fun hash => ?_⟩
    · rw [hfind]
      simp only [not_mem_nil,if_false]
    · simp only [not_mem_nil,false_and]
    · simp only [not_mem_nil,false_and]
  have hall : ∀ hash,hash∈vSortedByHeight address read ↔ ∃ entry,index.find hash=some entry :=
    fun hash => (hmem hash).trans (hknown hash)
  have hascending : (vSortedByHeight address read).Pairwise (Ascending index) := by
    refine hsorted.imp (fun hbelow low high hlow hhigh => ?_)
    exact hbelow (stripped low) (stripped high) (by rw [hfind,hlow,Option.map_some])
      (by rw [hfind,hhigh,Option.map_some])
  have hvisited := @IndexSound.foldl_loadBlock ctx address index count h hcount
    (vSortedByHeight address read) [] { mapBlockIndex := read } hstart hall hnodup hascending
  rw [nil_append] at hvisited
  refine ⟨_,by rw [loadBlockIndexDB,hread,Option.map_some],?_,?_,?_⟩
  · intro hash
    rw [hvisited.find]
    cases hentry : index.find hash with
    | none => rfl
    | some entry => rw [Option.map_some,Option.map_some,if_pos ((hall hash).mpr ⟨entry,hentry⟩)]
  · intro hashPrev hash
    rw [hvisited.unlinked]
    grind
  · intro hash
    rw [hvisited.candidates]
    grind

end Pyrk.BlockIndexLoad
