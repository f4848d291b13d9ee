import Pyrk.BlockProof
import Pyrk.ExceptRules
import Pyrk.OrderedMap
import Mathlib.Data.List.Infix

/-!
# Headers in the block index

A header enters the block index after its proof of work and its place in the chain were checked.
The checks read the bits of the version in several places.
-/

namespace Pyrk.BlockHeaders

open ArithUint CompactTarget ProofOfWork BlockProof OrderedMap

structure HeaderHashes where
  /-- Hash that names a block, and proof of work of double SHA-256. -/
  getHash : CBlockHeader → ℕ
  scrypt : CBlockHeader → ℕ
  hashX11 : CBlockHeader → ℕ
  yespower : CBlockHeader → ℕ
  lyra2 : CBlockHeader → ℕ

/-- Hash that has to meet the target. -/
def getPoWAlgoHash (hashes : HeaderHashes) (header : CBlockHeader) : ℕ :=
  match header.getAlgo with
  | .sha256d => hashes.getHash header
  | .scrypt => hashes.scrypt header
  | .x11 => hashes.hashX11 header
  | .yespower => hashes.yespower header
  | .lyra2 => hashes.lyra2 header
  | .unknown => 2^256-1

structure HeaderParams where
  pow : Params
  /-- Height from which versions below two are refused. -/
  BIP34Height : ℕ
  /-- Height from which versions below four are refused. -/
  BIP65Height : ℕ
  /-- Height from which versions below three are refused. -/
  BIP66Height : ℕ
  genesis : CBlockHeader
  /-- Heights and hashes of known blocks, in ascending order. -/
  checkpoints : List (ℕ×ℕ)

def mainHeaderParams : HeaderParams where
  pow := mainParams
  BIP34Height := 16
  BIP65Height := 1
  BIP66Height := 1
  genesis :=
    { nVersion := 1
      hashMerkleRoot := 0xfaa5e3a6b332d17e8d9532839ff8cf89732e9a52e1a75ab3c4a3eaccf35e7251
      nTime := 1585180800
      nBits := 0x1e0ffff0
      nNonce := 2875050 }
  checkpoints :=
    [(0,0x973814a07c1ae4f3af90372952c9b9709901a95df1d0ea54bd1b3bd6feff5b89),
     (5000,0x00000000000000028b9635facde03c52f86280340ddb7de23ec2d70847602a23),
     (10000,0xd378053edc554b14166acfa36bfaaf71c57f014d7698585d7a5c2f3c0c2624b9),
     (15000,0x2df0a91058d731b42025004658e36648b24745794eab4de0bae547770a4eb2d2),
     (25000,0x000000000000000feb054686168fafb67897a5766c1ffeafed713889e0f18728),
     (40000,0x0000000000000011d127f197d185b5771933ea345e83ebb9ddd3e2cd68ac25df),
     (47000,0xdad5bf16bbc6e980d7cb54762f57a2e445485dbd030e084fe27d9c1c35846918),
     (48000,0x1c4f8bf00540c230d4f7b69f0a2b0e0c3dc8d8811e30f54948fc3436705a1878),
     (48250,0x00000000000000045ab0543cad7ffef7aa884938f1b511d18c4a7415fd53bf47),
     (48322,0x00000000000000012e4b46b6b404a6dd77dac362697042766efd69bdc074f3ac),
     (110000,0x8ae8b480bc089e43eb878630e9f0d428ad955b77ee301ec4befd9ca74d3e4f7a),
     (153800,0x95f4c0d9f20a2c61889cab91a6d604a677447f199386638093e053bea8d58004)]

/-- Why a header is refused. -/
inductive HeaderReject where
  | highHash
  /-- The header is known and its block was found invalid. -/
  | duplicate
  | prevNotFound
  | prevInvalid
  /-- The header forks off before the last checkpoint. -/
  | checkpoint
  | badDiffbits
  | timeTooOld
  | timeTooNew
  | badVersion (nVersion : BitVec 32)
  | invalidAlgo
  deriving DecidableEq

/-- Ban score of a refused header. -/
def HeaderReject.dos : HeaderReject → ℕ
  | highHash => 50
  | duplicate => 0
  | prevNotFound => 10
  | prevInvalid => 100
  | checkpoint => 100
  | badDiffbits => 100
  | timeTooOld => 0
  | timeTooNew => 0
  | badVersion _ => 0
  | invalidAlgo => 0

/-- Reason that is sent for a refused header. -/
def HeaderReject.reason : HeaderReject → String
  | highHash => "high-hash"
  | duplicate => "duplicate"
  | prevNotFound => "bad-prevblk"
  | prevInvalid => "bad-prevblk"
  | checkpoint => ""
  | badDiffbits => "bad-diffbits"
  | timeTooOld => "time-too-old"
  | timeTooNew => "time-too-new"
  | badVersion nVersion => "bad-version(0x"++nVersion.toHex++")"
  | invalidAlgo => "invalid-algo"

/-- A block of the index with the headers before it, the last one first. -/
structure CBlockIndex where
  header : CBlockHeader
  pprev : List CBlockHeader
  nChainWork : ArithUint256
  deriving DecidableEq

/-- Headers of a block and of those before it. -/
def CBlockIndex.chain (pindex : CBlockIndex) : List CBlockHeader := pindex.header::pindex.pprev

abbrev BlockMap := OrderedMap ℕ CBlockIndex

section Checks

variable (params : HeaderParams) (hashes : HeaderHashes)

def hashGenesisBlock : ℕ := hashes.getHash params.genesis

def checkBlockHeader (block : CBlockHeader) : Except HeaderReject Unit :=
  if !checkProofOfWork params.pow (getPoWAlgoHash hashes block) block.nBits then .error .highHash
  else .ok ()

/-- Check of a header after a chain. -/
def contextualCheckBlockHeader (block : CBlockHeader) (pindexPrev : List CBlockHeader)
    (nAdjustedTime : ℤ) : Except HeaderReject Unit :=
  let nHeight := pindexPrev.length
  if block.nBits≠getNextWorkRequired params.pow pindexPrev block.getAlgo then .error .badDiffbits
  else if (block.nTime.toNat : ℤ)≤getMedianTimePast pindexPrev then .error .timeTooOld
  else if nAdjustedTime+2*60*60<(block.nTime.toNat : ℤ) then .error .timeTooNew
  else if (block.nVersion.toInt<2 ∧ params.BIP34Height ≤ nHeight) ∨
      (block.nVersion.toInt<3 ∧ params.BIP66Height ≤ nHeight) ∨
      (block.nVersion.toInt<4 ∧ params.BIP65Height ≤ nHeight) then
    .error (.badVersion block.nVersion)
  else if block.getAlgo=.yespower ∧ nHeight<params.pow.v2DiffChangeHeight then .error .invalidAlgo
  else if block.getAlgo=.lyra2 ∧ nHeight<params.pow.AlgoChangeHeight then .error .invalidAlgo
  else .ok ()

/-- The highest checkpoint in the index. -/
def getLastCheckpoint (mapBlockIndex : BlockMap) : Option CBlockIndex :=
  params.checkpoints.reverse.findSome? (fun checkpoint => mapBlockIndex.find checkpoint.2)

/-- No forks before the last checkpoint. -/
def checkIndexAgainstCheckpoint (mapBlockIndex : BlockMap) (hashPrev : ℕ)
    (pindexPrev : CBlockIndex) : Bool :=
  if hashPrev=hashGenesisBlock params hashes then true
  else match getLastCheckpoint params mapBlockIndex with
    | some pcheckpoint => !decide (pindexPrev.pprev.length+1<pcheckpoint.pprev.length)
    | none => true

/-- Add a header with the work of its chain. -/
def addToBlockIndex (mapBlockIndex : BlockMap) (block : CBlockHeader) : BlockMap×CBlockIndex :=
  match mapBlockIndex.find (hashes.getHash block) with
  | some pindex => (mapBlockIndex,pindex)
  | none =>
    let pindexNew : CBlockIndex :=
      match mapBlockIndex.find block.hashPrevBlock with
      | some pindexPrev => ⟨block,pindexPrev.chain,
          pindexPrev.nChainWork.add (blockProof params.pow pindexPrev.chain)⟩
      | none => ⟨block,[],(BaseUint.ofNat 8 0).add (blockProof params.pow [])⟩
    (mapBlockIndex.set (hashes.getHash block) pindexNew,pindexNew)

/-- What a call reads besides the header and the index. -/
structure HeaderContext where
  nAdjustedTime : ℤ
  failed : ℕ → Bool
  fCheckpointsEnabled : Bool

def acceptBlockHeader (ctx : HeaderContext) (mapBlockIndex : BlockMap) (block : CBlockHeader) :
    Except HeaderReject (BlockMap×CBlockIndex) :=
  let hash := hashes.getHash block
  if hash=hashGenesisBlock params hashes then .ok
    (addToBlockIndex params hashes mapBlockIndex block)
  else match mapBlockIndex.find hash with
    | some pindex =>
      if ctx.failed hash then .error .duplicate else .ok (mapBlockIndex,pindex)
    | none => do
      checkBlockHeader params hashes block
      match mapBlockIndex.find block.hashPrevBlock with
      | none => .error .prevNotFound
      | some pindexPrev =>
        if ctx.failed block.hashPrevBlock then .error .prevInvalid
        else if ctx.fCheckpointsEnabled && !checkIndexAgainstCheckpoint params hashes
            mapBlockIndex block.hashPrevBlock pindexPrev then .error .checkpoint
        else do
          contextualCheckBlockHeader params block pindexPrev.chain ctx.nAdjustedTime
          .ok (addToBlockIndex params hashes mapBlockIndex block)

def genesisIndex : BlockMap := (addToBlockIndex params hashes .empty params.genesis).1

/-- Headers that a node accepted, the last one first, and its index afterwards. What else a call
reads may be different each time. -/
inductive AcceptedHeaders : List CBlockHeader → BlockMap → Prop where
  | start : AcceptedHeaders [] (genesisIndex params hashes)
  | accept {headers : List CBlockHeader} {mapBlockIndex mapNext : BlockMap}
      {ctx : HeaderContext} {block : CBlockHeader} {pindex : CBlockIndex}
      (hbefore : AcceptedHeaders headers mapBlockIndex)
      (haccept : acceptBlockHeader params hashes ctx mapBlockIndex block=.ok (mapNext,pindex)) :
      AcceptedHeaders (block::headers) mapNext

end Checks

section Acceptance

variable {params : HeaderParams} {hashes : HeaderHashes}

/-- Heights at which an algorithm may be used. -/
def AlgoActive (params : Params) (algo : Algo) (nHeight : ℕ) : Prop :=
  (algo=.sha256d ∨ algo=.scrypt ∨ algo=.x11) ∨
    (algo=.yespower ∧ params.v2DiffChangeHeight ≤ nHeight) ∨
    (algo=.lyra2 ∧ params.AlgoChangeHeight ≤ nHeight)

/-- What holds of a header in its place after a chain. -/
structure ValidHeader (params : Params) (hashes : HeaderHashes) (header : CBlockHeader)
    (pprev : List CBlockHeader) : Prop where
  active : AlgoActive params header.getAlgo pprev.length
  /-- The compact target is the required one for the algorithm. -/
  required : header.nBits=getNextWorkRequired params pprev header.getAlgo
  notNegative : compactNegative header.nBits=false
  notOverflow : compactOverflow header.nBits=false
  positive : 0<(setCompact header.nBits).value
  limit : (setCompact header.nBits).value ≤ params.powLimit.value
  hash : getPoWAlgoHash hashes header≤(setCompact header.nBits).value

theorem checkProofOfWork_iff (params : Params) (hash : ℕ) (nBits : UInt32) :
    checkProofOfWork params hash nBits=true ↔
      compactNegative nBits=false ∧ compactOverflow nBits=false ∧ 0<(setCompact nBits).value ∧
        (setCompact nBits).value ≤ params.powLimit.value ∧ hash≤(setCompact nBits).value := by
  unfold checkProofOfWork
  simp only [BaseUint.compareTo_eq,Nat.compare_eq_gt]
  cases compactNegative nBits <;> cases compactOverflow nBits <;>
    simp [Nat.pos_iff_ne_zero,and_assoc]

variable {block : CBlockHeader} {pindexPrev : List CBlockHeader}

theorem validHeader_of_checks (hlimit : params.pow.powLimit.value<2^256-1) {nAdjustedTime : ℤ}
    (hheader : checkBlockHeader params hashes block=.ok ())
    (hcontext : contextualCheckBlockHeader params block pindexPrev nAdjustedTime=.ok ()) :
    ValidHeader params.pow hashes block pindexPrev := by
  have hpow : checkProofOfWork params.pow (getPoWAlgoHash hashes block) block.nBits=true := by
    unfold checkBlockHeader at hheader
    split_ifs at hheader with h
    simpa using h
  obtain ⟨hneg,hoverflow,hpos,hle,hhash⟩ := (checkProofOfWork_iff _ _ _).mp hpow
  unfold contextualCheckBlockHeader at hcontext
  split_ifs at hcontext with hbits htimeOld htimeNew
  refine ⟨?_,not_not.mp hbits,hneg,hoverflow,hpos,hle,hhash⟩
  unfold AlgoActive
  cases halgo : block.getAlgo with
  | unknown =>
    have hones : getPoWAlgoHash hashes block=2^256-1 := by
      unfold getPoWAlgoHash
      rw [halgo]
    omega
  | sha256d => simp
  | scrypt => simp
  | x11 => simp
  | yespower =>
    grind
  | lyra2 =>
    grind

variable {ctx : HeaderContext} {mapBlockIndex mapNext : BlockMap} {pindex : CBlockIndex}

/-- What an accepted header does: nothing where it is known, else it enters the
index after a block of it, or as the first block. -/
theorem acceptBlockHeader_ok
    (h : acceptBlockHeader params hashes ctx mapBlockIndex block=.ok (mapNext,pindex)) :
    (mapNext=mapBlockIndex ∧ mapBlockIndex.find (hashes.getHash block)=some pindex) ∨
    (hashes.getHash block=hashGenesisBlock params hashes ∧
      mapBlockIndex.find (hashes.getHash block)=none) ∨
    (hashes.getHash block≠hashGenesisBlock params hashes ∧
      mapBlockIndex.find (hashes.getHash block)=none ∧
      ∃ pindexPrev, mapBlockIndex.find block.hashPrevBlock=some pindexPrev ∧
        checkBlockHeader params hashes block=.ok () ∧
        contextualCheckBlockHeader params block pindexPrev.chain ctx.nAdjustedTime=.ok () ∧
        pindex=⟨block,pindexPrev.chain,
          pindexPrev.nChainWork.add (blockProof params.pow pindexPrev.chain)⟩ ∧
        mapNext=mapBlockIndex.set (hashes.getHash block) pindex) := by
  unfold acceptBlockHeader at h
  by_cases hgenesis : hashes.getHash block=hashGenesisBlock params hashes
  · rw [if_pos hgenesis] at h
    cases hfind : mapBlockIndex.find (hashes.getHash block) with
    | none => exact .inr (.inl ⟨hgenesis,rfl⟩)
    | some known =>
      unfold addToBlockIndex at h
      rw [hfind] at h
      cases h
      exact .inl ⟨rfl,rfl⟩
  · rw [if_neg hgenesis] at h
    cases hfind : mapBlockIndex.find (hashes.getHash block) with
    | some known =>
      grind
    | none =>
      rw [hfind] at h
      refine .inr (.inr ⟨hgenesis,rfl,?_⟩)
      obtain ⟨⟨⟩,hheader,h⟩ := bind_eq_ok.mp h
      cases hprev : mapBlockIndex.find block.hashPrevBlock with
      | none => rw [hprev] at h; cases h
      | some pindexPrev =>
        rw [hprev] at h
        dsimp only at h
        split_ifs at h
        obtain ⟨⟨⟩,hcontext,h⟩ := bind_eq_ok.mp h
        unfold addToBlockIndex at h
        rw [hfind,hprev] at h
        cases h
        exact ⟨pindexPrev,rfl,hheader,hcontext,rfl,rfl⟩

theorem checks_of_validHeader
    {nAdjustedTime : ℤ} (hvalid : ValidHeader params.pow hashes block pindexPrev)
    (hver : 4≤block.nVersion.toInt)
    (hmedian : getMedianTimePast pindexPrev<(block.nTime.toNat : ℤ))
    (hfuture : (block.nTime.toNat : ℤ)≤nAdjustedTime+2*60*60) :
    checkBlockHeader params hashes block=.ok () ∧
      contextualCheckBlockHeader params block pindexPrev nAdjustedTime=.ok () := by
  have hpow := (checkProofOfWork_iff params.pow (getPoWAlgoHash hashes block) block.nBits).mpr
    ⟨hvalid.notNegative,hvalid.notOverflow,hvalid.positive,hvalid.limit,hvalid.hash⟩
  have hyespower : ¬(block.getAlgo=.yespower ∧
    pindexPrev.length<params.pow.v2DiffChangeHeight) := by
    rintro ⟨halgo,hearly⟩
    have hact := hvalid.active
    rw [halgo] at hact
    have hheight : params.pow.v2DiffChangeHeight≤pindexPrev.length := by
      simpa [AlgoActive] using hact
    omega
  have hlyra2 : ¬(block.getAlgo=.lyra2 ∧ pindexPrev.length<params.pow.AlgoChangeHeight) := by
    rintro ⟨halgo,hearly⟩
    have hact := hvalid.active
    rw [halgo] at hact
    have hheight : params.pow.AlgoChangeHeight≤pindexPrev.length := by
      simpa [AlgoActive] using hact
    omega
  constructor
  · rw [checkBlockHeader,hpow]
    rfl
  · unfold contextualCheckBlockHeader
    rw [if_neg (not_not.mpr hvalid.required),if_neg (by omega),if_neg (by omega),
      if_neg (by omega),if_neg hyespower,if_neg hlyra2]

theorem acceptBlockHeader_of_valid {ctx : HeaderContext} {mapBlockIndex : BlockMap}
    {block : CBlockHeader} {pindexPrev : CBlockIndex}
    (hgenesis : hashes.getHash block≠hashGenesisBlock params hashes)
    (hnone : mapBlockIndex.find (hashes.getHash block)=none)
    (hprev : mapBlockIndex.find block.hashPrevBlock=some pindexPrev)
    (hfail : ctx.failed block.hashPrevBlock=false)
    (hcheckpoints : ctx.fCheckpointsEnabled=false)
    (hvalid : ValidHeader params.pow hashes block pindexPrev.chain)
    (hver : 4≤block.nVersion.toInt)
    (hmedian : getMedianTimePast pindexPrev.chain<(block.nTime.toNat : ℤ))
    (hfuture : (block.nTime.toNat : ℤ) ≤ ctx.nAdjustedTime+2*60*60) :
    acceptBlockHeader params hashes ctx mapBlockIndex block=
      .ok (mapBlockIndex.set (hashes.getHash block) ⟨block,pindexPrev.chain,
        pindexPrev.nChainWork.add (blockProof params.pow pindexPrev.chain)⟩,
        ⟨block,pindexPrev.chain,
          pindexPrev.nChainWork.add (blockProof params.pow pindexPrev.chain)⟩) := by
  obtain ⟨hheader,hcontext⟩ := checks_of_validHeader hvalid hver hmedian hfuture
  unfold acceptBlockHeader addToBlockIndex
  rw [if_neg hgenesis,hnone,hheader,hprev]
  dsimp only
  rw [hfail,hcheckpoints,hcontext]
  rfl

/-- What holds of every block of an index. -/
structure SoundIndex (params : HeaderParams) (hashes : HeaderHashes) (mapBlockIndex : BlockMap) :
    Prop where
  first : ∃ nChainWork, mapBlockIndex.find (hashGenesisBlock params hashes)=
    some ⟨params.genesis,[],nChainWork⟩
  named : ∀ hash pindex, mapBlockIndex.find hash=some pindex → hashes.getHash pindex.header=hash
  valid : ∀ hash pindex, mapBlockIndex.find hash=some pindex →
    hash≠hashGenesisBlock params hashes → ValidHeader params.pow hashes pindex.header pindex.pprev
  linked : ∀ hash pindex, mapBlockIndex.find hash=some pindex →
    hash≠hashGenesisBlock params hashes → ∃ pindexPrev,
      mapBlockIndex.find pindex.header.hashPrevBlock=some pindexPrev ∧
      pindex.pprev=pindexPrev.chain ∧
      pindex.nChainWork=pindexPrev.nChainWork.add (blockProof params.pow pindexPrev.chain)

theorem find_genesisIndex (params : HeaderParams) (hashes : HeaderHashes) (hash : ℕ) :
    (genesisIndex params hashes).find hash=if hash=hashGenesisBlock params hashes then
      some ⟨params.genesis,[],(BaseUint.ofNat 8 0).add (blockProof params.pow [])⟩ else none := by
  unfold genesisIndex addToBlockIndex
  rw [find_empty,find_empty]
  rw [find_set,find_empty]
  rfl

theorem soundIndex_genesis (params : HeaderParams) (hashes : HeaderHashes) :
    SoundIndex params hashes (genesisIndex params hashes) := by
  refine ⟨⟨_,by rw [find_genesisIndex,if_pos rfl]⟩,?_,?_,?_⟩ <;> intro hash pindex hfind <;>
    rw [find_genesisIndex] at hfind <;> split_ifs at hfind with hgenesis
  · cases hfind
    exact hgenesis.symm
  · intro hne
    exact absurd hgenesis hne
  · intro hne
    exact absurd hgenesis hne

theorem SoundIndex.accept (hlimit : params.pow.powLimit.value<2^256-1)
    (hsound : SoundIndex params hashes mapBlockIndex)
    (h : acceptBlockHeader params hashes ctx mapBlockIndex block=.ok (mapNext,pindex)) :
    SoundIndex params hashes mapNext := by
  rcases acceptBlockHeader_ok h with ⟨rfl,-⟩ | ⟨hgenesis,hnone⟩ |
    ⟨hgenesis,hnone,pindexPrev,hprev,hheader,hcontext,hidx,rfl⟩
  · exact hsound
  · obtain ⟨nChainWork,hfirst⟩ := hsound.first
    rw [hgenesis,hfirst] at hnone
    cases hnone
  · have hkeep : ∀ {hash known}, mapBlockIndex.find hash=some known →
        (mapBlockIndex.set (hashes.getHash block) pindex).find hash=some known := by
      intro hash known hfind
      rw [find_set_of_ne,hfind]
      intro heq
      rw [heq,hnone] at hfind
      cases hfind
    have hnew : ∀ {hash known}, (mapBlockIndex.set (hashes.getHash block) pindex).find hash=
        some known → (hash=hashes.getHash block ∧ known=pindex) ∨
          mapBlockIndex.find hash=some known := by
      intro hash known hfind
      rw [find_set] at hfind
      grind
    obtain ⟨nChainWork,hfirst⟩ := hsound.first
    refine ⟨⟨nChainWork,hkeep hfirst⟩,?_,?_,?_⟩ <;> intro hash known hfind <;>
      rcases hnew hfind with ⟨rfl,rfl⟩ | hold
    · rw [hidx]
    · exact hsound.named hash known hold
    · intro hne
      rw [hidx]
      exact validHeader_of_checks hlimit hheader hcontext
    · exact hsound.valid hash known hold
    · grind
    · intro hne
      obtain ⟨parent,hpar,hchain,hwork⟩ := hsound.linked hash known hold hne
      exact ⟨parent,hkeep hpar,hchain,hwork⟩

theorem acceptBlockHeader_find (hsound : SoundIndex params hashes mapBlockIndex)
    (h : acceptBlockHeader params hashes ctx mapBlockIndex block=.ok (mapNext,pindex)) :
    mapNext.find (hashes.getHash block)=some pindex ∧
      (∀ hash known, mapBlockIndex.find hash=some known → mapNext.find hash=some known) ∧
      ∀ hash known, mapNext.find hash=some known →
        mapBlockIndex.find hash=some known ∨ known.header=block := by
  rcases acceptBlockHeader_ok h with ⟨rfl,hfind⟩ | ⟨hgenesis,hnone⟩ |
    ⟨hgenesis,hnone,pindexPrev,hprev,hheader,hcontext,hidx,rfl⟩
  · exact ⟨hfind,fun _ _ h => h,fun _ _ h => .inl h⟩
  · obtain ⟨nChainWork,hfirst⟩ := hsound.first
    rw [hgenesis,hfirst] at hnone
    cases hnone
  · refine ⟨find_set_self _ _ _,?_,?_⟩
    · intro hash known hfind
      rw [find_set_of_ne,hfind]
      intro heq
      rw [heq,hnone] at hfind
      cases hfind
    · intro hash known hfind
      rw [find_set] at hfind
      grind

variable {mapBlockIndex : BlockMap}

theorem AcceptedHeaders.soundIndex (hlimit : params.pow.powLimit.value<2^256-1)
    {headers : List CBlockHeader}
    (h : AcceptedHeaders params hashes headers mapBlockIndex) :
    SoundIndex params hashes mapBlockIndex := by
  induction h with
  | start => exact soundIndex_genesis params hashes
  | accept hbefore haccept ih => exact ih.accept hlimit haccept

theorem AcceptedHeaders.find (hlimit : params.pow.powLimit.value<2^256-1)
    {headers : List CBlockHeader}
    (h : AcceptedHeaders params hashes headers mapBlockIndex) :
    (∀ header∈headers, ∃ pindex, mapBlockIndex.find (hashes.getHash header)=some pindex) ∧
      ∀ hash pindex, mapBlockIndex.find hash=some pindex →
        hash≠hashGenesisBlock params hashes → pindex.header∈headers := by
  induction h with
  | start =>
    refine ⟨fun header hm => (List.not_mem_nil hm).elim,?_⟩
    intro hash pindex hfind hne
    rw [find_genesisIndex,if_neg hne] at hfind
    cases hfind
  | accept hbefore haccept ih =>
    obtain ⟨hself,hkeep,hnew⟩ := acceptBlockHeader_find (hbefore.soundIndex hlimit) haccept
    grind

theorem SoundIndex.find_suffix (hsound : SoundIndex params hashes mapBlockIndex) {hash : ℕ}
    (hfind : mapBlockIndex.find hash=some pindex) {header : CBlockHeader}
    {pprev : List CBlockHeader} (hsuffix : header::pprev <:+ pindex.chain) :
    ∃ ancestor, mapBlockIndex.find (hashes.getHash header)=some ancestor ∧
      ancestor.header=header ∧ ancestor.pprev=pprev := by
  generalize hlen : pindex.pprev.length=length
  induction length using Nat.strong_induction_on generalizing hash pindex with
  | _ length ih =>
    rcases List.suffix_cons_iff.mp hsuffix with heq | hbefore
    · cases heq
      exact ⟨pindex,hsound.named hash pindex hfind ▸ hfind,rfl,rfl⟩
    · by_cases hgenesis : hash=hashGenesisBlock params hashes
      · obtain ⟨nChainWork,hfirst⟩ := hsound.first
        grind
      · obtain ⟨pindexPrev,hprev,hchain,-⟩ := hsound.linked hash pindex hfind hgenesis
        have hshorter : pindexPrev.pprev.length<length := by
          rw [← hlen,hchain]
          exact Nat.lt_succ_self _
        exact ih _ hshorter hprev (hchain ▸ hbefore) rfl

end Acceptance

/-- On the main network every accepted header after the first uses an active algorithm, has the
required target and meets it, and the index has it under its hash, unless another header has the
same hash. -/
theorem acceptedHeaders_valid {hashes : HeaderHashes} {headers : List CBlockHeader}
    {mapBlockIndex : BlockMap}
    (h : AcceptedHeaders mainHeaderParams hashes headers mapBlockIndex) {header : CBlockHeader}
    (hm : header∈headers)
    (hgenesis : hashes.getHash header≠hashGenesisBlock mainHeaderParams hashes) :
    ∃ pindex, mapBlockIndex.find (hashes.getHash header)=some pindex ∧ pindex.header∈headers ∧
      hashes.getHash pindex.header=hashes.getHash header ∧
      ValidHeader mainParams hashes pindex.header pindex.pprev ∧
      ((∀ other∈headers, hashes.getHash other=hashes.getHash header → other=header) →
        ValidHeader mainParams hashes header pindex.pprev) := by
  have hlimit : mainHeaderParams.pow.powLimit.value<2^256-1 := powLimit_lt_max
  obtain ⟨hfound,hstored⟩ := h.find hlimit
  have hsound := h.soundIndex hlimit
  obtain ⟨pindex,hfind⟩ := hfound header hm
  have hmember := hstored _ pindex hfind hgenesis
  have hname := hsound.named _ pindex hfind
  have hvalid := hsound.valid _ pindex hfind hgenesis
  refine ⟨pindex,hfind,hmember,hname,hvalid,?_⟩
  intro honly
  rw [← honly pindex.header hmember hname]
  exact hvalid

/-- Hashes that name a block by its time and meet every target. -/
def sampleHashes : HeaderHashes where
  getHash header := header.nTime.toNat
  scrypt _ := 0
  hashX11 _ := 0
  yespower _ := 0
  lyra2 _ := 0

/-- A header after the first block of the main network. -/
def sampleHeader : CBlockHeader where
  nVersion := 0x20000802#32
  hashPrevBlock := 1585180800
  nTime := 1585180890
  nBits := 0x1e0fffff

/-- What else the node reads. -/
def sampleContext : HeaderContext := ⟨1585180890,fun _ => false,false⟩

/-- The header is accepted, and X11 is active at every height. -/
theorem acceptedHeaders_valid_sample :
    ∃ mapBlockIndex, AcceptedHeaders mainHeaderParams sampleHashes [sampleHeader] mapBlockIndex ∧
      ∃ pindex, mapBlockIndex.find 1585180890=some pindex ∧
        ValidHeader mainParams sampleHashes sampleHeader pindex.pprev := by
  have hprev := (find_genesisIndex mainHeaderParams sampleHashes 1585180800).trans (if_pos rfl)
  have hvalid : ValidHeader mainParams sampleHashes sampleHeader [mainHeaderParams.genesis] :=
    ⟨.inl (by decide),by decide,by decide,by decide,by decide,by decide,by decide⟩
  have haccept := @acceptBlockHeader_of_valid mainHeaderParams sampleHashes sampleContext
    (genesisIndex mainHeaderParams sampleHashes) sampleHeader _ (by decide)
    ((find_genesisIndex mainHeaderParams sampleHashes _).trans (if_neg (by decide))) hprev
    rfl rfl hvalid (by decide) (by decide) (by decide)
  have hacc := AcceptedHeaders.start.accept haccept
  obtain ⟨pindex,hfind,-,-,-,hvalid⟩ :=
    acceptedHeaders_valid hacc List.mem_cons_self (by decide)
  refine ⟨_,hacc,pindex,hfind,hvalid ?_⟩
  intro other hm _
  exact List.mem_singleton.mp hm

end Pyrk.BlockHeaders
