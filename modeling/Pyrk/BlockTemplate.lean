import Pyrk.BlockHeaders
import Pyrk.RetargetEquilibrium

/-!
# Headers of block templates

The version of a header falls back to scrypt as long as the algorithm is not in use, while its
target stays that of the algorithm that was asked for.
-/

namespace Pyrk.BlockTemplate

open List

open ArithUint CompactTarget ProofOfWork RetargetRange RetargetEquilibrium Function
  BlockHeaders

/-- Deployments that blocks signal. -/
inductive DeploymentPos where
  | testDummy
  | csv
  | dip0001
  | bip147
  | dip0003
  deriving DecidableEq

inductive ThresholdState where
  | defined
  | started
  | lockedIn
  | active
  | failed
  deriving DecidableEq

def deploymentOrder : List DeploymentPos := [.testDummy,.csv,.dip0001,.bip147,.dip0003]

/-- Bits of the deployments on the main network; those that are not set there are zero. -/
def deploymentBit : DeploymentPos → ℕ
  | .testDummy => 28
  | .csv => 0
  | .dip0001 => 0
  | .bip147 => 0
  | .dip0003 => 3

/-- Whether signalling waits for the masternode to be paid to be upgraded. -/
def checkMnProtocol : DeploymentPos → Bool
  | .dip0001 => true
  | _ => false

def versionBitsMask (pos : DeploymentPos) : BitVec 32 := 1<<<deploymentBit pos

/-- Highest bits of versions that signal. -/
def versionBitsTopBits : BitVec 32 := 0x20000000#32

/-- Lowest version. -/
def blockVersionDefault : BitVec 32 := 2

/-- What a template is made from besides the chain. -/
structure TemplateContext where
  st : DeploymentPos → ThresholdState
  fCheckMasternodesUpgraded : Bool
  upgraded : Bool
  nTimeStart : ℤ
  nTimeUpdate : ℤ

variable (ctx : TemplateContext)

def signalDeployment (nVersion : BitVec 32) (pos : DeploymentPos) : BitVec 32 :=
  if checkMnProtocol pos && ctx.st pos=.started && ctx.fCheckMasternodesUpgraded &&
    !ctx.upgraded then nVersion
  else if ctx.st pos=.lockedIn ∨ ctx.st pos=.started then
    nVersion ||| versionBitsMask pos
  else nVersion

variable (params : Params)

def computeBlockVersion (ctx : TemplateContext)
    (pindexPrev : List CBlockHeader) (algo : Algo) : BitVec 32 :=
  let nVersion := deploymentOrder.foldl (signalDeployment ctx)
    (versionBitsTopBits ||| blockVersionDefault)
  match algo with
  | .scrypt => nVersion ||| blockVersionScrypt
  | .sha256d => nVersion ||| blockVersionSha256d
  | .x11 => nVersion ||| blockVersionX11
  | .yespower =>
    if nHeight pindexPrev<params.v2DiffChangeHeight then nVersion ||| blockVersionScrypt
    else nVersion ||| blockVersionYespower
  | .lyra2 =>
    if nHeight pindexPrev<params.AlgoChangeHeight then nVersion ||| blockVersionScrypt
    else nVersion ||| blockVersionLyra2
  | .unknown => nVersion

def headerTime (nTime : ℤ) : UInt32 := UInt32.ofNat (nTime%2^32).toNat

/-- Time of the header: not before the node's time and after the median. -/
def updateTime (pindexPrev : List CBlockHeader) : UInt32 :=
  let nOldTime := headerTime ctx.nTimeStart
  let nNewTime := max (getMedianTimePast pindexPrev+1) ctx.nTimeUpdate
  if (nOldTime.toNat : ℤ)<nNewTime then headerTime nNewTime else nOldTime

/-- Header of a template for the block after a chain. -/
def createNewBlock (ctx : TemplateContext) (hashPrevBlock : ℕ)
    (pindexPrev : List CBlockHeader) (algo : Algo) : CBlockHeader where
  nVersion := computeBlockVersion params ctx pindexPrev algo
  hashPrevBlock := hashPrevBlock
  nTime := updateTime ctx pindexPrev
  nBits := getNextWorkRequired params pindexPrev algo
  nNonce := 0

def templateAlgo (pindexPrev : List CBlockHeader) (algo : Algo) : Algo :=
  if algo=.yespower ∧ nHeight pindexPrev<params.v2DiffChangeHeight then .scrypt
  else if algo=.lyra2 ∧ nHeight pindexPrev<params.AlgoChangeHeight then .scrypt
  else algo

/-- Bits of the algorithm and the three highest bits of a version. -/
def fixedBits : BitVec 32 := blockVersionAlgo ||| 0xe0000000#32

theorem signalled_bits :
    deploymentOrder.foldl (signalDeployment ctx) (versionBitsTopBits ||| blockVersionDefault) &&&
      fixedBits=versionBitsTopBits := by
  have hmask : ∀ pos, versionBitsMask pos &&& fixedBits=0 := by
    intro pos
    cases pos <;> decide
  have hstep : ∀ nVersion pos, nVersion &&& fixedBits=versionBitsTopBits →
      signalDeployment ctx nVersion pos &&& fixedBits=versionBitsTopBits := by
    intro nVersion pos h
    unfold signalDeployment
    split_ifs
    · exact h
    · rw [BitVec.and_or_distrib_right,h,hmask]
      rfl
    · exact h
  have hloop : ∀ (order : List DeploymentPos) nVersion, nVersion &&& fixedBits=versionBitsTopBits →
      order.foldl (signalDeployment ctx) nVersion &&& fixedBits=versionBitsTopBits := by
    intro order
    induction order with
    | nil => exact fun _ h => h
    | cons pos order ih => exact fun nVersion h => ih _ (hstep nVersion pos h)
  exact hloop deploymentOrder _ (by decide)

variable {algo : Algo}

theorem computeBlockVersion_bits (params : Params) (ctx : TemplateContext)
    (pindexPrev : List CBlockHeader) (halgo : algo≠.unknown) :
    ∃ bits, algoOfVersion bits=templateAlgo params pindexPrev algo ∧
      computeBlockVersion params ctx pindexPrev algo &&& fixedBits=
        versionBitsTopBits ||| bits ∧ bits &&& blockVersionAlgo=bits := by
  have hbits := signalled_bits ctx
  have hor : ∀ {bits : BitVec 32}, bits &&& fixedBits=bits →
      (deploymentOrder.foldl (signalDeployment ctx)
        (versionBitsTopBits ||| blockVersionDefault) ||| bits) &&& fixedBits=
        versionBitsTopBits ||| bits := by
    intro bits h
    rw [BitVec.and_or_distrib_right,hbits,h]
  unfold computeBlockVersion templateAlgo
  cases algo with
  | unknown => exact absurd rfl halgo
  | sha256d => exact ⟨blockVersionSha256d,by simp; decide,hor (by decide),by decide⟩
  | scrypt => exact ⟨blockVersionScrypt,by simp; decide,hor (by decide),by decide⟩
  | x11 => exact ⟨blockVersionX11,by simp; decide,hor (by decide),by decide⟩
  | yespower =>
    by_cases hearly : nHeight pindexPrev<params.v2DiffChangeHeight
    · refine ⟨blockVersionScrypt,?_,?_,by decide⟩
      · rw [if_pos ⟨rfl,hearly⟩]
        decide
      · simp only [if_pos hearly]
        exact hor (by decide)
    · refine ⟨blockVersionYespower,?_,?_,by decide⟩
      · rw [if_neg (fun h => hearly h.2),if_neg (fun h => by cases h.1)]
        decide
      · simp only [if_neg hearly]
        exact hor (by decide)
  | lyra2 =>
    by_cases hearly : nHeight pindexPrev<params.AlgoChangeHeight
    · refine ⟨blockVersionScrypt,?_,?_,by decide⟩
      · rw [if_neg (fun h => by cases h.1),if_pos ⟨rfl,hearly⟩]
        decide
      · simp only [if_pos hearly]
        exact hor (by decide)
    · refine ⟨blockVersionLyra2,?_,?_,by decide⟩
      · rw [if_neg (fun h => by cases h.1),if_neg (fun h => hearly h.2)]
        decide
      · simp only [if_neg hearly]
        exact hor (by decide)

theorem getAlgo_createNewBlock (params : Params) (ctx : TemplateContext) (hashPrevBlock : ℕ)
    (pindexPrev : List CBlockHeader) (halgo : algo≠.unknown) :
    (createNewBlock params ctx hashPrevBlock pindexPrev algo).getAlgo=
      templateAlgo params pindexPrev algo := by
  obtain ⟨bits,hbits,hver,hmask⟩ := computeBlockVersion_bits params ctx pindexPrev halgo
  have hread : computeBlockVersion params ctx pindexPrev algo &&& blockVersionAlgo=
      bits &&& blockVersionAlgo := by
    have hsplit : fixedBits &&& blockVersionAlgo=blockVersionAlgo := by decide
    rw [← hsplit,← BitVec.and_assoc,hver,hsplit,BitVec.and_or_distrib_right]
    have htop : versionBitsTopBits &&& blockVersionAlgo=0 := by decide
    rw [htop]
    exact BitVec.zero_or
  rw [← hbits]
  change algoOfVersion (computeBlockVersion params ctx pindexPrev algo)=algoOfVersion bits
  unfold algoOfVersion
  rw [hread]

theorem four_le_version (params : Params) (ctx : TemplateContext)
    (pindexPrev : List CBlockHeader) (halgo : algo≠.unknown) :
    4≤(computeBlockVersion params ctx pindexPrev algo).toInt := by
  obtain ⟨bits,-,hver,hmask⟩ := computeBlockVersion_bits params ctx pindexPrev halgo
  generalize computeBlockVersion params ctx pindexPrev algo=nVersion at hver
  have htop : nVersion &&& 0xe0000000#32=versionBitsTopBits := by
    have hsplit : fixedBits &&& 0xe0000000#32=0xe0000000#32 := by decide
    have hclear : blockVersionAlgo &&& 0xe0000000#32=0 := by decide
    have hbits : bits &&& 0xe0000000#32=0 := by
      rw [← hmask,BitVec.and_assoc,hclear]
      exact BitVec.and_zero
    calc nVersion &&& 0xe0000000#32
        =nVersion &&& fixedBits &&& 0xe0000000#32 := by rw [BitVec.and_assoc,hsplit]
      _=(versionBitsTopBits &&& 0xe0000000#32) ||| (bits &&& 0xe0000000#32) := by
        rw [hver,BitVec.and_or_distrib_right]
      _=versionBitsTopBits := by
        rw [hbits]
        decide
  have hmsb : nVersion.msb=false := by
    have h := congrArg BitVec.msb htop
    rw [BitVec.msb_and,show (0xe0000000#32).msb=true by decide,Bool.and_true] at h
    exact h
  have hle : 2^29≤nVersion.toNat := by
    have h := congrArg BitVec.toNat htop
    rw [BitVec.toNat_and] at h
    have hand : nVersion.toNat &&& (0xe0000000#32).toNat≤nVersion.toNat := Nat.and_le_left
    rw [h] at hand
    exact hand
  rw [BitVec.toInt_eq_toNat_of_msb hmsb]
  omega

/-- A header is refused for its target, its version or its algorithm. -/
def RefusedTemplate (result : Except HeaderReject Unit) : Prop :=
  result=.error .badDiffbits ∨ (∃ nVersion, result=.error (.badVersion nVersion)) ∨
    result=.error .invalidAlgo

variable {pindexPrev : List CBlockHeader}

/-- A template is refused if and only if the target of the algorithm asked for is not that of the
one of its version. -/
theorem refusedTemplate_iff (ctx : TemplateContext) (hashPrevBlock : ℕ)
    (hchain : pindexPrev≠[]) (halgo : algo≠.unknown)
    (nAdjustedTime : ℤ) :
    RefusedTemplate (contextualCheckBlockHeader mainHeaderParams
        (createNewBlock mainParams ctx hashPrevBlock pindexPrev algo) pindexPrev
        nAdjustedTime) ↔
      getNextWorkRequired mainParams pindexPrev algo≠
        getNextWorkRequired mainParams pindexPrev (templateAlgo mainParams pindexPrev algo) := by
  have hlen : pindexPrev.length=nHeight pindexPrev+1 := by
    have hpos := length_pos_of_ne_nil hchain
    unfold nHeight
    omega
  have hread := getAlgo_createNewBlock mainParams ctx hashPrevBlock pindexPrev halgo
  have hver := four_le_version mainParams ctx pindexPrev halgo
  have hyespower : ¬(templateAlgo mainParams pindexPrev algo=.yespower ∧
      pindexPrev.length < mainHeaderParams.pow.v2DiffChangeHeight) := by
    unfold templateAlgo
    rintro ⟨heq,hlt⟩
    change pindexPrev.length<100000 at hlt
    have hearly : nHeight pindexPrev < mainParams.v2DiffChangeHeight := by
      change nHeight pindexPrev<100000
      omega
    split_ifs at heq with hfirst hsecond
    exact hfirst ⟨heq,hearly⟩
  have hlyra2 : ¬(templateAlgo mainParams pindexPrev algo=.lyra2 ∧
      pindexPrev.length < mainHeaderParams.pow.AlgoChangeHeight) := by
    unfold templateAlgo
    rintro ⟨heq,hlt⟩
    change pindexPrev.length<285000 at hlt
    have hearly : nHeight pindexPrev < mainParams.AlgoChangeHeight := by
      change nHeight pindexPrev<285000
      omega
    split_ifs at heq with hfirst hsecond
    exact hsecond ⟨heq,hearly⟩
  have hold : ∀ {bound : ℤ}, bound≤4 → ¬(createNewBlock mainParams ctx hashPrevBlock pindexPrev
      algo).nVersion.toInt<bound := by
    intro bound hbound hlt
    change (computeBlockVersion mainParams ctx pindexPrev algo).toInt<bound at hlt
    omega
  have hbits : (createNewBlock mainParams ctx hashPrevBlock pindexPrev algo).nBits=
      getNextWorkRequired mainParams pindexPrev algo := rfl
  have hpow : mainHeaderParams.pow=mainParams := rfl
  unfold contextualCheckBlockHeader
  rw [hread,hbits,hpow]
  constructor
  · intro hrefused heq
    rw [if_neg (not_not.mpr heq)] at hrefused
    split_ifs at hrefused with htimeOld htimeNew hversionOld halgoOld halgoNew
    · simp [RefusedTemplate] at hrefused
    · simp [RefusedTemplate] at hrefused
    · rcases hversionOld with h | h | h
      · exact hold (by decide) h.1
      · exact hold (by decide) h.1
      · exact hold (by decide) h.1
    · exact hyespower halgoOld
    · exact hlyra2 halgoNew
    · simp [RefusedTemplate] at hrefused
  · intro hne
    rw [if_pos hne]
    exact Or.inl rfl

/-- The algorithm asked for is in use after the last block of a chain. -/
def InUse (pindexPrev : List CBlockHeader) (algo : Algo) : Prop :=
  (algo=.yespower → mainParams.v2DiffChangeHeight≤nHeight pindexPrev) ∧
    (algo=.lyra2 → mainParams.AlgoChangeHeight≤nHeight pindexPrev)

/-- The retarget of scrypt reaches the greatest target, up to the bits of its compact form, or the
chain is too short for one. -/
def ScryptAtLimit (pindexPrev : List CBlockHeader) : Prop :=
  ∀ inputs, retargetInputs mainParams pindexPrev .scrypt=some inputs →
    0x0fffff*2^216≤(boundedTarget mainParams inputs).value

set_option maxRecDepth 100000 in
theorem encode_capped_iff (x : ℕ) :
    encode (min (2^236-1) x)=encode (2^236-1) ↔ 0x0fffff*2^216≤x := by
  have hlimit : decode (encode (2^236-1))=0x0fffff*2^216 := by
    rw [← value_powLimit,← value_setCompact_getCompact,value_setCompact_powLimit]
  constructor
  · intro heq
    have hle := decode_encode_le (min (2^236-1) x)
    rw [heq,hlimit] at hle
    exact Nat.le_trans hle (Nat.min_le_right _ _)
  · intro hle
    have hbounds : 0x0fffff*2^216 ≤ min (2^236-1) x ∧ min (2^236-1) x<2^236 := by omega
    generalize min (2^236-1) x=capped at hbounds
    have hsize : capped.size=236 := by
      refine Nat.le_antisymm (Nat.size_le.mpr hbounds.2) (Nat.lt_size.mpr ?_)
      omega
    have hword : capped/2^216=0x0fffff := by omega
    have hparts : parts capped=(30,0x0fffff) := by
      have hlong : ¬(236+7)/8≤3 := by decide
      have hshift : 8*((236+7)/8-3)=216 := by decide
      unfold parts
      simp only [hsize,if_neg hlong,hshift,hword]
      decide
    rw [encode,hparts]
    decide

theorem scryptAtLimit_iff (pindexPrev : List CBlockHeader) :
    getNextWorkRequired mainParams pindexPrev .scrypt=getCompact mainParams.powLimit ↔
      ScryptAtLimit pindexPrev := by
  unfold ScryptAtLimit
  rw [getNextWorkRequired_eq]
  cases retargetInputs mainParams pindexPrev .scrypt with
  | none => simp
  | some inputs =>
    have hlimit := value_powLimit
    rw [← UInt32.toNat_inj,toNat_getCompact,toNat_getCompact,value_capTarget,hlimit,
      encode_capped_iff]
    simp

theorem getNextWorkRequired_of_unused (h : ∀ header∈pindexPrev, header.getAlgo≠algo) :
    getNextWorkRequired mainParams pindexPrev algo=getCompact mainParams.powLimit := by
  have hlast : getLastBlockIndexForAlgo mainParams algo pindexPrev=[] := by
    induction pindexPrev with
    | nil => rfl
    | cons header prev ih =>
      rw [getLastBlockIndexForAlgo_of_ne _ (h header mem_cons_self)]
      exact ih (fun other hm => h other (mem_cons_of_mem _ hm))
  have hnone : retargetInputs mainParams pindexPrev algo=none := by
    unfold retargetInputs windowInputs
    rw [hlast]
    split_ifs <;> rfl
  rw [getNextWorkRequired_eq,hnone]

theorem unused_of_sound {hashes : HeaderHashes} {mapBlockIndex : BlockMap}
    (hsound : SoundIndex mainHeaderParams hashes mapBlockIndex) {hash : ℕ} {pindex : CBlockIndex}
    (hfind : mapBlockIndex.find hash=some pindex)
    (hunused : ¬InUse pindex.chain algo) : ∀ header∈pindex.chain, header.getAlgo≠algo := by
  intro header hm heq
  obtain ⟨later,earlier,hsplit⟩ := append_of_mem hm
  have hsuffix : header::earlier <:+ pindex.chain := ⟨later,hsplit.symm⟩
  obtain ⟨ancestor,hancestor,hheader,hpprev⟩ := hsound.find_suffix hfind hsuffix
  have hlow : earlier.length≤nHeight pindex.chain := by
    have hlen := hsuffix.length_le
    rw [length_cons] at hlen
    unfold nHeight
    omega
  by_cases hgenesis : hashes.getHash header=hashGenesisBlock mainHeaderParams hashes
  · obtain ⟨nChainWork,hfirst⟩ := hsound.first
    rw [hgenesis,hfirst] at hancestor
    have hscrypt : header.getAlgo=.scrypt := by
      rw [← hheader,← Option.some.inj hancestor]
      exact show mainHeaderParams.genesis.getAlgo=.scrypt by decide
    rw [hscrypt] at heq
    rw [← heq] at hunused
    refine hunused ⟨?_,?_⟩ <;> intro h <;> cases h
  · have hvalid := hsound.valid _ ancestor hancestor hgenesis
    rw [hheader,hpprev] at hvalid
    have hact := hvalid.active
    rw [heq] at hact
    refine hunused ⟨fun h => ?_,fun h => ?_⟩
    · rw [h] at hact
      unfold AlgoActive at hact
      have hheight : mainHeaderParams.pow.v2DiffChangeHeight≤earlier.length :=
        by simpa using hact
      exact Nat.le_trans hheight hlow
    · rw [h] at hact
      unfold AlgoActive at hact
      have hheight : mainHeaderParams.pow.AlgoChangeHeight≤earlier.length := by simpa using hact
      exact Nat.le_trans hheight hlow

/-- The header of a template is not refused for its target, version or algorithm if and only if the
algorithm is in use, or scrypt, which takes its place, has the greatest target. -/
theorem createNewBlock_notRefused_iff {hashes : HeaderHashes} {headers : List CBlockHeader}
    {mapBlockIndex : BlockMap}
    (h : AcceptedHeaders mainHeaderParams hashes headers mapBlockIndex) {hash : ℕ}
    {pindexPrev : CBlockIndex} (hfind : mapBlockIndex.find hash=some pindexPrev) {algo : Algo}
    (halgo : algo≠.unknown) (ctx : TemplateContext) (nAdjustedTime : ℤ) :
    ¬RefusedTemplate (contextualCheckBlockHeader mainHeaderParams
        (createNewBlock mainParams ctx hash pindexPrev.chain algo) pindexPrev.chain
        nAdjustedTime) ↔
      InUse pindexPrev.chain algo ∨ ScryptAtLimit pindexPrev.chain := by
  have hsound := h.soundIndex powLimit_lt_max
  have hchain : pindexPrev.chain≠[] := cons_ne_nil _ _
  rw [refusedTemplate_iff ctx hash hchain halgo,not_not]
  by_cases hused : InUse pindexPrev.chain algo
  · have hsame : templateAlgo mainParams pindexPrev.chain algo=algo := by
      unfold templateAlgo
      rw [if_neg (fun hearly => Nat.not_lt.mpr (hused.1 hearly.1) hearly.2),
        if_neg (fun hearly => Nat.not_lt.mpr (hused.2 hearly.1) hearly.2)]
    rw [hsame]
    exact ⟨fun _ => Or.inl hused,fun _ => rfl⟩
  · have hscrypt : templateAlgo mainParams pindexPrev.chain algo=.scrypt := by
      unfold templateAlgo
      split_ifs with hyespower hlyra2
      · rfl
      · rfl
      · exact absurd ⟨fun heq => Nat.not_lt.mp (fun hlt => hyespower ⟨heq,hlt⟩),
          fun heq => Nat.not_lt.mp (fun hlt => hlyra2 ⟨heq,hlt⟩)⟩ hused
    rw [hscrypt,getNextWorkRequired_of_unused (unused_of_sound hsound hfind hused),eq_comm,
      scryptAtLimit_iff]
    exact ⟨Or.inr,fun hcase => hcase.resolve_left hused⟩

/-- Hash of the block at a height of a chain that is mined as fast as possible. -/
def raceHash (height : ℕ) : ℕ := if height%3=1 then 6000-height else 2^200+height

/-- Hashes of its headers; every third one is a proof of work as well. -/
def raceHashes : HeaderHashes where
  getHash header := raceHash (header.nTime.toNat-1585180800)
  scrypt _ := 0
  hashX11 _ := 0
  yespower _ := 0
  lyra2 _ := 0

/-- Three algorithms take turns. -/
def raceAlgo (height : ℕ) : Algo := [.scrypt,.sha256d,.x11].getD (height%3) .unknown

def raceVersion (height : ℕ) : BitVec 32 :=
  [0x20000002#32,0x20000402#32,0x20000802#32].getD (height%3) 0

/-- Next header, one second after the one before and with the required target. -/
def raceHeader (pprev : List CBlockHeader) : CBlockHeader where
  nVersion := raceVersion pprev.length
  hashPrevBlock := raceHash (pprev.length-1)
  nTime := UInt32.ofNat (1585180800+pprev.length)
  nBits := getNextWorkRequired mainParams pprev (raceAlgo pprev.length)

/-- The chain up to a height. -/
def raceChain : ℕ → List CBlockHeader
  | 0 => [mainHeaderParams.genesis]
  | height+1 => raceHeader (raceChain height)::raceChain height

section Race

theorem length_raceChain (height : ℕ) : (raceChain height).length=height+1 := by
  induction height with
  | zero => rfl
  | succ height ih => rw [raceChain,length_cons,ih]

theorem nHeight_raceChain (height : ℕ) : nHeight (raceChain height)=height := by
  rw [nHeight,length_raceChain,Nat.add_sub_cancel]

theorem raceVersion_spec (height : ℕ) :
    algoOfVersion (raceVersion height)=raceAlgo height ∧ 4≤(raceVersion height).toInt := by
  unfold raceVersion raceAlgo
  have hlt := Nat.mod_lt height (show 0<3 by decide)
  interval_cases height%3 <;> decide

/-- The header at a height. -/
def raceBlock (height : ℕ) : CBlockHeader :=
  match height with
  | 0 => mainHeaderParams.genesis
  | height+1 => raceHeader (raceChain height)

theorem raceChain_head (height : ℕ) : ∃ pprev, raceChain height=raceBlock height::pprev := by
  cases height with
  | zero => exact ⟨[],rfl⟩
  | succ height => exact ⟨raceChain height,rfl⟩

theorem getAlgo_raceBlock (height : ℕ) : (raceBlock height).getAlgo=raceAlgo height := by
  cases height with
  | zero => decide
  | succ height =>
    change algoOfVersion (raceVersion (raceChain height).length)=_
    rw [length_raceChain]
    exact (raceVersion_spec (height+1)).1

theorem time_raceBlock {height : ℕ} (hsmall : height≤6000) :
    (raceBlock height).nTime.toNat=1585180800+height := by
  cases height with
  | zero => rfl
  | succ height =>
    change (UInt32.ofNat (1585180800+(raceChain height).length)).toNat=_
    rw [length_raceChain,UInt32.toNat_ofNat',Nat.mod_eq_of_lt (by omega)]

theorem isChain_raceChain {height : ℕ} (hsmall : height≤6000) :
    (raceChain height).IsChain (SpacedBy 1) := by
  induction height with
  | zero => exact isChain_singleton _
  | succ height ih =>
    obtain ⟨pprev,hhead⟩ := raceChain_head height
    have hprev := ih (by omega)
    change (raceBlock (height+1)::raceChain height).IsChain (SpacedBy 1)
    rw [hhead] at hprev ⊢
    refine isChain_cons_cons.mpr ⟨?_,hprev⟩
    unfold SpacedBy
    rw [time_raceBlock (by omega),time_raceBlock (by omega)]
    omega

theorem last_raceChain {height passed : ℕ} (hpassed : passed<3) (hlow : passed ≤ height) :
    ∃ pprev, getLastBlockIndexForAlgo mainParams (raceAlgo (height-passed)) (raceChain height)=
      raceBlock (height-passed)::pprev ∧ pprev.length=height-passed := by
  have hturn : ∀ {first second : ℕ}, first%3≠second%3 → raceAlgo first≠raceAlgo second := by
    intro first second hne
    unfold raceAlgo
    grind
  have hstop : ∀ height, ∃ pprev, getLastBlockIndexForAlgo mainParams (raceAlgo height)
      (raceChain height)=raceBlock height::pprev ∧ pprev.length=height := by
    intro height
    obtain ⟨pprev,hhead⟩ := raceChain_head height
    have hlen := length_raceChain height
    refine ⟨pprev,?_,?_⟩
    · rw [hhead]
      exact getLastBlockIndexForAlgo_of_eq (getAlgo_raceBlock height) pprev
    · rw [hhead,length_cons] at hlen
      omega
  have hpass : ∀ {height passed : ℕ}, (height+1)%3≠(height-passed)%3 →
      getLastBlockIndexForAlgo mainParams (raceAlgo (height-passed)) (raceChain (height+1))=
        getLastBlockIndexForAlgo mainParams (raceAlgo (height-passed)) (raceChain height) := by
    intro height passed hne
    refine getLastBlockIndexForAlgo_of_ne _ ?_ _
    exact (getAlgo_raceBlock (height+1)).trans_ne (hturn hne)
  interval_cases passed
  · exact hstop height
  · obtain ⟨height,rfl⟩ : ∃ lower, height=lower+1 := ⟨height-1,by omega⟩
    have hskip := @hpass height 0 (by omega)
    rw [Nat.sub_zero] at hskip
    rw [Nat.add_sub_cancel,hskip]
    exact hstop height
  · obtain ⟨height,rfl⟩ : ∃ lower, height=lower+2 := ⟨height-2,by omega⟩
    have hfirst := @hpass (height+1) 1 (by omega)
    have hsecond := @hpass height 0 (by omega)
    rw [Nat.add_sub_cancel] at hfirst
    rw [Nat.sub_zero] at hsecond
    rw [Nat.add_sub_cancel,hfirst,hsecond]
    exact hstop height

variable {height : ℕ}

theorem actualTimespan_raceChain (hlong : 30≤height) (hsmall : height≤6000) :
    actualTimespan mainParams.nAveragingTargetTimespan mainParams.nMinActualTimespan
      mainParams.nMaxActualTimespan (raceChain height) ((raceChain height).drop 30)=2484 := by
  have hmeasured := measured_of_spaced ((isChain_raceChain hsmall).take (30+11)) (by decide)
    (show 30<(raceChain height).length by rw [length_raceChain]; omega)
  have hmin : mainParams.nMinActualTimespan=2484 := by decide
  have hmax : mainParams.nMaxActualTimespan=3132 := by decide
  have hspan : (mainParams.nAveragingTargetTimespan.1 : ℤ)=2700 := rfl
  rw [length_raceChain,Nat.one_mul,Nat.one_mul] at hmeasured
  unfold actualTimespan
  grind

theorem retargetInputs_raceChain {height passed : ℕ} (hlong : 30≤height) (hsmall : height≤6000)
    (hpassed : passed<3) :
    retargetInputs mainParams (raceChain height) (raceAlgo (height-passed))=
      some ⟨mainParams.nAveragingTargetTimespan,2484,(raceBlock (height-passed)).nBits,
        2-passed⟩ := by
  obtain ⟨pprev,hlast,hlen⟩ := last_raceChain hpassed (show passed ≤ height by omega)
  have hfirst : (raceChain height).drop (numAlgos*mainParams.nAveragingInterval)≠[] := by
    intro hnil
    have hshort : (raceChain height).length≤30 := drop_eq_nil_iff.mp hnil
    rw [length_raceChain] at hshort
    omega
  have hv2 : nHeight (raceChain height) < mainParams.v2DiffChangeHeight := by
    rw [nHeight_raceChain]
    change height<100000
    omega
  have hturn : adjustments numAlgos (raceChain height) (raceBlock (height-passed)::pprev)=
      2-passed := by
    unfold adjustments
    rw [nHeight_raceChain,nHeight,length_cons,hlen]
    change ((height-passed+1-1 : ℕ) : ℤ)+3-1-height=2-passed
    omega
  unfold retargetInputs
  rw [if_pos (Or.inr hv2),windowInputs_of_last hlast rfl _ _ _ hfirst,hturn]
  have hspan := actualTimespan_raceChain hlong hsmall
  change some (RetargetInputs.mk _ (actualTimespan mainParams.nAveragingTargetTimespan
    mainParams.nMinActualTimespan mainParams.nMaxActualTimespan (raceChain height)
    ((raceChain height).drop 30)) _ _)=_
  rw [hspan]

/-- Target of the header at a height. -/
def raceTarget (height : ℕ) : ℕ := (setCompact (raceBlock height).nBits).value

/-- Targets fall by the greatest step and are rounded. -/
def raceStep (target : ℕ) : ℕ := decode (encode (min (2^236-1) (target*2484/2700)))

theorem required_le_limit (chain : List CBlockHeader) (algo : Algo) :
    (setCompact (getNextWorkRequired mainParams chain algo)).value<2^236 ∧
      compactNegative (getNextWorkRequired mainParams chain algo)=false ∧
      compactOverflow (getNextWorkRequired mainParams chain algo)=false := by
  have hlimit := value_powLimit
  have hencoded : ∃ target : ArithUint256, target.value<2^236 ∧
      getNextWorkRequired mainParams chain algo=getCompact target := by
    rw [getNextWorkRequired_eq]
    cases retargetInputs mainParams chain algo with
    | none => exact ⟨mainParams.powLimit,by rw [hlimit]; decide,rfl⟩
    | some inputs =>
      refine ⟨_,?_,rfl⟩
      rw [value_capTarget,hlimit]
      omega
  obtain ⟨target,htarget,heq⟩ := hencoded
  rw [heq]
  refine ⟨?_,compactNegative_getCompact target,compactOverflow_getCompact target⟩
  rw [value_setCompact_getCompact]
  exact Nat.lt_of_le_of_lt (decode_encode_le _) htarget

theorem required_raceChain {height passed : ℕ} (hlong : 30≤height) (hsmall : height≤6000)
    (hpassed : passed<3) :
    (setCompact (getNextWorkRequired mainParams (raceChain height)
      (raceAlgo (height-passed)))).value=decode (encode (min (2^236-1)
        ((lower mainParams)^[2-passed] (raceTarget (height-passed)*2484/2700)))) := by
  have hinputs := retargetInputs_raceChain hlong hsmall hpassed
  have hlimit := value_powLimit
  have htarget : raceTarget (height-passed) ≤ mainParams.powLimit.value := by
    rw [hlimit,raceTarget]
    cases height-passed with
    | zero => decide
    | succ lower =>
      have hle := (required_le_limit (raceChain lower) (raceAlgo (raceChain lower).length)).1
      change (setCompact (getNextWorkRequired mainParams (raceChain lower)
        (raceAlgo (raceChain lower).length))).value≤_
      omega
  have hroom := hasRoom_of_passed_le hinputs htarget (by dsimp only; omega)
  have hexact := value_boundedTarget (show (0 : ℤ)≤2484 by decide)
    (show (2484 : ℤ)<2^32 by decide) ((products_lt_iff (show (0 : ℤ)<2484 by decide)).mpr hroom)
  have hunbounded : unboundedTarget mainParams ⟨mainParams.nAveragingTargetTimespan,2484,
      (raceBlock (height-passed)).nBits,2-passed⟩=
      (lower mainParams)^[2-passed] (raceTarget (height-passed)*2484/2700) := by
    unfold unboundedTarget scaled
    dsimp only
    have hscaled : (setCompact (raceBlock (height-passed)).nBits).value*(2484 : ℤ).toNat/
        mainParams.nAveragingTargetTimespan.1=raceTarget (height-passed)*2484/2700 := rfl
    rw [hscaled]
    by_cases hturn : passed=2
    · rw [hturn]
      rfl
    · rw [if_pos (by omega),show ((2 : ℤ)-passed).toNat=2-passed by omega]
  rw [getNextWorkRequired_eq,hinputs]
  rw [value_setCompact_getCompact,value_capTarget,hexact,hunbounded,hlimit]

theorem raceTarget_short (hpos : 0<height) (hshort : height≤30) :
    raceTarget height=0x0fffff*2^216 := by
  cases height with
  | zero => cases hpos
  | succ lower =>
    have hpow : getNextWorkRequired mainParams (raceChain lower)
      (raceAlgo (raceChain lower).length)=
        getCompact mainParams.powLimit :=
      getNextWorkRequired_of_short (by rw [nHeight_raceChain]; omega)
    change (setCompact (getNextWorkRequired mainParams (raceChain lower)
      (raceAlgo (raceChain lower).length))).value=_
    rw [hpow]
    exact value_setCompact_powLimit

theorem raceTarget_step (hlong : 31≤height) (hsmall : height≤6000) :
    raceTarget height=raceStep (raceTarget (height-3)) := by
  obtain ⟨lower,rfl⟩ : ∃ lower, height=lower+1 := ⟨height-1,by omega⟩
  have halgo : raceAlgo (lower+1)=raceAlgo (lower-2) := by
    unfold raceAlgo
    rw [show (lower+1)%3=(lower-2)%3 by omega]
  have hrequired := @required_raceChain lower 2 (by omega) (by omega) (by decide)
  rw [← halgo,Nat.sub_self,iterate_zero,id] at hrequired
  change (setCompact (getNextWorkRequired mainParams (raceChain lower)
    (raceAlgo (raceChain lower).length))).value=_
  rw [length_raceChain,hrequired,show lower+1-3=lower-2 by omega,raceStep]

theorem le_decode_encode (x : ℕ) : x*32768≤decode (encode x)*32769 := by
  have hcut := lt_decode_encode x
  by_cases hshort : (parts x).1≤3
  · rw [show 8*((parts x).1-3)=0 by omega,Nat.pow_zero] at hcut
    omega
  · have hword := parts_word_ge (Nat.not_le.mp hshort)
    have hunit : decode (encode x)=(parts x).2*2^(8*((parts x).1-3)) := by
      unfold decode
      rw [encode_div,encode_mod,if_neg hshort]
    have hsmall : 32768*2^(8*((parts x).1-3))≤decode (encode x) := by
      rw [hunit]
      exact Nat.mul_le_mul_right _ hword
    omega

theorem raceStep_bounds {target : ℕ} (hlimit : target<2^236) :
    raceStep target*25≤target*23 ∧ (target+13)*(23*32768)≤(raceStep target+13)*(25*32769) := by
  unfold raceStep
  rw [Nat.min_eq_right (by omega)]
  have hupper := decode_encode_le (target*2484/2700)
  have hlower := le_decode_encode (target*2484/2700)
  omega

theorem raceTarget_lower {height : ℕ} (hpos : 0<height) (hsmall : height≤33) :
    6000 ≤ raceTarget height := by
  by_cases hshort : height≤30
  · rw [raceTarget_short hpos hshort]
    decide
  · rw [raceTarget_step (by omega) (by omega),raceTarget_short (by omega) (by omega)]
    have hlower := (@raceStep_bounds (0x0fffff*2^216) (by decide)).2
    omega

theorem raceHash_inj {first second : ℕ} (hfirst : first≤6000) (hsecond : second≤6000)
    (h : raceHash first=raceHash second) : first=second := by
  unfold raceHash at h
  split_ifs at h <;> omega

theorem getHash_raceBlock {height : ℕ} (hsmall : height≤6000) :
    raceHashes.getHash (raceBlock height)=raceHash height := by
  unfold raceHashes
  dsimp only
  rw [time_raceBlock hsmall,Nat.add_sub_cancel_left]

theorem hashPrevBlock_raceBlock (height : ℕ) :
    (raceBlock (height+1)).hashPrevBlock=raceHash height := by
  change raceHash ((raceChain height).length-1)=_
  rw [length_raceChain,Nat.add_sub_cancel]

theorem validHeader_raceBlock (hsmall : height<33) :
    ValidHeader mainParams raceHashes (raceBlock (height+1)) (raceChain height) := by
  have halgo := getAlgo_raceBlock (height+1)
  have hlower := @raceTarget_lower (height+1) (Nat.succ_pos _) (by omega)
  have hbits : (raceBlock (height+1)).nBits=
      getNextWorkRequired mainParams (raceChain height) (raceAlgo (height+1)) := by
    have hlen := length_raceChain height
    unfold raceBlock raceHeader
    dsimp only
    rw [hlen]
  obtain ⟨hlimit,hneg,hoverflow⟩ :=
    required_le_limit (raceChain height) (raceAlgo (height+1))
  rw [← hbits] at hlimit hneg hoverflow
  have htarget : (setCompact (raceBlock (height+1)).nBits).value=raceTarget (height+1) := rfl
  refine ⟨Or.inl ?_,halgo ▸ hbits,hneg,hoverflow,?_,?_,?_⟩
  · rw [halgo]
    unfold raceAlgo
    have hlt := Nat.mod_lt (height+1) (show 0<3 by decide)
    interval_cases (height+1)%3 <;> decide
  · rw [htarget]
    omega
  · have hpow := value_powLimit
    rw [hpow]
    omega
  · rw [htarget]
    unfold getPoWAlgoHash
    rw [halgo]
    unfold raceAlgo
    have hlt := Nat.mod_lt (height+1) (show 0<3 by decide)
    have hhash := @getHash_raceBlock (height+1) (by omega)
    have hlow : raceHash (height+1)=6000-(height+1) ∨ (height+1)%3≠1 := by
      unfold raceHash
      split_ifs <;> omega
    interval_cases hturn : (height+1)%3
    · exact Nat.zero_le _
    · change raceHashes.getHash (raceBlock (height+1))≤_
      rw [hhash]
      omega
    · exact Nat.zero_le _

theorem raceChain_accepted {height : ℕ} (hsmall : height≤33) :
    ∃ headers mapBlockIndex, AcceptedHeaders mainHeaderParams raceHashes headers mapBlockIndex ∧
      (∀ lower ≤ height, ∃ pindex, mapBlockIndex.find (raceHash lower)=some pindex ∧
        pindex.chain=raceChain lower) ∧
      ∀ later, height<later → later≤6000 → mapBlockIndex.find (raceHash later)=none := by
  have hfirst : hashGenesisBlock mainHeaderParams raceHashes=raceHash 0 := by
    exact @getHash_raceBlock 0 (Nat.zero_le _)
  induction height with
  | zero =>
    refine ⟨[],_,.start,?_,?_⟩
    · intro lower hlower
      rw [Nat.le_zero.mp hlower,find_genesisIndex,hfirst,if_pos rfl]
      exact ⟨_,rfl,rfl⟩
    · intro later hlater hle
      rw [find_genesisIndex,hfirst,if_neg]
      intro heq
      exact absurd (raceHash_inj hle (Nat.zero_le _) heq) (by omega)
  | succ height ih =>
    obtain ⟨headers,mapBlockIndex,hacc,hknown,hnone⟩ := ih (by omega)
    obtain ⟨pindexPrev,hprev,hchain⟩ := hknown height (Nat.le_refl _)
    have hname := @getHash_raceBlock (height+1) (by omega)
    have hlink := hashPrevBlock_raceBlock height
    have hvalid := hchain ▸ validHeader_raceBlock (show height<33 by omega)
    have hver : 4≤(raceBlock (height+1)).nVersion.toInt := (raceVersion_spec _).2
    have htime := @time_raceBlock (height+1) (by omega)
    have hmedian : getMedianTimePast pindexPrev.chain<
        ((raceBlock (height+1)).nTime.toNat : ℤ) := by
      obtain ⟨pprev,hhead⟩ := raceChain_head height
      have hspaced := (@isChain_raceChain height (by omega)).take 11
      have hbefore := @time_raceBlock height (by omega)
      rw [hhead] at hspaced
      have hpast := getMedianTimePast_of_spaced hspaced
      rw [hchain,hhead]
      omega
    have haccept := @acceptBlockHeader_of_valid mainHeaderParams raceHashes
      ⟨1585200000,fun _ => false,false⟩ mapBlockIndex (raceBlock (height+1)) pindexPrev
      (by rw [hname,hfirst]; exact fun heq => absurd (raceHash_inj (by omega) (by omega) heq)
            (by omega))
      (by rw [hname]; exact hnone (height+1) (by omega) (by omega)) (by rw [hlink]; exact hprev)
      rfl rfl hvalid hver hmedian (by dsimp only; omega)
    refine ⟨_,_,hacc.accept haccept,?_,?_⟩
    · intro lower hlower
      rw [hname,OrderedMap.find_set]
      by_cases hnew : lower=height+1
      · rw [hnew,if_pos rfl]
        refine ⟨_,rfl,?_⟩
        rw [CBlockIndex.chain,hchain]
        rfl
      · rw [if_neg (fun heq => hnew (raceHash_inj (by omega) (by omega) heq))]
        exact hknown lower (by omega)
    · intro later hlater hle
      rw [hname,OrderedMap.find_set_of_ne]
      · exact hnone later (by omega) hle
      · intro heq
        exact absurd (raceHash_inj hle (by omega) heq) (by omega)

end Race

/-- A node at the time of the chain, with no deployment to signal. -/
def raceContext : TemplateContext := ⟨fun _ => .failed,true,false,1585180840,1585180840⟩

/-- A template for X11 after the first block is not refused. -/
theorem createNewBlock_notRefused_sample :
    ∃ mapBlockIndex pindexPrev, AcceptedHeaders mainHeaderParams raceHashes [] mapBlockIndex ∧
      mapBlockIndex.find (raceHash 0)=some pindexPrev ∧ InUse pindexPrev.chain .x11 ∧
      ¬RefusedTemplate (contextualCheckBlockHeader mainHeaderParams
        (createNewBlock mainParams raceContext (raceHash 0) pindexPrev.chain .x11)
        pindexPrev.chain 1585180840) := by
  have hfirst : hashGenesisBlock mainHeaderParams raceHashes=raceHash 0 :=
    @getHash_raceBlock 0 (Nat.zero_le _)
  have hfind := find_genesisIndex mainHeaderParams raceHashes (raceHash 0)
  rw [hfirst,if_pos rfl] at hfind
  have hused : ∀ chain, InUse chain .x11 := by
    intro chain
    constructor <;> intro h <;> cases h
  exact ⟨_,_,.start,hfind,hused _,
    (createNewBlock_notRefused_iff .start hfind (by decide) raceContext 1585180840).mpr
      (Or.inl (hused _))⟩

/-- A template for yespower at the height 33 has the version of scrypt but not its target. -/
theorem createNewBlock_yespower_early :
    ∃ headers mapBlockIndex pindexPrev,
      AcceptedHeaders mainHeaderParams raceHashes headers mapBlockIndex ∧
      mapBlockIndex.find (raceHash 32)=some pindexPrev ∧ nHeight pindexPrev.chain=32 ∧
      contextualCheckBlockHeader mainHeaderParams
        (createNewBlock mainParams raceContext (raceHash 32) pindexPrev.chain .yespower)
        pindexPrev.chain 1585180840=.error .badDiffbits := by
  obtain ⟨headers,mapBlockIndex,hacc,hknown,-⟩ := @raceChain_accepted 32 (by decide)
  obtain ⟨pindexPrev,hfind,hchain⟩ := hknown 32 (Nat.le_refl _)
  have hheight : nHeight pindexPrev.chain=32 := by rw [hchain,nHeight_raceChain]
  have hunused : ¬InUse pindexPrev.chain .yespower := by
    intro hused
    have hlow := hused.1 rfl
    rw [hheight] at hlow
    exact absurd hlow (by decide)
  have hsound := hacc.soundIndex powLimit_lt_max
  have hyespower := getNextWorkRequired_of_unused (unused_of_sound hsound hfind hunused)
  have hscrypt := @required_raceChain 32 2 (by decide) (by decide) (by decide)
  have hfall := (@raceStep_bounds (0x0fffff*2^216) (by decide)).1
  rw [raceTarget_short (by decide) (by decide),show raceAlgo (32-2)=.scrypt by decide] at hscrypt
  have halgo := getAlgo_createNewBlock mainParams raceContext (raceHash 32) pindexPrev.chain
    (show Algo.yespower≠.unknown by decide)
  have hfallback : templateAlgo mainParams pindexPrev.chain .yespower=.scrypt := by
    rw [templateAlgo,hheight]
    rfl
  refine ⟨headers,mapBlockIndex,pindexPrev,hacc,hfind,hheight,?_⟩
  unfold contextualCheckBlockHeader
  rw [halgo,hfallback]
  refine if_pos ?_
  intro heq
  have hvalue := congrArg (fun nBits => (setCompact nBits).value) (hyespower.symm.trans heq)
  have hlimit := value_setCompact_powLimit
  rw [hchain] at hvalue
  change (setCompact (getCompact mainParams.powLimit)).value=
    (setCompact (getNextWorkRequired mainParams (raceChain 32) .scrypt)).value at hvalue
  rw [hlimit,hscrypt] at hvalue
  change raceStep (0x0fffff*2^216)*25≤_ at hfall
  change _=raceStep (0x0fffff*2^216) at hvalue
  omega

end Pyrk.BlockTemplate
