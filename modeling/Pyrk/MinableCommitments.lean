import Pyrk.FinalCommitment

/-!
# Commitments waiting to be mined

The node keeps one commitment per quorum for the next block. Signer counts are compared before it is
verified, and where it replaces a stored one.
-/

namespace Pyrk.MinableCommitments

open Transaction DeterministicMNList ChainParams FinalCommitment OrderedMap List Option

/-- What the node knows about the chain when it handles a commitment. -/
structure QuorumView where
  network : Network
  chainActive : List Uint256
  mapBlockIndex : Uint256 → Option ℕ
  getAllQuorumMembers : ℕ → Uint256 → List CDeterministicMN
  hasMinedCommitment : ℕ → Uint256 → Bool

variable (params : LLMQParams)

/-- Height inside the interval lies in the mining window. -/
def isMiningPhase (nHeight : ℕ) : Bool :=
  let phaseIndex := nHeight%params.dkgInterval
  params.dkgMiningWindowStart≤phaseIndex && phaseIndex≤params.dkgMiningWindowEnd

/-- Hash of the first block of the interval; null on that block itself. -/
def getQuorumBlockHash (chainActive : List Uint256) (nHeight : ℕ) : Uint256 :=
  let quorumStartHeight := nHeight-nHeight%params.dkgInterval
  chainActive.getD quorumStartHeight 0

/-- A block at this height has to carry a commitment of the type. -/
def isCommitmentRequired (chainActive : List Uint256)
    (hasMinedCommitment : ℕ → Uint256 → Bool) (nHeight : ℕ) : Bool :=
  let quorumHash := getQuorumBlockHash params chainActive nHeight
  let miningPhase := quorumHash≠0 && isMiningPhase params nHeight
  let mined := quorumHash≠0 && hasMinedCommitment params.type quorumHash
  miningPhase && !mined

/-- A quorum is named by its type and its block. -/
abbrev QuorumKey := ℕ×ₗUint256

/-- Name of the quorum of a commitment. -/
def quorumKey (qc : CFinalCommitment) : QuorumKey := toLex (qc.llmqType,qc.quorumHash)

/-- Commitments waiting to be mined. -/
structure CQuorumBlockProcessor where
  minableCommitmentsByQuorum : OrderedMap QuorumKey Uint256 := .empty
  minableCommitments : OrderedMap Uint256 CFinalCommitment := .empty

section Processor

variable (serializeHash : CFinalCommitment → Uint256)

/-- Keep a commitment if it is the first of its quorum or has more signers. `none` where the source
would read one that is not stored. The reference is overwritten first, so the new hash is erased. -/
def addMinableCommitment (processor : CQuorumBlockProcessor) (fqc : CFinalCommitment) :
    Option (CQuorumBlockProcessor×Bool) :=
  let commitmentHash := serializeHash fqc
  match processor.minableCommitmentsByQuorum.find (quorumKey fqc) with
  | none => some (
      { minableCommitmentsByQuorum :=
          processor.minableCommitmentsByQuorum.set (quorumKey fqc) commitmentHash
        minableCommitments := processor.minableCommitments.emplace commitmentHash fqc },true)
  | some oldHash =>
    match processor.minableCommitments.find oldHash with
    | none => none
    | some oldFqc =>
      if countSigners oldFqc < countSigners fqc then some (
        { minableCommitmentsByQuorum :=
            processor.minableCommitmentsByQuorum.set (quorumKey fqc) commitmentHash
          minableCommitments :=
            (processor.minableCommitments.erase commitmentHash).emplace commitmentHash fqc },true)
      else some (processor,false)

/-- Commitment that is kept for a quorum. -/
def storedCommitment (processor : CQuorumBlockProcessor) (key : QuorumKey) :
    Option CFinalCommitment :=
  (processor.minableCommitmentsByQuorum.find key).bind processor.minableCommitments.find

/-- The quorum block is the first block of an interval of the active chain. -/
def quorumBlockKnown (view : QuorumView) (params : LLMQParams) (quorumHash : Uint256) : Bool :=
  match view.mapBlockIndex quorumHash with
  | none => false
  | some nHeight =>
    view.chainActive[nHeight]?=some quorumHash && nHeight%params.dkgInterval=0

/-- Filter before verification: a stored commitment has at most as many signers. -/
def filteredOut (processor : CQuorumBlockProcessor) (qc : CFinalCommitment) : Bool :=
  match storedCommitment processor (quorumKey qc) with
  | none => false
  | some stored => countSigners stored ≤ countSigners qc

/-- Handle a received commitment and return the ban score of the sender. -/
def processMessage (crypto : QuorumCrypto) (view : QuorumView)
    (processor : CQuorumBlockProcessor) (qc : CFinalCommitment) :
    Option (CQuorumBlockProcessor×ℕ) :=
  if isNull qc then some (processor,100)
  else
    match (llmqs view.network).find qc.llmqType with
    | none => some (processor,100)
    | some params =>
      match view.mapBlockIndex qc.quorumHash with
      | none => some (processor,0)
      | some nHeight =>
        if view.chainActive[nHeight]?≠some qc.quorumHash then some (processor,0)
        else if nHeight-nHeight%params.dkgInterval≠nHeight then some (processor,100)
        else if filteredOut processor qc then some (processor,0)
        else if !verify crypto view.network qc
            (view.getAllQuorumMembers qc.llmqType qc.quorumHash) true then some (processor,100)
        else (addMinableCommitment serializeHash processor qc).map (fun result => (result.1,0))

/-- Commitment for the next block: `none` where the source throws, and no
commitment where none is required. -/
def getMinableCommitment (view : QuorumView) (processor : CQuorumBlockProcessor) (llmqType : ℕ)
    (nHeight : ℕ) : Option (Option CFinalCommitment) :=
  match (llmqs view.network).find llmqType with
  | none => none
  | some params =>
    if !isCommitmentRequired params view.chainActive view.hasMinedCommitment nHeight then some none
    else
      let quorumHash := getQuorumBlockHash params view.chainActive nHeight
      if quorumHash=0 then some none
      else
        match processor.minableCommitmentsByQuorum.find (toLex (llmqType,quorumHash)) with
        | none => some (some (nullCommitment params quorumHash))
        | some hash => (processor.minableCommitments.find hash).map some

/-- What can happen to the waiting commitments. -/
inductive Event where
  /-- A peer sends a commitment while the chain looks like this. -/
  | message (view : QuorumView) (qc : CFinalCommitment)
  | addMinable (qc : CFinalCommitment)

/-- The waiting commitments after an event. -/
def step (crypto : QuorumCrypto) (processor : CQuorumBlockProcessor) :
    Event → Option CQuorumBlockProcessor
  | .message view qc => (processMessage serializeHash crypto view processor qc).map Prod.fst
  | .addMinable qc => (addMinableCommitment serializeHash processor qc).map Prod.fst

/-- The waiting commitments after a run of events. -/
def run (crypto : QuorumCrypto) (processor : CQuorumBlockProcessor) (events : List Event) :
    Option CQuorumBlockProcessor :=
  events.foldlM (step serializeHash crypto) processor

end Processor

/-- A received commitment that is not null, belongs to a quorum of the active
chain and passes verification. -/
def verified (crypto : QuorumCrypto) (view : QuorumView) (qc : CFinalCommitment) : Bool :=
  !isNull qc &&
    match (llmqs view.network).find qc.llmqType with
    | none => false
    | some params => quorumBlockKnown view params qc.quorumHash &&
        verify crypto view.network qc (view.getAllQuorumMembers qc.llmqType qc.quorumHash) true

/-- The verified commitment of an event. -/
def verifiedOf (crypto : QuorumCrypto) : Event → Option CFinalCommitment
  | .message view qc => if verified crypto view qc then some qc else none
  | .addMinable qc => some qc

/-- All verified commitments of a run. -/
def received (crypto : QuorumCrypto) (events : List Event) : List CFinalCommitment :=
  events.filterMap (verifiedOf crypto)

/-- Verified commitments of one quorum. -/
def receivedFor (key : QuorumKey) (commitments : List CFinalCommitment) : List CFinalCommitment :=
  commitments.filter (fun qc => quorumKey qc=key)

/-- The commitment offered for mining is a verified one of the quorum with the most signers, or null
if there is none. -/
def BestSigned (view : QuorumView) (processor : CQuorumBlockProcessor)
    (commitments : List CFinalCommitment) : Prop :=
  ∀ llmqType params nHeight, (llmqs view.network).find llmqType=some params →
    isCommitmentRequired params view.chainActive view.hasMinedCommitment nHeight=true →
    let quorumHash := getQuorumBlockHash params view.chainActive nHeight
    let candidates := receivedFor (toLex (llmqType,quorumHash)) commitments
    ∃ qc, getMinableCommitment view processor llmqType nHeight=some (some qc) ∧
      (∀ other∈candidates, countSigners other ≤ countSigners qc) ∧
      (qc∈candidates ∨ candidates=[] ∧ qc=nullCommitment params quorumHash)

/-- A verified commitment has no more signers than the stored one of its quorum. -/
def NoBetterMessage (crypto : QuorumCrypto) (processor : CQuorumBlockProcessor) : Event → Prop
  | .message view qc => verified crypto view qc=true →
      ∀ stored, storedCommitment processor (quorumKey qc)=some stored →
        countSigners qc ≤ countSigners stored
  | .addMinable _ => True

/-- Every event of a run meets the condition in the state it meets. -/
def NoBetterMessages (serializeHash : CFinalCommitment → Uint256) (crypto : QuorumCrypto) :
    CQuorumBlockProcessor → List Event → Prop
  | _,[] => True
  | processor,event::events => NoBetterMessage crypto processor event ∧
      ∀ next, step serializeHash crypto processor event=some next →
        NoBetterMessages serializeHash crypto next events

/-- The stored commitment of each quorum is a verified one with the most signers, under its own
hash. -/
structure Best (serializeHash : CFinalCommitment → Uint256) (processor : CQuorumBlockProcessor)
    (commitments : List CFinalCommitment) : Prop where
  hashed : ∀ hash qc, processor.minableCommitments.find hash=some qc →
    serializeHash qc=hash ∧ qc∈commitments
  /-- The commitment kept for a quorum has the most signers. -/
  kept : ∀ key hash, processor.minableCommitmentsByQuorum.find key=some hash →
    ∃ qc, processor.minableCommitments.find hash=some qc ∧ quorumKey qc=key ∧
      ∀ other∈commitments, quorumKey other=key → countSigners other ≤ countSigners qc
  known : ∀ qc∈commitments, ∃ hash,
    processor.minableCommitmentsByQuorum.find (quorumKey qc)=some hash

variable {serializeHash : CFinalCommitment → Uint256} {crypto : QuorumCrypto}
  {processor : CQuorumBlockProcessor} {commitments : List CFinalCommitment}

theorem best_empty : Best serializeHash {} [] where
  hashed := fun hash qc hf => absurd hf (by
    simp only [find_empty,reduceCtorEq,not_false_eq_true])
  kept := fun key hash hf => absurd hf (by
    simp only [find_empty,reduceCtorEq,not_false_eq_true])
  known := fun qc hm => absurd hm not_mem_nil

section

variable (h : Best serializeHash processor commitments)

include h

theorem Best.append_weaker {qc : CFinalCommitment}
    {stored : CFinalCommitment} (hs : storedCommitment processor (quorumKey qc)=some stored)
    (hle : countSigners qc ≤ countSigners stored) :
    Best serializeHash processor (commitments++[qc]) := by
  obtain ⟨hash,hhash,hstored⟩ := bind_eq_some_iff.mp hs
  refine ⟨?_,?_,?_⟩
  · intro other found hf
    exact ⟨(h.hashed other found hf).1,mem_append_left _ (h.hashed other found hf).2⟩
  · intro key other hf
    obtain ⟨kept,hkept,hkey,hmax⟩ := h.kept key other hf
    grind
  · intro cand hm
    rcases mem_append.mp hm with hm | hm
    · exact h.known cand hm
    · cases mem_singleton.mp hm
      exact ⟨hash,hhash⟩

theorem Best.append_stronger {qc : CFinalCommitment} {stored : OrderedMap Uint256 CFinalCommitment}
    (hinj : ∀ other∈commitments, serializeHash other=serializeHash qc → other=qc)
    (hmax : ∀ other∈commitments, quorumKey other=quorumKey qc →
      countSigners other ≤ countSigners qc)
    (hfind : ∀ hash, stored.find hash=
      if hash=serializeHash qc then some qc else processor.minableCommitments.find hash) :
    Best serializeHash
      { minableCommitmentsByQuorum :=
          processor.minableCommitmentsByQuorum.set (quorumKey qc) (serializeHash qc)
        minableCommitments := stored } (commitments++[qc]) := by
  refine ⟨?_,?_,?_⟩
  · intro hash found hf
    rw [hfind] at hf
    split_ifs at hf with he
    · cases hf
      exact ⟨he.symm,mem_append_right _ mem_cons_self⟩
    · exact ⟨(h.hashed hash found hf).1,mem_append_left _ (h.hashed hash found hf).2⟩
  · intro key hash hf
    rw [find_set] at hf
    split_ifs at hf with hk
    · grind
    · obtain ⟨kept,hkept,hkey,hbest⟩ := h.kept key hash hf
      obtain ⟨hhash,hmem⟩ := h.hashed hash kept hkept
      grind
  · intro other hm
    rw [find_set]
    split_ifs with hk
    · exact ⟨_,rfl⟩
    · rcases mem_append.mp hm with hm | hm
      · exact h.known other hm
      · cases mem_singleton.mp hm
        exact absurd rfl hk

theorem Best.addMinableCommitment (qc : CFinalCommitment)
    (hinj : ∀ other∈commitments, serializeHash other=serializeHash qc → other=qc) :
    ∃ result, addMinableCommitment serializeHash processor qc=some result ∧
      Best serializeHash result.1 (commitments++[qc]) := by
  unfold MinableCommitments.addMinableCommitment
  cases hf : processor.minableCommitmentsByQuorum.find (quorumKey qc) with
  | none =>
    refine ⟨_,rfl,h.append_stronger hinj ?_ ?_⟩
    · intro other hm hk
      obtain ⟨hash,hhash⟩ := h.known other hm
      rw [hk,hf] at hhash
      cases hhash
    · intro hash
      rw [find_emplace]
      split_ifs with he
      · cases hold : processor.minableCommitments.find (serializeHash qc) with
        | none => rfl
        | some old =>
          obtain ⟨hhash,hmem⟩ := h.hashed _ old hold
          rw [getD_some,hinj old hmem hhash]
      · rfl
  | some oldHash =>
    obtain ⟨old,hold,-,hmax⟩ := h.kept (quorumKey qc) oldHash hf
    dsimp only
    rw [hold]
    dsimp only
    by_cases hlt : countSigners old < countSigners qc
    · rw [if_pos hlt]
      refine ⟨_,rfl,h.append_stronger hinj ?_ ?_⟩
      · intro other hm hk
        exact (hmax other hm hk).trans (Nat.le_of_lt hlt)
      · intro hash
        rw [find_emplace,find_erase_self,getD_none]
        split_ifs with he
        · rfl
        · rw [find_erase_of_ne _ he]
    · rw [if_neg hlt]
      have hstored : storedCommitment processor (quorumKey qc)=some old := by
        rw [storedCommitment,hf,bind_some,hold]
      exact ⟨_,rfl,h.append_weaker hstored (Nat.le_of_not_lt hlt)⟩

end

theorem processMessage_fst (view : QuorumView) (qc : CFinalCommitment) :
    (processMessage serializeHash crypto view processor qc).map Prod.fst=
      if verified crypto view qc && !filteredOut processor qc then
        (addMinableCommitment serializeHash processor qc).map Prod.fst
      else some processor := by
  unfold processMessage verified quorumBlockKnown
  cases hnull : isNull qc with
  | true => rfl
  | false =>
    cases hparams : (llmqs view.network).find qc.llmqType with
    | none => rfl
    | some params =>
      cases hblock : view.mapBlockIndex qc.quorumHash with
      | none => rfl
      | some nHeight =>
        by_cases hact : view.chainActive[nHeight]?=some qc.quorumHash
        · by_cases hfirst : nHeight%params.dkgInterval=0
          · cases hfiltered : filteredOut processor qc with
            | true => simp [hact,hfirst]
            | false =>
              cases hverify : verify crypto view.network qc
                  (view.getAllQuorumMembers qc.llmqType qc.quorumHash) true with
              | true =>
                simp [hact,hfirst]
                rfl
              | false => simp [hact,hfirst]
          · have hmod : nHeight%params.dkgInterval≤nHeight := Nat.mod_le _ _
            have hstart : nHeight-nHeight%params.dkgInterval≠nHeight := by omega
            simp [hact,hfirst,hstart]
        · simp [hact]

section

variable (h : Best serializeHash processor commitments)

include h

theorem Best.step (event : Event)
    (hinj : ∀ other∈commitments, ∀ qc∈verifiedOf crypto event,
      serializeHash other=serializeHash qc → other=qc)
    (hok : NoBetterMessage crypto processor event) :
    ∃ next, step serializeHash crypto processor event=some next ∧
      Best serializeHash next (commitments++(verifiedOf crypto event).toList) := by
  cases event with
  | addMinable qc =>
    obtain ⟨result,hadd,hbest⟩ := h.addMinableCommitment qc
      (fun other hm => hinj other hm qc rfl)
    exact ⟨result.1,by rw [MinableCommitments.step,hadd,map_some],hbest⟩
  | message view qc =>
    simp only [MinableCommitments.step,processMessage_fst,verifiedOf]
    cases hv : verified crypto view qc with
    | false =>
      refine ⟨processor,rfl,?_⟩
      simpa using h
    | true =>
      have hq : verifiedOf crypto (.message view qc)=some qc := by rw [verifiedOf,hv,if_pos rfl]
      cases hstored : storedCommitment processor (quorumKey qc) with
      | none =>
        obtain ⟨result,hadd,hbest⟩ := h.addMinableCommitment qc
          (fun other hm => hinj other hm qc hq)
        refine ⟨result.1,?_,hbest⟩
        rw [filteredOut,hstored,hadd]
        rfl
      | some stored =>
        have hle := hok hv stored hstored
        by_cases hge : countSigners stored ≤ countSigners qc
        · refine ⟨processor,?_,h.append_weaker hstored hle⟩
          rw [filteredOut,hstored]
          simp [hge]
        · obtain ⟨result,hadd,hbest⟩ := h.addMinableCommitment qc
            (fun other hm => hinj other hm qc hq)
          refine ⟨result.1,?_,hbest⟩
          rw [filteredOut,hstored,hadd]
          simp [hge]

theorem Best.run (events : List Event)
    (hinj : ∀ first∈commitments++received crypto events,
      ∀ second∈commitments++received crypto events,
      serializeHash first=serializeHash second → first=second)
    (hok : NoBetterMessages serializeHash crypto processor events) :
    ∃ final, run serializeHash crypto processor events=some final ∧
      Best serializeHash final (commitments++received crypto events) := by
  induction events generalizing processor commitments with
  | nil =>
    refine ⟨processor,rfl,?_⟩
    rw [received,filterMap_nil,append_nil]
    exact h
  | cons event events ih =>
    have hsplit : commitments++received crypto (event::events)=
        (commitments++(verifiedOf crypto event).toList)++received crypto events := by
      rw [received,append_assoc]
      congr 1
      cases hv : verifiedOf crypto event with
      | none => rw [filterMap_cons_none hv]; rfl
      | some qc => rw [filterMap_cons_some hv]; rfl
    rw [hsplit] at hinj ⊢
    obtain ⟨next,hnext,hbest⟩ := h.step event (by
      intro other hm qc hq
      refine hinj other ?_ qc ?_
      · exact mem_append_left _ (mem_append_left _ hm)
      · exact mem_append_left _ (mem_append_right _ (mem_toList.mpr hq))) hok.1
    obtain ⟨final,hfinal,hlast⟩ := ih hbest hinj (hok.2 next hnext)
    refine ⟨final,?_,hlast⟩
    rw [MinableCommitments.run,foldlM_cons,hnext]
    exact hfinal

theorem Best.bestSigned (view : QuorumView) :
    BestSigned view processor commitments := by
  intro llmqType params nHeight hparams hrequired
  have hhash : getQuorumBlockHash params view.chainActive nHeight≠0 := by
    intro he
    simp [isCommitmentRequired,he] at hrequired
  have hget : getMinableCommitment view processor llmqType nHeight=
      match processor.minableCommitmentsByQuorum.find
        (toLex (llmqType,getQuorumBlockHash params view.chainActive nHeight)) with
      | none => some (some (nullCommitment params
          (getQuorumBlockHash params view.chainActive nHeight)))
      | some hash => (processor.minableCommitments.find hash).map some := by
    unfold getMinableCommitment
    rw [hparams]
    simp only [hrequired,Bool.not_true,Bool.false_eq_true,if_false,if_neg hhash]
  rw [hget]
  cases hf : processor.minableCommitmentsByQuorum.find
      (toLex (llmqType,getQuorumBlockHash params view.chainActive nHeight)) with
  | none =>
    have hempty : receivedFor (toLex (llmqType,getQuorumBlockHash params view.chainActive nHeight))
        commitments=[] := by
      rw [receivedFor,filter_eq_nil_iff]
      intro qc hm hk
      obtain ⟨hash,hknown⟩ := h.known qc hm
      rw [of_decide_eq_true hk,hf] at hknown
      cases hknown
    grind
  | some hash =>
    obtain ⟨qc,hqc,hkey,hmax⟩ := h.kept _ hash hf
    refine ⟨qc,by dsimp only; rw [hqc,map_some],?_,.inl ?_⟩
    · intro other hm
      obtain ⟨hin,hk⟩ := mem_filter.mp hm
      exact hmax other hin (of_decide_eq_true hk)
    · exact mem_filter.mpr ⟨(h.hashed hash qc hqc).2,decide_eq_true hkey⟩

end

theorem noBetterMessages_take {processor : CQuorumBlockProcessor} {events : List Event}
    (hok : NoBetterMessages serializeHash crypto processor events) (count : ℕ) :
    NoBetterMessages serializeHash crypto processor (events.take count) := by
  induction events generalizing processor count with
  | nil =>
    rw [take_nil]
    exact hok
  | cons event events ih =>
    cases count with
    | zero => exact trivial
    | succ count => exact ⟨hok.1,fun next hnext => ih (hok.2 next hnext) count⟩

/-- In every run in which no verified message brings more signers than the stored one has, the
verified commitment with the most signers is offered. -/
theorem run_bestSigned (serializeHash : CFinalCommitment → Uint256) (crypto : QuorumCrypto)
    (events : List Event)
    (hinj : ∀ first∈received crypto events, ∀ second∈received crypto events,
      serializeHash first=serializeHash second → first=second)
    (hok : NoBetterMessages serializeHash crypto {} events) (count : ℕ) :
    ∃ final, run serializeHash crypto {} (events.take count)=some final ∧
      ∀ view, BestSigned view final (received crypto (events.take count)) := by
  have hsub : ∀ qc∈received crypto (events.take count), qc∈received crypto events := by
    intro qc hm
    obtain ⟨event,hevent,hqc⟩ := mem_filterMap.mp hm
    exact mem_filterMap.mpr ⟨event,mem_of_mem_take hevent,hqc⟩
  obtain ⟨final,hfinal,hbest⟩ := (@best_empty serializeHash).run
    (events.take count) (fun first hf second hs => hinj first (hsub first hf) second
      (hsub second hs)) (noBetterMessages_take hok count)
  exact ⟨final,hfinal,hbest.bestSigned⟩

/-- A chain of thirty-four blocks, with a quorum block at height twenty-four. -/
def sampleView : QuorumView where
  network := .regtest
  chainActive := range' 1 34
  mapBlockIndex := fun hash => if 1≤hash ∧ hash≤34 then some (hash-1) else none
  getAllQuorumMembers := fun _ _ => (range 10).map sampleMN
  hasMinedCommitment := fun _ _ => false

/-- A signature scheme whose signatures are all in order. -/
def sampleCrypto : QuorumCrypto := ⟨fun _ _ _ _ _ => 1,fun _ _ _ => true,fun _ _ _ => true⟩

/-- A commitment of the sample quorum with some of ten members signing. -/
def sampleCommitment (signing : ℕ) : CFinalCommitment where
  llmqType := 100
  quorumHash := 25
  signers := replicate signing true++replicate (10-signing) false
  validMembers := replicate 10 true
  quorumPublicKey := CBLSWrapper.valid 1
  quorumVvecHash := 1
  quorumSig := CBLSWrapper.valid 2
  membersSig := CBLSWrapper.valid 3

/-- A hash that tells the sample commitments apart. -/
def sampleHash (qc : CFinalCommitment) : Uint256 := 1+countSigners qc

/-- Ten signers arrive before six, and the ten are offered. -/
theorem run_bestSigned_sample :
    NoBetterMessages sampleHash sampleCrypto {}
      [.message sampleView (sampleCommitment 10),.message sampleView (sampleCommitment 6)] ∧
    ∃ final, run sampleHash sampleCrypto {}
        [.message sampleView (sampleCommitment 10),.message sampleView (sampleCommitment 6)]=
          some final ∧
      BestSigned sampleView final [sampleCommitment 10,sampleCommitment 6] := by
  have hok : NoBetterMessages sampleHash sampleCrypto {}
      [.message sampleView (sampleCommitment 10),.message sampleView (sampleCommitment 6)] := by
    have hnone : storedCommitment {} (quorumKey (sampleCommitment 10))=none := by decide
    refine ⟨?_,fun next hnext => ⟨?_,fun _ _ => trivial⟩⟩
    · intro _ stored hs
      rw [hnone] at hs
      cases hs
    · intro _ stored hs
      have hstep : (step sampleHash sampleCrypto {}
          (.message sampleView (sampleCommitment 10))).bind
            (fun st => storedCommitment st (quorumKey (sampleCommitment 6)))=
              some (sampleCommitment 10) := by decide
      rw [hnext,bind_some,hs] at hstep
      cases hstep
      decide
  obtain ⟨final,hfinal,hbest⟩ := run_bestSigned sampleHash sampleCrypto _ (by decide) hok 2
  exact ⟨hok,final,hfinal,hbest sampleView⟩

/-- Six signers arrive before ten. The ten verify but are filtered out, and the
six are offered. -/
theorem run_drops_better_message :
    ∃ final, run sampleHash sampleCrypto {}
        [.message sampleView (sampleCommitment 6),.message sampleView (sampleCommitment 10)]=
          some final ∧
      received sampleCrypto
        [.message sampleView (sampleCommitment 6),.message sampleView (sampleCommitment 10)]=
          [sampleCommitment 6,sampleCommitment 10] ∧
      getMinableCommitment sampleView final 100 34=some (some (sampleCommitment 6)) ∧
      ¬BestSigned sampleView final [sampleCommitment 6,sampleCommitment 10] := by
  have hget : (run sampleHash sampleCrypto {}
      [.message sampleView (sampleCommitment 6),.message sampleView (sampleCommitment 10)]).bind
        (fun st => getMinableCommitment sampleView st 100 34)=
          some (some (sampleCommitment 6)) := by decide
  obtain ⟨final,hfinal,hoffer⟩ := bind_eq_some_iff.mp hget
  refine ⟨final,hfinal,by decide,hoffer,?_⟩
  intro hbest
  obtain ⟨qc,hqc,hmax,-⟩ := hbest 100 llmq10_60 34 (by decide) (by decide)
  rw [hoffer] at hqc
  cases hqc
  exact absurd (hmax (sampleCommitment 10) (by decide)) (by decide)

end Pyrk.MinableCommitments
