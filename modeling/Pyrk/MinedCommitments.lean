import Mathlib.Data.List.Induction
import Pyrk.MinableCommitments

/-!
# Commitments on the chain

Connecting a block checks which quorum types have to carry a commitment and records the ones that
are not null; disconnecting erases them again.
-/

namespace Pyrk.MinedCommitments

open Transaction DeterministicMNList ChainParams FinalCommitment MinableCommitments OrderedMap

/-- What connecting a block reads from elsewhere. -/
structure QuorumContext where
  network : Network
  crypto : QuorumCrypto
  serializeHash : CFinalCommitment → Uint256
  /-- Whether the deployment is active for the block after a chain. -/
  dip3Active : List CBlock → Bool
  mapBlockIndex : Uint256 → Option ℕ
  getAllQuorumMembers : ℕ → Uint256 → List CDeterministicMN

/-- The active chain and the quorum state that follows it. -/
structure QuorumState where
  chain : List CBlock
  minedCommitments : OrderedMap QuorumKey CFinalCommitment := .empty
  processor : CQuorumBlockProcessor := {}

/-- Whether a commitment is recorded for a quorum. -/
def hasMinedCommitment (mined : OrderedMap QuorumKey CFinalCommitment) (llmqType : ℕ)
    (quorumHash : Uint256) : Bool :=
  mined.contains (toLex (llmqType,quorumHash))

section Blocks

variable (ctx : QuorumContext)

/-- Check of a commitment transaction against the chain before its block. -/
def checkLLMQCommitment (chain : List CBlock) (tx : CTransaction) : Checked Unit :=
  match tx.getFinalCommitment with
  | none => rejectBlock 100 .invalid "bad-qc-payload"
  | some qcTx =>
    if qcTx.nVersion=0 || 1<qcTx.nVersion then rejectBlock 100 .invalid "bad-qc-version"
    else if qcTx.nHeight≠chain.length then rejectBlock 100 .invalid "bad-qc-height"
    else
      match ctx.mapBlockIndex qcTx.commitment.quorumHash with
      | none => rejectBlock 100 .invalid "bad-qc-quorum-hash"
      | some nHeight =>
        if chain[nHeight]?.map CBlock.hash≠some qcTx.commitment.quorumHash then
          rejectBlock 100 .invalid "bad-qc-quorum-hash"
        else
          match (llmqs ctx.network).find qcTx.commitment.llmqType with
          | none => rejectBlock 100 .invalid "bad-qc-type"
          | some params =>
            if isNull qcTx.commitment then
              if !verifyNull ctx.network qcTx.commitment then
                rejectBlock 100 .invalid "bad-qc-invalid-null"
              else .ok ()
            else if !verify ctx.crypto ctx.network qcTx.commitment
                (ctx.getAllQuorumMembers params.type qcTx.commitment.quorumHash) false then
              rejectBlock 100 .invalid "bad-qc-invalid"
            else .ok ()

/-- Check of a transaction as far as commitments go. -/
def checkQuorumTx (chain : List CBlock) (tx : CTransaction) : Checked Unit :=
  if tx.nVersion≠3 ∨ tx.nType=.normal then .ok ()
  else if !ctx.dip3Active chain then rejectBlock 10 .invalid "bad-tx-type"
  else if tx.nType=.quorumCommitment then checkLLMQCommitment ctx chain tx
  else .ok ()

/-- Collect the commitment of a transaction, one per type. -/
def collectCommitment (ret : OrderedMap ℕ CFinalCommitment) (tx : CTransaction) :
    Checked (OrderedMap ℕ CFinalCommitment) :=
  if tx.nType=.quorumCommitment then
    match tx.getFinalCommitment with
    | none => rejectBlock 100 .invalid "bad-tx-payload"
    | some qc =>
      if ret.contains qc.commitment.llmqType then rejectBlock 100 .invalid "bad-qc-dup"
      else .ok (ret.emplace qc.commitment.llmqType qc.commitment)
  else .ok ret

def getCommitmentsFromBlock (chain : List CBlock) (block : CBlock) :
    Checked (OrderedMap ℕ CFinalCommitment) := do
  let ret ← block.vtx.foldlM collectCommitment .empty
  if !ctx.dip3Active chain && !ret.entries.isEmpty then
    rejectBlock 100 .invalid "bad-qc-premature"
  else .ok ret

/-- Check one commitment of the block and record it unless it is null. -/
def processCommitment (chain : List CBlock) (mined : OrderedMap QuorumKey CFinalCommitment)
    (qc : CFinalCommitment) : Checked (OrderedMap QuorumKey CFinalCommitment) :=
  match (llmqs ctx.network).find qc.llmqType with
  | none => .error (.assertion .llmqType)
  | some params =>
    let quorumHash := getQuorumBlockHash params (chain.map CBlock.hash) chain.length
    if quorumHash=0 then rejectBlock 100 .invalid "bad-qc-block"
    else if quorumHash≠qc.quorumHash then rejectBlock 100 .invalid "bad-qc-block"
    else if isNull qc then
      if !verifyNull ctx.network qc then rejectBlock 100 .invalid "bad-qc-invalid-null"
      else .ok mined
    else if hasMinedCommitment mined params.type quorumHash then
      rejectBlock 100 .invalid "bad-qc-dup"
    else if !isMiningPhase params chain.length then rejectBlock 100 .invalid "bad-qc-height"
    else if !verify ctx.crypto ctx.network qc
        (ctx.getAllQuorumMembers params.type quorumHash) true then
      rejectBlock 100 .invalid "bad-qc-invalid"
    else .ok (mined.set (toLex (params.type,quorumHash)) qc)

/-- A type carries a commitment exactly where one is required. -/
def checkRequired (chain : List CBlock) (mined : OrderedMap QuorumKey CFinalCommitment)
    (qcs : OrderedMap ℕ CFinalCommitment) (type : ℕ) (params : LLMQParams) : Checked Unit :=
  let hasCommitmentInNewBlock := qcs.contains type
  let required := isCommitmentRequired params (chain.map CBlock.hash)
    (hasMinedCommitment mined) chain.length
  if hasCommitmentInNewBlock && !required then rejectBlock 100 .invalid "bad-qc-not-allowed"
  else if !hasCommitmentInNewBlock && required then rejectBlock 100 .invalid "bad-qc-missing"
  else .ok ()

/-- Process the commitments of a block on top of a chain. -/
def processBlock (chain : List CBlock) (mined : OrderedMap QuorumKey CFinalCommitment)
    (block : CBlock) : Checked (OrderedMap QuorumKey CFinalCommitment) :=
  if !ctx.dip3Active chain then .ok mined
  else do
    let qcs ← getCommitmentsFromBlock ctx chain block
    (llmqs ctx.network).entries.forM (fun entry =>
      checkRequired chain mined qcs entry.1 entry.2)
    qcs.values.foldlM (processCommitment ctx chain) mined

/-- Connect a block: check its transactions and process its commitments. -/
def connectBlock (st : QuorumState) (block : CBlock) : Checked QuorumState := do
  block.vtx.forM (checkQuorumTx ctx st.chain)
  let mined ← processBlock ctx st.chain st.minedCommitments block
  .ok { st with chain := st.chain++[block], minedCommitments := mined }

/-- Erase a commitment and offer it for mining again, unless it is null. -/
def undoCommitment (st : QuorumState) (qc : CFinalCommitment) : Checked QuorumState :=
  if isNull qc then .ok st
  else
    match addMinableCommitment ctx.serializeHash st.processor qc with
    | none => .error (.assertion .minableCommitment)
    | some result => .ok { st with
        minedCommitments := st.minedCommitments.erase (toLex (qc.llmqType,qc.quorumHash))
        processor := result.1 }

/-- Disconnect the last block and undo its commitments. -/
def undoBlock (st : QuorumState) : Checked QuorumState :=
  match st.chain.getLast? with
  | none => .ok st
  | some block => do
    let chain := st.chain.dropLast
    let qcs ← getCommitmentsFromBlock ctx chain block
    qcs.values.foldlM (undoCommitment ctx) { st with chain := chain }

/-- Quorum states after any order of connects and disconnects. -/
inductive Reachable : QuorumState → Prop where
  | genesis (block : CBlock) (hhash : block.hash≠0)
      (hnone : ∀ tx∈block.vtx, tx.nType≠.quorumCommitment) : Reachable { chain := [block] }
  | connect {st next : QuorumState} (block : CBlock) (hhash : block.hash≠0) :
      Reachable st → connectBlock ctx st block=.ok next → Reachable next
  | disconnect {st next : QuorumState} (hlen : 1 < st.chain.length) :
      Reachable st → undoBlock ctx st=.ok next → Reachable next

end Blocks

/-- Commitment that a transaction carries. -/
def commitmentOf (tx : CTransaction) : Option CFinalCommitment :=
  if tx.nType=.quorumCommitment then
    tx.getFinalCommitment.map CFinalCommitmentTxPayload.commitment
  else none

/-- Commitments that a block carries. -/
def commitmentsOf (block : CBlock) : List CFinalCommitment := block.vtx.filterMap commitmentOf

/-- Commitments of one type that a block carries. -/
def commitmentsOfType (block : CBlock) (type : ℕ) : List CFinalCommitment :=
  (commitmentsOf block).filter (fun qc => qc.llmqType=type)

/-- A commitment of the quorum that is not null is on the chain. -/
def MinedOn (chain : List CBlock) (llmqType : ℕ) (quorumHash : Uint256) : Prop :=
  ∃ block∈chain, ∃ qc∈commitmentsOf block,
    isNull qc=false ∧ qc.llmqType=llmqType ∧ qc.quorumHash=quorumHash

/-- The block after a chain has to carry a commitment of the type. -/
structure Required (params : LLMQParams) (chain : List CBlock) : Prop where
  known : getQuorumBlockHash params (chain.map CBlock.hash) chain.length≠0
  window : isMiningPhase params chain.length=true
  /-- No commitment of the quorum other than null ones is on the chain. -/
  open_quorum : ¬MinedOn chain params.type
    (getQuorumBlockHash params (chain.map CBlock.hash) chain.length)

/-- A block on top of a chain carries the commitments it has to and no others. -/
structure BlockRule (ctx : QuorumContext) (chain : List CBlock) (block : CBlock) : Prop where
  /-- Carried commitments are required and name their quorum. -/
  carried : ∀ qc∈commitmentsOf block, ∃ params,
    (llmqs ctx.network).find qc.llmqType=some params ∧ ctx.dip3Active chain=true ∧
      qc.quorumHash=getQuorumBlockHash params (chain.map CBlock.hash) chain.length ∧
      Required params chain
  present : ∀ type params, (llmqs ctx.network).find type=some params →
    ctx.dip3Active chain=true → Required params chain → ∃ qc∈commitmentsOf block,
      qc.llmqType=type
  single : (commitmentsOf block).Pairwise (fun first second => first.llmqType≠second.llmqType)

/-- The chain follows the schedule and the record follows the chain. -/
structure Scheduled (ctx : QuorumContext) (st : QuorumState) : Prop where
  hashes : ∀ block∈st.chain, block.hash≠0
  /-- Every block follows the rule on top of the blocks before it. -/
  rule : ∀ (nHeight : ℕ) (block : CBlock), st.chain[nHeight]?=some block →
    BlockRule ctx (st.chain.take nHeight) block
  /-- Exactly the commitments of the chain that are not null are recorded. -/
  mined : ∀ key qc, st.minedCommitments.find key=some qc ↔
    ∃ block∈st.chain, qc∈commitmentsOf block ∧ isNull qc=false ∧ quorumKey qc=key

theorem forM_eq_ok {α : Type} {check : α → Checked Unit} {inputs : List α} {result : Unit}
    (h : inputs.forM check=.ok result) : ∀ input∈inputs, check input=.ok () := by
  induction inputs with
  | nil => exact fun input hm => absurd hm List.not_mem_nil
  | cons head tail ih =>
    rw [List.forM_eq_forM,List.forM_cons,bind_eq_ok] at h
    obtain ⟨_,hhead,htail⟩ := h
    intro input hm
    rcases List.mem_cons.mp hm with rfl | hm
    · exact hhead
    · exact ih htail input hm

variable {tx : CTransaction}

theorem collectCommitment_ok {start next : OrderedMap ℕ CFinalCommitment}
    (h : collectCommitment start tx=.ok next) :
    (commitmentOf tx=none ∧ next=start) ∨
    ∃ carried, commitmentOf tx=some carried ∧ start.find carried.llmqType=none ∧
      next=start.emplace carried.llmqType carried := by
  unfold collectCommitment at h
  by_cases htype : tx.nType=.quorumCommitment
  · rw [if_pos htype] at h
    cases hpayload : tx.getFinalCommitment with
    | none => rw [hpayload] at h; cases h
    | some payload =>
      rw [hpayload] at h
      dsimp only at h
      by_cases hdup : start.contains payload.commitment.llmqType=true
      · rw [if_pos hdup] at h
        cases h
      · rw [if_neg hdup] at h
        cases h
        have hfresh := (contains_eq_false _ _).mp (Bool.eq_false_of_not_eq_true hdup)
        refine .inr ⟨payload.commitment,?_,hfresh,rfl⟩
        rw [commitmentOf,if_pos htype,hpayload,Option.map_some]
  · rw [if_neg htype] at h
    cases h
    exact .inl ⟨by rw [commitmentOf,if_neg htype],rfl⟩

theorem find_emplace_carried {start : OrderedMap ℕ CFinalCommitment} {carried : CFinalCommitment}
    (hfresh : start.find carried.llmqType=none) (type : ℕ) (qc : CFinalCommitment) :
    (start.emplace carried.llmqType carried).find type=some qc ↔
      start.find type=some qc ∨ qc=carried ∧ qc.llmqType=type := by
  rw [find_emplace]
  grind

theorem collectCommitment_run {txs : List CTransaction} {start ret : OrderedMap ℕ CFinalCommitment}
    (h : txs.foldlM collectCommitment start=.ok ret) :
    (∀ type qc, ret.find type=some qc ↔ start.find type=some qc ∨
      qc∈txs.filterMap commitmentOf ∧ qc.llmqType=type) ∧
    (txs.filterMap commitmentOf).Pairwise (fun first second => first.llmqType≠second.llmqType) ∧
    ∀ qc∈txs.filterMap commitmentOf, start.find qc.llmqType=none := by
  induction txs generalizing start with
  | nil =>
    cases h
    refine ⟨fun type qc => ?_,List.Pairwise.nil,fun qc hm => absurd hm List.not_mem_nil⟩
    simp only [List.filterMap_nil,List.not_mem_nil,false_and,or_false]
  | cons tx txs ih =>
    rw [List.foldlM_cons,bind_eq_ok] at h
    obtain ⟨next,hnext,hrest⟩ := h
    obtain ⟨hfind,hsingle,hnew⟩ := ih hrest
    obtain ⟨hnone,rfl⟩ | ⟨carried,hcarried,hfresh,rfl⟩ := collectCommitment_ok hnext
    · rw [List.filterMap_cons_none hnone]
      exact ⟨hfind,hsingle,hnew⟩
    · rw [List.filterMap_cons_some hcarried]
      have hnot : ∀ qc∈txs.filterMap commitmentOf, qc.llmqType≠carried.llmqType ∧
          start.find qc.llmqType=none := by
        intro qc hm
        have hnone := hnew qc hm
        rw [find_emplace] at hnone
        split_ifs at hnone with he
        exact ⟨he,hnone⟩
      refine ⟨fun type qc => ?_,?_,fun qc hm => ?_⟩
      · rw [hfind,find_emplace_carried hfresh,List.mem_cons,or_assoc,or_and_right]
      · exact List.pairwise_cons.mpr ⟨fun qc hm => (hnot qc hm).1.symm,hsingle⟩
      · rcases List.mem_cons.mp hm with rfl | hm
        · exact hfresh
        · exact (hnot qc hm).2

variable {chain : List CBlock} {block : CBlock} {qcs : OrderedMap ℕ CFinalCommitment}

theorem getCommitmentsFromBlock_ok {ctx : QuorumContext}
    (h : getCommitmentsFromBlock ctx chain block=.ok qcs) :
    (∀ type qc, qcs.find type=some qc ↔ qc∈commitmentsOf block ∧ qc.llmqType=type) ∧
    (commitmentsOf block).Pairwise (fun first second => first.llmqType≠second.llmqType) := by
  unfold getCommitmentsFromBlock at h
  rw [bind_eq_ok] at h
  obtain ⟨ret,hret,h⟩ := h
  split_ifs at h
  · cases h
  cases h
  obtain ⟨hfind,hsingle,-⟩ := collectCommitment_run hret
  refine ⟨?_,hsingle⟩
  intro type qc
  rw [hfind,find_empty]
  simp only [reduceCtorEq,false_or]
  rfl

theorem mem_values_commitments {ctx : QuorumContext}
    (h : getCommitmentsFromBlock ctx chain block=.ok qcs) (qc : CFinalCommitment) :
    qc∈qcs.values ↔ qc∈commitmentsOf block := by
  rw [mem_values_iff]
  constructor
  · rintro ⟨type,hf⟩
    exact ((getCommitmentsFromBlock_ok h).1 type qc).mp hf |>.1
  · intro hm
    exact ⟨qc.llmqType,((getCommitmentsFromBlock_ok h).1 _ qc).mpr ⟨hm,rfl⟩⟩

theorem checkLLMQCommitment_ok {ctx : QuorumContext}
    (h : checkLLMQCommitment ctx chain tx=.ok ()) :
    ∃ payload params, ∃ nHeight : ℕ, tx.getFinalCommitment=some payload ∧
      (llmqs ctx.network).find payload.commitment.llmqType=some params ∧
      chain[nHeight]?.map CBlock.hash=some payload.commitment.quorumHash ∧
      (isNull payload.commitment=false → verify ctx.crypto ctx.network payload.commitment
          (ctx.getAllQuorumMembers params.type payload.commitment.quorumHash) false=true) := by
  unfold checkLLMQCommitment at h
  cases hpayload : tx.getFinalCommitment with
  | none => rw [hpayload] at h; cases h
  | some payload =>
    rw [hpayload] at h
    dsimp only at h
    cases hblock : ctx.mapBlockIndex payload.commitment.quorumHash with
    | none =>
      rw [hblock] at h
      split_ifs at h <;> cases h
    | some nHeight =>
      rw [hblock] at h
      dsimp only at h
      cases hparams : (llmqs ctx.network).find payload.commitment.llmqType with
      | none =>
        rw [hparams] at h
        split_ifs at h <;> cases h
      | some params =>
        rw [hparams] at h
        by_cases hquorum : chain[nHeight]?.map CBlock.hash=some payload.commitment.quorumHash
        · refine ⟨payload,params,nHeight,rfl,hparams,hquorum,fun hnull => ?_⟩
          by_contra hverify
          rw [Bool.not_eq_true] at hverify
          simp only [hnull,hverify,Bool.false_eq_true,if_false,Bool.not_false,if_true] at h
          split_ifs at h <;> cases h
        · simp only [ne_eq,hquorum,not_false_eq_true,if_true] at h
          split_ifs at h <;> cases h

variable {qc : CFinalCommitment}

theorem checkQuorumTx_commitment {ctx : QuorumContext}
    (h : checkQuorumTx ctx chain tx=.ok ())
    (hqc : commitmentOf tx=some qc) :
    ctx.dip3Active chain=true ∧
      ∃ params, (llmqs ctx.network).find qc.llmqType=some params := by
  unfold commitmentOf at hqc
  split_ifs at hqc with htype
  obtain ⟨payload,hpayload,rfl⟩ := Option.map_eq_some_iff.mp hqc
  have hver := CTransaction.getFinalCommitment_version hpayload
  unfold checkQuorumTx at h
  rw [if_neg (by rw [hver,htype]; decide)] at h
  cases hact : ctx.dip3Active chain with
  | false => rw [hact] at h; cases h
  | true =>
    rw [hact,Bool.not_true,if_neg Bool.false_ne_true,if_pos htype] at h
    obtain ⟨found,params,_,hfound,hparams,-⟩ := checkLLMQCommitment_ok h
    rw [hpayload] at hfound
    cases hfound
    exact ⟨rfl,params,hparams⟩

theorem processCommitment_ok {ctx : QuorumContext}
    {mined next : OrderedMap QuorumKey CFinalCommitment}
    (h : processCommitment ctx chain mined qc=.ok next) :
    ∃ params, (llmqs ctx.network).find qc.llmqType=some params ∧
      qc.quorumHash=getQuorumBlockHash params (chain.map CBlock.hash) chain.length ∧
      (isNull qc=true ∧ next=mined ∨
        isNull qc=false ∧ mined.find (quorumKey qc)=none ∧ next=mined.set (quorumKey qc) qc) := by
  unfold processCommitment at h
  cases hf : (llmqs ctx.network).find qc.llmqType with
  | none => rw [hf] at h; cases h
  | some params =>
    have htype := llmqs_type hf
    rw [hf] at h
    dsimp only at h
    split_ifs at h with hzero hquorum hnull hvalid hmined hphase hverify
    · cases h
    · cases h
    · cases h
    · cases h
      exact ⟨params,rfl,(not_not.mp hquorum).symm,.inl ⟨hnull,rfl⟩⟩
    · cases h
    · cases h
    · cases h
    · cases h
      rw [not_not] at hquorum
      refine ⟨params,rfl,hquorum.symm,.inr ⟨Bool.eq_false_of_not_eq_true hnull,?_,?_⟩⟩
      · rw [hasMinedCommitment,Bool.not_eq_true,contains_eq_false,htype,hquorum] at hmined
        exact hmined
      · rw [quorumKey,htype,hquorum]

theorem processCommitment_run {ctx : QuorumContext}
    {mined final : OrderedMap QuorumKey CFinalCommitment} {qcs : List CFinalCommitment}
    (h : qcs.foldlM (processCommitment ctx chain) mined=.ok final) :
    (∀ qc∈qcs, ∃ params, (llmqs ctx.network).find qc.llmqType=some params ∧
      qc.quorumHash=getQuorumBlockHash params (chain.map CBlock.hash) chain.length) ∧
    ∀ key qc, final.find key=some qc ↔ mined.find key=some qc ∨
      qc∈qcs ∧ isNull qc=false ∧ quorumKey qc=key := by
  induction qcs generalizing mined with
  | nil =>
    cases h
    refine ⟨fun qc hm => absurd hm List.not_mem_nil,fun key qc => ?_⟩
    simp only [List.not_mem_nil,false_and,or_false]
  | cons head qcs ih =>
    rw [List.foldlM_cons,bind_eq_ok] at h
    obtain ⟨next,hnext,hrest⟩ := h
    obtain ⟨hnamed,hfind⟩ := ih hrest
    obtain ⟨params,hparams,hquorum,heffect⟩ := processCommitment_ok hnext
    refine ⟨?_,?_⟩
    · grind
    · intro key qc
      rw [hfind]
      rcases heffect with ⟨hnull,rfl⟩ | ⟨hset,hfresh,rfl⟩
      · grind
      · rw [find_set]
        grind

variable {st : QuorumState}

theorem Scheduled.hasMinedCommitment_iff {ctx : QuorumContext}
    (h : Scheduled ctx st) (llmqType : ℕ) (quorumHash : Uint256) :
    hasMinedCommitment st.minedCommitments llmqType quorumHash=true ↔
      MinedOn st.chain llmqType quorumHash := by
  rw [hasMinedCommitment,contains_iff]
  constructor
  · rintro ⟨qc,hf⟩
    obtain ⟨block,hblock,hqc,hset,hkey⟩ := (h.mined _ _).mp hf
    have hpair : (qc.llmqType,qc.quorumHash)=(llmqType,quorumHash) := toLex.injective hkey
    cases hpair
    exact ⟨block,hblock,qc,hqc,hset,rfl,rfl⟩
  · rintro ⟨block,hblock,qc,hqc,hset,rfl,rfl⟩
    exact ⟨qc,(h.mined _ _).mpr ⟨block,hblock,hqc,hset,rfl⟩⟩

theorem Scheduled.isCommitmentRequired_iff {ctx : QuorumContext}
    (h : Scheduled ctx st) (params : LLMQParams) :
    isCommitmentRequired params (st.chain.map CBlock.hash)
        (hasMinedCommitment st.minedCommitments) st.chain.length=true ↔
      Required params st.chain := by
  have hmined := h.hasMinedCommitment_iff params.type
    (getQuorumBlockHash params (st.chain.map CBlock.hash) st.chain.length)
  simp only [isCommitmentRequired,Bool.and_eq_true,Bool.not_eq_true',Bool.and_eq_false_iff,
    decide_eq_true_eq,decide_eq_false_iff_not,ne_eq,not_not]
  constructor
  · rintro ⟨⟨hknown,hwindow⟩,hopen⟩
    refine ⟨hknown,hwindow,fun hon => ?_⟩
    grind
  · intro hrequired
    refine ⟨⟨hrequired.known,hrequired.window⟩,.inr ?_⟩
    exact Bool.eq_false_of_not_eq_true (fun hon => hrequired.open_quorum (hmined.mp hon))

variable {params : LLMQParams}

theorem checkRequired_ok {mined : OrderedMap QuorumKey CFinalCommitment} {type : ℕ}
    (h : checkRequired chain mined qcs type params=.ok ()) :
    qcs.contains type=isCommitmentRequired params (chain.map CBlock.hash)
      (hasMinedCommitment mined) chain.length := by
  unfold checkRequired at h
  generalize isCommitmentRequired params (chain.map CBlock.hash)
    (hasMinedCommitment mined) chain.length=required at h ⊢
  generalize qcs.contains type=carried at h ⊢
  cases carried <;> cases required <;> first | rfl | cases h

variable {st next : QuorumState}

theorem connectBlock_ok {ctx : QuorumContext}
    (hs : Scheduled ctx st) (h : connectBlock ctx st block=.ok next) :
    next.chain=st.chain++[block] ∧ BlockRule ctx st.chain block ∧
    ∀ key qc, next.minedCommitments.find key=some qc ↔ st.minedCommitments.find key=some qc ∨
        qc∈commitmentsOf block ∧ isNull qc=false ∧ quorumKey qc=key := by
  unfold connectBlock at h
  simp only [bind_eq_ok] at h
  obtain ⟨_,hchecks,mined,hmined,h⟩ := h
  cases h
  have hchk : ∀ qc∈commitmentsOf block, ctx.dip3Active st.chain=true ∧
      ∃ params, (llmqs ctx.network).find qc.llmqType=some params := by
    intro qc hm
    obtain ⟨tx,htx,hqc⟩ := List.mem_filterMap.mp hm
    exact checkQuorumTx_commitment (forM_eq_ok hchecks tx htx) hqc
  refine ⟨rfl,?_⟩
  unfold processBlock at hmined
  cases hact : ctx.dip3Active st.chain with
  | false =>
    rw [hact] at hmined
    cases hmined
    have hnone : ∀ qc, qc∉commitmentsOf block := by
      intro qc hm
      rw [(hchk qc hm).1] at hact
      cases hact
    refine ⟨⟨fun qc hm => absurd hm (hnone qc),?_,?_⟩,fun key qc => ?_⟩
    · intro type params _ hon
      rw [hact] at hon
      cases hon
    · rw [List.eq_nil_iff_forall_not_mem.mpr hnone]
      exact List.Pairwise.nil
    · simp only [hnone,false_and,or_false]
  | true =>
    rw [hact,Bool.not_true,if_neg Bool.false_ne_true] at hmined
    simp only [bind_eq_ok] at hmined
    obtain ⟨qcs,hqcs,_,hrequired,hfold⟩ := hmined
    obtain ⟨hnamed,hfind⟩ := processCommitment_run hfold
    obtain ⟨hbyType,hsingle⟩ := getCommitmentsFromBlock_ok hqcs
    have hvalues := mem_values_commitments hqcs
    have hagree : ∀ type params, (llmqs ctx.network).find type=some params →
        (qcs.contains type=true ↔ Required params st.chain) := by
      intro type params hf
      have hm := ((llmqs ctx.network).mem_entries_iff type params).mpr hf
      rw [checkRequired_ok (forM_eq_ok hrequired _ hm)]
      exact hs.isCommitmentRequired_iff params
    refine ⟨⟨?_,?_,hsingle⟩,fun key qc => ?_⟩
    · intro qc hm
      obtain ⟨params,hparams,hquorum⟩ := hnamed qc ((hvalues qc).mpr hm)
      have hcarried : qcs.contains qc.llmqType=true :=
        (contains_iff _ _).mpr ⟨qc,(hbyType _ qc).mpr ⟨hm,rfl⟩⟩
      exact ⟨params,hparams,hact,hquorum,(hagree _ params hparams).mp hcarried⟩
    · intro type params hf _ hneed
      obtain ⟨qc,hqc⟩ := (contains_iff _ _).mp ((hagree type params hf).mpr hneed)
      exact ⟨qc,(hbyType type qc).mp hqc⟩
    · rw [hfind,hvalues]

theorem getElem?_concat {α : Type} {items : List α} {last item : α} {index : ℕ}
    (h : (items++[last])[index]?=some item) :
    index < items.length ∧ items[index]?=some item ∨ index=items.length ∧ item=last := by
  grind

theorem Scheduled.connectBlock {ctx : QuorumContext}
    (hs : Scheduled ctx st) (hhash : block.hash≠0)
    (h : connectBlock ctx st block=.ok next) : Scheduled ctx next := by
  obtain ⟨hchain,hrule,hmined⟩ := connectBlock_ok hs h
  constructor
  · intro other hm
    rw [hchain,List.mem_append,List.mem_singleton] at hm
    rcases hm with hm | rfl
    · exact hs.hashes other hm
    · exact hhash
  · intro nHeight other hget
    rw [hchain] at hget ⊢
    rcases getElem?_concat hget with ⟨hlt,hold⟩ | ⟨rfl,rfl⟩
    · rw [List.take_append_of_le_length (le_of_lt hlt)]
      exact hs.rule nHeight other hold
    · rw [List.take_left]
      exact hrule
  · intro key qc
    rw [hmined,hs.mined,hchain]
    simp only [List.mem_append,List.mem_singleton,or_and_right,exists_or,exists_eq_left]

theorem undoCommitment_run {ctx : QuorumContext} {st final : QuorumState}
    {qcs : List CFinalCommitment} (h : qcs.foldlM (undoCommitment ctx) st=.ok final) :
    final.chain=st.chain ∧ ∀ key qc, final.minedCommitments.find key=some qc ↔
      st.minedCommitments.find key=some qc ∧
        ∀ undone∈qcs, isNull undone=false → quorumKey undone≠key := by
  induction qcs generalizing st with
  | nil =>
    cases h
    refine ⟨rfl,fun key qc => ?_⟩
    simp only [List.not_mem_nil,false_implies,implies_true,and_true]
  | cons head qcs ih =>
    rw [List.foldlM_cons,bind_eq_ok] at h
    obtain ⟨next,hnext,hrest⟩ := h
    obtain ⟨hchain,hfind⟩ := ih hrest
    unfold undoCommitment at hnext
    cases hnull : isNull head with
    | true =>
      grind
    | false =>
      rw [hnull,if_neg Bool.false_ne_true] at hnext
      cases hadd : addMinableCommitment ctx.serializeHash st.processor head with
      | none => rw [hadd] at hnext; cases hnext
      | some result =>
        rw [hadd] at hnext
        cases hnext
        refine ⟨hchain,fun key qc => ?_⟩
        have herase : (st.minedCommitments.erase (toLex (head.llmqType,head.quorumHash))).find
            key=if key=quorumKey head then none else st.minedCommitments.find key :=
          find_erase _ _ _
        grind

theorem BlockRule.not_minedOn {ctx : QuorumContext}
    (h : BlockRule ctx chain block) (hqc : qc∈commitmentsOf block) :
    ¬MinedOn chain qc.llmqType qc.quorumHash := by
  obtain ⟨params,hparams,-,hquorum,hrequired⟩ := h.carried qc hqc
  rw [hquorum,← llmqs_type hparams]
  exact hrequired.open_quorum

theorem Scheduled.undoBlock {ctx : QuorumContext}
    (hs : Scheduled ctx st) (h : undoBlock ctx st=.ok next) :
    Scheduled ctx next := by
  unfold MinedCommitments.undoBlock at h
  rcases List.eq_nil_or_concat st.chain with hnil | ⟨before,block,hchain⟩
  · rw [hnil] at h
    cases h
    exact hs
  · rw [List.concat_eq_append] at hchain
    rw [hchain,List.getLast?_concat] at h
    simp only [List.dropLast_concat,bind_eq_ok] at h
    obtain ⟨qcs,hqcs,hfold⟩ := h
    obtain ⟨hbefore,hfind⟩ := undoCommitment_run hfold
    have hvalues := mem_values_commitments hqcs
    have hlast : BlockRule ctx before block := by
      have hrule := hs.rule before.length block (by rw [hchain,List.getElem?_concat_length])
      rwa [hchain,List.take_left] at hrule
    constructor
    · intro other hm
      rw [hbefore] at hm
      exact hs.hashes other (by rw [hchain]; exact List.mem_append_left _ hm)
    · intro nHeight other hget
      rw [hbefore] at hget ⊢
      have hlt := (List.getElem?_eq_some_iff.mp hget).1
      have hrule := hs.rule nHeight other (by rw [hchain,List.getElem?_append_left hlt,hget])
      rwa [hchain,List.take_append_of_le_length (le_of_lt hlt)] at hrule
    · intro key qc
      rw [hfind,hs.mined,hbefore,hchain]
      constructor
      · grind
      · rintro ⟨other,hother,hqc,hset,hkey⟩
        refine ⟨⟨other,List.mem_append_left _ hother,hqc,hset,hkey⟩,?_⟩
        intro undone hundone _ hsame
        apply hlast.not_minedOn ((hvalues undone).mp hundone)
        have hpair : (undone.llmqType,undone.quorumHash)=(qc.llmqType,qc.quorumHash) :=
          toLex.injective (hsame.trans hkey.symm)
        obtain ⟨htype,hhash⟩ := Prod.mk.inj hpair
        exact ⟨other,hother,qc,hqc,hset,htype.symm,hhash.symm⟩

theorem scheduled_genesis (ctx : QuorumContext) (hhash : block.hash≠0)
    (hnone : ∀ tx∈block.vtx, tx.nType≠.quorumCommitment) :
    Scheduled ctx { chain := [block] } := by
  have hempty : commitmentsOf block=[] := by
    rw [commitmentsOf,List.filterMap_eq_nil_iff]
    intro tx htx
    rw [commitmentOf,if_neg (hnone tx htx)]
  constructor
  · intro other hm
    rwa [List.mem_singleton.mp hm]
  · intro nHeight other hget
    rw [List.getElem?_singleton] at hget
    split_ifs at hget with hzero
    cases hget
    subst hzero
    refine ⟨?_,?_,?_⟩
    · intro qc hm
      rw [hempty] at hm
      exact absurd hm List.not_mem_nil
    · intro type params _ _ hrequired
      exact absurd rfl hrequired.known
    · rw [hempty]
      exact List.Pairwise.nil
  · intro key qc
    simp only [find_empty,reduceCtorEq,List.mem_singleton,exists_eq_left,hempty,
      List.not_mem_nil,false_and]

theorem reachable_scheduled {ctx : QuorumContext}
    (h : Reachable ctx st) : Scheduled ctx st := by
  induction h with
  | genesis block hhash hnone => exact scheduled_genesis ctx hhash hnone
  | connect block hhash _ hconnect ih => exact ih.connectBlock hhash hconnect
  | disconnect _ _ hundo ih => exact ih.undoBlock hundo

/-- Commitments of one quorum on a chain that are not null. -/
def minedFor (chain : List CBlock) (llmqType : ℕ) (quorumHash : Uint256) : List CFinalCommitment :=
  (chain.flatMap commitmentsOf).filter (fun qc =>
    !isNull qc && qc.llmqType=llmqType && qc.quorumHash=quorumHash)

/-- A block of the chain lies in the mining window of the quorum. -/
structure InWindow (chain : List CBlock) (params : LLMQParams) (nHeight : ℕ)
    (quorumHash : Uint256) : Prop where
  /-- The quorum block starts the interval of the block. -/
  quorum : chain[nHeight-nHeight%params.dkgInterval]?.map CBlock.hash=some quorumHash
  lower : params.dkgMiningWindowStart≤nHeight%params.dkgInterval
  upper : nHeight%params.dkgInterval≤params.dkgMiningWindowEnd

structure MinedAsScheduled (ctx : QuorumContext) (st : QuorumState)
    (params : LLMQParams) : Prop where
  /-- A quorum has at most one commitment that is not null. -/
  at_most_one : ∀ quorumHash, (minedFor st.chain params.type quorumHash).length≤1
  /-- Every commitment lies in the window of its quorum and not after the one
  that is not null. -/
  inside : ∀ nHeight block qc, st.chain[nHeight]?=some block →
    qc∈commitmentsOfType block params.type → ctx.dip3Active (st.chain.take nHeight)=true ∧
      InWindow st.chain params nHeight qc.quorumHash ∧
      ¬MinedOn (st.chain.take nHeight) params.type qc.quorumHash
  /-- Until then every block of the window carries exactly one. -/
  filled : ∀ nHeight block quorumHash, st.chain[nHeight]?=some block →
    ctx.dip3Active (st.chain.take nHeight)=true →
    InWindow st.chain params nHeight quorumHash →
    ¬MinedOn (st.chain.take nHeight) params.type quorumHash →
      ∃ qc, commitmentsOfType block params.type=[qc] ∧ qc.quorumHash=quorumHash
  /-- Before the one that is not null, these are null. -/
  null_before : ∀ nHeight later block other mined, nHeight<later →
    st.chain[nHeight]?=some block → st.chain[later]?=some other →
    mined∈commitmentsOfType other params.type → isNull mined=false →
    ctx.dip3Active (st.chain.take nHeight)=true →
    InWindow st.chain params nHeight mined.quorumHash →
      ∃ qc, commitmentsOfType block params.type=[qc] ∧ qc.quorumHash=mined.quorumHash ∧
        isNull qc=true
  /-- The record answers for exactly the mined quorums. -/
  recorded : ∀ quorumHash, hasMinedCommitment st.minedCommitments params.type quorumHash=true ↔
      MinedOn st.chain params.type quorumHash

theorem mem_commitmentsOfType {type : ℕ} :
    qc∈commitmentsOfType block type ↔ qc∈commitmentsOf block ∧ qc.llmqType=type := by
  rw [commitmentsOfType,List.mem_filter,decide_eq_true_eq]

theorem length_le_one_of_pairwise {α β : Type} {items : List α} (project : α → β) (value : β)
    (hne : items.Pairwise (fun first second => project first≠project second))
    (heq : ∀ item∈items, project item=value) : items.length≤1 := by
  match items with
  | [] => exact Nat.zero_le 1
  | [_] => exact le_refl 1
  | first::second::rest =>
    grind

theorem BlockRule.length_commitmentsOfType {ctx : QuorumContext}
    (h : BlockRule ctx chain block) (type : ℕ) :
    (commitmentsOfType block type).length≤1 := by
  refine length_le_one_of_pairwise CFinalCommitment.llmqType type (h.single.filter _) ?_
  intro qc hm
  exact (mem_commitmentsOfType.mp hm).2

variable {quorumHash : Uint256}

theorem mem_minedFor {llmqType : ℕ} : qc∈minedFor chain llmqType quorumHash ↔
      ∃ block∈chain, qc∈commitmentsOf block ∧ isNull qc=false ∧ qc.llmqType=llmqType ∧
        qc.quorumHash=quorumHash := by
  simp only [minedFor,List.mem_filter,List.mem_flatMap,Bool.and_eq_true,Bool.not_eq_true',
    decide_eq_true_eq]
  grind

theorem length_minedFor {ctx : QuorumContext} (llmqType : ℕ) (quorumHash : Uint256)
    (chain : List CBlock) (hrule : ∀ (nHeight : ℕ) (block : CBlock), chain[nHeight]?=some block →
      BlockRule ctx (chain.take nHeight) block) :
    (minedFor chain llmqType quorumHash).length≤1 := by
  induction chain using List.reverseRecOn with
  | nil => exact Nat.zero_le 1
  | append_singleton chain last ih =>
    have hlast : BlockRule ctx chain last := by
      have hrule := hrule chain.length last List.getElem?_concat_length
      rwa [List.take_left] at hrule
    have hbefore : (minedFor chain llmqType quorumHash).length≤1 := by
      refine ih (fun nHeight block hget => ?_)
      have hlt := (List.getElem?_eq_some_iff.mp hget).1
      have hrule := hrule nHeight block (by rw [List.getElem?_append_left hlt,hget])
      rwa [List.take_append_of_le_length (le_of_lt hlt)] at hrule
    have hsplit : minedFor (chain++[last]) llmqType quorumHash=
        minedFor chain llmqType quorumHash++minedFor [last] llmqType quorumHash := by
      rw [minedFor,List.flatMap_append,List.filter_append]
      rfl
    have hsame : ∀ qc∈minedFor [last] llmqType quorumHash, qc∈commitmentsOf last ∧
        qc.llmqType=llmqType ∧ qc.quorumHash=quorumHash := by
      intro qc hm
      obtain ⟨block,hblock,hqc,_,htype,hhash⟩ := mem_minedFor.mp hm
      rw [List.mem_singleton.mp hblock] at hqc
      exact ⟨hqc,htype,hhash⟩
    rw [hsplit,List.length_append]
    by_cases hon : MinedOn chain llmqType quorumHash
    · have hnil : minedFor [last] llmqType quorumHash=[] := by
        rw [List.eq_nil_iff_forall_not_mem]
        intro qc hm
        obtain ⟨hqc,htype,hhash⟩ := hsame qc hm
        rw [← htype,← hhash] at hon
        exact hlast.not_minedOn hqc hon
      rw [hnil,List.length_nil]
      exact hbefore
    · have hnil : minedFor chain llmqType quorumHash=[] := by
        rw [List.eq_nil_iff_forall_not_mem]
        intro qc hm
        obtain ⟨block,hblock,hqc,hset,htype,hhash⟩ := mem_minedFor.mp hm
        exact hon ⟨block,hblock,qc,hqc,hset,htype,hhash⟩
      rw [hnil,List.length_nil,Nat.zero_add]
      have hflat : minedFor [last] llmqType quorumHash=(commitmentsOf last).filter (fun qc =>
          !isNull qc && qc.llmqType=llmqType && qc.quorumHash=quorumHash) := by
        rw [minedFor,List.flatMap_singleton]
      refine length_le_one_of_pairwise CFinalCommitment.llmqType llmqType ?_
        (fun qc hm => (hsame qc hm).2.1)
      rw [hflat]
      exact hlast.single.filter _

variable {nHeight : ℕ}

theorem getQuorumBlockHash_take (hlt : nHeight < chain.length)
    (params : LLMQParams) : getQuorumBlockHash params ((chain.take nHeight).map CBlock.hash)
        (chain.take nHeight).length=
      if nHeight%params.dkgInterval=0 then 0
      else (chain[nHeight-nHeight%params.dkgInterval]?.map CBlock.hash).getD 0 := by
  have hle : nHeight%params.dkgInterval≤nHeight := Nat.mod_le _ _
  rw [getQuorumBlockHash,List.length_take_of_le (le_of_lt hlt),List.getD_eq_getElem?_getD,
    List.getElem?_map,List.getElem?_take]
  grind

theorem inWindow_iff (hlt : nHeight < chain.length) (hne : quorumHash≠0) :
    InWindow chain params nHeight quorumHash ↔
      getQuorumBlockHash params ((chain.take nHeight).map CBlock.hash)
        (chain.take nHeight).length=quorumHash ∧
      isMiningPhase params (chain.take nHeight).length=true := by
  rw [getQuorumBlockHash_take hlt,List.length_take_of_le (le_of_lt hlt)]
  simp only [isMiningPhase,Bool.and_eq_true,decide_eq_true_eq]
  have hstart := params.window_start
  constructor
  · intro hwindow
    have hlower := hwindow.lower
    rw [if_neg (by omega),hwindow.quorum]
    exact ⟨rfl,hlower,hwindow.upper⟩
  · rintro ⟨hquorum,hlower,hupper⟩
    rw [if_neg (by omega)] at hquorum
    refine ⟨?_,hlower,hupper⟩
    cases hblock : chain[nHeight-nHeight%params.dkgInterval]?.map CBlock.hash with
    | none =>
      rw [hblock] at hquorum
      exact absurd hquorum.symm hne
    | some hash =>
      rw [hblock] at hquorum
      rw [← hquorum,Option.getD_some]

theorem Scheduled.inside {ctx : QuorumContext}
    (hs : Scheduled ctx st) (hparams : (llmqs ctx.network).find params.type=some params)
    (hget : st.chain[nHeight]?=some block)
    (hqc : qc∈commitmentsOfType block params.type) :
    ctx.dip3Active (st.chain.take nHeight)=true ∧
      InWindow st.chain params nHeight qc.quorumHash ∧
      ¬MinedOn (st.chain.take nHeight) params.type qc.quorumHash := by
  obtain ⟨hmem,htype⟩ := mem_commitmentsOfType.mp hqc
  have hrule := hs.rule nHeight block hget
  obtain ⟨other,hother,hact,hquorum,hrequired⟩ := hrule.carried qc hmem
  rw [htype,hparams] at hother
  cases hother
  have hlt := (List.getElem?_eq_some_iff.mp hget).1
  have hknown := hrequired.known
  rw [← hquorum] at hknown
  refine ⟨hact,(inWindow_iff hlt hknown).mpr ⟨hquorum.symm,hrequired.window⟩,?_⟩
  rw [← htype]
  exact hrule.not_minedOn hmem

theorem Scheduled.filled {ctx : QuorumContext}
    (hs : Scheduled ctx st) (hparams : (llmqs ctx.network).find params.type=some params)
    (hget : st.chain[nHeight]?=some block)
    (hact : ctx.dip3Active (st.chain.take nHeight)=true)
    (hwindow : InWindow st.chain params nHeight quorumHash)
    (hopen : ¬MinedOn (st.chain.take nHeight) params.type quorumHash) :
    ∃ qc, commitmentsOfType block params.type=[qc] ∧ qc.quorumHash=quorumHash := by
  have hlt := (List.getElem?_eq_some_iff.mp hget).1
  have hrule := hs.rule nHeight block hget
  have hne : quorumHash≠0 := by
    obtain ⟨first,hfirst,rfl⟩ := Option.map_eq_some_iff.mp hwindow.quorum
    exact hs.hashes first (List.mem_of_getElem? hfirst)
  obtain ⟨hquorum,hphase⟩ := (inWindow_iff hlt hne).mp hwindow
  have hrequired : Required params (st.chain.take nHeight) := by
    refine ⟨?_,hphase,?_⟩
    · rw [hquorum]
      exact hne
    · rw [hquorum]
      exact hopen
  obtain ⟨qc,hqc,htype⟩ := hrule.present params.type params hparams hact hrequired
  have hmem := mem_commitmentsOfType.mpr ⟨hqc,htype⟩
  have hlen := hrule.length_commitmentsOfType params.type
  have honly : commitmentsOfType block params.type=[qc] := by
    match hlist : commitmentsOfType block params.type with
    | [] => rw [hlist] at hmem; exact absurd hmem List.not_mem_nil
    | [other] => rw [hlist] at hmem; rw [List.mem_singleton.mp hmem]
    | _::_::_ => rw [hlist] at hlen; simp only [List.length_cons] at hlen; omega
  obtain ⟨other,hother,-,hnamed,-⟩ := hrule.carried qc hqc
  rw [htype,hparams] at hother
  cases hother
  exact ⟨qc,honly,hnamed.trans hquorum⟩

theorem Scheduled.not_minedOn_earlier {ctx : QuorumContext}
    (hs : Scheduled ctx st) {nHeight later : ℕ} {other : CBlock} {mined : CFinalCommitment}
    (hle : nHeight≤later) (hother : st.chain[later]?=some other)
    (hmined : mined∈commitmentsOf other) :
    ¬MinedOn (st.chain.take nHeight) mined.llmqType mined.quorumHash := by
  rintro ⟨block,hblock,qc,hqc,hset,hsame⟩
  refine (hs.rule later other hother).not_minedOn hmined ⟨block,?_,qc,hqc,hset,hsame⟩
  exact (List.take_subset_take_left st.chain hle) hblock

/-- On every chain of accepted blocks the commitments of every type are mined as scheduled. -/
theorem reachable_minedAsScheduled {ctx : QuorumContext} {st : QuorumState}
    {params : LLMQParams} (h : Reachable ctx st)
    (hparams : (llmqs ctx.network).find params.type=some params) :
    MinedAsScheduled ctx st params := by
  have hs := reachable_scheduled h
  constructor
  · exact fun quorumHash => length_minedFor params.type quorumHash st.chain hs.rule
  · exact fun nHeight block qc hget hqc => hs.inside hparams hget hqc
  · exact fun nHeight block quorumHash => hs.filled hparams
  · intro nHeight later block other mined hlt hget hother hmined hset hact hwindow
    obtain ⟨hmem,htype⟩ := mem_commitmentsOfType.mp hmined
    have hopen := hs.not_minedOn_earlier (le_of_lt hlt) hother hmem
    rw [htype] at hopen
    obtain ⟨qc,honly,hquorum⟩ := hs.filled hparams hget hact hwindow hopen
    refine ⟨qc,honly,hquorum,?_⟩
    cases hnull : isNull qc with
    | true => rfl
    | false =>
      exfalso
      obtain ⟨hqc,hqctype⟩ := mem_commitmentsOfType.mp (honly ▸ List.mem_singleton_self qc)
      refine hs.not_minedOn_earlier (le_refl later) hother hmem ⟨block,?_,qc,hqc,hnull,?_,hquorum⟩
      · exact List.mem_take_iff_getElem.mpr ⟨nHeight,by
          have := (List.getElem?_eq_some_iff.mp hget).1
          omega,(List.getElem?_eq_some_iff.mp hget).2⟩
      · rw [hqctype,htype]
  · exact fun quorumHash => hs.hasMinedCommitment_iff params.type quorumHash

theorem Reachable.connectBlocks {ctx : QuorumContext} {st final : QuorumState}
    {blocks : List CBlock} (h : Reachable ctx st) (hhash : ∀ block∈blocks, block.hash≠0)
    (hrun : blocks.foldlM (connectBlock ctx) st=.ok final) : Reachable ctx final := by
  induction blocks generalizing st with
  | nil =>
    cases hrun
    exact h
  | cons block blocks ih =>
    rw [List.foldlM_cons,bind_eq_ok] at hrun
    obtain ⟨next,hnext,hrest⟩ := hrun
    refine ih (h.connect block (hhash block List.mem_cons_self) hnext) ?_ hrest
    exact fun other hm => hhash other (List.mem_cons_of_mem _ hm)

/-- A regression test chain with commitments from the second block on. -/
def sampleContext : QuorumContext where
  network := .regtest
  crypto := sampleCrypto
  serializeHash := sampleHash
  dip3Active := fun _ => true
  mapBlockIndex := fun hash => if 1≤hash ∧ hash≤12 then some (hash-1) else none
  getAllQuorumMembers := fun _ _ => (List.range 10).map sampleMN

/-- A transaction that carries a commitment. -/
def sampleCommitmentTx (nHeight : ℕ) (qc : CFinalCommitment) : CTransaction where
  nVersion := 3
  nType := .quorumCommitment
  vExtraPayload := .finalCommitment { nHeight := nHeight, commitment := qc }
  hash := 1000+nHeight
  payload_special := fun h => absurd h (by decide)

/-- Nine blocks without commitments, the two commitments that open the window, and the only one that
is still required after it. -/
def sampleBlocks : List CBlock :=
  (List.range' 1 9).map (fun nHeight => ⟨nHeight+1,0,[]⟩)++
    [⟨11,0,[sampleCommitmentTx 10 (nullCommitment llmq50_60 1),
      sampleCommitmentTx 10 { sampleCommitment 10 with quorumHash := 1 }]⟩,
    ⟨12,0,[sampleCommitmentTx 11 (nullCommitment llmq50_60 1)]⟩]

/-- The sample chain is accepted and its test quorum is mined once. -/
theorem reachable_minedAsScheduled_sample :
    ∃ st, Reachable sampleContext st ∧ st.chain.map CBlock.hash=List.range' 1 12 ∧
      (minedFor st.chain llmq10_60.type 1).length=1 ∧
      MinedAsScheduled sampleContext st llmq10_60 := by
  have hrun : ((sampleBlocks.foldlM (connectBlock sampleContext)
      { chain := [⟨1,0,[]⟩] }).toOption.map (fun st => (st.chain.map CBlock.hash,
        (minedFor st.chain llmq10_60.type 1).length)))=some (List.range' 1 12,1) := by
    decide
  obtain ⟨st,hok⟩ := exists_ok (show (sampleBlocks.foldlM (connectBlock sampleContext)
    { chain := [⟨1,0,[]⟩] }).toOption.isSome=true by decide)
  rw [hok] at hrun
  obtain ⟨hchain,hmined⟩ := Prod.mk.inj (Option.some.inj hrun)
  have hstart : Reachable sampleContext { chain := [⟨1,0,[]⟩] } :=
    .genesis _ (by decide) (by decide)
  have hreachable := hstart.connectBlocks (by decide) hok
  exact ⟨st,hreachable,hchain,hmined,reachable_minedAsScheduled hreachable (by decide)⟩

end Pyrk.MinedCommitments
