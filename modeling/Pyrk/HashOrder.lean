import Pyrk.ProjectedPayees
import Pyrk.MerkleComputation

/-!
# Masternodes in any order

The map of masternodes visits its entries in an order that depends on how it came about. Payments,
quorums, merkle roots and new lists do not.
-/

namespace Pyrk.HashOrder

open List

open Transaction NetAddress ChainParams DeterministicMNList FinalCommitment ProviderTx BuildNewList
  QuietBlocks OrderedMap
open PaymentRotation ProjectedPayees MerkleComputation

/-- Order in which a hash map visits its entries. -/
structure IterationOrder where
  visit : OrderedMap Uint256 CDeterministicMN → List CDeterministicMN
  perm : ∀ mnMap, (visit mnMap).Perm mnMap.values

section Definitions

variable (order : IterationOrder)

/-- Visited masternodes, optionally only the valid ones. -/
def forEachMNIn (list : CDeterministicMNList) (onlyValid : Bool) : List CDeterministicMN :=
  (order.visit list.mnMap).filter (fun dmn =>
    !onlyValid || CDeterministicMNList.isMNValid dmn)

/-- Valid masternode that is paid next. -/
def getMNPayeeIn (list : CDeterministicMNList) : Option CDeterministicMN :=
  if list.mnMap.size=0 then none else (forEachMNIn order list true).foldl betterPayee none

/-- Payments from a height on, replayed on a copy of a list that has an order for each. -/
def projectMNPayeesIn (orders : ℕ → IterationOrder) (serializeHash : UniqueProperty → Uint256)
    (list : CDeterministicMNList) :
    ℕ → ℤ → CDeterministicMNList → Checked (List (Option CDeterministicMN))
  | 0,_,_ => .ok []
  | nCount+1,h,tmpMNList =>
    match getMNPayeeIn (orders nCount) { tmpMNList with nHeight := h } with
    | none => .error (.assertion .nullPointer)
    | some payee => do
      let tmpMNList ← { tmpMNList with nHeight := h }.updateMN serializeHash payee.proTxHash
        { payee.pdmnState with nLastPaidHeight := h }
      let result ← projectMNPayeesIn orders serializeHash list nCount (h+1) tmpMNList
      .ok (list.getMN payee.proTxHash::result)

/-- Masternodes that are expected to be paid next. -/
def getProjectedMNPayeesIn (orders : ℕ → IterationOrder)
    (serializeHash : UniqueProperty → Uint256) (list : CDeterministicMNList) (nCount : ℤ) :
    Checked (List (Option CDeterministicMN)) :=
  if nCount<0 then .error (.assertion .reservedLength)
  else projectMNPayeesIn orders serializeHash list nCount.toNat list.nHeight list

/-- Valid and confirmed masternodes by falling score. -/
def calculateQuorumIn (list : CDeterministicMNList) (maxSize : ℕ)
    (score : CDeterministicMN → ℕ) : List CDeterministicMN :=
  let scored := (forEachMNIn order list true).filter (fun dmn => dmn.pdmnState.confirmedHash≠0)
  (scored.mergeSort (fun first second => score second < score first ||
    (score first=score second && second.collateralOutpoint≤first.collateralOutpoint))).take maxSize

/-- Members of a quorum, from the list of its block. -/
def getAllQuorumMembersIn (ctx : NodeContext)
    (lists : Uint256 → CDeterministicMNList) (llmqType : ℕ) (quorumHash : Uint256) :
    List CDeterministicMN :=
  match (llmqs ctx.network).find llmqType with
  | none => []
  | some params => calculateQuorumIn order (lists quorumHash) params.size (fun dmn =>
      ctx.quorumScore dmn.pdmnState.confirmedHashWithProRegTxHash llmqType quorumHash)

/-- What a light client is told of a masternode. -/
structure CSimplifiedMNListEntry where
  proRegTxHash : Uint256
  confirmedHash : Uint256
  service : CService
  pubKeyOperator : CBLSPublicKey
  keyIDVoting : CKeyID
  isValid : Bool

def CSimplifiedMNListEntry.ofMN (dmn : CDeterministicMN) : CSimplifiedMNListEntry where
  proRegTxHash := dmn.proTxHash
  confirmedHash := dmn.pdmnState.confirmedHash
  service := dmn.pdmnState.addr
  pubKeyOperator := dmn.pdmnState.pubKeyOperator
  keyIDVoting := dmn.pdmnState.keyIDVoting
  isValid := dmn.pdmnState.nPoSeBanHeight=-1

/-- Entries of all masternodes, by registration hash. -/
def simplifiedMNListIn (dmnList : CDeterministicMNList) : List CSimplifiedMNListEntry :=
  ((forEachMNIn order dmnList false).map CSimplifiedMNListEntry.ofMN).mergeSort
    (fun first second => first.proRegTxHash ≤ second.proRegTxHash)

/-- Merkle root of the entries, and whether equal hashes were combined. -/
def calcMerkleRootIn (hash : Uint256 → Uint256 → Uint256)
    (calcHash : CSimplifiedMNListEntry → Uint256) (dmnList : CDeterministicMNList) :
    Option (Uint256×Bool) :=
  computeMerkleRoot hash ((simplifiedMNListIn order dmnList).map calcHash)

variable (ctx : NodeContext)

variable (order : IterationOrder)

/-- Lower all penalties of masternodes that are not banned. -/
def decreasePoSePenaltiesIn (list : CDeterministicMNList) : Checked CDeterministicMNList :=
  let toDecrease := (forEachMNIn order list true).filter (fun dmn =>
    0<dmn.pdmnState.nPoSePenalty && dmn.pdmnState.nPoSeBanHeight=-1)
  (toDecrease.map CDeterministicMN.proTxHash).foldlM (poSeDecrease ctx) list

/-- Confirmations and penalties before the transactions of a block. -/
def prepareNewListIn (confirmOrder decreaseOrder : IterationOrder) (view : ChainView) :
    Checked CDeterministicMNList := do
  let oldList := view.mnList
  let newList := { oldList with blockHash := 0, nHeight := view.nHeight+1 }
  let newList ← (forEachMNIn confirmOrder oldList false).foldlM (confirmMN ctx view) newList
  decreasePoSePenaltiesIn ctx decreaseOrder newList

/-- Punish all members of a quorum that did not take part. -/
def handleQuorumCommitmentIn (lists : Uint256 → CDeterministicMNList)
    (qc : CFinalCommitment) (list : CDeterministicMNList) : Checked CDeterministicMNList :=
  (getAllQuorumMembersIn order ctx lists qc.llmqType qc.quorumHash).zipIdx.foldlM
    (punishMember ctx qc) list

def applyCommitmentIn (view : ChainView) (newList : CDeterministicMNList)
    (qc : CFinalCommitmentTxPayload) : Checked CDeterministicMNList :=
  if isNull qc.commitment then .ok newList
  else handleQuorumCommitmentIn ctx order view.getListForBlock qc.commitment newList

/-- Apply one transaction of the block; only a commitment visits a list. -/
def applyTxIn (view : ChainView) (newList : CDeterministicMNList)
    (item : IterationOrder×CTransaction) : Checked CDeterministicMNList :=
  if item.2.nVersion=3 ∧ item.2.nType=.quorumCommitment then
    withPayload item.2.getFinalCommitment (applyCommitmentIn ctx item.1 view newList)
  else applyTx ctx view newList item.2

/-- List of a block, with orders for the payee, for the confirmations, for the penalties, and for
each transaction. -/
def buildNewListFromBlockIn (orders : ℕ → IterationOrder) (view : ChainView) (block : CBlock) :
    Checked CDeterministicMNList := do
  let newList ← prepareNewListIn ctx (orders 1) (orders 2) view
  let newList ← ((listTxs block).zipIdx.map (fun item => (orders (item.2+3),item.1))).foldlM
    (applyTxIn ctx view) newList
  let newList ← ((listTxs block).flatMap CTransaction.vin).foldlM
    (removeSpentCollateral ctx) newList
  payMN ctx (view.nHeight+1) (getMNPayeeIn (orders 0) view.mnList) newList

end Definitions

section Visits

variable {list : CDeterministicMNList}

theorem forEachMNIn_perm (order : IterationOrder) (list : CDeterministicMNList)
    (onlyValid : Bool) : (forEachMNIn order list onlyValid).Perm (list.forEachMN onlyValid) :=
  (order.perm list.mnMap).filter _

theorem eq_of_same_hash (hkeyed : Keyed list.mnMap) {onlyValid : Bool}
    {first second : CDeterministicMN} (hfirst : first∈list.forEachMN onlyValid)
    (hsecond : second∈list.forEachMN onlyValid) (hsame : first.proTxHash=second.proTxHash) :
    first=second := by
  have hleft := hkeyed.find_of_mem hfirst
  have hright := hkeyed.find_of_mem hsecond
  rw [hsame,hright] at hleft
  exact (Option.some.inj hleft).symm

theorem betterPayee_none {dmns : List CDeterministicMN} (hne : dmns≠[]) :
    ∃ payee, dmns.foldl betterPayee none=some payee ∧ payee∈dmns ∧
      ∀ other∈dmns, payOrder payee≤payOrder other := by
  obtain ⟨dmn,rest,rfl⟩ := exists_cons_of_ne_nil hne
  exact betterPayee_foldl rest dmn

theorem getMNPayeeIn_eq (hkeyed : Keyed list.mnMap) (order : IterationOrder) :
    getMNPayeeIn order list=getMNPayee list := by
  have hperm := forEachMNIn_perm order list true
  unfold getMNPayeeIn getMNPayee
  by_cases hempty : list.forEachMN true=[]
  · rw [hempty] at hperm
    rw [hperm.eq_nil,hempty]
  · have hother : forEachMNIn order list true≠[] := by
      intro hnil
      rw [hnil] at hperm
      exact hempty hperm.symm.eq_nil
    obtain ⟨first,hfirst,hfirstMem,hfirstLe⟩ := betterPayee_none hother
    obtain ⟨second,hsecond,hsecondMem,hsecondLe⟩ := betterPayee_none hempty
    have hplaces : payOrder first=payOrder second :=
      le_antisymm (hfirstLe second (hperm.mem_iff.mpr hsecondMem))
        (hsecondLe first (hperm.mem_iff.mp hfirstMem))
    have hhash : first.proTxHash=second.proTxHash :=
      congrArg Prod.snd (toLex.injective hplaces)
    rw [hfirst,hsecond,eq_of_same_hash hkeyed (hperm.mem_iff.mp hfirstMem) hsecondMem hhash]

theorem projectMNPayeesIn_eq (orders : ℕ → IterationOrder)
    {serializeHash : UniqueProperty → Uint256} {tmpMNList : CDeterministicMNList}
    (hexact : ExactList serializeHash tmpMNList) (nCount : ℕ) (h : ℤ) :
    projectMNPayeesIn orders serializeHash list nCount h tmpMNList=
      projectMNPayees serializeHash list nCount h tmpMNList := by
  induction nCount generalizing h tmpMNList with
  | zero => rfl
  | succ nCount ih =>
    have hset : ExactList serializeHash { tmpMNList with nHeight := h } :=
      ⟨hexact.keyed,hexact.exact⟩
    unfold projectMNPayeesIn projectMNPayees
    rw [getMNPayeeIn_eq hset.keyed]
    cases getMNPayee { tmpMNList with nHeight := h } with
    | none => rfl
    | some payee =>
      dsimp only
      cases hupdate : CDeterministicMNList.updateMN serializeHash { tmpMNList with nHeight := h }
          payee.proTxHash { payee.pdmnState with nLastPaidHeight := h } with
      | error failure => rfl
      | ok next =>
        obtain ⟨-,-,-,hnext⟩ := CDeterministicMNList.updateMN_exact hset hupdate
        rw [ok_bind,ok_bind,ih hnext]

end Visits

section Sorting

variable {α : Type} {κ : Type} [LinearOrder κ]

theorem mergeSort_perm_eq {rank : α → κ} {le : α → α → Bool}
    (hle : ∀ first second, le first second=decide (rank first ≤ rank second))
    {inputs others : List α} (hperm : inputs.Perm others)
    (hrank : ∀ first∈inputs, ∀ second∈inputs, rank first=rank second → first=second) :
    inputs.mergeSort le=others.mergeSort le := by
  have htrans : ∀ first second third, le first second=true → le second third=true →
      le first third=true := by
    grind
  have htotal : ∀ first second, (le first second || le second first)=true := by
    grind
  have hinputs := mergeSort_perm inputs le
  have hothers := mergeSort_perm others le
  refine List.Perm.eq_of_pairwise ?_ (pairwise_mergeSort htrans htotal inputs)
    (pairwise_mergeSort htrans htotal others) ((hinputs.trans hperm).trans hothers.symm)
  grind

end Sorting

section Quorums

variable {list : CDeterministicMNList}

/-- No two masternodes have the same collateral. -/
def OwnCollaterals (list : CDeterministicMNList) : Prop :=
  ∀ first∈list.forEachMN false, ∀ second∈list.forEachMN false,
    first.collateralOutpoint=second.collateralOutpoint → first=second

/-- Place of a masternode in a quorum; the best comes first. -/
def quorumOrder (score : CDeterministicMN → ℕ) (dmn : CDeterministicMN) : (ℕ×ₗCOutPoint)ᵒᵈ :=
  OrderDual.toDual (toLex (score dmn,dmn.collateralOutpoint))

theorem calculateQuorumIn_eq (hown : OwnCollaterals list) (order : IterationOrder) (maxSize : ℕ)
    (score : CDeterministicMN → ℕ) :
    calculateQuorumIn order list maxSize score=calculateQuorum list maxSize score := by
  have hperm := (forEachMNIn_perm order list true).filter
    (fun dmn => decide (dmn.pdmnState.confirmedHash≠0))
  have hle : ∀ first second : CDeterministicMN, (decide (score second < score first) ||
      (decide (score first=score second) &&
        decide (second.collateralOutpoint≤first.collateralOutpoint)))=
      decide (quorumOrder score first ≤ quorumOrder score second) := by
    intro first second
    have hlex : quorumOrder score first ≤ quorumOrder score second ↔
        score second < score first ∨ score second=score first ∧
          second.collateralOutpoint≤first.collateralOutpoint := by
      rw [quorumOrder,quorumOrder,OrderDual.toDual_le_toDual]
      exact Prod.Lex.toLex_le_toLex
    grind
  unfold calculateQuorumIn calculateQuorum
  dsimp only
  rw [mergeSort_perm_eq hle hperm ?_]
  intro first hfirst second hsecond hsame
  have hvisited : ∀ dmn, dmn∈(forEachMNIn order list true).filter
      (fun dmn => decide (dmn.pdmnState.confirmedHash≠0)) → dmn∈list.forEachMN false := by
    intro dmn hm
    have hvalid := (forEachMNIn_perm order list true).mem_iff.mp (mem_filter.mp hm).1
    exact mem_filter.mpr ⟨(mem_filter.mp hvalid).1,rfl⟩
  exact hown first (hvisited first hfirst) second (hvisited second hsecond)
    (congrArg Prod.snd (toLex.injective (OrderDual.toDual.injective hsame)))

theorem simplifiedMNListIn_eq (hkeyed : Keyed list.mnMap) (first second : IterationOrder) :
    simplifiedMNListIn first list=simplifiedMNListIn second list := by
  have hfirst := forEachMNIn_perm first list false
  have hperm := (hfirst.trans (forEachMNIn_perm second list false).symm).map
    CSimplifiedMNListEntry.ofMN
  refine mergeSort_perm_eq (fun _ _ => rfl) hperm ?_
  intro entry hentry other hother hsame
  obtain ⟨dmn,hdmn,rfl⟩ := mem_map.mp hentry
  obtain ⟨otherDmn,hotherDmn,rfl⟩ := mem_map.mp hother
  have hhash : dmn.proTxHash=otherDmn.proTxHash := hsame
  rw [eq_of_same_hash hkeyed (hfirst.mem_iff.mp hdmn) (hfirst.mem_iff.mp hotherDmn) hhash]

end Quorums

section Loops

variable {ctx : NodeContext} {list old : CDeterministicMNList}

/-- Change one masternode, or fail. -/
def changeAt (failure : Abort) (proTxHash : Uint256)
    (change : CDeterministicMN → Option CDeterministicMN) (list : CDeterministicMNList) :
    Checked CDeterministicMNList :=
  match (list.mnMap.find proTxHash).bind change with
  | none => .error failure
  | some dmn => .ok { list with mnMap := list.mnMap.set proTxHash dmn }

theorem changeAt_comm {failure : Abort} {first second : Uint256} (hne : first≠second)
    (change other : CDeterministicMN → Option CDeterministicMN) :
    (changeAt failure first change list>>=changeAt failure second other)=
      (changeAt failure second other list>>=changeAt failure first change) := by
  have hkept : ∀ (key moved : Uint256) (dmn : CDeterministicMN), key≠moved →
      (list.mnMap.set moved dmn).find key=list.mnMap.find key :=
    fun key moved dmn h => find_set_of_ne _ _ h
  unfold changeAt
  cases hfirst : (list.mnMap.find first).bind change with
  | none =>
    cases hsecond : (list.mnMap.find second).bind other with
    | none => rfl
    | some otherDmn =>
      rw [ok_bind]
      rw [hkept first second otherDmn hne,hfirst]
      rfl
  | some dmn =>
    cases hsecond : (list.mnMap.find second).bind other with
    | none =>
      rw [ok_bind]
      rw [hkept second first dmn hne.symm,hsecond]
      rfl
    | some otherDmn =>
      rw [ok_bind,ok_bind]
      rw [hkept first second otherDmn hne,hkept second first dmn hne.symm,hfirst,hsecond]
      dsimp only
      rw [set_comm _ hne]

theorem poSeDecrease_changeAt (list : CDeterministicMNList) (proTxHash : Uint256) :
    poSeDecrease ctx list proTxHash=changeAt (.assertion .poSeDecrease) proTxHash (fun dmn =>
      if 0<dmn.pdmnState.nPoSePenalty && dmn.pdmnState.nPoSeBanHeight=-1 then
        some { dmn with pdmnState :=
          { dmn.pdmnState with nPoSePenalty := dmn.pdmnState.nPoSePenalty-1 } }
      else none) list := by
  unfold poSeDecrease changeAt CDeterministicMNList.getMN
  cases hfind : list.mnMap.find proTxHash with
  | none => rfl
  | some dmn =>
    rw [Option.bind_some]
    dsimp only
    rw [assertThat]
    split_ifs with hdue
    · rw [ok_bind]
      exact updateMN_unchanged hfind rfl rfl rfl
    · rfl

/-- A masternode of the new list after the confirmation of the one in the old list. -/
def confirmedMN (ctx : NodeContext) (view : ChainView) (dmn current : CDeterministicMN) :
    Option CDeterministicMN :=
  if dmn.pdmnState.confirmedHash=0 ∧ nMasternodeMinimumConfirmations ctx.network≤
      view.nHeight-dmn.pdmnState.nRegisteredHeight then
    some { current with pdmnState :=
      dmn.pdmnState.updateConfirmedHash ctx.sha256 dmn.proTxHash view.blockHash }
  else some current

variable {view : ChainView}

theorem confirmMN_changeAt (hkeyed : Keyed old.mnMap) {dmn : CDeterministicMN}
    (hdmn : dmn∈old.forEachMN false) (h : SameSettled list old) :
    confirmMN ctx view list dmn=
      changeAt (.assertion .updateMN) dmn.proTxHash (confirmedMN ctx view dmn) list := by
  obtain ⟨current,hcurrent,hsettled⟩ := h.find (hkeyed.find_of_mem hdmn)
  obtain ⟨haddr,howner,hop,-⟩ := settled_properties hsettled
  unfold confirmMN changeAt
  rw [hcurrent,Option.bind_some,confirmedMN]
  by_cases hconf : dmn.pdmnState.confirmedHash=0
  · rw [if_neg (not_not.mpr hconf)]
    by_cases hdue : nMasternodeMinimumConfirmations ctx.network≤
        view.nHeight-dmn.pdmnState.nRegisteredHeight
    · rw [if_pos hdue,if_pos ⟨hconf,hdue⟩]
      exact updateMN_unchanged hcurrent haddr howner hop
    · rw [if_neg hdue,if_neg (fun hboth => hdue hboth.2)]
      dsimp only
      rw [set_find hcurrent]
  · rw [if_pos hconf,if_neg (fun hboth => hconf hboth.1)]
    dsimp only
    rw [set_find hcurrent]

theorem confirmMN_foldlM_eq (hkeyed : Keyed old.mnMap) (order : IterationOrder)
    (h : SameSettled list old) :
    (forEachMNIn order old false).foldlM (confirmMN ctx view) list=
      (old.forEachMN false).foldlM (confirmMN ctx view) list := by
  have hperm := forEachMNIn_perm order old false
  refine foldlM_perm hperm (P := fun st => SameSettled st old) ?_ ?_ h
  · intro st next dmn hm hstate hnext
    obtain ⟨result,hres,hsettled,-⟩ := confirmMN_next hkeyed (hperm.mem_iff.mp hm) hstate
    rw [hres] at hnext
    cases hnext
    exact hsettled
  · intro st first second hfirst hsecond hstate
    have hfirstMem := hperm.mem_iff.mp hfirst
    have hsecondMem := hperm.mem_iff.mp hsecond
    by_cases hhash : first.proTxHash=second.proTxHash
    · rw [eq_of_same_hash hkeyed hfirstMem hsecondMem hhash]
    · have hafter : ∀ {dmn other : CDeterministicMN}, dmn∈old.forEachMN false →
          other∈old.forEachMN false →
          (confirmMN ctx view st dmn>>=(confirmMN ctx view · other))=
          (confirmMN ctx view st dmn>>=changeAt (.assertion .updateMN) other.proTxHash
            (confirmedMN ctx view other)) := by
        intro dmn other hdmn hother
        obtain ⟨next,hnext,hsettled,-⟩ := @confirmMN_next ctx old st hkeyed view dmn hdmn hstate
        rw [hnext,ok_bind,ok_bind,confirmMN_changeAt hkeyed hother hsettled]
      rw [hafter hfirstMem hsecondMem,hafter hsecondMem hfirstMem,
        confirmMN_changeAt hkeyed hfirstMem hstate,confirmMN_changeAt hkeyed hsecondMem hstate]
      exact changeAt_comm hhash _ _

theorem decreasePoSePenaltiesIn_eq (order : IterationOrder) (list : CDeterministicMNList) :
    decreasePoSePenaltiesIn ctx order list=decreasePoSePenalties ctx list := by
  have hperm := ((forEachMNIn_perm order list true).filter (fun dmn =>
    decide (0<dmn.pdmnState.nPoSePenalty) && decide (dmn.pdmnState.nPoSeBanHeight=-1))).map
      CDeterministicMN.proTxHash
  refine foldlM_perm hperm (P := fun _ => True) (fun _ _ _ => trivial) ?_ trivial
  intro st first second _ _ _
  by_cases hsame : first=second
  · rw [hsame]
  · simp only [poSeDecrease_changeAt]
    exact changeAt_comm hsame _ _

theorem prepareNewListIn_eq (hkeyed : Keyed view.mnList.mnMap)
    (confirmOrder decreaseOrder : IterationOrder) :
    prepareNewListIn ctx confirmOrder decreaseOrder view=prepareNewList ctx view := by
  have hstart : SameSettled { view.mnList with blockHash := 0, nHeight := view.nHeight+1 }
      view.mnList := fun _ => rfl
  unfold prepareNewListIn prepareNewList
  dsimp only
  rw [confirmMN_foldlM_eq hkeyed confirmOrder hstart]
  simp only [decreasePoSePenaltiesIn_eq]

theorem applyTxIn_eq (hown : ∀ blockHash, OwnCollaterals (view.getListForBlock blockHash))
    (item : IterationOrder×CTransaction) :
    applyTxIn ctx view list item=applyTx ctx view list item.2 := by
  have hmembers : ∀ (llmqType : ℕ) (quorumHash : Uint256),
      getAllQuorumMembersIn item.1 ctx view.getListForBlock llmqType quorumHash=
        getAllQuorumMembers ctx view.getListForBlock llmqType quorumHash := by
    intro llmqType quorumHash
    unfold getAllQuorumMembersIn getAllQuorumMembers
    cases (llmqs ctx.network).find llmqType with
    | none => rfl
    | some params => exact calculateQuorumIn_eq (hown quorumHash) item.1 _ _
  unfold applyTxIn
  split_ifs with hcommit
  · obtain ⟨hver,htype⟩ := hcommit
    unfold applyTx
    rw [if_neg (not_not.mpr hver),htype]
    unfold withPayload
    cases item.2.getFinalCommitment with
    | none => rfl
    | some qc =>
      dsimp only
      unfold applyCommitmentIn applyCommitment handleQuorumCommitmentIn handleQuorumCommitment
      rw [hmembers]
  · rfl

theorem buildNewListFromBlockIn_eq (hkeyed : Keyed view.mnList.mnMap)
    (hown : ∀ blockHash, OwnCollaterals (view.getListForBlock blockHash))
    (orders : ℕ → IterationOrder) (block : CBlock) :
    buildNewListFromBlockIn ctx orders view block=buildNewListFromBlock ctx view block := by
  have htxs : ∀ (items : List (IterationOrder×CTransaction)) (start : CDeterministicMNList),
      items.foldlM (applyTxIn ctx view) start=
        (items.map Prod.snd).foldlM (applyTx ctx view) start := by
    intro items
    induction items with
    | nil => exact fun _ => rfl
    | cons item items ih =>
      intro start
      rw [map_cons,foldlM_cons,foldlM_cons,applyTxIn_eq hown]
      simp only [ih]
  have hitems : (((listTxs block).zipIdx.map (fun item => (orders (item.2+3),item.1))).map
      Prod.snd)=listTxs block := by
    rw [map_map]
    exact zipIdx_map_fst 0 (listTxs block)
  unfold buildNewListFromBlockIn buildNewListFromBlock
  simp only [prepareNewListIn_eq hkeyed,getMNPayeeIn_eq hkeyed,htxs,hitems]

end Loops

section Lists

variable {serializeHash : UniqueProperty → Uint256} {list : CDeterministicMNList}

/-- Every masternode has a collateral. -/
def CollateralsSet (list : CDeterministicMNList) : Prop :=
  ∀ proTxHash dmn, list.mnMap.find proTxHash=some dmn →
    (UniqueProperty.collateral dmn.collateralOutpoint).isNull=false

theorem CollateralsSet.addMN {next : CDeterministicMNList} {dmn : CDeterministicMN}
    (h : ExactList serializeHash list ∧ CollateralsSet list)
    (hadd : list.addMN serializeHash dmn=.ok next) :
    ExactList serializeHash next ∧ CollateralsSet next := by
  obtain ⟨-,hcoll,-,⟨map,rfl⟩,hexact⟩ := CDeterministicMNList.addMN_exact h.1 hadd
  refine ⟨hexact,?_⟩
  intro proTxHash found hfind
  rw [find_set] at hfind
  split_ifs at hfind with hself
  · cases hfind
    exact hcoll
  · exact h.2 proTxHash found hfind

open CollateralsSet

theorem CollateralsSet.updateMN {next : CDeterministicMNList} {proTxHash : Uint256}
    {pdmnState : CDeterministicMNState} (h : ExactList serializeHash list ∧ CollateralsSet list)
    (hupdate : list.updateMN serializeHash proTxHash pdmnState=.ok next) :
    ExactList serializeHash next ∧ CollateralsSet next := by
  obtain ⟨dmn,hdmn,⟨map,rfl⟩,hexact⟩ := CDeterministicMNList.updateMN_exact h.1 hupdate
  refine ⟨hexact,?_⟩
  intro other found hfind
  rw [find_set] at hfind
  split_ifs at hfind with hself
  · cases hfind
    exact h.2 proTxHash dmn hdmn
  · exact h.2 other found hfind

theorem CollateralsSet.removeMN {next : CDeterministicMNList} {proTxHash : Uint256}
    (h : ExactList serializeHash list ∧ CollateralsSet list)
    (hremove : list.removeMN serializeHash proTxHash=.ok next) :
    ExactList serializeHash next ∧ CollateralsSet next := by
  obtain ⟨-,⟨map,rfl⟩,hexact⟩ := CDeterministicMNList.removeMN_exact h.1 hremove
  refine ⟨hexact,?_⟩
  intro other found hfind
  rw [find_erase] at hfind
  split_ifs at hfind with hself
  exact h.2 other found hfind

theorem reachable_collateralsSet (h : Reachable serializeHash list) :
    ExactList serializeHash list ∧ CollateralsSet list := by
  induction h with
  | empty blockHash nHeight =>
    refine ⟨exactList_empty serializeHash blockHash nHeight,?_⟩
    intro proTxHash dmn hfind
    cases hfind
  | setBlock blockHash nHeight _ ih => exact ⟨⟨ih.1.keyed,ih.1.exact⟩,ih.2⟩
  | addMN dmn _ hs ih => exact addMN ih hs
  | updateMN proTxHash pdmnState _ hs ih => exact updateMN ih hs
  | removeMN proTxHash _ hs ih => exact removeMN ih hs
  | @applyDiff list _ diff _ hs ih =>
    unfold CDeterministicMNList.applyDiff at hs
    simp only [bind_eq_ok] at hs
    obtain ⟨_,-,removed,hremoved,added,hadded,hupdated⟩ := hs
    have hstart : ExactList serializeHash
        { list with blockHash := diff.blockHash, nHeight := diff.nHeight } ∧
        CollateralsSet { list with blockHash := diff.blockHash, nHeight := diff.nHeight } :=
      ⟨⟨ih.1.keyed,ih.1.exact⟩,ih.2⟩
    have hfirst := foldlM_invariant (fun _ hstate hnext => removeMN hstate hnext) hstart hremoved
    have hsecond := foldlM_invariant (fun _ hstate hnext => addMN hstate hnext) hfirst hadded
    exact foldlM_invariant (fun _ hstate hnext => updateMN hstate hnext) hsecond hupdated
  | roundTrip bytes _ hs ih => exact unserialize_serializes hs ▸ ih

theorem reachable_ownCollaterals (h : Reachable serializeHash list) : OwnCollaterals list := by
  obtain ⟨hexact,hset⟩ := reachable_collateralsSet h
  intro first hfirst second hsecond hsame
  have hheld : ∀ dmn∈list.forEachMN false, serializeHash (.collateral dmn.collateralOutpoint)∈
        holdings serializeHash list.mnMap dmn.proTxHash := by
    intro dmn hm
    have hfind := hexact.keyed.find_of_mem hm
    rw [holdings_of_find hfind]
    exact Multiset.mem_of_le (hashOf_le_propertyHashes (.head _))
      (mem_hashOf.mpr ⟨hset _ _ hfind,rfl⟩)
  have hfirstHeld := hexact.exact.find_of_mem (hheld first hfirst)
  have hsecondHeld := hexact.exact.find_of_mem (hheld second hsecond)
  rw [hsame,hsecondHeld] at hfirstHeld
  have howner := congrArg Prod.fst (Option.some.inj hfirstHeld)
  exact eq_of_same_hash hexact.keyed hfirst hsecond howner.symm

end Lists

/-- In whatever order masternodes are visited, payments, quorums, merkle roots for light clients and
new lists are the same. -/
theorem iterationOrder_irrelevant (ctx : NodeContext) (list : CDeterministicMNList)
    (hlist : Reachable ctx.serializeHash list) (first second : ℕ → IterationOrder) :
    getMNPayeeIn (first 0) list=getMNPayeeIn (second 0) list ∧
    (∀ nCount, getProjectedMNPayeesIn first ctx.serializeHash list nCount=
      getProjectedMNPayeesIn second ctx.serializeHash list nCount) ∧
    (∀ maxSize score, calculateQuorumIn (first 0) list maxSize score=
      calculateQuorumIn (second 0) list maxSize score) ∧
    (∀ hash calcHash, calcMerkleRootIn (first 0) hash calcHash list=
      calcMerkleRootIn (second 0) hash calcHash list) ∧
    ∀ (view : ChainView) (block : CBlock), view.mnList=list →
      (∀ blockHash, Reachable ctx.serializeHash (view.getListForBlock blockHash)) →
      buildNewListFromBlockIn ctx first view block=
        buildNewListFromBlockIn ctx second view block := by
  have hexact := reachable_exactList hlist
  have hown := reachable_ownCollaterals hlist
  refine ⟨?_,?_,?_,?_,?_⟩
  · rw [getMNPayeeIn_eq hexact.keyed,getMNPayeeIn_eq hexact.keyed]
  · intro nCount
    unfold getProjectedMNPayeesIn
    rw [projectMNPayeesIn_eq first hexact,projectMNPayeesIn_eq second hexact]
  · intro maxSize score
    rw [calculateQuorumIn_eq hown,calculateQuorumIn_eq hown]
  · intro hash calcHash
    rw [calcMerkleRootIn,calcMerkleRootIn,simplifiedMNListIn_eq hexact.keyed (first 0) (second 0)]
  · intro view block hview hlists
    have hkeyed : Keyed view.mnList.mnMap := hview.symm ▸ hexact.keyed
    have howns := fun blockHash => reachable_ownCollaterals (hlists blockHash)
    rw [buildNewListFromBlockIn_eq hkeyed howns,buildNewListFromBlockIn_eq hkeyed howns]

/-- Visits in the order of the hashes. -/
def ascending : IterationOrder where
  visit := OrderedMap.values
  perm := fun _ => .refl _

/-- Visits the other way around. -/
def descending : IterationOrder where
  visit := fun mnMap => mnMap.values.reverse
  perm := fun mnMap => mnMap.values.reverse_perm

/-- Two masternodes, visited from both ends. -/
theorem iterationOrder_irrelevant_reversed :
    ∃ list, Reachable BlockAssertions.sampleNode.serializeHash list ∧ list.getAllMNsCount=2 ∧
      getMNPayeeIn ascending list=getMNPayeeIn descending list := by
  exact ⟨pairList,reachable_pairList,by decide,(iterationOrder_irrelevant
    BlockAssertions.sampleNode pairList reachable_pairList (fun _ => ascending)
    (fun _ => descending)).1⟩

end Pyrk.HashOrder
