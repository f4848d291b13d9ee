import Pyrk.ListHeights
import Pyrk.QuietBlocks

/-!
# The rotation of payments

The masternode that waits the longest is paid and waits anew, so that each one is paid once in a
round.
-/

namespace Pyrk.PaymentRotation

open BlockAssertions

open Transaction DeterministicMNList ProviderTx BuildNewList Rotation List
open QuietBlocks ListHeights
open CDeterministicMNList (isMNValid isMNPoSeBanned)

/-- Masternodes that can be paid. -/
def ValidMN (list : CDeterministicMNList) (proTxHash : Uint256) : Prop :=
  ∃ dmn, list.mnMap.find proTxHash=some dmn ∧ isMNValid dmn=true

/-- Height that the turn of a masternode is decided by. -/
def turnHeight (list : CDeterministicMNList) (proTxHash : Uint256) : ℤ :=
  ((list.mnMap.find proTxHash).map compareByLastPaidGetHeight).getD 0

/-- Hash of the masternode that is paid next. -/
def nextPayee (list : CDeterministicMNList) : Option Uint256 :=
  (getMNPayee list).map CDeterministicMN.proTxHash

/-- Heights of valid masternodes that are not above a bound. -/
def HeightsUpTo (list : CDeterministicMNList) (bound : ℤ) : Prop :=
  ∀ proTxHash dmn, list.mnMap.find proTxHash=some dmn → isMNValid dmn=true →
    UpTo bound dmn.pdmnState

/-- A list after a payment at a height. -/
def PaidFrom (nHeight : ℤ) (list next : CDeterministicMNList) : Prop :=
  ∀ proTxHash, (next.mnMap.find proTxHash).map settled=
    (list.mnMap.find proTxHash).map (fun dmn => settled
      (if nextPayee list=some proTxHash then paidMN nHeight dmn else dmn))

section Payee

variable {list : CDeterministicMNList} {queue : List Uint256}

/-- Place of a masternode in the order of payments. -/
def payOrder (dmn : CDeterministicMN) : ℤ×ₗUint256 :=
  toLex (compareByLastPaidGetHeight dmn,dmn.proTxHash)

theorem compareByLastPaid_iff (first second : CDeterministicMN) :
    compareByLastPaid first second=true ↔ payOrder first < payOrder second := by
  rw [payOrder,payOrder,Prod.Lex.toLex_lt_toLex,compareByLastPaid]
  split_ifs with he
  · simp [he]
  · simp [he]

theorem betterPayee_foldl (dmns : List CDeterministicMN) (best : CDeterministicMN) :
    ∃ payee, dmns.foldl betterPayee (some best)=some payee ∧ payee∈best::dmns ∧
      ∀ other∈best::dmns, payOrder payee≤payOrder other := by
  induction dmns generalizing best with
  | nil => exact ⟨best,rfl,by simp,by simp⟩
  | cons dmn dmns ih =>
    rw [foldl_cons,betterPayee]
    split_ifs with hbetter
    · rw [compareByLastPaid_iff] at hbetter
      obtain ⟨payee,hpayee,hm,hle⟩ := ih dmn
      grind
    · rw [compareByLastPaid_iff,not_lt] at hbetter
      obtain ⟨payee,hpayee,hm,hle⟩ := ih best
      grind

theorem validMN_iff (hkeyed : Keyed list.mnMap) {proTxHash : Uint256} :
    ValidMN list proTxHash ↔ proTxHash∈(list.forEachMN true).map CDeterministicMN.proTxHash := by
  rw [mem_map]
  constructor
  · rintro ⟨dmn,hfind,hvalid⟩
    refine ⟨dmn,mem_filter.mpr ⟨(list.mnMap.mem_values_iff dmn).mpr ⟨proTxHash,hfind⟩,?_⟩,
      hkeyed proTxHash dmn hfind⟩
    simp [hvalid]
  · rintro ⟨dmn,hm,rfl⟩
    exact ⟨dmn,hkeyed.find_of_mem hm,by simpa using (mem_filter.mp hm).2⟩

theorem exists_payQueue (hkeyed : Keyed list.mnMap) :
    ∃ queue, IsQueue (turnHeight list) (ValidMN list) queue ∧
      queue.Perm ((list.forEachMN true).map CDeterministicMN.proTxHash) := by
  obtain ⟨queue,hqueue,hperm⟩ := exists_queue (turnHeight list) _ (hkeyed.nodup_forEachMN true)
  refine ⟨queue,⟨hqueue.sorted,fun proTxHash => ?_⟩,hperm⟩
  rw [hqueue.mem,validMN_iff hkeyed]

theorem getMNPayee_mem {payee : CDeterministicMN} (hpayee : getMNPayee list=some payee) :
    payee∈list.forEachMN true := by
  unfold getMNPayee at hpayee
  split_ifs at hpayee
  cases hvisited : list.forEachMN true with
  | nil => simp [hvisited] at hpayee
  | cons best dmns =>
    obtain ⟨first,hfold,hm,-⟩ := betterPayee_foldl dmns best
    rw [hvisited,foldl_cons,betterPayee,hfold,Option.some.injEq] at hpayee
    rwa [← hpayee]

theorem nextPayee_eq (hkeyed : Keyed list.mnMap)
    (hqueue : IsQueue (turnHeight list) (ValidMN list) queue) : nextPayee list=queue.head? := by
  have hempty : list.mnMap.size=0 → list.forEachMN true=[] := by
    intro hsize
    rw [CDeterministicMNList.forEachMN,OrderedMap.values,length_eq_zero_iff.mp hsize]
    rfl
  have hpayee : getMNPayee list=(list.forEachMN true).foldl betterPayee none := by
    unfold getMNPayee
    split_ifs with hsize
    · rw [hempty hsize]
      rfl
    · rfl
  rw [nextPayee,hpayee]
  cases hvisited : list.forEachMN true with
  | nil =>
    have hnil : queue=[] := by
      rw [eq_nil_iff_forall_not_mem]
      intro proTxHash hm
      rw [hqueue.mem,validMN_iff hkeyed,hvisited] at hm
      simp at hm
    rw [hnil]
    rfl
  | cons best dmns =>
    obtain ⟨payee,hfold,hm,hle⟩ := betterPayee_foldl dmns best
    rw [← hvisited] at hm hle
    rw [foldl_cons,betterPayee,hfold,Option.map_some]
    have hin : payee.proTxHash∈queue := by
      rw [hqueue.mem,validMN_iff hkeyed]
      exact mem_map_of_mem hm
    obtain ⟨first,rest,hfirst⟩ := exists_cons_of_ne_nil (ne_nil_of_mem hin)
    rw [hfirst,List.head?_cons,Option.some.injEq]
    rw [hfirst] at hin hqueue
    have hplace : ∀ dmn∈list.forEachMN true,
        payOrder dmn=turnOrder (turnHeight list) dmn.proTxHash := by
      intro dmn hdmn
      rw [turnOrder,turnHeight,hkeyed.find_of_mem hdmn]
      rfl
    rcases mem_cons.mp hin with he | hlater
    · exact he
    · have hbefore := (pairwise_cons.mp hqueue.sorted).1 _ hlater
      obtain ⟨dmn,hdmn,hkey⟩ := mem_map.mp
        ((validMN_iff hkeyed).mp ((hqueue.mem first).mp mem_cons_self))
      have hplaces := hle dmn hdmn
      rw [hplace payee hm,hplace dmn hdmn,hkey] at hplaces
      exact absurd hbefore (not_lt.mpr hplaces)

end Payee

section Payment

variable {list next : CDeterministicMNList} {nHeight bound : ℤ} {queue : List Uint256}

theorem settled_turn {first second : CDeterministicMN} (h : settled first=settled second) :
    first.proTxHash=second.proTxHash ∧ isMNValid first=isMNValid second ∧
      compareByLastPaidGetHeight first=compareByLastPaidGetHeight second ∧
      (UpTo bound second.pdmnState → UpTo bound first.pdmnState) := by
  simp only [settled,CDeterministicMN.mk.injEq,CDeterministicMNState.mk.injEq] at h
  refine ⟨h.1,?_,?_,fun hstate => hstate.congr ?_ ?_ ?_⟩
  · simp only [isMNValid,isMNPoSeBanned,h]
  · simp only [compareByLastPaidGetHeight,h]
  · simp only [h]
  · simp only [h]
  · simp only [h]

variable {proTxHash : Uint256} {dmn : CDeterministicMN}

section

variable (h : PaidFrom nHeight list next)

include h

theorem PaidFrom.find (hfind : next.mnMap.find proTxHash=some dmn) :
    ∃ old, list.mnMap.find proTxHash=some old ∧
      settled dmn=settled (if nextPayee list=some proTxHash then paidMN nHeight old else old) := by
  have hsame := h proTxHash
  rw [hfind,Option.map_some,eq_comm,Option.map_eq_some_iff] at hsame
  obtain ⟨old,hold,hsettled⟩ := hsame
  exact ⟨old,hold,hsettled.symm⟩

theorem PaidFrom.keyed (hkeyed : Keyed list.mnMap) :
    Keyed next.mnMap := by
  intro proTxHash dmn hfind
  obtain ⟨old,hold,hsettled⟩ := h.find hfind
  rw [(@settled_turn 0 _ _ hsettled).1,← hkeyed proTxHash old hold]
  split_ifs <;> rfl

theorem PaidFrom.validMN (proTxHash : Uint256) :
    ValidMN next proTxHash ↔ ValidMN list proTxHash := by
  have hpaid : ∀ old : CDeterministicMN, isMNValid
      (if nextPayee list=some proTxHash then paidMN nHeight old else old)=isMNValid old := by
    intro old
    split_ifs <;> rfl
  constructor
  · rintro ⟨dmn,hfind,hvalid⟩
    obtain ⟨old,hold,hsettled⟩ := h.find hfind
    rw [(@settled_turn 0 _ _ hsettled).2.1,hpaid] at hvalid
    exact ⟨old,hold,hvalid⟩
  · rintro ⟨old,hold,hvalid⟩
    have hsame := h proTxHash
    rw [hold,Option.map_some,Option.map_eq_some_iff] at hsame
    obtain ⟨dmn,hfind,hsettled⟩ := hsame
    refine ⟨dmn,hfind,?_⟩
    rw [(@settled_turn 0 _ _ hsettled).2.1,hpaid,hvalid]

theorem PaidFrom.length_valid (hkeyed : Keyed list.mnMap) :
    (next.forEachMN true).length=(list.forEachMN true).length := by
  have hperm : ((next.forEachMN true).map CDeterministicMN.proTxHash).Perm
      ((list.forEachMN true).map CDeterministicMN.proTxHash) := by
    refine (perm_ext_iff_of_nodup ((h.keyed hkeyed).nodup_forEachMN true)
      (hkeyed.nodup_forEachMN true)).mpr (fun proTxHash => ?_)
    rw [← validMN_iff (h.keyed hkeyed),← validMN_iff hkeyed,h.validMN]
  simpa using hperm.length_eq

theorem PaidFrom.heightsUpTo (hbound : HeightsUpTo list bound) :
    HeightsUpTo next (max bound nHeight) := by
  intro proTxHash dmn hfind hvalid
  obtain ⟨old,hold,hsettled⟩ := h.find hfind
  obtain ⟨-,hsame,-,hupTo⟩ := @settled_turn (max bound nHeight) _ _ hsettled
  refine hupTo ?_
  have hold' : UpTo bound old.pdmnState := by
    refine hbound proTxHash old hold ?_
    rw [← hvalid,hsame]
    split_ifs <;> rfl
  obtain ⟨hpaid,hregd,hrevived⟩ := hold'
  split_ifs
  · exact ⟨le_max_right _ _,hregd.trans (le_max_left _ _),hrevived.trans (le_max_left _ _)⟩
  · exact ⟨hpaid.trans (le_max_left _ _),hregd.trans (le_max_left _ _),
      hrevived.trans (le_max_left _ _)⟩

end

theorem turn_le (h : UpTo bound dmn.pdmnState) : compareByLastPaidGetHeight dmn≤bound := by
  obtain ⟨hpaid,hregd,hrevived⟩ := h
  unfold compareByLastPaidGetHeight
  dsimp only
  split_ifs <;> omega

theorem paidMN_turn (hrevived : dmn.pdmnState.nPoSeRevivedHeight≤nHeight)
    (hpos : 0 < nHeight) : compareByLastPaidGetHeight (paidMN nHeight dmn)=nHeight := by
  unfold compareByLastPaidGetHeight paidMN
  grind

variable {payee : Uint256}

theorem PaidFrom.turnHeight (h : PaidFrom nHeight list next)
    (hpayee : nextPayee list=some payee) (hbound : HeightsUpTo list nHeight) (hpos : 0 < nHeight)
    (hvalid : ValidMN list proTxHash) :
    turnHeight next proTxHash=Function.update (turnHeight list) payee nHeight proTxHash := by
  obtain ⟨old,hold,holdValid⟩ := hvalid
  have hsame := h proTxHash
  rw [hold,Option.map_some,Option.map_eq_some_iff] at hsame
  obtain ⟨dmn,hfind,hsettled⟩ := hsame
  have hturn := (@settled_turn 0 _ _ hsettled).2.2.1
  rw [PaymentRotation.turnHeight,hfind,Option.map_some,Option.getD_some,hturn,hpayee]
  by_cases he : proTxHash=payee
  · subst he
    rw [if_pos rfl,Function.update_self]
    exact paidMN_turn (hbound proTxHash old hold holdValid).revived hpos
  · rw [if_neg (fun hsome => he (Option.some.inj hsome).symm),Function.update_of_ne he,
      PaymentRotation.turnHeight,hold,Option.map_some,Option.getD_some]

theorem isQueue_congr {rank other : Uint256 → ℤ} {members : Uint256 → Prop}
    (h : IsQueue rank members queue) (hrank : ∀ member, members member → other member=rank member) :
    IsQueue other members queue := by
  refine ⟨h.sorted.imp_of_mem ?_,h.mem⟩
  intro first second hf hs hlt
  rw [turnOrder_lt] at hlt ⊢
  rwa [hrank first ((h.mem first).mp hf),hrank second ((h.mem second).mp hs)]

theorem PaidFrom.isQueue (h : PaidFrom nHeight list next)
    (hpayee : nextPayee list=some payee) (hbound : HeightsUpTo list nHeight) (hpos : 0 < nHeight)
    (hqueue : IsQueue (Function.update (PaymentRotation.turnHeight list) payee nHeight)
      (ValidMN list) queue) :
    IsQueue (PaymentRotation.turnHeight next) (ValidMN next) queue := by
  have hsame : ValidMN next=ValidMN list := by
    funext proTxHash
    exact propext (h.validMN proTxHash)
  rw [hsame]
  exact isQueue_congr hqueue (fun member hm => h.turnHeight hpayee hbound hpos hm)

theorem turnHeight_le (hbound : HeightsUpTo list bound)
    (hvalid : ValidMN list proTxHash) : turnHeight list proTxHash≤bound := by
  obtain ⟨dmn,hfind,hdmn⟩ := hvalid
  rw [PaymentRotation.turnHeight,hfind]
  exact turn_le (hbound proTxHash dmn hfind hdmn)

theorem PaidFrom.turn (h : PaidFrom nHeight list next) (hkeyed : Keyed list.mnMap)
    (hbound : HeightsUpTo list bound) (hlt : bound < nHeight) (hpos : 0 < nHeight)
    (hqueue : IsQueue (PaymentRotation.turnHeight list) (ValidMN list) (payee::queue)) :
    IsQueue (PaymentRotation.turnHeight next) (ValidMN next) (queue++[payee]) := by
  have hmore : HeightsUpTo list nHeight := by
    intro proTxHash dmn hfind hvalid
    obtain ⟨hpaid,hregd,hrevived⟩ := hbound proTxHash dmn hfind hvalid
    exact ⟨by omega,by omega,by omega⟩
  refine h.isQueue (nextPayee_eq hkeyed hqueue) hmore hpos (hqueue.turn (fun other hm => ?_))
  have hle := turnHeight_le hbound ((hqueue.mem other).mp (mem_cons_of_mem _ hm))
  omega

theorem PaidFrom.ne_nil (h : PaidFrom nHeight list next) (hkeyed : Keyed list.mnMap)
    (hne : list.forEachMN true≠[]) : next.forEachMN true≠[] := by
  intro hnil
  have hlen := h.length_valid hkeyed
  rw [hnil,length_nil,eq_comm,length_eq_zero_iff] at hlen
  exact hne hlen

end Payment

section Runs

variable {list next : CDeterministicMNList} {nHeight : ℤ} {payees : List (Option Uint256)}

/-- Blocks without transactions for masternodes from a list on, with the masternodes that they pay.
-/
inductive QuietRun : ℤ → CDeterministicMNList → List (Option Uint256) → Prop where
  | nil (nHeight : ℤ) (list : CDeterministicMNList) : QuietRun nHeight list []
  | block {ctx : NodeContext} {view : ChainView} {block : CBlock}
      {next : CDeterministicMNList} {payees : List (Option Uint256)} (blockHash : Uint256)
      (hquiet : QuietBlock view.mnList block)
      (hnext : buildNewListFromBlock ctx view block=.ok next) :
      QuietRun (view.nHeight+1) { next with blockHash := blockHash } payees →
      QuietRun view.nHeight view.mnList (nextPayee view.mnList::payees)

/-- From some place of a run on, each masternode is paid once in a round. -/
def FairFrom (list : CDeterministicMNList) (start : ℕ) (payees : List (Option Uint256)) : Prop :=
  ∀ before window after, payees=before++window++after → start≤before.length →
    window.length=(list.forEachMN true).length →
    ∀ proTxHash, ValidMN list proTxHash → window.count (some proTxHash)=1

theorem paidFrom_quiet {ctx : NodeContext} {view : ChainView} {block : CBlock}
    (hkeyed : Keyed view.mnList.mnMap) (hquiet : QuietBlock view.mnList block)
    (hnext : buildNewListFromBlock ctx view block=.ok next) (blockHash : Uint256) :
    PaidFrom (view.nHeight+1) view.mnList { next with blockHash := blockHash } := by
  obtain ⟨found,hfound,-,hpaid⟩ := @buildNewListFromBlock_quiet ctx view block hkeyed hquiet
  rw [hnext] at hfound
  cases hfound
  exact hpaid

section

variable (h : QuietRun nHeight list payees) (hkeyed : Keyed list.mnMap)
variable (hbound : HeightsUpTo list nHeight) (hpos : 0≤nHeight)

include h hkeyed hbound hpos

theorem QuietRun.turns {queue : List Uint256}
    (hqueue : IsQueue (turnHeight list) (ValidMN list) queue) (hne : queue≠[]) :
    payees=(Rotation.turns payees.length queue).map some := by
  induction h generalizing queue with
  | nil nHeight list => rfl
  | @block ctx view block next payees blockHash hquiet hnext _ ih =>
    have hpaid := paidFrom_quiet hkeyed hquiet hnext blockHash
    obtain ⟨first,rest,rfl⟩ := exists_cons_of_ne_nil hne
    have hmore := hpaid.heightsUpTo hbound
    rw [max_eq_right (by omega)] at hmore
    have hrest := ih (hpaid.keyed hkeyed) hmore (by omega)
      (hpaid.turn hkeyed hbound (by omega) (by omega) hqueue) (by simp)
    rw [length_cons,Rotation.turns,map_cons,← hrest,nextPayee_eq hkeyed hqueue]
    rfl

theorem QuietRun.fair (hne : list.forEachMN true≠[]) :
    FairFrom list 0 payees := by
  intro before window after hpayees _ hwindow proTxHash hvalid
  obtain ⟨queue,hqueue,hmembers⟩ := exists_payQueue hkeyed
  have hlen : queue.length=(list.forEachMN true).length := by simpa using hmembers.length_eq
  have hqueueNe : queue≠[] := by
    rw [← length_pos_iff,hlen,length_pos_iff]
    exact hne
  have hturns := h.turns hkeyed hbound hpos hqueue hqueueNe
  rw [hturns,map_eq_append_iff] at hpayees
  obtain ⟨beforeAfter,afterTurns,hsplit,hfirst,-⟩ := hpayees
  rw [map_eq_append_iff] at hfirst
  obtain ⟨beforeTurns,windowTurns,hsplit',-,rfl⟩ := hfirst
  rw [hsplit'] at hsplit
  have hperm := turns_window hsplit (by rw [hlen,← hwindow,length_map])
  rw [count_map_of_injective _ _ (Option.some_injective _),hperm.count_eq]
  exact count_eq_one_of_mem hqueue.nodup ((hqueue.mem proTxHash).mpr hvalid)

end

theorem exists_heightsUpTo : ∃ bound, HeightsUpTo list bound := by
  have hvisited : ∀ dmns : List CDeterministicMN, ∃ bound, ∀ dmn∈dmns,
    UpTo bound dmn.pdmnState := by
    intro dmns
    induction dmns with
    | nil => exact ⟨0,by simp⟩
    | cons dmn dmns ih =>
      obtain ⟨bound,hbound⟩ := ih
      refine ⟨max bound (max dmn.pdmnState.nLastPaidHeight
        (max dmn.pdmnState.nRegisteredHeight dmn.pdmnState.nPoSeRevivedHeight)),?_⟩
      rw [forall_mem_cons]
      refine ⟨⟨by omega,by omega,by omega⟩,fun other hm => ?_⟩
      obtain ⟨hpaid,hregd,hrevived⟩ := hbound other hm
      exact ⟨by omega,by omega,by omega⟩
  obtain ⟨bound,hbound⟩ := hvisited (list.forEachMN true)
  refine ⟨bound,fun proTxHash dmn hfind hvalid => hbound dmn ?_⟩
  refine mem_filter.mpr ⟨(list.mnMap.mem_values_iff dmn).mpr ⟨proTxHash,hfind⟩,?_⟩
  simp [hvalid]

theorem QuietRun.fairFrom {bound : ℤ} (h : QuietRun nHeight list payees) (hkeyed : Keyed list.mnMap)
    (hbound : HeightsUpTo list bound) (hne : list.forEachMN true≠[]) {start : ℕ}
    (hstart : bound≤nHeight+start) (hpos : 0≤nHeight+start) : FairFrom list start payees := by
  induction start generalizing nHeight list payees bound with
  | zero =>
    refine h.fair hkeyed (fun proTxHash dmn hfind hvalid => ?_) (by omega) hne
    obtain ⟨hpaid,hregd,hrevived⟩ := hbound proTxHash dmn hfind hvalid
    exact ⟨by omega,by omega,by omega⟩
  | succ start ih =>
    cases h with
    | nil =>
      intro before window after hpayees hlen
      rw [eq_comm,append_eq_nil_iff,append_eq_nil_iff] at hpayees
      rw [hpayees.1.1] at hlen
      simp at hlen
    | @block ctx view block next payees blockHash hquiet hnext hrest =>
      have hpaid := paidFrom_quiet hkeyed hquiet hnext blockHash
      have hfair := ih hrest (hpaid.keyed hkeyed) (hpaid.heightsUpTo hbound)
        (hpaid.ne_nil hkeyed hne) (by omega) (by omega)
      intro before window after hpayees hlen hwindow proTxHash hvalid
      cases before with
      | nil => simp at hlen
      | cons first before =>
        rw [cons_append,cons_append,List.cons.injEq] at hpayees
        rw [length_cons] at hlen
        exact hfair before window after hpayees.2 (by omega)
          (hwindow.trans (hpaid.length_valid hkeyed).symm) proTxHash
          ((hpaid.validMN proTxHash).mpr hvalid)

theorem heightsUpTo_reached {serializeHash : UniqueProperty → Uint256}
    (h : ReachedList serializeHash nHeight list) (hne : list.forEachMN true≠[]) :
    Keyed list.mnMap ∧ HeightsUpTo list nHeight ∧ 0 < nHeight := by
  obtain ⟨hrec,hpos⟩ := h.recorded
  refine ⟨hrec.exact.keyed,fun proTxHash dmn hfind _ => hrec.upTo proTxHash dmn hfind,?_⟩
  obtain ⟨dmn,hm⟩ := exists_mem_of_ne_nil _ hne
  exact hpos dmn.proTxHash dmn (hrec.exact.keyed.find_of_mem hm)

/-- Blocks without transactions for masternodes never end, and from some place on any run of them
pays each masternode once in a round; from the first block on when no recorded height is above the
chain. -/
theorem quietRun_fair (serializeHash : UniqueProperty → Uint256) (list : CDeterministicMNList)
    (nHeight : ℤ) (hkeyed : Keyed list.mnMap) (hne : list.forEachMN true≠[]) :
    (∀ (ctx : NodeContext) (view : ChainView) (block : CBlock), view.mnList=list →
      QuietBlock list block → ∃ next, buildNewListFromBlock ctx view block=.ok next ∧
        Keyed next.mnMap ∧ next.forEachMN true≠[]) ∧
    (∃ start, ∀ payees, QuietRun nHeight list payees → FairFrom list start payees) ∧
    (HeightsUpTo list nHeight → 0≤nHeight →
      ∀ payees, QuietRun nHeight list payees → FairFrom list 0 payees) ∧
    (ReachedList serializeHash nHeight list →
      ∀ payees, QuietRun nHeight list payees → FairFrom list 0 payees) := by
  refine ⟨?_,?_,?_,?_⟩
  · intro ctx view block hview hquiet
    subst hview
    obtain ⟨next,hnext,-,hpaid⟩ := @buildNewListFromBlock_quiet ctx view block hkeyed hquiet
    exact ⟨next,hnext,PaidFrom.keyed hpaid hkeyed,PaidFrom.ne_nil hpaid hkeyed hne⟩
  · obtain ⟨bound,hbound⟩ := @exists_heightsUpTo list
    refine ⟨(bound-nHeight).toNat+(-nHeight).toNat,fun payees h => ?_⟩
    exact h.fairFrom hkeyed hbound hne (by omega) (by omega)
  · exact fun hbound hpos payees h => h.fair hkeyed hbound hpos hne
  · intro hreached payees h
    obtain ⟨-,hbound,hpos⟩ := heightsUpTo_reached hreached hne
    exact h.fair hkeyed hbound (le_of_lt hpos) hne

end Runs

theorem reachedList_registered : ReachedList propertyCode 1 registeredView.mnList :=
  @ReachedList.build _ sampleNode emptyView registerBlock registeredList rfl (by decide) 1001
    (.empty _ _ _) (by decide)

theorem exists_quietRun {list : CDeterministicMNList} {nHeight : ℤ} (hkeyed : Keyed list.mnMap)
    (hpos : 0≤nHeight) (count : ℕ) :
    ∃ payees, QuietRun nHeight list payees ∧ payees.length=count := by
  induction count generalizing nHeight list with
  | zero => exact ⟨[],.nil _ _,rfl⟩
  | succ count ih =>
    let view : ChainView :=
      { chain := List.replicate (nHeight+1).toNat ⟨0,0,[]⟩, getListForBlock := fun _ => list }
    have hheight : view.nHeight=nHeight := by
      rw [ChainView.nHeight,length_replicate]
      omega
    have hlist : view.mnList=list := rfl
    have hquiet : QuietBlock view.mnList ⟨0,0,[]⟩ := ⟨by simp [listTxs],by simp [listTxs]⟩
    obtain ⟨next,hnext,-,hpaid⟩ := @buildNewListFromBlock_quiet
      sampleNode view ⟨0,0,[]⟩ hkeyed hquiet
    obtain ⟨payees,hrun,hlen⟩ := ih (PaidFrom.keyed hpaid hkeyed)
      (show 0≤nHeight+1 by omega)
    refine ⟨nextPayee list::payees,?_,by rw [length_cons,hlen]⟩
    have hblock := @QuietRun.block _ view _ next payees next.blockHash hquiet hnext
    rw [hheight,hlist] at hblock
    exact hblock hrun

/-- A run of four blocks that starts with the two masternodes. -/
theorem quietRun_fair_registered :
    ∃ payees, QuietRun 1 registeredView.mnList payees ∧ payees.length=4 ∧
      FairFrom registeredView.mnList 0 payees := by
  have hkeyed := reachedList_registered.recorded.1.exact.keyed
  obtain ⟨payees,hrun,hlen⟩ := @exists_quietRun _ 1 hkeyed (by decide) 4
  exact ⟨payees,hrun,hlen,(quietRun_fair propertyCode registeredView.mnList 1
    hkeyed (by decide)).2.2.2 reachedList_registered payees hrun⟩

end Pyrk.PaymentRotation
