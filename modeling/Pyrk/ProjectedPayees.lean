import Pyrk.PaymentRotation
import Mathlib.Data.List.ReduceOption

/-!
# Projected payees

The projection replays payments on a copy of the list, from one below the next block, so that its
first payment is marked with the height of the block before.
-/

namespace Pyrk.ProjectedPayees

open BlockAssertions

open Transaction DeterministicMNList BuildNewList Rotation List
open QuietBlocks ListHeights PaymentRotation

/-- Payments from a height on, replayed on a copy of a list. -/
def projectMNPayees (serializeHash : UniqueProperty → Uint256) (list : CDeterministicMNList) :
    ℕ → ℤ → CDeterministicMNList → Checked (List (Option CDeterministicMN))
  | 0,_,_ => .ok []
  | nCount+1,h,tmpMNList =>
    match getMNPayee { tmpMNList with nHeight := h } with
    | none => .error (.assertion .nullPointer)
    | some payee => do
      let tmpMNList ← { tmpMNList with nHeight := h }.updateMN serializeHash payee.proTxHash
        { payee.pdmnState with nLastPaidHeight := h }
      let result ← projectMNPayees serializeHash list nCount (h+1) tmpMNList
      .ok (list.getMN payee.proTxHash::result)

/-- Masternodes that are expected to be paid next. A negative length can not be reserved. -/
def getProjectedMNPayees (serializeHash : UniqueProperty → Uint256) (list : CDeterministicMNList)
    (nCount : ℤ) : Checked (List (Option CDeterministicMN)) :=
  if nCount<0 then .error (.assertion .reservedLength)
  else projectMNPayees serializeHash list nCount.toNat list.nHeight list

/-- The projection returns the masternodes that blocks without transactions for masternodes
pay next. -/
def ProjectsPayees (serializeHash : UniqueProperty → Uint256) (list : CDeterministicMNList)
    (nCount : ℤ) : Prop :=
  ∃ result, getProjectedMNPayees serializeHash list nCount=.ok result ∧
    ∀ payees, QuietRun list.nHeight list payees → (payees.length : ℤ)=nCount →
      result=payees.reduceOption.map list.getMN

/-- Valid masternodes at the height of the list behind a masternode. -/
def lateMNs (list : CDeterministicMNList) (payee : CDeterministicMN) : List CDeterministicMN :=
  (list.forEachMN true).filter (fun dmn =>
    compareByLastPaidGetHeight dmn=list.nHeight && payee.proTxHash < dmn.proTxHash)

/-- The wrong mark of the first payment is not seen. -/
def MarkUnseen (list : CDeterministicMNList) (nCount : ℤ) : Prop :=
  nCount=0 ∨ 0<nCount ∧ ∃ payee, getMNPayee list=some payee ∧ (lateMNs list payee=[] ∨
      nCount≤(list.forEachMN true).length-(lateMNs list payee).length)

section Projection

variable {serializeHash : UniqueProperty → Uint256} {list tmpMNList : CDeterministicMNList} {h : ℤ}
variable {queue : List Uint256}

theorem projectMNPayees_succ {payee : CDeterministicMN} (hkeyed : Keyed tmpMNList.mnMap)
    (hpayee : getMNPayee tmpMNList=some payee) :
    ∃ next, PaidFrom h tmpMNList next ∧ ∀ nCount,
      projectMNPayees serializeHash list (nCount+1) h tmpMNList=
        (do let result ← projectMNPayees serializeHash list nCount (h+1) next
            .ok (list.getMN payee.proTxHash::result)) := by
  have hfind := hkeyed.find_of_mem (getMNPayee_mem hpayee)
  have hupdate : { tmpMNList with nHeight := h }.updateMN serializeHash payee.proTxHash
      { payee.pdmnState with nLastPaidHeight := h }=.ok { tmpMNList with
        nHeight := h, mnMap := tmpMNList.mnMap.set payee.proTxHash (paidMN h payee) } :=
    updateMN_unchanged hfind rfl rfl rfl
  refine ⟨{ tmpMNList with
    nHeight := h, mnMap := tmpMNList.mnMap.set payee.proTxHash (paidMN h payee) },
    fun proTxHash => ?_,fun nCount => ?_⟩
  · dsimp only
    rw [OrderedMap.find_set,nextPayee,hpayee,Option.map_some]
    by_cases he : proTxHash=payee.proTxHash
    · subst he
      rw [if_pos rfl,hfind,Option.map_some,Option.map_some,if_pos rfl]
    · rw [if_neg he]
      simp [Ne.symm he]
  · have htmp : getMNPayee { tmpMNList with nHeight := h }=some payee := hpayee
    rw [projectMNPayees,htmp]
    dsimp only
    rw [hupdate,ok_bind]

theorem projectMNPayees_turns (hkeyed : Keyed tmpMNList.mnMap)
    (hbound : HeightsUpTo tmpMNList (h-1)) (hpos : 0 < h)
    (hqueue : IsQueue (turnHeight tmpMNList) (ValidMN tmpMNList) queue) (hne : queue≠[])
    (nCount : ℕ) :
    projectMNPayees serializeHash list nCount h tmpMNList=
      .ok ((turns nCount queue).map list.getMN) := by
  induction nCount generalizing h tmpMNList queue with
  | zero => rfl
  | succ nCount ih =>
    obtain ⟨first,rest,rfl⟩ := exists_cons_of_ne_nil hne
    have hfirst := nextPayee_eq hkeyed hqueue
    rw [nextPayee,head?_cons,Option.map_eq_some_iff] at hfirst
    obtain ⟨payee,hpayee,rfl⟩ := hfirst
    obtain ⟨next,hpaid,hstep⟩ := @projectMNPayees_succ serializeHash list tmpMNList h payee
      hkeyed hpayee
    have hmore := hpaid.heightsUpTo hbound
    rw [max_eq_right (by omega)] at hmore
    have hnext : HeightsUpTo next (h+1-1) := by
      rwa [show h+1-1=h by omega]
    rw [hstep,ih (hpaid.keyed hkeyed) hnext (by omega)
      (hpaid.turn hkeyed hbound (by omega) hpos hqueue) (by simp),ok_bind,turns,map_cons]

end Projection

variable {serializeHash : UniqueProperty → Uint256} {list : CDeterministicMNList}

theorem map_getMN_injective {queue first second : List Uint256} (hkeyed : Keyed list.mnMap)
    (hqueue : IsQueue (turnHeight list) (ValidMN list) queue)
    (hfirst : ∀ member∈first, member∈queue)
    (hsecond : ∀ member∈second, member∈queue) :
    first.map list.getMN=second.map list.getMN ↔ first=second := by
  have hfound : ∀ members : List Uint256, (∀ member∈members, member∈queue) →
      (members.map list.getMN).map (Option.map CDeterministicMN.proTxHash)=members.map some := by
    intro members hmembers
    rw [map_map]
    refine map_congr_left (fun member hm => ?_)
    obtain ⟨dmn,hdmn,-⟩ := (hqueue.mem member).mp (hmembers member hm)
    simp only [Function.comp_apply,CDeterministicMNList.getMN,hdmn,Option.map_some,
      hkeyed member dmn hdmn]
  constructor
  · intro he
    have hsame := congrArg (map (Option.map CDeterministicMN.proTxHash)) he
    rw [hfound first hfirst,hfound second hsecond] at hsame
    exact map_injective_iff.mpr (Option.some_injective _) hsame
  · rintro rfl
    rfl

theorem projectMNPayees_first {payee : CDeterministicMN}
    (hreached : ReachedList serializeHash list.nHeight list) (hpayee : getMNPayee list=some payee) :
    ∃ served late, IsQueue (turnHeight list) (ValidMN list) (payee.proTxHash::(served++late)) ∧
      late.length=(lateMNs list payee).length ∧
      1+served.length+late.length=(list.forEachMN true).length ∧
      ∀ nCount, projectMNPayees serializeHash list (nCount+1) list.nHeight list=
        .ok ((payee.proTxHash::turns nCount (served++payee.proTxHash::late)).map list.getMN) := by
  have hmember := getMNPayee_mem hpayee
  obtain ⟨hkeyed,hbound,hpos⟩ := heightsUpTo_reached hreached (ne_nil_of_mem hmember)
  obtain ⟨queue,hqueue,hperm⟩ := exists_payQueue hkeyed
  have hfirst := nextPayee_eq hkeyed hqueue
  rw [nextPayee,hpayee,Option.map_some,eq_comm,head?_eq_some_iff] at hfirst
  obtain ⟨rest,rfl⟩ := hfirst
  obtain ⟨served,late,rfl,hnext,hlate⟩ := hqueue.turn_among (fun other hm =>
    turnHeight_le hbound ((hqueue.mem other).mp (mem_cons_of_mem _ hm)))
  refine ⟨served,late,hqueue,?_,?_,fun nCount => ?_⟩
  · have hfilter := (hperm.filter (fun other => decide (turnHeight list other=list.nHeight) &&
      decide (payee.proTxHash < other))).length_eq
    rw [filter_cons_of_neg (by simp),← hlate,filter_map,length_map] at hfilter
    rw [hfilter,lateMNs]
    refine congrArg length (filter_congr (fun dmn hm => ?_))
    rw [Function.comp_apply,turnHeight,hkeyed.find_of_mem hm,Option.map_some,Option.getD_some]
  · have hlen := hperm.length_eq
    simp only [length_cons,length_append,length_map] at hlen
    omega
  · obtain ⟨next,hpaid,hstep⟩ := @projectMNPayees_succ serializeHash list list list.nHeight payee
      hkeyed hpayee
    have hmore := hpaid.heightsUpTo hbound
    rw [max_self,show list.nHeight=list.nHeight+1-1 by omega] at hmore
    have hturn := hpaid.isQueue (nextPayee_eq hkeyed hqueue) hbound hpos hnext
    rw [hstep,projectMNPayees_turns (hpaid.keyed hkeyed) hmore (by omega) hturn (by simp),ok_bind,
      map_cons]

theorem quietRun_payees {payee : CDeterministicMN} {waiting : List Uint256}
    {payees : List (Option Uint256)} {nCount : ℕ}
    (hreached : ReachedList serializeHash list.nHeight list) (hpayee : getMNPayee list=some payee)
    (hqueue : IsQueue (turnHeight list) (ValidMN list) (payee.proTxHash::waiting))
    (hrun : QuietRun list.nHeight list payees) (hlen : payees.length=nCount+1) :
    payees.reduceOption=payee.proTxHash::turns nCount (waiting++[payee.proTxHash]) := by
  obtain ⟨hkeyed,hbound,hpos⟩ := heightsUpTo_reached hreached
    (ne_nil_of_mem (getMNPayee_mem hpayee))
  have hturns := hrun.turns hkeyed hbound (le_of_lt hpos) hqueue (by simp)
  rw [hlen,turns] at hturns
  have hsome : ∀ members : List Uint256, (members.map some).reduceOption=members := by
    intro members
    induction members with
    | nil => exact reduceOption_nil
    | cons member members ih => rw [map_cons,reduceOption_cons_of_some,ih]
  rw [hturns,hsome]

theorem projectMNPayees_none (hpayee : getMNPayee list=none) (nCount : ℕ) :
    projectMNPayees serializeHash list (nCount+1) list.nHeight list=
      .error (.assertion .nullPointer) := by
  rw [projectMNPayees,show getMNPayee { list with nHeight := list.nHeight }=none from hpayee]

theorem map_turns_eq_iff {payee : Uint256} {served late : List Uint256} (hkeyed : Keyed list.mnMap)
    (hqueue : IsQueue (turnHeight list) (ValidMN list) (payee::(served++late))) (nCount : ℕ) :
    (payee::turns nCount (served++payee::late)).map list.getMN=
        (payee::turns nCount ((served++late)++[payee])).map list.getMN ↔
      late=[] ∨ nCount ≤ served.length := by
  have hmembers : ∀ waiting : List Uint256, (∀ member∈waiting, member∈payee::(served++late)) →
      ∀ member∈payee::turns nCount waiting, member∈payee::(served++late) := by
    intro waiting hwaiting member hm
    rcases mem_cons.mp hm with rfl | hm
    · exact mem_cons_self
    · exact hwaiting member (mem_of_mem_turns hm)
  rw [map_getMN_injective hkeyed hqueue (hmembers _ ?_) (hmembers _ ?_),cons.injEq,eq_self,
    true_and]
  · cases late with
    | nil => simp
    | cons first rest =>
      have hne : payee≠first := by
        intro he
        have hnodup := hqueue.nodup
        rw [← he,nodup_cons] at hnodup
        exact hnodup.1 (by simp)
      rw [append_assoc,cons_append,turns_eq_iff hne]
      simp
  · intro member hm
    simp only [mem_append,mem_cons] at hm ⊢
    tauto
  · intro member hm
    simp only [mem_append,mem_cons,not_mem_nil,or_false] at hm ⊢
    tauto

theorem markUnseen_succ_iff {payee : CDeterministicMN} {served late : List Uint256} {nCount : ℕ}
    (hpayee : getMNPayee list=some payee) (hlate : late.length=(lateMNs list payee).length)
    (hvalid : 1+served.length+late.length=(list.forEachMN true).length) :
    MarkUnseen list ((nCount+1 : ℕ) : ℤ) ↔ (late=[] ∨ nCount ≤ served.length) := by
  have hnil : late=[] ↔ lateMNs list payee=[] := by
    rw [← length_eq_zero_iff,hlate,length_eq_zero_iff]
  rw [hnil]
  constructor
  · rintro (hzero | ⟨-,other,hother,hcase⟩)
    · omega
    · rw [hpayee,Option.some.injEq] at hother
      subst hother
      exact hcase.imp_right (fun hle => by omega)
  · intro hcase
    exact Or.inr ⟨by omega,payee,hpayee,hcase.imp_right (fun hle => by omega)⟩

/-- The projection is right exactly if its wrong first mark is not seen. -/
theorem projectsPayees_iff (hreached : ReachedList serializeHash list.nHeight list) (nCount : ℤ) :
    ProjectsPayees serializeHash list nCount ↔ MarkUnseen list nCount := by
  rcases lt_trichotomy nCount 0 with hneg | rfl | hpos
  · have hleft : ¬ProjectsPayees serializeHash list nCount := by
      rintro ⟨result,hres,-⟩
      rw [getProjectedMNPayees,if_pos hneg] at hres
      cases hres
    have hright : ¬MarkUnseen list nCount := by
      rintro (rfl | ⟨hpos,-⟩) <;> omega
    exact iff_of_false hleft hright
  · refine iff_of_true ⟨[],rfl,fun payees _ hlen => ?_⟩ (Or.inl rfl)
    have hnil : payees=[] := by
      rw [← length_eq_zero_iff]
      omega
    rw [hnil]
    rfl
  · obtain ⟨count,rfl⟩ : ∃ count : ℕ, nCount=((count+1 : ℕ) : ℤ) := ⟨nCount.toNat-1,by omega⟩
    have hcode : getProjectedMNPayees serializeHash list ((count+1 : ℕ) : ℤ)=
        projectMNPayees serializeHash list (count+1) list.nHeight list := by
      rw [getProjectedMNPayees,if_neg (by omega),Int.toNat_natCast]
    cases hpayee : getMNPayee list with
    | none =>
      refine iff_of_false ?_ ?_
      · rintro ⟨result,hres,-⟩
        rw [hcode,projectMNPayees_none hpayee] at hres
        cases hres
      · rintro (hzero | ⟨-,payee,hsome,-⟩)
        · omega
        · rw [hpayee] at hsome
          cases hsome
    | some payee =>
      obtain ⟨served,late,hqueue,hlate,hvalid,hproject⟩ := projectMNPayees_first hreached hpayee
      obtain ⟨hkeyed,-,hheight⟩ := heightsUpTo_reached hreached
        (ne_nil_of_mem (getMNPayee_mem hpayee))
      rw [markUnseen_succ_iff hpayee hlate hvalid,← map_turns_eq_iff hkeyed hqueue]
      constructor
      · rintro ⟨result,hres,hrun⟩
        obtain ⟨payees,hquiet,hlen⟩ := @exists_quietRun list list.nHeight hkeyed
          (by omega) (count+1)
        rw [hcode,hproject,Except.ok.injEq] at hres
        rw [hres,hrun payees hquiet (by rw [hlen]),
          quietRun_payees hreached hpayee hqueue hquiet hlen]
      · intro he
        refine ⟨_,hcode.trans (hproject count),fun payees hrun hlen => ?_⟩
        have hcount : payees.length=count+1 := by omega
        rw [quietRun_payees hreached hpayee hqueue hrun hcount,he]

/-- One projected payment for two masternodes. -/
theorem projectsPayees_sample : ProjectsPayees propertyCode registeredView.mnList 1 :=
  (projectsPayees_iff reachedList_registered 1).mpr (Or.inr ⟨by decide,_,rfl,Or.inr (by decide)⟩)

theorem isQueue_registered :
    IsQueue (turnHeight registeredView.mnList) (ValidMN registeredView.mnList) [1,2] := by
  refine ⟨?_,fun member => ?_⟩
  · simp only [pairwise_pair,turnOrder_lt]
    decide
  · rw [validMN_iff reachedList_registered.recorded.1.exact.keyed,
      show (registeredView.mnList.forEachMN true).map CDeterministicMN.proTxHash=[1,2] by decide]

/-- Two masternodes are paid in turns, but the first one is projected twice; and without masternodes
a null pointer is read. -/
theorem projectsPayees_tie :
    ReachedList propertyCode registeredView.mnList.nHeight registeredView.mnList ∧
      ¬ProjectsPayees propertyCode registeredView.mnList 2 ∧
      getProjectedMNPayees propertyCode { blockHash := 1000, nHeight := 0 } 1=
        .error (.assertion .nullPointer) := by
  refine ⟨reachedList_registered,?_,rfl⟩
  rintro ⟨result,hres,hrun⟩
  have hkeyed := reachedList_registered.recorded.1.exact.keyed
  obtain ⟨payees,hquiet,hlen⟩ := @exists_quietRun registeredView.mnList
    registeredView.mnList.nHeight hkeyed (by decide) 2
  have hprojected : getProjectedMNPayees propertyCode registeredView.mnList 2=
      .ok ([1,1].map registeredView.mnList.getMN) := by decide
  have hpayee : ∃ payee, getMNPayee registeredView.mnList=some payee ∧
      payee.proTxHash=1 := ⟨_,rfl,rfl⟩
  obtain ⟨payee,hpayee,hfirst⟩ := hpayee
  have hreal := @quietRun_payees propertyCode _ payee [2] payees 1 reachedList_registered hpayee
    (by rw [hfirst]; exact isQueue_registered) hquiet hlen
  rw [hprojected,Except.ok.injEq] at hres
  have hsame := hrun payees hquiet (by rw [hlen]; rfl)
  rw [hreal,hfirst,← hres,
    map_getMN_injective hkeyed isQueue_registered (by decide) (by decide)] at hsame
  cases hsame

end Pyrk.ProjectedPayees
