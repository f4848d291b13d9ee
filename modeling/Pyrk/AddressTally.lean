import Pyrk.WalletCoins

/-!
# The tally of addresses

The wallet groups outputs that it may spend by address and keeps two groupings. Nothing remembers
for which limit a grouping was made.
-/

namespace Pyrk.AddressTally

open Transaction Script PrivateSend WalletCoins OrderedMap Function List

/-- What is grouped, with addresses of any ordered type. -/
structure TallyView (D : Type) where
  node : WalletNode
  wallet : CWallet
  setWalletUTXO : List COutPoint
  extractDestination : CScript → Option D
  /-- Addresses whose outputs the wallet can spend. -/
  isMine : D → Bool
  fMasternodeMode : Bool := false
  nPrivateSendRounds : ℤ
  getCappedOutpointPrivateSendRounds : COutPoint → ℤ

/-- What is asked for. -/
structure TallyRequest where
  fSkipDenominated : Bool := true
  fAnonymizable : Bool := true
  fSkipUnconfirmed : Bool := true
  nMaxOupointsPerAddress : ℤ := -1

/-- Outputs of an address. -/
structure CompactTallyItem (D : Type) where
  txdest : D
  nAmount : ℤ := 0
  vecOutPoints : List COutPoint := []
  deriving DecidableEq

/-- A signed number as one of 64 bits. -/
def toSize (n : ℤ) : ℕ := if n<0 then (2^64+n).toNat else n.toNat

/-- Whether kept groupings serve a request. -/
def TallyRequest.usesCache (request : TallyRequest) : Bool :=
  request.nMaxOupointsPerAddress≠-1 && request.fAnonymizable && request.fSkipUnconfirmed

section Tally

variable {D : Type} [LinearOrder D] (view : TallyView D) (request : TallyRequest)

/-- Whether an output is of no use for mixing. -/
def unfitForMixing (outpoint : COutPoint) (nValue : ℤ) : Bool :=
  if isCollateralAmount nValue then true
  else if view.fMasternodeMode &&
      (nValue=1000*coin || nValue=2500*coin || nValue=5000*coin) then true
  else if nValue ≤ smallestDenomination/10 then true
  else view.nPrivateSendRounds ≤ view.getCappedOutpointPrivateSendRounds outpoint

/-- Whether an address has as many outpoints as the limit allows. -/
def full (itTallyItem : Option (CompactTallyItem D)) : Bool :=
  request.nMaxOupointsPerAddress≠-1 && itTallyItem.any (fun item =>
    toSize request.nMaxOupointsPerAddress ≤ item.vecOutPoints.length)

def addOutput (txdest : D) (itTallyItem : Option (CompactTallyItem D)) (out : COutPoint×CTxOut) :
    CompactTallyItem D :=
  let item := itTallyItem.getD { txdest := txdest }
  { item with
    nAmount := item.nAmount+out.2.nValue, vecOutPoints := item.vecOutPoints++[out.1] }

def tallyOutput (mapTally : OrderedMap D (CompactTallyItem D)) (out : COutPoint×CTxOut) :
    OrderedMap D (CompactTallyItem D) :=
  match view.extractDestination out.2.scriptPubKey with
  | none => mapTally
  | some txdest =>
    if !view.isMine txdest then mapTally
    else if full request (mapTally.find txdest) then mapTally
    else if isSpent view.node view.wallet out.1 || isLockedCoin view.wallet out.1 then mapTally
    else if request.fSkipDenominated && isDenominatedAmount out.2.nValue then mapTally
    else if request.fAnonymizable && unfitForMixing view out.1 out.2.nValue then mapTally
    else mapTally.set txdest (addOutput txdest (mapTally.find txdest) out)

/-- Outputs of a transaction that are looked at. -/
def txOutputs (hash : Uint256) : List (COutPoint×CTxOut) :=
  match view.wallet.mapWallet.find hash with
  | none => []
  | some wtx =>
    if wtx.tx.isCoinBase && 0 < getBlocksToMaturity view.node wtx then []
    else if request.fSkipUnconfirmed && !isTrusted view.node view.wallet wtx then []
    else wtx.tx.vout.zipIdx.map (fun txout => (⟨hash,txout.2⟩,txout.1))

/-- Outputs that are looked at; each transaction counts once. -/
def walletOutputs : List (COutPoint×CTxOut) :=
  (view.setWalletUTXO.map COutPoint.hash).eraseDups.flatMap (txOutputs view request)

/-- The grouping, computed anew. -/
def tally : List (CompactTallyItem D) :=
  ((walletOutputs view request).foldl (tallyOutput view request) .empty).values.filter
    (fun item => !(request.fAnonymizable && item.nAmount < smallestDenomination))

/-- Whether an output counts for an address when there is no limit. -/
def listed (txdest : D) (out : COutPoint×CTxOut) : Bool :=
  view.extractDestination out.2.scriptPubKey=some txdest && view.isMine txdest &&
    !(isSpent view.node view.wallet out.1 || isLockedCoin view.wallet out.1) &&
    !(request.fSkipDenominated && isDenominatedAmount out.2.nValue) &&
    !(request.fAnonymizable && unfitForMixing view out.1 out.2.nValue)

/-- All outputs that count for an address. -/
def groupOf (txdest : D) : CompactTallyItem D :=
  let outs := (walletOutputs view request).filter (listed view request txdest)
  ⟨txdest,(outs.map (fun out => out.2.nValue)).sum,outs.map Prod.fst⟩

/-- Count an output for one address. -/
def countFor (txdest : D) (itTallyItem : Option (CompactTallyItem D)) (out : COutPoint×CTxOut) :
    Option (CompactTallyItem D) :=
  if listed view request txdest out && !full request itTallyItem then
    some (addOutput txdest itTallyItem out)
  else itTallyItem

end Tally

section Groups

variable {D : Type} [LinearOrder D] {view : TallyView D} {request : TallyRequest}

theorem find_tallyOutput (mapTally : OrderedMap D (CompactTallyItem D)) (out : COutPoint×CTxOut)
    (txdest : D) : (tallyOutput view request mapTally out).find txdest=
      countFor view request txdest (mapTally.find txdest) out := by
  unfold tallyOutput countFor listed
  cases hdest : view.extractDestination out.2.scriptPubKey with
  | none => simp
  | some other =>
    by_cases hsame : txdest=other
    · subst hsame
      grind [find_set_self]
    · have hother : ¬other=txdest := fun h => hsame h.symm
      grind [find_set_of_ne]

theorem find_foldl_tallyOutput (outs : List (COutPoint×CTxOut))
    (mapTally : OrderedMap D (CompactTallyItem D)) (txdest : D) :
    (outs.foldl (tallyOutput view request) mapTally).find txdest=
      outs.foldl (countFor view request txdest) (mapTally.find txdest) := by
  induction outs generalizing mapTally with
  | nil => rfl
  | cons out outs ih => rw [foldl_cons,ih,find_tallyOutput,foldl_cons]

theorem mem_tally_iff (item : CompactTallyItem D) :
    item∈tally view request ↔ (∃ txdest,
      (walletOutputs view request).foldl (countFor view request txdest) none=some item) ∧
      (request.fAnonymizable=true → smallestDenomination ≤ item.nAmount) := by
  have hfind := @find_foldl_tallyOutput D _ view request (walletOutputs view request) .empty
  rw [tally,mem_filter,OrderedMap.values,mem_map]
  refine and_congr ⟨?_,?_⟩ (by cases request.fAnonymizable <;> simp)
  · rintro ⟨entry,hentry,rfl⟩
    exact ⟨entry.1,(hfind _).symm.trans ((mem_entries_iff _ _ _).mp hentry)⟩
  · rintro ⟨txdest,h⟩
    exact ⟨(txdest,item),(mem_entries_iff _ _ _).mpr ((hfind _).trans h),rfl⟩

theorem length_le_of_limit (hlimit : 1 ≤ request.nMaxOupointsPerAddress) (txdest : D)
    (outs : List (COutPoint×CTxOut)) (itTallyItem : Option (CompactTallyItem D))
    (hle : ∀ item∈itTallyItem, (item.vecOutPoints.length : ℤ) ≤ request.nMaxOupointsPerAddress) :
    ∀ item∈outs.foldl (countFor view request txdest) itTallyItem,
      (item.vecOutPoints.length : ℤ) ≤ request.nMaxOupointsPerAddress := by
  induction outs generalizing itTallyItem with
  | nil => exact hle
  | cons out outs ih =>
    refine ih _ ?_
    intro item hitem
    rw [countFor] at hitem
    split at hitem
    case isFalse => exact hle item hitem
    case isTrue hroom =>
      cases hitem
      cases itTallyItem with
      | none => exact hlimit
      | some item =>
        have hsize : toSize request.nMaxOupointsPerAddress=request.nMaxOupointsPerAddress.toNat :=
          if_neg (by omega)
        simp only [full,hsize,Option.any_some,Bool.and_eq_true,Bool.not_eq_true',
          Bool.and_eq_false_iff,decide_eq_false_iff_not] at hroom
        simp only [addOutput,Option.getD_some,length_append,length_singleton]
        omega

omit [LinearOrder D] in
theorem foldl_addOutput (txdest : D) (outs : List (COutPoint×CTxOut)) (item : CompactTallyItem D) :
    outs.foldl (fun it out => some (addOutput txdest it out)) (some item)=
      some ⟨item.txdest,item.nAmount+(outs.map (fun out => out.2.nValue)).sum,
        item.vecOutPoints++outs.map Prod.fst⟩ := by
  induction outs generalizing item with
  | nil => simp
  | cons out outs ih => simpa [addOutput,add_assoc] using ih (addOutput txdest (some item) out)

theorem mem_tally_unlimited (hunlimited : request.nMaxOupointsPerAddress=-1)
    (item : CompactTallyItem D) :
    item∈tally view request ↔ (∃ txdest, item=groupOf view request txdest) ∧
      item.vecOutPoints≠[] ∧ (request.fAnonymizable=true →
        smallestDenomination ≤ item.nAmount) := by
  have hcount (txdest : D) : (walletOutputs view request).foldl (countFor view request txdest) none=
      ((walletOutputs view request).filter (listed view request txdest)).foldl
        (fun it out => some (addOutput txdest it out)) none := by
    rw [foldl_filter]
    congr 1
    funext it out
    simp only [countFor,full,hunlimited,ne_eq,not_true_eq_false,decide_false,Bool.false_and,
      Bool.not_false,Bool.and_true]
  rw [mem_tally_iff,←and_assoc]
  refine and_congr_left' ?_
  rw [←exists_and_right]
  refine exists_congr fun txdest => ?_
  rw [hcount,groupOf]
  cases (walletOutputs view request).filter (listed view request txdest) with
  | nil =>
    constructor
    · nofun
    · rintro ⟨rfl,hne⟩
      exact absurd rfl hne
  | cons out outs =>
    rw [foldl_cons,foldl_addOutput]
    constructor
    · intro h
      cases h
      simp [addOutput]
    · rintro ⟨rfl,-⟩
      simp [addOutput]

end Groups

variable {D : Type} [LinearOrder D]

/-- A wallet with its groupings, kept by whether denominated outputs are skipped. -/
structure TallyState (D : Type) where
  view : TallyView D
  cached : Bool → Option (List (CompactTallyItem D)) := fun _ => none

/-- The grouping that is returned, and what is kept. -/
def selectCoinsGroupedByAddresses (st : TallyState D) (request : TallyRequest) :
    TallyState D×List (CompactTallyItem D) :=
  match if request.usesCache then st.cached request.fSkipDenominated else none with
  | some vecTally => (st,vecTally)
  | none =>
    let vecTallyRet := tally st.view request
    (if request.usesCache then
      { st with cached := Function.update st.cached request.fSkipDenominated vecTallyRet }
    else st,vecTallyRet)

/-- What happens to a wallet. -/
inductive TallyEvent (D : Type) where
  | select (request : TallyRequest)
  /-- A change of its transactions or a lock, which drops the kept groupings. -/
  | change (view : TallyView D)
  /-- Any other change: blocks with nothing of the wallet, or locks released. -/
  | drift (view : TallyView D)

def step (st : TallyState D) : TallyEvent D → TallyState D
  | .select request => (selectCoinsGroupedByAddresses st request).1
  | .change view => { view := view }
  | .drift view => { st with view := view }

/-- A wallet with the limit and the view for which each kept grouping was computed. -/
structure TallyHistory (D : Type) where
  view : TallyView D
  filled : Bool → Option (ℤ×TallyView D) := fun _ => none

open TallyHistory

def TallyHistory.record (history : TallyHistory D) : TallyEvent D → TallyHistory D
  | .select request =>
    if request.usesCache && (history.filled request.fSkipDenominated).isNone then
      { history with
        filled := Function.update history.filled request.fSkipDenominated
          (some (request.nMaxOupointsPerAddress,history.view)) }
    else history
  | .change view => { view := view }
  | .drift view => { history with view := view }

/-- Kept groupings are those of the recorded limits and views. -/
def Remembers (st : TallyState D) (history : TallyHistory D) : Prop :=
  st.view=history.view ∧ ∀ skip, st.cached skip=
    (history.filled skip).map (fun fill => tally fill.2 ⟨skip,true,true,fill.1⟩)

theorem usesCache_iff (request : TallyRequest) : request.usesCache=true ↔
    request.nMaxOupointsPerAddress≠-1 ∧
      request=⟨request.fSkipDenominated,true,true,request.nMaxOupointsPerAddress⟩ := by
  cases request
  simp [TallyRequest.usesCache,and_assoc]

variable {st : TallyState D} {history : TallyHistory D}

theorem Remembers.step (h : Remembers st history) (event : TallyEvent D) :
    Remembers (step st event) (history.record event) := by
  cases event with
  | change view => exact ⟨rfl,fun _ => rfl⟩
  | drift view => exact ⟨rfl,h.2⟩
  | select request =>
    have hskip := h.2 request.fSkipDenominated
    by_cases huse : request.usesCache=true
    · cases hfill : history.filled request.fSkipDenominated with
      | some fill =>
        simpa [AddressTally.step,selectCoinsGroupedByAddresses,record,huse,hskip,hfill]
          using h
      | none =>
        rw [hfill] at hskip
        simp only [AddressTally.step,selectCoinsGroupedByAddresses,record,huse,hskip,
          hfill,if_true,Option.map_none,Option.isNone_none,Bool.and_self]
        refine ⟨h.1,fun skip => ?_⟩
        dsimp only
        by_cases hsame : skip=request.fSkipDenominated
        · subst hsame
          rw [update_self,update_self,h.1,Option.map_some,←((usesCache_iff request).mp huse).2]
        · rw [update_of_ne hsame,update_of_ne hsame]
          exact h.2 skip
    · simpa [AddressTally.step,selectCoinsGroupedByAddresses,record,huse] using h

theorem remembers_run (events : List (TallyEvent D)) (h : Remembers st history) :
    Remembers (events.foldl step st) (events.foldl record history) := by
  induction events generalizing st history with
  | nil => exact h
  | cons event events ih => exact ih (h.step event)

/-- After any run a call returns the grouping computed anew, if its limit is positive or none and a
grouping kept for it was computed under the same limit for what the wallet still is. -/
theorem select_run_fresh (view : TallyView D) (events : List (TallyEvent D))
    (request : TallyRequest)
    (hlimit : request.nMaxOupointsPerAddress=-1 ∨ 1 ≤ request.nMaxOupointsPerAddress)
    (hfill : request.usesCache=true → ∀ fill∈
      (events.foldl record { view := view }).filled request.fSkipDenominated,
      fill=(request.nMaxOupointsPerAddress,(events.foldl step { view := view }).view)) :
    let st := events.foldl step { view := view }
    let answer := (selectCoinsGroupedByAddresses st request).2
    answer=(selectCoinsGroupedByAddresses { st with cached := fun _ => none } request).2 ∧
    (request.nMaxOupointsPerAddress≠-1 → ∀ item∈answer,
      (item.vecOutPoints.length : ℤ) ≤ request.nMaxOupointsPerAddress) ∧
    (request.nMaxOupointsPerAddress=-1 → ∀ item, item∈answer ↔
      (∃ txdest, item=groupOf st.view request txdest) ∧ item.vecOutPoints≠[] ∧
        (request.fAnonymizable=true → smallestDenomination ≤ item.nAmount)) := by
  have hstart : Remembers { view := view } { view := view } := ⟨rfl,fun _ => rfl⟩
  have h := remembers_run events hstart
  generalize events.foldl step { view := view }=st at h hfill
  generalize events.foldl record { view := view }=history at h hfill
  have hfresh : (selectCoinsGroupedByAddresses { st with cached := fun _ => none } request).2=
      tally st.view request := by
    simp [selectCoinsGroupedByAddresses]
  have hanswer : (selectCoinsGroupedByAddresses st request).2=tally st.view request := by
    by_cases huse : request.usesCache=true
    · rw [selectCoinsGroupedByAddresses,if_pos huse,h.2]
      cases hcached : history.filled request.fSkipDenominated with
      | none => rfl
      | some fill =>
        rw [hfill huse fill hcached,Option.map_some,←((usesCache_iff request).mp huse).2]
    · rw [selectCoinsGroupedByAddresses,if_neg huse]
  dsimp only
  rw [hanswer,hfresh]
  refine ⟨rfl,?_,mem_tally_unlimited⟩
  intro hne item hitem
  obtain ⟨⟨txdest,hitem⟩,-⟩ := (mem_tally_iff item).mp hitem
  exact length_le_of_limit (hlimit.resolve_left hne) txdest _ none nofun item hitem

/-- A confirmed transaction with two outputs of one address. -/
def sampleView : TallyView ℕ where
  node := youngNode
  wallet :=
    { mapWallet := OrderedMap.empty.set 5
        { tx := { vout := [⟨coin,[]⟩,⟨coin,[]⟩], hash := 5,
                  payload_special := CTransaction.payload_plain },
          hashBlock := 7, nIndex := 0 } }
  setWalletUTXO := [⟨5,0⟩,⟨5,1⟩]
  extractDestination := fun _ => some 0
  isMine := fun _ => true
  nPrivateSendRounds := 2
  getCappedOutpointPrivateSendRounds := fun _ => -2

/-- Two calls under one limit. -/
theorem select_run_fresh_twice :
    (selectCoinsGroupedByAddresses (step { view := sampleView }
      (.select { nMaxOupointsPerAddress := 1 })) { nMaxOupointsPerAddress := 1 }).2=
    (selectCoinsGroupedByAddresses { view := sampleView } { nMaxOupointsPerAddress := 1 }).2 :=
  (select_run_fresh sampleView [.select { nMaxOupointsPerAddress := 1 }]
    { nMaxOupointsPerAddress := 1 } (.inr le_rfl) (by
      intro _ fill hfill
      cases hfill
      rfl)).1

/-- A call with the limit 2 gets the grouping of an earlier call with the limit 1. -/
theorem select_stale :
    (selectCoinsGroupedByAddresses (step { view := sampleView }
      (.select { nMaxOupointsPerAddress := 1 })) { nMaxOupointsPerAddress := 2 }).2=
        [⟨0,coin,[⟨5,0⟩]⟩] ∧
    (selectCoinsGroupedByAddresses { view := sampleView } { nMaxOupointsPerAddress := 2 }).2=
      [⟨0,2*coin,[⟨5,0⟩,⟨5,1⟩]⟩] := by
  decide

end Pyrk.AddressTally
