import Pyrk.ProviderTx
import Pyrk.PrivateSend

/-!
# Coins of the wallet

Callers ask for a type of coins. Locked coins should not be listed except as collaterals of
masternodes, but an output that could be one is listed for any type.
-/

namespace Pyrk.WalletCoins

open Transaction ProviderTx PrivateSend List Bool

inductive AvailableCoinsType where
  | allCoins
  | onlyDenominated
  | onlyNonDenominated
  | onlyCollateral
  | onlyPrivateSendCollateral
  deriving DecidableEq

/-- Whether an output belongs to the wallet. -/
inductive IsMineType where
  | no
  /-- It is watched, and the wallet does not know how to spend it. -/
  | watchUnsolvable
  /-- It is watched, and keys are all that is missing. -/
  | watchSolvable
  | spendable
  deriving DecidableEq

/-- A transaction of the wallet. -/
structure CWalletTx where
  tx : CTransaction
  nLockTime : ℕ := 0
  nSequence : List ℕ := []
  /-- Block of the transaction; zero is unset and one abandoned. -/
  hashBlock : Uint256 := 0
  nIndex : ℤ := -1

structure CWallet where
  mapWallet : OrderedMap Uint256 CWalletTx
  mapTxSpends : List (COutPoint×Uint256) := []
  setLockedCoins : List COutPoint := []

/-- What the wallet knows about coins that the user picked. -/
structure CCoinControl where
  setSelected : List COutPoint := []
  fAllowOtherInputs : Bool := false
  fAllowWatchOnly : Bool := false

structure WalletNode where
  view : ChainView
  isMine : CTxOut → IsMineType
  isLockedInstantSendTransaction : Uint256 → Bool := fun _ => false
  adjustedTime : ℤ := 0
  nInstantSendConfirmationsRequired : ℤ := 0
  /-- Own change may be spent without a confirmation. -/
  bSpendZeroConfChange : Bool := true

/-- Lock times below are heights. -/
def locktimeThreshold : ℤ := 500000000

def sequenceFinal : ℕ := 0xffffffff

def abandonHash : Uint256 := 1

/-- Blocks after which a coinbase may be spent. -/
def coinbaseMaturity : ℤ := 100

variable (node : WalletNode) (wallet : CWallet)

section Transactions

variable (wtx : CWalletTx)

/-- Whether a transaction is final at a height and a time. -/
def isFinalTx (nBlockHeight nBlockTime : ℤ) : Bool :=
  if wtx.nLockTime=0 then true
  else if (wtx.nLockTime : ℤ) <
      (if (wtx.nLockTime : ℤ) < locktimeThreshold then nBlockHeight else nBlockTime) then true
  else wtx.nSequence.all (fun nSequence => nSequence=sequenceFinal)

/-- Whether a transaction is final in the next block. -/
def checkFinalTx : Bool := isFinalTx wtx (node.view.nHeight+1) node.adjustedTime

/-- Blocks on top of a transaction, its own included; negative in a conflict. -/
def getDepthInMainChain : ℤ :=
  if wtx.hashBlock=0 ∨ wtx.hashBlock=abandonHash then 0
  else
    match node.view.chain.findIdx? (fun block => block.hash=wtx.hashBlock) with
    | none => 0
    | some nHeight => (if wtx.nIndex=-1 then -1 else 1)*(node.view.nHeight-nHeight+1)

/-- Blocks until a coinbase may be spent. -/
def getBlocksToMaturity : ℤ :=
  if !wtx.tx.isCoinBase then 0 else max 0 (coinbaseMaturity+1-getDepthInMainChain node wtx)

/-- Whether the pool has a transaction. -/
def inMempool : Bool := (node.view.mempool wtx.tx.hash).isSome

/-- Amount that an input takes from the wallet. -/
def getDebit (txin : CTxIn) : ℤ :=
  match wallet.mapWallet.find txin.prevout.hash with
  | none => 0
  | some prev =>
    match prev.tx.vout[txin.prevout.n]? with
    | none => 0
    | some out => if node.isMine out≠.no then out.nValue else 0

/-- Whether a transaction takes something from the wallet. -/
def isFromMe : Bool := 0<(wtx.tx.vin.map (getDebit node wallet)).sum

/-- Whether a transaction is confirmed or safe to build on. -/
def isTrusted : Bool :=
  if !checkFinalTx node wtx then false
  else if 1≤getDepthInMainChain node wtx then true
  else if getDepthInMainChain node wtx<0 then false
  else if node.isLockedInstantSendTransaction wtx.tx.hash then true
  else if !node.bSpendZeroConfChange || !isFromMe node wallet wtx then false
  else if !inMempool node wtx then false
  else
    wtx.tx.vin.all (fun txin =>
      match wallet.mapWallet.find txin.prevout.hash with
      | none => false
      | some parent =>
        match parent.tx.vout[txin.prevout.n]? with
        | none => false
        | some parentOut => node.isMine parentOut=.spendable)

end Transactions

section Outputs

/-- Whether a transaction that counts spends an output. -/
def isSpent (outpoint : COutPoint) : Bool :=
  wallet.mapTxSpends.any (fun spend => spend.1=outpoint &&
    match wallet.mapWallet.find spend.2 with
    | none => false
    | some wtx => 0<getDepthInMainChain node wtx ||
        (getDepthInMainChain node wtx=0 && wtx.hashBlock≠abandonHash))

def lockCoin (output : COutPoint) : CWallet :=
  { wallet with setLockedCoins := output::wallet.setLockedCoins }

def isLockedCoin (output : COutPoint) : Bool := wallet.setLockedCoins.contains output

/-- Whether an output is of the type that is asked for. -/
def coinFound (nCoinType : AvailableCoinsType) (outbind : COutPoint) (nValue : ℤ) : Bool :=
  if nCoinType=.onlyDenominated then isDenominatedAmount nValue
  else if nCoinType=.onlyNonDenominated then
    if isCollateralAmount nValue then false else !isDenominatedAmount nValue
  else if validateCollateral node.view outbind then true
  else if nCoinType=.onlyPrivateSendCollateral then isCollateralAmount nValue
  else true

structure CoinsRequest where
  fOnlyConfirmed : Bool := true
  coinControl : Option CCoinControl := none
  fIncludeZeroValue : Bool := false
  nCoinType : AvailableCoinsType := .allCoins
  fUseInstantSend : Bool := false

/-- A coin that is listed. -/
structure COutput where
  /-- Hash under which the wallet has the transaction. -/
  wtxid : Uint256
  tx : CWalletTx
  i : ℕ
  nDepth : ℤ
  fSpendable : Bool
  fSolvable : Bool

variable (request : CoinsRequest)

/-- Whether outputs of a transaction are looked at. -/
def txUsable (pcoin : CWalletTx) : Bool :=
  if !checkFinalTx node pcoin then false
  else if request.fOnlyConfirmed && !isTrusted node wallet pcoin then false
  else if pcoin.tx.isCoinBase && 0 < getBlocksToMaturity node pcoin then false
  else if request.fUseInstantSend &&
      getDepthInMainChain node pcoin<node.nInstantSendConfirmationsRequired then false
  else if getDepthInMainChain node pcoin=0 && !inMempool node pcoin then false
  else true

def coinAllowed (output : COutPoint) : Bool :=
  match request.coinControl with
  | none => true
  | some coinControl => coinControl.setSelected.isEmpty || coinControl.fAllowOtherInputs ||
      coinControl.setSelected.contains output

/-- An output of a transaction, if it is listed. -/
def availableOutput (wtxid : Uint256) (pcoin : CWalletTx) (i : ℕ) (txout : CTxOut) :
    Option COutput :=
  if !coinFound node request.nCoinType ⟨pcoin.tx.hash,i⟩ txout.nValue then none
  else if !isSpent node wallet ⟨wtxid,i⟩ && node.isMine txout≠.no &&
      (!isLockedCoin wallet ⟨wtxid,i⟩ || validateCollateral node.view ⟨pcoin.tx.hash,i⟩) &&
      (0<txout.nValue || request.fIncludeZeroValue) && coinAllowed request ⟨wtxid,i⟩ then
    some ⟨wtxid,pcoin,i,getDepthInMainChain node pcoin,
      node.isMine txout=.spendable || (request.coinControl.any CCoinControl.fAllowWatchOnly &&
        node.isMine txout=.watchSolvable),
      node.isMine txout=.spendable || node.isMine txout=.watchSolvable⟩
  else none

/-- Coins that the wallet lists. -/
def availableCoins : List COutput :=
  wallet.mapWallet.entries.flatMap (fun entry =>
    if txUsable node wallet request entry.2 then
      entry.2.tx.vout.zipIdx.filterMap (fun out =>
        availableOutput node wallet request entry.1 entry.2 out.2 out.1)
    else [])

end Outputs

section Offers

def FitsType (nCoinType : AvailableCoinsType) (outbind : COutPoint) (nValue : ℤ) : Prop :=
  match nCoinType with
  | .allCoins => True
  | .onlyDenominated => isDenominatedAmount nValue=true
  | .onlyNonDenominated => isDenominatedAmount nValue=false ∧ isCollateralAmount nValue=false
  | .onlyCollateral => validateCollateral node.view outbind=true
  | .onlyPrivateSendCollateral => isCollateralAmount nValue=true

/-- A coin is unspent, belongs to the wallet, is not locked unless collaterals are asked for,
and fits the type that is asked for. -/
structure RightlyOffered (nCoinType : AvailableCoinsType) (coin : COutput)
  (txout : CTxOut) : Prop where
  output : coin.tx.tx.vout[coin.i]?=some txout
  unspent : isSpent node wallet ⟨coin.wtxid,coin.i⟩=false
  ours : node.isMine txout≠.no
  unlocked : nCoinType≠.onlyCollateral → isLockedCoin wallet ⟨coin.wtxid,coin.i⟩=false
  fits : FitsType node nCoinType ⟨coin.tx.tx.hash,coin.i⟩ txout.nValue

/-- An output that would be listed but for its type and its lock. -/
structure Candidate (request : CoinsRequest) (wtxid : Uint256) (pcoin : CWalletTx) (i : ℕ)
    (txout : CTxOut) : Prop where
  stored : wallet.mapWallet.find wtxid=some pcoin
  usable : txUsable node wallet request pcoin=true
  output : pcoin.tx.vout[i]?=some txout
  unspent : isSpent node wallet ⟨wtxid,i⟩=false
  ours : node.isMine txout≠.no
  /-- The output has an amount, or those without one count. -/
  value : 0<txout.nValue ∨ request.fIncludeZeroValue=true
  allowed : coinAllowed request ⟨wtxid,i⟩=true

/-- The test for collaterals of masternodes does no harm to an output. -/
def Harmless (nCoinType : AvailableCoinsType) (outbind : COutPoint) (locked : Bool) (nValue : ℤ) :
    Prop :=
  match nCoinType with
  | .allCoins => locked=true → validateCollateral node.view outbind=false
  | .onlyDenominated => isDenominatedAmount nValue=true → locked=true →
    validateCollateral node.view outbind=false
  | .onlyNonDenominated => isDenominatedAmount nValue=false → isCollateralAmount nValue=false →
    locked=true → validateCollateral node.view outbind=false
  | .onlyCollateral => locked=false → validateCollateral node.view outbind=true
  | .onlyPrivateSendCollateral => validateCollateral node.view outbind=true →
    locked=false ∧ isCollateralAmount nValue=true

variable {node wallet} {request : CoinsRequest} {coin : COutput} {txout : CTxOut}

/-- The coins that are listed are candidates of the type that are not locked or could be
collaterals. -/
theorem mem_availableCoins :
    coin∈availableCoins node wallet request ↔
      ∃ txout, Candidate node wallet request coin.wtxid coin.tx coin.i txout ∧
        coinFound node request.nCoinType ⟨coin.tx.tx.hash,coin.i⟩ txout.nValue=true ∧
        (isLockedCoin wallet ⟨coin.wtxid,coin.i⟩=false ∨
          validateCollateral node.view ⟨coin.tx.tx.hash,coin.i⟩=true) ∧
        availableOutput node wallet request coin.wtxid coin.tx coin.i txout=some coin := by
  rw [availableCoins,mem_flatMap]
  constructor
  · intro h
    obtain ⟨entry,hentry,hm⟩ := h
    by_cases husable : txUsable node wallet request entry.2=true
    · rw [if_pos husable,mem_filterMap] at hm
      obtain ⟨out,hout,hsome⟩ := hm
      have hplace := mem_zipIdx_iff_getElem?.mp hout
      have hlisted := hsome
      rw [availableOutput] at hsome
      by_cases hfound : coinFound node request.nCoinType ⟨entry.2.tx.hash,out.2⟩ out.1.nValue=true
      · rw [hfound,Bool.not_true,if_neg Bool.false_ne_true] at hsome
        split at hsome
        case isFalse => cases hsome
        case isTrue hpass =>
          cases hsome
          simp only [and_eq_true,or_eq_true,not_eq_true',decide_eq_true_eq] at hpass
          obtain ⟨⟨⟨⟨hspent,hours⟩,hlock⟩,hvalue⟩,hallowed⟩ := hpass
          exact ⟨out.1,⟨(wallet.mapWallet.mem_entries_iff entry.1 entry.2).mp hentry,husable,hplace,
            hspent,hours,hvalue,hallowed⟩,hfound,hlock,hlisted⟩
      · rw [Bool.eq_false_of_not_eq_true hfound,Bool.not_false,if_pos rfl] at hsome
        cases hsome
    · rw [if_neg husable] at hm
      exact absurd hm not_mem_nil
  · intro h
    obtain ⟨txout,hcand,-,-,hlisted⟩ := h
    refine ⟨(coin.wtxid,coin.tx),(wallet.mapWallet.mem_entries_iff _ _).mpr hcand.stored,?_⟩
    rw [if_pos hcand.usable,mem_filterMap]
    exact ⟨(txout,coin.i),mem_zipIdx_iff_getElem?.mpr hcand.output,hlisted⟩

theorem Candidate.listed {wtxid : Uint256} {pcoin : CWalletTx} {i : ℕ}
    (h : Candidate node wallet request wtxid pcoin i txout)
    (hfound : coinFound node request.nCoinType ⟨pcoin.tx.hash,i⟩ txout.nValue=true)
    (hlock : isLockedCoin wallet ⟨wtxid,i⟩=false ∨
      validateCollateral node.view ⟨pcoin.tx.hash,i⟩=true) :
    ∃ coin∈availableCoins node wallet request, coin.wtxid=wtxid ∧ coin.tx=pcoin ∧ coin.i=i := by
  have hsome : ∃ coin, availableOutput node wallet request wtxid pcoin i txout=some coin ∧
      coin.wtxid=wtxid ∧ coin.tx=pcoin ∧ coin.i=i := by
    have hpass : (!isSpent node wallet ⟨wtxid,i⟩ && node.isMine txout≠.no &&
        (!isLockedCoin wallet ⟨wtxid,i⟩ || validateCollateral node.view ⟨pcoin.tx.hash,i⟩) &&
        (0<txout.nValue || request.fIncludeZeroValue) && coinAllowed request ⟨wtxid,i⟩)=true := by
      simp only [and_eq_true,or_eq_true,not_eq_true',decide_eq_true_eq]
      exact ⟨⟨⟨⟨h.unspent,h.ours⟩,hlock⟩,h.value⟩,h.allowed⟩
    rw [availableOutput,hfound,Bool.not_true,if_neg Bool.false_ne_true,if_pos hpass]
    exact ⟨_,rfl,rfl,rfl,rfl⟩
  obtain ⟨coin,hlisted,rfl,rfl,rfl⟩ := hsome
  exact ⟨coin,mem_availableCoins.mpr ⟨txout,h,hfound,hlock,hlisted⟩,rfl,rfl,rfl⟩

variable {nCoinType : AvailableCoinsType}

theorem fits_of_harmless {outbind : COutPoint} {locked : Bool}
    {nValue : ℤ} (hfound : coinFound node nCoinType outbind nValue=true)
    (hlock : locked=false ∨ validateCollateral node.view outbind=true)
    (hharmless : Harmless node nCoinType outbind locked nValue) :
    (nCoinType≠.onlyCollateral → locked=false) ∧ FitsType node nCoinType outbind nValue := by
  have hboth : (locked=true → validateCollateral node.view outbind=false) → locked=false := by
    grind
  cases nCoinType with
  | allCoins => exact ⟨fun _ => hboth hharmless,trivial⟩
  | onlyDenominated => exact ⟨fun _ => hboth (hharmless hfound),hfound⟩
  | onlyNonDenominated =>
    have hfound' : (if isCollateralAmount nValue then false else
      !isDenominatedAmount nValue)=true :=
      hfound
    by_cases hcoll : isCollateralAmount nValue=true
    · rw [if_pos hcoll] at hfound'
      cases hfound'
    · rw [if_neg hcoll,not_eq_true'] at hfound'
      have hother := Bool.eq_false_of_not_eq_true hcoll
      exact ⟨fun _ => hboth (hharmless hfound' hother),hfound',hother⟩
  | onlyCollateral =>
    refine ⟨fun hne => absurd rfl hne,?_⟩
    cases locked with
    | false => exact hharmless rfl
    | true => exact hlock.resolve_left Bool.noConfusion
  | onlyPrivateSendCollateral =>
    have hfound' : (if validateCollateral node.view outbind then true
      else isCollateralAmount nValue)=true := hfound
    by_cases hvalid : validateCollateral node.view outbind=true
    · exact ⟨fun _ => (hharmless hvalid).1,(hharmless hvalid).2⟩
    · rw [if_neg hvalid] at hfound'
      exact ⟨fun _ => hlock.resolve_right hvalid,hfound'⟩

theorem harmless_of_fits {outbind : COutPoint} {locked : Bool}
    {nValue : ℤ} (h : coinFound node nCoinType outbind nValue=true →
      (locked=false ∨ validateCollateral node.view outbind=true) →
      (nCoinType≠.onlyCollateral → locked=false) ∧ FitsType node nCoinType outbind nValue) :
    Harmless node nCoinType outbind locked nValue := by
  have hnever : nCoinType≠.onlyCollateral → coinFound node nCoinType outbind nValue=true →
      locked=true → validateCollateral node.view outbind=false := by
    grind
  cases nCoinType with
  | allCoins => exact hnever (by decide) (ite_self _)
  | onlyDenominated => exact fun hdenom => hnever (by decide) hdenom
  | onlyNonDenominated =>
    intro hdenom hcoll
    refine hnever (by decide) ?_
    show (if isCollateralAmount nValue then false else !isDenominatedAmount nValue)=true
    rw [hcoll,hdenom]
    rfl
  | onlyCollateral => exact fun hunlocked => (h (ite_self _) (.inl hunlocked)).2
  | onlyPrivateSendCollateral =>
    intro hvalid
    have hgood := h (if_pos hvalid) (.inr hvalid)
    exact ⟨hgood.1 (by decide),hgood.2⟩

/-- Coins are listed rightly exactly if the test for collaterals of masternodes does no harm
to any candidate. -/
theorem availableCoins_right_iff (node : WalletNode) (wallet : CWallet) (request : CoinsRequest) :
    (∀ coin∈availableCoins node wallet request,
        ∃ txout, RightlyOffered node wallet request.nCoinType coin txout) ↔
      ∀ wtxid pcoin i txout, Candidate node wallet request wtxid pcoin i txout →
        Harmless node request.nCoinType ⟨pcoin.tx.hash,i⟩ (isLockedCoin wallet ⟨wtxid,i⟩)
          txout.nValue := by
  constructor
  · intro h wtxid pcoin i txout hcand
    refine harmless_of_fits ?_
    intro hfound hlock
    obtain ⟨coin,hcoin,rfl,rfl,rfl⟩ := hcand.listed hfound hlock
    obtain ⟨other,hright⟩ := h coin hcoin
    have hsame := hright.output.symm.trans hcand.output
    cases hsame
    exact ⟨hright.unlocked,hright.fits⟩
  · intro h coin hcoin
    obtain ⟨txout,hcand,hfound,hlock,-⟩ := mem_availableCoins.mp hcoin
    obtain ⟨hunlocked,hfits⟩ := fits_of_harmless hfound hlock (h _ _ _ _ hcand)
    exact ⟨txout,hcand.output,hcand.unspent,hcand.ours,hunlocked,hfits⟩

end Offers

/-- A transaction with an output of 1000 coins and one of a single coin. -/
def twoOutputs : CTransaction :=
  { vout := [⟨1000*coin,[]⟩,⟨coin,[]⟩], hash := 5, payload_special := CTransaction.payload_plain }

/-- A node with the transaction in its only block. -/
def youngNode : WalletNode where
  view :=
    { chain := [{ hash := 7 }]
      pcoinsTip := (OrderedMap.empty.set ⟨5,0⟩ ⟨⟨1000*coin,[]⟩,false,0⟩).set ⟨5,1⟩
        ⟨⟨coin,[]⟩,false,0⟩
      getListForBlock := fun _ => {} }
  isMine := fun _ => .spendable

/-- A wallet with the transaction, in which the collateral is locked. -/
def lockedWallet : CWallet :=
  lockCoin { mapWallet := OrderedMap.empty.set 5 { tx := twoOutputs, hashBlock := 7, nIndex := 0 }
    } ⟨5,0⟩

/-- The locked collateral is listed among all coins, and when collaterals are asked for
the single coin is listed too. -/
theorem lockedCollateral_listed :
    (∃ coin∈availableCoins youngNode lockedWallet {},
      ¬∃ txout, RightlyOffered youngNode lockedWallet .allCoins coin txout) ∧
    ∃ coin∈availableCoins youngNode lockedWallet { nCoinType := .onlyCollateral },
      ¬∃ txout, RightlyOffered youngNode lockedWallet .onlyCollateral coin txout := by
  have hstored : lockedWallet.mapWallet.find 5=
      some { tx := twoOutputs, hashBlock := 7, nIndex := 0 } := rfl
  constructor
  · have hcand : Candidate youngNode lockedWallet {} 5
        { tx := twoOutputs, hashBlock := 7, nIndex := 0 } 0 ⟨1000*Transaction.coin,[]⟩ :=
      ⟨hstored,by decide,rfl,by decide,by decide,.inl (by decide),rfl⟩
    obtain ⟨coin,hcoin,hid,-,hi⟩ := hcand.listed (by decide) (.inr (by decide))
    refine ⟨coin,hcoin,fun hright => ?_⟩
    obtain ⟨txout,hright⟩ := hright
    have hunlocked := hright.unlocked (by decide)
    rw [hid,hi] at hunlocked
    exact absurd hunlocked (by decide)
  · have hcand : Candidate youngNode lockedWallet { nCoinType := .onlyCollateral } 5
        { tx := twoOutputs, hashBlock := 7, nIndex := 0 } 1 ⟨Transaction.coin,[]⟩ :=
      ⟨hstored,by decide,rfl,by decide,by decide,.inl (by decide),rfl⟩
    obtain ⟨coin,hcoin,-,htx,hi⟩ := hcand.listed (by decide) (.inl (by decide))
    refine ⟨coin,hcoin,fun hright => ?_⟩
    obtain ⟨txout,hright⟩ := hright
    have hfits : validateCollateral youngNode.view ⟨coin.tx.tx.hash,coin.i⟩=true := hright.fits
    rw [htx,hi] at hfits
    exact absurd hfits (by decide)

end Pyrk.WalletCoins
