import Pyrk.ChainParams
import Pyrk.Transaction
import Mathlib.Algebra.BigOperators.Intervals
import Mathlib.Algebra.Order.BigOperators.Group.List
import Mathlib.Algebra.Order.Ring.Int

/-!
# Superblock payments in the coinbase

A superblock schedules payments. The check walks them in order and looks for each one from the
output of the payment before it.
-/

namespace Pyrk.Superblock

open ChainParams Script Transaction List CTransaction CTxOut

def isValidBlockHeight (network : Network) (nBlockHeight : ℕ) : Bool :=
  nSuperblockStartBlock network≤nBlockHeight && nBlockHeight%nSuperblockCycle network=0

/-- Subsidy of the block proper, or the part reserved for superblocks. The source computes the
reduced subsidy in floating point. -/
def getBlockSubsidy (nSubsidy : ℕ → ℤ) (network : Network) (nHeight : ℕ)
    (fSuperblockPartOnly : Bool) : ℤ :=
  let nSuperblockPart := if nSuperblockStartBlock network≤nHeight then nSubsidy nHeight/10 else 0
  if fSuperblockPartOnly then nSuperblockPart else nSubsidy nHeight-nSuperblockPart

/-- What the payments of a superblock at this height may add up to. -/
def getPaymentsLimit (nSubsidy : ℕ → ℤ) (network : Network) (nBlockHeight : ℕ) : ℤ :=
  if !isValidBlockHeight network nBlockHeight then 0
  else getBlockSubsidy nSubsidy network nBlockHeight true*nSuperblockCycle network

structure CGovernancePayment where
  script : CScript
  nAmount : ℤ
  /-- The schedule parser only admits amounts in range. -/
  inRange : moneyRange nAmount=true
  deriving DecidableEq

/-- Sum of the scheduled payments. -/
def getPaymentsTotalAmount (vecPayments : List CGovernancePayment) : ℤ :=
  (vecPayments.map CGovernancePayment.nAmount).sum

/-- An output carries a payment when script and amount agree. -/
def paymentMatch (payment : CGovernancePayment) (out : CTxOut) : Bool :=
  payment.script=out.scriptPubKey && payment.nAmount=out.nValue

/-- First output from an index on that carries the payment. -/
def findPayment (vout : List CTxOut) (payment : CGovernancePayment) (nVoutIndex : ℕ) : Option ℕ :=
  (List.range' nVoutIndex (vout.length-nVoutIndex)).find? (fun j =>
    match vout[j]? with
    | some out => paymentMatch payment out
    | none => false)

/-- Walk the payments; the search for the next payment starts at the output
of the one just found. -/
def matchPayments (vout : List CTxOut) : ℕ → List CGovernancePayment → Bool
  | _,[] => true
  | nVoutIndex,payment::payments =>
    match findPayment vout payment nVoutIndex with
    | none => false
    | some j => matchPayments vout j payments

/-- The coinbase check of a superblock; `none` where summing the outputs
throws. -/
def isValid (nSubsidy : ℕ → ℤ) (network : Network) (vecPayments : List CGovernancePayment)
    (txNew : CTransaction) (nBlockHeight : ℕ) (blockReward : ℤ) : Option Bool :=
  if !isValidBlockHeight network nBlockHeight then some false
  else if txNew.vout.length<vecPayments.length then some false
  else if getPaymentsLimit nSubsidy network nBlockHeight<getPaymentsTotalAmount vecPayments then
    some false
  else
    match txNew.getValueOut with
    | none => none
    | some nBlockValue =>
      if blockReward+getPaymentsTotalAmount vecPayments<nBlockValue then some false
      else some (matchPayments txNew.vout 0 vecPayments)

variable {first second : CGovernancePayment}

variable {payment : CGovernancePayment}

variable {vout : List CTxOut}

theorem findPayment_some {nVoutIndex j : ℕ} (h : findPayment vout payment nVoutIndex=some j) :
    nVoutIndex≤j ∧ ∃ out, vout[j]?=some out ∧ paymentMatch payment out=true := by
  have hm := mem_of_find?_eq_some h
  have hp := find?_some h
  refine ⟨(mem_range'_1.mp hm).1,?_⟩
  cases hv : vout[j]? with
  | none => rw [hv] at hp; cases hp
  | some out => rw [hv] at hp; exact ⟨out,rfl,hp⟩

theorem findPayment_exists {nVoutIndex j : ℕ}
    {out : CTxOut} (hj : nVoutIndex≤j) (ho : vout[j]?=some out)
    (hm : paymentMatch payment out=true) :
    ∃ found, findPayment vout payment nVoutIndex=some found ∧ found≤j := by
  have hlt : j<vout.length := (List.getElem?_eq_some_iff.mp ho).1
  have hmem : j∈List.range' nVoutIndex (vout.length-nVoutIndex) :=
    mem_range'_1.mpr ⟨hj,by omega⟩
  cases hf : findPayment vout payment nVoutIndex with
  | none =>
    have hn := List.find?_eq_none.mp hf j hmem
    simp only [ho,hm,not_true_eq_false] at hn
  | some found =>
    refine ⟨found,rfl,?_⟩
    by_contra hgt
    obtain ⟨before,after,hsplit,hbefore⟩ := (List.find?_eq_some_iff_append.mp hf).2
    grind

variable {payments : List CGovernancePayment}

theorem sumOut_some {start total : ℤ}
    (h : sumOut start vout=some total) : start+(vout.map nValue).sum=total := by
  induction vout generalizing start with
  | nil =>
    cases h
    simp only [map_nil,sum_nil,add_zero]
  | cons out tail ih =>
    unfold sumOut at h
    split_ifs at h
    rw [map_cons,sum_cons,←add_assoc]
    exact ih h

theorem sumOut_inRange {start : ℤ} (hs : 0 ≤ start) (hv : ∀ out∈vout, moneyRange out.nValue=true)
    (ht : start+(vout.map nValue).sum ≤ maxMoney) :
    sumOut start vout=some (start+(vout.map nValue).sum) := by
  induction vout generalizing start with
  | nil => simp only [sumOut,map_nil,sum_nil,add_zero]
  | cons out tail ih =>
    have hout := hv out mem_cons_self
    have htail : ∀ other∈tail, moneyRange other.nValue=true :=
      fun other ho => hv other (mem_cons_of_mem _ ho)
    have hrange := hout
    simp only [moneyRange,Bool.and_eq_true,decide_eq_true_eq] at hrange
    have hrest : 0≤(tail.map nValue).sum := by
      refine sum_nonneg ?_
      intro value hvalue
      obtain ⟨other,ho,rfl⟩ := mem_map.mp hvalue
      have := htail other ho
      simp only [moneyRange,Bool.and_eq_true,decide_eq_true_eq] at this
      exact this.1
    rw [map_cons,sum_cons] at ht ⊢
    have hnext : moneyRange (start+out.nValue)=true := by
      simp only [moneyRange,Bool.and_eq_true,decide_eq_true_eq]
      omega
    unfold sumOut
    grind

variable {nSubsidy : ℕ → ℤ} {network : Network} {vecPayments : List CGovernancePayment}
  {nBlockHeight : ℕ}

/-- The output that carries a payment. -/
def payOut (payment : CGovernancePayment) : CTxOut := ⟨payment.nAmount,payment.script⟩

theorem paymentMatch_payOut (payment : CGovernancePayment) :
    paymentMatch payment (payOut payment)=true := by
  simp only [paymentMatch,payOut,decide_true,Bool.and_self]

theorem matchPayments_mono
    {early late : ℕ} (hle : early≤late) (h : matchPayments vout late payments=true) :
    matchPayments vout early payments=true := by
  induction payments generalizing early late with
  | nil => rfl
  | cons payment payments ih =>
    unfold matchPayments at h ⊢
    cases hf : findPayment vout payment late with
    | none => rw [hf] at h; cases h
    | some j =>
      rw [hf] at h
      obtain ⟨hj,out,ho,hm⟩ := findPayment_some hf
      obtain ⟨found,hfound,hfj⟩ := findPayment_exists (hle.trans hj) ho hm
      rw [hfound]
      exact ih hfj h

theorem matchPayments_cons {j : ℕ} (ho : vout[j]?=some (payOut payment))
    (h : matchPayments vout j payments=true) : matchPayments vout j (payment::payments)=true := by
  obtain ⟨found,hfound,hfj⟩ := findPayment_exists (le_refl j) ho (paymentMatch_payOut payment)
  unfold matchPayments
  rw [hfound]
  exact matchPayments_mono hfj h

theorem matchPayments_segment (before after : List CTxOut) (payments rest : List CGovernancePayment)
    (h : matchPayments (before++payments.map payOut++after) (before.length+payments.length)
      rest=true) :
    matchPayments (before++payments.map payOut++after) before.length (payments++rest)=true := by
  induction payments generalizing before with
  | nil => exact h
  | cons payment payments ih =>
    have hlist : before++(payment::payments).map payOut++after=
        (before++[payOut payment])++payments.map payOut++after := by
      simp only [map_cons,append_assoc,cons_append,nil_append]
    have hlen : (before++[payOut payment]).length=before.length+1 := by
      simp only [length_append,length_singleton]
    have hout : (before++(payment::payments).map payOut++after)[before.length]?=
        some (payOut payment) := by
      rw [append_assoc,getElem?_append_right (le_refl _),Nat.sub_self]
      rfl
    have hrest := ih (before++[payOut payment]) (by
      rw [←hlist,hlen,Nat.add_assoc,Nat.add_comm 1]
      exact h)
    rw [←hlist,hlen] at hrest
    exact matchPayments_cons hout (matchPayments_mono (Nat.le_succ _) hrest)

variable (before : List CGovernancePayment)

theorem getPaymentsTotalAmount_nonneg (payments : List CGovernancePayment) :
    0≤getPaymentsTotalAmount payments := by
  refine sum_nonneg ?_
  intro amount ha
  obtain ⟨payment,-,rfl⟩ := mem_map.mp ha
  have := payment.inRange
  simp only [moneyRange,Bool.and_eq_true,decide_eq_true_eq] at this
  exact this.1

theorem sum_payOut (payments : List CGovernancePayment) :
    ((payments.map payOut).map nValue).sum=getPaymentsTotalAmount payments := by
  rw [map_map]
  rfl

/-- Pay-to-pubkey-hash script with a constant key hash. -/
def sampleScript (byte : UInt8) : CScript :=
  [opDup,opHash160,0x14]++List.replicate 20 byte++[opEqualVerify,opCheckSig]

/-- A payment of five coins. -/
def samplePayment (byte : UInt8) : CGovernancePayment := ⟨sampleScript byte,5*coin,by decide⟩

/-- Coinbase with one payment of five coins and ninety coins for the miner. -/
def sampleCoinbase : CTransaction where
  vin := [{ prevout := COutPoint.null }]
  vout := [⟨5*coin,sampleScript 1⟩,⟨90*coin,sampleScript 9⟩]
  hash := 1
  payload_special := payload_plain

end Pyrk.Superblock
