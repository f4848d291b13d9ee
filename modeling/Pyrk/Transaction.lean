import Pyrk.Script
import Pyrk.NetAddress
import Mathlib.Data.Prod.Lex
import Mathlib.Algebra.Group.Nat.Defs

/-!
# Transactions, special payloads and blocks

Hashes are opaque numbers with zero as the null value. A transaction and a
block carry the hash that the node caches for them. The extra payload of a
special transaction is kept in decoded form, as its own type decodes it.
-/

namespace Pyrk.Transaction

open Script NetAddress

/-- A 256-bit hash; zero is the null hash. -/
abbrev Uint256 := ℕ

/-- Hash of a public key; zero is the null key. -/
abbrev CKeyID := ℕ

/-- Smallest units in one coin; amounts are signed. -/
def coin : ℤ := 100000000

/-- Largest valid amount. -/
def maxMoney : ℤ := 100000000*coin

/-- Amounts that consensus accepts. -/
def moneyRange (nValue : ℤ) : Bool := 0≤nValue && nValue ≤ maxMoney

/-- How a peer is told that something was rejected. -/
inductive RejectCode where
  | invalid
  | duplicate
  /-- The object contradicts another one of the same block. -/
  | conflict
  deriving DecidableEq

/-- A recorded validation failure. -/
structure Reject where
  dos : ℕ
  code : RejectCode
  reason : String
  deriving DecidableEq

/-- A position in the output list of a transaction. -/
structure COutPoint where
  hash : Uint256
  n : ℕ
  deriving DecidableEq

namespace COutPoint

/-- The outpoint of the default constructor. -/
def null : COutPoint := ⟨0,2^32-1⟩

/-- Whether the outpoint is the default one. -/
def isNull (outpoint : COutPoint) : Bool := outpoint.hash=0 && outpoint.n=2^32-1

/-- Outpoints are compared by hash and then by index. -/
def key (outpoint : COutPoint) : ℕ×ₗℕ := toLex (outpoint.hash,outpoint.n)

theorem key_injective : Function.Injective key := by
  rintro ⟨hash,n⟩ ⟨otherHash,otherN⟩ he
  have hp : (hash,n)=(otherHash,otherN) := toLex.injective he
  cases hp
  rfl

instance : LinearOrder COutPoint := LinearOrder.lift' key key_injective

end COutPoint

/-- An input with the output it spends. -/
structure CTxIn where
  prevout : COutPoint
  /-- Script that unlocks it; free to choose in a coinbase. -/
  scriptSig : CScript := []
  deriving DecidableEq

/-- An output. -/
structure CTxOut where
  nValue : ℤ
  scriptPubKey : CScript
  deriving DecidableEq

/-- The default output, which marks a spent coin. -/
def CTxOut.null : CTxOut := ⟨-1,[]⟩

/-- Spent coins hold the default amount. -/
def CTxOut.isNull (out : CTxOut) : Bool := out.nValue=-1

/-- An unspent output in the coin set. -/
structure Coin where
  out : CTxOut
  fCoinBase : Bool
  nHeight : ℕ
  deriving DecidableEq

/-- A cleared coin counts as spent. -/
def Coin.isSpent (entry : Coin) : Bool := entry.out.isNull

/-- A curve element with a validity flag. Resetting clears both. -/
structure CBLSWrapper where
  /-- The curve element; zero stands for the identity. -/
  impl : ℕ
  /-- Whether decoding or arithmetic produced a usable element. -/
  fValid : Bool
  reset : fValid=false → impl=0
  deriving DecidableEq

open CBLSWrapper

/-- The default element. -/
def CBLSWrapper.null : CBLSWrapper := ⟨0,false,fun _ => rfl⟩

/-- A usable element. -/
def CBLSWrapper.valid (impl : ℕ) : CBLSWrapper := ⟨impl,true,fun hv => Bool.noConfusion hv⟩

theorem CBLSWrapper.fValid_iff (element : CBLSWrapper) : element.fValid=true ↔ element≠null := by
  obtain ⟨impl,fValid,hr⟩ := element
  cases fValid with
  | true => simp only [null,ne_eq,mk.injEq,Bool.true_eq_false,and_false,not_false_eq_true]
  | false => simp only [null,hr rfl,Bool.false_eq_true,ne_eq,not_true_eq_false]

/-- Operator key of a masternode or public key of a quorum. -/
abbrev CBLSPublicKey := CBLSWrapper

/-- Signature by such a key. -/
abbrev CBLSSignature := CBLSWrapper

/-- Payload of a masternode registration. -/
structure CProRegTx where
  nVersion : ℕ := 1
  nType : ℕ := 0
  nMode : ℕ := 0
  /-- Collateral; a null hash refers to an output of the registration itself. -/
  collateralOutpoint : COutPoint := COutPoint.null
  addr : CService := CService.null
  keyIDOwner : CKeyID := 0
  pubKeyOperator : CBLSPublicKey := null
  keyIDVoting : CKeyID := 0
  nOperatorReward : ℕ := 0
  scriptPayout : CScript := []
  inputsHash : Uint256 := 0
  vchSig : List UInt8 := []
  deriving DecidableEq

/-- Payload of a service update. -/
structure CProUpServTx where
  nVersion : ℕ := 1
  proTxHash : Uint256 := 0
  addr : CService := CService.null
  scriptOperatorPayout : CScript := []
  inputsHash : Uint256 := 0
  sig : CBLSSignature := null
  deriving DecidableEq

/-- Payload of a registrar update. -/
structure CProUpRegTx where
  nVersion : ℕ := 1
  proTxHash : Uint256 := 0
  nMode : ℕ := 0
  pubKeyOperator : CBLSPublicKey := null
  keyIDVoting : CKeyID := 0
  scriptPayout : CScript := []
  inputsHash : Uint256 := 0
  vchSig : List UInt8 := []
  deriving DecidableEq

/-- Payload of an operator revocation. -/
structure CProUpRevTx where
  nVersion : ℕ := 1
  proTxHash : Uint256 := 0
  nReason : ℕ := 0
  inputsHash : Uint256 := 0
  sig : CBLSSignature := null
  deriving DecidableEq

/-- Payload of a coinbase transaction. -/
structure CCbTx where
  nVersion : ℕ := 1
  nHeight : ℤ := 0
  deriving DecidableEq

/-- Aggregated result of one key generation session. -/
structure CFinalCommitment where
  nVersion : ℕ := 1
  llmqType : ℕ := 0xff
  quorumHash : Uint256 := 0
  signers : List Bool := []
  validMembers : List Bool := []
  quorumPublicKey : CBLSPublicKey := null
  quorumVvecHash : Uint256 := 0
  quorumSig : CBLSSignature := null
  membersSig : CBLSSignature := null
  deriving DecidableEq

/-- A commitment with the height it is mined at. -/
structure CFinalCommitmentTxPayload where
  nVersion : ℕ := 1
  nHeight : ℕ := 2^32-1
  commitment : CFinalCommitment := {}
  deriving DecidableEq

inductive TxType where
  | normal
  | providerRegister
  | providerUpdateService
  | providerUpdateRegistrar
  | providerUpdateRevoke
  | coinbase
  | quorumCommitment
  | unknown (nType : ℤ)
  deriving DecidableEq

/-- Extra payload as the transaction's own type decodes it. -/
inductive ExtraPayload where
  | empty
  /-- Bytes that the type does not decode, or not to their end. -/
  | malformed
  | proReg (payload : CProRegTx)
  | proUpServ (payload : CProUpServTx)
  | proUpReg (payload : CProUpRegTx)
  | proUpRev (payload : CProUpRevTx)
  | cbTx (payload : CCbTx)
  | finalCommitment (payload : CFinalCommitmentTxPayload)
  deriving DecidableEq

/-- A transaction with its cached hash. -/
structure CTransaction where
  /-- Transaction version; payloads need version three. -/
  nVersion : ℤ := 2
  nType : TxType := .normal
  vin : List CTxIn := []
  vout : List CTxOut := []
  vExtraPayload : ExtraPayload := .empty
  hash : Uint256
  /-- Only typed transactions of version three are read with a payload. -/
  payload_special : nVersion≠3 ∨ nType=.normal → vExtraPayload=.empty := by decide
  deriving DecidableEq

namespace CTransaction

theorem payload_plain : (2 : ℤ)≠3 ∨ TxType.normal=.normal → ExtraPayload.empty=.empty :=
  fun _ => rfl

variable (tx : CTransaction)

/-- A coinbase has one input, which spends nothing. -/
def isCoinBase : Bool :=
  match tx.vin with
  | [input] => input.prevout.isNull
  | _ => false

/-- Running sum of the outputs; an amount out of range throws. -/
def sumOut : ℤ → List CTxOut → Option ℤ
  | nValueOut,[] => some nValueOut
  | nValueOut,out::tail =>
    if !moneyRange out.nValue || !moneyRange (nValueOut+out.nValue) then none
    else sumOut (nValueOut+out.nValue) tail

/-- Sum of the outputs, or `none` where the source throws. -/
def getValueOut : Option ℤ := sumOut 0 tx.vout

/-- Payload of a registration. -/
def getProRegTx : Option CProRegTx :=
  match tx.vExtraPayload with
  | .proReg payload => some payload
  | _ => none

/-- Payload of a service update. -/
def getProUpServTx : Option CProUpServTx :=
  match tx.vExtraPayload with
  | .proUpServ payload => some payload
  | _ => none

/-- Payload of a registrar update. -/
def getProUpRegTx : Option CProUpRegTx :=
  match tx.vExtraPayload with
  | .proUpReg payload => some payload
  | _ => none

/-- Payload of an operator revocation. -/
def getProUpRevTx : Option CProUpRevTx :=
  match tx.vExtraPayload with
  | .proUpRev payload => some payload
  | _ => none

/-- Payload of a coinbase. -/
def getCbTx : Option CCbTx :=
  match tx.vExtraPayload with
  | .cbTx payload => some payload
  | _ => none

/-- Payload of a mined quorum commitment. -/
def getFinalCommitment : Option CFinalCommitmentTxPayload :=
  match tx.vExtraPayload with
  | .finalCommitment payload => some payload
  | _ => none

theorem getFinalCommitment_version {tx : CTransaction} {payload : CFinalCommitmentTxPayload}
    (hp : tx.getFinalCommitment=some payload) : tx.nVersion=3 := by
  by_contra hver
  have he := tx.payload_special (Or.inl hver)
  unfold getFinalCommitment at hp
  rw [he] at hp
  cases hp

end CTransaction

/-- A block with its cached hash. -/
structure CBlock where
  hash : Uint256
  nTime : ℕ := 0
  vtx : List CTransaction := []
  deriving DecidableEq

end Pyrk.Transaction
