import Pyrk.BlockIndexUndo

/-!
# Taking back the address indexes

Undoing is inverse to connecting pass by pass, as long as no input spends a pay-to-key output:
such an input is undone as if it were an output of its own transaction.
-/

namespace Pyrk.AddressIndexUndo

open Option Bool

open Transaction Script Coins UndoBatch BlockIndexes BlockIndexUndo List

/-- Position of the transaction that a pass belongs to. -/
def position : IndexEvent → ℕ
  | .spend i _ _ _ _ => i
  | .create i _ _ _ => i

/-- Output that a pass spends or creates. -/
def moved : IndexEvent → COutPoint×CTxOut
  | .spend _ _ _ prevout entry => (prevout,entry.out)
  | .create _ txhash k out => (⟨txhash,k⟩,out)

/-- Unspent value before a pass. -/
def before : IndexEvent → Option CAddressUnspentValue
  | .spend _ _ _ _ entry => some ⟨entry.out.nValue,entry.out.scriptPubKey,entry.nHeight⟩
  | .create _ _ _ _ => none

/-- Unspent value after a pass of the block at a height. -/
def after (nHeight : ℕ) : IndexEvent → Option CAddressUnspentValue
  | .spend _ _ _ _ _ => none
  | .create _ _ _ out => some ⟨out.nValue,out.scriptPubKey,nHeight⟩

section Keys

variable (hash160 : List UInt8 → ℕ)

/-- Key of an unspent output, if its script has an address. -/
def addressUnspentKey (output : COutPoint×CTxOut) : Option CAddressUnspentKey :=
  let kind := indexedScript hash160 output.2.scriptPubKey
  if 0<kind.addressType then some ⟨kind.addressType,kind.hashBytes,output.1.hash,output.1.n⟩
  else none

/-- Address indexes that describe the chain below a height: movements are below it, and each coin
with an address is listed. -/
structure DescribesParent (nHeight : ℕ) (view : CoinsView) (db : CBlockTreeDB) : Prop where
  height_pos : 0<nHeight
  coins : ProperCoins view
  below : ∀ key, db.addressIndex key≠none → key.blockHeight<nHeight
  unspent : ∀ outpoint entry key, view.find outpoint=some entry →
    addressUnspentKey hash160 (outpoint,entry.out)=some key →
    db.addressUnspentIndex key=some ⟨entry.out.nValue,entry.out.scriptPubKey,entry.nHeight⟩

end Keys

section Events

variable {nHeight : ℕ}

variable {tx : CTransaction} {i : ℕ} {event : IndexEvent}

variable {vtx : List CTransaction}

end Events

section Batches

variable {hash160 : List UInt8 → ℕ} {flags : IndexFlags} {nHeight : ℕ}

variable {event : IndexEvent}

variable {entry : CAddressIndexKey×ℤ}

section

variable (hflag : flags.fAddressIndex=true)

include hflag

section

variable (h : entry∈(disconnectBatches hash160 flags nHeight event).addressIndex)

include h

end

end

end Batches

section Blocks

variable {hash160 : List UInt8 → ℕ} {flags : IndexFlags} {nHeight : ℕ} {view : CoinsView}
  {db : CBlockTreeDB} {block : CBlock}

end Blocks

def sampleKey : List UInt8 :=
  [0x02,0x79,0xbe,0x66,0x7e,0xf9,0xdc,0xbb,0xac,0x55,0xa0,0x62,0x95,0xce,0x87,0x0b,0x07,
    0x02,0x9b,0xfc,0xdb,0x2d,0xce,0x28,0xd9,0x59,0xf2,0x81,0x5b,0x16,0xf8,0x17,0x98]

def sampleKeyHash : List UInt8 :=
  [0x75,0x1e,0x76,0xe8,0x19,0x91,0x96,0xd4,0x54,0x94,0x1c,0x45,0xd1,0xb3,0xa3,0x23,0xf1,0x43,
    0x3b,0xd6]

def sampleHash160 (key : List UInt8) : ℕ := if key=sampleKey then littleEndian sampleKeyHash else 0

def keyScript : CScript := [0x21]++sampleKey++[opCheckSig]

def keyHashScript : CScript := [opDup,opHash160,0x14]++sampleKeyHash++[opEqualVerify,opCheckSig]

/-- A coin set with one coin. -/
def sampleView (script : CScript) : CoinsView :=
  OrderedMap.empty.set ⟨100,0⟩ ⟨⟨5*coin,script⟩,false,1⟩

/-- Indexes that list this coin. -/
def sampleDB (script : CScript) : CBlockTreeDB where
  addressIndex := fun key =>
    if key=⟨1,littleEndian sampleKeyHash,1,1,100,0,false⟩ then some (5*coin) else none
  addressUnspentIndex := fun key =>
    if key=⟨1,littleEndian sampleKeyHash,100,0⟩ then some ⟨5*coin,script,1⟩ else none
  spentIndex := fun _ => none
  timestampIndex := fun _ => none

/-- A block that spends the coin, pays to the key and its hash, and spends the second output. -/
def sampleBlock : CBlock :=
  ⟨1002,1600000000,
    [{ vin := [{ prevout := COutPoint.null }],vout := [⟨90*coin,keyHashScript⟩],hash := 200,
       payload_special := CTransaction.payload_plain },
     { vin := [{ prevout := ⟨100,0⟩ }],vout :=
       [⟨2*coin,keyScript⟩,⟨3*coin,keyHashScript⟩],hash := 201,
       payload_special := CTransaction.payload_plain },
     { vin := [{ prevout := ⟨201,1⟩ }],vout := [⟨3*coin,keyHashScript⟩],hash := 202,
       payload_special := CTransaction.payload_plain }]⟩

/-- All indexes. -/
def sampleFlags : IndexFlags := ⟨true,true,true⟩

theorem describesParent_sample {script : CScript}
    (hkey : addressUnspentKey sampleHash160 (⟨100,0⟩,⟨5*coin,script⟩)=
      some ⟨1,littleEndian sampleKeyHash,100,0⟩) (hspendable : isUnspendable script=false) :
    DescribesParent sampleHash160 2 (sampleView script) (sampleDB script) := by
  have hcoin : ∀ outpoint entry, (sampleView script).find outpoint=some entry →
      outpoint=⟨100,0⟩ ∧ entry=⟨⟨5*coin,script⟩,false,1⟩ := by
    intro outpoint entry hf
    rw [sampleView,OrderedMap.find_set] at hf
    split_ifs at hf with he
    · exact ⟨he,(some.inj hf).symm⟩
    · cases hf
  refine ⟨by decide,?_,?_,?_⟩
  · intro outpoint entry hf
    obtain ⟨-,rfl⟩ := hcoin outpoint entry hf
    exact ⟨Nat.one_pos,(by decide : (0 : ℤ)≤5*coin),hspendable⟩
  · intro key hsome
    by_cases he : key=⟨1,littleEndian sampleKeyHash,1,1,100,0,false⟩
    · rw [he]
      decide
    · exact absurd (if_neg he) hsome
  · intro outpoint entry key hf hlisted
    obtain ⟨rfl,rfl⟩ := hcoin outpoint entry hf
    rw [hkey] at hlisted
    cases hlisted
    simp only [sampleDB,if_true]

end Pyrk.AddressIndexUndo
