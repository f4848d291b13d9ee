import Pyrk.OrderedMap

/-!
# Network parameters

Constants of the four networks as far as the modelled code reads them. The
quorum types carry the facts that their mining windows rely on.
-/

namespace Pyrk.ChainParams

/-- The networks with their own parameters. -/
inductive Network where
  | main
  | test
  | dev
  | regtest
  deriving DecidableEq

/-- Blocks between two reductions of the subsidy. -/
def nSubsidyHalvingInterval : Network → ℕ
  | .main => 100000
  | .test => 100000
  | .dev => 100000
  | .regtest => 2000

def nMasternodePaymentsStartBlock : Network → ℕ
  | .main => 10100
  | .test => 4010
  | .dev => 4010
  | .regtest => 240

/-- First height with superblocks. -/
def nSuperblockStartBlock : Network → ℕ
  | .main => 25000
  | .test => 4010
  | .dev => 4010
  | .regtest => 340

/-- Distance between superblock heights. -/
def nSuperblockCycle : Network → ℕ
  | .main => 29200
  | .test => 40
  | .dev => 40
  | .regtest => 40

/-- First height whose coinbase has to start with it. -/
def bip34Height : Network → ℕ
  | .main => 16
  | .test => 76
  | .dev => 1
  | .regtest => 100000000

/-- First height with larger blocks. -/
def dip0001Height : Network → ℕ
  | .main => 2
  | .test => 2
  | .dev => 2
  | .regtest => 2000

/-- Parameters of one quorum type. -/
structure LLMQParams where
  type : ℕ
  size : ℕ
  minSize : ℕ
  dkgInterval : ℕ
  /-- First block of an interval in which a commitment is mined. -/
  dkgMiningWindowStart : ℕ
  /-- Last block of an interval in which a commitment is mined. -/
  dkgMiningWindowEnd : ℕ
  /-- The first block of an interval is outside the window. -/
  window_start : 0<dkgMiningWindowStart
  window_end : dkgMiningWindowEnd<dkgInterval
  deriving DecidableEq

/-- Ten members, for tests only. -/
def llmq10_60 : LLMQParams := ⟨100,10,6,24,10,18,by decide,by decide⟩
/-- Fifty members, one quorum per hour. -/
def llmq50_60 : LLMQParams := ⟨1,50,40,24,10,18,by decide,by decide⟩
/-- Four hundred members, one quorum every twelve hours. -/
def llmq400_60 : LLMQParams := ⟨2,400,300,24*12,20,28,by decide,by decide⟩
/-- Four hundred members with a high threshold, one quorum per day. -/
def llmq400_85 : LLMQParams := ⟨3,400,350,24*24,20,48,by decide,by decide⟩

/-- Quorum types of a network by their number. -/
def llmqs : Network → OrderedMap ℕ LLMQParams
  | .main => OrderedMap.ofEntries [(1,llmq50_60),(2,llmq400_60),(3,llmq400_85)]
  | .test => OrderedMap.ofEntries [(1,llmq50_60),(2,llmq400_60),(3,llmq400_85)]
  | .dev => OrderedMap.ofEntries [(1,llmq50_60),(2,llmq400_60),(3,llmq400_85)]
  | .regtest => OrderedMap.ofEntries [(1,llmq50_60),(100,llmq10_60)]

theorem llmqs_type {network : Network} {type : ℕ} {params : LLMQParams}
    (hf : (llmqs network).find type=some params) : params.type=type := by
  have hm := ((llmqs network).mem_entries_iff type params).mpr hf
  have hall : ∀ entry∈(llmqs network).entries, entry.2.type=entry.1 := by
    cases network <;> decide
  exact hall _ hm

end Pyrk.ChainParams
