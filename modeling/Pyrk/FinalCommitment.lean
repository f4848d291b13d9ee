import Pyrk.ChainParams
import Pyrk.DeterministicMNList

/-!
# Final quorum commitments

Commitments aggregate the result of a key generation session. Signature verification and the signed
hash are given.
-/

namespace Pyrk.FinalCommitment

open Transaction DeterministicMNList ChainParams

/-- Operations of the signature scheme. -/
structure QuorumCrypto where
  buildCommitmentHash : ℕ → Uint256 → List Bool → CBLSPublicKey → Uint256 → Uint256
  verifySecureAggregated : CBLSSignature → List CBLSPublicKey → Uint256 → Bool
  verifyInsecure : CBLSSignature → CBLSPublicKey → Uint256 → Bool

/-- The commitment of a failed session. -/
def nullCommitment (params : LLMQParams) (quorumHash : Uint256) : CFinalCommitment where
  llmqType := params.type
  quorumHash := quorumHash
  signers := List.replicate params.size false
  validMembers := List.replicate params.size false

variable (qc : CFinalCommitment)

/-- Number of members that signed. -/
def countSigners : ℕ := qc.signers.count true

/-- Number of members that took part. -/
def countValidMembers : ℕ := qc.validMembers.count true

/-- A commitment without members, keys and signatures. -/
def isNull : Bool :=
  if qc.signers.count true≠0 || qc.validMembers.count true≠0 then false
  else if qc.quorumPublicKey.fValid || qc.quorumVvecHash≠0 || qc.membersSig.fValid ||
      qc.quorumSig.fValid then false
  else true

/-- Both member sets have the size of the quorum. -/
def verifySizes (params : LLMQParams) (qc : CFinalCommitment) : Bool :=
  qc.signers.length=params.size && qc.validMembers.length=params.size

/-- A well-formed null commitment. -/
def verifyNull (network : Network) (qc : CFinalCommitment) : Bool :=
  match (llmqs network).find qc.llmqType with
  | none => false
  | some params => isNull qc && verifySizes params qc

/-- Operator keys of the members that signed. -/
def signerKeys (members : List CDeterministicMN) (signers : List Bool) : List CBLSPublicKey :=
  (members.zip signers).filterMap (fun member =>
    if member.2 then some member.1.pdmnState.pubKeyOperator else none)

/-- Full check of a commitment; signatures are optional. -/
def verify (crypto : QuorumCrypto) (network : Network) (qc : CFinalCommitment)
    (members : List CDeterministicMN) (checkSigs : Bool) : Bool :=
  if qc.nVersion=0 || 1<qc.nVersion then false
  else
    match (llmqs network).find qc.llmqType with
    | none => false
    | some params =>
      if !verifySizes params qc then false
      else if countValidMembers qc<params.minSize then false
      else if countSigners qc<params.minSize then false
      else if !qc.quorumPublicKey.fValid then false
      else if qc.quorumVvecHash=0 then false
      else if !qc.membersSig.fValid then false
      else if !qc.quorumSig.fValid then false
      else if (qc.validMembers.drop members.length).any id ||
          (qc.signers.drop members.length).any id then false
      else if checkSigs then
        let commitmentHash := crypto.buildCommitmentHash params.type qc.quorumHash
          qc.validMembers qc.quorumPublicKey qc.quorumVvecHash
        crypto.verifySecureAggregated qc.membersSig (signerKeys members qc.signers)
            commitmentHash &&
          crypto.verifyInsecure qc.quorumSig qc.quorumPublicKey commitmentHash
      else true

end Pyrk.FinalCommitment
