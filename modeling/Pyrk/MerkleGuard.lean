import Pyrk.PartialMerkleTree
import Pyrk.ChainEffects

/-!
# Blocks with the root of another block

Lists of leaves with the same root are equal, unless one of them has two full neighbours that are
equal. A block with such transactions is taken for a damaged copy.
-/

namespace Pyrk.MerkleGuard

open Transaction MerkleTree MerkleComputation BlockTree ChainEffects List

section Checks

/-- A failed check of a block. -/
structure BlockReject where
  reject : Reject
  corruptionPossible : Bool := false
  strDebugMessage : String := ""
  deriving DecidableEq

structure ReceivedBlock where
  hashMerkleRoot : Uint256
  body : CBlock
  fChecked : Bool := false
  deriving DecidableEq

/-- Checks of a block that come before and after the one of its root. -/
structure BlockChecks where
  hash : Uint256 → Uint256 → Uint256
  checkBlockHeader : Bool → ReceivedBlock → Except BlockReject Unit
  /-- Checks of the size, the transactions and the signature operations. -/
  checkTransactions : ReceivedBlock → Except BlockReject Unit

variable (checks : BlockChecks)

/-- Hashes of the transactions. -/
def leaves (block : ReceivedBlock) : List Uint256 := block.body.vtx.map CTransaction.hash

/-- Root of the transactions, and whether equal hashes were combined. -/
def blockMerkleRoot (block : ReceivedBlock) : Option (Uint256×Bool) :=
  computeMerkleRoot checks.hash (leaves block)

/-- The transactions have another root than the header. -/
def rootMismatch : BlockReject :=
  ⟨⟨100,.invalid,"bad-txnmrklroot"⟩,true,"hashMerkleRoot mismatch"⟩

/-- Equal hashes were combined. -/
def duplicateTransaction : BlockReject :=
  ⟨⟨100,.invalid,"bad-txns-duplicate"⟩,true,"duplicate transaction"⟩

def checkMerkleRoot (block : ReceivedBlock) : Option (Except BlockReject Unit) := do
  let (hashMerkleRoot2,mutated) ← blockMerkleRoot checks block
  if block.hashMerkleRoot≠hashMerkleRoot2 then some (.error rootMismatch)
  else if mutated then some (.error duplicateTransaction)
  else some (.ok ())

/-- Check of the root, where it is asked for. -/
def checkRootIf (fCheckMerkleRoot : Bool) (block : ReceivedBlock) :
    Option (Except BlockReject Unit) :=
  if fCheckMerkleRoot then checkMerkleRoot checks block else some (.ok ())

/-- Check of a block, which remembers that it was complete. -/
def checkBlock (fCheckPOW fCheckMerkleRoot : Bool) (block : ReceivedBlock) :
    Option (Except BlockReject Unit×ReceivedBlock) :=
  if block.fChecked then some (.ok (),block)
  else
    match checks.checkBlockHeader fCheckPOW block with
    | .error failure => some (.error failure,block)
    | .ok () => do
      let root ← checkRootIf checks fCheckMerkleRoot block
      match root with
      | .error failure => some (.error failure,block)
      | .ok () =>
        match checks.checkTransactions block with
        | .error failure => some (.error failure,block)
        | .ok () =>
          if fCheckPOW && fCheckMerkleRoot then some (.ok (),{ block with fChecked := true })
          else some (.ok (),block)

/-- A block that was received, and perhaps checked. -/
inductive Handled : ReceivedBlock → Prop
  | received {block : ReceivedBlock} : block.fChecked=false → Handled block
  | checked {block next : ReceivedBlock} {fCheckPOW fCheckMerkleRoot : Bool}
    {verdict : Except BlockReject Unit} : Handled block →
    checkBlock checks fCheckPOW fCheckMerkleRoot block=some (verdict,next) → Handled next

/-- What the checks of a block come to when it is accepted. -/
def blockCheck (check contextualCheck : Except BlockReject Unit) (stored : Bool) : BlockCheck :=
  match check with
  | .error failure => if failure.corruptionPossible then .corrupted else .invalid
  | .ok () =>
    match contextualCheck with
    | .error failure => if failure.corruptionPossible then .corrupted else .invalid
    | .ok () => if stored then .stored else .systemError

def acceptReceived (hashGenesis : ℕ) (st : ChainState) (header : HeaderArrival)
    (fRequested : Bool) (block : ReceivedBlock) (contextualCheck : Except BlockReject Unit)
    (stored : Bool) : Option (Bool×ChainState) := do
  let (check,_) ← checkBlock checks true true block
  some (acceptBlock hashGenesis st
    ⟨header,block.body.vtx.length,fRequested,blockCheck check contextualCheck stored⟩)

/-- Accept a block from the network, which is checked before its header. -/
def processNewBlock (hashGenesis : ℕ) (st : ChainState) (header : HeaderArrival)
    (fRequested : Bool) (block : ReceivedBlock) (contextualCheck : Except BlockReject Unit)
    (stored : Bool) : Option (Bool×ChainState) := do
  let (check,block) ← checkBlock checks true true block
  match check with
  | .error _ => some (false,st)
  | .ok () =>
    acceptReceived checks hashGenesis st header fRequested block contextualCheck stored

end Checks

section Roots

variable {hash : Uint256 → Uint256 → Uint256}

/-- Leaves that do not combine equal hashes are given by their root. -/
theorem eq_of_same_root (hinj : ∀ a b c d, hash a b=hash c d → a=c ∧ b=d)
    {first second : List Uint256} (hfirst : first≠[]) (hsecond : second≠[])
    (hfirstLeaf : ∀ leaf∈first, ∀ a b, leaf≠hash a b)
    (hsecondLeaf : ∀ leaf∈second, ∀ a b, leaf≠hash a b) {root : Uint256}
    (hfirstRoot : computeMerkleRoot hash first=some (root,false))
    (hsecondRoot : computeMerkleRoot hash second=some (root,false)) : first=second := by
  have hparts : ∀ {leaves : List Uint256}, leaves≠[] →
      computeMerkleRoot hash leaves=some (root,false) → ∃ height, leaves.length ≤ 2^height ∧
        treeHash hash height leaves=root ∧ ¬Repeats hash height leaves := by
    intro leaves hleaves hroot
    obtain ⟨result,hres,hpair⟩ := Option.map_eq_some_iff.mp hroot
    obtain ⟨height,hfits,-,hh,hmutated,-⟩ := merkleComputation_ok hleaves hres
    have hresultRoot : result.h=root := congrArg Prod.fst hpair
    have hclear : result.mutated=false := congrArg Prod.snd hpair
    have hall := block_all hfits
    refine ⟨height,hfits,?_,?_⟩
    · rw [← hresultRoot,hh,nodeAt,hall]
    · intro hrepeats
      obtain ⟨level,index,-,hfull,hsame⟩ := @exists_pair_of_repeats _ _ hash leaves height 0
        (hall.symm ▸ hrepeats)
      rw [hmutated.mpr ⟨level,index,hfull,hsame⟩] at hclear
      cases hclear
  obtain ⟨low,hlowFits,hlowRoot,hlowRepeats⟩ := hparts hfirst hfirstRoot
  obtain ⟨high,hhighFits,hhighRoot,hhighRepeats⟩ := hparts hsecond hsecondRoot
  have hfirstLength := length_pos_iff.mpr hfirst
  have hsecondLength := length_pos_iff.mpr hsecond
  have hsame := hlowRoot.trans hhighRoot.symm
  rcases lt_trichotomy low high with hlt | heq | hgt
  · exact (treeHash_ne hinj hlt hfirstLength hfirstLeaf hsame).elim
  · rw [← heq] at hsame hhighFits hhighRepeats
    rcases eq_or_repeats hinj hfirstLength hlowFits hsecondLength hhighFits hsame with
      hequal | hrepeats | hrepeats
    · exact hequal
    · exact (hlowRepeats hrepeats).elim
    · exact (hhighRepeats hrepeats).elim
  · exact (treeHash_ne hinj hgt hsecondLength hsecondLeaf hsame.symm).elim

end Roots

section Guards

variable {checks : BlockChecks} {block : ReceivedBlock}

theorem checkBlock_next {fCheckPOW fCheckMerkleRoot : Bool} {verdict : Except BlockReject Unit}
    {next : ReceivedBlock}
    (h : checkBlock checks fCheckPOW fCheckMerkleRoot block=some (verdict,next)) :
    next=block ∨
      next={ block with fChecked := true } ∧ checkMerkleRoot checks block=some (.ok ()) := by
  unfold checkBlock at h
  by_cases hdone : block.fChecked=true
  · rw [if_pos hdone] at h
    cases h
    exact .inl rfl
  · rw [if_neg hdone] at h
    cases hheader : checks.checkBlockHeader fCheckPOW block with
    | error failure =>
      rw [hheader] at h
      cases h
      exact .inl rfl
    | ok =>
      rw [hheader] at h
      obtain ⟨root,hroot,h⟩ := Option.bind_eq_some_iff.mp h
      cases root with
      | error failure =>
        cases h
        exact .inl rfl
      | ok =>
        cases htransactions : checks.checkTransactions block with
        | error failure =>
          rw [htransactions] at h
          cases h
          exact .inl rfl
        | ok =>
          rw [htransactions] at h
          split_ifs at h with hcomplete
          · cases h
            rw [checkRootIf,(Bool.and_eq_true_iff.mp hcomplete).2,if_pos rfl] at hroot
            exact .inr ⟨rfl,hroot⟩
          · cases h
            exact .inl rfl

theorem Handled.checkMerkleRoot_ok (h : Handled checks block) (hdone : block.fChecked=true) :
    checkMerkleRoot checks block=some (.ok ()) := by
  induction h with
  | received hfresh =>
    rw [hfresh] at hdone
    cases hdone
  | checked _ hcheck ih =>
    rcases checkBlock_next hcheck with hsame | ⟨hnext,hroot⟩
    · rw [hsame] at hdone ⊢
      exact ih hdone
    · rw [hnext]
      exact hroot

theorem acceptBlockHeader_unmarked {hashGenesis : ℕ} {st : ChainState}
    {header : HeaderArrival} {result : ChainState×CBlockIndex}
    (h : acceptBlockHeader hashGenesis st header=.ok result) {hash : ℕ}
    {pindex : CBlockIndex} (hfind : result.1.find hash=some pindex) :
    st.find hash=some pindex ∨ st.find hash=none ∧ pindex.nStatus.failed=false := by
  rcases acceptBlockHeader_ok h with ⟨hsame,-⟩ | ⟨hnone,hadd,-⟩
  · rw [hsame] at hfind
    exact .inl hfind
  · rw [hadd] at hfind
    unfold addToBlockIndex at hfind
    rw [hnone] at hfind
    unfold ChainState.find at hfind hnone ⊢
    rw [OrderedMap.find_set] at hfind
    split_ifs at hfind with hself
    · rw [hself]
      refine .inr ⟨hnone,?_⟩
      cases hfind
      cases st.mapBlockIndex.find header.hashPrevBlock with
      | none => rfl
      | some pindexPrev => rfl
    · exact .inl hfind

theorem acceptBlock_corrupted {hashGenesis : ℕ} {st : ChainState} {block : BlockArrival}
    (hcheck : block.check=.corrupted) {hash : ℕ} {pindex : CBlockIndex}
    (hfind : (acceptBlock hashGenesis st block).2.find hash=some pindex) :
    st.find hash=some pindex ∨ st.find hash=none ∧ pindex.nStatus.failed=false := by
  unfold acceptBlock at hfind
  cases haccept : BlockTree.acceptBlockHeader hashGenesis st block.header with
  | error failure =>
    rw [haccept] at hfind
    exact .inl hfind
  | ok result =>
    rw [haccept,hcheck] at hfind
    dsimp only at hfind
    have hstate : result.1.find hash=some pindex := by
      split_ifs at hfind
      · exact hfind
      · exact hfind
      · exact hfind
    exact acceptBlockHeader_unmarked haccept hstate

theorem checkBlock_duplicate (hhandled : Handled checks block)
    (hheader : checks.checkBlockHeader true block=.ok ())
    (hroot : blockMerkleRoot checks block=some (block.hashMerkleRoot,true)) :
    checkBlock checks true true block=some (.error duplicateTransaction,block) := by
  have hduplicate : checkMerkleRoot checks block=some (.error duplicateTransaction) := by
    unfold checkMerkleRoot
    rw [hroot]
    dsimp only [Option.bind_eq_bind,Option.bind_some]
    rw [if_neg (not_not.mpr rfl),if_pos rfl]
  have hfresh : ¬block.fChecked=true := by
    intro hdone
    rw [hhandled.checkMerkleRoot_ok hdone] at hduplicate
    cases hduplicate
  unfold checkBlock
  rw [if_neg hfresh,hheader]
  rw [checkRootIf,if_pos rfl,hduplicate]
  rfl

end Guards

/-- A block with the root of other transactions, that do not combine equal hashes, is a damaged
copy, and no header is marked. -/
theorem root_guarded (checks : BlockChecks)
    (hinj : ∀ a b c d, checks.hash a b=checks.hash c d → a=c ∧ b=d) :
    (∀ (first second : List Uint256) (root : Uint256), first≠[] → second≠[] →
      (∀ leaf∈first, ∀ a b, leaf≠checks.hash a b) → (∀ leaf∈second, ∀ a b, leaf≠checks.hash a b) →
      computeMerkleRoot checks.hash first=some (root,false) →
      computeMerkleRoot checks.hash second=some (root,false) → first=second) ∧
    ∀ (original other : ReceivedBlock) (mutated : Bool), leaves original≠[] → leaves other≠[] →
      (∀ leaf∈leaves original, ∀ a b, leaf≠checks.hash a b) →
      (∀ leaf∈leaves other, ∀ a b, leaf≠checks.hash a b) →
      other.hashMerkleRoot=original.hashMerkleRoot →
      blockMerkleRoot checks original=some (original.hashMerkleRoot,false) →
      blockMerkleRoot checks other=some (original.hashMerkleRoot,mutated) →
      leaves other≠leaves original → Handled checks other →
      checks.checkBlockHeader true other=.ok () →
      checkBlock checks true true other=some (.error duplicateTransaction,other) ∧
      duplicateTransaction.corruptionPossible=true ∧
      ∀ (hashGenesis : ℕ) (st : ChainState) (header : HeaderArrival) (fRequested : Bool)
        (contextualCheck : Except BlockReject Unit) (stored : Bool),
        processNewBlock checks hashGenesis st header fRequested other contextualCheck stored=
          some (false,st) ∧
        ∃ result, acceptReceived checks hashGenesis st header fRequested other
            contextualCheck stored=some result ∧
          ∀ hash pindex, result.2.find hash=some pindex →
            st.find hash=some pindex ∨ st.find hash=none ∧ pindex.nStatus.failed=false := by
  refine ⟨?_,?_⟩
  · intro first second root hfirst hsecond hfirstLeaf hsecondLeaf hfirstRoot hsecondRoot
    exact eq_of_same_root hinj hfirst hsecond hfirstLeaf hsecondLeaf hfirstRoot hsecondRoot
  · intro original other mutated horiginal hother horiginalLeaf hotherLeaf hsame horiginalRoot
      hotherRoot hne hhandled hheader
    have hmutated : mutated=true := by
      by_contra hclear
      rw [Bool.eq_false_of_not_eq_true hclear] at hotherRoot
      exact hne (eq_of_same_root hinj hother horiginal hotherLeaf horiginalLeaf hotherRoot
        horiginalRoot)
    rw [hmutated,← hsame] at hotherRoot
    have hcheck := checkBlock_duplicate hhandled hheader hotherRoot
    refine ⟨hcheck,rfl,?_⟩
    intro hashGenesis st header fRequested contextualCheck stored
    refine ⟨?_,?_⟩
    · unfold processNewBlock
      rw [hcheck]
      rfl
    · unfold acceptReceived
      rw [hcheck]
      refine ⟨_,rfl,?_⟩
      intro hash pindex hfind
      exact acceptBlock_corrupted rfl hfind

/-- Odd hashes over even leaves. -/
def sampleChecks : BlockChecks where
  hash := fun a b => 2*Nat.pair a b+1
  checkBlockHeader := fun _ _ => .ok ()
  checkTransactions := fun _ => .ok ()

/-- Blocks with the root of three leaves. -/
def sampleBlock (txids : List Uint256) : ReceivedBlock where
  hashMerkleRoot := 18893
  body := ⟨1,0,txids.map (fun txid =>
    { hash := txid, payload_special := CTransaction.payload_plain })⟩

/-- The last of three leaves is repeated. -/
theorem root_guarded_repeated :
    checkBlock sampleChecks true true (sampleBlock [2,4,6,6])=
      some (.error duplicateTransaction,sampleBlock [2,4,6,6]) := by
  have hinj : ∀ a b c d, sampleChecks.hash a b=sampleChecks.hash c d → a=c ∧ b=d := by
    intro a b c d h
    have hhash : 2*Nat.pair a b+1=2*Nat.pair c d+1 := h
    exact Nat.pair_eq_pair.mp (by omega)
  have heven : ∀ txids : List Uint256, (∀ txid∈txids, txid%2=0) →
      ∀ leaf∈leaves (sampleBlock txids), ∀ a b, leaf≠sampleChecks.hash a b := by
    intro txids htxids leaf hm a b hleaf
    have hleaves : leaves (sampleBlock txids)=txids := by
      rw [leaves,sampleBlock,map_map]
      exact map_id txids
    have htwo := htxids leaf (hleaves ▸ hm)
    rw [hleaf] at htwo
    have hodd : (2*Nat.pair a b+1)%2=0 := htwo
    omega
  have hthree := heven [2,4,6] (by simp)
  have hfour := heven [2,4,6,6] (by simp)
  exact ((root_guarded sampleChecks hinj).2 (sampleBlock [2,4,6]) (sampleBlock [2,4,6,6]) true
    (cons_ne_nil _ _) (cons_ne_nil _ _) hthree hfour rfl rfl rfl
    (by simp [leaves,sampleBlock]) (.received rfl) rfl).1

end Pyrk.MerkleGuard
