import Pyrk.MinableCommitments
import Mathlib.Data.List.Induction

/-!
# One stored commitment for each quorum

Waiting commitments are stored by their hash, and the hash that counts by its quorum. The hash that
is dropped is the new one, not that of the replaced commitment.
-/

namespace Pyrk.MinableBijection

open Transaction FinalCommitment MinableCommitments OrderedMap List Option

section Definitions

/-- Whether a commitment waits under a hash. -/
def hasMinableCommitment (processor : CQuorumBlockProcessor) (hash : Uint256) : Bool :=
  processor.minableCommitments.contains hash

def getMinableCommitmentByHash (processor : CQuorumBlockProcessor) (commitmentHash : Uint256) :
    Option CFinalCommitment := processor.minableCommitments.find commitmentHash

variable (serializeHash : CFinalCommitment → Uint256)

/-- The waiting commitments after commitments were added one after the other. -/
def addMinableCommitments (qcs : List CFinalCommitment) : Option CQuorumBlockProcessor :=
  qcs.foldlM (fun processor qc => (addMinableCommitment serializeHash processor qc).map Prod.fst) {}

/-- Quorums and stored commitments belong to each other. -/
structure Bijective (processor : CQuorumBlockProcessor) : Prop where
  /-- The hash of a quorum is that of a stored commitment of the quorum. -/
  referenced : ∀ key hash, processor.minableCommitmentsByQuorum.find key=some hash →
    ∃ qc, getMinableCommitmentByHash processor hash=some qc ∧ quorumKey qc=key ∧
      serializeHash qc=hash
  owned : ∀ hash qc, getMinableCommitmentByHash processor hash=some qc →
    processor.minableCommitmentsByQuorum.find (quorumKey qc)=some hash

/-- First commitment of a quorum in a list. -/
def firstFor (key : QuorumKey) (qcs : List CFinalCommitment) : Option CFinalCommitment :=
  qcs.find? (fun qc => quorumKey qc=key)

/-- No commitment has more signers than the first one of its quorum. -/
def FirstIsBest (qcs : List CFinalCommitment) : Prop :=
  ∀ qc∈qcs,∀ first∈firstFor (quorumKey qc) qcs,countSigners qc ≤ countSigners first

/-- No two commitments of a list have the same hash. -/
def Collisionless (qcs : List CFinalCommitment) : Prop :=
  ∀ first∈qcs,∀ second∈qcs,serializeHash first=serializeHash second → first=second

end Definitions

section Steps

variable {serializeHash : CFinalCommitment → Uint256} {processor : CQuorumBlockProcessor}
  {qcs : List CFinalCommitment} {qc : CFinalCommitment}

/-- What holds while the first commitment of each quorum is kept. -/
structure KeepsFirst (serializeHash : CFinalCommitment → Uint256)
    (processor : CQuorumBlockProcessor) (qcs : List CFinalCommitment) : Prop where
  /-- Quorums and stored commitments belong to each other. -/
  bijective : Bijective serializeHash processor
  first : ∀ key,storedCommitment processor key=firstFor key qcs

variable {key : QuorumKey}

theorem mem_of_firstFor {first : CFinalCommitment}
    (h : firstFor key qcs=some first) : first∈qcs ∧ quorumKey first=key := by
  have hkey := find?_some h
  exact ⟨mem_of_find?_eq_some h,of_decide_eq_true hkey⟩

theorem firstFor_append (key : QuorumKey) :
    firstFor key (qcs++[qc])=
      (firstFor key qcs).or (if quorumKey qc=key then some qc else none) := by
  dsimp only [firstFor]
  rw [find?_append,find?_singleton]
  simp only [decide_eq_true_eq]

theorem firstIsBest_append_iff : FirstIsBest (qcs++[qc]) ↔ FirstIsBest qcs ∧
    ∀ first∈firstFor (quorumKey qc) qcs,countSigners qc ≤ countSigners first := by
  dsimp only [FirstIsBest]
  have hold : ∀ {key first},firstFor key qcs=some first → firstFor key (qcs++[qc])=some first := by
    intro key first hfirst
    rw [firstFor_append,hfirst,some_or]
  constructor
  · intro h
    refine ⟨fun other hm first hfirst => ?_,fun first hfirst => ?_⟩
    · exact h other (mem_append_left _ hm) first (hold hfirst)
    · exact h qc (mem_append_right _ (mem_singleton_self _)) first (hold hfirst)
  · intro ⟨hbefore,hlast⟩ other hm first hfirst
    cases hsome : firstFor (quorumKey other) qcs with
    | some before =>
      grind
    | none =>
      rw [mem_def,firstFor_append,hsome,none_or] at hfirst
      have hother : other=qc := by
        cases mem_append.mp hm with
        | inl hin =>
          have hnone := find?_eq_none.mp hsome other hin
          exact absurd (decide_eq_true rfl) hnone
        | inr heq => exact mem_singleton.mp heq
      rw [hother,if_pos rfl] at hfirst
      rw [hother,some.inj hfirst]

section

variable (h : KeepsFirst serializeHash processor qcs)

include h

theorem KeepsFirst.firstFor_eq
    {hash : Uint256} (hfind : processor.minableCommitmentsByQuorum.find key=some hash) :
    ∃ first,firstFor key qcs=some first ∧ serializeHash first=hash ∧
      processor.minableCommitments.find hash=some first := by
  obtain ⟨first,hfirst,_,hhash⟩ := h.bijective.referenced key hash hfind
  refine ⟨first,?_,hhash,hfirst⟩
  rw [←h.first key,storedCommitment,hfind,bind_some]
  exact hfirst

theorem KeepsFirst.firstFor_eq_none
    (hfind : processor.minableCommitmentsByQuorum.find key=none) : firstFor key qcs=none := by
  rw [←h.first key,storedCommitment,hfind,bind_none]

theorem KeepsFirst.add_first (hinj : Collisionless serializeHash (qcs++[qc]))
    (hfind : processor.minableCommitmentsByQuorum.find (quorumKey qc)=none) :
    KeepsFirst serializeHash
      { minableCommitmentsByQuorum :=
          processor.minableCommitmentsByQuorum.set (quorumKey qc) (serializeHash qc)
        minableCommitments := processor.minableCommitments.emplace (serializeHash qc) qc }
      (qcs++[qc]) := by
  -- a commitment with the hash of this one would be this one, and its quorum would be known
  have hnew : processor.minableCommitments.find (serializeHash qc)=none := by
    cases hold : processor.minableCommitments.find (serializeHash qc) with
    | none => rfl
    | some old =>
      have hkey := h.bijective.owned _ _ hold
      obtain ⟨first,hfirst,hhash,hsame⟩ := h.firstFor_eq hkey
      rw [hold] at hsame
      cases hsame
      have heq : old=qc := hinj old (mem_append_left _ (mem_of_firstFor hfirst).1) qc
        (mem_append_right _ (mem_singleton_self _)) hhash
      rw [heq,hfind] at hkey
      cases hkey
  have hstore : ∀ hash,(processor.minableCommitments.emplace (serializeHash qc) qc).find hash=
      if hash=serializeHash qc then some qc else processor.minableCommitments.find hash := by
    intro hash
    rw [find_emplace,hnew,getD_none]
  refine ⟨⟨?_,?_⟩,?_⟩
  · intro key hash hf
    dsimp only [getMinableCommitmentByHash] at hf ⊢
    rw [find_set] at hf
    rw [hstore]
    split at hf
    next hk =>
      rw [←some.inj hf,if_pos rfl]
      exact ⟨qc,rfl,hk.symm,rfl⟩
    next hk =>
      obtain ⟨found,hfound,hfacts⟩ := h.bijective.referenced key hash hf
      dsimp only [getMinableCommitmentByHash] at hfound
      grind
  · intro hash found hf
    dsimp only [getMinableCommitmentByHash] at hf ⊢
    rw [hstore] at hf
    rw [find_set]
    split at hf
    next he =>
      rw [←some.inj hf,if_pos rfl,he]
    next he =>
      have hkey := h.bijective.owned hash found hf
      have hne : quorumKey found≠quorumKey qc := by
        intro hk
        rw [hk,hfind] at hkey
        cases hkey
      rw [if_neg hne,hkey]
  · intro key
    dsimp only [storedCommitment]
    rw [firstFor_append,find_set]
    split
    next hk =>
      rw [hk,h.firstFor_eq_none hfind,none_or,if_pos rfl,bind_some,hstore,if_pos rfl]
    next hk =>
      rw [if_neg (fun heq => hk heq.symm),or_none,←h.first key,storedCommitment]
      cases hf : processor.minableCommitmentsByQuorum.find key with
      | none => rfl
      | some hash =>
        obtain ⟨found,hfound,_⟩ := h.bijective.referenced key hash hf
        dsimp only [getMinableCommitmentByHash] at hfound
        have hne : hash≠serializeHash qc := by
          intro he
          rw [he,hnew] at hfound
          cases hfound
        rw [bind_some,bind_some,hstore,if_neg hne]

/-- Adding a commitment keeps this exactly if it does not have more signers than the first one of
its quorum. -/
theorem KeepsFirst.addMinableCommitment (hinj : Collisionless serializeHash (qcs++[qc])) :
    ∃ result,addMinableCommitment serializeHash processor qc=some result ∧
      (Bijective serializeHash result.1 ↔
        ∀ first∈firstFor (quorumKey qc) qcs,countSigners qc ≤ countSigners first) ∧
      ((∀ first∈firstFor (quorumKey qc) qcs,countSigners qc ≤ countSigners first) →
        KeepsFirst serializeHash result.1 (qcs++[qc])) := by
  dsimp only [MinableCommitments.addMinableCommitment]
  cases hf : processor.minableCommitmentsByQuorum.find (quorumKey qc) with
  | none =>
    have hkeeps := h.add_first hinj hf
    refine ⟨_,rfl,⟨fun _ first hfirst => ?_,fun _ => hkeeps.bijective⟩,fun _ => hkeeps⟩
    rw [h.firstFor_eq_none hf] at hfirst
    cases hfirst
  | some oldHash =>
    obtain ⟨old,hfirst,hhash,hold⟩ := h.firstFor_eq hf
    have hweak : (∀ first∈firstFor (quorumKey qc) qcs,countSigners qc ≤ countSigners first) ↔
        countSigners qc ≤ countSigners old := by
      rw [hfirst]
      exact ⟨fun hall => hall old rfl,fun hle first heq => some.inj heq ▸ hle⟩
    dsimp only
    rw [hold,hweak]
    dsimp only
    by_cases hlt : countSigners old < countSigners qc
    · rw [if_pos hlt]
      refine ⟨_,rfl,⟨fun hbij => ?_,fun hle => absurd hlt (Nat.not_lt.mpr hle)⟩,
        fun hle => absurd hlt (Nat.not_lt.mpr hle)⟩
      -- the old commitment is still stored, and its quorum has another hash
      have hne : oldHash≠serializeHash qc := by
        intro he
        have hsame := hinj old (mem_append_left _ (mem_of_firstFor hfirst).1) qc
          (mem_append_right _ (mem_singleton_self _)) (hhash.trans he)
        rw [hsame] at hlt
        exact absurd hlt (lt_irrefl _)
      have hstays := hbij.owned oldHash old (by
        dsimp only [getMinableCommitmentByHash]
        rw [find_emplace,if_neg hne,find_erase_of_ne _ hne,hold])
      rw [(mem_of_firstFor hfirst).2,find_set_self] at hstays
      exact absurd (some.inj hstays).symm hne
    · rw [if_neg hlt]
      have hle := Nat.le_of_not_lt hlt
      refine ⟨_,rfl,⟨fun _ => hle,fun _ => h.bijective⟩,fun _ => ⟨h.bijective,fun key => ?_⟩⟩
      rw [h.first key,firstFor_append]
      split
      next hk => rw [←hk,hfirst,some_or]
      next => rw [or_none]

end

theorem keepsFirst_empty : KeepsFirst serializeHash {} [] where
  bijective := by
    refine ⟨fun key hash hf => ?_,fun hash qc hf => ?_⟩
    · simp only [find_empty,reduceCtorEq] at hf
    · simp only [getMinableCommitmentByHash,find_empty,reduceCtorEq] at hf
  first := fun _ => rfl

theorem addMinableCommitments_append :
    addMinableCommitments serializeHash (qcs++[qc])=
      (addMinableCommitments serializeHash qcs).bind (fun processor =>
        (MinableCommitments.addMinableCommitment serializeHash processor qc).map Prod.fst) := by
  dsimp only [addMinableCommitments]
  rw [foldlM_append]
  refine congrArg _ (funext fun processor => ?_)
  rw [foldlM_cons]
  cases (MinableCommitments.addMinableCommitment serializeHash processor qc).map Prod.fst <;> rfl

theorem Collisionless.left {others : List CFinalCommitment}
    (h : Collisionless serializeHash (qcs++others)) : Collisionless serializeHash qcs :=
  fun first hf second hs => h first (mem_append_left _ hf) second (mem_append_left _ hs)

/-- Without collisions, quorums and stored commitments belong to each other all the time exactly if
no commitment has more signers than the first one of its quorum. -/
theorem bijective_iff_firstIsBest (hinj : Collisionless serializeHash qcs) :
    (∀ earlier,earlier <+: qcs → ∃ processor,addMinableCommitments serializeHash earlier=
      some processor ∧ Bijective serializeHash processor) ↔ FirstIsBest qcs := by
  -- from the left: while the condition holds, the first commitments are kept
  have hboth : ((∀ earlier,earlier <+: qcs → ∃ processor,
        addMinableCommitments serializeHash earlier=some processor ∧
          Bijective serializeHash processor) ↔ FirstIsBest qcs) ∧
      (FirstIsBest qcs → ∃ processor,addMinableCommitments serializeHash qcs=some processor ∧
        KeepsFirst serializeHash processor qcs) := by
    induction qcs using reverseRecOn with
    | nil =>
      refine ⟨⟨fun _ qc hm => absurd hm not_mem_nil,fun _ earlier hearlier => ?_⟩,
        fun _ => ⟨_,rfl,keepsFirst_empty⟩⟩
      rw [prefix_nil.mp hearlier]
      exact ⟨_,rfl,keepsFirst_empty.bijective⟩
    | append_singleton qcs qc ih =>
      obtain ⟨hiff,hkeeps⟩ := ih hinj.left
      have hlast : FirstIsBest qcs → ∃ next,
          addMinableCommitments serializeHash (qcs++[qc])=some next ∧
            (Bijective serializeHash next ↔
              ∀ first∈firstFor (quorumKey qc) qcs,countSigners qc ≤ countSigners first) ∧
            ((∀ first∈firstFor (quorumKey qc) qcs,countSigners qc ≤ countSigners first) →
              KeepsFirst serializeHash next (qcs++[qc])) := by
        intro hbest
        obtain ⟨processor,hrun,hprocessor⟩ := hkeeps hbest
        obtain ⟨result,hadd,hfacts⟩ := hprocessor.addMinableCommitment hinj
        refine ⟨result.1,?_,hfacts⟩
        rw [addMinableCommitments_append,hrun,bind_some,hadd,map_some]
      rw [firstIsBest_append_iff]
      refine ⟨⟨fun hall => ?_,fun ⟨hbest,hweak⟩ earlier hearlier => ?_⟩,fun ⟨hbest,hweak⟩ => ?_⟩
      · have hbest := hiff.mp (fun earlier hearlier =>
          hall earlier (hearlier.trans (prefix_append _ _)))
        obtain ⟨next,hnext,hnextIff,_⟩ := hlast hbest
        obtain ⟨processor,hrun,hbij⟩ := hall (qcs++[qc]) prefix_rfl
        rw [hnext] at hrun
        rw [←some.inj hrun] at hbij
        exact ⟨hbest,hnextIff.mp hbij⟩
      · obtain ⟨next,hnext,hnextIff,_⟩ := hlast hbest
        cases prefix_concat_iff.mp hearlier with
        | inl heq =>
          rw [heq]
          exact ⟨next,hnext,hnextIff.mpr hweak⟩
        | inr hbefore => exact hiff.mpr hbest earlier hbefore
      · obtain ⟨next,hnext,_,hnextKeeps⟩ := hlast hbest
        exact ⟨next,hnext,hnextKeeps hweak⟩
  exact hboth.1

end Steps

/-- Two commitments of a quorum, the second one with fewer signers. -/
theorem bijective_iff_firstIsBest_sample :
    FirstIsBest [sampleCommitment 10,sampleCommitment 6] ∧
      ∀ earlier,earlier <+: [sampleCommitment 10,sampleCommitment 6] →
        ∃ processor,addMinableCommitments sampleHash earlier=some processor ∧
          Bijective sampleHash processor := by
  have hbest : FirstIsBest [sampleCommitment 10,sampleCommitment 6] := by
    dsimp only [FirstIsBest]
    decide
  have hinj : Collisionless sampleHash [sampleCommitment 10,sampleCommitment 6] := by
    dsimp only [Collisionless]
    decide
  exact ⟨hbest,(bijective_iff_firstIsBest hinj).mpr hbest⟩

/-- A commitment with ten signers replaces one with six, which is found as before. -/
theorem replacedCommitment_found : ∃ processor,
    addMinableCommitments sampleHash [sampleCommitment 6,sampleCommitment 10]=some processor ∧
      processor.minableCommitmentsByQuorum.find (quorumKey (sampleCommitment 6))=
        some (sampleHash (sampleCommitment 10)) ∧
      hasMinableCommitment processor (sampleHash (sampleCommitment 6))=true ∧
      getMinableCommitmentByHash processor (sampleHash (sampleCommitment 6))=
        some (sampleCommitment 6) ∧ ¬Bijective sampleHash processor := by
  have hrun : (addMinableCommitments sampleHash [sampleCommitment 6,sampleCommitment 10]).map
      (fun processor =>
        (processor.minableCommitmentsByQuorum.find (quorumKey (sampleCommitment 6)),
          hasMinableCommitment processor (sampleHash (sampleCommitment 6)),
          getMinableCommitmentByHash processor (sampleHash (sampleCommitment 6))))=
      some (some (sampleHash (sampleCommitment 10)),true,some (sampleCommitment 6)) := by decide
  obtain ⟨processor,hprocessor,hfacts⟩ := map_eq_some_iff.mp hrun
  rw [Prod.mk.injEq,Prod.mk.injEq] at hfacts
  refine ⟨processor,hprocessor,hfacts.1,hfacts.2.1,hfacts.2.2,fun hbij => ?_⟩
  have howned := hbij.owned _ _ hfacts.2.2
  rw [hfacts.1] at howned
  revert howned
  decide

end Pyrk.MinableBijection
