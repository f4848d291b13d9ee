import Pyrk.VoteRemoval

/-!
# Positions of votes in their file

The map of a vote file leads from hashes to nodes of its list. A file that is copied or read gets
nodes of its own, so that its map is built again.
-/

namespace Pyrk.VoteFileNodes

open Transaction GovernanceObject OrderedMap

/-- A vote file. A node is a number that is given once. -/
structure VoteFile where
  nMemoryVotes : ℤ := 0
  listVotes : List (CGovernanceVote×ℕ) := []
  mapVoteIndex : OrderedMap Uint256 ℕ := .empty
  nextNode : ℕ := 0

variable (getHash : CGovernanceVote → Uint256)

def addVote (file : VoteFile) (vote : CGovernanceVote) : VoteFile :=
  if file.mapVoteIndex.contains (getHash vote) then file
  else
    { nMemoryVotes := file.nMemoryVotes+1
      listVotes := (vote,file.nextNode)::file.listVotes
      mapVoteIndex := file.mapVoteIndex.emplace (getHash vote) file.nextNode
      nextNode := file.nextNode+1 }

/-- Drop the vote of a node if it is picked, and note its hash. -/
def removeStep (pick : CGovernanceVote → Bool) (st : VoteFile×List Uint256)
    (it : CGovernanceVote×ℕ) : VoteFile×List Uint256 :=
  if pick it.1 then
    ({ st.1 with
      nMemoryVotes := st.1.nMemoryVotes-1
      mapVoteIndex := st.1.mapVoteIndex.erase (getHash it.1)
      listVotes := st.1.listVotes.filter fun other => other.2≠it.2 },st.2++[getHash it.1])
  else st

/-- Walk over the list and drop what is picked. -/
def removeVotes (file : VoteFile) (pick : CGovernanceVote → Bool) : VoteFile×List Uint256 :=
  file.listVotes.foldl (removeStep getHash pick) (file,[])

def removeVotesFromMasternode (file : VoteFile) (outpointMasternode : COutPoint) : VoteFile :=
  (removeVotes getHash file fun vote => vote.masternodeOutpoint=outpointMasternode).1

/-- Drop the funding votes of a masternode that are not valid. -/
def removeInvalidProposalVotes (isValid : CGovernanceVote → Bool) (file : VoteFile)
    (outpointMasternode : COutPoint) : VoteFile×List Uint256 :=
  removeVotes getHash file fun vote => vote.getSignal=voteSignalFunding &&
    vote.masternodeOutpoint=outpointMasternode && !isValid vote

/-- Drop the votes before a time. -/
def removeOldVotes (file : VoteFile) (nMinTime : ℕ) : VoteFile×List Uint256 :=
  removeVotes getHash file fun vote => decide (vote.nTime < (nMinTime : ℤ))

/-- Index the vote of a node, or drop it if its hash is indexed. -/
def rebuildStep (file : VoteFile) (it : CGovernanceVote×ℕ) : VoteFile :=
  if file.mapVoteIndex.find (getHash it.1)=none then
    { file with
      mapVoteIndex := file.mapVoteIndex.set (getHash it.1) it.2
      nMemoryVotes := file.nMemoryVotes+1 }
  else { file with listVotes := file.listVotes.filter fun other => other.2≠it.2 }

/-- Build the map again. -/
def rebuildIndex (file : VoteFile) : VoteFile :=
  file.listVotes.foldl (rebuildStep getHash)
    { file with mapVoteIndex := .empty, nMemoryVotes := 0 }

/-- Read a file over one that may hold votes. -/
def unserialize (file : VoteFile) (nMemoryVotes : ℤ) (votes : List CGovernanceVote) : VoteFile :=
  rebuildIndex getHash
    { file with
      nMemoryVotes := nMemoryVotes
      listVotes := votes.zipIdx file.nextNode
      nextNode := file.nextNode+votes.length }

/-- Copy of a file, with nodes that the file does not have. -/
def copy (file : VoteFile) : VoteFile :=
  rebuildIndex getHash
    { nMemoryVotes := file.nMemoryVotes
      listVotes := (file.listVotes.map Prod.fst).zipIdx file.nextNode
      nextNode := file.nextNode+file.listVotes.length }

inductive FileCall where
  | addVote (vote : CGovernanceVote)
  | removeVotesFromMasternode (outpointMasternode : COutPoint)
  | removeInvalidProposalVotes (isValid : CGovernanceVote → Bool) (outpointMasternode : COutPoint)
  | removeOldVotes (nMinTime : ℕ)
  | copy
  | unserialize (nMemoryVotes : ℤ) (votes : List CGovernanceVote)

def perform (file : VoteFile) : FileCall → VoteFile
  | .addVote vote => addVote getHash file vote
  | .removeVotesFromMasternode outpoint => removeVotesFromMasternode getHash file outpoint
  | .removeInvalidProposalVotes isValid outpoint =>
    (removeInvalidProposalVotes getHash isValid file outpoint).1
  | .removeOldVotes nMinTime => (removeOldVotes getHash file nMinTime).1
  | .copy => copy getHash file
  | .unserialize nMemoryVotes votes => unserialize getHash file nMemoryVotes votes

/-- Nodes and hashes of some votes are different, and the map leads from the hashes to the nodes. -/
structure Indexed (votes : List (CGovernanceVote×ℕ)) (map : OrderedMap Uint256 ℕ) : Prop where
  nodes : (votes.map Prod.snd).Nodup
  hashes : (votes.map fun it => getHash it.1).Nodup
  index : ∀ hash node, map.find hash=some node ↔ ∃ vote, (vote,node)∈votes ∧ getHash vote=hash

/-- The map of a file mirrors its list. -/
structure Mirrors (file : VoteFile) : Prop
    extends Indexed getHash file.listVotes file.mapVoteIndex where
  nMemoryVotes : file.nMemoryVotes=file.listVotes.length
  fresh : ∀ it∈file.listVotes, it.2 < file.nextNode

variable {getHash} {file : VoteFile} {pick : CGovernanceVote → Bool}
  {votes : List (CGovernanceVote×ℕ)} {map : OrderedMap Uint256 ℕ}

theorem Indexed.find_eq_none (h : Indexed getHash votes map) {hash : Uint256} :
    map.find hash=none ↔ ∀ it∈votes, getHash it.1≠hash := by
  rw [Option.eq_none_iff_forall_ne_some]
  constructor
  · exact fun hnone it hm heq => hnone it.2 ((h.index hash it.2).mpr ⟨it.1,hm,heq⟩)
  · intro hall node hfind
    obtain ⟨vote,hm,heq⟩ := (h.index hash node).mp hfind
    exact hall _ hm heq

theorem Indexed.cons (h : Indexed getHash votes map) {vote : CGovernanceVote} {node : ℕ}
    (hnode : node∉votes.map Prod.snd) (hhash : map.find (getHash vote)=none) :
    Indexed getHash ((vote,node)::votes) (map.set (getHash vote) node) := by
  refine ⟨List.nodup_cons.mpr ⟨hnode,h.nodes⟩,List.nodup_cons.mpr ⟨?_,h.hashes⟩,?_⟩
  · intro hm
    obtain ⟨it,hit,heq⟩ := List.mem_map.mp hm
    exact h.find_eq_none.mp hhash it hit heq
  · intro hash other
    rw [find_set]
    split_ifs with hsame
    · constructor
      · intro heq
        exact ⟨vote,by rw [← Option.some.inj heq]; exact List.mem_cons_self,hsame.symm⟩
      · rintro ⟨found,hm,heq⟩
        rcases List.mem_cons.mp hm with hnew | hold
        · rw [(Prod.mk.inj hnew).2]
        · exact absurd (heq.trans hsame) (h.find_eq_none.mp hhash _ hold)
    · rw [h.index]
      refine exists_congr fun found => and_congr_left fun heq => ?_
      refine ⟨List.mem_cons_of_mem _,fun hm => (List.mem_cons.mp hm).resolve_left fun hnew => ?_⟩
      rw [(Prod.mk.inj hnew).1] at heq
      exact hsame heq.symm

theorem Indexed.erase (h : Indexed getHash votes map) {it : CGovernanceVote×ℕ} (hm : it∈votes) :
    Indexed getHash (votes.filter fun other => other.2≠it.2) (map.erase (getHash it.1)) := by
  refine ⟨h.nodes.sublist (List.filter_sublist.map _),h.hashes.sublist (List.filter_sublist.map _),
    fun hash node => ?_⟩
  rw [find_erase]
  constructor
  · intro hfind
    split_ifs at hfind with hsame
    obtain ⟨vote,hvote,heq⟩ := (h.index hash node).mp hfind
    refine ⟨vote,List.mem_filter.mpr ⟨hvote,decide_eq_true fun hnode => hsame ?_⟩,heq⟩
    rw [← heq,← List.inj_on_of_nodup_map h.nodes hvote hm hnode]
  · rintro ⟨vote,hvote,heq⟩
    obtain ⟨hold,hnode⟩ := List.mem_filter.mp hvote
    rw [if_neg]
    · exact (h.index hash node).mpr ⟨vote,hold,heq⟩
    · intro hsame
      rw [← List.inj_on_of_nodup_map h.hashes hold hm (heq.trans hsame)] at hnode
      exact absurd rfl (of_decide_eq_true hnode)

theorem length_filter_node {it : CGovernanceVote×ℕ} (hnodes : (votes.map Prod.snd).Nodup)
    (hm : it∈votes) : (votes.filter fun other => other.2≠it.2).length+1=votes.length := by
  have hsame : (votes.filter fun other => other.2≠it.2)=votes.erase it := by
    rw [(List.Nodup.of_map _ hnodes).erase_eq_filter]
    refine List.filter_congr fun other hother => ?_
    have heq : other.2=it.2 ↔ other=it :=
      ⟨List.inj_on_of_nodup_map hnodes hother hm,congrArg Prod.snd⟩
    rw [decide_eq_decide.mpr (not_congr heq),decide_not,bne,beq_eq_decide]
  rw [hsame,List.length_erase_of_mem hm]
  have hpos := List.length_pos_of_mem hm
  omega

/-- A walk over some nodes drops what is picked there, and notes the hashes. -/
theorem Mirrors.removeSteps (its : List (CGovernanceVote×ℕ)) : ∀ {file : VoteFile}
    {removed : List Uint256}, Mirrors getHash file → (its.map Prod.snd).Nodup →
    (∀ it∈its, it∈file.listVotes) →
    Mirrors getHash (its.foldl (removeStep getHash pick) (file,removed)).1 ∧
    (its.foldl (removeStep getHash pick) (file,removed)).1.listVotes=
      file.listVotes.filter (fun it => !(pick it.1 && decide (it∈its))) ∧
    (its.foldl (removeStep getHash pick) (file,removed)).2=
      removed++(its.filter fun it => pick it.1).map fun it => getHash it.1 := by
  induction its with
  | nil => exact fun h _ _ => ⟨h,by simp,by simp⟩
  | cons it its ih =>
    intro file removed h hnodes hmem
    obtain ⟨hother,hnodes⟩ := List.nodup_cons.mp hnodes
    rw [List.foldl_cons]
    by_cases hpick : pick it.1
    · have hit := hmem it List.mem_cons_self
      have hlen := length_filter_node h.nodes hit
      have hcount := h.nMemoryVotes
      obtain ⟨hmirrors,hlist,hremoved⟩ := @ih { file with
          nMemoryVotes := file.nMemoryVotes-1
          mapVoteIndex := file.mapVoteIndex.erase (getHash it.1)
          listVotes := file.listVotes.filter fun other => other.2≠it.2 }
        (removed++[getHash it.1])
        { h.toIndexed.erase hit with
          nMemoryVotes := by dsimp only; omega
          fresh := fun other hm => h.fresh other (List.mem_filter.mp hm).1 } hnodes
        (fun other hm => List.mem_filter.mpr ⟨hmem other (List.mem_cons_of_mem _ hm),
          decide_eq_true fun heq => hother (heq ▸ List.mem_map_of_mem hm)⟩)
      rw [removeStep,if_pos hpick]
      refine ⟨hmirrors,?_,?_⟩
      · rw [hlist,List.filter_filter]
        refine List.filter_congr fun other hm => ?_
        have heq : other.2=it.2 ↔ other=it :=
          ⟨List.inj_on_of_nodup_map h.nodes hm hit,congrArg Prod.snd⟩
        by_cases hsame : other=it
        · simp [hsame,hpick]
        · simp [heq,hsame]
      · rw [hremoved]
        simp [hpick]
    · obtain ⟨hmirrors,hlist,hremoved⟩ := @ih file removed h hnodes
        (fun other hm => hmem other (List.mem_cons_of_mem _ hm))
      rw [removeStep,if_neg hpick]
      refine ⟨hmirrors,?_,?_⟩
      · rw [hlist]
        refine List.filter_congr fun other _ => ?_
        by_cases hsame : other=it
        · simp [hsame,hpick]
        · simp [hsame]
      · rw [hremoved]
        simp [hpick]

theorem Mirrors.removeVotes (h : Mirrors getHash file) :
    Mirrors getHash (removeVotes getHash file pick).1 ∧
    (removeVotes getHash file pick).1.listVotes=file.listVotes.filter (fun it => !pick it.1) ∧
    (removeVotes getHash file pick).2=
      (file.listVotes.filter fun it => pick it.1).map fun it => getHash it.1 := by
  obtain ⟨hmirrors,hlist,hremoved⟩ :=
    @Mirrors.removeSteps getHash pick file.listVotes file [] h h.nodes (fun _ hm => hm)
  refine ⟨hmirrors,hlist.trans (List.filter_congr fun it hm => ?_),hremoved⟩
  rw [decide_eq_true hm,Bool.and_true]

theorem Indexed.perm (h : Indexed getHash votes map) {other : List (CGovernanceVote×ℕ)}
    (hperm : votes.Perm other) : Indexed getHash other map := by
  refine ⟨(hperm.map _).nodup_iff.mp h.nodes,(hperm.map _).nodup_iff.mp h.hashes,
    fun hash node => ?_⟩
  rw [h.index]
  exact exists_congr fun vote => and_congr_left fun _ => hperm.mem_iff

theorem mirrors_rebuildSteps (rest : List (CGovernanceVote×ℕ)) : ∀ {file : VoteFile}
    {kept : List (CGovernanceVote×ℕ)}, file.listVotes=kept++rest →
    ((kept++rest).map Prod.snd).Nodup → Indexed getHash kept file.mapVoteIndex →
    file.nMemoryVotes=kept.length → (∀ it∈kept++rest, it.2 < file.nextNode) →
    Mirrors getHash (rest.foldl (rebuildStep getHash) file) := by
  induction rest with
  | nil =>
    intro file kept hlist _ hindexed hcount hfresh
    rw [List.append_nil] at hlist hfresh
    rw [← hlist] at hindexed hcount hfresh
    exact { hindexed with nMemoryVotes := hcount, fresh := hfresh }
  | cons it rest ih =>
    intro file kept hlist hnodes hindexed hcount hfresh
    have happend : kept++it::rest=kept++[it]++rest := by simp
    have hmid := hnodes
    rw [List.map_append,List.map_cons,List.nodup_middle,← List.map_append,← List.map_cons,
      List.map_cons,List.nodup_cons] at hmid
    rw [List.foldl_cons,rebuildStep]
    split_ifs with hnew
    · refine ih (hlist.trans happend) (happend ▸ hnodes) ((hindexed.cons (fun hm => ?_) hnew).perm
        (List.perm_append_singleton it kept).symm) ?_ (happend ▸ hfresh)
      · exact hmid.1 (by rw [List.map_append]; exact List.mem_append_left _ hm)
      · rw [List.length_append,List.length_singleton,Nat.cast_succ,hcount]
    · have hothers : ∀ other∈kept++rest, decide (other.2≠it.2)=true := fun other hm =>
        decide_eq_true fun heq => hmid.1 (heq ▸ List.mem_map_of_mem hm)
      refine ih ?_ hmid.2 hindexed hcount fun other hm => hfresh other ?_
      · dsimp only
        rw [hlist,List.filter_append,List.filter_cons_of_neg (by simp),← List.filter_append,
          List.filter_eq_self.mpr hothers]
      · rcases List.mem_append.mp hm with hkept | hrest
        · exact List.mem_append_left _ hkept
        · exact List.mem_append_right _ (List.mem_cons_of_mem _ hrest)

theorem mirrors_rebuildIndex {votes : List CGovernanceVote} {first : ℕ} (nMemoryVotes : ℤ)
    (map : OrderedMap Uint256 ℕ) : Mirrors getHash (rebuildIndex getHash
      ⟨nMemoryVotes,votes.zipIdx first,map,first+votes.length⟩) := by
  refine @mirrors_rebuildSteps getHash _ _ [] rfl ?_ ⟨List.nodup_nil,List.nodup_nil,?_⟩ rfl ?_
  · rw [List.nil_append,List.zipIdx_map_snd]
    exact List.nodup_range'
  · intro hash node
    simp [find_empty]
  · intro it hm
    exact List.snd_lt_add_of_mem_zipIdx hm

theorem Mirrors.perform (h : Mirrors getHash file) (call : FileCall) :
    Mirrors getHash (perform getHash file call) := by
  cases call with
  | addVote vote =>
    unfold VoteFileNodes.perform VoteFileNodes.addVote
    dsimp only
    split_ifs with hknown
    · exact h
    · have hnone := (contains_eq_false _ _).mp (Bool.not_eq_true _ ▸ hknown)
      have hset : file.mapVoteIndex.emplace (getHash vote) file.nextNode=
          file.mapVoteIndex.set (getHash vote) file.nextNode := by
        rw [OrderedMap.emplace,if_neg hknown]
      have hcount := h.nMemoryVotes
      rw [hset]
      refine { h.toIndexed.cons (fun hm => ?_) hnone with nMemoryVotes := ?_, fresh := ?_ }
      · obtain ⟨it,hit,heq⟩ := List.mem_map.mp hm
        exact absurd (h.fresh it hit) (heq ▸ lt_irrefl _)
      · rw [hcount]
        rfl
      · intro it hm
        rcases List.mem_cons.mp hm with rfl | hold
        · exact Nat.lt_succ_self _
        · exact Nat.lt_succ_of_lt (h.fresh it hold)
  | removeVotesFromMasternode outpoint => exact h.removeVotes.1
  | removeInvalidProposalVotes isValid outpoint => exact h.removeVotes.1
  | removeOldVotes nMinTime => exact h.removeVotes.1
  | copy =>
    have hcopy := @mirrors_rebuildIndex getHash (file.listVotes.map Prod.fst) file.nextNode
      file.nMemoryVotes .empty
    rwa [List.length_map] at hcopy
  | unserialize nMemoryVotes votes => exact mirrors_rebuildIndex nMemoryVotes file.mapVoteIndex

end Pyrk.VoteFileNodes
