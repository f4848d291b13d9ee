import Pyrk.BlockLinks
import Mathlib.Data.List.TakeWhile
import Mathlib.Data.Prod.Lex

/-!
# The best valid chain wins

Headers and blocks arrive in any order, and some cannot be connected. Between activations the best
block that was ever the tip is a mark: every good block that is not worse than it is a candidate.
-/

namespace Pyrk.BestChain

open BlockTree ChainActivation ChainEffects FailureFlags BlockLinks List ChainState ChainActivation

/-- Work, then earlier number, then address. -/
def rank (pindex : CBlockIndex) : ℕ×ₗℤ×ₗℤ :=
  toLex (pindex.nChainWork,toLex (-pindex.nSequenceId,-(pindex.address : ℤ)))

/-- All blocks of the branch were received and none is known to be invalid. -/
def Eligible (st : ChainState) (pindex : CBlockIndex) : Prop :=
  (∀ before∈pindex.branch, ∃ other, st.find before=some other ∧
    other.nStatus.haveData=true) ∧ ¬FailureBefore st pindex

/-- The tip is the best eligible block, and the candidates are the eligible
blocks that are not worse. -/
def TipIsBest (st : ChainState) : Prop :=
  match st.tip with
  | none => (∀ hash pindex, st.find hash=some pindex → ¬Eligible st pindex) ∧
      st.setBlockIndexCandidates=[]
  | some pindexTip => Eligible st pindexTip ∧
      (∀ hash pindex, st.find hash=some pindex → Eligible st pindex →
        pindex.nChainWork<pindexTip.nChainWork ∨ pindex.nChainWork=pindexTip.nChainWork ∧
          pindexTip.nSequenceId≤pindex.nSequenceId) ∧
      ∀ hash, hash∈st.setBlockIndexCandidates ↔
        ∃ pindex, st.find hash=some pindex ∧ Eligible st pindex ∧ pindex.worse pindexTip=false

/-- Connecting follows an assignment of success or failure: connected blocks have undo data, and
refused ones are marked. -/
structure Follows (verdict : ℕ → Bool) (st : ChainState) : Prop where
  connected : ∀ hash pindex, st.find hash=some pindex → pindex.nStatus.haveUndo=true →
    verdict hash=true
  refused : ∀ hash pindex, st.find hash=some pindex → pindex.nStatus.haveData=true →
    pindex.nStatus.failedValid=true → verdict hash=false

/-- The first block has nothing to check and connects. -/
def FirstConnects (st : ChainState) (outcomes : List Outcome) : Prop :=
  st.chainActive=[] → outcomes.head?≠some .invalid ∧ outcomes.head?≠some .corrupted

/-- Calls of a node that is not disturbed: headers and blocks arrive, and activations end without an
error. -/
def Undisturbed (verdict : ℕ → Bool) (st : ChainState) : ChainCall → Prop
  | .acceptBlockHeader _ => True
  | .acceptBlock block => block.check=.stored → block.nTx≠0
  | .activateBestChain outcomes =>
    (activateBestChain ⟨st,outcomes⟩).1=.done ∧ FirstConnects st outcomes ∧
      Follows verdict (activateBestChain ⟨st,outcomes⟩).2.st
  | _ => False

section Order

theorem worse_iff (pa pb : CBlockIndex) : pa.worse pb=true ↔ rank pa < rank pb := by
  unfold CBlockIndex.worse rank
  rw [Prod.Lex.toLex_lt_toLex,Prod.Lex.toLex_lt_toLex]
  split_ifs with hmore hless hearlier hlater
  · simp only [false_iff]
    omega
  · simp only [true_iff]
    omega
  · simp only [false_iff]
    omega
  · simp only [true_iff]
    omega
  · rw [decide_eq_true_eq]
    omega

theorem worse_eq_false (pa pb : CBlockIndex) : pa.worse pb=false ↔ rank pb ≤ rank pa := by
  rw [← not_lt,← worse_iff,Bool.not_eq_true]

theorem foldl_betterCandidate {candidates : List CBlockIndex} {best : Option CBlockIndex}
    {pindex : CBlockIndex} (hbest : candidates.foldl betterCandidate best=some pindex) :
    (∀ other∈best, rank other ≤ rank pindex) ∧ ∀ other∈candidates, rank other ≤ rank pindex := by
  induction candidates generalizing best with
  | nil =>
    grind
  | cons first candidates ih =>
    obtain ⟨hstart,hrest⟩ := ih hbest
    have hfirst : (∀ other∈best, rank other ≤ rank pindex) ∧ rank first ≤ rank pindex := by
      cases best with
      | none => exact ⟨fun other hmem => absurd hmem (Option.not_mem_none _),hstart first rfl⟩
      | some old =>
        unfold betterCandidate at hstart
        dsimp only at hstart
        split_ifs at hstart with hworse
        · have hbetter := hstart first rfl
          rw [worse_iff] at hworse
          exact ⟨fun other hmem => Option.mem_some_iff.mp hmem ▸ hworse.le.trans hbetter,hbetter⟩
        · have hold := hstart old rfl
          rw [Bool.not_eq_true,worse_eq_false] at hworse
          exact ⟨fun other hmem => Option.mem_some_iff.mp hmem ▸ hold,hworse.trans hold⟩
    grind

theorem foldl_betterCandidate_some (candidates : List CBlockIndex) (best : CBlockIndex) :
    ∃ pindex, candidates.foldl betterCandidate (some best)=some pindex := by
  induction candidates generalizing best with
  | nil => exact ⟨best,rfl⟩
  | cons first candidates ih =>
    rw [foldl_cons]
    unfold betterCandidate
    dsimp only
    split_ifs
    · exact ih first
    · exact ih best

variable {st : ChainState}

theorem rank_le_bestCandidate {pindex : CBlockIndex} (hbest : bestCandidate st=some pindex)
    {hash : ℕ} {other : CBlockIndex} (hmem : hash∈st.setBlockIndexCandidates)
    (hfind : st.find hash=some other) : rank other ≤ rank pindex :=
  (foldl_betterCandidate hbest).2 other (mem_filterMap.mpr ⟨hash,hmem,hfind⟩)

theorem bestCandidate_eq_none (hnone : bestCandidate st=none) {hash : ℕ}
    (hmem : hash∈st.setBlockIndexCandidates) : st.find hash=none := by
  by_contra hfind
  obtain ⟨pindex,hidx⟩ := Option.ne_none_iff_exists'.mp hfind
  have hlisted : pindex∈st.setBlockIndexCandidates.filterMap st.find :=
    mem_filterMap.mpr ⟨hash,hmem,hidx⟩
  unfold bestCandidate at hnone
  cases hcands : st.setBlockIndexCandidates.filterMap st.find with
  | nil =>
    rw [hcands] at hlisted
    cases hlisted
  | cons first candidates =>
    rw [hcands,foldl_cons] at hnone
    obtain ⟨best,hbest⟩ := foldl_betterCandidate_some candidates first
    rw [show betterCandidate none first=some first from rfl,hbest] at hnone
    cases hnone

end Order

/-- Linked blocks have different numbers. -/
structure Numbered (st : ChainState) : Prop where
  given : ∀ {hash pindex}, st.find hash=some pindex → pindex.nChainTx≠0 →
    pindex.nSequenceId < st.nBlockSequenceId
  distinct : ∀ {hash other pindex entry}, st.find hash=some pindex →
    st.find other=some entry → pindex.nChainTx≠0 → entry.nChainTx≠0 →
    pindex.nSequenceId=entry.nSequenceId → hash=other

/-- What holds of the tree whatever the active chain is. -/
structure Ground (hashGenesis : ℕ) (st : ChainState) : Prop where
  /-- Blocks are linked, or wait, or come after a failure. -/
  tree : LinkedTree True hashGenesis st
  flags : FlagsJustified st
  numbered : Numbered st

/-- Linked, with no failed block on the branch. -/
def Good (st : ChainState) (pindex : CBlockIndex) : Prop :=
  pindex.nChainTx≠0 ∧ ∀ before∈pindex.branch, ∀ other, st.find before=some other →
    other.nStatus.failed=false

section Ground

variable {hashGenesis : ℕ} {st next : ChainState}

variable {pindex : CBlockIndex}

theorem Ground.good_iff (hground : Ground hashGenesis st) {hash : ℕ}
    (hfind : st.find hash=some pindex) :
    Good st pindex ↔ Eligible st pindex := by
  have hsound := hground.tree.sound
  have hlinks := hground.tree.links
  constructor
  · rintro ⟨hlink,hunfailed⟩
    refine ⟨fun before hmem => ?_,?_⟩
    · obtain ⟨other,hother,hcount⟩ := hlinks.linked_branch hsound hfind hlink hmem
      exact ⟨other,hother,(hlinks.linked hother hcount).1⟩
    · rintro ⟨before,hmem,other,hother,hfail⟩
      have hflag := hunfailed before hmem other hother
      rw [BlockStatus.failed,hfail] at hflag
      cases hflag
  · rintro ⟨hrecv,hunfailed⟩
    refine ⟨hlinks.linked_of_received hsound hfind hrecv (fun _ => hunfailed),?_⟩
    intro before hmem other hother
    refine Bool.eq_false_of_not_eq_true (fun hfail => hunfailed ?_)
    obtain ⟨found,hfound,hsuffix⟩ := hsound.find_of_mem hfind hmem
    rw [hother] at hfound
    cases hfound
    exact (hground.flags before other hother hfail).of_kept (fun _ h => hsuffix.subset h)
      (fun hfind hfail => ⟨_,hfind,hfail⟩)

variable {hash before : ℕ}

theorem Good.of_mem (hground : Ground hashGenesis st)
    {pindex other : CBlockIndex} (hgood : Good st pindex) (hfind : st.find hash=some pindex)
    (hmem : before∈pindex.branch) (hother : st.find before=some other) : Good st other := by
  obtain ⟨found,hfound,hsuffix⟩ := hground.tree.sound.find_of_mem hfind hmem
  rw [hother] at hfound
  cases hfound
  obtain ⟨linked,hlink,hcount⟩ :=
    hground.tree.links.linked_branch hground.tree.sound hfind hgood.1 hmem
  rw [hother] at hlink
  cases hlink
  exact ⟨hcount,fun first hfirst => hgood.2 first (hsuffix.subset hfirst)⟩

theorem branch_active (hsound : SoundTree st)
    (hmem : hash∈st.chainActive) (hfind : st.find hash=some pindex)
    (hbefore : before∈pindex.branch) : before∈st.chainActive := by
  rcases hsound.active with hnone | ⟨hashTip,pindexTip,hfindTip,hbranch⟩
  · rw [hnone] at hmem
    cases hmem
  · rw [hbranch] at hmem ⊢
    obtain ⟨other,hother,hsuffix⟩ := hsound.find_of_mem hfindTip hmem
    rw [hfind] at hother
    cases hother
    exact hsuffix.subset hbefore

theorem Ground.mem_active_of_path (hground : Ground hashGenesis st)
    (hfind : st.find hash=some pindex) (hmem : before∈pindex.branch)
    (hout : before∉pathTo st pindex) : before∈st.chainActive := by
  have hsplit : pathTo st pindex++
      pindex.branch.dropWhile (fun other => other∉st.chainActive)=pindex.branch :=
    takeWhile_append_dropWhile
  have hlast : before∈pindex.branch.dropWhile (fun other => other∉st.chainActive) := by
    rw [← hsplit] at hmem
    exact (mem_append.mp hmem).resolve_left hout
  cases hdrop : pindex.branch.dropWhile (fun other => other∉st.chainActive) with
  | nil =>
    rw [hdrop] at hlast
    cases hlast
  | cons first rest =>
    have hne : pindex.branch.dropWhile (fun other => other∉st.chainActive)≠[] := by
      rw [hdrop]
      exact cons_ne_nil _ _
    have hfirst := head_dropWhile_not (fun other => decide (other∉st.chainActive)) hne
    simp only [hdrop,head_cons,decide_eq_false_iff_not,not_not] at hfirst
    rw [hdrop] at hsplit hlast
    obtain ⟨other,hother,hbranch⟩ := hground.tree.sound.find_of_append hfind hsplit.symm
    exact branch_active hground.tree.sound hfirst hother (hbranch ▸ hlast)

theorem Ground.eq_of_rank (hground : Ground hashGenesis st) {hash other : ℕ}
    {pindex entry : CBlockIndex} (hfind : st.find hash=some pindex)
    (hother : st.find other=some entry) (hlink : pindex.nChainTx≠0)
    (hlinkedOther : entry.nChainTx≠0) (hrank : rank pindex=rank entry) : hash=other := by
  refine hground.numbered.distinct hfind hother hlink hlinkedOther ?_
  have hsecond := congrArg (fun value => (ofLex (ofLex value).2).1) hrank
  exact neg_injective hsecond

/-- Only the status of blocks changes, and no block loses its failure. -/
structure StatusOnly (st next : ChainState) : Prop where
  kept : ∀ {hash pindex}, st.find hash=some pindex →
    ∃ nStatus, next.find hash=some { pindex with nStatus := nStatus } ∧
      (pindex.nStatus.failed=true → nStatus.failed=true) ∧
      (pindex.nStatus.haveUndo=true → nStatus.haveUndo=true)
  old : ∀ {hash changed}, next.find hash=some changed →
    ∃ pindex, st.find hash=some pindex ∧ changed={ pindex with nStatus := changed.nStatus } ∧
      (pindex.nStatus.failed=true → changed.nStatus.failed=true) ∧
      (pindex.nStatus.haveUndo=true → changed.nStatus.haveUndo=true)
  numbers : next.nBlockSequenceId=st.nBlockSequenceId

theorem StatusOnly.of_map (hmap : next.mapBlockIndex=st.mapBlockIndex)
    (hnumbers : next.nBlockSequenceId=st.nBlockSequenceId) : StatusOnly st next :=
  ⟨fun {hash pindex} hfind => ⟨pindex.nStatus,(find_of_map hmap hash).trans hfind,id,id⟩,
    fun {hash pindex} hfind => ⟨pindex,(find_of_map hmap hash).symm.trans hfind,rfl,id,id⟩,hnumbers⟩

theorem statusOnly_setStatus {hash : ℕ} {change : BlockStatus → BlockStatus}
    (hfail : ∀ nStatus, nStatus.failed=true → (change nStatus).failed=true)
    (hundo : ∀ nStatus, nStatus.haveUndo=true → (change nStatus).haveUndo=true) :
    StatusOnly st (st.setStatus hash change) := by
  refine ⟨?_,?_,?_⟩
  · intro other pindex hfind
    rw [ChainState.setStatus,find_modify]
    split_ifs
    · rw [hfind]
      exact ⟨change pindex.nStatus,rfl,hfail _,hundo _⟩
    · exact ⟨pindex.nStatus,hfind,id,id⟩
  · intro other changed hfind
    rw [ChainState.setStatus,find_modify] at hfind
    split_ifs at hfind
    · obtain ⟨pindex,hidx,rfl⟩ := Option.map_eq_some_iff.mp hfind
      exact ⟨pindex,hidx,rfl,hfail _,hundo _⟩
    · exact ⟨changed,hfind,rfl,id,id⟩
  · unfold ChainState.setStatus ChainState.modify
    split <;> rfl

theorem statusOnly_markFailedValid (hash : ℕ) : StatusOnly st (st.markFailedValid hash) :=
  statusOnly_setStatus (fun _ _ => rfl) (fun _ h => h)

theorem statusOnly_markFailedChild (hash : ℕ) : StatusOnly st (st.markFailedChild hash) :=
  statusOnly_setStatus (fun _ _ => by simp only [BlockStatus.failed,Bool.or_true]) (fun _ h => h)

theorem StatusOnly.trans {last : ChainState} (hfirst : StatusOnly st next)
    (hsecond : StatusOnly next last) : StatusOnly st last := by
  refine ⟨?_,?_,hsecond.numbers.trans hfirst.numbers⟩
  · intro hash pindex hfind
    obtain ⟨middle,hmid,hfail,hundo⟩ := hfirst.kept hfind
    obtain ⟨nStatus,hlast,hfailed',hundo'⟩ := hsecond.kept hmid
    exact ⟨nStatus,hlast,fun h => hfailed' (hfail h),fun h => hundo' (hundo h)⟩
  · intro hash changed hfind
    obtain ⟨middle,hmid,hsame,hfail,hundo⟩ := hsecond.old hfind
    obtain ⟨pindex,hidx,hsame',hfailed',hundo'⟩ := hfirst.old hmid
    refine ⟨pindex,hidx,?_,fun h => hfail (hfailed' h),fun h => hundo (hundo' h)⟩
    rw [hsame,hsame']

theorem Numbered.status (hnum : Numbered st) (hstat : StatusOnly st next) :
    Numbered next := by
  refine ⟨?_,?_⟩
  · intro hash changed hfind hlink
    obtain ⟨pindex,hidx,hsame,-⟩ := hstat.old hfind
    rw [hsame] at hlink ⊢
    rw [hstat.numbers]
    have hgiven := hnum.given hidx hlink
    exact hgiven
  · intro hash other changed entry hfind hother hlink hlinkedOther hnumber
    obtain ⟨pindex,hidx,hsame,-⟩ := hstat.old hfind
    obtain ⟨before,hbefore,hsameOther,-⟩ := hstat.old hother
    rw [hsame] at hlink hnumber
    rw [hsameOther] at hlinkedOther hnumber
    have hdistinct := hnum.distinct hidx hbefore hlink hlinkedOther hnumber
    exact hdistinct

theorem Ground.primitives (hground : Ground hashGenesis st)
    (hsteps : Primitives False st next) (hstat : StatusOnly st next) :
    Ground hashGenesis next :=
  ⟨hground.tree.primitives (fun _ => not_false) hsteps,
    hground.flags.effects hground.tree.sound (Primitives.effects hsteps),
    hground.numbered.status hstat⟩

end Ground

/-- The block was connected before. -/
def WasConnected (hashGenesis : ℕ) (st : ChainState) (hash : ℕ) : Prop :=
  hash=hashGenesis ∨ ∃ pindex, st.find hash=some pindex ∧ pindex.nStatus.haveUndo=true

/-- The block with a hash is good. -/
def IsGood (st : ChainState) (hash : ℕ) : Prop :=
  ∃ pindex, st.find hash=some pindex ∧ Good st pindex

/-- A block is not better than another one. -/
def NotBetter (st : ChainState) (hash other : ℕ) : Prop :=
  ∀ pindex entry, st.find hash=some pindex → st.find other=some entry →
    rank pindex ≤ rank entry

/-- Where the mark stands to the active chain and the candidates. -/
structure Place (hashGenesis : ℕ) (mark : Option ℕ) (st : ChainState) : Prop where
  marked : ∀ hash∈mark, hash∈st.setBlockIndexCandidates ∧ IsGood st hash
  connected : ∀ hash∈mark, ∀ pindex, st.find hash=some pindex →
    ∀ before∈pindex.branch, WasConnected hashGenesis st before
  /-- The blocks of the active chain are good and connected. -/
  active : ∀ hash∈st.chainActive, IsGood st hash ∧ WasConnected hashGenesis st hash
  above : ∀ hash∈st.setBlockIndexCandidates, ∀ hashMark∈mark, NotBetter st hashMark hash
  /-- Good blocks that are not worse than the mark are candidates. -/
  all : ∀ hash, IsGood st hash → (∀ hashMark∈mark, NotBetter st hashMark hash) →
    hash∈st.setBlockIndexCandidates
  /-- No block of the active chain is better than the mark. -/
  below : ∀ hash∈st.chainActive, ∃ hashMark∈mark, NotBetter st hash hashMark

/-- A change of the active chain on its way. -/
structure Climb (hashGenesis : ℕ) (mark : Option ℕ) (st : ChainState) : Prop
    extends Place hashGenesis mark st where
  ground : Ground hashGenesis st

section Climb

variable {hashGenesis : ℕ} {mark : Option ℕ} {st next : ChainState}

variable {hash : ℕ}

theorem WasConnected.status (hconn : WasConnected hashGenesis st hash)
    (hstat : StatusOnly st next) : WasConnected hashGenesis next hash := by
  rcases hconn with hgenesis | ⟨pindex,hfind,hundo⟩
  · exact .inl hgenesis
  · obtain ⟨nStatus,hnext,-,hkept⟩ := hstat.kept hfind
    exact .inr ⟨_,hnext,hkept hundo⟩

theorem notBetter_status (hstat : StatusOnly st next) (hash other : ℕ) :
    NotBetter next hash other ↔ NotBetter st hash other := by
  constructor
  · intro hnext pindex entry hfind hother
    obtain ⟨nStatus,hkept,-⟩ := hstat.kept hfind
    obtain ⟨nStatusOther,hkeptOther,-⟩ := hstat.kept hother
    have hrank := hnext _ _ hkept hkeptOther
    exact hrank
  · intro hstate changed changedOther hfind hother
    obtain ⟨pindex,hidx,hsame,-⟩ := hstat.old hfind
    obtain ⟨entry,hentry,hsameOther,-⟩ := hstat.old hother
    have hrank := hstate pindex entry hidx hentry
    rw [hsame,hsameOther]
    exact hrank

theorem NotBetter.trans {hash middle other : ℕ} {pindex : CBlockIndex}
    (hfirst : NotBetter st hash middle) (hsecond : NotBetter st middle other)
    (hfind : st.find middle=some pindex) : NotBetter st hash other :=
  fun first last hfirstFind hlastFind =>
    (hfirst first pindex hfirstFind hfind).trans (hsecond pindex last hfind hlastFind)

theorem NotBetter.refl (hash : ℕ) : NotBetter st hash hash := by
  intro pindex entry hfind hother
  rw [hfind] at hother
  cases hother
  exact le_rfl

theorem notBetter_total (hash other : ℕ) :
    NotBetter st hash other ∨ NotBetter st other hash := by
  by_cases hle : NotBetter st hash other
  · exact .inl hle
  · refine .inr ?_
    unfold NotBetter at hle
    push Not at hle
    obtain ⟨pindex,entry,hfind,hother,hlt⟩ := hle
    intro found foundOther hfound hfoundOther
    grind

theorem IsGood.of_status (hgood : IsGood next hash) (hstat : StatusOnly st next) :
    IsGood st hash := by
  obtain ⟨changed,hchanged,hlink,hunfailed⟩ := hgood
  obtain ⟨pindex,hidx,hsame,-⟩ := hstat.old hchanged
  rw [hsame] at hlink hunfailed
  refine ⟨pindex,hidx,hlink,fun before hmem other hother => ?_⟩
  obtain ⟨nStatus,hkept,hfail,-⟩ := hstat.kept hother
  have hflag := hunfailed before hmem _ hkept
  exact Bool.eq_false_of_not_eq_true (fun h => absurd (hfail h) (Bool.eq_false_iff.mp hflag))

theorem connected_status (hstat : StatusOnly st next)
    (hconn : ∀ pindex, st.find hash=some pindex →
      ∀ before∈pindex.branch, WasConnected hashGenesis st before) :
    ∀ changed, next.find hash=some changed →
      ∀ before∈changed.branch, WasConnected hashGenesis next before := by
  intro changed hchanged before hmem
  obtain ⟨pindex,hidx,hsame,-⟩ := hstat.old hchanged
  rw [hsame] at hmem
  exact (hconn pindex hidx before hmem).status hstat

theorem Climb.refuse (hclimb : Climb hashGenesis mark st)
    (hsteps : Primitives False st next) (hstat : StatusOnly st next)
    (hchain : next.chainActive=st.chainActive)
    (hsub : ∀ hash∈next.setBlockIndexCandidates, hash∈st.setBlockIndexCandidates)
    (hdropped : ∀ hash∈st.setBlockIndexCandidates, hash∉next.setBlockIndexCandidates →
      ¬IsGood next hash)
    (hkept : ∀ hash, IsGood st hash → (∀ pindex, st.find hash=some pindex →
        ∀ before∈pindex.branch, WasConnected hashGenesis st before) → IsGood next hash) :
    Climb hashGenesis mark next := by
  have hstay : ∀ hash, IsGood next hash → hash∈st.setBlockIndexCandidates →
      hash∈next.setBlockIndexCandidates := by
    intro hash hgood hmem
    by_contra hout
    exact hdropped hash hmem hout hgood
  refine ⟨⟨?_,?_,?_,?_,?_,?_⟩,hclimb.ground.primitives hsteps hstat⟩
  · intro hash hmem
    obtain ⟨hcand,hgood⟩ := hclimb.marked hash hmem
    have hgoodNext := hkept hash hgood (hclimb.connected hash hmem)
    exact ⟨hstay hash hgoodNext hcand,hgoodNext⟩
  · exact fun hash hmem => connected_status hstat (hclimb.connected hash hmem)
  · intro hash hmem
    rw [hchain] at hmem
    obtain ⟨hgood,hconn⟩ := hclimb.active hash hmem
    refine ⟨hkept hash hgood (fun pindex hfind before hbefore => ?_),hconn.status hstat⟩
    exact (hclimb.active before (branch_active hclimb.ground.tree.sound hmem hfind hbefore)).2
  · intro hash hmem hashMark hmark
    rw [notBetter_status hstat]
    exact hclimb.above hash (hsub hash hmem) hashMark hmark
  · intro hash hgood habove
    refine hstay hash hgood (hclimb.all hash (hgood.of_status hstat) ?_)
    exact fun hashMark hmark => (notBetter_status hstat _ _).mp (habove hashMark hmark)
  · intro hash hmem
    rw [hchain] at hmem
    obtain ⟨hashMark,hmark,hbelow⟩ := hclimb.below hash hmem
    exact ⟨hashMark,hmark,(notBetter_status hstat _ _).mpr hbelow⟩

theorem Climb.disconnect (hclimb : Climb hashGenesis mark st) :
    Climb hashGenesis mark { st with chainActive := st.chainActive.tail } := by
  have hsteps : Primitives False st { st with chainActive := st.chainActive.tail } :=
    .single (.chain hclimb.ground.tree.sound.tail_branch)
  have htail : ∀ hash∈st.chainActive.tail, hash∈st.chainActive :=
    fun hash hmem => mem_of_mem_tail hmem
  exact ⟨⟨hclimb.marked,hclimb.connected,fun hash hmem => hclimb.active hash (htail hash hmem),
    hclimb.above,hclimb.all,fun hash hmem => hclimb.below hash (htail hash hmem)⟩,
    hclimb.ground.primitives hsteps (.of_map rfl rfl)⟩

theorem statusOnly_connectBlock (pindexNew : CBlockIndex) :
    StatusOnly st (connectBlock st pindexNew) := by
  unfold connectBlock
  split_ifs
  · exact .of_map rfl rfl
  · refine StatusOnly.trans (statusOnly_setStatus (fun nStatus hfail => ?_)
      (fun nStatus hundo => (stageKept_connectedStatus nStatus).haveUndo hundo)) (.of_map rfl rfl)
    obtain ⟨hvalid,hchild⟩ := flags_raiseValidity { nStatus with haveUndo := true } .scripts
    unfold connectedStatus
    rw [BlockStatus.failed,hvalid,hchild]
    exact hfail

theorem wasConnected_connectBlock (hground : Ground hashGenesis st)
    {pindexNew : CBlockIndex} (hfind : st.find pindexNew.hash=some pindexNew) :
    WasConnected hashGenesis (connectBlock st pindexNew) pindexNew.hash := by
  by_cases hroot : pindexNew.pprev=[]
  · have hlast := hground.tree.rooted _ _ hfind
    rw [CBlockIndex.branch,hroot] at hlast
    exact .inl (Option.some.inj hlast)
  · refine .inr ⟨{ pindexNew with nStatus := connectedStatus pindexNew.nStatus },?_,?_⟩
    · unfold connectBlock
      rw [if_neg hroot]
      refine (find_modify st _ _ _).trans ?_
      rw [if_pos rfl,hfind]
      rfl
    · have hraise :=
        stageKept_raiseValidity { pindexNew.nStatus with haveUndo := true } .scripts
      exact hraise.haveUndo rfl

theorem failed_connectBlock (pindexNew : CBlockIndex) {changed : CBlockIndex}
    (hfind : (connectBlock st pindexNew).find hash=some changed) :
    ∃ pindex, st.find hash=some pindex ∧ changed.nStatus.failed=pindex.nStatus.failed := by
  unfold connectBlock at hfind
  split_ifs at hfind
  · exact ⟨changed,hfind,rfl⟩
  · have hstat : (st.setStatus pindexNew.hash connectedStatus).find hash=some changed := hfind
    rw [ChainState.setStatus,find_modify] at hstat
    split_ifs at hstat
    · obtain ⟨pindex,hidx,rfl⟩ := Option.map_eq_some_iff.mp hstat
      obtain ⟨hvalid,hchild⟩ :=
        flags_raiseValidity { pindex.nStatus with haveUndo := true } .scripts
      refine ⟨pindex,hidx,?_⟩
      dsimp only [connectedStatus]
      rw [BlockStatus.failed,hvalid,hchild]
      rfl
    · exact ⟨changed,hstat,rfl⟩

theorem IsGood.connectBlock (hgood : IsGood st hash) (pindexNew : CBlockIndex) :
    IsGood (connectBlock st pindexNew) hash := by
  obtain ⟨pindex,hidx,hlink,hunfailed⟩ := hgood
  obtain ⟨nStatus,hkept,-⟩ := (@statusOnly_connectBlock st pindexNew).kept hidx
  refine ⟨_,hkept,hlink,fun before hmem changed hchanged => ?_⟩
  obtain ⟨other,hother,hsame⟩ := failed_connectBlock pindexNew hchanged
  rw [hsame]
  exact hunfailed before hmem other hother

/-- Candidates that stay after a block became the tip. -/
theorem mem_pruned_iff {pindexNew : CBlockIndex} (hfind : st.find pindexNew.hash=some pindexNew)
    (hash : ℕ) :
    hash∈(pruneBlockIndexCandidates (connectBlock st pindexNew)).setBlockIndexCandidates ↔
      hash∈st.setBlockIndexCandidates ∧ NotBetter st pindexNew.hash hash := by
  have hstat := @statusOnly_connectBlock st pindexNew
  obtain ⟨nStatus,htip,-⟩ := hstat.kept hfind
  have hcands : (connectBlock st pindexNew).setBlockIndexCandidates=
      st.setBlockIndexCandidates := by
    unfold connectBlock ChainState.setStatus ChainState.modify
    split_ifs
    · rfl
    · split <;> rfl
  have hworse : ∀ pindex, (connectBlock st pindexNew).worseThanTip pindex=
      pindex.worse { pindexNew with nStatus := nStatus } := by
    intro pindex
    unfold worseThanTip tip
    rw [show (connectBlock st pindexNew).chainActive=pindexNew.branch from rfl,
      CBlockIndex.branch,head?_cons,Option.bind_some,htip]
  unfold pruneBlockIndexCandidates
  rw [mem_filter,hcands,← notBetter_status hstat]
  refine and_congr_right (fun _ => ?_)
  cases hfound : (connectBlock st pindexNew).find hash with
  | none =>
    refine iff_of_true rfl (fun pindex entry _ hother => ?_)
    rw [hfound] at hother
    cases hother
  | some changed =>
    dsimp only
    rw [hworse,Bool.not_eq_true',worse_eq_false]
    constructor
    · intro hrank pindex entry hidx hother
      grind
    · exact fun hall => hall _ _ htip hfound

theorem exists_mark (hclimb : Climb hashGenesis mark st) (hgood : IsGood st hash)
    (hconn : ∀ pindex, st.find hash=some pindex → ∀ before∈pindex.branch,
      before≠hash → WasConnected hashGenesis st before) :
    ∃ hashMark, (hashMark=hash ∨ hashMark∈mark) ∧ hashMark∈st.setBlockIndexCandidates ∧
      IsGood st hashMark ∧ NotBetter st hash hashMark ∧
      (∀ other∈mark, NotBetter st other hashMark) ∧
      ∀ pindex, st.find hashMark=some pindex → ∀ before∈pindex.branch,
        before≠hash → WasConnected hashGenesis st before := by
  by_cases hleast : ∀ hashMark∈mark, NotBetter st hashMark hash
  · exact ⟨hash,.inl rfl,hclimb.all hash hgood hleast,hgood,.refl hash,hleast,hconn⟩
  · push Not at hleast
    obtain ⟨hashMark,hmark,hworse⟩ := hleast
    obtain ⟨hcand,hgoodMark⟩ := hclimb.marked hashMark hmark
    refine ⟨hashMark,.inr hmark,hcand,hgoodMark,
      (notBetter_total hash hashMark).resolve_right hworse,?_,
      fun pindex hfind before hmem _ => hclimb.connected hashMark hmark pindex hfind before hmem⟩
    intro other hother
    rw [Option.mem_unique hother hmark]
    exact .refl hashMark

theorem Climb.connect (hclimb : Climb hashGenesis mark st) {pindexNew : CBlockIndex}
    (hfind : st.find pindexNew.hash=some pindexNew) (hgood : Good st pindexNew)
    (hnext : pindexNew.pprev=st.chainActive) :
    ∃ mark', Climb hashGenesis mark'
      (pruneBlockIndexCandidates (connectBlock st pindexNew)) := by
  have hsteps : Primitives False st (pruneBlockIndexCandidates (connectBlock st pindexNew)) :=
    (primitives_connectBlock hclimb.ground.tree.sound hfind).trans primitives_prune
  have hstat : StatusOnly st (pruneBlockIndexCandidates (connectBlock st pindexNew)) :=
    (statusOnly_connectBlock pindexNew).trans (.of_map rfl rfl)
  have hconnectedNew : WasConnected hashGenesis
      (pruneBlockIndexCandidates (connectBlock st pindexNew)) pindexNew.hash :=
    wasConnected_connectBlock hclimb.ground hfind
  have hmember := @mem_pruned_iff st pindexNew hfind
  have hkept : ∀ {hash}, IsGood st hash →
      IsGood (pruneBlockIndexCandidates (connectBlock st pindexNew)) hash :=
    fun hgood => hgood.connectBlock pindexNew
  have hgoodNew : IsGood st pindexNew.hash := ⟨pindexNew,hfind,hgood⟩
  have hact : (pruneBlockIndexCandidates (connectBlock st pindexNew)).chainActive=
      pindexNew.hash::st.chainActive := by
    rw [← hnext]
    rfl
  obtain ⟨hashMark,hchoice,hcand,hgoodMark,hbetter,hbest,hbefore⟩ :=
    exists_mark hclimb hgoodNew (fun pindex hidx before hmem hne => by
      rw [hfind] at hidx
      cases hidx
      rw [CBlockIndex.branch,hnext] at hmem
      exact (hclimb.active before ((mem_cons.mp hmem).resolve_left hne)).2)
  have hfound := hgoodMark
  obtain ⟨pindexMark,hfindMark,-⟩ := hfound
  have hone : ∀ {holds : ℕ → Prop}, holds hashMark → ∀ hash∈some hashMark, holds hash := by
    intro holds hholds hash hmem
    rw [← Option.mem_some_iff.mp hmem]
    exact hholds
  refine ⟨some hashMark,⟨?_,?_,?_,?_,?_,?_⟩,hclimb.ground.primitives hsteps hstat⟩
  · exact hone ⟨(hmember hashMark).mpr ⟨hcand,hbetter⟩,hkept hgoodMark⟩
  · refine hone (fun changed hchanged before hmem => ?_)
    obtain ⟨pindex,hidx,hsame,-⟩ := hstat.old hchanged
    rw [hsame] at hmem
    by_cases heq : before=pindexNew.hash
    · rw [heq]
      exact hconnectedNew
    · exact (hbefore pindex hidx before hmem heq).status hstat
  · rw [hact]
    intro hash hmem
    rcases mem_cons.mp hmem with rfl | hmem
    · exact ⟨hkept hgoodNew,hconnectedNew⟩
    · obtain ⟨hgoodOld,hconn⟩ := hclimb.active hash hmem
      exact ⟨hkept hgoodOld,hconn.status hstat⟩
  · intro hash hmem
    obtain ⟨hold,hrank⟩ := (hmember hash).mp hmem
    refine hone ((notBetter_status hstat _ _).mpr ?_)
    rcases hchoice with rfl | hmark
    · exact hrank
    · exact hclimb.above hash hold hashMark hmark
  · intro hash hgoodHash habove
    have hrank := (notBetter_status hstat _ _).mp (habove hashMark rfl)
    refine (hmember hash).mpr ⟨?_,hbetter.trans hrank hfindMark⟩
    exact hclimb.all hash (hgoodHash.of_status hstat)
      (fun other hother => (hbest other hother).trans hrank hfindMark)
  · rw [hact]
    intro hash hmem
    refine ⟨hashMark,rfl,(notBetter_status hstat _ _).mpr ?_⟩
    rcases mem_cons.mp hmem with rfl | hmem
    · exact hbetter
    · obtain ⟨other,hother,hbelow⟩ := hclimb.below hash hmem
      obtain ⟨-,pindexOther,hfindOther,-⟩ := hclimb.marked other hother
      exact hbelow.trans (hbest other hother) hfindOther

end Climb

/-- A block is the target: the best candidate, and good. -/
structure Target (st : ChainState) (pindexMostWork : CBlockIndex) : Prop where
  cand : pindexMostWork.hash∈st.setBlockIndexCandidates
  branch : ∃ pindex, st.find pindexMostWork.hash=some pindex ∧
    pindex.branch=pindexMostWork.branch
  good : IsGood st pindexMostWork.hash
  best : ∀ hash∈st.setBlockIndexCandidates, NotBetter st hash pindexMostWork.hash

section Path

variable {hashGenesis : ℕ} {mark : Option ℕ} {st next : ChainState}
  {pindexMostWork : CBlockIndex}

variable {hash : ℕ}

theorem Target.notBetter (htarget : Target st pindexMostWork)
    (hclimb : Climb hashGenesis mark st) (hgood : IsGood st hash) :
    NotBetter st hash pindexMostWork.hash := by
  by_cases hleast : ∀ hashMark∈mark, NotBetter st hashMark hash
  · exact htarget.best hash (hclimb.all hash hgood hleast)
  · push Not at hleast
    obtain ⟨hashMark,hmark,hworse⟩ := hleast
    obtain ⟨hcand,pindexMark,hfind,-⟩ := hclimb.marked hashMark hmark
    exact ((notBetter_total hash hashMark).resolve_right hworse).trans
      (htarget.best hashMark hcand) hfind

theorem Target.connect (htarget : Target st pindexMostWork)
    (hclimb : Climb hashGenesis mark st) {pindexNew : CBlockIndex}
    (hfind : st.find pindexNew.hash=some pindexNew) (hgood : Good st pindexNew) :
    Target (pruneBlockIndexCandidates (connectBlock st pindexNew)) pindexMostWork := by
  have hstat : StatusOnly st (pruneBlockIndexCandidates (connectBlock st pindexNew)) :=
    (statusOnly_connectBlock pindexNew).trans (.of_map rfl rfl)
  have hmember := @mem_pruned_iff st pindexNew hfind
  obtain ⟨pindex,hidx,hbranch⟩ := htarget.branch
  obtain ⟨nStatus,hkept,-⟩ := hstat.kept hidx
  refine ⟨(hmember _).mpr ⟨htarget.cand,htarget.notBetter hclimb ⟨pindexNew,hfind,hgood⟩⟩,
    ⟨_,hkept,hbranch⟩,htarget.good.connectBlock pindexNew,fun hash hmem => ?_⟩
  rw [notBetter_status hstat]
  exact htarget.best hash ((hmember hash).mp hmem).1

theorem Target.good_of_mem (htarget : Target st pindexMostWork)
    (hground : Ground hashGenesis st) {pindex : CBlockIndex}
    (hmem : hash∈pindexMostWork.branch) (hfind : st.find hash=some pindex) :
    Good st pindex := by
  obtain ⟨target,htargetFind,hbranch⟩ := htarget.branch
  obtain ⟨other,hother,hgood⟩ := htarget.good
  rw [htargetFind] at hother
  cases hother
  rw [← hbranch] at hmem
  exact hgood.of_mem hground htargetFind hmem hfind

variable {pindexNew : CBlockIndex}

theorem Climb.refuseBlock (hclimb : Climb hashGenesis mark st)
    (hfresh : ¬WasConnected hashGenesis st pindexNew.hash) :
    Climb hashGenesis mark
      ((st.markFailedValid pindexNew.hash).eraseCandidate pindexNew.hash) := by
  have hstat : StatusOnly st
      ((st.markFailedValid pindexNew.hash).eraseCandidate pindexNew.hash) :=
    (statusOnly_markFailedValid pindexNew.hash).trans (.of_map rfl rfl)
  have hfind : ∀ hash, ((st.markFailedValid pindexNew.hash).eraseCandidate
      pindexNew.hash).find hash=(st.markFailedValid pindexNew.hash).find hash := fun _ => rfl
  have hcands : ((st.markFailedValid pindexNew.hash).eraseCandidate
      pindexNew.hash).setBlockIndexCandidates=
        st.setBlockIndexCandidates.filter (fun other => other≠pindexNew.hash) := by
    unfold eraseCandidate ChainState.markFailedValid ChainState.setStatus ChainState.modify
    split <;> rfl
  refine hclimb.refuse ((primitives_markFailedValid _).trans (primitives_eraseCandidate _)) hstat
    (chainActive_modify _ _ _) ?_ ?_ ?_
  · intro hash hmem
    rw [hcands] at hmem
    exact (mem_filter.mp hmem).1
  · intro hash hmem hout hgood
    rw [hcands,mem_filter,decide_eq_true_eq] at hout
    have heq : hash=pindexNew.hash := by
      by_contra hne
      exact hout ⟨hmem,hne⟩
    obtain ⟨changed,hchanged,-,hunfailed⟩ := hgood
    have hself : hash∈changed.branch := by
      obtain ⟨pindex,hidx,hsame,-⟩ := hstat.old hchanged
      rw [hsame,← hclimb.ground.tree.sound.hash hidx]
      exact mem_cons_self
    have hflag := hunfailed hash hself changed hchanged
    rw [hfind,ChainState.markFailedValid,ChainState.setStatus,find_modify,if_pos heq] at hchanged
    obtain ⟨pindex,-,rfl⟩ := Option.map_eq_some_iff.mp hchanged
    rw [BlockStatus.failed] at hflag
    cases hflag
  · rintro hash ⟨pindex,hidx,hlink,hunfailed⟩ hconn
    obtain ⟨nStatus,hkept,-⟩ := hstat.kept hidx
    refine ⟨_,hkept,hlink,fun before hmem changed hchanged => ?_⟩
    have hne : before≠pindexNew.hash := fun heq =>
      hfresh (heq ▸ hconn pindex hidx before hmem)
    rw [hfind,ChainState.markFailedValid,ChainState.setStatus,find_modify,if_neg hne] at hchanged
    exact hunfailed before hmem changed hchanged

theorem data_of_primitives (hsteps : Primitives False st next)
    {pindex : CBlockIndex} (hfind : st.find hash=some pindex) :
    ∃ changed, next.find hash=some changed ∧
      (pindex.nStatus.haveUndo=true → changed.nStatus.haveUndo=true) ∧
      (pindex.nStatus.haveData=true → changed.nStatus.haveData=true) := by
  induction hsteps with
  | refl => exact ⟨pindex,hfind,id,id⟩
  | tail _ hstep ih =>
    obtain ⟨middle,hmid,hundo,hdata⟩ := ih
    cases hstep with
    | status hkept _ =>
      rw [ChainState.setStatus,find_modify,hmid]
      split_ifs
      · exact ⟨_,rfl,fun h => (hkept middle.nStatus).haveUndo (hundo h),
          fun h => (hkept middle.nStatus).haveData.trans (hdata h)⟩
      · exact ⟨middle,rfl,hundo,hdata⟩
    | sequence =>
      rw [find_modify,hmid]
      split_ifs
      · exact ⟨_,rfl,hundo,hdata⟩
      · exact ⟨middle,rfl,hundo,hdata⟩
    | missing _ hmap _ => exact ⟨middle,(find_of_map hmap hash).trans hmid,hundo,hdata⟩
    | chain _ => exact ⟨middle,hmid,hundo,hdata⟩
    | numbers => exact ⟨middle,hmid,hundo,hdata⟩
    | drop _ => exact ⟨middle,hmid,hundo,hdata⟩
    | cand _ _ => exact ⟨middle,hmid,hundo,hdata⟩

theorem Follows.of_primitives {verdict : ℕ → Bool} (hfollows : Follows verdict next)
    (hsteps : Primitives False st next) : Follows verdict st := by
  refine ⟨?_,?_⟩
  · intro hash pindex hfind hundo
    obtain ⟨changed,hchanged,hkept,-⟩ := data_of_primitives hsteps hfind
    exact hfollows.connected hash changed hchanged (hkept hundo)
  · intro hash pindex hfind hrecv hfail
    obtain ⟨changed,hchanged,-,hkept⟩ := data_of_primitives hsteps hfind
    obtain ⟨other,hother,hflag⟩ := failedValid_effects (Primitives.effects hsteps) hfind hfail
    rw [hchanged] at hother
    cases hother
    exact hfollows.refused hash changed hchanged (hkept hrecv) hflag

theorem Follows.not_wasConnected {verdict : ℕ → Bool} (hground : Ground hashGenesis st)
    (hfollows : Follows verdict
      ((st.markFailedValid pindexNew.hash).eraseCandidate pindexNew.hash))
    (hfind : st.find pindexNew.hash=some pindexNew) (hlink : pindexNew.nChainTx≠0)
    (hlater : pindexNew.pprev≠[]) : ¬WasConnected hashGenesis st pindexNew.hash := by
  rintro (hgenesis | ⟨pindex,hidx,hundo⟩)
  · rw [hgenesis] at hfind
    exact hlater (hground.tree.rooted.genesis_pprev hground.tree.sound hfind)
  · rw [hfind] at hidx
    cases hidx
    have hdata := (hground.tree.links.linked hfind hlink).1
    have hmarked : ((st.markFailedValid pindexNew.hash).eraseCandidate
        pindexNew.hash).find pindexNew.hash=
          some { pindexNew with nStatus := { pindexNew.nStatus with failedValid := true } } := by
      refine (find_modify st _ _ _).trans ?_
      rw [if_pos rfl,hfind]
      rfl
    have hyes := hfollows.connected _ _ hmarked hundo
    have hno := hfollows.refused _ _ hmarked hdata rfl
    rw [hyes] at hno
    cases hno

theorem Target.next_block (htarget : Target st pindexMostWork)
    (hground : Ground hashGenesis st) {hashes : List ℕ}
    (hpath : pindexMostWork.branch=(hash::hashes).reverse++st.chainActive) :
    ∃ pindexNew, pindexNew.hash=hash ∧ st.find hash=some pindexNew ∧ Good st pindexNew ∧
      pindexNew.pprev=st.chainActive := by
  rw [reverse_cons,append_assoc,singleton_append] at hpath
  obtain ⟨target,htargetFind,hbranch⟩ := htarget.branch
  obtain ⟨pindexNew,hfind,hrest⟩ :=
    hground.tree.sound.find_of_append htargetFind (hbranch.trans hpath)
  have hmem : hash∈pindexMostWork.branch := by
    rw [hpath]
    exact mem_append_right _ mem_cons_self
  exact ⟨pindexNew,hground.tree.sound.hash hfind,hfind,htarget.good_of_mem hground hmem hfind,
    tail_eq_of_cons_eq hrest⟩

/-- What connecting blocks on the way to the target comes to. -/
structure Connected (hashGenesis : ℕ) (pindexMostWork : CBlockIndex)
    (result : StepResult×Progress) : Prop where
  climb : ∃ mark, Climb hashGenesis mark result.2.st
  active : result.2.st.chainActive≠[]
  target : result.1=.advanced → Target result.2.st pindexMostWork

theorem connected_connectBlocks {verdict : ℕ → Bool} (nOldWork : Option ℕ) (hashes : List ℕ)
    {progress : Progress} (hclimb : Climb hashGenesis mark progress.st)
    (htarget : Target progress.st pindexMostWork)
    (hpath : pindexMostWork.branch=hashes.reverse++progress.st.chainActive)
    (hfirst : FirstConnects progress.st progress.outcomes)
    (hfollows : Follows verdict (connectBlocks nOldWork hashes progress).2.st)
    (hres : (connectBlocks nOldWork hashes progress).1≠.failed) :
    Connected hashGenesis pindexMostWork (connectBlocks nOldWork hashes progress) := by
  induction hashes generalizing progress mark with
  | nil =>
    refine ⟨⟨mark,hclimb⟩,?_,fun _ => htarget⟩
    intro hempty
    rw [reverse_nil,nil_append] at hpath
    exact absurd (hpath.trans hempty) (cons_ne_nil _ _)
  | cons hash hashes ih =>
    obtain ⟨pindexNew,hhash,hfind,hgood,hpprev⟩ := htarget.next_block hclimb.ground hpath
    unfold connectBlocks at hfollows hres ⊢
    rw [hfind] at hfollows hres ⊢
    rw [← hhash] at hfind
    unfold connectTip Progress.next at hfollows hres ⊢
    cases houtcomes : progress.outcomes with
    | nil =>
      rw [houtcomes] at hres
      exact absurd rfl hres
    | cons outcome outcomes =>
      rw [houtcomes] at hfollows hres hfirst
      cases outcome with
      | systemError => exact absurd rfl hres
      | corrupted =>
        refine ⟨⟨mark,hclimb⟩,fun hempty => (hfirst hempty).2 rfl,fun h => ?_⟩
        cases h
      | invalid =>
        have hchain : progress.st.chainActive≠[] := fun hempty => (hfirst hempty).1 rfl
        have hfresh := Follows.not_wasConnected hclimb.ground hfollows hfind hgood.1
          (hpprev ▸ hchain)
        refine ⟨⟨mark,hclimb.refuseBlock hfresh⟩,?_,fun h => ?_⟩
        · have hsame : ((progress.st.markFailedValid pindexNew.hash).eraseCandidate
              pindexNew.hash).chainActive=progress.st.chainActive := chainActive_modify _ _ _
          exact fun hempty => hchain (hsame.symm.trans hempty)
        · cases h
      | ok =>
        obtain ⟨mark',hclimb'⟩ := hclimb.connect hfind hgood hpprev
        have htarget' := htarget.connect hclimb hfind hgood
        have hact : (pruneBlockIndexCandidates
            (connectBlock progress.st pindexNew)).chainActive=
              hash::progress.st.chainActive := by
          rw [← hpprev,← hhash]
          rfl
        dsimp only [Progress.withState] at hfollows hres ⊢
        split_ifs at hfollows hres ⊢ with hbetter
        · refine ⟨⟨mark',hclimb'⟩,?_,fun _ => htarget'⟩
          rw [hact]
          exact cons_ne_nil _ _
        · refine @ih mark' ⟨_,outcomes⟩ hclimb' htarget' ?_ ?_ hfollows hres
          · dsimp only
            rw [hact,hpath,reverse_cons,append_assoc,singleton_append]
          · intro hempty
            rw [hact] at hempty
            cases hempty

theorem disconnectTo_eq (pindexFork : Option ℕ) (blocks : ℕ) {progress : Progress}
    (henough : progress.st.chainActive.length≤blocks)
    (hdone : (disconnectTo pindexFork blocks progress).1=true) :
    (disconnectTo pindexFork blocks progress).2.st={ progress.st with
      chainActive := progress.st.chainActive.dropWhile (fun hash => some hash≠pindexFork) } ∧
    (progress.st.chainActive=[] → (disconnectTo pindexFork blocks progress).2=progress) := by
  induction blocks generalizing progress with
  | zero =>
    have hempty : progress.st.chainActive=[] :=
      eq_nil_of_length_eq_zero (Nat.le_zero.mp henough)
    refine ⟨?_,fun _ => rfl⟩
    rw [hempty]
    unfold disconnectTo
    rw [dropWhile_nil,← hempty]
  | succ blocks ih =>
    unfold disconnectTo at hdone ⊢
    cases hact : progress.st.chainActive with
    | nil =>
      have hstop : ([] : List ℕ).head?=none ∨ ([] : List ℕ).head?=pindexFork := .inl rfl
      rw [if_pos hstop,dropWhile_nil,← hact]
      exact ⟨rfl,fun _ => rfl⟩
    | cons hash before =>
      rw [hact] at hdone
      by_cases hfork : some hash=pindexFork
      · have hstop : (hash::before).head?=none ∨ (hash::before).head?=pindexFork := .inr hfork
        rw [if_pos hstop,dropWhile_cons_of_neg (by simpa using hfork),← hact]
        exact ⟨rfl,fun _ => rfl⟩
      · have hgo : ¬((hash::before).head?=none ∨ (hash::before).head?=pindexFork) := by
          rintro (h | h)
          · cases h
          · exact hfork h
        rw [if_neg hgo] at hdone ⊢
        rw [dropWhile_cons_of_pos (by simpa using hfork)]
        unfold disconnectTip Progress.next at hdone ⊢
        cases houtcomes : progress.outcomes with
        | nil =>
          rw [houtcomes] at hdone
          cases hdone
        | cons outcome outcomes =>
          rw [houtcomes] at hdone
          cases outcome with
          | ok =>
            dsimp only [Progress.withState] at hdone ⊢
            obtain ⟨hstate,-⟩ := ih (by
              rw [hact] at henough ⊢
              simpa using henough) hdone
            refine ⟨?_,fun h => by cases h⟩
            rw [hstate]
            rw [hact]
            rfl
          | invalid => cases hdone
          | corrupted => cases hdone
          | systemError => cases hdone

theorem Climb.disconnectTo (hclimb : Climb hashGenesis mark st) (pindexFork : Option ℕ) :
    Climb hashGenesis mark { st with
      chainActive := st.chainActive.dropWhile (fun hash => some hash≠pindexFork) } := by
  generalize hact : st.chainActive=chain
  induction chain generalizing st with
  | nil =>
    rw [dropWhile_nil,← hact]
    exact hclimb
  | cons hash before ih =>
    by_cases hfork : some hash=pindexFork
    · rw [dropWhile_cons_of_neg (by simpa using hfork),← hact]
      exact hclimb
    · rw [dropWhile_cons_of_pos (by simpa using hfork)]
      exact @ih { st with chainActive := st.chainActive.tail } hclimb.disconnect
        (congrArg tail hact)

theorem Target.fork (htarget : Target st pindexMostWork)
    (hground : Ground hashGenesis st) {pindexFork : Option ℕ}
    (hfork : pindexMostWork.branch.find? (fun hash => hash∈st.chainActive)=pindexFork) :
    pindexMostWork.branch=pindexMostWork.branch.takeWhile (fun hash => some hash≠pindexFork)++
      st.chainActive.dropWhile (fun hash => some hash≠pindexFork) ∧
    (st.chainActive.dropWhile (fun hash => some hash≠pindexFork)=[] → st.chainActive=[]) := by
  have hsound := hground.tree.sound
  obtain ⟨target,htargetFind,hbranch⟩ := htarget.branch
  cases pindexFork with
  | none =>
    have hout := find?_eq_none.mp hfork
    have hempty : st.chainActive=[] := by
      rcases hsound.active with hempty | ⟨hashTip,pindexTip,hfindTip,hact⟩
      · exact hempty
      · have hlast := mem_of_getLast? (hground.tree.rooted _ _ htargetFind)
        have hlastTip := mem_of_getLast? (hground.tree.rooted _ _ hfindTip)
        rw [hbranch] at hlast
        exact absurd (decide_eq_true (hact ▸ hlastTip)) (hout _ hlast)
    refine ⟨?_,fun _ => hempty⟩
    rw [hempty,dropWhile_nil,append_nil]
    exact (takeWhile_eq_self_iff.mpr (fun hash _ => by simp)).symm
  | some hash =>
    have hmem := mem_of_find?_eq_some hfork
    have hfound := find?_some hfork
    have hact : hash∈st.chainActive := of_decide_eq_true hfound
    obtain ⟨rest,hsplit⟩ := append_takeWhile_ne hmem
    obtain ⟨restActive,hsplitActive⟩ := append_takeWhile_ne hact
    obtain ⟨pindex,hfind,hidx⟩ := hsound.find_of_append htargetFind (hbranch.trans hsplit)
    have hdrop : st.chainActive.dropWhile (fun other => other≠hash)=hash::restActive := by
      have hboth := @takeWhile_append_dropWhile _ (fun other => decide (other≠hash))
        st.chainActive
      exact append_cancel_left (hboth.trans hsplitActive)
    have hbelow : pindex.branch=hash::restActive := by
      rcases hsound.active with hempty | ⟨hashTip,pindexTip,hfindTip,hbranchTip⟩
      · rw [hempty] at hact
        cases hact
      · obtain ⟨other,hother,hpindexOther⟩ :=
          hsound.find_of_append hfindTip (hbranchTip.symm.trans hsplitActive)
        rw [hfind] at hother
        cases hother
        exact hpindexOther
    grind

theorem connected_activateBestChainStep {verdict : ℕ → Bool} {progress : Progress}
    (hclimb : Climb hashGenesis mark progress.st)
    (htarget : Target progress.st pindexMostWork)
    (hfirst : FirstConnects progress.st progress.outcomes)
    (hfollows : Follows verdict (activateBestChainStep progress pindexMostWork).2.st)
    (hres : (activateBestChainStep progress pindexMostWork).1≠.failed) :
    Connected hashGenesis pindexMostWork (activateBestChainStep progress pindexMostWork) := by
  unfold activateBestChainStep at hfollows hres ⊢
  dsimp only at hfollows hres ⊢
  generalize hfind : pindexMostWork.branch.find? (fun hash => hash∈progress.st.chainActive)=
    pindexFork at hfollows hres ⊢
  obtain ⟨hfork,hkept⟩ := htarget.fork hclimb.ground hfind
  have hdisc := @disconnectTo_eq pindexFork progress.st.chainActive.length progress le_rfl
  cases hback : disconnectTo pindexFork progress.st.chainActive.length progress with
  | mk done rest =>
    rw [hback] at hfollows hres hdisc
    cases done with
    | false => exact absurd rfl hres
    | true =>
      obtain ⟨hstate,hsame⟩ := hdisc rfl
      dsimp only at hstate hsame hfollows hres ⊢
      have hclimb' := hclimb.disconnectTo pindexFork
      rw [← hstate] at hclimb'
      have htarget' : Target rest.st pindexMostWork := by
        rw [hstate]
        exact ⟨htarget.cand,htarget.branch,htarget.good,htarget.best⟩
      refine connected_connectBlocks _ _ hclimb' htarget' ?_ ?_ hfollows hres
      · rw [reverse_reverse,hstate]
        exact hfork
      · intro hempty
        have hstart : progress.st.chainActive=[] := by
          rw [hstate] at hempty
          exact hkept hempty
        rw [hsame hstart]
        exact hfirst hstart

theorem dropCandidates_spec (hashes : List ℕ) (st : ChainState) :
    StatusOnly st (hashes.foldl (dropCandidate true) st) ∧
    (hashes.foldl (dropCandidate true) st).chainActive=st.chainActive ∧
    (hashes.foldl (dropCandidate true) st).setBlockIndexCandidates=
      st.setBlockIndexCandidates.filter (fun hash => hash∉hashes) ∧
    (∀ hash pindex, (hashes.foldl (dropCandidate true) st).find hash=some pindex →
      hash∈hashes → pindex.nStatus.failed=true) ∧
    ∀ hash, hash∉hashes → (hashes.foldl (dropCandidate true) st).find hash=st.find hash := by
  induction hashes generalizing st with
  | nil =>
    refine ⟨.of_map rfl rfl,rfl,?_,fun _ _ _ hmem => absurd hmem not_mem_nil,fun _ _ => rfl⟩
    simp
  | cons first hashes ih =>
    obtain ⟨hstat,hchain,hcands,hmarked,hother⟩ := ih (dropCandidate true st first)
    have hfirst : StatusOnly st (dropCandidate true st first) :=
      (statusOnly_markFailedChild first).trans (.of_map rfl rfl)
    have hfind : ∀ hash, (dropCandidate true st first).find hash=
        (st.markFailedChild first).find hash := fun _ => rfl
    rw [foldl_cons]
    refine ⟨hfirst.trans hstat,hchain.trans (chainActive_modify _ _ _),?_,?_,?_⟩
    · have hone : (dropCandidate true st first).setBlockIndexCandidates=
          st.setBlockIndexCandidates.filter (fun hash => hash≠first) := by
        unfold dropCandidate eraseCandidate markFailedChild ChainState.setStatus ChainState.modify
        simp only [if_true]
        split <;> rfl
      rw [hcands,hone,filter_filter]
      grind
    · intro hash pindex hidx hmem
      by_cases hlater : hash∈hashes
      · exact hmarked hash pindex hidx hlater
      · have heq := (mem_cons.mp hmem).resolve_right hlater
        rw [hother hash hlater,hfind,markFailedChild,ChainState.setStatus,find_modify,
          if_pos heq] at hidx
        obtain ⟨old,-,rfl⟩ := Option.map_eq_some_iff.mp hidx
        simp only [BlockStatus.failed,Bool.or_true]
    · intro hash hmem
      rw [mem_cons,not_or] at hmem
      rw [hother hash hmem.2,hfind,markFailedChild,ChainState.setStatus,find_modify,if_neg hmem.1]

section

variable (hclimb : Climb hashGenesis mark st) (hbest : bestCandidate st=some pindexNew)

include hclimb hbest

theorem Climb.failedChain {hashTest : ℕ}
    (hunusable : (pathTo st pindexNew).find? (unusable st)=some hashTest) :
    failedChain st hashTest=true := by
  have hlinks := hclimb.ground.tree.links
  obtain ⟨hashNew,hcand,hfindNew⟩ := mem_filterMap.mp (bestCandidate_mem hbest)
  have hmem : hashTest∈pindexNew.branch :=
    (takeWhile_sublist _).subset (mem_of_find?_eq_some hunusable)
  obtain ⟨found,hfound,hlinkedNew⟩ := hlinks.candidates hcand
  rw [hfindNew] at hfound
  cases hfound
  obtain ⟨pindexTest,hfindTest,hlink⟩ :=
    hlinks.linked_branch hclimb.ground.tree.sound hfindNew hlinkedNew hmem
  obtain ⟨other,hother,hbad⟩ := find_of_unusable (find?_some hunusable)
  rw [hfindTest] at hother
  cases hother
  unfold ChainActivation.failedChain
  rw [hfindTest]
  refine hbad.resolve_right (fun hdata => ?_)
  rw [(hlinks.linked hfindTest hlink).1] at hdata
  cases hdata

theorem Climb.dropRound {hashTest : ℕ}
    (hunusable : (pathTo st pindexNew).find? (unusable st)=some hashTest)
    {hashes : List ℕ} {dropped : ChainState}
    (hhashes : hashes=(pathTo st pindexNew).takeWhile (fun hash => hash≠hashTest))
    (hdropped : dropped=(hashes.foldl (dropCandidate true) st).eraseCandidate hashTest) :
    Climb hashGenesis mark dropped ∧ dropped.chainActive=st.chainActive ∧
      dropped.setBlockIndexCandidates.length < st.setBlockIndexCandidates.length := by
  have hfail := hclimb.failedChain hbest hunusable
  have hsound := hclimb.ground.tree.sound
  have hsteps : Primitives False st dropped := by
    rw [hdropped,hhashes,← hfail]
    exact primitives_dropRound hsound hbest hunusable
  obtain ⟨hashNew,hcand,hfindNew⟩ := mem_filterMap.mp (bestCandidate_mem hbest)
  have hmemPath := mem_of_find?_eq_some hunusable
  obtain ⟨rest,hpath⟩ := append_takeWhile_ne hmemPath
  rw [← hhashes] at hpath
  obtain ⟨hstat,hchain,hcands,hmarked,hother⟩ := dropCandidates_spec hashes st
  have hstatusDropped : StatusOnly st dropped := by
    rw [hdropped]
    exact hstat.trans (.of_map rfl rfl)
  have hfind : ∀ hash, dropped.find hash=(hashes.foldl (dropCandidate true) st).find hash := by
    intro hash
    rw [hdropped]
    rfl
  have hfilter : dropped.setBlockIndexCandidates=(st.setBlockIndexCandidates.filter
      (fun hash => hash∉hashes)).filter (fun hash => hash≠hashTest) := by
    rw [hdropped,← hcands]
    rfl
  have hmember : ∀ hash, hash∈dropped.setBlockIndexCandidates ↔
      hash∈st.setBlockIndexCandidates ∧ hash∉hashes ∧ hash≠hashTest := by
    intro hash
    rw [hfilter,mem_filter,mem_filter,decide_eq_true_eq,decide_eq_true_eq,and_assoc]
  have htest : ∀ pindex, dropped.find hashTest=some pindex → pindex.nStatus.failed=true := by
    intro pindex hidx
    obtain ⟨old,hold,-,hkept,-⟩ := hstatusDropped.old hidx
    obtain ⟨other,hfindOther,hflag⟩ := find_of_failedChain hfail
    rw [hold] at hfindOther
    cases hfindOther
    exact hkept hflag
  refine ⟨?_,?_,?_⟩
  · refine hclimb.refuse hsteps hstatusDropped ?_ (fun hash hmem =>
    ((hmember hash).mp hmem).1) ?_ ?_
    · rw [hdropped]
      exact hchain
    · rintro hash hmem hout ⟨pindex,hidx,-,hunfailed⟩
      have hself : hash∈pindex.branch := by
        obtain ⟨old,hold,hsame,-⟩ := hstatusDropped.old hidx
        rw [hsame,← hsound.hash hold]
        exact mem_cons_self
      grind
    · rintro hash ⟨pindex,hidx,hlink,hunfailed⟩ -
      obtain ⟨nStatus,hkept,-⟩ := hstatusDropped.kept hidx
      refine ⟨_,hkept,hlink,fun before hmem changed hchanged => ?_⟩
      have hout : before∉hashes := by
        intro hlisted
        obtain ⟨pindexBefore,hfindBefore,hsuffix⟩ := hsound.find_of_mem hidx hmem
        rw [hhashes] at hlisted
        have htestMem := mem_branch_of_path hsound hfindNew hmemPath hlisted hfindBefore
        obtain ⟨pindexTest,hfindTest,hflag⟩ := find_of_failedChain hfail
        rw [hunfailed hashTest (hsuffix.subset htestMem) pindexTest hfindTest] at hflag
        cases hflag
      rw [hfind,hother before hout] at hchanged
      exact hunfailed before hmem changed hchanged
  · rw [hdropped]
    exact hchain
  · have hfirst : hashNew∈hashes ∨ hashNew=hashTest := by
      have hhead : pindexNew.hash=hashNew := hsound.hash hfindNew
      unfold pathTo at hmemPath hpath
      rw [CBlockIndex.branch,hhead] at hmemPath hpath
      by_cases hact : hashNew∈st.chainActive
      · rw [takeWhile_cons_of_neg (by simpa using hact)] at hmemPath
        cases hmemPath
      · rw [takeWhile_cons_of_pos (by simpa using hact)] at hpath
        cases hashes with
        | nil => exact .inr (head_eq_of_cons_eq hpath)
        | cons first hashes =>
          rw [cons_append] at hpath
          exact .inl (head_eq_of_cons_eq hpath ▸ mem_cons_self)
    rw [hfilter,filter_filter]
    refine length_filter_lt_length_iff_exists.mpr ⟨hashNew,hcand,?_⟩
    grind

end

theorem Climb.findMostWorkChain (rounds : ℕ) {st : ChainState}
    (hclimb : Climb hashGenesis mark st)
    (henough : st.setBlockIndexCandidates.length < rounds) :
    Climb hashGenesis mark (ChainActivation.findMostWorkChain rounds st).2 ∧
    (ChainActivation.findMostWorkChain rounds st).2.chainActive=st.chainActive ∧
    match (ChainActivation.findMostWorkChain rounds st).1 with
    | none => (ChainActivation.findMostWorkChain rounds st).2.setBlockIndexCandidates=[]
    | some pindexMostWork =>
      Target (ChainActivation.findMostWorkChain rounds st).2 pindexMostWork := by
  induction rounds generalizing st with
  | zero => exact absurd henough (Nat.not_lt_zero _)
  | succ rounds ih =>
    unfold ChainActivation.findMostWorkChain
    cases hbest : bestCandidate st with
    | none =>
      refine ⟨hclimb,rfl,eq_nil_iff_forall_not_mem.mpr (fun hash hmem => ?_)⟩
      obtain ⟨pindex,hfind,-⟩ := hclimb.ground.tree.links.candidates hmem
      rw [bestCandidate_eq_none hbest hmem] at hfind
      cases hfind
    | some pindexNew =>
      dsimp only
      cases hunusable : (pathTo st pindexNew).find? (unusable st) with
      | none =>
        refine ⟨hclimb,rfl,?_⟩
        obtain ⟨hashNew,hcand,hfindNew⟩ := mem_filterMap.mp (bestCandidate_mem hbest)
        obtain ⟨found,hfound,hlink⟩ := hclimb.ground.tree.links.candidates hcand
        rw [hfindNew] at hfound
        cases hfound
        have hhash := hclimb.ground.tree.sound.hash hfindNew
        rw [← hhash] at hcand hfindNew
        refine ⟨hcand,⟨pindexNew,hfindNew,rfl⟩,⟨pindexNew,hfindNew,hlink,?_⟩,?_⟩
        · intro before hmem other hother
          by_cases hpath : before∈pathTo st pindexNew
          · have husable := find?_eq_none.mp hunusable before hpath
            unfold unusable at husable
            rw [hother] at husable
            simp only [Bool.or_eq_true,not_or,Bool.not_eq_true] at husable
            exact husable.1
          · have hact := hclimb.ground.mem_active_of_path hfindNew hmem hpath
            obtain ⟨⟨pindex,hidx,-,hunfailed⟩,-⟩ := hclimb.active before hact
            rw [hother] at hidx
            cases hidx
            refine hunfailed before ?_ other hother
            exact hclimb.ground.tree.sound.hash hother ▸ mem_cons_self
        · intro hash hmem pindex entry hidx hentry
          rw [hfindNew] at hentry
          cases hentry
          exact rank_le_bestCandidate hbest hmem hidx
      | some hashTest =>
        dsimp only
        rw [hclimb.failedChain hbest hunusable]
        obtain ⟨hclimb',hchain,hless⟩ := hclimb.dropRound hbest hunusable rfl rfl
        obtain ⟨hend,hchainEnd,hfound⟩ := ih hclimb' (by omega)
        exact ⟨hend,hchainEnd.trans hchain,hfound⟩

end Path

/-- The tip is the mark, and no candidate is better. -/
structure Settled (hashGenesis : ℕ) (st : ChainState) : Prop where
  climb : Climb hashGenesis st.chainActive.head? st
  best : ∀ hash∈st.setBlockIndexCandidates,
    ∃ hashTip∈st.chainActive.head?, NotBetter st hash hashTip

section Activate

variable {hashGenesis : ℕ} {mark : Option ℕ} {st : ChainState}

theorem Climb.settled_of_none (hclimb : Climb hashGenesis mark st)
    (hnone : st.setBlockIndexCandidates=[]) : Settled hashGenesis st := by
  have hmark : mark=none := by
    refine Option.eq_none_iff_forall_not_mem.mpr (fun hash hmem => ?_)
    have hcand := (hclimb.marked hash hmem).1
    rw [hnone] at hcand
    cases hcand
  have hchain : st.chainActive=[] := by
    refine eq_nil_iff_forall_not_mem.mpr (fun hash hmem => ?_)
    obtain ⟨hashMark,hmem,-⟩ := hclimb.below hash hmem
    rw [hmark] at hmem
    cases hmem
  refine ⟨?_,fun hash hmem => ?_⟩
  · rw [hchain,head?_nil,← hmark]
    exact hclimb
  · rw [hnone] at hmem
    cases hmem

theorem Climb.settled_of_tip (hclimb : Climb hashGenesis mark st)
    {pindexMostWork : CBlockIndex} (htarget : Target st pindexMostWork)
    (htip : st.chainActive.head?=some pindexMostWork.hash) : Settled hashGenesis st := by
  have hmem : pindexMostWork.hash∈st.chainActive := mem_of_head? htip
  obtain ⟨hashMark,hmark,hbelow⟩ := hclimb.below _ hmem
  obtain ⟨hcand,pindexMark,hfindMark,hgoodMark⟩ := hclimb.marked hashMark hmark
  obtain ⟨pindex,hfind,hgood⟩ := htarget.good
  have hrank := le_antisymm (hbelow pindex pindexMark hfind hfindMark)
    (htarget.best hashMark hcand pindexMark pindex hfindMark hfind)
  have hsame := hclimb.ground.eq_of_rank hfind hfindMark hgood.1 hgoodMark.1 hrank
  have hhead : st.chainActive.head?=mark := by
    rw [htip,hsame]
    exact (Option.mem_def.mp hmark).symm
  refine ⟨hhead ▸ hclimb,fun hash hcand => ⟨pindexMostWork.hash,htip,?_⟩⟩
  exact htarget.best hash hcand

theorem settled_activateSteps {verdict : ℕ → Bool} (rounds : ℕ)
    (pindexMostWork : Option CBlockIndex) {progress : Progress}
    (hclimb : Climb hashGenesis mark progress.st)
    (htarget : ∀ pindex∈pindexMostWork, Target progress.st pindex)
    (hfirst : FirstConnects progress.st progress.outcomes)
    (hfollows : Follows verdict (activateSteps rounds pindexMostWork progress).2.st)
    (hdone : (activateSteps rounds pindexMostWork progress).1=.done) :
    Settled hashGenesis (activateSteps rounds pindexMostWork progress).2.st := by
  induction rounds generalizing pindexMostWork progress mark with
  | zero => cases hdone
  | succ rounds ih =>
    have hfound : Climb hashGenesis mark (mostWork pindexMostWork progress.st).2 ∧
        (mostWork pindexMostWork progress.st).2.chainActive=progress.st.chainActive ∧
        match (mostWork pindexMostWork progress.st).1 with
        | none => (mostWork pindexMostWork progress.st).2.setBlockIndexCandidates=[]
        | some pindex => Target (mostWork pindexMostWork progress.st).2 pindex := by
      cases pindexMostWork with
      | some pindex => exact ⟨hclimb,rfl,htarget pindex rfl⟩
      | none => exact hclimb.findMostWorkChain _ (Nat.lt_succ_self _)
    obtain ⟨hclimb',hchain,hmost⟩ := hfound
    unfold activateSteps at hfollows hdone ⊢
    dsimp only at hfollows hdone ⊢
    generalize hnext : progress.withState (mostWork pindexMostWork progress.st).2=next at *
    have hstate : next.st=(mostWork pindexMostWork progress.st).2 := by rw [← hnext]; rfl
    have houtcomes : next.outcomes=progress.outcomes := by rw [← hnext]; rfl
    rw [← hstate] at hclimb' hchain
    have hfirst' : FirstConnects next.st next.outcomes := by
      unfold FirstConnects
      rw [hchain,houtcomes]
      exact hfirst
    cases htaken : (mostWork pindexMostWork progress.st).1 with
    | none =>
      rw [htaken,← hstate] at hmost
      exact hclimb'.settled_of_none hmost
    | some pindex =>
      rw [htaken] at hfollows hdone hmost
      rw [← hstate] at hmost
      dsimp only at hfollows hdone hmost ⊢
      by_cases htip : next.st.chainActive.head?=some pindex.hash
      · rw [if_pos htip]
        exact hclimb'.settled_of_tip hmost htip
      · rw [if_neg htip] at hfollows hdone ⊢
        have hsteps := @primitives_activateBestChainStep False next hclimb'.ground.tree.sound pindex
        have hsound := hclimb'.ground.tree.sound.primitives hsteps
        have hconn := @connected_activateBestChainStep hashGenesis mark pindex verdict
          next hclimb' hmost hfirst'
        cases hres : activateBestChainStep next pindex with
        | mk result rest =>
          rw [hres] at hfollows hdone hsound hconn
          cases result with
          | failed => cases hdone
          | invalidFound =>
            dsimp only at hfollows hdone ⊢
            by_cases hempty : rest.st.chainActive=[]
            · rw [if_pos hempty] at hfollows
              exact absurd hempty (hconn hfollows (by rintro ⟨⟩)).active
            · rw [if_neg hempty] at hfollows hdone ⊢
              have hafter := hfollows.of_primitives (primitives_activateSteps rounds none hsound)
              obtain ⟨mark',hclimbRest⟩ := (hconn hafter (by rintro ⟨⟩)).climb
              exact ih none hclimbRest (fun pindex hmem => absurd hmem (Option.not_mem_none _))
                (fun h => absurd h hempty) hfollows hdone
          | advanced =>
            dsimp only at hfollows hdone ⊢
            by_cases htarget' : rest.st.chainActive.head?=some pindex.hash
            · rw [if_pos htarget'] at hfollows ⊢
              have hend := hconn hfollows (by rintro ⟨⟩)
              obtain ⟨mark',hclimbRest⟩ := hend.climb
              exact hclimbRest.settled_of_tip (hend.target rfl) htarget'
            · rw [if_neg htarget'] at hfollows hdone ⊢
              have hafter := hfollows.of_primitives
                (primitives_activateSteps rounds (some pindex) hsound)
              have hend := hconn hafter (by rintro ⟨⟩)
              obtain ⟨mark',hclimbRest⟩ := hend.climb
              refine ih (some pindex) hclimbRest (fun other hmem => ?_)
                (fun h => absurd h hend.active) hfollows hdone
              rw [← Option.mem_some_iff.mp hmem]
              exact hend.target rfl

theorem Settled.tipIsBest (hsettled : Settled hashGenesis st) : TipIsBest st := by
  have hclimb := hsettled.climb
  have hsound := hclimb.ground.tree.sound
  unfold TipIsBest
  cases hact : st.chainActive with
  | nil =>
    have htip : st.tip=none := by rw [tip,hact]; rfl
    rw [htip]
    have hnone : st.setBlockIndexCandidates=[] := by
      refine eq_nil_iff_forall_not_mem.mpr (fun hash hmem => ?_)
      obtain ⟨hashTip,hmem,-⟩ := hsettled.best hash hmem
      rw [hact] at hmem
      cases hmem
    refine ⟨fun hash pindex hfind heligible => ?_,hnone⟩
    have hgood := (hclimb.ground.good_iff hfind).mpr heligible
    have hcand := hclimb.all hash ⟨pindex,hfind,hgood⟩ (fun hashMark hmem => by
      rw [hact] at hmem
      cases hmem)
    rw [hnone] at hcand
    cases hcand
  | cons hashTip before =>
    have hhead : st.chainActive.head?=some hashTip := by rw [hact]; rfl
    obtain ⟨⟨pindexTip,hfindTip,hgoodTip⟩,-⟩ := hclimb.active hashTip (mem_of_head? hhead)
    have htip : st.tip=some pindexTip := by
      rw [tip,hhead,Option.bind_some,hfindTip]
    have hbest : ∀ hash∈st.setBlockIndexCandidates, NotBetter st hash hashTip := by
      intro hash hmem
      obtain ⟨other,hother,hbetter⟩ := hsettled.best hash hmem
      rw [hhead,Option.mem_some_iff] at hother
      exact hother ▸ hbetter
    have hmax : ∀ hash, IsGood st hash → NotBetter st hash hashTip := by
      intro hash hgood
      by_cases hleast : NotBetter st hashTip hash
      · refine hbest hash (hclimb.all hash hgood (fun hashMark hmem => ?_))
        rw [hhead,Option.mem_some_iff] at hmem
        exact hmem ▸ hleast
      · exact (notBetter_total hash hashTip).resolve_right hleast
    rw [htip]
    refine ⟨(hclimb.ground.good_iff hfindTip).mp hgoodTip,?_,?_⟩
    · intro hash pindex hfind heligible
      have hgood := (hclimb.ground.good_iff hfind).mpr heligible
      have hrank := hmax hash ⟨pindex,hfind,hgood⟩ pindex pindexTip hfind hfindTip
      unfold rank at hrank
      rw [Prod.Lex.toLex_le_toLex] at hrank
      rcases hrank with hless | ⟨hequal,hrest⟩
      · exact .inl hless
      · rw [Prod.Lex.toLex_le_toLex] at hrest
        grind
    · intro hash
      constructor
      · intro hmem
        obtain ⟨pindex,hfind,hlink⟩ := hclimb.ground.tree.links.candidates hmem
        have habove := hclimb.above hash hmem hashTip hhead pindexTip pindex hfindTip hfind
        have hbelow := hbest hash hmem pindex pindexTip hfind hfindTip
        have hsame := hclimb.ground.eq_of_rank hfind hfindTip hlink hgoodTip.1
          (le_antisymm hbelow habove)
        rw [hsame,hfindTip] at hfind
        cases hfind
        refine ⟨pindexTip,hsame ▸ hfindTip,(hclimb.ground.good_iff hfindTip).mp hgoodTip,?_⟩
        rw [worse_eq_false]
      · rintro ⟨pindex,hfind,heligible,hworse⟩
        have hgood := (hclimb.ground.good_iff hfind).mpr heligible
        refine hclimb.all hash ⟨pindex,hfind,hgood⟩ (fun hashMark hmem => ?_)
        rw [hhead,Option.mem_some_iff] at hmem
        intro first second hfirst hsecond
        rw [← hmem,hfindTip] at hfirst
        rw [hfind] at hsecond
        cases hfirst
        cases hsecond
        exact (worse_eq_false _ _).mp hworse

end Activate

section Arrive

variable {hashGenesis : ℕ} {mark : Option ℕ} {queue : List ℕ} {st next : ChainState}

theorem Place.change (hplace : Place hashGenesis mark st) (hsound : SoundTree st)
    (hlinks : Links True queue st) {hash : ℕ}
    (hunlinked : ∀ pindex, st.find hash=some pindex → pindex.nChainTx=0)
    (hsame : ∀ other, other≠hash → next.find other=st.find other)
    (hundo : ∀ pindex, st.find hash=some pindex → pindex.nStatus.haveUndo=true →
      ∃ changed, next.find hash=some changed ∧ changed.nStatus.haveUndo=true)
    (hchain : next.chainActive=st.chainActive) {added : Prop}
    (hcands : ∀ other, other∈next.setBlockIndexCandidates ↔
      other∈st.setBlockIndexCandidates ∨ other=hash ∧ added)
    (habove : added → ∀ hashMark∈mark, NotBetter next hashMark hash)
    (hall : IsGood next hash → (∀ hashMark∈mark, NotBetter next hashMark hash) → added) :
    Place hashGenesis mark next := by
  have hout : ∀ {other pindex}, st.find other=some pindex → pindex.nChainTx≠0 →
      hash∉pindex.branch := by
    intro other pindex hfind hlink hmem
    obtain ⟨found,hfound,hcount⟩ := hlinks.linked_branch hsound hfind hlink hmem
    exact hcount (hunlinked found hfound)
  have hne : ∀ {other}, IsGood st other → other≠hash := by
    rintro other ⟨pindex,hfind,hlink,-⟩ rfl
    exact hlink (hunlinked pindex hfind)
  have hgood : ∀ {other}, other≠hash → (IsGood next other ↔ IsGood st other) := by
    intro other hother
    have hbranch : ∀ pindex, st.find other=some pindex → pindex.nChainTx≠0 →
        ∀ before∈pindex.branch, next.find before=st.find before := by
      intro pindex hfind hlink before hmem
      exact hsame before (fun heq => hout hfind hlink (heq ▸ hmem))
    constructor
    · rintro ⟨pindex,hfind,hlink,hunfailed⟩
      rw [hsame other hother] at hfind
      refine ⟨pindex,hfind,hlink,fun before hmem entry hentry => ?_⟩
      exact hunfailed before hmem entry ((hbranch pindex hfind hlink before hmem).trans hentry)
    · rintro ⟨pindex,hfind,hlink,hunfailed⟩
      refine ⟨pindex,(hsame other hother).trans hfind,hlink,fun before hmem entry hentry => ?_⟩
      exact hunfailed before hmem entry
        ((hbranch pindex hfind hlink before hmem).symm.trans hentry)
  have horder : ∀ {first second}, first≠hash → second≠hash →
      (NotBetter next first second ↔ NotBetter st first second) := by
    intro first second hfirst hsecond
    unfold NotBetter
    rw [hsame first hfirst,hsame second hsecond]
  have hconn : ∀ {other}, WasConnected hashGenesis st other →
      WasConnected hashGenesis next other := by
    rintro other (hgenesis | ⟨pindex,hfind,hkept⟩)
    · exact .inl hgenesis
    · by_cases heq : other=hash
      · rw [heq] at hfind ⊢
        exact .inr (hundo pindex hfind hkept)
      · exact .inr ⟨pindex,(hsame other heq).trans hfind,hkept⟩
  have hmarkNe : ∀ hashMark∈mark, hashMark≠hash :=
    fun hashMark hmem => hne (hplace.marked hashMark hmem).2
  refine ⟨?_,?_,?_,?_,?_,?_⟩
  · intro hashMark hmem
    obtain ⟨hcand,hgoodMark⟩ := hplace.marked hashMark hmem
    exact ⟨(hcands hashMark).mpr (.inl hcand),(hgood (hne hgoodMark)).mpr hgoodMark⟩
  · intro hashMark hmem pindex hfind before hbefore
    rw [hsame hashMark (hmarkNe hashMark hmem)] at hfind
    exact hconn (hplace.connected hashMark hmem pindex hfind before hbefore)
  · intro other hmem
    rw [hchain] at hmem
    obtain ⟨hgoodOther,hconnectedOther⟩ := hplace.active other hmem
    exact ⟨(hgood (hne hgoodOther)).mpr hgoodOther,hconn hconnectedOther⟩
  · intro other hmem hashMark hmark
    rcases (hcands other).mp hmem with hold | ⟨rfl,hadded⟩
    · by_cases heq : other=hash
      · obtain ⟨pindex,hfind,hlink⟩ := hlinks.candidates hold
        exact absurd (hunlinked pindex (heq ▸ hfind)) hlink
      · exact (horder (hmarkNe hashMark hmark) heq).mpr (hplace.above other hold hashMark hmark)
    · exact habove hadded hashMark hmark
  · intro other hgoodOther hleast
    rw [hcands]
    by_cases heq : other=hash
    · rw [heq] at hgoodOther hleast
      exact .inr ⟨heq,hall hgoodOther hleast⟩
    · refine .inl (hplace.all other ((hgood heq).mp hgoodOther) (fun hashMark hmark => ?_))
      exact (horder (hmarkNe hashMark hmark) heq).mp (hleast hashMark hmark)
  · intro other hmem
    rw [hchain] at hmem
    obtain ⟨hashMark,hmark,hbelow⟩ := hplace.below other hmem
    exact ⟨hashMark,hmark,(horder (hne (hplace.active other hmem).1)
      (hmarkNe hashMark hmark)).mpr hbelow⟩

/-- The state with a block that has its number. -/
def numberedState (st : ChainState) (hash : ℕ) (pindex : CBlockIndex) : ChainState :=
  { st with
    mapBlockIndex := st.mapBlockIndex.set hash (linkedIndex st pindex)
    nBlockSequenceId := st.nBlockSequenceId+1 }

variable {hash : ℕ} {pindex : CBlockIndex}

theorem linkBlock_eq (hfind : st.find hash=some pindex) : linkBlock st hash=
      if (numberedState st hash pindex).worseThanTip (linkedIndex st pindex)=true then
        numberedState st hash pindex
      else (numberedState st hash pindex).insertCandidate hash := by
  unfold linkBlock
  rw [hfind]
  rfl

theorem candidates_linkBlock_iff (hfind : st.find hash=some pindex)
    (hact : ∀ other∈st.chainActive, other≠hash) (other : ℕ) :
    other∈(linkBlock st hash).setBlockIndexCandidates ↔ other∈st.setBlockIndexCandidates ∨
        other=hash ∧ ∀ pindexTip, st.tip=some pindexTip →
          (linkedIndex st pindex).worse pindexTip=false := by
  have htip : (numberedState st hash pindex).tip=st.tip := by
    unfold tip numberedState
    cases hhead : st.chainActive.head? with
    | none => rfl
    | some hashTip =>
      rw [Option.bind_some,Option.bind_some]
      refine (find_of_set rfl hashTip).trans (if_neg ?_)
      exact hact hashTip (mem_of_head? hhead)
  have hworse : (numberedState st hash pindex).worseThanTip (linkedIndex st pindex)=false ↔
      ∀ pindexTip, st.tip=some pindexTip → (linkedIndex st pindex).worse pindexTip=false := by
    unfold worseThanTip
    rw [htip]
    cases st.tip with
    | none => simp only [reduceCtorEq,false_implies,implies_true]
    | some pindexTip => simp only [Option.some.injEq,forall_eq']
  rw [linkBlock_eq hfind,← hworse]
  split_ifs with hbetter
  · rw [hbetter]
    simp only [reduceCtorEq,and_false,or_false]
    rfl
  · rw [Bool.not_eq_true] at hbetter
    rw [hbetter]
    simp only [insertCandidate,mem_insert_iff,and_true]
    exact or_comm

theorem linkBlock_frame (hfind : st.find hash=some pindex) :
    (linkBlock st hash).chainActive=st.chainActive ∧
      (linkBlock st hash).nBlockSequenceId=st.nBlockSequenceId+1 := by
  rw [linkBlock_eq hfind]
  split_ifs
  · exact ⟨rfl,rfl⟩
  · exact ⟨rfl,rfl⟩

theorem Numbered.linkNext (hnum : Numbered st) (hlinks : Links True (hash::queue) st) :
    Numbered (BlockLinks.linkNext st hash) := by
  obtain ⟨pindex,hfind,-,hzero,-⟩ := hlinks.queued mem_cons_self
  have hnext : ∀ other, (BlockLinks.linkNext st hash).find other=
      if other=hash then some (linkedIndex st pindex) else st.find other :=
    find_linkBlock hfind
  have hcount : (BlockLinks.linkNext st hash).nBlockSequenceId=st.nBlockSequenceId+1 :=
    (linkBlock_frame hfind).2
  refine ⟨?_,?_⟩
  · intro other entry hother hlink
    rw [hcount]
    rw [hnext] at hother
    split_ifs at hother
    · cases hother
      exact Int.lt_succ st.nBlockSequenceId
    · exact (hnum.given hother hlink).trans (Int.lt_succ _)
  · intro first second entry entrySecond hfirst hsecond hlink hlinkedSecond hsame
    rw [hnext] at hfirst hsecond
    split_ifs at hfirst hsecond with heq heqSecond heqSecond
    · exact heq.trans heqSecond.symm
    · cases hfirst
      have hgiven := hnum.given hsecond hlinkedSecond
      rw [← hsame] at hgiven
      exact absurd hgiven (lt_irrefl st.nBlockSequenceId)
    · cases hsecond
      have hgiven := hnum.given hfirst hlink
      rw [hsame] at hgiven
      exact absurd hgiven (lt_irrefl st.nBlockSequenceId)
    · exact hnum.distinct hfirst hsecond hlink hlinkedSecond hsame

theorem Place.linkNext (hplace : Place hashGenesis st.chainActive.head? st)
    (hsound : SoundTree st) (hlinks : Links True (hash::queue) st) :
    Place hashGenesis st.chainActive.head? (BlockLinks.linkNext st hash) := by
  obtain ⟨pindex,hfind,-,hzero,-⟩ := hlinks.queued mem_cons_self
  have hnext : ∀ other, (BlockLinks.linkNext st hash).find other=
      if other=hash then some (linkedIndex st pindex) else st.find other :=
    find_linkBlock hfind
  have hself : (BlockLinks.linkNext st hash).find hash=some (linkedIndex st pindex) := by
    rw [hnext,if_pos rfl]
  have hact : ∀ other∈st.chainActive, other≠hash := by
    rintro other hmem rfl
    obtain ⟨⟨entry,hentry,hlink,-⟩,-⟩ := hplace.active other hmem
    rw [hfind] at hentry
    cases hentry
    exact hlink hzero
  have htip : ∀ hashTip∈st.chainActive.head?, ∀ entry,
      (BlockLinks.linkNext st hash).find hashTip=some entry ↔ st.tip=some entry := by
    intro hashTip hhead entry
    rw [hnext,if_neg (hact hashTip (mem_of_head? hhead)),tip,
      Option.mem_def.mp hhead,Option.bind_some]
  refine hplace.change hsound hlinks (fun entry hentry => ?_) (fun other hne => ?_)
    (fun entry hentry hundo => ?_) (linkBlock_frame hfind).1
    (candidates_linkBlock_iff hfind hact) (fun hadded hashTip hhead => ?_)
    (fun _ hleast pindexTip hpindexTip => ?_)
  · rw [hfind] at hentry
    cases hentry
    exact hzero
  · rw [hnext,if_neg hne]
  · rw [hfind] at hentry
    cases hentry
    exact ⟨_,hself,hundo⟩
  · intro entryTip entry hentryTip hentry
    rw [hself] at hentry
    cases hentry
    exact (worse_eq_false _ _).mp (hadded entryTip ((htip hashTip hhead entryTip).mp hentryTip))
  · rw [worse_eq_false]
    cases hhead : st.chainActive.head? with
    | none =>
      rw [tip,hhead] at hpindexTip
      cases hpindexTip
    | some hashTip =>
      exact hleast hashTip hhead pindexTip _ ((htip hashTip hhead pindexTip).mpr hpindexTip) hself

theorem Numbered.change (hnum : Numbered st) {hash : ℕ}
    (hsame : ∀ other, other≠hash → next.find other=st.find other)
    (hzero : ∀ changed, next.find hash=some changed → changed.nChainTx=0)
    (hcount : next.nBlockSequenceId=st.nBlockSequenceId) : Numbered next := by
  have hold : ∀ {other entry}, next.find other=some entry → entry.nChainTx≠0 →
      st.find other=some entry := by
    grind
  refine ⟨fun hfind hlink => ?_,fun hfind hother hlink hlinkedOther hnumber => ?_⟩
  · rw [hcount]
    exact hnum.given (hold hfind hlink) hlink
  · exact hnum.distinct (hold hfind hlink) (hold hother hlinkedOther) hlink hlinkedOther
      hnumber

theorem Place.change_unlinked (hplace : Place hashGenesis mark st)
    (hsound : SoundTree st) (hlinks : Links True queue st)
    (hunlinked : ∀ pindex, st.find hash=some pindex → pindex.nChainTx=0)
    (hsame : ∀ other, other≠hash → next.find other=st.find other)
    (hundo : ∀ pindex, st.find hash=some pindex → pindex.nStatus.haveUndo=true →
      ∃ changed, next.find hash=some changed ∧ changed.nStatus.haveUndo=true)
    (hzero : ∀ changed, next.find hash=some changed → changed.nChainTx=0)
    (hchain : next.chainActive=st.chainActive)
    (hcands : next.setBlockIndexCandidates=st.setBlockIndexCandidates) :
    Place hashGenesis mark next := by
  refine @Place.change _ _ _ _ _ hplace hsound hlinks hash hunlinked hsame hundo hchain False
    (fun other => ?_) (fun hadded => hadded.elim) ?_
  · rw [hcands,and_false,or_false]
  · rintro ⟨changed,hfind,hlink,-⟩ _
    exact hlink (hzero changed hfind)

theorem Climb.acceptBlockHeader (hclimb : Climb hashGenesis mark st)
    {block : HeaderArrival} {result : ChainState×CBlockIndex}
    (haccept : BlockTree.acceptBlockHeader hashGenesis st block=.ok result) :
    Climb hashGenesis mark result.1 ∧ result.1.chainActive=st.chainActive := by
  have hground := hclimb.ground
  have htree := hground.tree.acceptBlockHeader haccept
  have hflags := hground.flags.effects hground.tree.sound
    (@effects_acceptBlockHeader False _ _ _ _ haccept)
  rcases acceptBlockHeader_ok haccept with ⟨hsame,-⟩ | ⟨hnone,hadd,-⟩
  · rw [hsame]
    exact ⟨hclimb,rfl⟩
  · obtain ⟨pindexNew,hstate,hzero⟩ : ∃ pindexNew : CBlockIndex, result.1={ st with
        mapBlockIndex := st.mapBlockIndex.set block.hash pindexNew } ∧ pindexNew.nChainTx=0 := by
      rw [hadd]
      unfold addToBlockIndex
      rw [hnone]
      grind
    have hnext : ∀ other, result.1.find other=
        if other=block.hash then some pindexNew else st.find other :=
      find_of_set (by rw [hstate])
    have hsame : ∀ other, other≠block.hash → result.1.find other=st.find other :=
      fun other hne => by rw [hnext,if_neg hne]
    have hunset : ∀ changed, result.1.find block.hash=some changed → changed.nChainTx=0 := by
      grind
    refine ⟨⟨hclimb.toPlace.change_unlinked hground.tree.sound hground.tree.links
      (fun pindex hfind => ?_) hsame (fun pindex hfind _ => ?_) hunset (by rw [hstate])
      (by rw [hstate]),htree,hflags,hground.numbered.change hsame hunset (by rw [hstate])⟩,
      by rw [hstate]⟩
    · rw [hnone] at hfind
      cases hfind
    · rw [hnone] at hfind
      cases hfind

theorem Climb.refuseArrival (hclimb : Climb hashGenesis mark st)
    (hfind : st.find pindex.hash=some pindex) (hdata : pindex.nStatus.haveData=false) :
    Climb hashGenesis mark (st.markFailedValid pindex.hash) := by
  have hframe : (st.markFailedValid pindex.hash).chainActive=st.chainActive ∧
      (st.markFailedValid pindex.hash).setBlockIndexCandidates=
        st.setBlockIndexCandidates := by
    unfold ChainState.markFailedValid ChainState.setStatus ChainState.modify
    rw [hfind]
    exact ⟨rfl,rfl⟩
  refine hclimb.refuse (primitives_markFailedValid _) (statusOnly_markFailedValid _) hframe.1
    (fun hash hmem => hframe.2 ▸ hmem) (fun hash hmem hout => ?_) (fun hash hgood _ => ?_)
  · rw [hframe.2] at hout
    exact absurd hmem hout
  · obtain ⟨other,hother,hlink,hunfailed⟩ := hgood
    have hout : pindex.hash∉other.branch := by
      intro hmem
      obtain ⟨found,hfound,hcount⟩ :=
        hclimb.ground.tree.links.linked_branch hclimb.ground.tree.sound hother hlink hmem
      rw [hfind] at hfound
      cases hfound
      rw [(hclimb.ground.tree.links.linked hfind hcount).1] at hdata
      cases hdata
    have hsame : ∀ before∈other.branch,
        (st.markFailedValid pindex.hash).find before=st.find before := by
      intro before hmem
      rw [ChainState.markFailedValid,ChainState.setStatus,find_modify,if_neg]
      rintro rfl
      exact hout hmem
    refine ⟨other,?_,hlink,fun before hmem entry hentry => ?_⟩
    · have hself : hash∈other.branch :=
        hclimb.ground.tree.sound.hash hother ▸ mem_cons_self
      rw [hsame hash hself,hother]
    · rw [hsame before hmem] at hentry
      exact hunfailed before hmem entry hentry

/-- What a node keeps while a block that was received is linked. -/
structure Arriving (hashGenesis : ℕ) (mark : Option ℕ) (st : ChainState) : Prop where
  rooted : Rooted hashGenesis st
  numbered : Numbered st
  place : Place hashGenesis mark st
  tip : st.chainActive.head?=mark

theorem Arriving.linkNext (harriving : Arriving hashGenesis mark st)
    (hsound : SoundTree st) (hlinks : Links True (hash::queue) st) :
    Arriving hashGenesis mark (BlockLinks.linkNext st hash) := by
  obtain ⟨hrooted,hnum,hplace,rfl⟩ := harriving
  obtain ⟨pindex,hfind,-⟩ := hlinks.queued mem_cons_self
  exact ⟨hrooted.linkNext hlinks,hnum.linkNext hlinks,hplace.linkNext hsound hlinks,
    congrArg head? (linkBlock_frame hfind).1⟩

theorem Climb.receive (hclimb : Climb hashGenesis st.chainActive.head? st)
    {nTx : ℕ} (hfind : st.find pindex.hash=some pindex)
    (hdata : pindex.nStatus.haveData=false) (hnTx : nTx≠0) :
    Climb hashGenesis (receivedBlockTransactions st pindex.hash nTx).chainActive.head?
      (receivedBlockTransactions st pindex.hash nTx) := by
  have hground := hclimb.ground
  have hunset : pindex.nChainTx=0 := by
    by_contra hlink
    rw [(hground.tree.links.linked hfind hlink).1] at hdata
    cases hdata
  have hnext : ∀ other, (st.modify pindex.hash (receivedIndex nTx)).find other=
      if other=pindex.hash then some (receivedIndex nTx pindex) else st.find other := by
    intro other
    rw [find_modify]
    split_ifs with heq
    · rw [heq,hfind]
      rfl
    · rfl
  have hframe : (st.modify pindex.hash (receivedIndex nTx)).chainActive=st.chainActive ∧
      (st.modify pindex.hash (receivedIndex nTx)).setBlockIndexCandidates=
        st.setBlockIndexCandidates ∧
      (st.modify pindex.hash (receivedIndex nTx)).nBlockSequenceId=st.nBlockSequenceId := by
    unfold ChainState.modify
    rw [hfind]
    exact ⟨rfl,rfl,rfl⟩
  have hsame : ∀ other, other≠pindex.hash →
      (st.modify pindex.hash (receivedIndex nTx)).find other=st.find other :=
    fun other hne => by rw [hnext,if_neg hne]
  have hzero : ∀ changed, (st.modify pindex.hash (receivedIndex nTx)).find pindex.hash=
      some changed → changed.nChainTx=0 := by
    intro changed hchanged
    rw [hnext,if_pos rfl] at hchanged
    cases hchanged
    rfl
  have hplace : Place hashGenesis st.chainActive.head?
      (st.modify pindex.hash (receivedIndex nTx)) := by
    refine hclimb.toPlace.change_unlinked hground.tree.sound hground.tree.links
      (fun entry hentry => ?_) hsame (fun entry hentry hundo => ?_) hzero hframe.1 hframe.2.1
    · rw [hfind] at hentry
      cases hentry
      exact hunset
    · rw [hfind] at hentry
      cases hentry
      refine ⟨receivedIndex nTx pindex,by rw [hnext,if_pos rfl],?_⟩
      exact (stageKept_raiseValidity { pindex.nStatus with haveData := true }
        .transactions).haveUndo hundo
  have harriving : Arriving hashGenesis st.chainActive.head?
      (st.modify pindex.hash (receivedIndex nTx)) :=
    ⟨hground.tree.rooted.receive _ _,hground.numbered.change hsame hzero hframe.2.2,hplace,
      congrArg head? hframe.1⟩
  obtain ⟨hlinks,hend⟩ := receivedBlockTransactions_run
    (fun hsound hlinks harriving => Arriving.linkNext harriving hsound hlinks)
    (fun harriving => ⟨harriving.rooted,⟨harriving.numbered.given,harriving.numbered.distinct⟩,
      ⟨harriving.place.marked,harriving.place.connected,harriving.place.active,
        harriving.place.above,harriving.place.all,harriving.place.below⟩,harriving.tip⟩)
    hground.tree.sound hground.tree.links hfind hdata hnTx
    (fun hashPrev pindexPrev hhead hfindPrev _ hfail => by
      refine ⟨trivial,(hground.flags hashPrev pindexPrev hfindPrev hfail).of_kept ?_
        (fun hfind hfail => ⟨_,hfind,hfail⟩)⟩
      obtain ⟨blocks,hpprev⟩ := head?_eq_some_iff.mp hhead
      obtain ⟨found,hfound,hrest⟩ := hground.tree.sound.parent hfind hpprev
      rw [hfindPrev] at hfound
      cases hfound
      intro before hmem
      rw [CBlockIndex.branch,hrest,hground.tree.sound.hash hfindPrev,← hpprev] at hmem
      exact mem_cons_of_mem _ hmem)
    harriving
  have heffects := @effects_receivedBlockTransactions False st pindex.hash nTx
  rw [hend.tip]
  exact ⟨hend.place,⟨hground.tree.sound.effects heffects,hend.rooted,hlinks⟩,
    hground.flags.effects hground.tree.sound heffects,hend.numbered⟩

end Arrive

variable {hashGenesis : ℕ} {st : ChainState} {verdict : ℕ → Bool}

theorem climb_noBlocks (hashGenesis : ℕ) :
    Climb hashGenesis noBlocks.chainActive.head? noBlocks := by
  have hnone : ∀ {hash pindex} {holds : Prop}, noBlocks.find hash=some pindex → holds := by
    intro hash pindex holds hfind
    rw [find_noBlocks] at hfind
    cases hfind
  refine ⟨⟨fun hash hmem => absurd hmem (Option.not_mem_none _),
    fun hash hmem => absurd hmem (Option.not_mem_none _),
    fun hash hmem => absurd hmem not_mem_nil,fun hash hmem => absurd hmem not_mem_nil,
    ?_,fun hash hmem => absurd hmem not_mem_nil⟩,linkedTree_noBlocks True hashGenesis,
    fun hash pindex hfind => hnone hfind,⟨fun hfind => hnone hfind,fun hfind => hnone hfind⟩⟩
  rintro hash ⟨pindex,hfind,-⟩
  exact hnone hfind

theorem Climb.activateBestChain (hclimb : Climb hashGenesis st.chainActive.head? st)
    {outcomes : List Outcome} (hcall : Undisturbed verdict st (.activateBestChain outcomes)) :
    Settled hashGenesis (perform hashGenesis st (.activateBestChain outcomes)) := by
  obtain ⟨hdone,hfirst,hfollows⟩ := hcall
  exact settled_activateSteps (outcomes.length+1) none hclimb
    (fun pindex hmem => absurd hmem (Option.not_mem_none _)) hfirst hfollows hdone

theorem climb_perform (hclimb : Climb hashGenesis st.chainActive.head? st)
    {call : ChainCall} (hcall : Undisturbed verdict st call) :
    Climb hashGenesis (perform hashGenesis st call).chainActive.head?
      (perform hashGenesis st call) := by
  cases call with
  | acceptBlockHeader block =>
    unfold perform
    dsimp only
    cases haccept : BlockTree.acceptBlockHeader hashGenesis st block with
    | error reject => exact hclimb
    | ok result =>
      obtain ⟨hnext,hchain⟩ := hclimb.acceptBlockHeader haccept
      rw [← hchain] at hnext
      exact hnext
  | acceptBlock block =>
    unfold perform
    dsimp only
    rcases @acceptBlock_cases hashGenesis st block with
      hsame | ⟨result,haccept,hres⟩
    · rw [hsame]
      exact hclimb
    · obtain ⟨hnext,hchain⟩ := hclimb.acceptBlockHeader haccept
      rw [← hchain] at hnext
      obtain ⟨hhash,hfind⟩ := acceptBlockHeader_find hclimb.ground.tree.sound haccept
      rw [← hhash] at hfind
      rcases hres with hsame | ⟨hwanted,hres⟩
      · rw [hsame]
        exact hnext
      · have hdata : result.2.nStatus.haveData=false := by
          rw [wanted,Bool.and_eq_true,Bool.not_eq_true'] at hwanted
          exact hwanted.1
        rcases hres with hrefused | ⟨hstored,hrecv⟩
        · rw [hrefused]
          have hmarked := hnext.refuseArrival hfind hdata
          have hact : (result.1.markFailedValid result.2.hash).chainActive=
              result.1.chainActive := by
            unfold ChainState.markFailedValid ChainState.setStatus ChainState.modify
            rw [hfind]
          rw [hact]
          exact hmarked
        · rw [hrecv]
          exact hnext.receive hfind hdata (hcall hstored)
  | activateBestChain outcomes => exact (hclimb.activateBestChain hcall).climb
  | invalidateBlock hash outcomes => exact hcall.elim
  | resetBlockFailureFlags hash => exact hcall.elim
  | preciousBlock hash outcomes => exact hcall.elim

theorem runMeets_append {condition : ChainState → ChainCall → Prop} {calls last : List ChainCall} :
    RunMeets condition hashGenesis st (calls++last) ↔
      RunMeets condition hashGenesis st calls ∧
      RunMeets condition hashGenesis (runCalls hashGenesis st calls) last := by
  induction calls generalizing st with
  | nil => exact (true_and _).symm.to_iff
  | cons call calls ih =>
    change (condition st call ∧ RunMeets condition hashGenesis
      (perform hashGenesis st call) (calls++last)) ↔
      (condition st call ∧ RunMeets condition hashGenesis
        (perform hashGenesis st call) calls) ∧ _
    rw [ih,and_assoc]
    rfl

/-- Whatever arrives in whatever order: once the best chain was made active, the tip is the best
block whose branch was received and has no failed block, and the candidates are such blocks that are
not worse. -/
theorem tipIsBest_run {calls : List ChainCall} {outcomes : List Outcome}
    (hrun : RunMeets (Undisturbed verdict) hashGenesis noBlocks
      (calls++[.activateBestChain outcomes])) :
    TipIsBest (runCalls hashGenesis noBlocks (calls++[.activateBestChain outcomes])) := by
  obtain ⟨hcalls,hlast,-⟩ := runMeets_append.mp hrun
  have hclimb := @runCalls_invariant (Undisturbed verdict) hashGenesis
    (fun st => Climb hashGenesis st.chainActive.head? st)
    (fun hclimb hcall => climb_perform hclimb hcall) _ _ (climb_noBlocks hashGenesis) hcalls
  have hsettled := hclimb.activateBestChain hlast
  unfold runCalls at hsettled ⊢
  rw [foldl_append]
  exact hsettled.tipIsBest

/-- Two branches, of which the longer one ends with a block that cannot be connected. -/
def forkCalls : List ChainCall :=
  [.acceptBlock (sampleBlock 1 0),.activateBestChain [.ok],.acceptBlock (sampleBlock 2 1),
    .activateBestChain [.ok],.acceptBlockHeader (sampleBlock 3 1).header,
    .acceptBlock (sampleBlock 4 3),.acceptBlock (sampleBlock 3 1)]

theorem follows_of_entries (hentries : ∀ entry∈st.mapBlockIndex.entries,
    (entry.2.nStatus.haveUndo=true → verdict entry.1=true) ∧
    (entry.2.nStatus.haveData=true → entry.2.nStatus.failedValid=true → verdict entry.1=false)) :
    Follows verdict st :=
  ⟨fun hash pindex hfind =>
    (hentries _ ((st.mapBlockIndex.mem_entries_iff hash pindex).mpr hfind)).1,
  fun hash pindex hfind =>
    (hentries _ ((st.mapBlockIndex.mem_entries_iff hash pindex).mpr hfind)).2⟩

/-- The node leaves its branch, finds the invalid block, and comes back. -/
theorem tipIsBest_fork :
    RunMeets (Undisturbed (fun hash => hash≠4)) 1 noBlocks
      (forkCalls++[.activateBestChain [.ok,.ok,.invalid,.ok,.ok]]) ∧
    (runCalls 1 noBlocks (forkCalls++[.activateBestChain [.ok,.ok,.invalid,.ok,.ok]])).chainActive=
      [2,1] ∧
    TipIsBest (runCalls 1 noBlocks
      (forkCalls++[.activateBestChain [.ok,.ok,.invalid,.ok,.ok]])) := by
  have hrun : RunMeets (Undisturbed (fun hash => hash≠4)) 1 noBlocks
      (forkCalls++[.activateBestChain [.ok,.ok,.invalid,.ok,.ok]]) := by
    refine ⟨fun _ => one_ne_zero,⟨?_,?_,?_⟩,fun _ => one_ne_zero,⟨?_,?_,?_⟩,trivial,
      fun _ => one_ne_zero,fun _ => one_ne_zero,⟨?_,?_,?_⟩,trivial⟩
    · decide
    · exact fun _ => by decide
    · exact follows_of_entries (by decide)
    · decide
    · exact fun _ => by decide
    · exact follows_of_entries (by decide)
    · decide
    · exact fun _ => by decide
    · exact follows_of_entries (by decide)
  have hchain : (runCalls 1 noBlocks
      (forkCalls++[.activateBestChain [.ok,.ok,.invalid,.ok,.ok]])).chainActive=[2,1] := by
    decide
  exact ⟨hrun,hchain,@tipIsBest_run 1 _ forkCalls [.ok,.ok,.invalid,.ok,.ok] hrun⟩

end Pyrk.BestChain
