import Pyrk.BlockLinks

/-!
# Received blocks are remembered

A block that arrives while the block before it is failed and not linked waits nowhere, and nothing
links it later.
-/

namespace Pyrk.RememberedBlocks

open BlockTree ChainActivation ChainEffects FailureFlags BlockLinks List

variable {hashGenesis : ℕ} {st : ChainState}

/-- Stored blocks have transactions: the check of a block refuses it otherwise. -/
def CheckedCall : ChainCall → Prop
  | .acceptBlock block => block.check=.stored → block.nTx≠0
  | _ => True

/-- A block whose transactions are taken does not come after a failed block that is not linked. -/
def CanWait (st : ChainState) : ChainCall → Prop
  | .acceptBlock block => block.check=.stored → ∀ pindex hashPrev pindexPrev,
      st.find block.header.hash=some pindex → pindex.nStatus.failed=false →
      wanted st block pindex=true → pindex.pprev.head?=some hashPrev →
      st.find hashPrev=some pindexPrev → pindexPrev.nStatus.failed=true → pindexPrev.nChainTx≠0
  | _ => True

/-- All blocks before a block were received. -/
def ReceivedBefore (st : ChainState) (pindex : CBlockIndex) : Prop :=
  ∀ before∈pindex.pprev, ∃ other, st.find before=some other ∧ other.nStatus.haveData=true

/-- Number of transactions of the blocks with some hashes. -/
def transactionsOf (st : ChainState) (hashes : List ℕ) : ℕ :=
  (hashes.map (fun hash => match st.find hash with
    | none => 0
    | some pindex => pindex.nTx)).sum

/-- No received block is forgotten: it knows the number of transactions on its branch once all are
there, and until then it waits, if no block before it has failed. -/
structure Remembered (st : ChainState) : Prop where
  complete : ∀ hash pindex, st.find hash=some pindex → pindex.nStatus.haveData=true →
    ReceivedBefore st pindex → pindex.nChainTx=transactionsOf st pindex.branch
  incomplete : ∀ hash pindex, st.find hash=some pindex → pindex.nStatus.haveData=true →
    ¬ReceivedBefore st pindex → pindex.nChainTx=0
  waits : ∀ hash pindex, st.find hash=some pindex → pindex.nStatus.haveData=true →
    ¬ReceivedBefore st pindex → (∀ before∈pindex.pprev, ∀ other, st.find before=some other →
      other.nStatus.failedValid=false) →
    ∃ hashPrev, pindex.pprev.head?=some hashPrev ∧ (hashPrev,hash)∈st.mapBlocksUnlinked

theorem nChainTx_eq {strays : Prop} (hsound : SoundTree st) (hlinks : Links strays [] st)
    {hash : ℕ} {pindex : CBlockIndex} (hfind : st.find hash=some pindex)
    (hlink : pindex.nChainTx≠0) : pindex.nChainTx=transactionsOf st pindex.branch := by
  have hself := hsound.hash hfind
  generalize hpprev : pindex.pprev=blocks
  induction blocks generalizing hash pindex with
  | nil =>
    obtain ⟨-,-,hcount⟩ := hlinks.linked hfind hlink
    rw [hcount,nChainTxPrev,CBlockIndex.branch,hpprev,hself]
    simp only [transactionsOf,List.head?_nil,Option.bind_none,map_cons,map_nil,hfind,
      sum_cons,sum_nil,Nat.zero_add,Nat.add_zero]
  | cons hashPrev blocks ih =>
    obtain ⟨-,hpar,hcount⟩ := hlinks.linked hfind hlink
    obtain ⟨pindexPrev,hfindPrev,hrest⟩ := hsound.parent hfind hpprev
    obtain ⟨other,hother,hlinkedPrev⟩ := hpar hashPrev (by rw [hpprev]; rfl)
    rw [hfindPrev] at hother
    cases hother
    have hprev := ih hfindPrev hlinkedPrev (hsound.hash hfindPrev) hrest
    rw [CBlockIndex.branch,hrest,hsound.hash hfindPrev] at hprev
    rw [hcount,nChainTxPrev,CBlockIndex.branch,hpprev,hself,List.head?_cons,Option.bind_some,
      hfindPrev]
    dsimp only
    rw [hprev]
    simp only [transactionsOf,map_cons,sum_cons,hfind]
    omega

theorem remembered_of_links (hsound : SoundTree st) (hlinks : Links False [] st) :
    Remembered st := by
  have hincomplete : ∀ hash pindex, st.find hash=some pindex →
      ¬ReceivedBefore st pindex → pindex.nChainTx=0 := by
    intro hash pindex hfind hmissing
    by_contra hlink
    refine hmissing (fun before hmem => ?_)
    obtain ⟨other,hother,hcount⟩ := hlinks.linked_branch hsound hfind hlink
      (mem_cons_of_mem _ hmem)
    exact ⟨other,hother,(hlinks.linked hother hcount).1⟩
  refine ⟨?_,fun hash pindex hfind _ => hincomplete hash pindex hfind,?_⟩
  · intro hash pindex hfind hdata hbefore
    have hbranch : ∀ before∈pindex.branch,
        ∃ other, st.find before=some other ∧ other.nStatus.haveData=true := by
      intro before hmem
      rcases mem_cons.mp hmem with rfl | hmem
      · exact ⟨pindex,(hsound.hash hfind).symm ▸ hfind,hdata⟩
      · exact hbefore before hmem
    exact nChainTx_eq hsound hlinks hfind
      (hlinks.linked_of_received hsound hfind hbranch (fun hstray => hstray.elim))
  · intro hash pindex hfind hdata hmissing _
    rcases hlinks.waits hfind hdata (hincomplete hash pindex hfind hmissing) with
      hmem | hwait | ⟨hstray,-⟩
    · cases hmem
    · exact hwait
    · exact absurd hstray not_false

theorem linkedTree_perform (htree : LinkedTree False hashGenesis st) {call : ChainCall}
    (hcall : CheckedCall call ∧ CanWait st call) :
    LinkedTree False hashGenesis (perform hashGenesis st call) := by
  cases call with
  | acceptBlockHeader block =>
    unfold perform
    dsimp only
    cases haccept : BlockTree.acceptBlockHeader hashGenesis st block with
    | error reject => exact htree
    | ok result => exact htree.acceptBlockHeader haccept
  | acceptBlock block =>
    obtain ⟨hchk,hwait⟩ := hcall
    unfold perform
    dsimp only
    rcases @acceptBlock_cases hashGenesis st block with
      hsame | ⟨result,haccept,hsame | ⟨hwanted,hfail | ⟨hstored,hrecv⟩⟩⟩
    · rw [hsame]
      exact htree
    · rw [hsame]
      exact htree.acceptBlockHeader haccept
    · rw [hfail]
      exact (htree.acceptBlockHeader haccept).primitives (fun hstray => hstray.elim)
        (@primitives_markFailedValid False _ _)
    · have htree' := htree.acceptBlockHeader haccept
      obtain ⟨hhash,hfind⟩ := acceptBlockHeader_find htree.sound haccept
      rw [← hhash] at hfind
      have hdata : result.2.nStatus.haveData=false := by
        rw [wanted,Bool.and_eq_true,Bool.not_eq_true'] at hwanted
        exact hwanted.1
      obtain ⟨hlinks,hrooted⟩ := receivedBlockTransactions_run
        (fun _ hlinks hrooted => Rooted.linkNext hrooted hlinks)
        (fun hrooted => hrooted) htree'.sound htree'.links hfind hdata (hchk hstored)
        (fun hashPrev pindexPrev hhead hfindPrev hzero hfail => by
          obtain ⟨hsame,hknown,hunfailed⟩ :=
            acceptBlockHeader_prev htree haccept hhead hfindPrev hfail
          rw [hsame] at hwanted hfindPrev
          exact absurd hzero (hwait hstored _ _ _ hknown hunfailed hwanted hhead hfindPrev hfail))
        (htree'.rooted.receive result.2.hash block.nTx)
      rw [hrecv]
      exact ⟨htree'.sound.effects (@effects_receivedBlockTransactions False _ _ _),hrooted,hlinks⟩
  | activateBestChain outcomes =>
    exact htree.primitives (fun hstray => hstray.elim)
      (@primitives_activateBestChain False ⟨st,outcomes⟩ htree.sound)
  | invalidateBlock hash outcomes =>
    exact htree.primitives (fun hstray => hstray.elim)
      (@primitives_invalidateBlock ⟨st,outcomes⟩ htree.sound hash)
  | resetBlockFailureFlags hash =>
    exact htree.primitives (fun hstray => hstray.elim)
      (primitives_resetBlockFailureFlags st hash)
  | preciousBlock hash outcomes =>
    exact htree.primitives (fun hstray => hstray.elim)
      (@primitives_preciousBlock False ⟨st,outcomes⟩ htree.sound hash)

/-- In every run in which received blocks can wait, no received block is
forgotten. -/
theorem remembered_run {calls : List ChainCall}
    (hrun : RunMeets (fun st call => CheckedCall call ∧ CanWait st call) hashGenesis
      noBlocks calls) : Remembered (runCalls hashGenesis noBlocks calls) := by
  have htree : LinkedTree False hashGenesis (runCalls hashGenesis noBlocks calls) :=
    @runCalls_invariant _ _ (LinkedTree False hashGenesis)
      (fun htree hcall => linkedTree_perform htree hcall) _ _
      (linkedTree_noBlocks False hashGenesis) hrun
  exact remembered_of_links htree.sound htree.links

/-- Of two blocks the first one is declared invalid, the second one is received, and the first one
is reconsidered. -/
def forgottenCalls : List ChainCall :=
  [.acceptBlock (sampleBlock 1 0),.activateBestChain [.ok],
    .acceptBlockHeader (sampleBlock 2 1).header,.acceptBlockHeader (sampleBlock 3 2).header,
    .invalidateBlock 2 [],.acceptBlock (sampleBlock 3 2),.resetBlockFailureFlags 2]

/-- The third block is received before the second one is declared invalid. -/
def rememberedCalls : List ChainCall :=
  [.acceptBlock (sampleBlock 1 0),.activateBestChain [.ok],
    .acceptBlockHeader (sampleBlock 2 1).header,.acceptBlockHeader (sampleBlock 3 2).header,
    .acceptBlock (sampleBlock 3 2),.invalidateBlock 2 [],.resetBlockFailureFlags 2]

theorem canWait_of_entries (hentries : ∀ entry∈st.mapBlockIndex.entries,
    entry.2.nStatus.failed=true → entry.2.nChainTx≠0) (call : ChainCall) :
    CanWait st call := by
  cases call with
  | acceptBlock block =>
    intro _ pindex hashPrev pindexPrev _ _ _ _ hfindPrev hfail
    exact hentries _ ((st.mapBlockIndex.mem_entries_iff hashPrev pindexPrev).mpr hfindPrev)
      hfail
  | acceptBlockHeader block => trivial
  | activateBestChain outcomes => trivial
  | invalidateBlock hash outcomes => trivial
  | resetBlockFailureFlags hash => trivial
  | preciousBlock hash outcomes => trivial

/-- A block that came in time waits for the second block and its data. -/
theorem remembered_in_time :
    RunMeets (fun st call => CheckedCall call ∧ CanWait st call) 1 noBlocks rememberedCalls ∧
    (runCalls 1 noBlocks rememberedCalls).mapBlocksUnlinked=[(2,3)] ∧
    Remembered (runCalls 1 noBlocks rememberedCalls) := by
  have hrun : RunMeets (fun st call => CheckedCall call ∧ CanWait st call) 1 noBlocks
      rememberedCalls := by
    refine ⟨⟨fun _ => one_ne_zero,canWait_of_entries (by decide) _⟩,⟨trivial,trivial⟩,
      ⟨trivial,trivial⟩,⟨trivial,trivial⟩,⟨fun _ => one_ne_zero,canWait_of_entries (by decide) _⟩,
      ⟨trivial,trivial⟩,⟨trivial,trivial⟩,trivial⟩
  exact ⟨hrun,by decide,remembered_run hrun⟩

theorem not_remembered_of_find {hash hashPrev : ℕ} {pindex pindexPrev : CBlockIndex}
    (hfind : st.find hash=some pindex) (hdata : pindex.nStatus.haveData=true)
    (hhead : pindex.pprev.head?=some hashPrev) (hfindPrev : st.find hashPrev=some pindexPrev)
    (hmissing : pindexPrev.nStatus.haveData=false)
    (hunfailed : ∀ entry∈st.mapBlockIndex.entries, entry.2.nStatus.failedValid=false)
    (hnowhere : st.mapBlocksUnlinked=[]) : ¬Remembered st := by
  intro hremembered
  obtain ⟨before,-,hwait⟩ := hremembered.waits hash pindex hfind hdata
    (fun hbefore => by
      obtain ⟨other,hother,hrecv⟩ := hbefore hashPrev (mem_of_head? hhead)
      rw [hfindPrev] at hother
      cases hother
      rw [hmissing] at hrecv
      cases hrecv)
    (fun before _ other hother =>
      hunfailed _ ((st.mapBlockIndex.mem_entries_iff before other).mpr hother))
  rw [hnowhere] at hwait
  cases hwait

/-- A block that came while the block before it was declared invalid stays forgotten when the
missing block arrives. -/
theorem forgotten_after_reconsider :
    (∀ call∈forgottenCalls, CheckedCall call) ∧ ¬Remembered (runCalls 1 noBlocks forgottenCalls) ∧
    (runCalls 1 noBlocks
      (forgottenCalls++[.acceptBlock (sampleBlock 2 1)])).mapBlockIndex.entries.map
        (fun entry => (entry.1,entry.2.nStatus.haveData,entry.2.nTx,entry.2.nChainTx))=
      [(1,true,1,1),(2,true,1,2),(3,true,1,0)] := by
  refine ⟨?_,?_,by decide⟩
  · simp [forgottenCalls,CheckedCall,sampleBlock]
  · exact @not_remembered_of_find _ 3 2
      ⟨3,[2,1],3,3,1,0,{ validity := .transactions,haveData := true },0⟩
      ⟨2,[1],2,2,0,0,{ validity := .tree },0⟩ (by decide) rfl rfl (by decide) rfl (by decide)
      (by decide)

end Pyrk.RememberedBlocks
