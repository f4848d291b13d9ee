import Pyrk.SkipList

/-!
# Active chain and locators

The active chain gets a new tip by a walk back that stops where a block has its
place already. Forks are found by walks back, and from the few ancestors of a
locator.
-/

namespace Pyrk.ChainForks

open BlockIndexFile BlockIndexLoad SkipList OrderedMap Option List

/-- Blocks of the active chain by their heights; a new place holds a null pointer. -/
abbrev CChain := List (Option ℕ)

/-- Resize the vector of blocks. -/
def resize (vChain : CChain) (size : ℕ) : CChain :=
  vChain.take size++replicate (size-vChain.length) none

/-- Put blocks in their places, back to one that has it. There is no result for a write outside of
the vector. -/
def place (index : BlockIndex) : ℕ → CChain → ℕ → Option CChain
  | 0,_,_ => none
  | rounds+1,vChain,hash =>
    match index.find hash with
    | none => none
    | some pindex =>
      if vChain.length≤pindex.nHeight then none
      else if vChain[pindex.nHeight]?=some (some hash) then some vChain
      else
        match pindex.pprev with
        | none => some (vChain.set pindex.nHeight (some hash))
        | some hashPrev => place index rounds (vChain.set pindex.nHeight (some hash)) hashPrev

def setTip (index : BlockIndex) (vChain : CChain) : Option ℕ → Option CChain
  | none => some []
  | some hash =>
    (index.find hash).bind fun pindex =>
      place index (pindex.nHeight+1) (resize vChain (pindex.nHeight+1)) hash

/-- Whether a block is in the chain. -/
def contains (index : BlockIndex) (vChain : CChain) (hash : ℕ) : Bool :=
  match index.find hash with
  | none => false
  | some pindex => vChain[pindex.nHeight]?=some (some hash)

/-- Walk back to a block of the chain. -/
def forkFrom (index : BlockIndex) (vChain : CChain) : ℕ → Option ℕ → Option (Option ℕ)
  | _,none => some none
  | 0,_ => none
  | rounds+1,some hash =>
    if contains index vChain hash then some (some hash)
    else (index.find hash).bind fun pindex => forkFrom index vChain rounds pindex.pprev

/-- Last block of the chain that is a block or before it. -/
def findFork (index : BlockIndex) (vChain : CChain) : Option ℕ → Option (Option ℕ)
  | none => some none
  | some hash =>
    (index.find hash).bind fun pindex =>
      forkFrom index vChain (pindex.nHeight+1)
        (if (vChain.length : ℤ)-1 < pindex.nHeight then
          getAncestorAt index pindex (vChain.length-1)
        else some hash)

/-- Collect blocks for a locator, with steps that double after the first ones. -/
def locate (index : BlockIndex) (vChain : CChain) : ℕ → ℕ → List ℕ → ℕ → Option (List ℕ)
  | 0,_,_,_ => none
  | rounds+1,nStep,vHave,hash =>
    (index.find hash).bind fun pindex =>
      let vHave := vHave++[hash]
      if pindex.nHeight=0 then some vHave
      else
        let nHeight := pindex.nHeight-nStep
        match (if contains index vChain hash then vChain[nHeight]?.join
            else getAncestor index pindex nHeight) with
        | none => some vHave
        | some hash => locate index vChain rounds (if 10<vHave.length then nStep*2 else nStep)
            vHave hash

/-- Locator of a block, or of the tip. -/
def getLocator (index : BlockIndex) (vChain : CChain) (hash : Option ℕ) : Option (List ℕ) :=
  match hash.or vChain.getLast?.join with
  | none => some []
  | some hash =>
    (index.find hash).bind fun pindex => locate index vChain (pindex.nHeight+1) 1 [] hash

/-- First block of a locator that is in the chain, or the first block of the chain. -/
def findForkInGlobalIndex (index : BlockIndex) (vChain : CChain) : List ℕ → Option ℕ
  | [] => vChain.head?.join
  | hash::vHave =>
    if contains index vChain hash then some hash else findForkInGlobalIndex index vChain vHave

/-- Ancestors of a block are in their places, and so is the block. -/
def AncestorsOf (index : BlockIndex) (vChain : CChain) (height hash : ℕ) : Prop :=
  ∀ lower≤height,vChain[lower]?=some (stepsBack index (height-lower) hash)

/-- Below a height every block has its ancestors under it. -/
def AncestorsBelow (index : BlockIndex) (vChain : CChain) (bound : ℕ) : Prop :=
  ∀ height<bound,∀ hash,vChain[height]?=some (some hash) →
    (∃ entry,index.find hash=some entry ∧ entry.nHeight=height) ∧
    AncestorsOf index vChain height hash

/-- The chain consists of the ancestors of its tip. -/
structure Follows (index : BlockIndex) (vChain : CChain) : Prop where
  full : ∀ height<vChain.length,∃ hash,vChain[height]?=some (some hash)
  ancestors : AncestorsBelow index vChain vChain.length

/-- The active chain while blocks are added and tips are set. -/
inductive ChainRun : BlockIndex → CChain → Prop
  | start : ChainRun .empty []
  | add {index vChain} {pindex : CBlockIndex} (run : ChainRun index vChain)
      (hnew : index.find pindex.hash=none) (hpskip : pindex.pskip=none)
      (hprev : ∀ hashPrev, pindex.pprev=some hashPrev →
        ∃ before, index.find hashPrev=some before ∧ pindex.nHeight=before.nHeight+1)
      (hroot : pindex.pprev=none → pindex.nHeight=0) :
      ChainRun (index.set pindex.hash { pindex with pskip := buildSkip index pindex }) vChain
  | setTip {index vChain next} {tip : Option ℕ} (run : ChainRun index vChain)
      (htip : setTip index vChain tip=some next) : ChainRun index next

/-- Where a branch leaves the chain: blocks after the fork are not in it, those before it are. -/
def ForkAt (index : BlockIndex) (vChain : CChain) (height hash distance : ℕ) : Prop :=
  ∀ steps≤height,(vChain[height-steps]?=some (stepsBack index steps hash) ↔ distance ≤ steps)

/-- Blocks before a block, whose distances grow by one at first and double at most, up to the first
block. -/
inductive Locator (index : BlockIndex) (hash height : ℕ) : ℕ → List ℕ → Prop
  | last {found} (hback : stepsBack index height hash=some found) :
      Locator index hash height height [found]
  | step {near far found vHave} (hback : stepsBack index near hash=some found) (hlt : near<far)
      (hle : far≤2*near+1) (hfew : near≤10 → far=near+1)
      (rest : Locator index hash height far vHave) : Locator index hash height near (found::vHave)

variable {index : BlockIndex} {vChain : CChain} {hash : ℕ} {entry : CBlockIndex}

theorem length_resize (vChain : CChain) (size : ℕ) : (resize vChain size).length=size := by
  rw [resize,length_append,length_take,length_replicate]
  omega

theorem getElem?_resize {size height : ℕ} (hlt : height < size) {hash : ℕ} :
    (resize vChain size)[height]?=some (some hash) ↔ vChain[height]?=some (some hash) := by
  rw [resize,getElem?_append,length_take]
  split_ifs with hold
  · rw [getElem?_take_of_lt hlt]
  · rw [getElem?_replicate,getElem?_eq_none (by omega)]
    split <;> simp only [reduceCtorEq,some.injEq]

theorem Follows.tip (h : Follows index vChain) {height hash : ℕ}
    (hthere : vChain[height]?=some (some hash)) : (∃ entry,index.find hash=some entry ∧
      entry.nHeight=height) ∧ AncestorsOf index vChain height hash :=
  h.ancestors height (List.getElem?_eq_some_iff.mp hthere).1 hash hthere

theorem Follows.ancestors_resize (h : Follows index vChain) (size : ℕ) :
    AncestorsBelow index (resize vChain size) size := by
  intro height hlt hash hthere
  obtain ⟨hentry,hback⟩ := h.tip ((getElem?_resize hlt).mp hthere)
  refine ⟨hentry,fun lower hle => ?_⟩
  obtain ⟨found,hfound⟩ := h.full lower (List.getElem?_eq_some_iff.mp (hback lower hle)).1
  rw [hback lower hle] at hfound
  rw [some.inj hfound]
  exact (getElem?_resize (by omega)).mpr ((hback lower hle).trans hfound)

/-- The walk back ends, and each block from its start on has its ancestors under it. -/
theorem place_eq (hskips : Skips index) (rounds : ℕ) : ∀ {vChain hash entry},
    index.find hash=some entry → entry.nHeight < rounds → entry.nHeight<vChain.length →
    AncestorsBelow index vChain (entry.nHeight+1) → ∃ next,
      place index rounds vChain hash=some next ∧ next.length=vChain.length ∧
      (∀ height,entry.nHeight<height → next[height]?=vChain[height]?) ∧
      AncestorsOf index next entry.nHeight hash := by
  induction rounds with
  | zero => exact fun _ hlt => absurd hlt (Nat.not_lt_zero _)
  | succ rounds ih =>
    intro vChain hash entry hfind hrounds hlen hbelow
    rw [place,hfind]
    dsimp only
    rw [if_neg (by omega)]
    split_ifs with hthere
    · exact ⟨vChain,rfl,rfl,fun _ _ => rfl,(hbelow _ (Nat.lt_succ_self _) hash hthere).2⟩
    · have hset : ∀ height≠entry.nHeight,
          (vChain.set entry.nHeight (some hash))[height]?=vChain[height]? :=
        fun height hne => getElem?_set_ne (Ne.symm hne)
      cases hprev : entry.pprev with
      | none =>
        have hzero := hskips.root hfind hprev
        refine ⟨_,rfl,length_set,fun height hlt => hset height (by omega),fun height hle => ?_⟩
        rw [show height=entry.nHeight by omega,getElem?_set_self hlen,Nat.sub_self,stepsBack]
      | some hashPrev =>
        obtain ⟨before,hbefore,hheight⟩ := hskips.prev hfind hprev
        obtain ⟨next,hnext,hsame,habove,hunder⟩ := @ih (vChain.set entry.nHeight (some hash)) _ _
          hbefore (by omega) (by rw [length_set]; omega) (fun height hlt found hfound => by
            rw [hset height (by omega)] at hfound
            obtain ⟨hentry,hback⟩ := hbelow height (by omega) found hfound
            exact ⟨hentry,fun lower hle => by rw [hset lower (by omega),hback lower hle]⟩)
        refine ⟨next,hnext,by rw [hsame,length_set],fun height hlt => ?_,fun height hle => ?_⟩
        · rw [habove height (by omega),hset height (by omega)]
        · rcases Nat.lt_or_ge height entry.nHeight with hlt|hge
          · rw [hunder height (by omega),show entry.nHeight-height=before.nHeight-height+1 by omega,
              stepsBack,hfind,bind_some,hprev,bind_some]
          · rw [show height=entry.nHeight by omega,habove _ (by omega),getElem?_set_self hlen,
              Nat.sub_self,stepsBack]

theorem Follows.setTip (h : Follows index vChain) (hskips : Skips index)
    (hfind : index.find hash=some entry) : ∃ next,setTip index vChain (some hash)=some next ∧
      next.length=entry.nHeight+1 ∧ AncestorsOf index next entry.nHeight hash := by
  obtain ⟨next,hnext,hlen,-,hunder⟩ := place_eq hskips (entry.nHeight+1) hfind
    (Nat.lt_succ_self _) (by rw [length_resize]; omega) (h.ancestors_resize (entry.nHeight+1))
  refine ⟨next,?_,by rw [hlen,length_resize],hunder⟩
  rw [ChainForks.setTip,hfind,bind_some,hnext]

theorem Follows.of_tip (hskips : Skips index) (hfind : index.find hash=some entry)
    (hlen : vChain.length=entry.nHeight+1)
    (hunder : AncestorsOf index vChain entry.nHeight hash) : Follows index vChain := by
  refine ⟨fun height hlt => ?_,fun height hlt found hfound => ?_⟩
  · obtain ⟨target,-,hback,-⟩ :=
      hskips.exists_stepsBack (entry.nHeight-height) hfind (Nat.sub_le _ _)
    exact ⟨target,by rw [hunder height (by omega),hback]⟩
  · obtain ⟨target,there,hback,hthere,hheight⟩ :=
      hskips.exists_stepsBack (entry.nHeight-height) hfind (Nat.sub_le _ _)
    rw [hunder height (by omega),hback] at hfound
    rw [some.inj (some.inj hfound)] at hback hthere
    refine ⟨⟨there,hthere,by omega⟩,fun lower hle => ?_⟩
    rw [hunder lower (by omega),
      show entry.nHeight-lower=entry.nHeight-height+(height-lower) by omega,stepsBack_add,hback,
      bind_some]

theorem follows_nil : Follows index [] :=
  ⟨fun _ hlt => absurd hlt (Nat.not_lt_zero _),fun _ hlt => absurd hlt (Nat.not_lt_zero _)⟩

theorem ChainRun.follows (run : ChainRun index vChain) : Built index ∧ Follows index vChain := by
  induction run with
  | start => exact ⟨.empty,follows_nil⟩
  | @add index vChain pindex _ hnew hpskip hprev hroot ih =>
    refine ⟨ih.1.add hnew hpskip hprev hroot,ih.2.full,fun height hlt hash hthere => ?_⟩
    obtain ⟨⟨entry,hfind,hheight⟩,hback⟩ := ih.2.ancestors height hlt hash hthere
    have hne : hash≠pindex.hash := fun heq => by rw [heq,hnew] at hfind; cases hfind
    refine ⟨⟨entry,by rw [find_set,if_neg hne,hfind],hheight⟩,fun lower hle => ?_⟩
    rw [hback lower hle,ih.1.skips.stepsBack_set hnew _ _ hfind]
  | @setTip index vChain next tip _ htip ih =>
    refine ⟨ih.1,?_⟩
    cases tip with
    | none =>
      cases htip
      exact follows_nil
    | some hash =>
      cases hfind : index.find hash with
      | none =>
        rw [ChainForks.setTip,hfind] at htip
        cases htip
      | some entry =>
        obtain ⟨set,hset,hlen,hunder⟩ := ih.2.setTip ih.1.skips hfind
        rw [hset] at htip
        cases htip
        exact .of_tip ih.1.skips hfind hlen hunder

theorem contains_eq (hfind : index.find hash=some entry) :
    contains index vChain hash=true ↔ vChain[entry.nHeight]?=some (some hash) := by
  rw [contains,hfind]
  exact decide_eq_true_iff

theorem stepsBack_root (hskips : Skips index) (hfind : index.find hash=some entry) :
    stepsBack index (entry.nHeight+1) hash=none := by
  obtain ⟨target,root,hback,htarget,hheight⟩ := hskips.exists_stepsBack _ hfind le_rfl
  rw [stepsBack_add,hback,bind_some,stepsBack,htarget,bind_some]
  cases hprev : root.pprev with
  | none => rfl
  | some hashPrev =>
    obtain ⟨before,-,hbefore⟩ := hskips.prev htarget hprev
    omega

/-- A branch leaves the chain where it leaves it from a block before. -/
theorem ForkAt.of_back {height steps target distance : ℕ}
    (hback : stepsBack index steps hash=some target)
    (hnone : ∀ fewer < steps,vChain[height-fewer]?≠some (stepsBack index fewer hash))
    (hle : steps≤height) (hfork : ForkAt index vChain (height-steps) target distance) :
    ForkAt index vChain height hash (steps+distance) := by
  intro others hothers
  rcases Nat.lt_or_ge others steps with hlt|hge
  · exact ⟨fun hthere => absurd hthere (hnone others hlt),fun hdistance => by omega⟩
  · have heq := hfork (others-steps) (by omega)
    rw [show height-steps-(others-steps)=height-others by omega] at heq
    rw [show others=steps+(others-steps) by omega,stepsBack_add,hback,bind_some,
      show steps+(others-steps)=others by omega,heq]
    omega

theorem forkFrom_eq (hskips : Skips index) (h : Follows index vChain) (rounds : ℕ) :
    ∀ {hash entry},index.find hash=some entry → entry.nHeight < rounds → ∃ distance,
      forkFrom index vChain rounds (some hash)=some (stepsBack index distance hash) ∧
      ForkAt index vChain entry.nHeight hash distance := by
  induction rounds with
  | zero => exact fun _ hlt => absurd hlt (Nat.not_lt_zero _)
  | succ rounds ih =>
    intro hash entry hfind hrounds
    rw [forkFrom]
    split_ifs with hthere
    · rw [contains_eq hfind] at hthere
      refine ⟨0,rfl,fun steps hle => ⟨fun _ => Nat.zero_le _,fun _ => ?_⟩⟩
      rw [(h.tip hthere).2 _ (Nat.sub_le _ _),Nat.sub_sub_self hle]
    · rw [contains_eq hfind] at hthere
      rw [hfind,bind_some]
      have hself : ∀ fewer<1,vChain[entry.nHeight-fewer]?≠some (stepsBack index fewer hash) := by
        intro fewer hlt
        rwa [Nat.lt_one_iff.mp hlt,Nat.sub_zero,stepsBack]
      have hback : ∀ steps,
          stepsBack index (1+steps) hash=entry.pprev.bind (stepsBack index steps) := by
        intro steps
        rw [Nat.add_comm,stepsBack,hfind,bind_some]
      cases hprev : entry.pprev with
      | none =>
        have hzero := hskips.root hfind hprev
        refine ⟨1,by rw [forkFrom,hback 0,hprev,bind_none],fun steps hle => ?_⟩
        exact ⟨fun hfound => absurd hfound (hself steps (by omega)),fun hlow => by omega⟩
      | some hashPrev =>
        obtain ⟨before,hbefore,hheight⟩ := hskips.prev hfind hprev
        obtain ⟨distance,hfork,hat⟩ := ih hbefore (by omega)
        rw [show before.nHeight=entry.nHeight-1 by omega] at hat
        refine ⟨1+distance,by rw [hfork,hback,hprev,bind_some],.of_back ?_ hself (by omega) hat⟩
        rw [hback 0,hprev,bind_some,stepsBack]

theorem Follows.findFork (hskips : Skips index) (h : Follows index vChain)
    (hfind : index.find hash=some entry) : ∃ distance,
      findFork index vChain (some hash)=some (stepsBack index distance hash) ∧
      ForkAt index vChain entry.nHeight hash distance := by
  rw [ChainForks.findFork,hfind,bind_some]
  split_ifs with hhigh
  · have habove : ∀ fewer<entry.nHeight+1-vChain.length,
        vChain[entry.nHeight-fewer]?≠some (stepsBack index fewer hash) := by
      intro fewer hlt
      rw [List.getElem?_eq_none (by omega)]
      exact nofun
    rw [getAncestorAt]
    split_ifs with hempty
    · refine ⟨entry.nHeight+1,by rw [forkFrom,stepsBack_root hskips hfind],fun steps hle =>
        ⟨fun hthere => absurd hthere (habove steps (by omega)),fun hlow => by omega⟩⟩
    · rw [hskips.getAncestor_eq hfind (by omega)]
      obtain ⟨target,found,hback,htarget,hheight⟩ := hskips.exists_stepsBack
        (entry.nHeight-((vChain.length : ℤ)-1).toNat) hfind (Nat.sub_le _ _)
      obtain ⟨distance,hfork,hat⟩ := forkFrom_eq hskips h (entry.nHeight+1) htarget (by omega)
      rw [hheight] at hat
      refine ⟨_,by rw [hback,hfork,stepsBack_add,hback,bind_some],.of_back hback
        (fun fewer hlt => habove fewer (by omega)) (Nat.sub_le _ _) hat⟩
  · exact forkFrom_eq hskips h _ hfind (Nat.lt_succ_self _)

/-- Whatever blocks came and whatever tips were set: a tip is set by writes inside of the chain,
which then has the ancestors of the tip, and the last common block with any branch is found. -/
theorem ChainRun.setTip_findFork (run : ChainRun index vChain)
    (hfind : index.find hash=some entry) :
    (∃ next,ChainForks.setTip index vChain (some hash)=some next ∧ next.length=entry.nHeight+1 ∧
      AncestorsOf index next entry.nHeight hash) ∧
    ∃ distance,ChainForks.findFork index vChain (some hash)=some (stepsBack index distance hash) ∧
      ForkAt index vChain entry.nHeight hash distance :=
  ⟨run.follows.2.setTip run.follows.1.skips hfind,run.follows.2.findFork run.follows.1.skips hfind⟩

/-- The loop collects ancestors down to the first block, with whichever chain it looks them up. -/
theorem locate_eq (hskips : Skips index) (h : Follows index vChain) (rounds : ℕ) :
    ∀ {near nStep vHave found pindex},stepsBack index near hash=some found →
    index.find found=some pindex → pindex.nHeight+near=entry.nHeight → pindex.nHeight < rounds →
    vHave.length≤near → 0<nStep → (0<pindex.nHeight → nStep≤near+1) → (near≤10 → nStep=1) →
    ∃ rest,locate index vChain rounds nStep vHave found=some (vHave++rest) ∧
      Locator index hash entry.nHeight near rest := by
  induction rounds with
  | zero => exact fun _ _ _ hlt => absurd hlt (Nat.not_lt_zero _)
  | succ rounds ih =>
    intro near nStep vHave found pindex hback hfound hheight hrounds hlen hpos hstep hfew
    rw [locate,hfound,bind_some]
    dsimp only
    by_cases hroot : pindex.nHeight=0
    · rw [if_pos hroot]
      rw [hroot,Nat.zero_add] at hheight
      rw [hheight] at hback ⊢
      exact ⟨[found],rfl,.last hback⟩
    · rw [if_neg hroot]
      obtain ⟨target,before,hsteps,htarget,hbefore⟩ :=
        hskips.exists_stepsBack (pindex.nHeight-(pindex.nHeight-nStep)) hfound (Nat.sub_le _ _)
      have hlook : (if contains index vChain found then vChain[pindex.nHeight-nStep]?.join
          else getAncestor index pindex (pindex.nHeight-nStep))=some target := by
        split_ifs with hin
        · rw [(h.tip ((contains_eq hfound).mp hin)).2 _ (Nat.sub_le _ _),hsteps,join_some]
        · rw [hskips.getAncestor_eq hfound (Nat.sub_le _ _),hsteps]
      obtain ⟨rest,hrest,hlocator⟩ := @ih _
        (if 10<(vHave++[found]).length then nStep*2 else nStep) (vHave++[found]) _ _
        (by rw [stepsBack_add,hback,bind_some,hsteps]) htarget (by omega) (by omega)
        (by rw [length_append,length_singleton]; omega) (by split <;> omega)
        (by split <;> omega) (by rw [length_append,length_singleton]; split <;> omega)
      rw [hlook]
      refine ⟨found::rest,?_,.step hback (by omega) (by omega) (by omega) hlocator⟩
      exact hrest.trans (by rw [append_assoc,singleton_append])

theorem Locator.near_le {height near : ℕ} {vHave : List ℕ}
    (hlocator : Locator index hash height near vHave) : near≤height := by
  induction hlocator with
  | last => exact le_rfl
  | step _ hlt _ _ _ ih => exact hlt.le.trans ih

/-- The first block of a locator in the chain is near the fork. -/
theorem Locator.near_fork (hskips : Skips index) (hfind : index.find hash=some entry)
    {distance near : ℕ} {vHave : List ℕ}
    (hlocator : Locator index hash entry.nHeight near vHave)
    (hfork : ForkAt index vChain entry.nHeight hash distance) (hle : distance≤entry.nHeight)
    (hnear : near≤2*distance) (hfew : distance≤11 → near≤distance) : ∃ back,
      findForkInGlobalIndex index vChain vHave=stepsBack index back hash ∧ distance≤back ∧
      back≤2*distance ∧ back≤entry.nHeight ∧ (distance≤11 → back=distance) := by
  have hin : ∀ {steps found},steps≤entry.nHeight → stepsBack index steps hash=some found →
      (contains index vChain found=true ↔ distance ≤ steps) := by
    intro steps found hsteps hback
    obtain ⟨target,before,htarget,hbefore,hheight⟩ := hskips.exists_stepsBack steps hfind hsteps
    rw [some.inj (hback.symm.trans htarget),contains_eq hbefore,hheight,← htarget]
    exact hfork steps hsteps
  induction hlocator with
  | @last found hback =>
    rw [findForkInGlobalIndex,if_pos ((hin le_rfl hback).mpr hle)]
    exact ⟨_,hback.symm,hle,hnear,le_rfl,fun hlow => le_antisymm (hfew hlow) hle⟩
  | @step near far found vHave hback hlt hfar hone rest ih =>
    have hnearHeight := hlt.le.trans rest.near_le
    rw [findForkInGlobalIndex]
    split_ifs with hthere
    · have hlow := (hin hnearHeight hback).mp hthere
      exact ⟨near,hback.symm,hlow,hnear,hnearHeight,fun hshort => le_antisymm (hfew hshort) hlow⟩
    · have hlow : ¬distance≤near := fun hlow => hthere ((hin hnearHeight hback).mpr hlow)
      exact ih (by omega) (by omega)

/-- Whatever blocks came and whatever tips were set: a locator lists ancestors down to the first
block, and in any other chain it leads to a common block that is near the fork. -/
theorem ChainRun.findForkInGlobalIndex_near (run : ChainRun index vChain)
    (hfind : index.find hash=some entry) {other : CChain} (hother : ChainRun index other) :
    ∃ vHave distance,getLocator index vChain (some hash)=some vHave ∧
      Locator index hash entry.nHeight 0 vHave ∧
      ForkAt index other entry.nHeight hash distance ∧
      ChainForks.findFork index other (some hash)=some (stepsBack index distance hash) ∧
      (distance≤entry.nHeight → ∃ back,
        findForkInGlobalIndex index other vHave=stepsBack index back hash ∧ distance≤back ∧
        back≤2*distance ∧ back≤entry.nHeight ∧ (distance≤11 → back=distance)) := by
  obtain ⟨hbuilt,hfollows⟩ := run.follows
  obtain ⟨vHave,hhave,hlocator⟩ : ∃ vHave,
      locate index vChain (entry.nHeight+1) 1 [] hash=some vHave ∧
      Locator index hash entry.nHeight 0 vHave :=
    locate_eq hbuilt.skips hfollows _ rfl hfind rfl (Nat.lt_succ_self _) le_rfl Nat.one_pos
      (fun _ => le_rfl) (fun _ => rfl)
  obtain ⟨distance,hfork,hat⟩ := hother.follows.2.findFork hbuilt.skips hfind
  refine ⟨vHave,distance,?_,hlocator,hat,hfork,fun hle => hlocator.near_fork hbuilt.skips hfind
    hat hle (Nat.zero_le _) (fun _ => Nat.zero_le _)⟩
  rw [getLocator,Option.some_or]
  dsimp only
  rw [hfind,bind_some,hhave]

/-- The first block and one after it. -/
def sampleTree : BlockIndex := ((.empty : BlockIndex).set 1 { hash := 1 }).set 2
  { hash := 2, pprev := some 1, nHeight := 1, pskip := some 1 }

theorem sampleTree_run : ChainRun sampleTree [some 1,some 2] :=
  @ChainRun.setTip _ _ _ (some 2) (@ChainRun.add _ _ { hash := 2, pprev := some 1, nHeight := 1 }
    (@ChainRun.add _ _ { hash := 1 } .start rfl rfl nofun (fun _ => rfl)) rfl rfl
    (fun _ hprev => ⟨{ hash := 1 },by rw [← some.inj hprev]; rfl,rfl⟩) nofun) rfl

theorem setTip_findFork_sample : ∃ distance,
    findFork sampleTree [some 1,some 2] (some 1)=some (stepsBack sampleTree distance 1) ∧
    ForkAt sampleTree [some 1,some 2] 0 1 distance :=
  (@ChainRun.setTip_findFork _ _ 1 { hash := 1 } sampleTree_run rfl).2

theorem findForkInGlobalIndex_near_sample : ∃ vHave,
    getLocator sampleTree [some 1,some 2] (some 2)=some vHave ∧ Locator sampleTree 2 1 0 vHave :=
  let ⟨vHave,_,hhave,hlocator,_⟩ := @ChainRun.findForkInGlobalIndex_near _ _ 2
    { hash := 2, pprev := some 1, nHeight := 1, pskip := some 1 } sampleTree_run rfl _
    sampleTree_run
  ⟨vHave,hhave,hlocator⟩

end Pyrk.ChainForks
