import Pyrk.BlockIndexLoad

/-!
# Skip pointers

Blocks are added after the blocks before them, each with a pointer that skips
blocks. It leads to where the pointers to the blocks before lead as well, so a
walk back over both ends at the same block.
-/

namespace Pyrk.SkipList

open BlockIndexFile BlockIndexLoad OrderedMap Option

/-- Block some steps before, from one block to the one before it. -/
def stepsBack (index : BlockIndex) : ℕ → ℕ → Option ℕ
  | 0,hash => some hash
  | steps+1,hash => ((index.find hash).bind CBlockIndex.pprev).bind (stepsBack index steps)

/-- Block of a chain at any height, also below zero. -/
def getAncestorAt (index : BlockIndex) (pindex : CBlockIndex) (height : ℤ) : Option ℕ :=
  if height < 0 then none else getAncestor index pindex height.toNat

/-- A tree of blocks: the block before is set, and the height, and then the pointer is built. -/
inductive Built : BlockIndex → Prop
  | empty : Built .empty
  | add {index : BlockIndex} {pindex : CBlockIndex} (hbuilt : Built index)
      (hnew : index.find pindex.hash=none) (hpskip : pindex.pskip=none)
      (hprev : ∀ hashPrev, pindex.pprev=some hashPrev →
        ∃ before, index.find hashPrev=some before ∧ pindex.nHeight=before.nHeight+1)
      (hroot : pindex.pprev=none → pindex.nHeight=0) :
      Built (index.set pindex.hash { pindex with pskip := buildSkip index pindex })

/-- A pointer that skips blocks leads to where as many steps back lead. -/
structure Skips (index : BlockIndex) : Prop where
  hash : ∀ {hash entry}, index.find hash=some entry → entry.hash=hash
  prev : ∀ {hash entry hashPrev}, index.find hash=some entry → entry.pprev=some hashPrev →
    ∃ before, index.find hashPrev=some before ∧ entry.nHeight=before.nHeight+1
  root : ∀ {hash entry}, index.find hash=some entry → entry.pprev=none → entry.nHeight=0
  skip : ∀ {hash entry hashSkip}, index.find hash=some entry → entry.pskip=some hashSkip →
    stepsBack index (entry.nHeight-getSkipHeight entry.nHeight) hash=some hashSkip

variable {index : BlockIndex} {hash : ℕ} {entry : CBlockIndex}

theorem stepsBack_add (first second hash : ℕ) : stepsBack index (first+second) hash=
    (stepsBack index first hash).bind (stepsBack index second) := by
  induction first generalizing hash with
  | zero => rw [Nat.zero_add,stepsBack,bind_some]
  | succ first ih =>
    rw [Nat.succ_add,stepsBack,stepsBack]
    cases (index.find hash).bind CBlockIndex.pprev with
    | none => rfl
    | some hashPrev => exact ih hashPrev

theorem Skips.exists_stepsBack (h : Skips index) (steps : ℕ) : ∀ {hash entry},
    index.find hash=some entry → steps≤entry.nHeight → ∃ target found,
      stepsBack index steps hash=some target ∧ index.find target=some found ∧
      found.nHeight=entry.nHeight-steps := by
  induction steps with
  | zero => exact fun hfind _ => ⟨_,_,rfl,hfind,rfl⟩
  | succ steps ih =>
    intro hash entry hfind hsteps
    cases hprev : entry.pprev with
    | none =>
      have hzero := h.root hfind hprev
      omega
    | some hashPrev =>
      obtain ⟨before,hbefore,hheight⟩ := h.prev hfind hprev
      obtain ⟨target,found,hback,htarget,hfound⟩ := ih hbefore (by omega)
      refine ⟨target,found,?_,htarget,by omega⟩
      rw [stepsBack,hfind,bind_some,hprev,bind_some,hback]

theorem Skips.walkBack_eq (h : Skips index) {height : ℕ} (rounds : ℕ) :
    ∀ {heightWalk hash entry}, index.find hash=some entry → entry.nHeight=heightWalk →
    height≤heightWalk → heightWalk≤height+rounds →
    walkBack index height rounds heightWalk hash=stepsBack index (heightWalk-height) hash := by
  induction rounds with
  | zero =>
    intro heightWalk hash entry _ _ hlow hhigh
    rw [show heightWalk-height=0 by omega,walkBack,stepsBack]
  | succ rounds ih =>
    intro heightWalk hash entry hfind hheight hlow hhigh
    rw [walkBack]
    split_ifs with hend
    · rw [show heightWalk-height=0 by omega,stepsBack]
    · rw [hfind]
      dsimp only
      have hlower := getSkipHeight_lt (show 0 < heightWalk by omega)
      split_ifs with hjump
      · obtain ⟨hashSkip,hskip⟩ := ne_none_iff_exists'.mp hjump.1
        have hback := h.skip hfind hskip
        obtain ⟨target,found,hsteps,hfound,hfoundHeight⟩ :=
          h.exists_stepsBack (entry.nHeight-getSkipHeight entry.nHeight) hfind (by omega)
        rw [hheight] at hback hsteps hfoundHeight
        rw [← some.inj (hback.symm.trans hsteps)] at hfound
        rw [hskip,bind_some,ih hfound (by omega) (by omega) (by omega),
          show heightWalk-height=heightWalk-getSkipHeight heightWalk+
            (getSkipHeight heightWalk-height) by omega,stepsBack_add,hback,bind_some]
      · cases hprev : entry.pprev with
        | none =>
          have hzero := h.root hfind hprev
          omega
        | some hashPrev =>
          obtain ⟨before,hbefore,hbeforeHeight⟩ := h.prev hfind hprev
          rw [bind_some,ih hbefore (by omega) (by omega) (by omega),
            show heightWalk-height=heightWalk-1-height+1 by omega,stepsBack,hfind,bind_some,
            hprev,bind_some]

theorem Skips.getAncestor_eq (h : Skips index) (hfind : index.find hash=some entry) {height : ℕ}
    (hle : height≤entry.nHeight) :
    getAncestor index entry height=stepsBack index (entry.nHeight-height) hash := by
  rw [getAncestor,if_neg (by omega),h.hash hfind,
    h.walkBack_eq entry.nHeight hfind rfl hle (by omega)]

theorem Skips.stepsBack_set (h : Skips index) {new : ℕ} (hnew : index.find new=none)
    (added : CBlockIndex) (steps : ℕ) : ∀ {hash entry}, index.find hash=some entry →
    stepsBack (index.set new added) steps hash=stepsBack index steps hash := by
  induction steps with
  | zero => exact fun _ => rfl
  | succ steps ih =>
    intro hash entry hfind
    have hne : hash≠new := fun heq => by
      rw [heq,hnew] at hfind
      cases hfind
    rw [stepsBack,stepsBack,find_set,if_neg hne,hfind,bind_some]
    cases hprev : entry.pprev with
    | none => rfl
    | some hashPrev =>
      obtain ⟨before,hbefore,-⟩ := h.prev hfind hprev
      exact ih hbefore

theorem Built.skips {index : BlockIndex} (hbuilt : Built index) : Skips index := by
  induction hbuilt with
  | empty =>
    have hnone : ∀ {hash entry}, (.empty : BlockIndex).find hash≠some entry := by
      intro hash entry hfind
      rw [find_empty] at hfind
      cases hfind
    exact ⟨fun hfind => absurd hfind hnone,fun hfind => absurd hfind hnone,
      fun hfind => absurd hfind hnone,fun hfind => absurd hfind hnone⟩
  | @add index pindex _ hnew hpskip hprev hroot ih =>
    have hold : ∀ {hash entry}, index.find hash=some entry → hash≠pindex.hash := by
      rintro hash entry hfind rfl
      rw [hnew] at hfind
      cases hfind
    refine ⟨fun {hash entry} hfind => ?_,fun {hash entry hashPrev} hfind hbefore => ?_,
      fun {hash entry} hfind hnone => ?_,fun {hash entry hashSkip} hfind hskip => ?_⟩
    all_goals
      rw [find_set] at hfind
      split_ifs at hfind with heq
    · rw [← some.inj hfind,heq]
    · exact ih.hash hfind
    · rw [← some.inj hfind] at hbefore ⊢
      obtain ⟨before,hfound,hheight⟩ := hprev hashPrev hbefore
      exact ⟨before,by rw [find_set,if_neg (hold hfound),hfound],hheight⟩
    · obtain ⟨before,hfound,hheight⟩ := ih.prev hfind hbefore
      exact ⟨before,by rw [find_set,if_neg (hold hfound),hfound],hheight⟩
    · rw [← some.inj hfind] at hnone ⊢
      exact hroot hnone
    · exact ih.root hfind hnone
    · rw [← some.inj hfind] at hskip ⊢
      rw [buildSkip] at hskip
      cases hbefore : pindex.pprev with
      | none =>
        rw [hbefore,bind_none,hpskip] at hskip
        cases hskip
      | some hashPrev =>
        obtain ⟨before,hfound,hheight⟩ := hprev hashPrev hbefore
        have hlower := getSkipHeight_lt (show 0 < pindex.nHeight by omega)
        rw [hbefore,bind_some,hfound] at hskip
        dsimp only at hskip
        rw [ih.getAncestor_eq hfound (by omega)] at hskip
        rw [show pindex.nHeight-getSkipHeight pindex.nHeight=
          before.nHeight-getSkipHeight pindex.nHeight+1 by omega,stepsBack,heq,
          find_set,if_pos rfl,bind_some]
        rw [bind_some,ih.stepsBack_set hnew _ _ hfound,hskip]
    · rw [ih.stepsBack_set hnew _ _ hfind]
      exact ih.skip hfind hskip

/-- A block of a tree that is built has the ancestors that steps back lead to, and to find one takes
no more rounds than blocks. -/
theorem getAncestorAt_eq (hbuilt : Built index) (hfind : index.find hash=some entry) (height : ℤ) :
    (0≤height ∧ height≤entry.nHeight → ∃ target,
      stepsBack index (entry.nHeight-height.toNat) hash=some target ∧
      getAncestorAt index entry height=some target ∧ ∀ rounds≥entry.nHeight,
        walkBack index height.toNat rounds entry.nHeight hash=some target) ∧
    (¬(0≤height ∧ height≤entry.nHeight) → getAncestorAt index entry height=none) := by
  refine ⟨fun hrange => ?_,fun hrange => ?_⟩
  · obtain ⟨hlow,hhigh⟩ := hrange
    obtain ⟨target,-,hback,-⟩ :=
      hbuilt.skips.exists_stepsBack (entry.nHeight-height.toNat) hfind (Nat.sub_le _ _)
    refine ⟨target,hback,?_,fun rounds hrounds => ?_⟩
    · rw [getAncestorAt,if_neg (by omega),hbuilt.skips.getAncestor_eq hfind (by omega),hback]
    · rw [hbuilt.skips.walkBack_eq rounds hfind rfl (by omega) (by omega),hback]
  · unfold getAncestorAt getAncestor
    split_ifs with hneg hhigh
    · rfl
    · rfl
    · omega

/-- A block after the first one has it as its ancestor. -/
theorem getAncestorAt_eq_child : getAncestorAt
    (((.empty : BlockIndex).set 1 { hash := 1 }).set 2
      { hash := 2, pprev := some 1, nHeight := 1, pskip := some 1 })
    { hash := 2, pprev := some 1, nHeight := 1, pskip := some 1 } 0=some 1 := by
  have hroot : Built ((.empty : BlockIndex).set 1 { hash := 1 }) :=
    @Built.add .empty { hash := 1 } Built.empty rfl rfl (nofun) (fun _ => rfl)
  have hchild := @Built.add _ { hash := 2, pprev := some 1, nHeight := 1 } hroot rfl rfl
    (fun _ hprev => ⟨{ hash := 1 },by rw [← some.inj hprev]; rfl,rfl⟩) (nofun)
  obtain ⟨target,hback,hfound,-⟩ := (@getAncestorAt_eq _ 2
    { hash := 2, pprev := some 1, nHeight := 1, pskip := some 1 } hchild rfl 0).1 ⟨le_rfl,by decide⟩
  exact hfound.trans hback.symm

end Pyrk.SkipList
