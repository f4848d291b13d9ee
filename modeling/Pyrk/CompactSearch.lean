import Pyrk.CompactPositions

/-!
# Search for the transactions of a compact block

Known transactions are taken until there is one for every short hash. Slots for extra transactions
may be null, and a null slot is followed when a transaction stands for its short hash.
-/

namespace Pyrk.CompactPositions

open Transaction UndoData CompactBlock OrderedMap List

section Standing

variable (hashes : ShortHashes) (msg : CBlockHeaderAndShortTxIDs)

/-- A known transaction has the short hash. -/
def Seen (known : List CTransaction) (shortid : ℕ) : Prop :=
  ∃ tx∈known, getShortID hashes msg tx.hash=shortid

/-- A transaction of the pool or an extra one has the short hash, and no other has. -/
def Stands (pool extra : List CTransaction) (shortid : ℕ) : Prop :=
  pool.countP (fun tx => getShortID hashes msg tx.hash=shortid)≤1 ∧
    ∃ tx∈pool++extra, getShortID hashes msg tx.hash=shortid ∧
      ∀ other∈pool++extra, getShortID hashes msg other.hash=shortid → other.hash=tx.hash

instance (known : List CTransaction) : DecidablePred (Seen hashes msg known) :=
  fun _ => inferInstanceAs (Decidable (∃ tx∈known, _))

instance (pool extra : List CTransaction) : DecidablePred (Stands hashes msg pool extra) :=
  fun _ => inferInstanceAs (Decidable (_ ∧ ∃ tx∈pool++extra, _))

/-- A transaction stands for every short hash of the message. -/
def Complete (pool extra : List CTransaction) : Prop :=
  ∀ shortid∈msg.shorttxids, Stands hashes msg pool extra shortid

instance (pool extra : List CTransaction) : Decidable (Complete hashes msg pool extra) :=
  inferInstanceAs (Decidable (∀ shortid∈msg.shorttxids, _))

/-- Transactions of the pool up to the first that makes the block complete. -/
def visitedPool : List CTransaction → List CTransaction → List CTransaction
  | seen,[] => seen
  | seen,tx::vTxHashes =>
    if Complete hashes msg (seen++[tx]) [] then seen++[tx]
    else visitedPool (seen++[tx]) vTxHashes

/-- A null slot comes before the block is complete, and a transaction stands for its short hash. -/
def FollowsNull (pool : List CTransaction) : List CTransaction → List (Option CTransaction) → Prop
  | _,[] => False
  | seen,none::_ => getShortID hashes msg 0∈msg.shorttxids ∧
      Stands hashes msg pool seen (getShortID hashes msg 0)
  | seen,some tx::extra =>
    ¬Complete hashes msg pool (seen++[tx]) ∧ FollowsNull pool (seen++[tx]) extra

variable {hashes msg} {pool extra : List CTransaction} {tx : CTransaction} {shortid : ℕ}

theorem not_followsNull {slots : List (Option CTransaction)}
    (h : none∈slots → getShortID hashes msg 0∉msg.shorttxids) :
    ¬FollowsNull hashes msg pool extra slots := by
  induction slots generalizing extra with
  | nil => exact id
  | cons slot slots ih =>
    cases slot with
    | none => exact fun hnull => h mem_cons_self hnull.1
    | some tx => exact fun hnull => ih (fun hm => h (mem_cons_of_mem _ hm)) hnull.2

section

variable (hne : getShortID hashes msg tx.hash≠shortid)

include hne

theorem stands_pool_ne :
    Stands hashes msg (pool++[tx]) [] shortid ↔ Stands hashes msg pool [] shortid := by
  grind [Stands]

theorem stands_extra_ne :
    Stands hashes msg pool (extra++[tx]) shortid ↔
      Stands hashes msg pool extra shortid := by
  grind [Stands]

end

theorem seen_of_stands (h : Stands hashes msg pool extra shortid) :
    Seen hashes msg (pool++extra) shortid := by
  grind [Seen, Stands]

theorem countP_pool (hnew : ¬Seen hashes msg pool shortid) :
    pool.countP (fun tx => getShortID hashes msg tx.hash=shortid)=0 := by
  rw [countP_eq_zero]
  exact fun tx hm he => hnew ⟨tx,hm,of_decide_eq_true he⟩

theorem stands_new
    (hnew : ¬Seen hashes msg (pool++extra) (getShortID hashes msg tx.hash)) :
    Stands hashes msg pool (extra++[tx]) (getShortID hashes msg tx.hash) ∧
      Stands hashes msg (pool++[tx]) extra (getShortID hashes msg tx.hash) := by
  have hpool : ¬Seen hashes msg pool (getShortID hashes msg tx.hash) :=
    fun ⟨other,hm,he⟩ => hnew ⟨other,mem_append_left _ hm,he⟩
  have hzero := countP_pool hpool
  grind [Seen, Stands]

theorem not_stands_pool
    (hseen : Seen hashes msg pool (getShortID hashes msg tx.hash)) :
    ¬Stands hashes msg (pool++[tx]) [] (getShortID hashes msg tx.hash) := by
  obtain ⟨other,hm,he⟩ := hseen
  have hpos : 0 < pool.countP (fun found => getShortID hashes msg found.hash=
      getShortID hashes msg tx.hash) := countP_pos_iff.mpr ⟨other,hm,decide_eq_true he⟩
  grind [Stands]

theorem not_stands_extra (hseen : Seen hashes msg (pool++extra) shortid)
    (hnot : ¬Stands hashes msg pool extra shortid) :
    ¬Stands hashes msg pool (extra++[tx]) shortid := by
  grind [Seen, Stands]

theorem stands_extra_iff {present : CTransaction} (hpresent : present∈pool++extra)
    (hid : getShortID hashes msg present.hash=getShortID hashes msg tx.hash)
    (hstands : Stands hashes msg pool extra (getShortID hashes msg tx.hash)) :
    Stands hashes msg pool (extra++[tx]) (getShortID hashes msg tx.hash) ↔
      present.hash=tx.hash := by
  grind [Stands]

end Standing

section Following

theorem countP_change {ids : List ℕ} (hnodup : ids.Nodup) {key : ℕ} (hkey : key∈ids)
    {before after : ℕ → Bool} (hother : ∀ other, other≠key → after other=before other) :
    ids.countP after+(if before key then 1 else 0)=
      ids.countP before+if after key then 1 else 0 := by
  obtain ⟨left,right,rfl⟩ := append_of_mem hkey
  obtain ⟨-,hright,hapart⟩ := nodup_append.mp hnodup
  have hleft : left.countP after=left.countP before :=
    countP_congr (fun other hm => by rw [hother other (hapart other hm key mem_cons_self)])
  have htail : right.countP after=right.countP before :=
    countP_congr (fun other hm => by
      rw [hother other (fun he => (nodup_cons.mp hright).1 (he ▸ hm))])
  rw [countP_append,countP_append,countP_cons,countP_cons,hleft,htail]
  omega

variable (hashes : ShortHashes) (msg : CBlockHeaderAndShortTxIDs)

/-- The search knows what stands for the short hashes after it went through some transactions. -/
structure Follows (known : List CTransaction) (slots : List (Option CTransaction))
    (pool extra : List CTransaction) (search : Search) : Prop where
  sound : Sound hashes msg known slots search
  count : search.block.mempool_count=msg.shorttxids.countP (fun shortid =>
    Stands hashes msg pool extra shortid)
  marks : ∀ rank shortid, msg.shorttxids[rank]?=some shortid →
    search.have_txn[openPosition msg rank]?=
      some (decide (Seen hashes msg (pool++extra) shortid))
  holds : ∀ rank shortid, msg.shorttxids[rank]?=some shortid →
    ∃ slot, search.block.txn_available[openPosition msg rank]?=some slot ∧
      slot.isSome=decide (Stands hashes msg pool extra shortid) ∧
      ∀ tx, slot=some tx → tx∈pool++extra ∧ getShortID hashes msg tx.hash=shortid

/-- A transaction comes to those that the search went through. -/
structure Adds (pool extra pool' extra' : List CTransaction) (tx : CTransaction) : Prop where
  mem : ∀ {other}, other∈pool'++extra' ↔ other∈pool++extra ∨ other=tx
  stands : ∀ {shortid}, getShortID hashes msg tx.hash≠shortid →
    (Stands hashes msg pool' extra' shortid ↔ Stands hashes msg pool extra shortid)

variable {hashes msg} {known pool extra pool' extra' : List CTransaction}
variable {slots : List (Option CTransaction)} {search next : Search} {tx : CTransaction} {rank : ℕ}

section

variable (h : Follows hashes msg known slots pool extra search)
variable (hadds : Adds hashes msg pool extra pool' extra' tx)

include h hadds

theorem Follows.skip (hnone : getShortID hashes msg tx.hash∉msg.shorttxids) :
    Follows hashes msg known slots pool' extra' search := by
  have hne : ∀ {shortid}, shortid∈msg.shorttxids →
      getShortID hashes msg tx.hash≠shortid := fun hm he => hnone (he ▸ hm)
  refine ⟨h.sound,?_,?_,?_⟩
  · rw [h.count]
    exact countP_congr (fun shortid hm => by simp only [hadds.stands (hne hm)])
  · intro rank shortid hid
    have hapart := hne (mem_of_getElem? hid)
    rw [h.marks rank shortid hid]
    grind [Seen, Adds]
  · intro rank shortid hid
    obtain ⟨slot,hslot,hstands,hfrom⟩ := h.holds rank shortid hid
    refine ⟨slot,hslot,?_,fun other ho =>
      ⟨hadds.mem.mpr (.inl (hfrom other ho).1),(hfrom other ho).2⟩⟩
    rw [hstands]
    simp only [hadds.stands (hne (mem_of_getElem? hid))]

theorem Follows.move (hnodup : msg.shorttxids.Nodup)
    (hid : msg.shorttxids[rank]?=some (getShortID hashes msg tx.hash))
    (hsound : Sound hashes msg known slots next)
    (hmark : next.have_txn[openPosition msg rank]?=some true)
    (hmarks : ∀ position, position≠openPosition msg rank →
      next.have_txn[position]?=search.have_txn[position]?)
    {slot : Option CTransaction}
    (hslot : next.block.txn_available[openPosition msg rank]?=some slot)
    (hstands : slot.isSome=
      decide (Stands hashes msg pool' extra' (getShortID hashes msg tx.hash)))
    (hfrom : ∀ other, slot=some other → other∈pool'++extra' ∧
      getShortID hashes msg other.hash=getShortID hashes msg tx.hash)
    (hslots : ∀ position, position≠openPosition msg rank →
      next.block.txn_available[position]?=search.block.txn_available[position]?)
    (hcount : next.block.mempool_count+
        (if Stands hashes msg pool extra (getShortID hashes msg tx.hash) then 1 else 0)=
      search.block.mempool_count+if slot.isSome then 1 else 0) :
    Follows hashes msg known slots pool' extra' next := by
  have hapart : ∀ {other shortid}, msg.shorttxids[other]?=some shortid → other≠rank →
      openPosition msg other≠openPosition msg rank ∧
        getShortID hashes msg tx.hash≠shortid := by
    intro other shortid hother hne
    refine ⟨fun he => hne (openPosition_injective he),fun he => hne ?_⟩
    rw [he,← hother] at hid
    exact (List.getElem?_inj (List.getElem?_eq_some_iff.mp hother).1 hnodup).mp hid.symm
  refine ⟨hsound,?_,?_,?_⟩
  · have hchange := @countP_change _ hnodup _ (mem_of_getElem? hid)
      (fun shortid => Stands hashes msg pool extra shortid)
      (fun shortid => Stands hashes msg pool' extra' shortid)
      (fun other hne => decide_eq_decide.mpr (hadds.stands (Ne.symm hne)))
    rw [h.count,hstands] at hcount
    simp only [decide_eq_true_eq] at hchange hcount
    omega
  · intro other shortid hother
    by_cases he : other=rank
    · subst he
      rw [hid] at hother
      cases hother
      rw [hmark,decide_eq_true ⟨tx,hadds.mem.mpr (.inr rfl),rfl⟩]
    · obtain ⟨hne,hapart⟩ := hapart hother he
      rw [hmarks _ hne,h.marks other shortid hother]
      grind [Seen, Adds]
  · intro other shortid hother
    by_cases he : other=rank
    · subst he
      rw [hid] at hother
      cases hother
      exact ⟨slot,hslot,hstands,hfrom⟩
    · obtain ⟨hne,hapart⟩ := hapart hother he
      obtain ⟨found,hfound,hkept,hold⟩ := h.holds other shortid hother
      refine ⟨found,(hslots _ hne).trans hfound,?_,fun known hk =>
        ⟨hadds.mem.mpr (.inl (hold known hk).1),(hold known hk).2⟩⟩
      rw [hkept]
      simp only [hadds.stands hapart]

end

variable {table : ShortIdTable}

section

variable (h : Follows hashes msg known slots pool extra search)

include h

theorem Follows.within {shortid : ℕ} (hid : msg.shorttxids[rank]?=some shortid) :
    openPosition msg rank < search.block.txn_available.length ∧
      openPosition msg rank < search.have_txn.length := by
  obtain ⟨slot,hslot,-⟩ := h.holds rank shortid hid
  exact ⟨(List.getElem?_eq_some_iff.mp hslot).1,
    (List.getElem?_eq_some_iff.mp (h.marks rank shortid hid)).1⟩

section

variable (hadds : Adds hashes msg pool extra pool' extra' tx) (hnodup : msg.shorttxids.Nodup)
variable (hid : msg.shorttxids[rank]?=some (getShortID hashes msg tx.hash))

include hadds hnodup hid

theorem Follows.take (hknown : tx∈known)
    (hnew : ¬Seen hashes msg (pool++extra) (getShortID hashes msg tx.hash))
    (hstands : Stands hashes msg pool' extra' (getShortID hashes msg tx.hash))
    (count : ℕ) :
    ∃ next, takeTxn search (openPosition msg rank) (some tx) count=.ok next ∧
      Follows hashes msg known slots pool' extra' next := by
  obtain ⟨hslots,hmarks⟩ := h.within hid
  refine ⟨_,by rw [takeTxn,vectorSet_ok hslots,ok_bind,vectorSet_ok hmarks,ok_bind],?_⟩
  refine h.move hadds hnodup hid ⟨h.sound.filled.set hid ?_ _ _,?_⟩
    (getElem?_set_self hmarks) (fun position hne => getElem?_set_ne (Ne.symm hne))
    (getElem?_set_self hslots) (decide_eq_true hstands).symm ?_
    (fun position hne => getElem?_set_ne (Ne.symm hne)) ?_
  · intro other he
    cases he
    exact ⟨hknown,rfl⟩
  · simp only [length_set,h.sound.marks]
  · intro other he
    cases he
    exact ⟨hadds.mem.mpr (.inr rfl),rfl⟩
  · rw [if_neg (fun hold => hnew (seen_of_stands hold))]
    rfl

theorem Follows.drop (hstands : Stands hashes msg pool extra (getShortID hashes msg tx.hash))
    (hnot : ¬Stands hashes msg pool' extra' (getShortID hashes msg tx.hash))
    (hsmall : msg.shorttxids.length≤2^16) (count : ℕ) :
    ∃ next, dropTxn search (openPosition msg rank) count=.ok next ∧
      Follows hashes msg known slots pool' extra' next := by
  obtain ⟨hslots,-⟩ := h.within hid
  refine ⟨_,by rw [dropTxn,vectorSet_ok hslots,ok_bind],?_⟩
  refine h.move hadds hnodup hid ⟨h.sound.filled.set hid (fun other he => by cases he) _ _,
      h.sound.marks⟩ ?_ (fun _ _ => rfl) (getElem?_set_self hslots)
    (decide_eq_false hnot).symm (fun other he => by cases he)
    (fun position hne => getElem?_set_ne (Ne.symm hne)) ?_
  · rw [h.marks rank _ hid,decide_eq_true (seen_of_stands hstands)]
  · have hpos : 0 < search.block.mempool_count := by
      rw [h.count]
      exact countP_pos_iff.mpr ⟨_,mem_of_getElem? hid,decide_eq_true hstands⟩
    have hle : search.block.mempool_count≤2^16 := by
      rw [h.count]
      exact countP_le_length.trans hsmall
    have hless : decrement search.block.mempool_count=search.block.mempool_count-1 := by
      dsimp only [decrement]
      omega
    rw [if_pos hstands]
    change decrement search.block.mempool_count+1=search.block.mempool_count+0
    omega

theorem Follows.stay (hseen : Seen hashes msg (pool++extra) (getShortID hashes msg tx.hash))
    (hsame : Stands hashes msg pool' extra' (getShortID hashes msg tx.hash) ↔
      Stands hashes msg pool extra (getShortID hashes msg tx.hash)) :
    Follows hashes msg known slots pool' extra' search := by
  obtain ⟨slot,hslot,hstands,hfrom⟩ := h.holds rank _ hid
  refine h.move hadds hnodup hid h.sound ?_ (fun _ _ => rfl) hslot ?_ ?_ (fun _ _ => rfl) ?_
  · rw [h.marks rank _ hid,decide_eq_true hseen]
  · simp only [hstands,hsame]
  · exact fun other he => ⟨hadds.mem.mpr (.inl (hfrom other he).1),(hfrom other he).2⟩
  · simp only [hstands,decide_eq_true_eq]

end

end

/-- The table has the short hashes of the message at their positions, and no others. -/
structure Tabled (msg : CBlockHeaderAndShortTxIDs) (table : ShortIdTable) : Prop where
  ranked : Ranked msg table
  assigned : Assigned msg table
  nodup : msg.shorttxids.Nodup
  size : table.size=msg.shorttxids.length
  small : msg.shorttxids.length≤2^16

theorem Tabled.not_mem (htable : Tabled msg table) {shortid : ℕ}
    (hfind : table.find shortid=none) : shortid∉msg.shorttxids := by
  intro hm
  obtain ⟨rank,hid⟩ := getElem?_of_mem hm
  rw [htable.assigned rank shortid hid] at hfind
  cases hfind

theorem Follows.complete_iff (h : Follows hashes msg known slots pool extra search)
    (htable : Tabled msg table) :
    search.block.mempool_count=table.size ↔ Complete hashes msg pool extra := by
  rw [h.count,htable.size,countP_eq_length]
  simp only [decide_eq_true_eq]
  rfl

theorem adds_pool : Adds hashes msg pool [] (pool++[tx]) [] tx :=
  ⟨by simp,stands_pool_ne⟩

theorem adds_extra : Adds hashes msg pool extra pool (extra++[tx]) tx :=
  ⟨by simp [or_assoc],stands_extra_ne⟩

theorem matchMempool_follows (h : Follows hashes msg known slots pool [] search)
    (htable : Tabled msg table) (hknown : tx∈known) :
    ∃ next, matchMempool table search (getShortID hashes msg tx.hash) tx=.ok next ∧
      Follows hashes msg known slots (pool++[tx]) [] next := by
  unfold matchMempool
  cases hfind : table.find (getShortID hashes msg tx.hash) with
  | none => exact ⟨search,rfl,h.skip adds_pool (htable.not_mem hfind)⟩
  | some position =>
    obtain ⟨-,rank,hid,rfl⟩ := htable.ranked _ _ hfind
    obtain ⟨slot,hslot,hstands,-⟩ := h.holds rank _ hid
    simp only [vectorAt_ok (h.marks rank _ hid),ok_bind]
    by_cases hseen : Seen hashes msg (pool++[]) (getShortID hashes msg tx.hash)
    · have hnot := not_stands_pool (append_nil pool ▸ hseen)
      simp only [hseen,decide_true,Bool.not_true,Bool.false_eq_true,if_false,
        vectorAt_ok hslot,ok_bind,
        hstands,decide_eq_true_eq]
      split_ifs with hold
      · exact h.drop adds_pool htable.nodup hid hold hnot htable.small 0
      · exact ⟨search,rfl,h.stay adds_pool htable.nodup hid hseen (iff_of_false hnot hold)⟩
    · simp only [hseen,decide_false,Bool.not_false,if_true]
      exact h.take adds_pool htable.nodup hid hknown hseen (stands_new hseen).2 0

theorem matchExtra_follows (h : Follows hashes msg known slots pool extra search)
    (htable : Tabled msg table) (hknown : tx∈known) :
    ∃ next, matchExtra table search (getShortID hashes msg tx.hash) (some tx)=.ok next ∧
      Follows hashes msg known slots pool (extra++[tx]) next := by
  unfold matchExtra
  cases hfind : table.find (getShortID hashes msg tx.hash) with
  | none => exact ⟨search,rfl,h.skip adds_extra (htable.not_mem hfind)⟩
  | some position =>
    obtain ⟨-,rank,hid,rfl⟩ := htable.ranked _ _ hfind
    obtain ⟨slot,hslot,hstands,hfrom⟩ := h.holds rank _ hid
    simp only [vectorAt_ok (h.marks rank _ hid),ok_bind]
    by_cases hseen : Seen hashes msg (pool++extra) (getShortID hashes msg tx.hash)
    · simp only [hseen,decide_true,Bool.not_true,Bool.false_eq_true,if_false,
      vectorAt_ok hslot,ok_bind]
      cases slot with
      | none =>
        have hold := of_decide_eq_false hstands.symm
        exact ⟨search,rfl,h.stay adds_extra htable.nodup hid hseen
          (iff_of_false (not_stands_extra hseen hold) hold)⟩
      | some present =>
        have hold := of_decide_eq_true hstands.symm
        obtain ⟨hpresent,hsame⟩ := hfrom present rfl
        have hiff := stands_extra_iff hpresent hsame hold
        dsimp only
        split_ifs with hother
        · exact h.drop adds_extra htable.nodup hid hold (fun hnew => hother (hiff.mp hnew))
            htable.small 1
        · exact ⟨search,rfl,h.stay adds_extra htable.nodup hid hseen
            (iff_of_true (hiff.mpr (not_not.mp hother)) hold)⟩
    · simp only [hseen,decide_false,Bool.not_false,if_true]
      exact h.take adds_extra htable.nodup hid hknown hseen (stands_new hseen).1 1

/-- The search in the pool stops at the first transaction that makes the block complete. -/
theorem searchPool_follows (htable : Tabled msg table) {vTxHashes : List CTransaction}
    (hknown : ∀ tx∈vTxHashes, tx∈known)
    (h : Follows hashes msg known slots pool [] search) :
    ∃ final, searchAll table (fun search tx => matchMempool table search
        (getShortID hashes msg tx.hash) tx) search vTxHashes=.ok final ∧
      Follows hashes msg known slots (visitedPool hashes msg pool vTxHashes) [] final := by
  induction vTxHashes generalizing pool search with
  | nil => exact ⟨search,rfl,h⟩
  | cons tx vTxHashes ih =>
    obtain ⟨next,hnext,hfollows⟩ := matchMempool_follows h htable (hknown tx mem_cons_self)
    rw [searchAll,hnext,ok_bind,visitedPool]
    simp only [hfollows.complete_iff htable]
    split_ifs with hcomplete
    · exact ⟨next,rfl,hfollows⟩
    · exact ih (fun other hm => hknown other (mem_cons_of_mem _ hm)) hfollows

end Following

section Slots

variable {hashes : ShortHashes} {msg : CBlockHeaderAndShortTxIDs} {table : ShortIdTable}
variable {known pool extra : List CTransaction} {slots : List (Option CTransaction)}
variable {search : Search}

/-- Slots for extra transactions with their hashes. A null slot has the hash zero. -/
def extraEntries (extra : List (Option CTransaction)) : List (Uint256×Option CTransaction) :=
  extra.map (fun slot => ((slot.map CTransaction.hash).getD 0,slot))

/-- No transaction stands for the short hash of null slots any more. -/
def Calm (hashes : ShortHashes) (msg : CBlockHeaderAndShortTxIDs) (search : Search) : Prop :=
  ∀ rank, msg.shorttxids[rank]?=some (getShortID hashes msg 0) →
    search.have_txn[openPosition msg rank]?=some true ∧
      search.block.txn_available[openPosition msg rank]?=some none

section

variable (h : Follows hashes msg known slots pool extra search) (htable : Tabled msg table)

include h htable

theorem matchExtra_null (hopen : ¬(getShortID hashes msg 0∈msg.shorttxids ∧
      Stands hashes msg pool extra (getShortID hashes msg 0))) :
    ∃ next, matchExtra table search (getShortID hashes msg 0) none=.ok next ∧
      Sound hashes msg known slots next ∧ Calm hashes msg next := by
  unfold matchExtra
  cases hfind : table.find (getShortID hashes msg 0) with
  | none =>
    exact ⟨search,rfl,h.sound,fun rank hid =>
      absurd (mem_of_getElem? hid) (htable.not_mem hfind)⟩
  | some position =>
    obtain ⟨-,rank,hid,rfl⟩ := htable.ranked _ _ hfind
    have hnot : ¬Stands hashes msg pool extra (getShortID hashes msg 0) :=
      fun hstands => hopen ⟨mem_of_getElem? hid,hstands⟩
    have hrank : ∀ other, msg.shorttxids[other]?=some (getShortID hashes msg 0) →
        other=rank := fun other hother => (List.getElem?_inj
      (List.getElem?_eq_some_iff.mp hother).1 htable.nodup).mp (hother.trans hid.symm)
    obtain ⟨slot,hslot,hstands,-⟩ := h.holds rank _ hid
    simp only [vectorAt_ok (h.marks rank _ hid),ok_bind]
    by_cases hseen : Seen hashes msg (pool++extra) (getShortID hashes msg 0)
    · simp only [hnot,decide_false,Option.isSome_eq_false_iff,Option.isNone_iff_eq_none] at hstands
      subst hstands
      simp only [hseen,decide_true,Bool.not_true,Bool.false_eq_true,if_false,
        vectorAt_ok hslot,ok_bind]
      refine ⟨search,rfl,h.sound,fun other hother => ?_⟩
      rw [hrank other hother]
      exact ⟨by rw [h.marks rank _ hid,decide_eq_true hseen],hslot⟩
    · simp only [hseen,decide_false,Bool.not_false,if_true]
      obtain ⟨hslots,hmarks⟩ := h.within hid
      refine ⟨_,by rw [takeTxn,vectorSet_ok hslots,ok_bind,vectorSet_ok hmarks,ok_bind],
        ⟨h.sound.filled.set hid ?_ _ _,?_⟩,fun other hother => ?_⟩
      · exact fun tx he => by cases he
      · simp only [length_set,h.sound.marks]
      · rw [hrank other hother]
        exact ⟨List.getElem?_set_self hmarks,List.getElem?_set_self hslots⟩

theorem matchExtra_null_fault (hnull : getShortID hashes msg 0∈msg.shorttxids ∧
      Stands hashes msg pool extra (getShortID hashes msg 0)) :
    matchExtra table search (getShortID hashes msg 0) none=.error .nullReference := by
  obtain ⟨hid,hstands⟩ := hnull
  obtain ⟨rank,hrank⟩ := getElem?_of_mem hid
  obtain ⟨slot,hslot,hthere,-⟩ := h.holds rank _ hrank
  obtain ⟨present,rfl⟩ := Option.isSome_iff_exists.mp (hthere.trans (decide_eq_true hstands))
  unfold matchExtra
  simp only [htable.assigned rank _ hrank,vectorAt_ok (h.marks rank _ hrank),ok_bind,
    decide_eq_true (seen_of_stands hstands),Bool.not_true,Bool.false_eq_true,if_false,
    vectorAt_ok hslot]

end

/-- Only the position of the short hash changes. -/
theorem matchExtra_elsewhere {tx : CTransaction} {shortid position other : ℕ} {next : Search}
    (hfind : table.find shortid=some position)
    (hrun : matchExtra table search shortid (some tx)=.ok next) (hne : position≠other) :
    next.have_txn[other]?=search.have_txn[other]? ∧
      next.block.txn_available[other]?=search.block.txn_available[other]? := by
  have hset : ∀ {α : Type} {vector changed : List α} {value : α},
      vectorSet vector position value=.ok changed → changed[other]?=vector[other]? := by
    intro α vector changed value hset
    rw [vectorSet] at hset
    split_ifs at hset with hin
    cases hset
    exact getElem?_set_ne hne
  unfold matchExtra at hrun
  simp only [hfind,bind_eq_ok] at hrun
  obtain ⟨found,-,hrun⟩ := hrun
  split_ifs at hrun with hnew
  · simp only [takeTxn,bind_eq_ok,Except.ok.injEq] at hrun
    obtain ⟨slots,hslots,marks,hmarks,rfl⟩ := hrun
    exact ⟨hset hmarks,hset hslots⟩
  · obtain ⟨slot,-,hrun⟩ := bind_eq_ok.mp hrun
    cases slot with
    | none =>
      cases hrun
      exact ⟨rfl,rfl⟩
    | some present =>
      dsimp only at hrun
      split_ifs at hrun with hother
      · simp only [dropTxn,bind_eq_ok,Except.ok.injEq] at hrun
        obtain ⟨slots,hslots,rfl⟩ := hrun
        exact ⟨rfl,hset hslots⟩
      · cases hrun
        exact ⟨rfl,rfl⟩

theorem matchExtra_calm (hsound : Sound hashes msg known slots search)
    (hcalm : Calm hashes msg search) (hranked : Ranked msg table)
    {slot : Option CTransaction} (hknown : ∀ tx, slot=some tx → tx∈known) :
    ∃ next, matchExtra table search
        (getShortID hashes msg ((slot.map CTransaction.hash).getD 0)) slot=.ok next ∧
      Sound hashes msg known slots next ∧ Calm hashes msg next := by
  by_cases hnull : getShortID hashes msg ((slot.map CTransaction.hash).getD 0)=
      getShortID hashes msg 0
  · refine ⟨search,?_,hsound,hcalm⟩
    unfold matchExtra
    cases hfind : table.find (getShortID hashes msg
        ((slot.map CTransaction.hash).getD 0)) with
    | none => rfl
    | some position =>
      obtain ⟨-,rank,hid,rfl⟩ := hranked _ _ hfind
      obtain ⟨hmark,hslot⟩ := hcalm rank (hnull ▸ hid)
      simp only [vectorAt_ok hmark,vectorAt_ok hslot,ok_bind,Bool.not_true,
        Bool.false_eq_true,if_false]
  · cases slot with
    | none => exact absurd rfl hnull
    | some tx =>
      obtain ⟨next,hnext,hsound⟩ := matchExtra_ok hsound hranked (hknown tx rfl)
      refine ⟨next,hnext,hsound,?_⟩
      cases hfind : table.find (getShortID hashes msg tx.hash) with
      | none =>
        rw [matchExtra,hfind] at hnext
        cases hnext
        exact hcalm
      | some position =>
        obtain ⟨-,rank,hid,rfl⟩ := hranked _ _ hfind
        intro other hother
        have hne : openPosition msg rank≠openPosition msg other := by
          intro he
          rw [openPosition_injective he,hother] at hid
          exact hnull (Option.some.inj hid).symm
        obtain ⟨hmarks,hslots⟩ := matchExtra_elsewhere hfind hnext hne
        rw [hmarks,hslots]
        exact hcalm other hother

variable (hashes msg table) in
/-- Go through the slots for extra transactions. -/
def searchExtra (search : Search) (extra : List (Option CTransaction)) : Run Search :=
  searchAll table (fun search entry => matchExtra table search (getShortID hashes msg entry.1)
    entry.2) search (extraEntries extra)

theorem searchExtra_calm (hsound : Sound hashes msg known slots search)
    (hcalm : Calm hashes msg search) (hranked : Ranked msg table)
    {extra : List (Option CTransaction)} (hknown : ∀ tx, some tx∈extra → tx∈known) :
    ∃ final, searchExtra hashes msg table search extra=.ok final ∧
      Sound hashes msg known slots final := by
  induction extra generalizing search with
  | nil => exact ⟨search,rfl,hsound⟩
  | cons slot extra ih =>
    obtain ⟨next,hnext,hsound,hcalm⟩ := matchExtra_calm hsound hcalm hranked
      (fun tx he => hknown tx (he ▸ mem_cons_self))
    rw [searchExtra,extraEntries,map_cons,searchAll,hnext,ok_bind]
    split_ifs with hcomplete
    · exact ⟨next,rfl,hsound⟩
    · exact ih hsound hcalm (fun tx hm => hknown tx (mem_cons_of_mem _ hm))

/-- The search among the extra transactions goes wrong exactly if it follows a null slot. -/
theorem searchExtra_follows (htable : Tabled msg table)
    (h : Follows hashes msg known slots pool extra search)
    {extra_txn : List (Option CTransaction)} (hknown : ∀ tx, some tx∈extra_txn → tx∈known) :
    (FollowsNull hashes msg pool extra extra_txn ∧
        searchExtra hashes msg table search extra_txn=.error .nullReference) ∨
      (¬FollowsNull hashes msg pool extra extra_txn ∧
        ∃ final, searchExtra hashes msg table search extra_txn=.ok final ∧
          Sound hashes msg known slots final) := by
  induction extra_txn generalizing extra search with
  | nil => exact .inr ⟨id,search,rfl,h.sound⟩
  | cons slot extra_txn ih =>
    have hrest : ∀ tx, some tx∈extra_txn → tx∈known :=
      fun tx hm => hknown tx (mem_cons_of_mem _ hm)
    rw [searchExtra,extraEntries,map_cons,searchAll]
    cases slot with
    | none =>
      by_cases hnull : getShortID hashes msg 0∈msg.shorttxids ∧
          Stands hashes msg pool extra (getShortID hashes msg 0)
      · refine .inl ⟨hnull,?_⟩
        rw [Option.map_none,Option.getD_none,matchExtra_null_fault h htable hnull]
        rfl
      · obtain ⟨next,hnext,hsound,hcalm⟩ := matchExtra_null h htable hnull
        refine .inr ⟨hnull,?_⟩
        rw [Option.map_none,Option.getD_none,hnext,ok_bind]
        split_ifs with hcomplete
        · exact ⟨next,rfl,hsound⟩
        · exact searchExtra_calm hsound hcalm htable.ranked hrest
    | some tx =>
      obtain ⟨next,hnext,hfollows⟩ := matchExtra_follows h htable (hknown tx mem_cons_self)
      have hiff := hfollows.complete_iff htable
      rw [Option.map_some,Option.getD_some,hnext,ok_bind,FollowsNull]
      by_cases hcomplete : Complete hashes msg pool (extra++[tx])
      · rw [if_pos (hiff.mpr hcomplete)]
        exact .inr ⟨fun hnull => hnull.1 hcomplete,next,rfl,hfollows.sound⟩
      · rw [if_neg (fun hcount => hcomplete (hiff.mp hcount))]
        simp only [hcomplete,not_false_eq_true,true_and]
        exact ih hfollows hrest

/-- The block after the whole transactions of the message are in place. -/
def startedBlock (msg : CBlockHeaderAndShortTxIDs) (slots : List (Option CTransaction)) :
    PartiallyDownloadedBlock :=
  { txn_available := slots
    prefilled_count := msg.prefilledtxn.length
    header := msg.header }

theorem Placed.follows (hplaced : Placed msg slots) (htable : Tabled msg table)
    (known : List CTransaction) :
    Follows hashes msg known slots [] []
      ⟨startedBlock msg slots,List.replicate slots.length false⟩ := by
  have hnone : ∀ rank tx, slots[openPosition msg rank]?≠some (some tx) :=
    fun rank tx htx => isOpen_openPosition rank ((hplaced.taken _).mpr ⟨tx,htx⟩)
  have hlt : ∀ {rank shortid}, msg.shorttxids[rank]?=some shortid →
      openPosition msg rank<blockTxCount msg :=
    fun hid => (htable.ranked _ _ (htable.assigned _ _ hid)).1
  have hstands : ∀ shortid, ¬Stands hashes msg [] [] shortid :=
    fun shortid hstands => not_mem_nil hstands.2.choose_spec.1
  refine ⟨⟨⟨rfl,hplaced.length,fun position _ => rfl,?_,?_⟩,?_⟩,?_,?_,?_⟩
  · intro rank shortid tx hid htx
    exact absurd htx (hnone rank tx)
  · intro rank tx htx
    exact absurd htx (hnone rank tx)
  · rw [length_replicate,hplaced.length]
  · exact (countP_eq_zero.mpr (fun shortid _ hd => hstands shortid (of_decide_eq_true hd))).symm
  · intro rank shortid hid
    rw [getElem?_replicate,if_pos (hplaced.length.symm ▸ hlt hid)]
    simp [Seen]
  · intro rank shortid hid
    exact ⟨none,hplaced.empty (isOpen_openPosition rank) (hlt hid),
      (decide_eq_false (hstands shortid)).symm,fun tx he => by cases he⟩

/-- The search goes wrong exactly if it follows a null slot. -/
theorem searchKnown_follows (htable : Tabled msg table) (hplaced : Placed msg slots)
    (vTxHashes : List CTransaction) (extra : List (Option CTransaction)) :
    (FollowsNull hashes msg (visitedPool hashes msg [] vTxHashes) [] extra ∧
        searchKnown hashes msg vTxHashes (extraEntries extra) table
          (startedBlock msg slots)=.error .nullReference) ∨
      (¬FollowsNull hashes msg (visitedPool hashes msg [] vTxHashes) [] extra ∧
        ∃ final, searchKnown hashes msg vTxHashes (extraEntries extra) table
            (startedBlock msg slots)=.ok final ∧
          Filled hashes msg (vTxHashes++extra.filterMap id) slots final.block) := by
  obtain ⟨middle,hmid,hfollows⟩ := searchPool_follows htable
    (fun tx hm => mem_append_left (extra.filterMap id) hm)
    (hplaced.follows htable (vTxHashes++extra.filterMap id))
  have hsearch : searchKnown hashes msg vTxHashes (extraEntries extra) table
      (startedBlock msg slots)=searchExtra hashes msg table middle extra := by
    rw [searchKnown]
    exact (congrArg (·>>=_) hmid).trans (ok_bind _ _)
  rw [hsearch]
  refine (searchExtra_follows htable hfollows (fun tx hm => mem_append_right vTxHashes
    (mem_filterMap.mpr ⟨some tx,hm,rfl⟩))).imp id (And.imp id ?_)
  rintro ⟨final,hfinal,hsound⟩
  exact ⟨final,hfinal,hsound.filled⟩

end Slots

section Messages

variable (hashes : ShortHashes) (bucket : ℕ → ℕ → ℕ) (msg : CBlockHeaderAndShortTxIDs)
variable (vTxHashes : List CTransaction) (extra : List (Option CTransaction))

/-- The message is refused before any position is assigned. -/
def Refused : Prop :=
  isNullHeader msg.header=true ∨ (msg.shorttxids=[] ∧ msg.prefilledtxn=[]) ∨
    maxBlockSize/minTransactionSize<blockTxCount msg ∨ ¬PrefilledFit msg

/-- Too many short hashes share a bucket of a table that has room for all. -/
def Crowded (shorttxids : List ℕ) : Prop :=
  ∃ shortid∈shorttxids, 12 < shorttxids.countP (fun other =>
    bucket shorttxids.length other=bucket shorttxids.length shortid)

/-- The message is refused, has short hashes that the table does not take, or has a position for
every transaction and leads to no null slot. -/
def Manageable : Prop :=
  Refused msg ∨ (msg.prefilledtxn.length<2^16 ∧
      (¬msg.shorttxids.Nodup ∨ Crowded bucket msg.shorttxids)) ∨
    (blockTxCount msg≤2^16 ∧
      ¬FollowsNull hashes msg (visitedPool hashes msg [] vTxHashes) [] extra)

/-- A fresh block is made without leaving a vector and without following a null slot, and if all is
well the short hashes have the positions of their rank. -/
def Handled : Prop :=
  ∃ fuel result, initData hashes bucket fuel {} msg vTxHashes (extraEntries extra)=
      .ok result ∧
    (result.status=.ok → Assigned msg result.shorttxids ∧
      Matching hashes msg result.block)

variable {hashes bucket msg vTxHashes extra} {fuel : ℕ}
variable {slots : List (Option CTransaction)}

theorem taken_replicate (size : ℕ) : TakenAt (List.replicate size none) [] := by
  intro position
  grind

theorem initData_refused (hrefused : Refused msg) :
    ∃ result, initData hashes bucket fuel {} msg vTxHashes (extraEntries extra)=.ok result ∧
      result.status=.invalid := by
  unfold initData
  by_cases hempty : (isNullHeader msg.header ||
      (msg.shorttxids.isEmpty && msg.prefilledtxn.isEmpty))=true
  · rw [if_pos hempty]
    exact ⟨_,rfl,rfl⟩
  · rw [if_neg hempty]
    by_cases hlarge : maxBlockSize/minTransactionSize<blockTxCount msg
    · rw [if_pos hlarge]
      exact ⟨_,rfl,rfl⟩
    · rw [if_neg hlarge]
      have hfit : ¬PrefilledFit msg := by
        simp only [Bool.or_eq_true,Bool.and_eq_true,List.isEmpty_iff,not_or] at hempty
        simpa only [Refused,hempty,hlarge,Bool.false_eq_true,false_or] using hrefused
      have hlen : msg.shorttxids.length+0+msg.prefilledtxn.length≤
          (List.replicate (blockTxCount msg) (none : Option CTransaction)).length := by
        rw [length_replicate,blockTxCount]
        omega
      obtain ⟨placed,hplaced⟩ := placePrefilled_unfit hfit hlen
      simp only [hplaced,ok_bind]
      exact ⟨_,rfl,rfl⟩

theorem initData_entered (hentered : ¬Refused msg) :
    PrefilledFit msg ∧ ∃ slots, Placed msg slots ∧ ∀ fuel,
      initData hashes bucket fuel {} msg vTxHashes (extraEntries extra)=
        initSearch hashes bucket fuel msg vTxHashes (extraEntries extra)
          (startedBlock msg slots) := by
  simp only [Refused,not_or,not_not] at hentered
  obtain ⟨hheader,hsome,hlarge,hfit⟩ := hentered
  have hroom : msg.shorttxids.length+0+msg.prefilledtxn.length≤
      (List.replicate (blockTxCount msg) (none : Option CTransaction)).length := by
    rw [length_replicate,blockTxCount]
    omega
  obtain ⟨placed,hplaced,hlen,htaken⟩ := placePrefilled_fit hfit hroom (taken_replicate _)
  have hslots : Placed msg placed :=
    ⟨by rw [hlen,length_replicate],htaken,(placePrefilled_holds hplaced).2⟩
  refine ⟨hfit,placed,hslots,fun fuel => ?_⟩
  have hempty : ¬(isNullHeader msg.header ||
      (msg.shorttxids.isEmpty && msg.prefilledtxn.isEmpty))=true := by
    simp only [Bool.or_eq_true,Bool.and_eq_true,List.isEmpty_iff,not_or]
    exact ⟨hheader,hsome⟩
  unfold initData
  rw [if_neg hempty,if_neg hlarge]
  simp only [hplaced,ok_bind]
  rfl

theorem initSearch_ranked (hfit : PrefilledFit msg) (hplaced : Placed msg slots)
    (hsome : msg.prefilledtxn.length<2^16 ∨ msg.shorttxids=[])
    (hfuel : blockTxCount msg≤fuel) :
    assignPositions (bucket msg.shorttxids.length) fuel slots 0 0 .empty
        msg.shorttxids=
      .ok (rankTable (bucket msg.shorttxids.length)
        (fun rank => openPosition msg rank%2^16) 0 .empty msg.shorttxids) := by
  cases hsome with
  | inl hsome => exact assignPositions_eq hfit hplaced hsome hfuel (Nat.count_zero _) (by omega)
  | inr hnone =>
    rw [hnone]
    rfl

theorem rankTable_empty {position : ℕ → ℕ} {shorttxids : List ℕ} (hnodup : shorttxids.Nodup) :
    (rankTable (bucket shorttxids.length) position 0 .empty shorttxids).1=true ↔
      ¬Crowded bucket shorttxids := by
  rw [rankTable_done hnodup (fun shortid _ => find_empty shortid)]
  simp only [Crowded,not_exists,not_and,Nat.not_lt]
  refine forall_congr' (fun shortid => forall_congr' (fun hm => ?_))
  have hzero : bucketSize (bucket shorttxids.length) .empty shortid=0 := rfl
  rw [hzero,Nat.zero_add]

theorem even_of_taken {position : ℕ → ℕ} {shorttxids : List ℕ} {table : ShortIdTable}
    (hrun : rankTable (bucket shorttxids.length) position 0 .empty shorttxids=(true,table))
    (hsize : table.size=shorttxids.length) : shorttxids.Nodup ∧ ¬Crowded bucket shorttxids := by
  have hnodup := ((fresh_of_size hrun).2 (by rw [hsize]; exact (Nat.zero_add _).symm)).1
  exact ⟨hnodup,(rankTable_empty hnodup).mp (by rw [hrun])⟩

theorem tabled_of_small (hfit : PrefilledFit msg) (hsmall : blockTxCount msg≤2^16)
    {table : ShortIdTable} (hnodup : msg.shorttxids.Nodup)
    (hrun : rankTable (bucket msg.shorttxids.length)
      (fun rank => openPosition msg rank%2^16) 0 .empty msg.shorttxids=(true,table)) :
    Tabled msg table := by
  obtain ⟨hranks,hothers⟩ := find_rankTable hnodup hrun
  have hassigned : Assigned msg table := by
    intro rank shortid hid
    have hrank := (List.getElem?_eq_some_iff.mp hid).1
    have hlt := openPosition_lt hfit hrank
    rw [hranks rank shortid hid,Nat.zero_add,Nat.mod_eq_of_lt (by omega)]
  have hsize := size_rankTable hnodup (fun shortid _ => find_empty shortid) hrun
  refine ⟨?_,hassigned,hnodup,hsize.trans (Nat.zero_add _),?_⟩
  · intro shortid position hfind
    by_cases hm : shortid∈msg.shorttxids
    · obtain ⟨rank,hid⟩ := List.getElem?_of_mem hm
      have hrank := (List.getElem?_eq_some_iff.mp hid).1
      rw [hassigned rank shortid hid,Option.some.injEq] at hfind
      exact ⟨hfind ▸ openPosition_lt hfit hrank,rank,hid,hfind.symm⟩
    · rw [hothers shortid hm,find_empty] at hfind
      cases hfind
  · unfold blockTxCount at hsmall
    omega

theorem initSearch_small (hfit : PrefilledFit msg) (hplaced : Placed msg slots)
    (hsome : msg.prefilledtxn.length<2^16 ∨ msg.shorttxids=[])
    (hsmall : (¬msg.shorttxids.Nodup ∨ Crowded bucket msg.shorttxids) ∨
      (blockTxCount msg≤2^16 ∧
        ¬FollowsNull hashes msg (visitedPool hashes msg [] vTxHashes) [] extra)) :
    ∃ result, initSearch hashes bucket (blockTxCount msg) msg vTxHashes
        (extraEntries extra) (startedBlock msg slots)=.ok result ∧
      (result.status=.ok → Assigned msg result.shorttxids ∧
        Filled hashes msg (vTxHashes++extra.filterMap id) slots result.block) := by
  have hassign := @initSearch_ranked bucket msg _ slots hfit hplaced hsome (Nat.le_refl _)
  unfold initSearch
  cases hrun : rankTable (bucket msg.shorttxids.length)
    (fun rank => openPosition msg rank%2^16) 0 .empty msg.shorttxids with
  | mk done table =>
    rw [hrun] at hassign
    have hslots : (startedBlock msg slots).txn_available=slots := rfl
    simp only [hslots,hassign,ok_bind]
    cases done with
    | false => exact ⟨_,rfl,fun hok => by cases hok⟩
    | true =>
      by_cases hsize : table.size=msg.shorttxids.length
      · obtain ⟨hnodup,heven⟩ := even_of_taken hrun hsize
        obtain ⟨hfits,hnull⟩ := hsmall.resolve_left (not_or.mpr ⟨not_not.mpr hnodup,heven⟩)
        have htable := tabled_of_small hfit hfits hnodup hrun
        obtain ⟨-,final,hfinal,hfilled⟩ :=
          (@searchKnown_follows hashes _ _ _ htable hplaced vTxHashes
          extra).resolve_left (fun h => hnull h.1)
        simp only [Bool.not_true,Bool.false_eq_true,if_false,ne_eq,hsize,not_true_eq_false,hfinal,
          ok_bind]
        exact ⟨_,rfl,fun _ => ⟨htable.assigned,hfilled⟩⟩
      · simp only [Bool.not_true,Bool.false_eq_true,if_false,ne_eq,hsize,not_false_eq_true,if_true]
        exact ⟨_,rfl,fun hok => by cases hok⟩

variable {result : InitResult}

section

variable (hfit : PrefilledFit msg) (hplaced : Placed msg slots)

include hfit hplaced

theorem initSearch_table
    (hsome : msg.prefilledtxn.length<2^16) {known : List (Uint256×Option CTransaction)}
    (hrun : initSearch hashes bucket fuel msg vTxHashes known
      (startedBlock msg slots)=.ok result) :
    initSearch hashes bucket (fuel+blockTxCount msg) msg vTxHashes known
        (startedBlock msg slots)=.ok result ∧
      assignPositions (bucket msg.shorttxids.length) (fuel+blockTxCount msg)
          (startedBlock msg slots).txn_available 0 0 .empty msg.shorttxids=
        .ok (rankTable (bucket msg.shorttxids.length)
          (fun rank => openPosition msg rank%2^16) 0 .empty msg.shorttxids) := by
  refine ⟨?_,initSearch_ranked hfit hplaced (Or.inl hsome) (Nat.le_add_left _ _)⟩
  rw [initSearch,bind_eq_ok] at hrun ⊢
  obtain ⟨assigned,hassign,hrun⟩ := hrun
  exact ⟨assigned,assignPositions_mono (Nat.le_add_right _ _) hassign,hrun⟩

theorem initSearch_calm (hsome : msg.prefilledtxn.length<2^16) (hnodup : msg.shorttxids.Nodup)
    (hcalm : ¬Crowded bucket msg.shorttxids) {known : List (Uint256×Option CTransaction)}
    (hrun : initSearch hashes bucket fuel msg vTxHashes known
      (startedBlock msg slots)=.ok result) :
    result.status=.ok ∧ rankTable (bucket msg.shorttxids.length)
        (fun rank => openPosition msg rank%2^16) 0 .empty msg.shorttxids=
          (true,result.shorttxids) ∧
      ∃ search, searchKnown hashes msg vTxHashes known result.shorttxids
        (startedBlock msg slots)=.ok search := by
  obtain ⟨hmore,hassign⟩ := initSearch_table hfit hplaced hsome hrun
  rw [initSearch,hassign,ok_bind] at hmore
  cases hrank : rankTable (bucket msg.shorttxids.length)
    (fun rank => openPosition msg rank%2^16) 0 .empty msg.shorttxids with
  | mk done table =>
    have hdone : (done,table).1=true := by
      rw [← hrank]
      exact (rankTable_empty hnodup).mpr hcalm
    cases hdone
    have hsize := size_rankTable hnodup (fun shortid _ => find_empty shortid) hrank
    have hcount : table.size=msg.shorttxids.length := by
      rw [hsize]
      exact Nat.zero_add _
    simp only [hrank,Bool.not_true,Bool.false_eq_true,if_false,ne_eq,hcount,not_true_eq_false,
      bind_eq_ok,Except.ok.injEq] at hmore
    obtain ⟨search,hsearch,rfl⟩ := hmore
    exact ⟨rfl,rfl,search,hsearch⟩

/-- A message that leads to a null slot gives no result. -/
theorem initSearch_null (hsmall : blockTxCount msg≤2^16) (hsome : msg.prefilledtxn.length<2^16)
    (hnodup : msg.shorttxids.Nodup) (hcalm : ¬Crowded bucket msg.shorttxids)
    (hnull : FollowsNull hashes msg (visitedPool hashes msg [] vTxHashes) [] extra) :
    initSearch hashes bucket fuel msg vTxHashes (extraEntries extra)
      (startedBlock msg slots)≠.ok result := by
  intro hrun
  obtain ⟨-,hrank,search,hsearch⟩ := initSearch_calm hfit hplaced hsome hnodup hcalm hrun
  have htable := tabled_of_small hfit hsmall hnodup hrank
  obtain ⟨-,hfault⟩ :=
    (@searchKnown_follows hashes _ _ _ htable hplaced vTxHashes extra).resolve_right
    (fun h => h.1 hnull)
  rw [hfault] at hsearch
  cases hsearch

theorem initSearch_crowded (hsome : msg.prefilledtxn.length<2^16) (hnodup : msg.shorttxids.Nodup)
    (hcrowded : Crowded bucket msg.shorttxids) {known : List (Uint256×Option CTransaction)}
    (hrun : initSearch hashes bucket fuel msg vTxHashes known
      (startedBlock msg slots)=.ok result) : result.status=.failed := by
  obtain ⟨hmore,hassign⟩ := initSearch_table hfit hplaced hsome hrun
  have hdone : (rankTable (bucket msg.shorttxids.length)
      (fun rank => openPosition msg rank%2^16) 0 .empty msg.shorttxids).1=false :=
    Bool.eq_false_of_not_eq_true (fun hdone => (rankTable_empty hnodup).mp hdone hcrowded)
  rw [initSearch,hassign,ok_bind,hdone] at hmore
  simp only [Bool.not_false,if_true,Except.ok.injEq] at hmore
  rw [← hmore]

end

theorem unmanageable {msg : CBlockHeaderAndShortTxIDs} (hfit : PrefilledFit msg)
    (hplaced : Placed msg slots) (hlarge : 2^16<blockTxCount msg)
    (heven : msg.prefilledtxn.length<2^16 →
      msg.shorttxids.Nodup ∧ ¬Crowded bucket msg.shorttxids)
    {known : List (Uint256×Option CTransaction)}
    (hrun : initSearch hashes bucket fuel msg vTxHashes known
      (startedBlock msg slots)=.ok result) :
    result.status=.ok ∧ ¬Assigned msg result.shorttxids := by
  have hbound : msg.prefilledtxn.length≤2^16 := by
    have hcount := count_open msg (2^16)
    have htaken := @card_taken msg (2^16) (fun position hm => by
      have := (bounds_of_mem hfit hm).1
      omega)
    omega
  have hsome : msg.shorttxids≠[] := by
    intro hnone
    rw [blockTxCount,hnone,length_nil] at hlarge
    omega
  by_cases hfull : msg.prefilledtxn.length=2^16
  · rw [initSearch,startedBlock,assignPositions_endless hfit hplaced hfull hsome] at hrun
    cases hrun
  · have hfree : msg.prefilledtxn.length<2^16 := by omega
    obtain ⟨hnodup,hcalm⟩ := heven hfree
    obtain ⟨hstat,hrank,-⟩ := initSearch_calm hfit hplaced hfree hnodup hcalm hrun
    have hranks := (find_rankTable hnodup hrank).1
    refine ⟨hstat,fun hassigned => ?_⟩
    have hlast : msg.shorttxids.length-1 < msg.shorttxids.length := by
      have := length_pos_iff.mpr hsome
      omega
    have hid := getElem?_eq_getElem hlast
    have hplace := hassigned _ _ hid
    rw [hranks _ _ hid,Nat.zero_add,openPosition_last hfit hlarge,Option.some.injEq] at hplace
    have hlt := Nat.mod_lt (blockTxCount msg-1) (show 2^16>0 by omega)
    omega

theorem not_followsNull_of_full (hfull : ¬msg.prefilledtxn.length<2^16)
    (hsmall : blockTxCount msg≤2^16) : msg.shorttxids=[] ∧
      ¬FollowsNull hashes msg (visitedPool hashes msg [] vTxHashes) [] extra := by
  rw [blockTxCount] at hsmall
  have hnone : msg.shorttxids=[] := eq_nil_of_length_eq_zero (by omega)
  exact ⟨hnone,not_followsNull (fun _ => hnone ▸ not_mem_nil)⟩

/-- A compact block is handled safely exactly if it is manageable. -/
theorem initData_handled_iff (hashes : ShortHashes) (bucket : ℕ → ℕ → ℕ)
    (msg : CBlockHeaderAndShortTxIDs) (vTxHashes : List CTransaction)
    (extra : List (Option CTransaction)) :
    Handled hashes bucket msg vTxHashes extra ↔
      Manageable hashes bucket msg vTxHashes extra := by
  by_cases hrefused : Refused msg
  · refine iff_of_true ?_ (Or.inl hrefused)
    obtain ⟨result,hrun,hstat⟩ := @initData_refused hashes bucket msg vTxHashes extra 0
      hrefused
    refine ⟨0,result,hrun,fun hok => ?_⟩
    rw [hstat] at hok
    cases hok
  · obtain ⟨hfit,slots,hplaced,hentered⟩ := @initData_entered hashes bucket msg vTxHashes
      extra hrefused
    unfold Handled Manageable
    simp only [hentered,hrefused,false_or]
    constructor
    · intro hhandled
      obtain ⟨fuel,result,hrun,hgood⟩ := hhandled
      by_contra hbad
      obtain ⟨hplain,hbad⟩ := not_or.mp hbad
      have heven : msg.prefilledtxn.length<2^16 →
          msg.shorttxids.Nodup ∧ ¬Crowded bucket msg.shorttxids := fun hsome =>
        (not_or.mp (fun h => hplain ⟨hsome,h⟩)).imp_left not_not.mp
      by_cases hsmall : blockTxCount msg≤2^16
      · have hnull := not_not.mp (fun h => hbad ⟨hsmall,h⟩)
        have hsome : msg.prefilledtxn.length<2^16 :=
          by_contra (fun hfull => (not_followsNull_of_full hfull hsmall).2 hnull)
        exact initSearch_null hfit hplaced hsmall hsome (heven hsome).1 (heven hsome).2 hnull hrun
      · obtain ⟨hstat,hassigned⟩ := unmanageable hfit hplaced (Nat.not_le.mp hsmall) heven hrun
        exact hassigned (hgood hstat).1
    · intro hmanageable
      have hsmall : msg.prefilledtxn.length<2^16 ∨ msg.shorttxids=[] := by
        by_cases hsome : msg.prefilledtxn.length<2^16
        · exact Or.inl hsome
        · have hfits := (hmanageable.resolve_left (fun h => hsome h.1)).1
          exact Or.inr (@not_followsNull_of_full hashes _ vTxHashes extra hsome hfits).1
      obtain ⟨result,hrun,hgood⟩ := @initSearch_small hashes bucket msg vTxHashes extra
        slots hfit hplaced hsmall (hmanageable.imp_left And.right)
      exact ⟨_,result,hrun,fun hok => ⟨(hgood hok).1,(hgood hok).2.matching⟩⟩

end Messages

/-- A transaction with one output. -/
def onePayment : CTransaction :=
  { vout := [⟨0,[]⟩], hash := 1, payload_special := CTransaction.payload_plain }

/-- As many whole transactions as there are positions, and one short hash. -/
def fullMessage : CBlockHeaderAndShortTxIDs where
  header := { nVersion := 1, nTime := 0, nBits := 1 }
  nonce := 0
  shorttxids := [0]
  prefilledtxn := List.replicate (2^16) ⟨0,onePayment⟩

theorem positionsFrom_replicate (next count : ℕ) (tx : CTransaction) :
    positionsFrom next (List.replicate count ⟨0,tx⟩)=List.range' next count := by
  induction count generalizing next with
  | zero => rfl
  | succ count ih =>
    rw [replicate_succ,positionsFrom,range'_succ]
    exact congrArg (cons next) (ih (next+1))

theorem fullMessage_entered : ¬Refused fullMessage := by
  have hlength : fullMessage.prefilledtxn.length=2^16 := length_replicate
  have hcount : blockTxCount fullMessage=1+2^16 := by
    rw [blockTxCount,hlength]
    exact congrArg (fun shorts => shorts+2^16) length_singleton
  intro hrefused
  rcases hrefused with hheader | ⟨hshort,-⟩ | hlarge | hfit
  · exact absurd hheader (by decide)
  · cases hshort
  · rw [hcount] at hlarge
    exact absurd hlarge (by decide)
  · refine hfit ?_
    intro j prefilled position hj hposition
    have hpref := eq_of_mem_replicate (mem_of_getElem? hj)
    have hlt := (List.getElem?_eq_some_iff.mp hj).1
    have hplace : (List.range' 0 (2^16))[j]?=some position := by
      rw [← positionsFrom_replicate 0 (2^16) onePayment]
      exact hposition
    rw [List.getElem?_range' (by simpa only [fullMessage,length_replicate] using hlt),
      Option.some.injEq] at hplace
    have hshort : fullMessage.shorttxids.length=1 := rfl
    rw [fullMessage,length_replicate] at hlt
    refine ⟨?_,by omega,by omega⟩
    rw [hpref]
    rfl

/-- A whole transaction and a short hash that a transaction of the pool has, and every null slot. -/
def sharedMessage : CBlockHeaderAndShortTxIDs where
  header := { nVersion := 1, nTime := 0, nBits := 1 }
  nonce := 0
  shorttxids := [0]
  prefilledtxn := [⟨0,onePayment⟩]

theorem sharedMessage_entered : ¬Refused sharedMessage := by
  intro hrefused
  rcases hrefused with hheader | ⟨hshort,-⟩ | hlarge | hfit
  · exact absurd hheader (by decide)
  · cases hshort
  · exact absurd hlarge (by decide)
  · exact hfit (fitFrom_cons.mpr ⟨⟨rfl,by decide,by decide⟩,fitFrom_nil _ _ _⟩)

/-- A message that leaves no position for its short hash keeps the loop running, and one leads to a
null slot. -/
theorem fullMessage_not_handled :
    ¬Handled ⟨fun _ _ => (0,0),fun _ _ _ => 0⟩ (fun _ _ => 0) fullMessage [] [] ∧
      ¬Handled ⟨fun _ _ => (0,0),fun _ _ _ => 0⟩ (fun _ _ => 0) sharedMessage [onePayment]
        [none] := by
  constructor
  · obtain ⟨hfit,slots,hplaced,hentered⟩ := @initData_entered ⟨fun _ _ => (0,0),fun _ _ _ => 0⟩
      (fun _ _ => 0) fullMessage [] [] fullMessage_entered
    intro hhandled
    obtain ⟨fuel,result,hrun,hgood⟩ := hhandled
    have hlength : fullMessage.prefilledtxn.length=2^16 := length_replicate
    rw [hentered] at hrun
    have hlarge : 2^16<blockTxCount fullMessage := by
      rw [blockTxCount,hlength]
      exact Nat.lt_add_of_pos_left (Nat.succ_pos 0)
    obtain ⟨hstat,hassigned⟩ := unmanageable hfit hplaced hlarge
      (fun hsome => absurd hlength (Nat.ne_of_lt hsome)) hrun
    exact hassigned (hgood hstat).1
  · obtain ⟨hfit,slots,hplaced,hentered⟩ := @initData_entered ⟨fun _ _ => (0,0),fun _ _ _ => 0⟩
      (fun _ _ => 0) sharedMessage [onePayment] [none] sharedMessage_entered
    intro hhandled
    obtain ⟨fuel,result,hrun,-⟩ := hhandled
    rw [hentered] at hrun
    refine initSearch_null hfit hplaced (by decide) (by decide) (by decide) ?_ ?_ hrun
    · unfold Crowded
      decide
    · exact ⟨by decide,by decide⟩

end Pyrk.CompactPositions
