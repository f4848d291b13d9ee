import Pyrk.TransactionEncoding

/-!
# Requests for transactions of a compact block

Positions of transactions are sent as the number of positions between one and the next, and the
reader adds them up in sixteen bits.
-/

namespace Pyrk.IndexCoding

open ByteReader ByteCodec UndoData TransactionEncoding List

structure BlockTransactionsRequest where
  blockhash : Fin (2^256)
  indexes : List UInt16
  deriving DecidableEq

/-- Read a number of positions in between. -/
def readIndex : Reader UInt16 := do
  let index ← readCompactSize
  if 65535 < index then failure else pure (UInt16.ofNat index)

/-- Add up the numbers from an offset on. -/
def addOffsets : UInt16 → List UInt16 → Option (List UInt16)
  | _,[] => some []
  | offset,index::rest =>
    if 65535 < index.toNat+offset.toNat then none
    -- the next offset is a number of sixteen bits too
    else (addOffsets (index+offset+1) rest).map ((index+offset)::·)

/-- Read the block hash and the numbers. -/
def readStored : Reader (Fin (2^256)×List UInt16) := do
  let blockhash ← readHash
  let indexes ← readVector readIndex
  pure (blockhash,indexes)

def readRequest : Reader BlockTransactionsRequest := do
  let stored ← readStored
  match addOffsets 0 stored.2 with
  | none => failure
  | some indexes => pure ⟨stored.1,indexes⟩

/-- Bytes of the positions behind one. -/
def writeIndexes : ℤ → List UInt16 → List UInt8
  | _,[] => []
  | next,index::rest => writeCompactSize ((index.toNat-next)%2^64).toNat++
      writeIndexes (index.toNat+1) rest

def writeRequest (request : BlockTransactionsRequest) : List UInt8 :=
  writeHash request.blockhash++(writeCompactSize request.indexes.length++
    writeIndexes 0 request.indexes)

/-- The sum of the numbers comes to the end of the sixteen bits with the last one, if at all. -/
def EndsLast (offset : ℕ) (indexes : List UInt16) : Prop :=
  ∀ front back, indexes=front++back → front≠[] → back≠[] →
    offset+(front.map (fun index => index.toNat+1)).sum≠65536

/-- Bytes of a number of positions in between. -/
def writeIndex (index : UInt16) : List UInt8 := writeCompactSize index.toNat

theorem codec_readIndex : Codec readIndex writeIndex (fun _ => True) where
  reads := by
    intro index _
    have hlt := index.toNat_lt
    refine (reads_readCompactSize (by unfold maxSize; omega)).map ?_
    rw [if_neg (by omega),UInt16.ofNat_toNat]
    exact reads_pure index
  writes := by
    intro input index rest hrun
    obtain ⟨n,behind,hsize,hend⟩ := run_bind_eq_some hrun
    obtain ⟨-,hinput⟩ := codec_readCompactSize.writes input n behind hsize
    split at hend
    · cases hend
    case isFalse hle =>
      cases hend
      refine ⟨trivial,?_⟩
      rw [hinput,writeIndex,UInt16.toNat_ofNat',Nat.mod_eq_of_lt (by omega)]

theorem codec_readStored : Codec readStored
    (fun stored => writeHash stored.1++writeVector writeIndex stored.2)
    (fun stored => stored.2.length ≤ maxSize) := by
  have hbind := codec_readHash.bind
    (fun blockhash _ => (codec_readVector codec_readIndex).map (Prod.mk blockhash) Prod.snd
      (fun _ _ => rfl)) Prod.fst (fun _ _ _ h => congrArg Prod.fst h.2)
  apply hbind.congr (fun stored _ => rfl)
  intro stored
  simp

theorem readRequest_eq_some {input rest : List UInt8} {request : BlockTransactionsRequest} :
    readRequest.run input=some (request,rest) ↔ ∃ indexes,
      readStored.run input=some ((request.blockhash,indexes),rest) ∧
      addOffsets 0 indexes=some request.indexes := by
  constructor
  · intro hrun
    obtain ⟨stored,behind,hstored,hend⟩ := run_bind_eq_some hrun
    cases hadd : addOffsets 0 stored.2 with
    | none =>
      rw [hadd] at hend
      cases hend
    | some indexes =>
      rw [hadd] at hend
      cases hend
      exact ⟨stored.2,hstored,hadd⟩
  · rintro ⟨indexes,hstored,hadd⟩
    rw [readRequest,StateT.run_bind,hstored]
    dsimp only [Option.bind_eq_bind,Option.bind_some]
    rw [hadd]
    rfl

section Offsets

variable {offset : UInt16} {indexes positions : List UInt16}

theorem toNat_succ {n : UInt16} (hn : n.toNat < 65535) : (n+1).toNat=n.toNat+1 := by
  have hone : (1:UInt16).toNat=1 := rfl
  rw [UInt16.toNat_add,hone]
  exact Nat.mod_eq_of_lt (by omega)

theorem addOffsets_cons {index : UInt16} :
    addOffsets offset (index::indexes)=some positions ↔ index.toNat+offset.toNat ≤ 65535 ∧
      ∃ rest, addOffsets (index+offset+1) indexes=some rest ∧ positions=(index+offset)::rest := by
  rw [addOffsets]
  split_ifs with hlarge
  · simp only [false_iff,not_and]
    omega
  · rw [Option.map_eq_some_iff]
    simp only [Nat.not_lt.mp hlarge,true_and,eq_comm]

theorem EndsLast.rises (hlast : EndsLast offset.toNat indexes)
    (hadd : addOffsets offset indexes=some positions) :
    positions.Pairwise (·<·) ∧ (∀ position∈positions, offset.toNat ≤ position.toNat) ∧
      positions.length=indexes.length ∧
      writeIndexes offset.toNat positions=indexes.flatMap writeIndex := by
  induction indexes generalizing offset positions with
  | nil =>
    cases hadd
    exact ⟨List.Pairwise.nil,fun _ hm => (by cases hm),rfl,rfl⟩
  | cons index indexes ih =>
    obtain ⟨hfits,rest,hrest,rfl⟩ := addOffsets_cons.mp hadd
    have hsum : (index+offset).toNat=index.toNat+offset.toNat := by
      rw [UInt16.toNat_add]
      exact Nat.mod_eq_of_lt (by omega)
    have hbytes : ((((index+offset).toNat : ℤ)-offset.toNat)%2^64).toNat=index.toNat := by omega
    cases indexes with
    | nil =>
      cases hrest
      refine ⟨pairwise_singleton _ _,?_,rfl,?_⟩
      · intro position hm
        rw [mem_singleton.mp hm]
        omega
      · rw [writeIndexes,hbytes]
        rfl
    | cons next indexes =>
      have hnot := hlast [index] (next::indexes) rfl (cons_ne_nil _ _) (cons_ne_nil _ _)
      simp only [map_cons,map_nil,sum_cons,sum_nil] at hnot
      have hnext : (index+offset+1).toNat=index.toNat+offset.toNat+1 := by
        rw [toNat_succ (by omega),hsum]
      have hlastNext : EndsLast (index+offset+1).toNat (next::indexes) := by
        intro front back heq hfront hback
        have hnot := hlast (index::front) back (by rw [heq,cons_append]) (cons_ne_nil _ _) hback
        rw [map_cons,sum_cons] at hnot
        omega
      obtain ⟨hrises,hmin,hlen,hwrite⟩ := ih hlastNext hrest
      refine ⟨pairwise_cons.mpr ⟨?_,hrises⟩,?_,congrArg Nat.succ hlen,?_⟩
      · intro position hm
        have hle := hmin position hm
        exact UInt16.lt_iff_toNat_lt.mpr (by omega)
      · intro position hm
        rcases mem_cons.mp hm with rfl | hm
        · omega
        · have hle := hmin position hm
          omega
      · rw [writeIndexes,hbytes,flatMap_cons,← hwrite,hnext,hsum]
        push_cast
        rfl

/-- Where the sum comes to its end before the last number, the positions do not rise. -/
theorem endsLast_of_rises (hadd : addOffsets offset indexes=some positions)
    (hrises : positions.Pairwise (·<·)) : EndsLast offset.toNat indexes := by
  induction indexes generalizing offset positions with
  | nil =>
    intro front back heq hfront
    exact absurd (append_eq_nil_iff.mp heq.symm).1 hfront
  | cons index indexes ih =>
    obtain ⟨hfits,rest,hrest,rfl⟩ := addOffsets_cons.mp hadd
    rw [pairwise_cons] at hrises
    have hsum : (index+offset).toNat=index.toNat+offset.toNat := by
      rw [UInt16.toNat_add]
      exact Nat.mod_eq_of_lt (by omega)
    intro front back heq hfront hback hend
    obtain ⟨head,front,rfl⟩ := exists_cons_of_ne_nil hfront
    obtain ⟨rfl,htail⟩ := List.cons.inj heq
    rw [map_cons,sum_cons] at hend
    by_cases hlarge : index.toNat+offset.toNat=65535
    · obtain ⟨next,others,hnext⟩ := exists_cons_of_ne_nil
        (htail ▸ append_ne_nil_of_right_ne_nil front hback : indexes≠[])
      rw [hnext] at hrest
      obtain ⟨-,last,-,rfl⟩ := addOffsets_cons.mp hrest
      have hlt := UInt16.lt_iff_toNat_lt.mp (hrises.1 _ mem_cons_self)
      have hmax := (next+(index+offset+1)).toNat_lt
      omega
    · have hnext := toNat_succ (by omega : (index+offset).toNat < 65535)
      have hfront : front≠[] := by
        rintro rfl
        simp only [map_nil,sum_nil] at hend
        omega
      exact ih hrest hrises.2 front back htail hfront hback (by omega)

/-- Rising positions from an offset on are the sums of some numbers. -/
theorem exists_addOffsets (hrises : positions.Pairwise (·<·))
    (hmin : ∀ position∈positions, offset.toNat ≤ position.toNat) :
    offset.toNat+positions.length ≤ 65536 ∧
      ∃ indexes, addOffsets offset indexes=some positions := by
  induction positions generalizing offset with
  | nil =>
    have hlt := offset.toNat_lt
    exact ⟨by rw [length_nil]; omega,[],rfl⟩
  | cons position positions ih =>
    rw [pairwise_cons] at hrises
    have hle := hmin position mem_cons_self
    have hlt := position.toNat_lt
    have hsum : position-offset+offset=position := UInt16.sub_add_cancel _ _
    have hindex : (position-offset).toNat=position.toNat-offset.toNat :=
      UInt16.toNat_sub_of_le _ _ (UInt16.le_iff_toNat_le.mpr hle)
    have hstep : ∀ rest, addOffsets (position+1) rest=some positions →
        addOffsets offset ((position-offset)::rest)=some (position::positions) := by
      intro rest hrest
      exact addOffsets_cons.mpr ⟨by omega,positions,by rw [hsum,hrest],by rw [hsum]⟩
    cases positions with
    | nil => exact ⟨by rw [length_singleton]; omega,[position-offset],hstep [] rfl⟩
    | cons next others =>
      have hfirst := UInt16.lt_iff_toNat_lt.mp (hrises.1 next mem_cons_self)
      have hmax := next.toNat_lt
      have hnext := toNat_succ (by omega : position.toNat < 65535)
      obtain ⟨hcount,indexes,hadd⟩ := @ih (position+1) hrises.2 (fun other hm => by
        have hother := UInt16.lt_iff_toNat_lt.mp (hrises.1 other hm)
        omega)
      rw [length_cons]
      exact ⟨by omega,_,hstep indexes hadd⟩

end Offsets

/-- Requests with rising positions come back from their bytes, and only those are read, exactly if
the sum does not reach the end of sixteen bits before the last number. -/
theorem readRequest_canonical_iff {input rest : List UInt8} {request : BlockTransactionsRequest}
    {stored : Fin (2^256)×List UInt16} (hstored : readStored.run input=some (stored,rest))
    (hread : readRequest.run input=some (request,rest)) :
    (∀ sent : BlockTransactionsRequest, sent.indexes.Pairwise (·<·) → ∀ behind,
      readRequest.run (writeRequest sent++behind)=some (sent,behind)) ∧
    ((request.indexes.Pairwise (·<·) ∧ input=writeRequest request++rest) ↔
      EndsLast 0 stored.2) := by
  refine ⟨?_,?_⟩
  · intro sent hrises behind
    obtain ⟨hcount,indexes,hadd⟩ := @exists_addOffsets 0 _ hrises (fun _ _ => Nat.zero_le _)
    obtain ⟨-,-,hlen,hwrite⟩ := (endsLast_of_rises hadd hrises).rises hadd
    refine readRequest_eq_some.mpr ⟨indexes,?_,hadd⟩
    have hfits : (sent.blockhash,indexes).2.length ≤ maxSize := by
      dsimp only [maxSize]
      rw [← hlen]
      omega
    have hreads := codec_readStored.reads (sent.blockhash,indexes) hfits behind
    rw [writeVector,← hlen,← hwrite] at hreads
    exact hreads
  · obtain ⟨indexes,hfound,hadd⟩ := readRequest_eq_some.mp hread
    obtain ⟨rfl,-⟩ := Prod.mk.inj (Option.some.inj (hfound.symm.trans hstored))
    constructor
    · exact fun hcanon => endsLast_of_rises hadd hcanon.1
    · intro hlast
      obtain ⟨hrises,-,hlen,hwrite⟩ := @EndsLast.rises 0 _ _ hlast hadd
      obtain ⟨-,hinput⟩ := codec_readStored.writes _ _ _ hfound
      refine ⟨hrises,?_⟩
      rw [hinput,writeRequest,writeVector,← hlen,← hwrite]
      rfl

def nullHash : Fin (2^256) := ⟨0,Nat.two_pow_pos 256⟩

def requestBytes (first second : UInt16) : List UInt8 :=
  writeHash nullHash++(writeCompactSize 2++(writeIndex first++writeIndex second))

theorem readStored_requestBytes (first second : UInt16) :
    readStored.run (requestBytes first second)=some ((nullHash,[first,second]),[]) := by
  have hreads := codec_readStored.reads (nullHash,[first,second]) (Nat.le_of_ble_eq_true rfl) []
  rw [append_nil] at hreads
  rw [requestBytes]
  simpa [writeVector] using hreads

theorem readRequest_canonical_sample :
    readRequest.run (requestBytes 3 5)=some (⟨nullHash,[3,9]⟩,[]) ∧
    ([3,9] : List UInt16).Pairwise (·<·) ∧ requestBytes 3 5=writeRequest ⟨nullHash,[3,9]⟩++[] := by
  have hread : readRequest.run (requestBytes 3 5)=some (⟨nullHash,[3,9]⟩,[]) :=
    readRequest_eq_some.mpr ⟨_,readStored_requestBytes 3 5,by decide⟩
  have hrises : ([3,9] : List UInt16).Pairwise (·<·) := by decide
  exact ⟨hread,(readRequest_canonical_iff (readStored_requestBytes 3 5) hread).2.mpr
    (endsLast_of_rises (by decide : addOffsets 0 [3,5]=some [3,9]) hrises)⟩

theorem readRequest_restarts :
    readRequest.run (requestBytes 65535 5)=some (⟨nullHash,[65535,5]⟩,[]) ∧
    ¬([65535,5] : List UInt16).Pairwise (·<·) ∧
    requestBytes 65535 5≠writeRequest ⟨nullHash,[65535,5]⟩ :=
  ⟨readRequest_eq_some.mpr ⟨_,readStored_requestBytes 65535 5,by decide⟩,by decide,by decide⟩

end Pyrk.IndexCoding
