import Pyrk.AddressIndexUndo

/-!
# What remains of the spent and timestamp indexes

Disconnecting a block collects the entries of the spent index but does not
write them, and has nothing for the timestamp index. What a block has written
to these two indexes therefore stays after it is disconnected.
-/

namespace Pyrk.SpentIndexUndo

open Option

open Transaction Coins UndoBatch BlockIndexes BlockIndexUndo Function
open AddressIndexUndo (sampleHash160 keyHashScript sampleView sampleDB sampleBlock sampleFlags
  describesParent_sample)

section Records

variable (hash160 : List UInt8 → ℕ) (nHeight : ℕ)

/-- Record of an input of the block at a height: the spent output, and how it
was spent. A null transaction hash stands for no record. -/
def spentRecord : IndexEvent → Option (CSpentIndexKey×Option CSpentIndexValue)
  | .spend _ txhash j prevout entry =>
    let kind := indexedScript hash160 entry.out.scriptPubKey
    some (⟨prevout.hash,prevout.n⟩,if txhash=0 then none
      else some ⟨txhash,j,nHeight,entry.out.nValue,kind.addressType,kind.hashBytes⟩)
  | .create _ _ _ _ => none

/-- Records of the inputs of a block, in order. -/
def spentRecords (view : CoinsView) (vtx : List CTransaction) :
    List (CSpentIndexKey×Option CSpentIndexValue) :=
  (blockEvents nHeight 0 view vtx).filterMap (spentRecord hash160 nHeight)

/-- The indexes hold what the block writes to them: its time and, for each
output it spends, the last record it has for the output. -/
structure AlreadyIndexed (view : CoinsView) (db : CBlockTreeDB) (block : CBlock) : Prop where
  timestamp : db.timestampIndex ⟨block.nTime,block.hash⟩≠none
  spent : ∀ key record, (spentRecords hash160 nHeight view block.vtx).reverse.find?
    (fun record => record.1=key)=some record → db.spentIndex key=record.2

end Records

section Blocks

variable {hash160 : List UInt8 → ℕ} {flags : IndexFlags} {nHeight : ℕ}

theorem undoIndexes_spentIndex (db : CBlockTreeDB) (events : List IndexEvent) :
    (undoIndexes hash160 flags nHeight db events).spentIndex=db.spentIndex := by
  unfold undoIndexes
  cases flags.fAddressIndex <;> rfl

theorem undoIndexes_timestampIndex (db : CBlockTreeDB) (events : List IndexEvent) :
    (undoIndexes hash160 flags nHeight db events).timestampIndex=db.timestampIndex := by
  unfold undoIndexes
  cases flags.fAddressIndex <;> rfl

theorem writeIndexes_spentIndex (hflag : flags.fSpentIndex=true) (db : CBlockTreeDB)
    (block : CBlock) (events : List IndexEvent) :
    (writeIndexes hash160 flags nHeight db block events).spentIndex=
      applyBatch (events.filterMap (spentRecord hash160 nHeight)) db.spentIndex := by
  have hrecords : ∀ event∈events, (connectBatches hash160 flags nHeight event).spentIndex.map
      (fun entry => (entry.1,if entry.2.isNull then none else some entry.2))=
        ((spentRecord hash160 nHeight event).map id).toList := by
    intro event _
    cases event with
    | create i txhash k out => rfl
    | spend i txhash j prevout entry =>
      simp only [connectBatches,hflag,if_true,spentRecord,CSpentIndexValue.isNull,List.map_cons,
        List.map_nil,decide_eq_true_eq,map_some,id,toList_some]
  have hbatch := map_flatMap_eq_map_filterMap hrecords
  rw [List.map_id] at hbatch
  rw [← hbatch]
  unfold writeIndexes
  simp only [hflag,if_true,List.flatMap_map]
  cases flags.fAddressIndex <;> cases flags.fTimestampIndex <;> rfl

theorem writeIndexes_timestampIndex (hflag : flags.fTimestampIndex=true) (db : CBlockTreeDB)
    (block : CBlock) (events : List IndexEvent) :
    (writeIndexes hash160 flags nHeight db block events).timestampIndex=
      Function.update db.timestampIndex ⟨block.nTime,block.hash⟩ (some 0) := by
  unfold writeIndexes
  simp only [hflag,if_true]
  cases flags.fAddressIndex <;> cases flags.fSpentIndex <;> rfl

theorem readTimestampIndex_eq_iff {db next : CBlockTreeDB} {entry : CTimestampIndexKey}
    (hnext : next.timestampIndex=Function.update db.timestampIndex entry (some 0)) :
    (∀ high low, next.readTimestampIndex high low=db.readTimestampIndex high low) ↔
      db.timestampIndex entry≠none := by
  constructor
  · intro h
    have hm : entry.blockHash∈next.readTimestampIndex entry.timestamp entry.timestamp := by
      refine ⟨entry.timestamp,le_refl _,le_refl _,?_⟩
      rw [hnext,update_self]
      exact some_ne_none 0
    rw [h] at hm
    obtain ⟨timestamp,hlow,hhigh,hlisted⟩ := hm
    rwa [Nat.le_antisymm hhigh hlow] at hlisted
  · intro hlisted high low
    ext blockHash
    refine exists_congr (fun timestamp => and_congr_right (fun _ => and_congr_right (fun _ => ?_)))
    rw [hnext]
    by_cases he : (⟨timestamp,blockHash⟩ : CTimestampIndexKey)=entry
    · rw [he,update_self]
      exact ⟨fun _ => hlisted,fun _ => some_ne_none 0⟩
    · rw [update_of_ne he]

/-- Both indexes answer as before after a block is disconnected exactly when they held its entries
already, which are never gone. -/
theorem disconnectBlock_spentIndex_iff (hspent : flags.fSpentIndex=true)
    (htimestamp : flags.fTimestampIndex=true) (hpos : 0<nHeight) {view : CoinsView}
    (hview : ProperCoins view) {db : CBlockTreeDB} {block : CBlock} {connected : ConnectedBlock}
    (hconnect : connectBlock hash160 flags nHeight db view block=.ok connected) :
    ∃ disconnected, disconnectBlock hash160 flags nHeight connected block=some disconnected ∧
      ((∀ key, disconnected.db.readSpentIndex key=db.readSpentIndex key) ∧
          (∀ high low, disconnected.db.readTimestampIndex high low=
            db.readTimestampIndex high low) ↔
        AlreadyIndexed hash160 nHeight view db block) ∧
      block.hash∈disconnected.db.readTimestampIndex block.nTime block.nTime ∧
      ∀ key record, (spentRecords hash160 nHeight view block.vtx).reverse.find?
        (fun record => record.1=key)=some record → disconnected.db.readSpentIndex key=record.2 := by
  obtain ⟨disconnected,hgone,hdb⟩ := disconnectBlock_ok hpos hview hconnect
  have hrecords : disconnected.db.spentIndex=
      applyBatch (spentRecords hash160 nHeight view block.vtx) db.spentIndex := by
    rw [hdb,undoIndexes_spentIndex,writeIndexes_spentIndex hspent,spentRecords]
  have htime : disconnected.db.timestampIndex=
      Function.update db.timestampIndex ⟨block.nTime,block.hash⟩ (some 0) := by
    rw [hdb,undoIndexes_timestampIndex,writeIndexes_timestampIndex htimestamp]
  refine ⟨disconnected,hgone,?_,?_,?_⟩
  · have hfun : (∀ key, disconnected.db.readSpentIndex key=db.readSpentIndex key) ↔
        applyBatch (spentRecords hash160 nHeight view block.vtx) db.spentIndex=db.spentIndex := by
      rw [← hrecords]
      exact ⟨funext,congrFun⟩
    rw [hfun,readTimestampIndex_eq_iff htime,applyBatch_eq_self_iff]
    exact ⟨fun h => ⟨h.2,h.1⟩,fun h => ⟨h.spent,h.timestamp⟩⟩
  · refine ⟨block.nTime,le_refl _,le_refl _,?_⟩
    rw [htime,update_self]
    exact some_ne_none 0
  · intro key record hlast
    rw [CBlockTreeDB.readSpentIndex,hrecords,applyBatch_apply,hlast]

end Blocks

/-- Indexes that have seen the sample block before. -/
def indexedDB : CBlockTreeDB :=
  writeIndexes sampleHash160 sampleFlags 2 (sampleDB keyHashScript) sampleBlock
    (blockEvents 2 0 (sampleView keyHashScript) sampleBlock.vtx)

/-- A block that comes back after a reorganisation leaves the indexes as they are. -/
theorem disconnectBlock_spentIndex_sample :
    ∃ connected disconnected,
      connectBlock sampleHash160 sampleFlags 2 indexedDB (sampleView keyHashScript)
        sampleBlock=.ok connected ∧
      disconnectBlock sampleHash160 sampleFlags 2 connected sampleBlock=some disconnected ∧
      (∀ key, disconnected.db.readSpentIndex key=indexedDB.readSpentIndex key) ∧
      ∀ high low, disconnected.db.readTimestampIndex high low=
        indexedDB.readTimestampIndex high low := by
  obtain ⟨connected,hconn⟩ := exists_ok (show (connectBlock sampleHash160 sampleFlags 2
    indexedDB (sampleView keyHashScript) sampleBlock).toOption.isSome=true by decide)
  obtain ⟨disconnected,hgone,hiff,-,-⟩ := disconnectBlock_spentIndex_iff rfl rfl
    (by decide) (describesParent_sample (by decide) (by decide)).coins hconn
  refine ⟨connected,disconnected,hconn,hgone,hiff.mpr ⟨by decide,?_⟩⟩
  intro key record hlast
  rw [spentRecords] at hlast
  rw [indexedDB,writeIndexes_spentIndex rfl,applyBatch_apply,hlast]

/-- The first time, the record of the spent coin and the time of the block
survive. -/
theorem disconnectBlock_spentIndex_stale :
    ∃ connected disconnected,
      connectBlock sampleHash160 sampleFlags 2 (sampleDB keyHashScript) (sampleView keyHashScript)
        sampleBlock=.ok connected ∧
      disconnectBlock sampleHash160 sampleFlags 2 connected sampleBlock=some disconnected ∧
      (sampleDB keyHashScript).readSpentIndex ⟨100,0⟩=none ∧
      disconnected.db.readSpentIndex ⟨100,0⟩≠none ∧
      1002∉(sampleDB keyHashScript).readTimestampIndex 1600000000 1600000000 ∧
      1002∈disconnected.db.readTimestampIndex 1600000000 1600000000 := by
  obtain ⟨connected,hconn⟩ := exists_ok (show (connectBlock sampleHash160 sampleFlags 2
    (sampleDB keyHashScript) (sampleView keyHashScript) sampleBlock).toOption.isSome=true by decide)
  obtain ⟨disconnected,hgone,hdb⟩ := disconnectBlock_ok (by decide)
    (describesParent_sample (by decide) (by decide)).coins hconn
  refine ⟨connected,disconnected,hconn,hgone,rfl,?_,?_,?_⟩
  · rw [CBlockTreeDB.readSpentIndex,hdb,undoIndexes_spentIndex,writeIndexes_spentIndex rfl]
    decide
  · rintro ⟨timestamp,-,-,hlisted⟩
    exact hlisted rfl
  · refine ⟨1600000000,le_refl _,le_refl _,?_⟩
    rw [hdb,undoIndexes_timestampIndex,writeIndexes_timestampIndex rfl]
    decide

end Pyrk.SpentIndexUndo
