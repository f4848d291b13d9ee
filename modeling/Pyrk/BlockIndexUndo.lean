import Pyrk.BlockIndexes

/-!
# Disconnecting a block right after connecting it

Disconnecting goes over inputs and outputs in reverse order. The entries of the address indexes are
inverse to each other except for inputs that spend pay-to-key outputs.
-/

namespace Pyrk.BlockIndexUndo

open Transaction Script Coins UndoBatch BlockIndexes List

/-- Coins as connecting creates them, with a height, an amount and a script that can be spent. -/
def ProperCoin (entry : Coin) : Prop :=
  0<entry.nHeight ∧ 0≤entry.out.nValue ∧ isUnspendable entry.out.scriptPubKey=false

def ProperCoins (view : CoinsView) : Prop :=
  ∀ outpoint entry, view.find outpoint=some entry → ProperCoin entry

variable {nHeight : ℕ}

theorem removeOutputs_events (tx : CTransaction) (outputs : List (CTxOut×ℕ))
    (st : DisconnectState) :
    (outputs.foldl (removeOutput nHeight tx) st).events=st.events := by
  induction outputs generalizing st with
  | nil => rfl
  | cons output outputs ih =>
    rw [foldl_cons,ih]
    unfold removeOutput
    split_ifs
    · rfl
    · split <;> rfl

theorem restoreInput_ok (i : ℕ) (tx : CTransaction) (st : DisconnectState) (input : CTxIn)
    {entry : Coin} (j : ℕ) (hentry : ProperCoin entry) :
    ∃ next, restoreInput i tx st ((input,entry),j)=some next ∧
      next.events=st.events++[.spend i tx.hash j input.prevout entry] := by
  have happly : applyTxInUndo entry st.view input.prevout=
      some (!st.view.contains input.prevout,st.view.set input.prevout entry) := by
    rw [applyTxInUndo,if_neg (Nat.ne_of_gt hentry.1),addCoin,hentry.2.2,if_neg Bool.false_ne_true]
  unfold restoreInput
  rw [happly]
  refine ⟨_,rfl,?_⟩
  rw [accessCoin,OrderedMap.find_set_self,Option.getD_some]

theorem restoreInputs_ok (i : ℕ) (tx : CTransaction) (inputs : List (CTxIn×Coin)) (n : ℕ)
    (hcoins : ∀ input∈inputs, ProperCoin input.2) (st : DisconnectState) :
    ∃ next, (inputs.zipIdx n).reverse.foldlM (restoreInput i tx) st=some next ∧
      next.events=st.events++((inputs.zipIdx n).map (fun input =>
        IndexEvent.spend i tx.hash input.2 input.1.1.prevout input.1.2)).reverse := by
  induction inputs generalizing n with
  | nil => exact ⟨st,rfl,(append_nil _).symm⟩
  | cons input inputs ih =>
    obtain ⟨middle,hmid,hevents⟩ := ih (n+1)
      (fun other hm => hcoins other (mem_cons_of_mem _ hm))
    obtain ⟨next,hnext,hlast⟩ := restoreInput_ok i tx middle input.1 n
      (hcoins input mem_cons_self)
    refine ⟨next,?_,?_⟩
    · rw [zipIdx_cons,reverse_cons,foldlM_append,hmid]
      change ([(input,n)].foldlM (restoreInput i tx) middle)=some next
      rw [foldlM_cons,hnext]
      rfl
    · rw [hlast,hevents,zipIdx_cons,map_cons,reverse_cons,append_assoc]

theorem spendEvents_zip (i : ℕ) (hash : Uint256) (view : CoinsView) (inputs : List CTxIn)
    (undo : List Coin) (n : ℕ)
    (h : undo.map some=inputs.map (fun input => view.find input.prevout)) :
    ((inputs.zip undo).zipIdx n).map (fun input =>
        IndexEvent.spend i hash input.2 input.1.1.prevout input.1.2)=
      (inputs.zipIdx n).map (fun entry =>
        IndexEvent.spend i hash entry.2 entry.1.prevout (accessCoin view entry.1.prevout)) := by
  induction inputs generalizing undo n with
  | nil => rfl
  | cons input inputs ih =>
    cases undo with
    | nil => cases h
    | cons entry undo =>
      rw [map_cons,map_cons,cons.injEq] at h
      rw [zip_cons_cons,zipIdx_cons,zipIdx_cons,map_cons,map_cons,ih undo (n+1) h.2]
      congr 1
      rw [accessCoin,← h.1,Option.getD_some]

variable {tx : CTransaction}

/-- Undoing a transaction passes over it in reverse. -/
theorem disconnectTx_ok {i : ℕ} (hpos : 0 < i) (hbase : tx.isCoinBase=false)
    {view next : CoinsView} {undo : List Coin} (hview : ProperCoins view)
    (hconnect : connectTx nHeight view tx=.ok (undo,next)) {vtxundo : List (List Coin)}
    (hundo : vtxundo[i-1]?=some undo) (st : DisconnectState) :
    ∃ final, disconnectTx nHeight vtxundo st (tx,i)=some final ∧
      final.events=st.events++(txEvents i view tx).reverse := by
  have hinputs : spentInputs tx=tx.vin := by
    rw [spentInputs,hbase,if_neg Bool.false_ne_true]
  have hupdate := connectTx_ok hconnect
  unfold updateCoins at hupdate
  rw [bind_eq_ok] at hupdate
  obtain ⟨spent,hspent,hupdate⟩ := hupdate
  cases hupdate
  have hcoins := spendInputs_undo hspent
  rw [hinputs] at hcoins
  have hlen : spent.1.length=tx.vin.length := by
    simpa only [length_map] using congrArg length hcoins
  have hproper : ∀ input∈tx.vin.zip spent.1, ProperCoin input.2 := by
    intro input hm
    have hentry : some input.2∈spent.1.map some :=
      mem_map_of_mem (of_mem_zip hm).2
    rw [hcoins] at hentry
    obtain ⟨other,-,hother⟩ := mem_map.mp hentry
    exact hview _ _ hother
  unfold disconnectTx
  rw [if_neg (Nat.ne_of_gt hpos),hundo]
  dsimp only
  rw [if_neg (not_not.mpr hlen)]
  obtain ⟨final,hfinal,hevents⟩ := restoreInputs_ok i tx (tx.vin.zip spent.1) 0 hproper
    (tx.vout.zipIdx.foldl (removeOutput nHeight tx)
      { st with events := st.events++(createEvents i tx).reverse })
  refine ⟨final,hfinal,?_⟩
  rw [hevents,removeOutputs_events,spendEvents_zip i tx.hash view tx.vin spent.1 0 hcoins,txEvents,
    reverse_append,spendEvents,hinputs,append_assoc]

theorem properCoins_connectTx (hpos : 0<nHeight) {view next : CoinsView}
    {undo : List Coin} (hview : ProperCoins view) (houts : ∀ out∈tx.vout, 0≤out.nValue)
    (hconnect : connectTx nHeight view tx=.ok (undo,next)) : ProperCoins next := by
  intro outpoint entry hf
  rcases updateCoins_find (connectTx_ok hconnect) hf with hold | ⟨k,out,hout,hscript,-,rfl⟩
  · exact hview outpoint entry hold
  · exact ⟨hpos,houts out (mem_of_getElem? hout),hscript⟩

variable {vtx : List CTransaction} {view : CoinsView} {connected : ConnectedTxs}

theorem connectBlockTxs_cons {i : ℕ} (h : connectBlockTxs nHeight i view (tx::vtx)=.ok connected) :
    ∃ result rest, connectTx nHeight view tx=.ok result ∧
      connectBlockTxs nHeight (i+1) result.2 vtx=.ok rest ∧
      connected=⟨rest.view,result.1::rest.vtxundo,txEvents i view tx++rest.events⟩ := by
  obtain ⟨result,hres,h⟩ := bind_eq_ok.mp h
  obtain ⟨rest,hrest,h⟩ := bind_eq_ok.mp h
  cases h
  exact ⟨result,rest,hres,hrest,rfl⟩

variable {block : CBlock}

theorem connectBlock_inv {hash160 : List UInt8 → ℕ} {flags : IndexFlags} {db : CBlockTreeDB}
    {connected : ConnectedBlock}
    (h : connectBlock hash160 flags nHeight db view block=.ok connected) :
    ∃ txs, checkBlock block=.ok () ∧ connectBlockTxs nHeight 0 view block.vtx=.ok txs ∧
      connected=⟨txs.view,txs.vtxundo.drop 1,
        writeIndexes hash160 flags nHeight db block txs.events⟩ := by
  obtain ⟨⟨⟩,hcheck,h⟩ := bind_eq_ok.mp h
  obtain ⟨txs,htxs,h⟩ := bind_eq_ok.mp h
  cases h
  exact ⟨txs,hcheck,htxs,rfl⟩

theorem disconnectTxs_ok (hpos : 0<nHeight) {vtx : List CTransaction} {i : ℕ} (hi : 0 < i)
    {view : CoinsView} {connected : ConnectedTxs} {vtxundo : List (List Coin)}
    (hbase : ∀ tx∈vtx, tx.isCoinBase=false)
    (houts : ∀ tx∈vtx, ∀ out∈tx.vout, 0≤out.nValue) (hview : ProperCoins view)
    (hconnect : connectBlockTxs nHeight i view vtx=.ok connected)
    (hundo : vtxundo.drop (i-1)=connected.vtxundo) (st : DisconnectState) :
    ∃ final, (vtx.zipIdx i).reverse.foldlM (disconnectTx nHeight vtxundo) st=some final ∧
      final.events=st.events++connected.events.reverse := by
  induction vtx generalizing i view connected with
  | nil =>
    cases hconnect
    exact ⟨st,rfl,(append_nil _).symm⟩
  | cons tx vtx ih =>
    obtain ⟨result,rest,hres,hrest,rfl⟩ := connectBlockTxs_cons hconnect
    have hlookup : vtxundo[i-1]?=some result.1 := by
      have hhead := congrArg head? hundo
      rwa [head?_drop] at hhead
    have hlater : vtxundo.drop i=rest.vtxundo := by
      have htail := congrArg tail hundo
      rwa [tail_drop,Nat.sub_add_cancel hi] at htail
    obtain ⟨middle,hmid,hevents⟩ := @ih (i+1) (Nat.succ_pos i) result.2 rest
      (fun other hm => hbase other (mem_cons_of_mem _ hm))
      (fun other hm => houts other (mem_cons_of_mem _ hm))
      (properCoins_connectTx hpos hview (houts tx mem_cons_self) hres) hrest hlater
    obtain ⟨final,hfinal,hlast⟩ := disconnectTx_ok hi (hbase tx mem_cons_self) hview
      hres hlookup middle
    refine ⟨final,?_,?_⟩
    · rw [zipIdx_cons,reverse_cons,foldlM_append,hmid]
      change ([(tx,i)].foldlM (disconnectTx nHeight vtxundo) middle)=some final
      rw [foldlM_cons,hfinal]
      rfl
    · rw [hlast,hevents,reverse_append,append_assoc]

theorem length_connectBlockTxs {i : ℕ} (h : connectBlockTxs nHeight i view vtx=.ok connected) :
    connected.vtxundo.length=vtx.length := by
  induction vtx generalizing i view connected with
  | nil =>
    cases h
    rfl
  | cons tx vtx ih =>
    obtain ⟨result,rest,-,hrest,rfl⟩ := connectBlockTxs_cons h
    rw [length_cons,length_cons,ih hrest]

theorem checkBlock_ok (h : checkBlock block=.ok ()) :
    ∃ coinbase vtx, block.vtx=coinbase::vtx ∧ coinbase.isCoinBase=true ∧
      (∀ tx∈vtx, tx.isCoinBase=false) ∧ ∀ tx∈block.vtx, ∀ out∈tx.vout, 0≤out.nValue := by
  unfold checkBlock at h
  cases hvtx : block.vtx with
  | nil => rw [hvtx] at h; cases h
  | cons coinbase vtx =>
    rw [hvtx] at h
    dsimp only at h
    split_ifs at h with hmissing hmultiple hnegative
    · cases h
    · cases h
    · cases h
    · refine ⟨coinbase,vtx,rfl,?_,?_,?_⟩
      · simpa using hmissing
      · intro tx hm
        exact Bool.eq_false_of_not_eq_true (fun hc => hmultiple (any_eq_true.mpr ⟨tx,hm,hc⟩))
      · intro tx hm out hout
        by_contra hneg
        exact hnegative (any_eq_true.mpr ⟨tx,hm,any_eq_true.mpr
          ⟨out,hout,decide_eq_true (not_le.mp hneg)⟩⟩)

/-- Inputs with the coins they spend, and outputs, in the order of a block. -/
def blockEvents (nHeight : ℕ) : ℕ → CoinsView → List CTransaction → List IndexEvent
  | _,_,[] => []
  | i,view,tx::vtx =>
    txEvents i view tx++
      match connectTx nHeight view tx with
      | .ok result => blockEvents nHeight (i+1) result.2 vtx
      | .error _ => []

theorem connectBlockTxs_events {i : ℕ} (h : connectBlockTxs nHeight i view vtx=.ok connected) :
    connected.events=blockEvents nHeight i view vtx := by
  induction vtx generalizing i view connected with
  | nil =>
    cases h
    rfl
  | cons tx vtx ih =>
    obtain ⟨result,rest,hres,hrest,rfl⟩ := connectBlockTxs_cons h
    rw [blockEvents,hres,ih hrest]

theorem disconnectBlock_ok {hash160 : List UInt8 → ℕ} {flags : IndexFlags} (hpos : 0<nHeight)
    {db : CBlockTreeDB} (hview : ProperCoins view)
    {connected : ConnectedBlock}
    (hconnect : connectBlock hash160 flags nHeight db view block=.ok connected) :
    ∃ disconnected, disconnectBlock hash160 flags nHeight connected block=some disconnected ∧
      disconnected.db=undoIndexes hash160 flags nHeight (writeIndexes hash160 flags nHeight db block
        (blockEvents nHeight 0 view block.vtx)) (blockEvents nHeight 0 view block.vtx).reverse := by
  obtain ⟨txs,hcheck,htxs,rfl⟩ := connectBlock_inv hconnect
  rw [← connectBlockTxs_events htxs]
  have hlen := length_connectBlockTxs htxs
  obtain ⟨coinbase,vtx,hvtx,hbase,hothers,houts⟩ := checkBlock_ok hcheck
  rw [hvtx] at htxs houts hlen
  obtain ⟨result,rest,hres,hrest,rfl⟩ := connectBlockTxs_cons htxs
  obtain ⟨middle,hmid,hevents⟩ := disconnectTxs_ok hpos Nat.one_pos hothers
    (fun tx hm => houts tx (mem_cons_of_mem _ hm))
    (properCoins_connectTx hpos hview (houts coinbase mem_cons_self) hres) hrest
    (show (rest.vtxundo.drop (1-1))=rest.vtxundo from rfl) { view := rest.view }
  have hspends : spendEvents 0 view coinbase=[] := by
    rw [spendEvents,spentInputs,hbase,if_pos rfl,zipIdx_nil,map_nil]
  unfold disconnectBlock
  rw [drop_one,tail_cons,if_neg (by rw [hvtx]; exact not_not.mpr hlen),hvtx,
    zipIdx_cons,reverse_cons,foldlM_append,Nat.zero_add,hmid]
  refine ⟨_,rfl,?_⟩
  rw [removeOutputs_events,hevents,txEvents,hspends,nil_append,reverse_append,nil_append]

end Pyrk.BlockIndexUndo
