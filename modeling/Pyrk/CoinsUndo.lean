import Pyrk.ConnectBlock

/-!
# Coins after a block is taken back

Each transaction loses its outputs and gives its inputs back, in reverse order. Commitments that
connecting does not look at before the deployment are looked at here.
-/

namespace Pyrk.CoinsUndo

open Transaction Script ProviderTx MinedCommitments OrderedMap List MinedCommitments Option
open ListManager (CDeterministicMNManager tipHash)
open MinableCommitments UndoData ConnectBlock
open Coins (CoinsView haveInputs spentInputs spendInputs Creates)

/-- Coins as connecting creates them. -/
structure StoredCoin (entry : Coin) : Prop where
  height_pos : 0 < entry.nHeight
  height_lt : entry.nHeight < 2^30
  value : 0≤entry.out.nValue
  spendable : isUnspendable entry.out.scriptPubKey=false

/-- All coins are as connecting creates them. -/
def StoredCoins (coins : CoinsView) : Prop :=
  ∀ outpoint entry, coins.find outpoint=some entry → StoredCoin entry

def StoredCommitments (processor : CQuorumBlockProcessor) : Prop :=
  ∀ key hash, processor.minableCommitmentsByQuorum.find key=some hash →
    processor.minableCommitments.contains hash=true

/-- What holds of the state of a node between two blocks. -/
structure WellFormed (st : ChainState) : Prop where
  coins : StoredCoins st.view.coins
  height_pos : 0 < st.quorum.chain.length
  height_lt : st.quorum.chain.length < 2^30
  processor : StoredCommitments st.quorum.processor

section Outputs

variable {hash : Uint256} {fCoinbase : Bool} {nHeight : ℕ}

theorem addOutputs_set (base : CoinsView) {key : COutPoint} (entry : Coin) (outs : List CTxOut)
    (n : ℕ) (hkey : ∀ k, key≠⟨hash,n+k⟩) :
    Coins.addOutputs hash fCoinbase nHeight (base.set key entry) n outs=
      (Coins.addOutputs hash fCoinbase nHeight base n outs).set key entry := by
  induction outs generalizing base n with
  | nil => rfl
  | cons out tail ih =>
    have hlater : ∀ k, key≠⟨hash,n+1+k⟩ := by
      intro k
      have hne := hkey (1+k)
      rwa [← Nat.add_assoc] at hne
    rw [Coins.addOutputs,Coins.addOutputs,Coins.addCoin,Coins.addCoin]
    split_ifs
    · exact ih base (n+1) hlater
    · have hne : key≠⟨hash,n⟩ := hkey 0
      rw [set_comm base hne,ih _ (n+1) hlater]

theorem find_addOutputs_of_ne (base : CoinsView) {key : COutPoint} (outs : List CTxOut) (n : ℕ)
    (hkey : ∀ k, key≠⟨hash,n+k⟩) :
    (Coins.addOutputs hash fCoinbase nHeight base n outs).find key=base.find key := by
  induction outs generalizing base n with
  | nil => rfl
  | cons out tail ih =>
    have hlater : ∀ k, key≠⟨hash,n+1+k⟩ := by
      intro k
      have hne := hkey (1+k)
      rwa [← Nat.add_assoc] at hne
    rw [Coins.addOutputs,ih _ (n+1) hlater,Coins.addCoin]
    split_ifs
    · rfl
    · exact find_set_of_ne _ _ (hkey 0)

theorem outpoint_ne (hash : Uint256) (n k : ℕ) : (⟨hash,n⟩ : COutPoint)≠⟨hash,n+1+k⟩ := by
  intro he
  have hn := congrArg COutPoint.n he
  dsimp only at hn
  omega

theorem removeOutputs_ok (tx : CTransaction) (base : CoinsView) (fClean : Bool)
    (outs : List CTxOut) (n : ℕ)
    (hfree : ∀ k out, outs[k]?=some out → isUnspendable out.scriptPubKey=false →
      base.find ⟨tx.hash,n+k⟩=none) :
    (outs.zipIdx n).foldl (removeOutput nHeight tx)
        ⟨fClean,Coins.addOutputs tx.hash tx.isCoinBase nHeight base n outs⟩=⟨fClean,base⟩ := by
  induction outs generalizing base n with
  | nil => rfl
  | cons out tail ih =>
    have hlater : ∀ k found, tail[k]?=some found → isUnspendable found.scriptPubKey=false →
        base.find ⟨tx.hash,n+1+k⟩=none := by
      intro k found hget hscript
      have hnone := hfree (k+1) found hget hscript
      rwa [← Nat.add_assoc,Nat.add_right_comm] at hnone
    have hrest := ih base (n+1) hlater
    rw [zipIdx_cons,foldl_cons,Coins.addOutputs,Coins.addCoin]
    unfold removeOutput
    cases hscript : isUnspendable out.scriptPubKey with
    | true =>
      rw [if_pos rfl,if_pos rfl]
      exact hrest
    | false =>
      have hplace := hfree 0 out rfl hscript
      rw [Nat.add_zero] at hplace
      have hnone : (Coins.addOutputs tx.hash tx.isCoinBase nHeight base (n+1) tail).find
          ⟨tx.hash,n⟩=none := by
        rw [find_addOutputs_of_ne base tail (n+1) (outpoint_ne tx.hash n)]
        exact hplace
      have hspend : Coins.spendCoin (Coins.addOutputs tx.hash tx.isCoinBase nHeight
          (base.set ⟨tx.hash,n⟩ ⟨out,tx.isCoinBase,nHeight⟩) (n+1) tail) ⟨tx.hash,n⟩=
          some (⟨out,tx.isCoinBase,nHeight⟩,
            Coins.addOutputs tx.hash tx.isCoinBase nHeight base (n+1) tail) := by
        rw [addOutputs_set base _ tail (n+1) (outpoint_ne tx.hash n),Coins.spendCoin,
          find_set_self,map_some,erase_set _ hnone]
      rw [if_neg Bool.false_ne_true,if_neg Bool.false_ne_true,hspend]
      dsimp only
      rw [decide_eq_true ⟨rfl,rfl,rfl⟩,Bool.and_true]
      exact hrest

end Outputs

theorem applyTxInUndo_ok {coins : CoinsView} {out : COutPoint} {entry : Coin}
    (hfind : coins.find out=some entry) (hentry : StoredCoin entry) (fClean : Bool) :
    applyTxInUndo entry ⟨fClean,coins.erase out⟩ out=.ok ⟨fClean,coins⟩ := by
  have hgone : (coins.erase out).contains out=false := by
    rw [OrderedMap.contains,find_erase_self]
    rfl
  have hunspent : entry.isSpent=false := by
    have hvalue := hentry.value
    rw [Coin.isSpent,CTxOut.isNull,decide_eq_false_iff_not]
    omega
  have hadd : addCoin ⟨coins.erase out,[out],0⟩ out entry entry.fCoinBase=
      .ok ⟨coins,[out,out],0⟩ := by
    unfold addCoin
    rw [hunspent,if_neg Bool.false_ne_true,hentry.spendable,if_neg Bool.false_ne_true,hgone,
      Bool.and_false,if_neg Bool.false_ne_true,set_erase hfind]
  unfold applyTxInUndo
  dsimp only
  rw [hgone,if_neg (Nat.ne_of_gt hentry.height_pos)]
  rw [ok_bind,hadd,Bool.not_false,Bool.and_true]

theorem restoreInputs_ok {inputs : List CTxIn} {coins next : CoinsView} {undo : List Coin}
    (hstored : StoredCoins coins) (hspent : spendInputs coins inputs=.ok (undo,next))
    (fClean : Bool) :
    (inputs.zip undo).reverse.foldlM (fun st (input : CTxIn×Coin) =>
      applyTxInUndo input.2 st input.1.prevout) ⟨fClean,next⟩=.ok ⟨fClean,coins⟩ := by
  induction inputs generalizing coins undo with
  | nil =>
    cases hspent
    rfl
  | cons input inputs ih =>
    unfold spendInputs at hspent
    cases hspend : Coins.spendCoin coins input.prevout with
    | none => rw [hspend] at hspent; cases hspent
    | some spent =>
      rw [hspend] at hspent
      obtain ⟨rest,hrest,hspent⟩ := bind_eq_ok.mp hspent
      cases hspent
      obtain ⟨entry,hfind,rfl⟩ := map_eq_some_iff.mp hspend
      have hlater : StoredCoins (coins.erase input.prevout) := by
        intro outpoint found hfound
        rw [find_erase] at hfound
        split_ifs at hfound
        exact hstored outpoint found hfound
      have hundo := ih hlater hrest
      rw [zip_cons_cons,reverse_cons,foldlM_append,hundo]
      change [(input,entry)].foldlM (fun st (input : CTxIn×Coin) =>
        applyTxInUndo input.2 st input.1.prevout) ⟨fClean,coins.erase input.prevout⟩=_
      rw [foldlM_cons,applyTxInUndo_ok hfind (hstored _ _ hfind)]
      rfl

section Transactions

variable {node : Node} {nHeight : ℕ}

variable {tx : CTransaction} {view next : ViewCache} {undo : List Coin}

theorem applied_halves (h : Applied nHeight tx view undo next) :
    ∃ spent, spendInputs view.coins (spentInputs tx)=.ok (undo,spent) ∧
      next.coins=Coins.addOutputs tx.hash tx.isCoinBase nHeight spent 0 tx.vout := by
  have hcoins := h.coins
  obtain ⟨spent,hspent,hcoins⟩ := bind_eq_ok.mp hcoins
  obtain ⟨hundo,hnext⟩ := Prod.mk.inj (Except.ok.inj hcoins)
  refine ⟨spent.2,?_,hnext.symm⟩
  rw [hspent,← hundo]

theorem disconnectTx_ok {i : ℕ}
    (h : Applied nHeight tx view undo next) (hstored : StoredCoins view.coins)
    (hfree : ∀ outpoint, Creates tx outpoint → view.coins.contains outpoint=true →
      outpoint∈(spentInputs tx).map CTxIn.prevout)
    (hbase : tx.isCoinBase=decide (i=0)) {vtxundo : List (List Coin)}
    (hundo : 0 < i → vtxundo[i-1]?=some undo) (fClean : Bool) :
    disconnectTx nHeight vtxundo ⟨fClean,next.coins⟩ (tx,i)=.ok ⟨fClean,view.coins⟩ := by
  obtain ⟨spent,hspent,hnext⟩ := applied_halves h
  have hplaces : ∀ k out, tx.vout[k]?=some out → isUnspendable out.scriptPubKey=false →
      spent.find ⟨tx.hash,0+k⟩=none := by
    intro k out hout hscript
    have hcreates : Creates tx ⟨tx.hash,k⟩ := ⟨k,out,hout,hscript,rfl⟩
    rw [Nat.zero_add,Coins.spendInputs_find hspent]
    split_ifs with hm
    · rfl
    · refine (contains_eq_false _ _).mp ?_
      exact Bool.eq_false_of_not_eq_true (fun hthere => hm (hfree _ hcreates hthere))
  unfold disconnectTx
  dsimp only
  rw [hnext,removeOutputs_ok tx spent fClean tx.vout 0 hplaces]
  by_cases hi : i=0
  · rw [if_pos hi]
    rw [spentInputs,hbase,decide_eq_true hi,if_pos rfl] at hspent
    cases hspent
    rfl
  · have hinputs : spentInputs tx=tx.vin := by
      rw [spentInputs,hbase,decide_eq_false hi,if_neg Bool.false_ne_true]
    rw [hinputs] at hspent
    have hlen : undo.length=tx.vin.length := by
      simpa only [length_map] using congrArg length (Coins.spendInputs_undo hspent)
    rw [if_neg hi,hundo (Nat.pos_of_ne_zero hi)]
    dsimp only
    rw [if_neg (not_not.mpr hlen)]
    exact restoreInputs_ok hstored hspent fClean

theorem StoredCoins.applied
    (hstored : StoredCoins view.coins) (hpos : 0 < nHeight) (hlt : nHeight < 2^30)
    (hchk : TxChecked node tx) (h : Applied nHeight tx view undo next) :
    StoredCoins next.coins := by
  intro outpoint entry hfind
  rcases Coins.updateCoins_find h.coins hfind with hold | ⟨k,out,hout,hscript,-,rfl⟩
  · exact hstored outpoint entry hold
  · have hrange := (moneyRange_iff _).mp (hchk.range out (mem_of_getElem? hout))
    exact ⟨hpos,hlt,hrange.1,hscript⟩

/-- Unspent coins were there from the start, or the cache has an entry for them. -/
def CachedSince (start : CoinsView) (view : ViewCache) : Prop :=
  ∀ outpoint, view.coins.contains outpoint=true →
    start.contains outpoint=true ∨ outpoint∈view.cacheCoins

theorem CachedSince.applied {start : CoinsView}
    (hcached : CachedSince start view) (h : Applied nHeight tx view undo next) :
    CachedSince start next := by
  intro outpoint hthere
  rcases (Coins.updateCoins_contains h.coins outpoint).mp hthere with ⟨hold,-⟩ | hcreates
  · rcases hcached outpoint hold with hstart | hm
    · exact .inl hstart
    · exact .inr ((h.cacheCoins outpoint).mpr (.inl hm))
  · exact .inr ((h.cacheCoins outpoint).mpr (.inr (.inr hcreates)))

theorem undoCoins_applied {i : ℕ} {st next : LoopState}
    (hbase : tx.isCoinBase=false) (hchk : TxChecked node tx)
    (hstored : StoredCoins st.view.coins) (h : TxConnected nHeight i st tx undo next) :
    undo.length ≤ maxInputsPerBlock ∧ ∀ entry∈undo, UndoCoin entry := by
  have hinputs : spentInputs tx=tx.vin := by
    rw [spentInputs,hbase,if_neg Bool.false_ne_true]
  have hmaxScript : maxScriptSize=10000 := rfl
  obtain ⟨spent,hspent,-⟩ := applied_halves h.applied
  rw [hinputs] at hspent
  have hundo := Coins.spendInputs_undo hspent
  have hlen : undo.length=tx.vin.length := by
    simpa only [length_map] using congrArg length hundo
  have hfees := addFees_ok hbase hchk h.fees
  constructor
  · have hbytes := @inputs_le_txSize node tx
    have hsize := hchk.size
    have hmax : maxInputsPerBlock=48780 := by decide
    have hlegacy : maxLegacyBlockSize=1000000 := rfl
    omega
  · intro entry hm
    have hsome : some entry∈undo.map some := mem_map_of_mem hm
    rw [hundo] at hsome
    obtain ⟨input,hinput,hfind⟩ := mem_map.mp hsome
    obtain ⟨found,hfound,hrange⟩ := hfees.range input hinput
    have hsame : found=entry := some.inj (hfound.symm.trans hfind)
    rw [hsame] at hrange
    have hentry := hstored _ _ hfind
    refine ⟨hentry.height_pos,hentry.height_lt,hrange,?_⟩
    have hspendable := hentry.spendable
    unfold isUnspendable at hspendable
    rw [Bool.or_eq_false_iff,decide_eq_false_iff_not] at hspendable
    omega

theorem disconnectTxs_ok {block : CBlock} {start : CoinsView} (hpos : 0 < nHeight)
    (hlt : nHeight < 2^30) {vtx : List CTransaction} {i : ℕ} (hi : 0 < i) {st final : LoopState}
    (hothers : ∀ tx∈vtx, tx.isCoinBase=false) (hchk : ∀ tx∈vtx, TxChecked node tx)
    (hapart : ∀ tx∈vtx, ∀ outpoint, Creates tx outpoint → start.contains outpoint=false)
    (hcached : CachedSince start st.view) (hstored : StoredCoins st.view.coins)
    (h : connectTxs node block nHeight i st vtx=.ok final) :
    ∃ undos, final.vtxundo=st.vtxundo++undos ∧ undos.length=vtx.length ∧
      (∀ undo∈undos, undo.length ≤ maxInputsPerBlock ∧ ∀ entry∈undo, UndoCoin entry) ∧
      ∀ vtxundo : List (List Coin), vtxundo.drop (i-1)=undos → ∀ fClean,
        (vtx.zipIdx i).reverse.foldlM (disconnectTx nHeight vtxundo) ⟨fClean,final.view.coins⟩=
          .ok ⟨fClean,st.view.coins⟩ := by
  induction vtx generalizing i st with
  | nil =>
    cases h
    refine ⟨[],(append_nil _).symm,rfl,fun undo hm => absurd hm not_mem_nil,?_⟩
    intro vtxundo _ fClean
    rfl
  | cons tx vtx ih =>
    obtain ⟨undo,next,hconn,hrest⟩ := connectTxs_cons h
    have hbase := hothers tx mem_cons_self
    have hfree : ∀ outpoint, Creates tx outpoint → st.view.coins.contains outpoint=true →
        outpoint∈(spentInputs tx).map CTxIn.prevout := by
      intro outpoint hcreates hthere
      rcases hcached outpoint hthere with hstart | hm
      · rw [hapart tx mem_cons_self outpoint hcreates] at hstart
        cases hstart
      · exact hconn.applied.fresh hbase outpoint hcreates hm hthere
    obtain ⟨undos,hvtxundo,hlen,hcoins,hback⟩ := ih (Nat.succ_pos i)
      (fun other hm => hothers other (mem_cons_of_mem _ hm))
      (fun other hm => hchk other (mem_cons_of_mem _ hm))
      (fun other hm => hapart other (mem_cons_of_mem _ hm))
      (hcached.applied hconn.applied)
      (hstored.applied hpos hlt (hchk tx mem_cons_self) hconn.applied) hrest
    have hkept := hconn.vtxundo
    rw [if_neg (Nat.ne_of_gt hi)] at hkept
    refine ⟨undo::undos,?_,?_,?_,?_⟩
    · rw [hvtxundo,hkept,append_assoc,singleton_append]
    · rw [length_cons,length_cons,hlen]
    · exact forall_mem_cons.mpr
        ⟨undoCoins_applied hbase (hchk tx mem_cons_self) hstored hconn,hcoins⟩
    · intro vtxundo hdrop fClean
      have hlookup : vtxundo[i-1]?=some undo := by
        have hhead := congrArg head? hdrop
        rwa [head?_drop] at hhead
      have hlater : vtxundo.drop (i+1-1)=undos := by
        have htail := congrArg tail hdrop
        rwa [tail_drop,Nat.sub_add_cancel hi] at htail
      have htx := disconnectTx_ok hconn.applied hstored hfree
        (hbase.trans (decide_eq_false (Nat.ne_of_gt hi)).symm) (fun _ => hlookup) fClean
      rw [zipIdx_cons,reverse_cons,foldlM_append,hback vtxundo hlater fClean]
      change [(tx,i)].foldlM (disconnectTx nHeight vtxundo) ⟨fClean,next.view.coins⟩=_
      rw [foldlM_cons,htx]
      rfl

end Transactions

section Commitments

variable {ctx : QuorumContext}

theorem StoredCommitments.addMinableCommitment {serializeHash : CFinalCommitment → Uint256}
    {processor : CQuorumBlockProcessor} (h : StoredCommitments processor) (fqc : CFinalCommitment) :
    ∃ result, addMinableCommitment serializeHash processor fqc=some result ∧
      StoredCommitments result.1 := by
  have hstored : ∀ map : OrderedMap Uint256 CFinalCommitment, ∀ hash,
      hash=serializeHash fqc ∨ map.contains hash=true →
        (map.emplace (serializeHash fqc) fqc).contains hash=true := by
    intro map hash hhash
    rw [OrderedMap.contains,find_emplace]
    split_ifs with he
    · rfl
    · exact hhash.resolve_left he
  unfold MinableCommitments.addMinableCommitment
  cases hold : processor.minableCommitmentsByQuorum.find (quorumKey fqc) with
  | none =>
    refine ⟨_,rfl,fun key hash hfind => hstored _ _ ?_⟩
    rw [find_set] at hfind
    split_ifs at hfind with he
    · exact .inl (some.inj hfind).symm
    · exact .inr (h key hash hfind)
  | some oldHash =>
    obtain ⟨oldFqc,holdFqc⟩ := (contains_iff _ _).mp (h _ _ hold)
    dsimp only
    rw [holdFqc]
    dsimp only
    split_ifs with hmore
    · refine ⟨_,rfl,fun key hash hfind => hstored _ _ ?_⟩
      rw [find_set] at hfind
      split_ifs at hfind with he
      · exact .inl (some.inj hfind).symm
      · by_cases hhash : hash=serializeHash fqc
        · exact .inl hhash
        · refine .inr ?_
          have hthere := h key hash hfind
          rwa [OrderedMap.contains,find_erase_of_ne _ hhash]
    · exact ⟨_,rfl,h⟩

theorem undoCommitments_ok {qcs : List CFinalCommitment} {st : QuorumState}
    (h : StoredCommitments st.processor) :
    ∃ final, qcs.foldlM (undoCommitment ctx) st=.ok final ∧
      StoredCommitments final.processor := by
  induction qcs generalizing st with
  | nil => exact ⟨st,rfl,h⟩
  | cons qc qcs ih =>
    rw [foldlM_cons]
    unfold undoCommitment
    split_ifs with hnull
    · exact ih h
    · obtain ⟨result,hres,hstored⟩ :=
        @StoredCommitments.addMinableCommitment ctx.serializeHash _ h qc
      rw [hres]
      exact ih hstored

variable {chain : List CBlock} {qcs : OrderedMap ℕ CFinalCommitment}

theorem undoBlock_ok {st : QuorumState} {block : CBlock}
    (hchain : st.chain=chain++[block]) (h : StoredCommitments st.processor)
    (hqcs : getCommitmentsFromBlock ctx chain block=.ok qcs) :
    ∃ final, undoBlock ctx st=.ok final ∧ StoredCommitments final.processor := by
  unfold undoBlock
  rw [hchain,getLast?_concat]
  dsimp only
  rw [dropLast_concat,hqcs]
  exact undoCommitments_ok h

theorem undoBlock_inv {st final : QuorumState} {block : CBlock}
    (hchain : st.chain=chain++[block])
    (h : undoBlock ctx st=.ok final) :
    ∃ qcs, getCommitmentsFromBlock ctx chain block=.ok qcs := by
  unfold undoBlock at h
  rw [hchain,getLast?_concat] at h
  rw [dropLast_concat] at h
  obtain ⟨qcs,hqcs,-⟩ := bind_eq_ok.mp h
  exact ⟨qcs,hqcs⟩

theorem collected_payload {block : CBlock}
    (h : getCommitmentsFromBlock ctx chain block=.ok qcs) {tx : CTransaction}
    (hm : tx∈block.vtx) (htype : tx.nType=.quorumCommitment) :
    ∃ payload, tx.getFinalCommitment=some payload := by
  obtain ⟨ret,hret,-⟩ := bind_eq_ok.mp h
  generalize (.empty : OrderedMap ℕ CFinalCommitment)=start at hret
  generalize block.vtx=vtx at hm hret
  clear h
  induction vtx generalizing start with
  | nil => exact absurd hm not_mem_nil
  | cons head vtx ih =>
    rw [foldlM_cons] at hret
    obtain ⟨next,hnext,hrest⟩ := bind_eq_ok.mp hret
    rcases mem_cons.mp hm with rfl | hm
    · unfold collectCommitment at hnext
      rw [if_pos htype] at hnext
      cases hpayload : tx.getFinalCommitment with
      | none => rw [hpayload] at hnext; cases hnext
      | some payload => exact ⟨payload,rfl⟩
    · exact ih next hm hrest

theorem getCommitmentsFromBlock_none {block : CBlock}
    (hnone : ∀ tx∈block.vtx, tx.nType≠.quorumCommitment) :
    getCommitmentsFromBlock ctx chain block=.ok .empty := by
  have hfold : ∀ vtx : List CTransaction, (∀ tx∈vtx, tx.nType≠.quorumCommitment) →
      vtx.foldlM collectCommitment .empty=.ok .empty := by
    intro vtx hvtx
    induction vtx with
    | nil => rfl
    | cons tx vtx ih =>
      rw [foldlM_cons,collectCommitment,if_neg (hvtx tx mem_cons_self)]
      exact ih (fun other hm => hvtx other (mem_cons_of_mem _ hm))
  unfold getCommitmentsFromBlock
  rw [hfold block.vtx hnone]
  change (if !ctx.dip3Active chain && !true then _ else _)=_
  rw [Bool.not_true,Bool.and_false,if_neg Bool.false_ne_true]

end Commitments

section Blocks

variable {node : Node} {st : ChainState} {block : CBlock}

theorem processSpecialTxsInBlock_ok
    {result : OrderedMap QuorumKey CFinalCommitment×CDeterministicMNManager}
    (h : processSpecialTxsInBlock node st block=.ok result) :
    ∃ view : ChainView, view.chain=st.quorum.chain ∧
      (∀ tx∈block.vtx, checkSpecialTx node.ctx view tx=.ok ()) ∧
      processBlock (quorumContext node.ctx view.getListForBlock)
        st.quorum.chain st.quorum.minedCommitments block=.ok result.1 ∧
      checkCbTxMerkleRootMNList node block=.ok () := by
  obtain ⟨mgr,-,h⟩ := bind_eq_ok.mp h
  obtain ⟨⟨⟩,hchecks,h⟩ := bind_eq_ok.mp h
  obtain ⟨mined,hmined,h⟩ := bind_eq_ok.mp h
  obtain ⟨final,-,h⟩ := bind_eq_ok.mp h
  obtain ⟨⟨⟩,hroot,h⟩ := bind_eq_ok.mp h
  cases h
  exact ⟨_,rfl,forM_eq_ok hchecks,hmined,hroot⟩

theorem checkSpecialTx_special {ctx : NodeContext} {view : ChainView} {tx : CTransaction}
    (h : checkSpecialTx ctx view tx=.ok ()) (hver : tx.nVersion=3) (htype : tx.nType≠.normal) :
    ctx.dip3Active view.chain=true ∧ TxType.known tx.nType=true := by
  unfold checkSpecialTx at h
  rw [if_neg (not_or.mpr ⟨not_not.mpr hver,htype⟩)] at h
  cases hact : ctx.dip3Active view.chain with
  | false => rw [hact,Bool.not_false,if_pos rfl] at h; cases h
  | true =>
    rw [hact,Bool.not_true,if_neg Bool.false_ne_true] at h
    refine ⟨rfl,?_⟩
    cases hkind : tx.nType with
    | unknown nType => rw [hkind] at h; cases h
    | _ => rfl

theorem undoSpecialTx_ok {ctx : NodeContext} {view : ChainView} {tx : CTransaction}
    (h : checkSpecialTx ctx view tx=.ok ()) : undoSpecialTx tx=true := by
  unfold undoSpecialTx
  split_ifs with hplain
  · rfl
  · rw [not_or,not_not] at hplain
    exact (checkSpecialTx_special h hplain.1 hplain.2).2

variable {phashBlock : Option Uint256} {connected : ConnectedBlock}

/-- When a connected block can be undone as far as special transactions go. -/
theorem undoSpecialTxsInBlock_iff (hstate : WellFormed st)
    (hconnect : connectBlock node st block phashBlock=.ok connected) :
    (∃ special, undoSpecialTxsInBlock node connected.st block=.ok special) ↔
      (node.ctx.dip3Active st.quorum.chain=true ∨
        ∀ tx∈block.vtx, tx.nType≠.quorumCommitment) := by
  obtain ⟨coinbase,vtx,txs,hblock⟩ := connectBlock_ok hconnect
  obtain ⟨view,hview,hchecks,hmined,-⟩ := processSpecialTxsInBlock_ok hblock.special
  have hall : block.vtx.all undoSpecialTx=true :=
    all_eq_true.mpr (fun tx hm => undoSpecialTx_ok (hchecks tx hm))
  have hprocessor : StoredCommitments connected.st.quorum.processor := by
    rw [hblock.processor]
    exact hstate.processor
  unfold undoSpecialTxsInBlock
  rw [hall,Bool.not_true,if_neg Bool.false_ne_true]
  dsimp only
  constructor
  · rintro ⟨special,hspecial⟩
    cases hact : node.ctx.dip3Active st.quorum.chain with
    | true => exact .inl rfl
    | false =>
      refine .inr (fun tx hm htype => ?_)
      cases hundo : undoBlock (quorumContext node.ctx
          (connected.st.mgr.answers node.ctx.serializeHash)) connected.st.quorum with
      | error reason =>
        rw [hundo] at hspecial
        cases reason <;> cases hspecial
      | ok final =>
        obtain ⟨qcs,hqcs⟩ := undoBlock_inv hblock.chain hundo
        obtain ⟨payload,hpayload⟩ := collected_payload hqcs hm htype
        have hver := CTransaction.getFinalCommitment_version hpayload
        have hspecialType : tx.nType≠.normal := by
          rw [htype]
          decide
        have hdip3 := (checkSpecialTx_special (hchecks tx hm) hver hspecialType).1
        rw [hview,hact] at hdip3
        cases hdip3
  · intro hcond
    have hcollected : ∃ qcs, getCommitmentsFromBlock (quorumContext node.ctx
        (connected.st.mgr.answers node.ctx.serializeHash)) st.quorum.chain block=
        .ok qcs := by
      rcases hcond with hact | hnone
      · unfold processBlock at hmined
        change (if !node.ctx.dip3Active st.quorum.chain then _ else _)=_ at hmined
        rw [hact,Bool.not_true,if_neg Bool.false_ne_true] at hmined
        obtain ⟨qcs,hqcs,-⟩ := bind_eq_ok.mp hmined
        exact ⟨qcs,hqcs⟩
      · exact ⟨_,getCommitmentsFromBlock_none hnone⟩
    obtain ⟨qcs,hqcs⟩ := hcollected
    obtain ⟨final,hfinal,-⟩ := undoBlock_ok hblock.chain hprocessor hqcs
    rw [hfinal]
    exact ⟨_,rfl⟩

theorem apart_of_overwritesCoins {coins : CoinsView} (h : overwritesCoins coins block=false) :
    ∀ tx∈block.vtx, ∀ outpoint, Creates tx outpoint → coins.contains outpoint=false := by
  rintro tx hm outpoint ⟨k,out,hout,-,rfl⟩
  have hlt := (List.getElem?_eq_some_iff.mp hout).1
  unfold overwritesCoins at h
  grind

/-- The undo data of a connected block can be read, and its transactions can be
taken back. -/
theorem disconnectCoins_ok {coinbase : CTransaction} {vtx : List CTransaction} {txs : LoopState}
    (hpos : 0 < st.quorum.chain.length)
    (hlt : st.quorum.chain.length < 2^30) (hstored : StoredCoins st.view.coins)
    (hblock : BlockConnected node st block coinbase vtx txs connected)
    (hfree : overwritesCoins st.view.coins block=false) :
    undoReadFromDisk node.keys node.hasher connected.undoFile (tipHash st.quorum.chain)=
        some txs.vtxundo ∧ txs.vtxundo.length+1=block.vtx.length ∧
      block.vtx.zipIdx.reverse.foldlM (disconnectTx st.quorum.chain.length txs.vtxundo)
        { coins := connected.st.view.coins }=.ok { coins := st.view.coins } := by
  have hchk := hblock.checked
  have hapart := apart_of_overwritesCoins hfree
  have hvtx := hchk.vtx_eq
  obtain ⟨undo,next,hfirst,hrest⟩ := connectTxs_cons hblock.loop
  have hcached : CachedSince st.view.coins st.view := fun _ hthere => .inl hthere
  have hbase : coinbase∈block.vtx := by
    rw [hvtx]
    exact mem_cons_self
  have hothers : ∀ tx∈vtx, tx∈block.vtx := by
    intro tx hm
    rw [hvtx]
    exact mem_cons_of_mem _ hm
  obtain ⟨undos,hundos,hlen,hcoins,hback⟩ := disconnectTxs_ok hpos hlt
    Nat.one_pos hchk.others (fun tx hm => hchk.txs tx (hothers tx hm))
    (fun tx hm => hapart tx (hothers tx hm)) (hcached.applied hfirst.applied)
    (hstored.applied hpos hlt (hchk.txs coinbase hbase) hfirst.applied) hrest
  have hnone := hfirst.vtxundo
  rw [if_pos rfl] at hnone
  rw [hnone,nil_append] at hundos
  have hcount : txs.vtxundo.length+1=block.vtx.length := by
    rw [hundos,hvtx,length_cons,hlen]
  refine ⟨?_,hcount,?_⟩
  · rw [hblock.undoFile]
    have hmax : maxBlockSize ≤ maxSize := by decide
    have hbound := hchk.count
    refine undoReadFromDisk_written (by omega) ?_ ?_ _
    · intro vprevout hm
      rw [hundos] at hm
      exact (hcoins vprevout hm).1
    · intro vprevout hm
      rw [hundos] at hm
      exact (hcoins vprevout hm).2
  · have hplaces : ∀ outpoint, Creates coinbase outpoint → st.view.coins.contains outpoint=true →
        outpoint∈(spentInputs coinbase).map CTxIn.prevout := by
      grind
    have hfirstBack : disconnectTx st.quorum.chain.length txs.vtxundo ⟨true,next.view.coins⟩
        (coinbase,0)=.ok ⟨true,st.view.coins⟩ :=
      disconnectTx_ok hfirst.applied hstored hplaces (hchk.coinbase.trans (by decide))
        (fun hpos => absurd hpos (Nat.lt_irrefl 0)) true
    rw [hblock.coins,hvtx,zipIdx_cons,reverse_cons,foldlM_append,hback txs.vtxundo hundos true]
    change [(coinbase,0)].foldlM (disconnectTx st.quorum.chain.length txs.vtxundo)
      ⟨true,next.view.coins⟩=_
    rw [foldlM_cons,hfirstBack]
    rfl

section

variable (hstate : WellFormed st) (hconnect : connectBlock node st block phashBlock=.ok connected)
variable (hfree : overwritesCoins st.view.coins block=false)

include hstate hconnect hfree

theorem disconnectBlock_ok (undone : ChainState) :
    disconnectBlock node connected.st connected.undoFile=.ok (.ok,undone) ↔
      ∃ special, undoSpecialTxsInBlock node connected.st block=.ok special ∧
        undone=⟨special.1,special.2,
          { coins := st.view.coins, hashBlock := tipHash st.quorum.chain }⟩ := by
  obtain ⟨coinbase,vtx,txs,hblock⟩ := connectBlock_ok hconnect
  obtain ⟨hread,hcount,hcoins⟩ := disconnectCoins_ok hstate.height_pos hstate.height_lt
    hstate.coins hblock hfree
  unfold disconnectBlock undoLastBlock
  rw [hblock.chain,getLast?_concat]
  dsimp only
  rw [dropLast_concat,hblock.hashBlock,if_neg (not_not.mpr rfl),hread]
  dsimp only
  rw [if_neg (not_not.mpr hcount)]
  cases hspecial : undoSpecialTxsInBlock node connected.st block with
  | error reason =>
    constructor
    · intro hundone
      cases reason <;> cases hundone
    · rintro ⟨special,hfalse,-⟩
      cases hfalse
  | ok special =>
    rw [ok_bind,hcoins,ok_bind]
    grind

theorem restored_iff_special :
    (∃ undone, disconnectBlock node connected.st connected.undoFile=.ok (.ok,undone) ∧
        undone.view.coins=st.view.coins ∧ undone.view.hashBlock=tipHash st.quorum.chain) ↔
      ∃ special, undoSpecialTxsInBlock node connected.st block=.ok special := by
  constructor
  · rintro ⟨undone,hundone,-⟩
    obtain ⟨special,hspecial,-⟩ := (disconnectBlock_ok hstate hconnect hfree undone).mp hundone
    exact ⟨special,hspecial⟩
  · rintro ⟨special,hspecial⟩
    exact ⟨_,(disconnectBlock_ok hstate hconnect hfree _).mpr ⟨special,hspecial,rfl⟩,rfl,rfl⟩

end

end Blocks

/-- A block that was just connected can be taken back, which restores coins and best block, exactly
when its commitments can be read again: the deployment is active, or there are none. -/
theorem disconnectBlock_restores_iff {node : Node} {st : ChainState} {block : CBlock}
    {phashBlock : Option Uint256} {connected : ConnectedBlock} (hstate : WellFormed st)
    (hconnect : connectBlock node st block phashBlock=.ok connected)
    (hfree : overwritesCoins st.view.coins block=false) :
    (∃ undone, disconnectBlock node connected.st connected.undoFile=.ok (.ok,undone) ∧
        undone.view.coins=st.view.coins ∧ undone.view.hashBlock=tipHash st.quorum.chain) ↔
      (node.ctx.dip3Active st.quorum.chain=true ∨
        ∀ tx∈block.vtx, tx.nType≠.quorumCommitment) :=
  (restored_iff_special hstate hconnect hfree).trans (undoSpecialTxsInBlock_iff hstate hconnect)

/-- A chain of two blocks with one coin. -/
def oneCoinState : ChainState where
  quorum := { chain := [{ hash := 1 },{ hash := 2 }] }
  view := { coins := OrderedMap.empty.set ⟨100,0⟩ ⟨⟨5*coin,[0x51]⟩,false,1⟩, hashBlock := 2 }

/-- A block that spends the coin, and spends what it creates again. -/
def spendingBlock (nType : TxType) : CBlock where
  hash := 3
  vtx := [earlyCoinbase 200 [2,0],
    { vin := [{ prevout := ⟨100,0⟩ }],vout := [⟨4*coin,[0x51]⟩,⟨0,[0x6a]⟩],hash := 201,
      payload_special := CTransaction.payload_plain },
    { nType := nType,vin := [{ prevout := ⟨201,0⟩ }],vout := [⟨3*coin,[0x51]⟩],hash := 202,
      payload_special := fun _ => rfl }]

theorem wellFormed_oneCoinState : WellFormed oneCoinState := by
  refine ⟨fun outpoint entry hfind => ?_,by decide,by decide,fun key hash hfind => ?_⟩
  · change (OrderedMap.empty.set _ _).find outpoint=some entry at hfind
    rw [find_set] at hfind
    split_ifs at hfind
    · cases hfind
      exact ⟨by decide,by decide,by decide,by decide⟩
    · cases hfind
  · cases hfind

/-- An ordinary block is taken back. -/
theorem disconnectBlock_restores_ordinary :
    ∃ connected, connectBlock earlyNode oneCoinState (spendingBlock .normal)
      (some 3)=.ok connected ∧
      ∃ undone, disconnectBlock earlyNode connected.st connected.undoFile=.ok (.ok,undone) ∧
        undone.view.coins=oneCoinState.view.coins ∧ undone.view.hashBlock=2 := by
  obtain ⟨connected,hconn⟩ := exists_ok
    (show (connectBlock earlyNode oneCoinState (spendingBlock .normal)
      (some 3)).toOption.isSome=true
      by decide)
  exact ⟨connected,hconn,(@disconnectBlock_restores_iff earlyNode oneCoinState
    (spendingBlock .normal) (some 3) connected wellFormed_oneCoinState hconn (by decide)).mpr
    (.inr (by decide))⟩

/-- A commitment with an ordinary version is connected before the deployment, and its block can not
be taken back. -/
theorem disconnectBlock_fails_early_type :
    WellFormed oneCoinState ∧
      contextualCheckBlock earlyNode oneCoinState.quorum.chain (spendingBlock .quorumCommitment)=
        .ok () ∧
      overwritesCoins oneCoinState.view.coins (spendingBlock .quorumCommitment)=false ∧
      ∃ connected, connectBlock earlyNode oneCoinState (spendingBlock .quorumCommitment) (some 3)=
          .ok connected ∧
        ¬∃ undone, disconnectBlock earlyNode connected.st connected.undoFile=.ok (.ok,undone) ∧
          undone.view.coins=oneCoinState.view.coins ∧
          undone.view.hashBlock=tipHash oneCoinState.quorum.chain := by
  obtain ⟨connected,hconn⟩ := exists_ok (show (connectBlock earlyNode oneCoinState
    (spendingBlock .quorumCommitment) (some 3)).toOption.isSome=true by decide)
  refine ⟨wellFormed_oneCoinState,by decide,by decide,connected,hconn,?_⟩
  rw [restored_iff_special wellFormed_oneCoinState hconn (by decide),
    undoSpecialTxsInBlock_iff wellFormed_oneCoinState hconn]
  decide

end Pyrk.CoinsUndo
