import Pyrk.CoinsUndo

/-!
# Transactions that come a second time

Only blocks without a hash are searched for outputs that overwrite unspent coins. A coinbase or a
commitment has its height; any other transaction spends coins that are gone afterwards.
-/

namespace Pyrk.DuplicateCoins

open List

open Transaction Script ChainParams ProviderTx MinedCommitments UndoData ConnectBlock CoinsUndo
open ListManager (tipHash)
open Coins (CoinsView haveInputs spentInputs spendInputs Creates)

theorem littleEndian_scriptNumBytes (n : ℕ) : littleEndian (scriptNumBytes n)=n := by
  induction n using Nat.strong_induction_on with
  | _ n ih =>
    unfold scriptNumBytes
    split_ifs with hzero hsmall hsign
    · exact hzero.symm
    · change (UInt8.ofNat n).toNat+256*((0 : UInt8).toNat+256*0)=n
      rw [UInt8.toNat_ofNat',Nat.mod_eq_of_lt hsmall]
      rfl
    · change (UInt8.ofNat n).toNat+256*0=n
      rw [UInt8.toNat_ofNat',Nat.mod_eq_of_lt hsmall]
      omega
    · rw [littleEndian,ih (n/256) (by omega),UInt8.toNat_ofNat']
      omega

theorem length_scriptNumBytes_le (width : ℕ) {n : ℕ} (hn : n < 256^width) :
    (scriptNumBytes n).length≤width+1 := by
  induction width generalizing n with
  | zero =>
    have hzero : n=0 := by omega
    rw [hzero,scriptNumBytes,dif_pos rfl]
    exact Nat.zero_le _
  | succ width ih =>
    unfold scriptNumBytes
    split_ifs with hzero hsmall hsign
    · exact Nat.zero_le _
    · exact Nat.succ_le_succ (Nat.succ_le_succ (Nat.zero_le _))
    · exact Nat.succ_le_succ (Nat.zero_le _)
    · grind

/-- One script does not start with two heights, from the sixteenth on. -/
theorem pushInt64_unique {first second : ℕ} {script : CScript} (hfirst : 16≤first)
    (hfirstLt : first < 2^31) (hsecond : 16 ≤ second) (hsecondLt : second < 2^31)
    (hstart : pushInt64 first <+: script) (hother : pushInt64 second <+: script) :
    first=second := by
  have hpush : ∀ n, 16≤n → n < 2^31 → n=16 ∧ pushInt64 n=[0x60] ∨ (scriptNumBytes n).length≤5 ∧
        pushInt64 n=UInt8.ofNat (scriptNumBytes n).length::scriptNumBytes n := by
    intro n hle hlt
    by_cases hsixteen : n=16
    · rw [hsixteen]
      exact .inl ⟨rfl,rfl⟩
    · refine .inr ⟨length_scriptNumBytes_le 4 (by omega),?_⟩
      rw [pushInt64,if_neg (by omega),if_neg (by omega)]
  have hbyte : ∀ size : ℕ, size≤5 → UInt8.ofNat size≠0x60 := by
    intro size hsize
    interval_cases size <;> decide
  obtain ⟨tail,hscript⟩ := hstart
  obtain ⟨tail',hscript'⟩ := hother
  rw [← hscript'] at hscript
  rcases hpush first hfirst hfirstLt with ⟨hone,hp⟩ | ⟨hsize,hp⟩
  · grind
  · rcases hpush second hsecond hsecondLt with ⟨htwo,hq⟩ | ⟨hsize',hq⟩
    · rw [hp,hq] at hscript
      exact absurd (cons.inj hscript).1 (hbyte _ hsize)
    · rw [hp,hq] at hscript
      obtain ⟨hhead,hbytes⟩ := cons.inj hscript
      have hlen : (scriptNumBytes first).length=(scriptNumBytes second).length := by
        have hnat := congrArg UInt8.toNat hhead
        rw [UInt8.toNat_ofNat',UInt8.toNat_ofNat'] at hnat
        omega
      have hsame := (append_inj hbytes hlen).1
      rw [← littleEndian_scriptNumBytes first,hsame,littleEndian_scriptNumBytes]

section Places

def firstScript (tx : CTransaction) : CScript := ((tx.vin.head?).map CTxIn.scriptSig).getD []

/-- A coinbase says its height, in its payload or from the sixteenth block on in
its script. -/
def SaysHeight (nHeight : ℕ) (tx : CTransaction) : Prop :=
  match tx.getCbTx with
  | some cbTx => cbTx.nHeight=nHeight
  | none => bip34Height .main≤nHeight → pushInt64 nHeight <+: firstScript tx

/-- What is known of the transactions of a block at a height. -/
structure Placed (nHeight : ℕ) (block : CBlock) : Prop where
  /-- The block is a coinbase and other transactions. -/
  coinbase : ∃ tx vtx, block.vtx=tx::vtx ∧ (∀ other∈vtx, other.isCoinBase=false) ∧
    SaysHeight nHeight tx
  /-- A transaction of version three without inputs says its height. -/
  commitments : ∀ tx∈block.vtx, tx.vin=[] → tx.nVersion=3 →
    ∃ payload, tx.getFinalCommitment=some payload ∧ payload.nHeight=nHeight
  once : ∀ before tx after, block.vtx=before++tx::after → tx.vin=[] → tx.nVersion=3 → tx∉before

theorem getCbTx_special {tx : CTransaction} {cbTx : CCbTx} (h : tx.getCbTx=some cbTx) :
    tx.nVersion=3 ∧ tx.nType≠.normal := by
  by_contra hnot
  have hplain : tx.nVersion≠3 ∨ tx.nType=.normal := by
    rw [not_and_or,not_not] at hnot
    exact hnot
  have hempty := tx.payload_special hplain
  unfold CTransaction.getCbTx at h
  rw [hempty] at h
  cases h

theorem checkCbTx_height {view : ChainView} {tx : CTransaction} {cbTx : CCbTx}
    (hpayload : tx.getCbTx=some cbTx) (h : checkCbTx view tx=.ok ()) :
    cbTx.nHeight=view.chain.length := by
  obtain ⟨⟨⟩,-,h⟩ := bind_eq_ok.mp h
  obtain ⟨⟨⟩,-,h⟩ := bind_eq_ok.mp h
  obtain ⟨found,hfound,h⟩ := bind_eq_ok.mp h
  obtain ⟨⟨⟩,-,h⟩ := bind_eq_ok.mp h
  rw [orReject_eq_ok,hpayload] at hfound
  cases hfound
  rw [rejectIf_eq_ok,decide_eq_false_iff_not,not_not,ChainView.nHeight] at h
  omega

theorem checkLLMQCommitment_height {ctx : QuorumContext} {chain : List CBlock}
    {tx : CTransaction} (h : checkLLMQCommitment ctx chain tx=.ok ()) :
    ∃ payload, tx.getFinalCommitment=some payload ∧ payload.nHeight=chain.length := by
  unfold checkLLMQCommitment at h
  cases hpayload : tx.getFinalCommitment with
  | none => rw [hpayload] at h; cases h
  | some payload =>
    rw [hpayload] at h
    dsimp only at h
    by_cases hheight : payload.nHeight=chain.length
    · exact ⟨payload,rfl,hheight⟩
    · rw [if_pos hheight] at h
      split_ifs at h <;> cases h

variable {node : Node} {st : ChainState} {block : CBlock} {connected : ConnectedBlock}
  {coinbase : CTransaction} {vtx : List CTransaction} {txs : LoopState}

section

variable (hnetwork : node.ctx.network=.main)
variable (hcontext : contextualCheckBlock node st.quorum.chain block=.ok ())
variable (hblock : BlockConnected node st block coinbase vtx txs connected)

include hnetwork hcontext hblock

theorem saysHeight_connected :
    SaysHeight st.quorum.chain.length coinbase := by
  obtain ⟨view,hview,hchecks,-,hroot⟩ := processSpecialTxsInBlock_ok hblock.special
  have hvtx := hblock.checked.vtx_eq
  have hm : coinbase∈block.vtx := by
    rw [hvtx]
    exact mem_cons_self
  have hspecial := hchecks coinbase hm
  obtain ⟨⟨⟩,-,hcontext⟩ := bind_eq_ok.mp hcontext
  obtain ⟨⟨⟩,-,hcontext⟩ := bind_eq_ok.mp hcontext
  obtain ⟨⟨⟩,-,hcontext⟩ := bind_eq_ok.mp hcontext
  obtain ⟨⟨⟩,hscript,htype⟩ := bind_eq_ok.mp hcontext
  rw [rejectIf_eq_ok,hvtx,hnetwork] at hscript
  rw [rejectIf_eq_ok,hvtx] at htype
  unfold SaysHeight
  cases hpayload : coinbase.getCbTx with
  | some cbTx =>
    obtain ⟨hver,hkind⟩ := getCbTx_special hpayload
    have hcb : coinbase.nType=.coinbase := by
      have hact := (checkSpecialTx_special hspecial hver hkind).1
      grind
    unfold checkSpecialTx at hspecial
    rw [if_neg (not_or.mpr ⟨not_not.mpr hver,hkind⟩),hcb] at hspecial
    split_ifs at hspecial
    · cases hspecial
    · have hheight := checkCbTx_height hpayload hspecial
      rw [hview] at hheight
      exact hheight
  | none =>
    intro hle
    cases hact : node.ctx.dip3Active st.quorum.chain with
    | true =>
      rw [hact,head?_cons,Option.any_some,Bool.true_and,Bool.not_eq_false'] at htype
      unfold checkCbTxMerkleRootMNList at hroot
      rw [hvtx,head?_cons] at hroot
      dsimp only at hroot
      rw [if_neg (not_not.mpr (of_decide_eq_true htype)),hpayload] at hroot
      cases hroot
    | false =>
      rw [hact,decide_eq_true hle,Bool.not_false,Bool.true_and,Bool.true_and,
        Bool.not_eq_false', isPrefixOf_iff_prefix] at hscript
      exact hscript

theorem placed_connected :
    Placed st.quorum.chain.length block := by
  obtain ⟨view,hview,hchecks,hmined,-⟩ := processSpecialTxsInBlock_ok hblock.special
  have hcommit : ∀ tx∈block.vtx, tx.vin=[] → tx.nType=.quorumCommitment :=
    fun tx hm => (hblock.checked.txs tx hm).inputs
  have hspecial : ∀ tx∈block.vtx, tx.vin=[] → tx.nType≠.normal := by
    intro tx hm hnone
    rw [hcommit tx hm hnone]
    decide
  refine ⟨⟨coinbase,vtx,hblock.checked.vtx_eq,hblock.checked.others,
    saysHeight_connected hnetwork hcontext hblock⟩,fun tx hm hnone hver => ?_,
    fun before tx after hsplit hnone hver hearlier => ?_⟩
  · have hcheck := hchecks tx hm
    unfold checkSpecialTx at hcheck
    rw [if_neg (not_or.mpr ⟨not_not.mpr hver,hspecial tx hm hnone⟩),
      hcommit tx hm hnone] at hcheck
    split_ifs at hcheck
    · cases hcheck
    · obtain ⟨payload,hpayload,hheight⟩ := checkLLMQCommitment_height hcheck
      rw [hview] at hheight
      exact ⟨payload,hpayload,hheight⟩
  · have hm : tx∈block.vtx := by
      rw [hsplit]
      exact mem_append_right _ mem_cons_self
    have hact := (checkSpecialTx_special (hchecks tx hm) hver (hspecial tx hm hnone)).1
    rw [hview] at hact
    change (if !node.ctx.dip3Active st.quorum.chain then _ else _)=_ at hmined
    rw [hact,Bool.not_true,if_neg Bool.false_ne_true] at hmined
    obtain ⟨qcs,hqcs,-⟩ := bind_eq_ok.mp hmined
    obtain ⟨payload,hpayload⟩ := collected_payload hqcs hm (hcommit tx hm hnone)
    have hcarried : commitmentOf tx=some payload.commitment := by
      rw [commitmentOf,if_pos (hcommit tx hm hnone),hpayload,Option.map_some]
    have hpairs := (getCommitmentsFromBlock_ok hqcs).2
    rw [commitmentsOf,hsplit,filterMap_append,filterMap_cons_some hcarried,
      pairwise_append] at hpairs
    exact hpairs.2.2 payload.commitment (mem_filterMap.mpr ⟨tx,hearlier,hcarried⟩)
      payload.commitment mem_cons_self rfl

end

end Places

section Repeats

/-- The coinbase is that of one of the first blocks, whose coinbases need not say
their height. -/
def RepeatsEarlyCoinbase (chain : List CBlock) (block : CBlock) : Prop :=
  ∃ nHeight old tx, 0 < nHeight ∧ nHeight < bip34Height .main ∧ chain[nHeight]?=some old ∧
    old.vtx.head?=some tx ∧ block.vtx.head?=some tx ∧ ∃ outpoint, Creates tx outpoint

/-- Some transaction has no inputs and no payload, and comes a second time. -/
def RepeatsInputless (chain : List CBlock) (block : CBlock) : Prop :=
  ∃ before tx after, block.vtx=before++tx::after ∧ tx.vin=[] ∧ tx.nVersion≠3 ∧
    (tx∈before ∨ ∃ old∈chain.tail, tx∈old.vtx) ∧ ∃ outpoint, Creates tx outpoint

/-- Transactions of the blocks after the first one, whose outputs are no coins. -/
def chainTxs (chain : List CBlock) : List CTransaction := chain.tail.flatMap CBlock.vtx

/-- All blocks after the first one have their places. -/
def PlacedChain (chain : List CBlock) : Prop :=
  ∀ nHeight old, 0 < nHeight → chain[nHeight]?=some old → Placed nHeight old

theorem mem_chainTxs {chain : List CBlock} {tx : CTransaction} :
    tx∈chainTxs chain ↔ ∃ nHeight old, 0 < nHeight ∧ chain[nHeight]?=some old ∧ tx∈old.vtx := by
  unfold chainTxs
  rw [mem_flatMap]
  constructor
  · rintro ⟨old,hold,htx⟩
    obtain ⟨k,hk⟩ := mem_iff_getElem?.mp hold
    rw [getElem?_tail] at hk
    exact ⟨k+1,old,Nat.succ_pos k,hk,htx⟩
  · rintro ⟨nHeight,old,hpos,hget,htx⟩
    obtain ⟨k,rfl⟩ := Nat.exists_eq_succ_of_ne_zero (Nat.ne_of_gt hpos)
    rw [← getElem?_tail] at hget
    exact ⟨old,mem_of_getElem? hget,htx⟩

theorem SaysHeight.early {tx : CTransaction} {old new : ℕ} (hold : SaysHeight old tx)
    (hnew : SaysHeight new tx) (hlt : old < new) (hbound : new < 2^31) :
    old < bip34Height .main := by
  have hsixteen : bip34Height .main=16 := rfl
  unfold SaysHeight at hold hnew
  by_contra hlate
  cases hpayload : tx.getCbTx with
  | some cbTx =>
    rw [hpayload] at hold hnew
    omega
  | none =>
    rw [hpayload] at hold hnew
    have hsame := pushInt64_unique (by omega) (by omega) (by omega) hbound (hold (by omega))
      (hnew (by omega))
    omega

variable {chain : List CBlock} {block : CBlock}

theorem Placed.coinbase_first {nHeight : ℕ} (h : Placed nHeight block) {tx : CTransaction}
    {before after : List CTransaction} (hsplit : block.vtx=before++tx::after)
    (hbase : tx.isCoinBase=true) :
    before=[] ∧ block.vtx.head?=some tx ∧ SaysHeight nHeight tx := by
  obtain ⟨first,vtx,hvtx,hothers,hheight⟩ := h.coinbase
  rw [hvtx] at hsplit
  cases before with
  | nil =>
    grind
  | cons head before =>
    grind

/-- A transaction that spends nothing but creates coins is new, as far as the rules cover it. -/
theorem not_mem_of_placed (hchain : PlacedChain chain) (hnew : Placed chain.length block)
    (hbound : chain.length < 2^31) (hbase : ¬RepeatsEarlyCoinbase chain block)
    (hinputless : ¬RepeatsInputless chain block) {tx : CTransaction}
    {before after : List CTransaction} (hsplit : block.vtx=before++tx::after)
    (hkind : tx.isCoinBase=true ∨ tx.vin=[]) (hcreates : ∃ outpoint, Creates tx outpoint) :
    tx∉chainTxs chain++before := by
  intro hm
  rcases hkind with hcb | hnone
  · obtain ⟨hbefore,hhead,hheight⟩ := hnew.coinbase_first hsplit hcb
    rw [hbefore,append_nil,mem_chainTxs] at hm
    obtain ⟨nHeight,old,hpos,hget,htx⟩ := hm
    have hlt := (List.getElem?_eq_some_iff.mp hget).1
    obtain ⟨front,back,hold⟩ := append_of_mem htx
    obtain ⟨-,hheadOld,hheightOld⟩ := (hchain nHeight old hpos hget).coinbase_first hold hcb
    have hearly := hheightOld.early hheight hlt hbound
    exact hbase ⟨nHeight,old,tx,hpos,hearly,hget,hheadOld,hhead,hcreates⟩
  · have hmem : tx∈block.vtx := by
      rw [hsplit]
      exact mem_append_right _ mem_cons_self
    rw [mem_append] at hm
    by_cases hver : tx.nVersion=3
    · rcases hm with hm | hm
      · obtain ⟨nHeight,old,hpos,hget,htx⟩ := mem_chainTxs.mp hm
        have hlt := (List.getElem?_eq_some_iff.mp hget).1
        obtain ⟨payload,hpayload,hheight⟩ := hnew.commitments tx hmem hnone hver
        obtain ⟨found,hfound,hheightOld⟩ :=
          (hchain nHeight old hpos hget).commitments tx htx hnone hver
        rw [hpayload] at hfound
        cases hfound
        omega
      · exact hnew.once before tx after hsplit hnone hver hm
    · refine hinputless ⟨before,tx,after,hsplit,hnone,hver,?_,hcreates⟩
      rcases hm with hm | hm
      · exact .inr (mem_flatMap.mp hm)
      · exact .inl hm

end Repeats

section Traces

/-- Coins after transactions: each was created by one of them, and what they spend is gone. -/
structure Traced (txs : List CTransaction) (coins : CoinsView) : Prop where
  created : ∀ outpoint, coins.contains outpoint=true → ∃ tx∈txs, Creates tx outpoint
  spent : ∀ tx∈txs, ∀ input∈spentInputs tx, coins.contains input.prevout=false
  origin : ∀ tx∈txs, ∀ input∈spentInputs tx, ∃ other∈txs, other.hash=input.prevout.hash

variable {txs : List CTransaction} {known : Set CTransaction} {tx : CTransaction} {nHeight : ℕ}
  {view next : ViewCache} {undo : List Coin}

theorem creates_hash {outpoint : COutPoint} (h : Creates tx outpoint) : outpoint.hash=tx.hash := by
  obtain ⟨k,out,-,-,rfl⟩ := h
  rfl

theorem hash_ne_of_not_mem (hunique : Set.InjOn CTransaction.hash known)
    (hknown : ∀ other∈txs, other∈known) (htx : tx∈known) (hnew : tx∉txs) {other : CTransaction}
    (hm : other∈txs) : other.hash≠tx.hash := by
  intro he
  rw [hunique (hknown other hm) htx he] at hm
  exact hnew hm

section

variable (h : Traced txs view.coins) (hunique : Set.InjOn CTransaction.hash known)
variable (hknown : ∀ other∈txs, other∈known) (htx : tx∈known)

include h hunique hknown htx

theorem Traced.free (hnew : (∃ outpoint, Creates tx outpoint) → tx∉txs) (k : ℕ) :
    view.coins.contains ⟨tx.hash,k⟩=false := by
  refine Bool.eq_false_of_not_eq_true (fun hthere => ?_)
  obtain ⟨other,hm,hcreates⟩ := h.created _ hthere
  have hsame : other=tx := hunique (hknown other hm) htx (creates_hash hcreates).symm
  rw [hsame] at hm hcreates
  exact hnew ⟨_,hcreates⟩ hm

theorem Traced.applied (hinputs : ∀ input∈spentInputs tx, view.coins.contains input.prevout=true)
    (hnew : (∃ outpoint, Creates tx outpoint) → tx∉txs)
    (happlied : Applied nHeight tx view undo next) : Traced (txs++[tx]) next.coins := by
  have hhas := Coins.updateCoins_contains happlied.coins
  have hsource : ∀ input∈spentInputs tx, ∃ other∈txs, other.hash=input.prevout.hash := by
    intro input hm
    obtain ⟨other,hother,hcreates⟩ := h.created _ (hinputs input hm)
    exact ⟨other,hother,(creates_hash hcreates).symm⟩
  have horigin : ∀ other∈txs++[tx], ∀ input∈spentInputs other,
      ∃ source∈txs, source.hash=input.prevout.hash := by
    intro other hm input hinput
    rcases mem_append.mp hm with hm | hm
    · exact h.origin other hm input hinput
    · rw [mem_singleton.mp hm] at hinput
      exact hsource input hinput
  refine ⟨fun outpoint hthere => ?_,fun other hm input hinput => ?_,fun other hm input hinput => ?_⟩
  · rcases (hhas outpoint).mp hthere with ⟨hold,-⟩ | hcreates
    · obtain ⟨other,hm,hcreates⟩ := h.created outpoint hold
      exact ⟨other,mem_append_left _ hm,hcreates⟩
    · exact ⟨tx,mem_append_right _ (mem_singleton.mpr rfl),hcreates⟩
  · refine Bool.eq_false_of_not_eq_true (fun hthere => ?_)
    rcases (hhas input.prevout).mp hthere with ⟨hold,hkept⟩ | hcreates
    · rcases mem_append.mp hm with hm | hm
      · rw [h.spent other hm input hinput] at hold
        cases hold
      · rw [mem_singleton.mp hm] at hinput
        exact hkept (mem_map_of_mem hinput)
    · obtain ⟨source,hsourceMem,hhash⟩ := horigin other hm input hinput
      rw [creates_hash hcreates] at hhash
      exact hash_ne_of_not_mem hunique hknown htx (hnew ⟨_,hcreates⟩) hsourceMem hhash
  · obtain ⟨source,hsourceMem,hhash⟩ := horigin other hm input hinput
    exact ⟨source,mem_append_left _ hsourceMem,hhash⟩

end

end Traces

section Blocks

variable {node : Node} {block : CBlock} {nHeight : ℕ} {known : Set CTransaction}
  {earlier : List CTransaction}

theorem connectTxs_append {i : ℕ} {st final : LoopState} {before after : List CTransaction}
    (h : connectTxs node block nHeight i st (before++after)=.ok final) :
    ∃ middle, connectTxs node block nHeight i st before=.ok middle ∧
      connectTxs node block nHeight (i+before.length) middle after=.ok final := by
  induction before generalizing i st with
  | nil => exact ⟨st,rfl,h⟩
  | cons tx before ih =>
    rw [cons_append] at h
    obtain ⟨next,hnext,hrest⟩ := bind_eq_ok.mp h
    obtain ⟨middle,hmid,hafter⟩ := ih hrest
    refine ⟨middle,?_,?_⟩
    · unfold connectTxs
      rw [hnext]
      exact hmid
    · rw [length_cons]
      rwa [Nat.add_assoc,Nat.add_comm 1] at hafter

/-- Blocks whose transactions are checked and known, and that are new as far as
they spend nothing. -/
structure NewBlock (node : Node) (known : Set CTransaction) (earlier : List CTransaction)
    (block : CBlock) : Prop where
  checked : ∀ tx∈block.vtx, TxChecked node tx
  known_block : ∀ tx∈block.vtx, tx∈known
  known_earlier : ∀ tx∈earlier, tx∈known
  fresh : ∀ before tx after, block.vtx=before++tx::after → tx.isCoinBase=true ∨ tx.vin=[] →
    (∃ outpoint, Creates tx outpoint) → tx∉earlier++before

theorem inputs_unspent {i : ℕ} {st next : LoopState} {tx : CTransaction} {undo : List Coin}
    (hchk : TxChecked node tx) (h : TxConnected nHeight i st tx undo next) :
    ∀ input∈spentInputs tx, st.view.coins.contains input.prevout=true := by
  intro input hm
  unfold spentInputs at hm
  split_ifs at hm with hbase
  · exact absurd hm not_mem_nil
  · have hfees := addFees_ok (Bool.eq_false_of_not_eq_true hbase) hchk h.fees
    obtain ⟨entry,hfind,-⟩ := hfees.range input hm
    exact (OrderedMap.contains_iff _ _).mpr ⟨entry,hfind⟩

section

variable (hblock : NewBlock node known earlier block)

include hblock

theorem NewBlock.not_mem
    {before after : List CTransaction} {tx : CTransaction} (hsplit : block.vtx=before++tx::after)
    {i : ℕ} {st next : LoopState} {undo : List Coin}
    (htraced : Traced (earlier++before) st.view.coins)
    (h : TxConnected nHeight i st tx undo next) (hcreates : ∃ outpoint, Creates tx outpoint) :
    tx∉earlier++before := by
  have hm : tx∈block.vtx := by
    rw [hsplit]
    exact mem_append_right _ mem_cons_self
  intro hearlier
  cases hinputs : spentInputs tx with
  | nil =>
    have hkind : tx.isCoinBase=true ∨ tx.vin=[] := by
      unfold spentInputs at hinputs
      split_ifs at hinputs with hbase
      · exact .inl hbase
      · exact .inr hinputs
    exact hblock.fresh before tx after hsplit hkind hcreates hearlier
  | cons input inputs =>
    have hinput : input∈spentInputs tx := by
      rw [hinputs]
      exact mem_cons_self
    have hthere := inputs_unspent (hblock.checked tx hm) h input hinput
    rw [htraced.spent tx hearlier input hinput] at hthere
    cases hthere

theorem NewBlock.known_before
    {before after : List CTransaction} (hsplit : block.vtx=before++after) :
    ∀ tx∈earlier++before, tx∈known := by
  intro tx hm
  rcases mem_append.mp hm with hm | hm
  · exact hblock.known_earlier tx hm
  · refine hblock.known_block tx ?_
    rw [hsplit]
    exact mem_append_left _ hm

theorem NewBlock.traced
    (hunique : Set.InjOn CTransaction.hash known) {before middle after : List CTransaction}
    (hsplit : block.vtx=before++middle++after) {i : ℕ} {st final : LoopState}
    (htraced : Traced (earlier++before) st.view.coins)
    (h : connectTxs node block nHeight i st middle=.ok final) :
    Traced (earlier++(before++middle)) final.view.coins := by
  induction middle generalizing before i st with
  | nil =>
    cases h
    rwa [append_nil]
  | cons tx middle ih =>
    obtain ⟨undo,next,hconn,hrest⟩ := connectTxs_cons h
    have hfirst : block.vtx=before++tx::(middle++after) := by
      rw [hsplit,append_assoc,cons_append]
    have hlater : block.vtx=(before++[tx])++middle++after := by
      rw [hsplit,append_cons]
    have hm : tx∈block.vtx := by
      rw [hfirst]
      exact mem_append_right _ mem_cons_self
    have hnext := htraced.applied hunique (hblock.known_before hfirst)
      (hblock.known_block tx hm) (inputs_unspent (hblock.checked tx hm) hconn)
      (hblock.not_mem hfirst htraced hconn) hconn.applied
    rw [append_assoc] at hnext
    rw [append_cons]
    exact ih hlater hnext hrest

end

variable {start final : LoopState}

section

variable (hblock : NewBlock node known earlier block) (hunique : Set.InjOn CTransaction.hash known)
variable (htraced : Traced earlier start.view.coins)
variable (h : connectTxs node block nHeight 0 start block.vtx=.ok final)

include hblock hunique htraced h

theorem NewBlock.before {before after : List CTransaction} {tx : CTransaction}
    (hsplit : block.vtx=before++tx::after) :
    ∃ middle, connectTxs node block nHeight 0 start before=.ok middle ∧
      Traced (earlier++before) middle.view.coins ∧
      ((∃ outpoint, Creates tx outpoint) → tx∉earlier++before) := by
  rw [hsplit] at h
  obtain ⟨middle,hmid,hrest⟩ := connectTxs_append h
  obtain ⟨undo,next,hconn,-⟩ := connectTxs_cons hrest
  have hfront : block.vtx=[]++before++tx::after := hsplit
  have hbefore : Traced (earlier++before) middle.view.coins :=
    hblock.traced hunique hfront (by rwa [append_nil]) hmid
  exact ⟨middle,hmid,hbefore,hblock.not_mem hsplit hbefore hconn⟩

theorem NewBlock.free {before after : List CTransaction} {tx : CTransaction}
    (hsplit : block.vtx=before++tx::after) :
    ∃ middle, connectTxs node block nHeight 0 start before=.ok middle ∧
      ∀ k, middle.view.coins.contains ⟨tx.hash,k⟩=false := by
  obtain ⟨middle,hmid,hbefore,hnew⟩ := hblock.before hunique htraced h hsplit
  have hm : tx∈block.vtx := by
    rw [hsplit]
    exact mem_append_right _ mem_cons_self
  exact ⟨middle,hmid,hbefore.free hunique (hblock.known_before hsplit)
    (hblock.known_block tx hm) hnew⟩

theorem NewBlock.overwritesCoins_eq :
    overwritesCoins start.view.coins block=false := by
  refine any_eq_false.mpr (fun tx hm => ?_)
  obtain ⟨before,after,hsplit⟩ := append_of_mem hm
  obtain ⟨-,-,-,hnew⟩ := hblock.before hunique htraced h hsplit
  rw [Bool.not_eq_true,any_eq_false]
  intro k _
  rw [Bool.not_eq_true]
  exact htraced.free hunique hblock.known_earlier (hblock.known_block tx hm)
    (fun hcreates hold => hnew hcreates (mem_append_left _ hold)) k

end

end Blocks

section Runs

/-- The active chain, and the undo data of its blocks after the first one with
the last block in front. -/
structure ActiveChain where
  st : ChainState
  undoFiles : List (List UInt8) := []

variable (keys : KeyCoding) (hasher : UndoHasher) (known : Set CTransaction)

/-- A node of the main network, whose settings can change, but not the forms of keys nor the
checksums. -/
structure MainNode (node : Node) : Prop where
  network : node.ctx.network=.main
  keys_eq : node.keys=keys
  hasher_eq : node.hasher=hasher

/-- A block that was accepted is connected, and repeats nothing that the rules do
not cover. -/
structure Connects (node : Node) (st : ChainState) (block : CBlock)
    (connected : ConnectedBlock) : Prop where
  main : MainNode keys hasher node
  height_lt : st.quorum.chain.length < 2^31
  known_txs : ∀ tx∈block.vtx, tx∈known
  /-- The block was checked in its place when it was accepted. -/
  accepted : contextualCheckBlock node st.quorum.chain block=.ok ()
  connect : connectBlock node st block (some block.hash)=.ok connected
  coinbase : ¬RepeatsEarlyCoinbase st.quorum.chain block
  inputless : ¬RepeatsInputless st.quorum.chain block

/-- What happens to the active chain. -/
inductive Step : ActiveChain → ActiveChain → Prop where
  | connect {active : ActiveChain} {node : Node} {block : CBlock} {connected : ConnectedBlock}
      (h : Connects keys hasher known node active.st block connected) :
      Step active ⟨connected.st,connected.undoFile::active.undoFiles⟩
  /-- The last block is taken back. Twice its height is a number of 31 bits. -/
  | disconnect {st undone : ChainState} {node : Node} {undoFile : List UInt8}
      {undoFiles : List (List UInt8)} (hnode : MainNode keys hasher node)
      (hheight : st.quorum.chain.length≤2^30)
      (h : disconnectBlock node st undoFile=.ok (.ok,undone)) :
      Step ⟨st,undoFile::undoFiles⟩ ⟨undone,undoFiles⟩
  /-- Anything else changes between blocks, but not the chain or its coins. -/
  | other {active : ActiveChain} {st : ChainState}
      (hchain : st.quorum.chain=active.st.quorum.chain)
      (hcoins : st.view.coins=active.st.view.coins) :
      Step active ⟨st,active.undoFiles⟩

/-- Only the first block is there, and it has no coins. -/
def IsGenesis (active : ActiveChain) : Prop :=
  active.st.quorum.chain.length=1 ∧ active.st.view.coins=.empty ∧ active.undoFiles=[]

/-- Chains and coins that come from connecting blocks only, with their undo
data. -/
inductive Built : List CBlock → CoinsView → List (List UInt8) → Prop where
  | genesis (block : CBlock) : Built [block] .empty []
  | connect {node : Node} {st : ChainState} {block : CBlock} {connected : ConnectedBlock}
      {undoFiles : List (List UInt8)}
      (hbuilt : Built st.quorum.chain st.view.coins undoFiles)
      (h : Connects keys hasher known node st block connected) :
      Built connected.st.quorum.chain connected.st.view.coins (connected.undoFile::undoFiles)

/-- What holds between two blocks. -/
structure Sound (chain : List CBlock) (coins : CoinsView) : Prop where
  length_pos : 0 < chain.length
  placed : PlacedChain chain
  known_txs : ∀ tx∈chainTxs chain, tx∈known
  traced : Traced (chainTxs chain) coins
  stored : ∀ outpoint entry, coins.find outpoint=some entry → 0 < entry.nHeight ∧
    entry.nHeight < chain.length ∧ 0≤entry.out.nValue ∧ isUnspendable entry.out.scriptPubKey=false

end Runs

section Invariant

variable {keys : KeyCoding} {hasher : UndoHasher} {known : Set CTransaction}

theorem sound_genesis (block : CBlock) : Sound known [block] .empty := by
  refine ⟨Nat.one_pos,fun nHeight old hpos hget => ?_,fun tx hm => absurd hm not_mem_nil,
    ⟨fun outpoint hthere => ?_,fun tx hm => absurd hm not_mem_nil,
      fun tx hm => absurd hm not_mem_nil⟩,fun outpoint entry hfind => ?_⟩
  · have hlt := (List.getElem?_eq_some_iff.mp hget).1
    rw [length_singleton] at hlt
    omega
  · cases hthere
  · cases hfind

variable {node : Node} {st : ChainState} {block : CBlock} {connected : ConnectedBlock}

theorem chainTxs_append {chain : List CBlock} (hpos : 0 < chain.length) (block : CBlock) :
    chainTxs (chain++[block])=chainTxs chain++block.vtx := by
  unfold chainTxs
  rw [tail_append_of_ne_nil (ne_nil_of_length_pos hpos),flatMap_append,flatMap_singleton]

theorem Connects.newBlock (h : Connects keys hasher known node st block connected)
    (hsound : Sound known st.quorum.chain st.view.coins) :
    NewBlock node known (chainTxs st.quorum.chain) block := by
  obtain ⟨coinbase,vtx,txs,hblock⟩ := connectBlock_ok h.connect
  have hplaced := placed_connected h.main.network h.accepted hblock
  refine ⟨hblock.checked.txs,h.known_txs,hsound.known_txs,fun before tx after hsplit hkind => ?_⟩
  exact not_mem_of_placed hsound.placed hplaced h.height_lt h.coinbase h.inputless hsplit hkind

theorem stored_applied {nHeight : ℕ} {tx : CTransaction} {view next : ViewCache} {undo : List Coin}
    (hstored : ∀ outpoint entry, view.coins.find outpoint=some entry → 0 < entry.nHeight ∧
      entry.nHeight < nHeight+1 ∧ 0≤entry.out.nValue ∧ isUnspendable entry.out.scriptPubKey=false)
    (hpos : 0 < nHeight) (hchk : TxChecked node tx) (h : Applied nHeight tx view undo next) :
    ∀ outpoint entry, next.coins.find outpoint=some entry → 0 < entry.nHeight ∧
      entry.nHeight < nHeight+1 ∧ 0≤entry.out.nValue ∧
      isUnspendable entry.out.scriptPubKey=false := by
  intro outpoint entry hfind
  rcases Coins.updateCoins_find h.coins hfind with hold | ⟨k,out,hout,hscript,-,rfl⟩
  · exact hstored outpoint entry hold
  · have hrange := (moneyRange_iff _).mp (hchk.range out (mem_of_getElem? hout))
    exact ⟨hpos,Nat.lt_succ_self nHeight,hrange.1,hscript⟩

theorem stored_connectTxs {nHeight i : ℕ} {vtx : List CTransaction} {start final : LoopState}
    (hstored : ∀ outpoint entry, start.view.coins.find outpoint=some entry → 0 < entry.nHeight ∧
      entry.nHeight < nHeight+1 ∧ 0≤entry.out.nValue ∧ isUnspendable entry.out.scriptPubKey=false)
    (hpos : 0 < nHeight) (hchk : ∀ tx∈vtx, TxChecked node tx)
    (h : connectTxs node block nHeight i start vtx=.ok final) :
    ∀ outpoint entry, final.view.coins.find outpoint=some entry → 0 < entry.nHeight ∧
      entry.nHeight < nHeight+1 ∧ 0≤entry.out.nValue ∧
      isUnspendable entry.out.scriptPubKey=false := by
  induction vtx generalizing i start with
  | nil =>
    cases h
    exact hstored
  | cons tx vtx ih =>
    obtain ⟨undo,next,hconn,hrest⟩ := connectTxs_cons h
    exact ih (stored_applied hstored hpos (hchk tx mem_cons_self) hconn.applied)
      (fun other hm => hchk other (mem_cons_of_mem _ hm)) hrest

theorem Connects.sound (h : Connects keys hasher known node st block connected)
    (hunique : Set.InjOn CTransaction.hash known)
    (hsound : Sound known st.quorum.chain st.view.coins) :
    Sound known connected.st.quorum.chain connected.st.view.coins := by
  obtain ⟨coinbase,vtx,txs,hblock⟩ := connectBlock_ok h.connect
  have hnew := h.newBlock hsound
  have hloop := hblock.loop
  rw [← hblock.checked.vtx_eq] at hloop
  rw [hblock.chain,hblock.coins]
  refine ⟨?_,fun nHeight old hpos hget => ?_,?_,?_,?_⟩
  · rw [length_append]
    exact Nat.add_pos_left hsound.length_pos _
  · rcases getElem?_concat hget with ⟨-,hold⟩ | ⟨hlast,hsame⟩
    · exact hsound.placed nHeight old hpos hold
    · rw [hlast,hsame]
      exact placed_connected h.main.network h.accepted hblock
  · rw [chainTxs_append hsound.length_pos]
    exact hnew.known_before (append_nil _).symm
  · rw [chainTxs_append hsound.length_pos]
    have hall : block.vtx=[]++block.vtx++[] := by
      rw [nil_append,append_nil]
    exact hnew.traced hunique hall (by rw [append_nil]; exact hsound.traced) hloop
  · rw [length_append,length_singleton]
    refine stored_connectTxs (fun outpoint entry hfind => ?_) hsound.length_pos hnew.checked hloop
    obtain ⟨hpos,hlt,hvalue⟩ := hsound.stored outpoint entry hfind
    exact ⟨hpos,Nat.lt_succ_of_lt hlt,hvalue⟩

variable {undoFiles : List (List UInt8)}

theorem Built.sound (hunique : Set.InjOn CTransaction.hash known) {chain : List CBlock}
    {coins : CoinsView}
    (h : Built keys hasher known chain coins undoFiles) : Sound known chain coins := by
  induction h with
  | genesis block => exact sound_genesis block
  | connect hbuilt h ih => exact h.sound hunique ih

theorem Connects.undone (h : Connects keys hasher known node st block connected)
    (hunique : Set.InjOn CTransaction.hash known)
    (hsound : Sound known st.quorum.chain st.view.coins) {other : Node}
    (hother : MainNode keys hasher other) {current undone : ChainState}
    (hchain : current.quorum.chain=connected.st.quorum.chain)
    (hcoins : current.view.coins=connected.st.view.coins)
    (hheight : current.quorum.chain.length≤2^30)
    (hundone : disconnectBlock other current connected.undoFile=.ok (.ok,undone)) :
    undone.quorum.chain=st.quorum.chain ∧ undone.view.coins=st.view.coins := by
  obtain ⟨coinbase,vtx,txs,hblock⟩ := connectBlock_ok h.connect
  have hloop := hblock.loop
  rw [← hblock.checked.vtx_eq] at hloop
  have hfree := (h.newBlock hsound).overwritesCoins_eq hunique hsound.traced hloop
  rw [hblock.chain] at hchain
  have hlen : st.quorum.chain.length < 2^30 := by
    rw [hchain,length_append,length_singleton] at hheight
    omega
  have hstored : StoredCoins st.view.coins := by
    intro outpoint entry hfind
    obtain ⟨hpos,hlt,hvalue,hscript⟩ := hsound.stored outpoint entry hfind
    exact ⟨hpos,hlt.trans hlen,hvalue,hscript⟩
  obtain ⟨hread,hcount,hback⟩ := disconnectCoins_ok hsound.length_pos hlen hstored hblock hfree
  rw [h.main.keys_eq,h.main.hasher_eq,← hother.keys_eq,← hother.hasher_eq] at hread
  unfold disconnectBlock at hundone
  cases hlast : undoLastBlock other current connected.undoFile with
  | error reason =>
    rw [hlast] at hundone
    cases reason <;> cases hundone
  | ok result =>
    obtain ⟨fClean,final⟩ := result
    rw [hlast] at hundone
    have hfinal : final=undone := by
      cases fClean <;> cases hundone
      rfl
    unfold undoLastBlock at hlast
    rw [hchain,getLast?_concat] at hlast
    dsimp only at hlast
    rw [dropLast_concat,hread,hcoins] at hlast
    dsimp only at hlast
    rw [if_neg (not_not.mpr hcount)] at hlast
    split_ifs at hlast
    obtain ⟨special,hspecial,hlast⟩ := bind_eq_ok.mp hlast
    rw [hback] at hlast
    cases hlast
    rw [← hfinal]
    refine ⟨?_,rfl⟩
    unfold undoSpecialTxsInBlock at hspecial
    split_ifs at hspecial
    dsimp only at hspecial
    cases hquorum : MinedCommitments.undoBlock (quorumContext other.ctx
        (current.mgr.answers other.ctx.serializeHash)) current.quorum with
    | error reason =>
      rw [hquorum] at hspecial
      cases reason <;> cases hspecial
    | ok quorum =>
      rw [hquorum] at hspecial
      cases hspecial
      unfold MinedCommitments.undoBlock at hquorum
      rw [hchain,getLast?_concat] at hquorum
      rw [dropLast_concat] at hquorum
      obtain ⟨qcs,-,hfold⟩ := bind_eq_ok.mp hquorum
      exact (undoCommitment_run hfold).1

theorem Built.last {chain : List CBlock} {coins : CoinsView} {undoFile : List UInt8}
    (h : Built keys hasher known chain coins (undoFile::undoFiles)) :
    ∃ node st block connected, Built keys hasher known st.quorum.chain st.view.coins
        undoFiles ∧ Connects keys hasher known node st block connected ∧
      chain=connected.st.quorum.chain ∧ coins=connected.st.view.coins ∧
      undoFile=connected.undoFile := by
  cases h with
  | connect hbuilt h => exact ⟨_,_,_,_,hbuilt,h,rfl,rfl,rfl⟩

theorem built_run (hunique : Set.InjOn CTransaction.hash known) {start active : ActiveChain}
    (hstart : IsGenesis start)
    (hrun : Relation.ReflTransGen (Step keys hasher known) start active) :
    Built keys hasher known active.st.quorum.chain active.st.view.coins
      active.undoFiles := by
  induction hrun with
  | refl =>
    obtain ⟨hlen,hcoins,hfiles⟩ := hstart
    obtain ⟨block,hchain⟩ := length_eq_one_iff.mp hlen
    rw [hchain,hcoins,hfiles]
    exact Built.genesis block
  | tail hrun hstep ih =>
    cases hstep with
    | connect h => exact Built.connect ih h
    | disconnect hnode hheight h =>
      obtain ⟨node,before,block,connected,hbefore,hconnects,hchain,hcoins,rfl⟩ := ih.last
      obtain ⟨hchainUndone,hcoinsUndone⟩ := hconnects.undone hunique (hbefore.sound hunique) hnode
        hchain hcoins hheight h
      rw [hchainUndone,hcoinsUndone]
      exact hbefore
    | other hchain hcoins =>
      rw [hchain,hcoins]
      exact ih

end Invariant

/-- On the main network, in any run without repeated early coinbases or transactions without inputs,
no output of a connected block has the outpoint of an unspent coin. -/
theorem connect_overwrites_nothing {keys : KeyCoding} {hasher : UndoHasher}
    {known : Set CTransaction} (hunique : Set.InjOn CTransaction.hash known)
    {start active : ActiveChain} (hstart : IsGenesis start)
    (hrun : Relation.ReflTransGen (Step keys hasher known) start active) {node : Node}
    {block : CBlock} {connected : ConnectedBlock}
    (hconnect : Connects keys hasher known node active.st block connected)
    {before after : List CTransaction} {tx : CTransaction}
    (hsplit : block.vtx=before++tx::after) :
    ∃ middle, connectTxs node block active.st.quorum.chain.length 0
        { view := active.st.view } before=.ok middle ∧
      ∀ k, middle.view.coins.contains ⟨tx.hash,k⟩=false := by
  have hsound := (built_run hunique hstart hrun).sound hunique
  obtain ⟨coinbase,vtx,txs,hblock⟩ := connectBlock_ok hconnect.connect
  have hloop := hblock.loop
  rw [← hblock.checked.vtx_eq] at hloop
  exact (hconnect.newBlock hsound).free hunique hsound.traced hloop hsplit

/-- A chain of the first block only. -/
def firstState : ChainState where
  quorum := { chain := [{ hash := 1 }] }
  view := { coins := .empty, hashBlock := 1 }

def coinbaseBlock (hash : Uint256) (coinbase : CTransaction) : CBlock where
  hash := hash
  vtx := [coinbase]

/-- Without inputs, in a block where nothing else is asked of its type. -/
def inputlessTx : CTransaction where
  nType := .quorumCommitment
  vout := [⟨0,[0x51]⟩]
  hash := 300
  payload_special := fun _ => rfl

def inputlessSpender : CTransaction where
  vin := [{ prevout := ⟨300,0⟩ }]
  vout := [⟨0,[0x51]⟩]
  hash := 301
  payload_special := CTransaction.payload_plain

/-- Transactions of two blocks. -/
def sampleTxs : List CTransaction :=
  [earlyCoinbase 100 [1,0],earlyCoinbase 200 [2,0],inputlessTx,inputlessSpender]

def fullBlock : CBlock where
  hash := 3
  vtx := sampleTxs.tail

theorem sampleTxs_injOn : Set.InjOn CTransaction.hash { tx | tx∈sampleTxs } := by
  have hnodup : (sampleTxs.map CTransaction.hash).Nodup := by decide
  exact fun first hfirst second hsecond he => inj_on_of_nodup_map hnodup hfirst hsecond he

theorem not_repeatsInputless {chain : List CBlock} {block : CBlock}
    (hnodup : (block.vtx.map CTransaction.hash).Nodup)
    (hnew : ∀ tx∈block.vtx, tx.vin=[] → ∀ old∈chain.tail, tx∉old.vtx) :
    ¬RepeatsInputless chain block := by
  rintro ⟨before,tx,after,hsplit,hnone,-,hin | ⟨old,hold,hin⟩,-⟩
  · rw [hsplit] at hnodup
    exact (nodup_cons.mp (nodup_middle.mp hnodup.of_map)).1 (mem_append_left _ hin)
  · exact hnew tx (hsplit ▸ mem_append_right _ mem_cons_self) hnone old hold hin

theorem connects_first {first : ConnectedBlock}
    (h : connectBlock earlyNode firstState (coinbaseBlock 2 (earlyCoinbase 100 [1,0])) (some 2)=
      .ok first) :
    Connects earlyNode.keys earlyNode.hasher { tx | tx∈sampleTxs } earlyNode firstState
      (coinbaseBlock 2 (earlyCoinbase 100 [1,0])) first := by
  refine ⟨⟨rfl,rfl,rfl⟩,by decide,fun tx hm => ?_,by decide,h,?_,
    not_repeatsInputless (by decide) fun tx hm _ old hold => absurd hold not_mem_nil⟩
  · exact mem_singleton.mp hm ▸ mem_cons_self
  · rintro ⟨nHeight,old,tx,hpos,-,hget,-⟩
    have hlt : nHeight < 1 := (List.getElem?_eq_some_iff.mp hget).1
    omega

theorem connects_second {first second : ConnectedBlock}
    (hfirst : connectBlock earlyNode firstState
      (coinbaseBlock 2 (earlyCoinbase 100 [1,0])) (some 2)=.ok first)
    (h : connectBlock earlyNode first.st fullBlock (some 3)=.ok second) :
    Connects earlyNode.keys earlyNode.hasher { tx | tx∈sampleTxs } earlyNode first.st fullBlock
      second := by
  obtain ⟨coinbase,vtx,txs,hblock⟩ := connectBlock_ok hfirst
  refine ⟨⟨rfl,rfl,rfl⟩,?_,fun tx hm => mem_of_mem_tail hm,?_,h,?_,
    not_repeatsInputless (by decide) fun tx hm hnone old hold hin => ?_⟩
  · rw [hblock.chain]
    decide
  · rw [hblock.chain]
    decide
  · rintro ⟨nHeight,old,tx,hpos,-,hget,hold,hnew,-⟩
    rw [hblock.chain] at hget
    rcases getElem?_concat hget with ⟨hlt,-⟩ | ⟨-,rfl⟩
    · have hone : nHeight < 1 := hlt
      omega
    · cases hold
      cases hnew
  · rw [hblock.chain] at hold
    cases mem_singleton.mp hold
    cases mem_singleton.mp hin
    cases hnone

/-- The last transaction of the second block overwrites nothing. -/
theorem connect_overwrites_nothing_second :
    ∃ first second, connectBlock earlyNode firstState (coinbaseBlock 2 (earlyCoinbase 100 [1,0]))
        (some 2)=.ok first ∧
      connectBlock earlyNode first.st fullBlock (some 3)=.ok second ∧
      ∃ middle, connectTxs earlyNode fullBlock first.st.quorum.chain.length 0
          { view := first.st.view } [earlyCoinbase 200 [2,0],inputlessTx]=.ok middle ∧
        ∀ k, middle.view.coins.contains ⟨301,k⟩=false := by
  obtain ⟨second,hboth⟩ := exists_ok (show (do
    let first ← connectBlock earlyNode firstState
      (coinbaseBlock 2 (earlyCoinbase 100 [1,0])) (some 2)
    connectBlock earlyNode first.st fullBlock (some 3)).toOption.isSome=true by decide)
  obtain ⟨first,hfirst,hsecond⟩ := bind_eq_ok.mp hboth
  refine ⟨first,second,hfirst,hsecond,?_⟩
  have hrun : Relation.ReflTransGen (Step earlyNode.keys earlyNode.hasher { tx | tx∈sampleTxs })
      ⟨firstState,[]⟩ ⟨first.st,[first.undoFile]⟩ :=
    Relation.ReflTransGen.single (Step.connect (connects_first hfirst))
  exact @connect_overwrites_nothing earlyNode.keys earlyNode.hasher _ sampleTxs_injOn
    ⟨firstState,[]⟩ ⟨first.st,[first.undoFile]⟩ ⟨rfl,rfl,rfl⟩ hrun earlyNode fullBlock second
    (connects_second hfirst hsecond) _ [] inputlessSpender rfl

/-- A block with the coinbase of the first height is connected again, while its coin is unspent. -/
theorem connect_overwrites_early_coinbase :
    ∃ first second, IsGenesis ⟨firstState,[]⟩ ∧ earlyNode.ctx.network=.main ∧
      contextualCheckBlock earlyNode firstState.quorum.chain
        (coinbaseBlock 2 (earlyCoinbase 100 [1,0]))=.ok () ∧
      connectBlock earlyNode firstState (coinbaseBlock 2 (earlyCoinbase 100 [1,0])) (some 2)=
        .ok first ∧
      contextualCheckBlock earlyNode first.st.quorum.chain
        (coinbaseBlock 3 (earlyCoinbase 100 [1,0]))=.ok () ∧
      connectBlock earlyNode first.st (coinbaseBlock 3 (earlyCoinbase 100 [1,0])) (some 3)=
        .ok second ∧
      ¬∃ middle, connectTxs earlyNode (coinbaseBlock 3 (earlyCoinbase 100 [1,0]))
          first.st.quorum.chain.length 0 { view := first.st.view } []=.ok middle ∧
        ∀ k, middle.view.coins.contains ⟨100,k⟩=false := by
  obtain ⟨second,hboth⟩ := exists_ok (show (do
    let first ← connectBlock earlyNode firstState
      (coinbaseBlock 2 (earlyCoinbase 100 [1,0])) (some 2)
    rejectIf (!first.st.view.coins.contains ⟨100,0⟩) 0 .invalid ""
    connectBlock earlyNode first.st (coinbaseBlock 3 (earlyCoinbase 100 [1,0]))
      (some 3)).toOption.isSome=true by decide)
  obtain ⟨first,hfirst,hboth⟩ := bind_eq_ok.mp hboth
  obtain ⟨⟨⟩,hcoin,hsecond⟩ := bind_eq_ok.mp hboth
  rw [rejectIf_eq_ok,Bool.not_eq_false'] at hcoin
  obtain ⟨coinbase,vtx,txs,hblock⟩ := connectBlock_ok hfirst
  refine ⟨first,second,⟨rfl,rfl,rfl⟩,rfl,by decide,hfirst,?_,hsecond,?_⟩
  · rw [hblock.chain]
    decide
  · rintro ⟨middle,hmid,hnone⟩
    cases hmid
    rw [hnone 0] at hcoin
    cases hcoin

end Pyrk.DuplicateCoins
