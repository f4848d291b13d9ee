import Pyrk.PrivateSendSessions

/-!
# Signatures of mixing transactions

A script that a user sends is recorded in an entry and in the final transaction, and verified in a
transaction put together again in the order of the entries.
-/

namespace Pyrk.PrivateSendServer

open List
open Transaction hiding CTxIn

section Covered

variable (tx : CMutableTransaction)

/-- What a signature covers: a transaction without the scripts of its inputs. -/
def withoutScripts : CMutableTransaction :=
  { tx with vin := tx.vin.map (fun input => { input with scriptSig := [] }) }

/-- Inputs of entries without what a signature changes. -/
def unsignedInputs (inputs : List CTxDSIn) : List CTxDSIn :=
  inputs.map (fun input => { input with scriptSig := [], fHasSig := false })

theorem withoutScripts_setScriptSig (txin : CTxIn) :
    withoutScripts { tx with vin := tx.vin.map (setScriptSig txin) }=withoutScripts tx := by
  have hvin : (tx.vin.map (setScriptSig txin)).map (fun input => { input with scriptSig := [] })=
      tx.vin.map (fun input => { input with scriptSig := [] }) := by
    rw [map_map]
    apply map_congr_left
    intro input _
    dsimp only [Function.comp_apply,setScriptSig]
    split <;> rfl
  simp only [withoutScripts,hvin]

theorem withoutScripts_verifiedTransaction (server : CPrivateSendServer) (txin : CTxIn) (n : ℕ) :
    withoutScripts (verifiedTransaction server txin n)=
      withoutScripts (entryTransaction server.vecEntries) := by
  have hmodify : ∀ (vin : List CTxIn) (n : ℕ),
      (vin.modify n (fun input => { input with scriptSig := txin.scriptSig })).map
        (fun input => { input with scriptSig := [] })=
      vin.map (fun input => { input with scriptSig := [] }) := by
    intro vin n
    induction vin generalizing n with
    | nil => rw [modify_nil]
    | cons input rest ih =>
      cases n with
      | zero => rfl
      | succ n => rw [modify_succ_cons,map_cons,ih,map_cons]
  simp only [withoutScripts,verifiedTransaction,hmodify]

theorem unsignedInputs_signInputs (txin : CTxIn) (inputs : List CTxDSIn) :
    unsignedInputs (signInputs txin inputs).1=unsignedInputs inputs := by
  induction inputs with
  | nil => rfl
  | cons txdsin rest ih =>
    simp only [unsignedInputs] at ih ⊢
    rw [signInputs]
    split
    · split <;> rfl
    · simp only [map_cons,ih]

theorem unsignedInputs_signEntries (txin : CTxIn) (entries : List CPrivateSendEntry) :
    unsignedInputs (entryInputs (signEntries txin entries).1)=
      unsignedInputs (entryInputs entries) := by
  induction entries with
  | nil => rfl
  | cons entry rest ih =>
    simp only [unsignedInputs,entryInputs] at ih ⊢
    rw [signEntries]
    split
    · have hentry := unsignedInputs_signInputs txin entry.vecTxDSIn
      simp only [unsignedInputs] at hentry
      simp only [flatMap_cons,map_append,hentry]
    · simp only [flatMap_cons,map_append,ih]

theorem withoutScripts_entryTransaction (entries : List CPrivateSendEntry) :
    withoutScripts (entryTransaction entries)=
      { vin := (unsignedInputs (entryInputs entries)).map CTxDSIn.toCTxIn
        vout := entryOutputs entries } := by
  simp only [withoutScripts,entryTransaction,unsignedInputs,map_map]
  rfl

theorem withoutScripts_signEntries (txin : CTxIn) (entries : List CPrivateSendEntry) :
    withoutScripts (entryTransaction (signEntries txin entries).1)=
      withoutScripts (entryTransaction entries) := by
  rw [withoutScripts_entryTransaction,withoutScripts_entryTransaction,unsignedInputs_signEntries,
    signEntries_entryOutputs]

theorem getElem?_withoutScripts (i : ℕ) :
    ((withoutScripts tx).vin[i]?).map CTxIn.prevout=(tx.vin[i]?).map CTxIn.prevout := by
  simp only [withoutScripts,List.getElem?_map,Option.map_map]
  rfl

end Covered

section Inputs

theorem lastInput_some {inputs : List CTxDSIn} {prevout : COutPoint} {txdsin : CTxDSIn} {n : ℕ}
    (hlast : lastInput inputs prevout=some (txdsin,n)) :
    inputs[n]?=some txdsin ∧ txdsin.prevout=prevout := by
  have hfound := List.find?_some hlast
  have hmember := mem_of_find?_eq_some hlast
  grind

theorem signInputs_mem {txin : CTxIn} {inputs : List CTxDSIn} {after : CTxDSIn}
    (hmember : after∈(signInputs txin inputs).1) :
    after∈inputs ∨ (signInputs txin inputs).2=true ∧ ∃ txdsin∈inputs,
      sameInput txin txdsin.toCTxIn=true ∧
      after={ txdsin with scriptSig := txin.scriptSig, fHasSig := true } := by
  induction inputs with
  | nil => exact Or.inl hmember
  | cons first rest ih =>
    rw [signInputs] at hmember ⊢
    grind

variable {entries : List CPrivateSendEntry}

theorem signEntries_refused {txin : CTxIn}
    (hrefused : (signEntries txin entries).2=false) : (signEntries txin entries).1=entries := by
  induction entries with
  | nil => rfl
  | cons entry rest ih =>
    rw [signEntries] at hrefused ⊢
    grind

theorem signEntries_taken {txin : CTxIn} (hunsigned : Unsigned txin (entryInputs entries)) :
    (signEntries txin entries).2=
      (entryInputs entries).any (fun txdsin => sameInput txin txdsin.toCTxIn) := by
  induction entries with
  | nil => rfl
  | cons entry rest ih =>
    have hsplit : entryInputs (entry::rest)=entry.vecTxDSIn++entryInputs rest :=
      flatMap_cons
    rw [hsplit] at hunsigned ⊢
    have hentry : Unsigned txin entry.vecTxDSIn :=
      fun input hinput => hunsigned input (mem_append_left _ hinput)
    have hrest := ih (fun input hinput => hunsigned input (mem_append_right _ hinput))
    rw [signEntries,any_append,←hrest,←signInputs_taken hentry]
    grind

end Inputs

section Calls

variable {node : ServerNode} {server : CPrivateSendServer} {spent : COutPoint → CTxOut}
  {calls : List SigCall} {txin : CTxIn}

/-- A script was taken for an input of the final transaction, and verified there with the script of
the spent output. -/
structure VerifiedBy (call : SigCall) (spent : COutPoint → CTxOut) (final : CMutableTransaction)
    (i : ℕ) (txin : CTxIn) : Prop where
  added : call.added=true
  prevout : call.txinNew.prevout=txin.prevout
  scriptSig : call.txinNew.scriptSig=txin.scriptSig
  position : ∃ txdsin,
    lastInput (entryInputs call.server.vecEntries) call.txinNew.prevout=some (txdsin,i) ∧
    txdsin.prevPubKey=(spent txin.prevout).scriptPubKey
  /-- The transaction was the final one, up to scripts. -/
  final : withoutScripts (verifiedTransaction call.server call.txinNew i)=withoutScripts final
  verified : call.node.verifyScript txin.scriptSig (spent txin.prevout).scriptPubKey
    (verifiedTransaction call.server call.txinNew i) i=true

/-- A script that is refused changes nothing, and if all inputs are signed then those of the final
transaction have the scripts of the entries, verified in it. -/
structure CallRight (calls : List SigCall) (call : SigCall) : Prop where
  refused : call.added=false →
    call.after.finalMutableTransaction=call.server.finalMutableTransaction ∧
    call.after.vecEntries=call.server.vecEntries
  /-- Inputs of the final transaction have the scripts of the entries. -/
  recorded : call.after.nState=.signing → isSignaturesComplete call.after=true →
    ∀ txin∈call.after.finalMutableTransaction.vin,
      ∃ txdsin∈entryInputs call.after.vecEntries,txdsin.toCTxIn=txin
  verified : call.after.nState=.signing → isSignaturesComplete call.after=true →
    ∀ i txin,call.after.finalMutableTransaction.vin[i]?=some txin →
      ∃ verified∈calls,VerifiedBy verified call.spent call.after.finalMutableTransaction i txin

/-- What holds of signed inputs. -/
structure SignedSession (server : CPrivateSendServer) (spent : COutPoint → CTxOut)
    (calls : List SigCall) : Prop where
  /-- No input has a script of the spent output, and the spent outputs have none. -/
  scripts : ∀ txdsin∈entryInputs server.vecEntries,
    txdsin.prevPubKey=[] ∧ (spent txdsin.prevout).scriptPubKey=[]
  /-- Nothing is signed before there is a final transaction. -/
  unsigned : server.nState=.acceptingEntries →
    ∀ txdsin∈entryInputs server.vecEntries,txdsin.fHasSig=false
  signed : server.nState=.signing → ∀ txdsin∈entryInputs server.vecEntries,txdsin.fHasSig=true →
    ∃ call∈calls,∃ i,VerifiedBy call spent server.finalMutableTransaction i txdsin.toCTxIn

theorem signedSession_of_noEntries (hentries : server.vecEntries=[]) :
    SignedSession server spent calls := by
  have hinputs : entryInputs server.vecEntries=[] := by
    rw [hentries]
    rfl
  constructor
  all_goals
    rw [hinputs]
    simp only [not_mem_nil,false_implies,implies_true]

theorem signedSession_append (h : SignedSession server spent calls) (more : List SigCall) :
    SignedSession server spent (calls++more) where
  scripts := h.scripts
  unsigned := h.unsigned
  signed := by
    intro hstate txdsin htxdsin hsig
    obtain ⟨call,hcall,hver⟩ := h.signed hstate txdsin htxdsin hsig
    exact ⟨call,mem_append_left _ hcall,hver⟩

variable {call : SigCall}

theorem callRight_append (h : CallRight calls call) (more : List SigCall) :
    CallRight (calls++more) call where
  refused := h.refused
  recorded := h.recorded
  verified := by
    intro hstate hcomplete i txin hget
    obtain ⟨verified,hver,hby⟩ := h.verified hstate hcomplete i txin hget
    exact ⟨verified,mem_append_left _ hver,hby⟩

theorem verifiedBy_position {i n : ℕ} (h : InSession server) (hstate : server.nState=.signing)
    (hver : VerifiedBy call spent server.finalMutableTransaction n txin)
    (hget : server.finalMutableTransaction.vin[i]?=some txin) : n=i := by
  have hnodup : (server.finalMutableTransaction.vin.map CTxIn.prevout).Nodup := by
    have hperm := (h.vin hstate).map CTxIn.prevout
    rw [hperm.nodup_iff,map_map]
    exact h.distinct
  obtain ⟨txdsin,hlast,_⟩ := hver.position
  obtain ⟨hinput,hprevout⟩ := lastInput_some hlast
  have hn : (server.finalMutableTransaction.vin[n]?).map CTxIn.prevout=some txin.prevout := by
    rw [←getElem?_withoutScripts,←hver.final,withoutScripts_verifiedTransaction,
      getElem?_withoutScripts,entryTransaction,List.getElem?_map,hinput]
    dsimp only [Option.map_some]
    rw [hprevout,hver.prevout]
  have hi : (server.finalMutableTransaction.vin[i]?).map CTxIn.prevout=some txin.prevout := by
    rw [hget]
    rfl
  rw [←List.getElem?_map] at hn hi
  exact (List.getElem?_inj (List.getElem?_eq_some_iff.mp hn).1 hnodup).mp (hn.trans hi.symm)

theorem callRight_complete (h : InSession call.after)
    (hsigned : SignedSession call.after call.spent calls)
    (hrefused : call.added=false →
      call.after.finalMutableTransaction=call.server.finalMutableTransaction ∧
      call.after.vecEntries=call.server.vecEntries) : CallRight calls call where
  refused := hrefused
  recorded := by
    intro hstate _ txin htxin
    exact mem_map.mp ((h.vin hstate).mem_iff.mp htxin)
  verified := by
    intro hstate hcomplete i txin hget
    have hmember := (h.vin hstate).mem_iff.mp (mem_of_getElem? hget)
    obtain ⟨txdsin,htxdsin,heq⟩ := mem_map.mp hmember
    have hsig : txdsin.fHasSig=true := by
      rw [isSignaturesComplete,all_eq_true] at hcomplete
      exact hcomplete txdsin htxdsin
    obtain ⟨verified,hver,n,hby⟩ := hsigned.signed hstate txdsin htxdsin hsig
    rw [heq] at hby
    have hn := verifiedBy_position h hstate hby hget
    exact ⟨verified,hver,hn ▸ hby⟩

theorem verifiedBy_congr {final other : CMutableTransaction} {i : ℕ}
    (hsame : withoutScripts other=withoutScripts final)
    (hver : VerifiedBy call spent final i txin) : VerifiedBy call spent other i txin :=
  { hver with final := hver.final.trans hsame.symm }

end Calls

section Steps

variable {node : ServerNode} {server : CPrivateSendServer} {spent : COutPoint → CTxOut}
  {calls : List SigCall} {txin : CTxIn}

theorem addScriptSig_eq (node : ServerNode) (server : CPrivateSendServer) (txin : CTxIn) :
    addScriptSig node server txin=(server,false) ∨ isInputScriptSigValid node server txin=true ∧
      addScriptSig node server txin=
        (withScriptSig server txin,(signEntries txin server.vecEntries).2) := by
  rw [addScriptSig]
  grind

theorem withScriptSig_refused (h : InSession server) (hstate : server.nState=.signing)
    (hunsigned : Unsigned txin (entryInputs server.vecEntries))
    (hrefused : (signEntries txin server.vecEntries).2=false) : withScriptSig server
    txin=server := by
  have hother : ∀ input∈server.finalMutableTransaction.vin,sameInput txin input=false := by
    intro input hinput
    have hmember := (h.vin hstate).mem_iff.mp hinput
    obtain ⟨txdsin,htxdsin,heq⟩ := mem_map.mp hmember
    rw [signEntries_taken hunsigned,any_eq_false] at hrefused
    rw [←heq,Bool.eq_false_iff]
    exact hrefused txdsin htxdsin
  rw [withScriptSig,map_setScriptSig_other hother,signEntries_refused hrefused]

theorem signing_of_valid (h : InSession server) (hstate : server.nState≠.acceptingEntries)
    (hvalid : isInputScriptSigValid node server txin=true) :
    server.nState=.signing ∧ ∃ txdsin n,
      lastInput (entryInputs server.vecEntries) txin.prevout=some (txdsin,n) ∧
      node.verifyScript txin.scriptSig txdsin.prevPubKey (verifiedTransaction server txin n) n=
        true := by
  have hnone : server.vecEntries=[] → False := by
    intro hempty
    rw [isInputScriptSigValid,hempty] at hvalid
    cases hvalid
  have hsigning : server.nState=.signing := by
    cases hcase : server.nState with
    | idle => exact (hnone (h.idle hcase).2).elim
    | queue => exact (hnone (h.queue hcase)).elim
    | acceptingEntries => exact absurd hcase hstate
    | signing => rfl
  rw [isInputScriptSigValid] at hvalid
  cases hlast : lastInput (entryInputs server.vecEntries) txin.prevout with
  | none =>
    rw [hlast] at hvalid
    cases hvalid
  | some found =>
    rw [hlast] at hvalid
    exact ⟨hsigning,found.1,found.2,rfl,hvalid⟩

theorem signedSession_withScriptSig (h : SignedSession server spent calls)
    (hstate : server.nState=.signing) (hunsigned : Unsigned txin (entryInputs server.vecEntries))
    (horder : withoutScripts server.finalMutableTransaction=
      withoutScripts (entryTransaction server.vecEntries))
    {txdsin : CTxDSIn} {n : ℕ}
    (hlast : lastInput (entryInputs server.vecEntries) txin.prevout=some (txdsin,n))
    (hverify : node.verifyScript txin.scriptSig txdsin.prevPubKey
      (verifiedTransaction server txin n) n=true)
    (hadded : (addScriptSig node server txin).2=true) :
    SignedSession (withScriptSig server txin) spent (calls++[sigCall node server spent txin]) where
  scripts := by
    intro after hafter
    dsimp only [withScriptSig] at hafter
    rw [entryInputs_signEntries hunsigned] at hafter
    obtain hold | ⟨_,before,hbefore,_,heq⟩ := signInputs_mem hafter
    · exact h.scripts after hold
    · rw [heq]
      exact h.scripts before hbefore
  unsigned := fun haccepting => PoolState.noConfusion (hstate.symm.trans haccepting)
  signed := by
    intro _ after hafter hsig
    have hcovered := withoutScripts_setScriptSig server.finalMutableTransaction txin
    dsimp only [withScriptSig] at hafter ⊢
    rw [entryInputs_signEntries hunsigned] at hafter
    obtain hold | ⟨_,before,hbefore,hsame,heq⟩ := signInputs_mem hafter
    · obtain ⟨call,hcall,i,hby⟩ := h.signed hstate after hold hsig
      exact ⟨call,mem_append_left _ hcall,i,verifiedBy_congr hcovered hby⟩
    · have hprevout := prevout_of_sameInput hsame
      obtain ⟨hfound,_⟩ := lastInput_some hlast
      have hempty := (h.scripts txdsin (mem_of_getElem? hfound)).1
      have hscript := (h.scripts before hbefore).2
      have hby : VerifiedBy (sigCall node server spent txin) spent server.finalMutableTransaction n
          after.toCTxIn := by
        rw [heq]
        exact {
          added := hadded
          prevout := hprevout.symm
          scriptSig := rfl
          position := ⟨txdsin,hlast,hempty.trans hscript.symm⟩
          final := by
            dsimp only [sigCall]
            rw [withoutScripts_verifiedTransaction,horder]
          verified := by
            rw [hscript,←hempty]
            exact hverify }
      exact ⟨_,mem_append_right _ (mem_singleton_self _),n,verifiedBy_congr hcovered hby⟩

theorem signedSession_addScriptSig (h : InSession server)
    (hsigned : SignedSession server spent calls)
    (hstate : server.nState≠.acceptingEntries)
    (hunsigned : server.nState=.signing → Unsigned txin (entryInputs server.vecEntries))
    (horder : server.nState=.signing → withoutScripts server.finalMutableTransaction=
      withoutScripts (entryTransaction server.vecEntries)) :
    SignedSession (addScriptSig node server txin).1 spent
        (calls++[sigCall node server spent txin]) ∧
      CallRight (calls++[sigCall node server spent txin]) (sigCall node server spent txin) := by
  have hafter : InSession (addScriptSig node server txin).1 := inSession_addScriptSig h hunsigned
  have hboth : SignedSession (addScriptSig node server txin).1 spent
        (calls++[sigCall node server spent txin]) ∧
      ((addScriptSig node server txin).2=false → (addScriptSig node server txin).1=server) := by
    obtain heq | ⟨hvalid,heq⟩ := addScriptSig_eq node server txin
    · rw [heq]
      exact ⟨signedSession_append hsigned _,fun _ => rfl⟩
    · obtain ⟨hsigning,txdsin,n,hlast,hverify⟩ := signing_of_valid h hstate hvalid
      cases hadded : (signEntries txin server.vecEntries).2 with
      | false =>
        have hrefused := withScriptSig_refused h hsigning (hunsigned hsigning) hadded
        rw [heq,hrefused]
        exact ⟨signedSession_append hsigned _,fun _ => rfl⟩
      | true =>
        have htaken : (addScriptSig node server txin).2=true := by
          rw [heq]
          exact hadded
        have hnew := signedSession_withScriptSig hsigned hsigning (hunsigned hsigning)
          (horder hsigning) hlast hverify htaken
        rw [heq]
        exact ⟨hnew,fun hfalse => absurd (hadded.symm.trans hfalse) Bool.true_eq_false_eq_False⟩
  refine ⟨hboth.1,callRight_complete hafter hboth.1 ?_⟩
  intro hrefused
  dsimp only [sigCall] at hrefused ⊢
  rw [hboth.2 hrefused]
  exact ⟨rfl,rfl⟩

/-- The order of entries is that of the final transaction. -/
def SameOrder (server : CPrivateSendServer) : Prop :=
  withoutScripts server.finalMutableTransaction=withoutScripts (entryTransaction server.vecEntries)

instance : Decidable (SameOrder server) :=
  inferInstanceAs (Decidable (withoutScripts server.finalMutableTransaction=
    withoutScripts (entryTransaction server.vecEntries)))

theorem sameOrder_addScriptSig (horder : SameOrder server) :
    SameOrder (addScriptSig node server txin).1 := by
  obtain heq | heq := @addScriptSig_cases node server txin
  · rw [heq]
    exact horder
  · rw [heq,SameOrder]
    dsimp only [withScriptSig]
    rw [withoutScripts_setScriptSig,withoutScripts_signEntries]
    exact horder

theorem signedSession_addScriptSigs {vecTxIn : List CTxIn} (h : InSession server)
    (hsigned : SignedSession server spent calls) (hstate : server.nState≠.acceptingEntries)
    (honce : server.nState=.signing → SignsOnce vecTxIn (entryInputs server.vecEntries))
    (horder : server.nState=.signing → SameOrder server) :
    SignedSession (addScriptSigs node server vecTxIn).1 spent
        (calls++sigCalls node server spent vecTxIn) ∧
      ∀ call∈sigCalls node server spent vecTxIn,
        CallRight (calls++sigCalls node server spent vecTxIn) call := by
  induction vecTxIn generalizing server calls with
  | nil =>
    simp only [sigCalls,append_nil,not_mem_nil,false_implies,implies_true,and_true]
    exact hsigned
  | cons txin rest ih =>
    have hunsigned : server.nState=.signing → Unsigned txin (entryInputs server.vecEntries) :=
      fun hsigning => (honce hsigning).2 txin mem_cons_self
    obtain ⟨hone,hright⟩ := @signedSession_addScriptSig node server spent calls txin h
      hsigned hstate
      hunsigned horder
    have hafter : InSession (addScriptSig node server txin).1 := inSession_addScriptSig h hunsigned
    have hsame : (addScriptSig node server txin).1.nState=server.nState := addScriptSig_state txin
    dsimp only [addScriptSigs,sigCalls]
    cases hadded : (addScriptSig node server txin).2 with
    | false =>
      have hcall : (sigCall node server spent txin).added=false := hadded
      simp only [hcall,Bool.false_eq_true,if_false]
      refine ⟨hone,?_⟩
      intro call hmember
      rw [mem_singleton.mp hmember]
      exact hright
    | true =>
      have hcall : (sigCall node server spent txin).added=true := hadded
      have hlater := @ih (addScriptSig node server txin).1
        (calls++[sigCall node server spent txin]) hafter hone (hsame ▸ hstate)
        (fun hsigning => signsOnce_addScriptSig (honce (hsame ▸ hsigning)))
        (fun hsigning => sameOrder_addScriptSig (horder (hsame ▸ hsigning)))
      simp only [hcall,if_true]
      have hlist : calls++sigCall node server spent txin::
          sigCalls node (sigCall node server spent txin).after spent rest=
          calls++[sigCall node server spent txin]++
            sigCalls node (addScriptSig node server txin).1 spent rest :=
        append_cons _ _ _
      rw [hlist]
      refine ⟨hlater.1,?_⟩
      intro call hmember
      obtain heq | htail := mem_cons.mp hmember
      · rw [heq]
        exact callRight_append hright _
      · exact hlater.2 call htail

end Steps

section Runs

variable {node : ServerNode}

/-- No output that an entry spends has a script, and signatures come in the order of the entries to
the final transaction. -/
def Signable (node : ServerNode) (server : CPrivateSendServer) (event : Event) : Prop :=
  Orderly node server event ∧
  match event with
  | .dsVin _ vecTxIn _ _ => ∀ txin∈vecTxIn,(coinOut node.pcoinsTip txin.prevout).scriptPubKey=[]
  | .dsSignFinalTx _ vecTxIn => (server.nState=.acceptingEntries → vecTxIn=[]) ∧
      (server.nState=.signing → SameOrder server)
  | _ => True

theorem checkPool_cases {server : CPrivateSendServer} (h : InSession server) :
    (checkPool node server).server=server ∨ (checkPool node server).server=setNull node server := by
  rw [checkPool]
  split
  case isTrue hfull =>
    have hroom := h.accepting hfull.1
    exact absurd hfull.2 (by omega)
  case isFalse _ =>
    split
    · exact Or.inr (commitFinalTransaction_eq node server)
    · exact Or.inl rfl

theorem signedSession_relayStatus {server : CPrivateSendServer} {spent : COutPoint → CTxOut}
    {calls : List SigCall} (h : SignedSession server spent calls) :
    SignedSession (relayStatus node server) spent calls := by
  obtain heq | heq := relayStatus_cases node server
  · rw [heq]
    exact h
  · rw [heq]
    exact signedSession_of_noEntries rfl

theorem signedSession_doMaintenance {server : CPrivateSendServer} {spent : COutPoint → CTxOut}
    {calls : List SigCall} (hsession : InSession server) (h : SignedSession server spent calls) :
    SignedSession (doMaintenance node server) spent calls := by
  rw [doMaintenance]
  split
  · exact h
  · obtain heq | heq := checkTimeout_cases node server
    · rw [heq]
      obtain hsame | ⟨hqueue,hsame⟩ := checkForCompleteQueue_cases (checkQueue node server)
      · rw [hsame]
        exact { h with }
      · rw [hsame]
        exact signedSession_of_noEntries (hsession.queue hqueue)
    · rw [heq]
      obtain hsame | ⟨_,hsame⟩ := checkForCompleteQueue_cases (setNull node server)
      · rw [hsame]
        exact signedSession_of_noEntries rfl
      · rw [hsame]
        exact signedSession_of_noEntries rfl

theorem signedSession_withEntry {server : CPrivateSendServer} {spent : COutPoint → CTxOut}
    {calls : List SigCall} {vecTxIn : List CTxIn} {txCollateral : CMutableTransaction}
    {vecTxOut : List CTxOut} {outcome : Outcome} (pfrom : CNode)
    (h : SignedSession server spent calls) (hstate : server.nState=.acceptingEntries)
    (htaken : EntryTaken node server (readEntry vecTxIn txCollateral vecTxOut) outcome)
    (hscripts : ∀ txin∈vecTxIn,(coinOut node.pcoinsTip txin.prevout).scriptPubKey=[]) (addr : ℕ) :
    SignedSession (checkPool node
        (withEntry node server { readEntry vecTxIn txCollateral vecTxOut with addr :=
          addr })).server
      (noteSpent node spent (.dsVin pfrom vecTxIn txCollateral vecTxOut)) calls := by
  have hadded : ∀ txdsin∈entryInputs (withEntry node server
      { readEntry vecTxIn txCollateral vecTxOut with addr := addr }).vecEntries,
      (txdsin.prevPubKey=[] ∧ (noteSpent node spent (.dsVin pfrom vecTxIn txCollateral vecTxOut)
          txdsin.prevout).scriptPubKey=[]) ∧ txdsin.fHasSig=false := by
    intro txdsin htxdsin
    simp only [withEntry,entryInputs,flatMap_append,flatMap_cons,flatMap_nil,
      append_nil,mem_append] at htxdsin
    obtain hold | hnew := htxdsin
    · have habsent : txdsin.prevout∉vecTxIn.map CTxIn.prevout := by
        rw [←readEntry_prevouts vecTxIn txCollateral vecTxOut]
        intro hprevout
        obtain ⟨txin,htxin,heq⟩ := mem_map.mp hprevout
        exact htaken.other txin htxin txdsin hold heq.symm
      simp only [noteSpent,habsent,if_false]
      exact ⟨h.scripts txdsin hold,h.unsigned hstate txdsin hold⟩
    · dsimp only [readEntry] at hnew
      obtain ⟨txin,htxin,heq⟩ := mem_map.mp hnew
      have hmember : txdsin.prevout∈vecTxIn.map CTxIn.prevout := by
        rw [←heq]
        exact mem_map.mpr ⟨txin,htxin,rfl⟩
      simp only [noteSpent,hmember,if_true]
      rw [←heq]
      exact ⟨⟨rfl,hscripts txin htxin⟩,rfl⟩
  rw [checkPool]
  split
  · rw [createFinalTransaction,relayFinalTransaction]
    obtain heq | heq := relayToEntries_cases node (withFinalTransaction
      (withEntry node server { readEntry vecTxIn txCollateral vecTxOut with addr := addr }))
    · rw [heq]
      exact {
        scripts := fun txdsin htxdsin => (hadded txdsin htxdsin).1
        unsigned := fun haccepting => PoolState.noConfusion haccepting
        signed := fun _ txdsin htxdsin hsig =>
          absurd ((hadded txdsin htxdsin).2.symm.trans hsig) Bool.false_ne_true }
    · rw [heq]
      exact signedSession_of_noEntries rfl
  · split
    case isTrue hsigning => exact PoolState.noConfusion (hstate.symm.trans hsigning.1)
    case isFalse _ =>
      exact {
        scripts := fun txdsin htxdsin => (hadded txdsin htxdsin).1
        unsigned := fun _ txdsin htxdsin => (hadded txdsin htxdsin).2
        signed := fun hsigning => PoolState.noConfusion (hstate.symm.trans hsigning) }

theorem signedSession_step {world : World} {event : Event} (hsession : InSession world.server)
    (h : SignedSession world.server world.spent world.calls)
    (hsignable : Signable node world.server event) :
    SignedSession (processEvent node world.server event).server (spentAfter node world event)
        (world.calls++callsOf node world event) ∧
      ∀ call∈callsOf node world event,CallRight (world.calls++callsOf node world event) call := by
  have hnone : ∀ call∈([] : List SigCall),CallRight (world.calls++[]) call :=
    fun call hcall => by cases hcall
  cases event with
  | maintenance =>
    exact ⟨signedSession_append (signedSession_doMaintenance hsession h) _,hnone⟩
  | dsAccept pfrom dsa =>
    refine ⟨signedSession_append ?_ _,hnone⟩
    dsimp only [spentAfter,processEvent]
    split
    · exact h
    · obtain ⟨hquiet,hserver⟩ := receiveDSAccept_cases node world.server pfrom dsa
      rw [hquiet.appended]
      obtain heq | hjoined := hserver
      · rw [heq]
        exact h
      · have hempty : world.server.vecEntries=[] := by
          obtain hidle | ⟨hqueue,_⟩ := hjoined.denom
          · exact (hsession.idle hidle).2
          · exact hsession.queue hqueue
        exact signedSession_of_noEntries (hjoined.entries.trans hempty)
  | dsVin pfrom vecTxIn txCollateral vecTxOut =>
    refine ⟨signedSession_append ?_ _,hnone⟩
    dsimp only [spentAfter,processEvent]
    split
    · exact h
    · obtain ⟨hquiet,hserver⟩ | htaken := receiveDSVin_cases node world.server pfrom
        (readEntry vecTxIn txCollateral vecTxOut)
      · rw [hquiet.appended]
        obtain heq | heq := hserver
        · rw [heq]
          exact h
        · rw [heq]
          exact signedSession_of_noEntries rfl
      · have hstate := accepting_of_taken hsession htaken.ready htaken.room
          (hsignable.1.1 htaken.ready)
        obtain ⟨addr,_,hserver⟩ := htaken.built
        rw [htaken.appended,hserver]
        exact signedSession_relayStatus
          (signedSession_withEntry pfrom h hstate htaken hsignable.2 addr)
  | dsSignFinalTx pfrom vecTxIn =>
    obtain ⟨horderly,hnoneYet,horder⟩ := hsignable
    dsimp only [spentAfter,processEvent,callsOf]
    by_cases hsynced : node.blockchainSynced=true
    case neg =>
      grind
    case pos =>
      have hquiet := (receiveDSSignFinalTx_cases node world.server pfrom vecTxIn).1
      simp only [hsynced,Bool.not_true,Bool.false_or,Bool.false_eq_true,if_false,hquiet]
      by_cases hversion : pfrom.nVersion < minPrivateSendPeerProtoVersion
      · simp only [receiveDSSignFinalTx,hversion,decide_true,if_true]
        exact ⟨signedSession_append h _,hnone⟩
      · simp only [hversion,decide_false,Bool.false_eq_true,if_false]
        have hscripts : SignedSession (addScriptSigs node world.server vecTxIn).1 world.spent
              (world.calls++sigCalls node world.server world.spent vecTxIn) ∧
            ∀ call∈sigCalls node world.server world.spent vecTxIn,
              CallRight (world.calls++sigCalls node world.server world.spent vecTxIn) call := by
          by_cases haccepting : world.server.nState=.acceptingEntries
          · rw [hnoneYet haccepting]
            exact ⟨signedSession_append h _,hnone⟩
          · exact signedSession_addScriptSigs hsession h haccepting horderly horder
        have hadded : InSession (addScriptSigs node world.server vecTxIn).1 :=
          inSession_addScriptSigs hsession horderly
        refine ⟨?_,hscripts.2⟩
        dsimp only [receiveDSSignFinalTx]
        rw [if_neg hversion]
        split
        · exact signedSession_relayStatus hscripts.1
        · obtain heq | heq := @checkPool_cases node _ hadded
          · dsimp only
            rw [heq]
            exact hscripts.1
          · dsimp only
            rw [heq]
            exact signedSession_of_noEntries rfl

/-- In every run in which signatures come for the final transaction, in the order of the entries and
for outputs without scripts, every script that came is right. -/
theorem callRight_of_signable {world : World} (hreached : Reached Signable world) :
    ∀ call∈world.calls,CallRight world.calls call := by
  have hall : InSession world.server ∧ SignedSession world.server world.spent world.calls ∧
      ∀ call∈world.calls,CallRight world.calls call := by
    induction hreached with
    | start =>
      exact ⟨inSession_fresh 0,signedSession_of_noEntries rfl,fun call hcall => by cases hcall⟩
    | step node event _ met ih =>
      obtain ⟨hsession,hsigned,hright⟩ := ih
      obtain ⟨hafter,hnew⟩ := signedSession_step hsession hsigned met
      refine ⟨(inSession_processEvent node hsession met.1).1,hafter,?_⟩
      intro call hcall
      obtain hold | hlater := mem_append.mp hcall
      · exact callRight_append (hright call hold) _
      · exact hnew call hlater
  exact hall.2.2

end Runs

/-- A second script for an input is refused, and yet it is written into the final transaction. -/
theorem refused_changesFinal :
    ¬(∀ world,Reached (fun _ _ _ => True) world → ∀ call∈world.calls,CallRight world.calls call) ∧
    (mixRun (mixSign 2 [0x52]::mixSign 2 [0x51]::mixEntry [4]::mixEntry [3]::mixEntry [2]::
      .maintenance::mixUsers 2)).calls.map (fun call => call.added)=[true,false] ∧
    (mixRun (mixSign 2 [0x51]::mixEntry [4]::mixEntry [3]::mixEntry [2]::.maintenance::
      mixUsers 2)).calls.map (fun call => (call.added,(call.spent ⟨2,0⟩).scriptPubKey,
        (entryInputs call.server.vecEntries).map CTxDSIn.prevPubKey))=
      [(true,mixScript,[[],[],[]])] ∧
    ¬SameOrder (mixRun (mixEntry [2]::mixEntry [3]::mixEntry [4]::.maintenance::
      mixUsers 2)).server := by
  have hadded : (mixRun (mixSign 2 [0x52]::mixSign 2 [0x51]::mixEntry [4]::mixEntry [3]::
      mixEntry [2]::.maintenance::mixUsers 2)).calls.map (fun call => call.added)=[true,false] := by
    decide
  have hwrong : ¬∀ call∈(mixRun (mixSign 2 [0x52]::mixSign 2 [0x51]::mixEntry [4]::mixEntry [3]::
      mixEntry [2]::.maintenance::mixUsers 2)).calls,call.added=false →
        call.after.finalMutableTransaction=call.server.finalMutableTransaction := by
    decide
  refine ⟨?_,hadded,by decide,by decide⟩
  intro hall
  exact hwrong (fun call hcall hrefused =>
    ((hall _ (reached_mixRun _) call hcall).refused hrefused).1)

/-- Three entries spend outputs without scripts, and all of them are signed. -/
theorem callRight_of_signable_bare : ∃ world : World,
    (∃ call∈world.calls,call.after.nState=.signing ∧ isSignaturesComplete call.after=true) ∧
    ∀ call∈world.calls,CallRight world.calls call := by
  have hscript : ∀ hash∈([2,3,4] : List Uint256),∀ txin∈([{ prevout := ⟨hash,0⟩ }] : List CTxIn),
      (coinOut (mixNode []).pcoinsTip txin.prevout).scriptPubKey=[] := by
    decide
  have hready : Reached Signable (runOf (mixNode []) (.maintenance::mixUsers 2)) :=
    .step (mixNode []) _ (.step (mixNode []) _ (.step (mixNode []) _ (.step (mixNode []) _ .start
      ⟨trivial,trivial⟩) ⟨trivial,trivial⟩) ⟨trivial,trivial⟩) ⟨trivial,trivial⟩
  have hentries : Reached Signable (runOf (mixNode []) (mixEntry [4]::mixEntry [3]::mixEntry [2]::
      .maintenance::mixUsers 2)) :=
    .step (mixNode []) _ (.step (mixNode []) _ (.step (mixNode []) _ hready
      ⟨⟨by decide,by decide⟩,hscript 2 (by decide)⟩)
      ⟨⟨by decide,by decide⟩,hscript 3 (by decide)⟩)
      ⟨⟨by decide,by decide⟩,hscript 4 (by decide)⟩
  have hsigned : Reached Signable (runOf (mixNode []) (mixSign 4 [0x53]::mixSign 3 [0x52]::
      mixSign 2 [0x51]::mixEntry [4]::mixEntry [3]::mixEntry [2]::.maintenance::mixUsers 2)) :=
    .step (mixNode []) _ (.step (mixNode []) _ (.step (mixNode []) _ hentries
      ⟨fun _ => by decide,fun hstate => absurd hstate (by decide),fun _ => by decide⟩)
      ⟨fun _ => by decide,fun hstate => absurd hstate (by decide),fun _ => by decide⟩)
      ⟨fun _ => by decide,fun hstate => absurd hstate (by decide),fun _ => by decide⟩
  exact ⟨_,by decide,callRight_of_signable hsigned⟩

end Pyrk.PrivateSendServer
