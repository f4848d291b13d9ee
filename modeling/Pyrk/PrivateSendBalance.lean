import Pyrk.PrivateSendSessions
import Mathlib.Algebra.BigOperators.Group.List.Basic

/-!
# Mixing transactions

Every entry is balanced, and has the denominations of the entries before it, but none is compared
with the denominations of the session.
-/

namespace Pyrk.PrivateSend

open Transaction

theorem usedBits_lt (vecTxOut : List CTxOut) (c : ℕ) (denominations : List ℤ) :
    usedBits vecTxOut c denominations<2^(c+denominations.length) := by
  induction denominations generalizing c with
  | nil => exact Nat.two_pow_pos _
  | cons nDenomValue rest ih =>
    have hrest := ih (c+1)
    have hlen : c+1+rest.length=c+(nDenomValue::rest).length := by
      rw [List.length_cons]
      omega
    rw [hlen] at hrest
    rw [usedBits]
    apply Nat.or_lt_two_pow _ hrest
    split
    · rw [Nat.one_shiftLeft]
      apply Nat.pow_lt_pow_right Nat.one_lt_two
      rw [List.length_cons]
      omega
    · exact Nat.two_pow_pos _

theorem getDenominations_lt (vecTxOut : List CTxOut) :
    getDenominations vecTxOut<1 <<< standardDenominations.length := by
  rw [getDenominations,Nat.one_shiftLeft]
  split
  · have hlt := usedBits_lt vecTxOut 0 standardDenominations
    rw [Nat.zero_add] at hlt
    exact hlt
  · exact Nat.two_pow_pos _

theorem isDenominatedAmount_of_getDenominations {vecTxOut : List CTxOut}
    (hdenom : getDenominations vecTxOut≠0) {txout : CTxOut} (htxout : txout∈vecTxOut) :
    isDenominatedAmount txout.nValue=true := by
  rw [getDenominations] at hdenom
  grind

end Pyrk.PrivateSend

namespace Pyrk.PrivateSendServer

open Script PrivateSend Coins
open Transaction hiding CTxIn

theorem sumInputs_eq {pcoinsTip : CoinsView} {vin : List CTxIn} {nValueIn : ℤ}
    (hsum : sumInputs pcoinsTip vin=some nValueIn) :
    nValueIn=(vin.map (fun txin => (coinOut pcoinsTip txin.prevout).nValue)).sum := by
  induction vin generalizing nValueIn with
  | nil =>
    cases hsum
    rfl
  | cons txin rest ih =>
    rw [sumInputs] at hsum
    cases hcoin : getUTXOCoin pcoinsTip txin.prevout with
    | none =>
      rw [hcoin] at hsum
      cases hsum
    | some entry =>
      rw [hcoin] at hsum
      rw [Option.map_eq_some_iff] at hsum
      obtain ⟨nRest,hrest,hadd⟩ := hsum
      rw [List.map_cons,List.sum_cons,←ih hrest,←hadd,coinOut,hcoin]

theorem checkOutputs_ok {vecTxOut : List CTxOut} (hchk : checkOutputs vecTxOut=.ok ()) :
    ∀ txout∈vecTxOut,isPayToPublicKeyHash txout.scriptPubKey=true := by
  induction vecTxOut with
  | nil =>
    intro txout htxout
    cases htxout
  | cons first rest ih =>
    rw [checkOutputs] at hchk
    grind

theorem checkEntry_ok {node : ServerNode} {entry : CPrivateSendEntry}
    (hchk : checkEntry node entry=.ok ()) :
    (∀ txout∈entry.vecTxOut,isPayToPublicKeyHash txout.scriptPubKey=true) ∧
    (entry.vecTxDSIn.map (fun txin => (coinOut node.pcoinsTip txin.prevout).nValue)).sum=
      sumOutputs entry.vecTxOut := by
  dsimp only [checkEntry,Bind.bind,Except.bind] at hchk
  cases houtputs : checkOutputs entry.vecTxOut with
  | error nMessageID =>
    rw [houtputs] at hchk
    cases hchk
  | ok _ =>
    rw [houtputs] at hchk
    cases hsum : sumInputs node.pcoinsTip (entry.vecTxDSIn.map CTxDSIn.toCTxIn) with
    | none =>
      rw [hsum] at hchk
      cases hchk
    | some nValueIn =>
      rw [hsum] at hchk
      dsimp only at hchk
      split at hchk
      · cases hchk
      case isFalse hfee =>
        have heq := sumInputs_eq hsum
        rw [List.map_map] at heq
        have hbalanced : nValueIn=sumOutputs entry.vecTxOut := by omega
        exact ⟨checkOutputs_ok houtputs,heq.symm.trans hbalanced⟩

theorem compatible_iff {server : CPrivateSendServer} {vecTxOut : List CTxOut} :
    isOutputsCompatibleWithSessionDenom server vecTxOut=true ↔ getDenominations vecTxOut≠0 ∧
      ∀ entry∈server.vecEntries,getDenominations vecTxOut=getDenominations entry.vecTxOut := by
  simp only [isOutputsCompatibleWithSessionDenom,Bool.and_eq_true,decide_eq_true_eq,
    List.all_eq_true]

theorem checkPool_built {node : ServerNode} {server session : CPrivateSendServer}
    (hbuilt : (checkPool node server).built=some session) :
    session=withFinalTransaction server ∧ maxPoolTransactions ≤ server.vecEntries.length := by
  rw [checkPool] at hbuilt
  grind

/-- An entry of a session: it is balanced, it pays to hashes, and it has the denominations. -/
structure Uniform (spent : COutPoint → CTxOut) (nSessionDenom : ℤ) (entry : CPrivateSendEntry) :
    Prop where
  balanced : (entry.vecTxDSIn.map (fun txin => (spent txin.prevout).nValue)).sum=sumOutputs
    entry.vecTxOut
  scripts : ∀ txout∈entry.vecTxOut,isPayToPublicKeyHash txout.scriptPubKey=true
  nonzero : getDenominations entry.vecTxOut≠0
  denominations : (getDenominations entry.vecTxOut : ℤ)=nSessionDenom

/-- What holds of the session and of the outputs that were noted. -/
structure UniformSession (server : CPrivateSendServer) (spent : COutPoint → CTxOut) : Prop where
  /-- Without a session there are neither users nor entries. -/
  idle : server.nState=.idle → server.vecSessionCollaterals=[] ∧ server.vecEntries=[]
  entries : ∀ entry∈server.vecEntries,Uniform spent server.nSessionDenom entry

/-- Inputs are worth what outputs pay, outputs pay standard amounts to hashes, and entries have the
denominations of the session. -/
structure BalancedTx (built : BuiltTx) : Prop where
  balanced : (built.session.finalMutableTransaction.vin.map (fun txin =>
    (built.spent txin.prevout).nValue)).sum=sumOutputs built.session.finalMutableTransaction.vout
  scripts : ∀ txout∈built.session.finalMutableTransaction.vout,
    isPayToPublicKeyHash txout.scriptPubKey=true
  amounts : ∀ txout∈built.session.finalMutableTransaction.vout, txout.nValue∈standardDenominations
  /-- Denominations of the entries are those of the session. -/
  denominations : ∀ entry∈built.session.vecEntries,
    (getDenominations entry.vecTxOut : ℤ)=built.session.nSessionDenom
  /-- They are a set of standard amounts that is not empty. -/
  session : 0<built.session.nSessionDenom ∧
    built.session.nSessionDenom<(1 <<< standardDenominations.length : ℕ)

theorem sum_flatMap {α : Type} (entries : List CPrivateSendEntry)
    (parts : CPrivateSendEntry → List α) (value : α → ℤ) :
    ((entries.flatMap parts).map value).sum=
      (entries.map (fun entry => ((parts entry).map value).sum)).sum := by
  induction entries with
  | nil => rfl
  | cons entry rest ih =>
    rw [List.flatMap_cons,List.map_append,List.sum_append,List.map_cons,List.sum_cons,ih]

theorem balancedTx_of_uniform {server : CPrivateSendServer} {spent : COutPoint → CTxOut}
    (h : UniformSession server spent) (hnonempty : server.vecEntries≠[]) :
    BalancedTx ⟨withFinalTransaction server,spent⟩ where
  balanced := by
    have hvin := (List.perm_insertionSort (fun a b => compareInputBIP69 b a=false)
      ((entryInputs server.vecEntries).map CTxDSIn.toCTxIn)).map (fun txin =>
      (spent txin.prevout).nValue)
    have hvout := (List.perm_insertionSort (fun a b => compareOutputBIP69 b a=false)
      (entryOutputs server.vecEntries)).map CTxOut.nValue
    calc _=(((entryInputs server.vecEntries).map CTxDSIn.toCTxIn).map (fun txin =>
            (spent txin.prevout).nValue)).sum := hvin.sum_eq
      _=((entryInputs server.vecEntries).map (fun txin => (spent txin.prevout).nValue)).sum := by
          rw [List.map_map]
          rfl
      _=(server.vecEntries.map (fun entry =>
            (entry.vecTxDSIn.map (fun txin => (spent txin.prevout).nValue)).sum)).sum :=
          sum_flatMap _ _ _
      _=(server.vecEntries.map (fun entry => (entry.vecTxOut.map CTxOut.nValue).sum)).sum := by
          rw [List.map_congr_left (fun entry hentry => (h.entries entry hentry).balanced)]
          rfl
      _=((entryOutputs server.vecEntries).map CTxOut.nValue).sum := (sum_flatMap _ _ _).symm
      _=_ := hvout.sum_eq.symm
  scripts := by
    intro txout htxout
    have hmember : txout∈entryOutputs server.vecEntries :=
      (List.perm_insertionSort _ _).mem_iff.mp htxout
    rw [entryOutputs,List.mem_flatMap] at hmember
    obtain ⟨entry,hentry,htxout⟩ := hmember
    exact (h.entries entry hentry).scripts txout htxout
  amounts := by
    intro txout htxout
    have hmember : txout∈entryOutputs server.vecEntries :=
      (List.perm_insertionSort _ _).mem_iff.mp htxout
    rw [entryOutputs,List.mem_flatMap] at hmember
    obtain ⟨entry,hentry,htxout⟩ := hmember
    rw [←isDenominatedAmount_iff]
    exact isDenominatedAmount_of_getDenominations (h.entries entry hentry).nonzero htxout
  denominations := fun entry hentry => (h.entries entry hentry).denominations
  session := by
    obtain ⟨entry,hentry⟩ := List.exists_mem_of_ne_nil _ hnonempty
    have hdenom := (h.entries entry hentry).denominations
    have hnonzero := (h.entries entry hentry).nonzero
    have hlt := getDenominations_lt entry.vecTxOut
    dsimp only [withFinalTransaction]
    omega

section Steps

variable {node : ServerNode} {server : CPrivateSendServer} {spent : COutPoint → CTxOut}

theorem uniformSession_of_noEntries (hentries : server.vecEntries=[])
    (hidle : server.nState=.idle → server.vecSessionCollaterals=[]) :
    UniformSession server spent where
  idle := fun hstate => ⟨hidle hstate,hentries⟩
  entries := by
    rw [hentries]
    intro entry hentry
    cases hentry

theorem uniformSession_setNull : UniformSession (setNull node server) spent :=
  uniformSession_of_noEntries rfl (fun _ => rfl)

theorem uniformSession_relayStatus (h : UniformSession server spent) :
    UniformSession (relayStatus node server) spent := by
  obtain heq | heq := relayStatus_cases node server
  · rw [heq]
    exact h
  · rw [heq]
    exact uniformSession_setNull

theorem uniformSession_checkPool (h : UniformSession server spent) :
    UniformSession (checkPool node server).server spent := by
  rw [checkPool]
  split
  · rw [createFinalTransaction,relayFinalTransaction]
    obtain heq | heq := relayToEntries_cases node (withFinalTransaction server)
    · rw [heq]
      exact { idle := fun hstate => PoolState.noConfusion hstate, entries := h.entries }
    · rw [heq]
      exact uniformSession_of_noEntries rfl (fun hstate => PoolState.noConfusion hstate)
  · split
    · dsimp only
      rw [commitFinalTransaction_eq]
      exact uniformSession_setNull
    · exact h

theorem uniformSession_joined {changed : CPrivateSendServer} (h : UniformSession server spent)
    (hjoined : Joined server changed) : UniformSession changed spent where
  idle := fun hstate => PoolState.noConfusion (hstate.symm.trans hjoined.queue)
  entries := by
    rw [hjoined.entries]
    obtain hidle | ⟨_,hdenom⟩ := hjoined.denom
    · rw [(h.idle hidle).2]
      intro entry hentry
      cases hentry
    · rw [hdenom]
      exact h.entries

theorem signEntries_mem {txin : CTxIn} {entries : List CPrivateSendEntry}
    {entry : CPrivateSendEntry} (hentry : entry∈(signEntries txin entries).1) :
    ∃ before∈entries,entry.vecTxOut=before.vecTxOut ∧
      entry.vecTxDSIn.map (fun input => input.prevout)=
        before.vecTxDSIn.map (fun input => input.prevout) := by
  induction entries with
  | nil => cases hentry
  | cons first rest ih =>
    rw [signEntries] at hentry
    split at hentry
    all_goals
      rw [List.mem_cons] at hentry
      obtain hfirst | hrest := hentry
    · rw [hfirst]
      exact ⟨first,List.mem_cons_self,rfl,signInputs_prevouts txin first.vecTxDSIn⟩
    · exact ⟨entry,List.mem_cons_of_mem _ hrest,rfl,rfl⟩
    · rw [hfirst]
      exact ⟨first,List.mem_cons_self,rfl,rfl⟩
    · obtain ⟨before,hbefore,heq⟩ := ih hrest
      exact ⟨before,List.mem_cons_of_mem _ hbefore,heq⟩

theorem uniformSession_withScriptSig {txin : CTxIn} (h : UniformSession server spent) :
    UniformSession (withScriptSig server txin) spent where
  idle := by
    intro hidle
    have hempty := (h.idle hidle).2
    dsimp only [withScriptSig]
    rw [hempty]
    exact ⟨(h.idle hidle).1,rfl⟩
  entries := by
    intro entry hentry
    obtain ⟨before,hbefore,hvout,hprevouts⟩ := signEntries_mem hentry
    have huniform := h.entries before hbefore
    have hvalues : entry.vecTxDSIn.map (fun input => (spent input.prevout).nValue)=
        before.vecTxDSIn.map (fun input => (spent input.prevout).nValue) := by
      have hmap := congrArg (List.map (fun prevout => (spent prevout).nValue)) hprevouts
      rw [List.map_map,List.map_map] at hmap
      exact hmap
    exact {
      balanced := by rw [hvalues,hvout]; exact huniform.balanced
      scripts := by rw [hvout]; exact huniform.scripts
      nonzero := by rw [hvout]; exact huniform.nonzero
      denominations := by rw [hvout]; exact huniform.denominations }

theorem uniformSession_addScriptSigs {vecTxIn : List CTxIn} (h : UniformSession server spent) :
    UniformSession (addScriptSigs node server vecTxIn).1 spent := by
  induction vecTxIn generalizing server with
  | nil => exact h
  | cons txin rest ih =>
    have hone : UniformSession (addScriptSig node server txin).1 spent := by
      obtain heq | heq := @addScriptSig_cases node server txin
      · rw [heq]
        exact h
      · rw [heq]
        exact uniformSession_withScriptSig h
    dsimp only [addScriptSigs]
    split
    · exact ih hone
    · exact hone

theorem uniformSession_doMaintenance (h : UniformSession server spent) :
    UniformSession (doMaintenance node server) spent := by
  rw [doMaintenance]
  split
  · exact h
  · have htimeout : UniformSession (checkTimeout node server) spent := by
      obtain heq | heq := checkTimeout_cases node server
      · rw [heq]
        exact { h with }
      · rw [heq]
        exact uniformSession_setNull
    obtain heq | ⟨_,heq⟩ := checkForCompleteQueue_cases (checkTimeout node server)
    · rw [heq]
      exact htimeout
    · rw [heq]
      exact { idle := fun hstate => PoolState.noConfusion hstate, entries := htimeout.entries }

/-- A new entry keeps the others right, and is right if it is not the first one or has the
denominations of the session. -/
theorem uniformSession_withEntry {vecTxIn : List CTxIn} {txCollateral : CMutableTransaction}
    {vecTxOut : List CTxOut} {outcome : Outcome} (pfrom : CNode) (h : UniformSession server spent)
    (htaken : EntryTaken node server (readEntry vecTxIn txCollateral vecTxOut) outcome) (addr : ℕ)
    (hfirst : server.vecEntries=[] → (getDenominations vecTxOut : ℤ)=server.nSessionDenom) :
    UniformSession
      (withEntry node server { readEntry vecTxIn txCollateral vecTxOut with addr := addr })
      (noteSpent node spent (.dsVin pfrom vecTxIn txCollateral vecTxOut)) where
  idle := by
    intro hidle
    have hready := htaken.ready
    simp only [isSessionReady,decide_eq_true_eq,(h.idle hidle).1,List.length_nil,
      maxPoolTransactions] at hready
    omega
  entries := by
    obtain ⟨hnonzero,hsame⟩ := compatible_iff.mp htaken.compatible
    obtain ⟨hscripts,hbalanced⟩ := checkEntry_ok htaken.checked
    intro other hother
    dsimp only [withEntry] at hother
    rw [List.mem_append,List.mem_singleton] at hother
    obtain hold | hnew := hother
    · have huniform := h.entries other hold
      have hvalues : other.vecTxDSIn.map (fun txin =>
          (noteSpent node spent (.dsVin pfrom vecTxIn txCollateral vecTxOut) txin.prevout).nValue)=
          other.vecTxDSIn.map (fun txin => (spent txin.prevout).nValue) := by
        apply List.map_congr_left
        intro txdsin htxdsin
        have hmember : txdsin∈entryInputs server.vecEntries :=
          List.mem_flatMap.mpr ⟨other,hold,htxdsin⟩
        have habsent : txdsin.prevout∉vecTxIn.map CTxIn.prevout := by
          rw [←readEntry_prevouts vecTxIn txCollateral vecTxOut]
          intro hprevout
          obtain ⟨txin,htxin,heq⟩ := List.mem_map.mp hprevout
          exact htaken.other txin htxin txdsin hmember heq.symm
        simp only [noteSpent,habsent,if_false]
      exact {
        balanced := by rw [hvalues]; exact huniform.balanced
        scripts := huniform.scripts
        nonzero := huniform.nonzero
        denominations := huniform.denominations }
    · have hvalues : (readEntry vecTxIn txCollateral vecTxOut).vecTxDSIn.map (fun txin =>
          (noteSpent node spent (.dsVin pfrom vecTxIn txCollateral vecTxOut) txin.prevout).nValue)=
          (readEntry vecTxIn txCollateral vecTxOut).vecTxDSIn.map (fun txin =>
            (coinOut node.pcoinsTip txin.prevout).nValue) := by
        apply List.map_congr_left
        intro txin htxin
        have hmember : txin.prevout∈vecTxIn.map CTxIn.prevout := by
          rw [←readEntry_prevouts vecTxIn txCollateral vecTxOut]
          exact List.mem_map.mpr ⟨txin,htxin,rfl⟩
        simp only [noteSpent,hmember,if_true]
      have hdenom : (getDenominations vecTxOut : ℤ)=server.nSessionDenom := by
        cases hentries : server.vecEntries with
        | nil => exact hfirst hentries
        | cons first rest =>
          have hmember : first∈server.vecEntries := hentries ▸ List.mem_cons_self
          have hfirstSame : getDenominations vecTxOut=getDenominations first.vecTxOut :=
            hsame first hmember
          rw [hfirstSame]
          exact (h.entries first hmember).denominations
      rw [hnew]
      exact {
        balanced := by rw [hvalues]; exact hbalanced
        scripts := hscripts
        nonzero := hnonzero
        denominations := hdenom }

end Steps

section Runs

variable (node : ServerNode)

/-- The first entry of a session has the denominations of the session. -/
def FirstMatches (_node : ServerNode) (server : CPrivateSendServer) : Event → Prop
  | .dsVin _ _ _ vecTxOut => isSessionReady server=true → server.vecEntries=[] →
      (getDenominations vecTxOut : ℤ)=server.nSessionDenom
  | _ => True

theorem balancedTx_of_checkPool {server session : CPrivateSendServer} {spent : COutPoint → CTxOut}
    (h : UniformSession server spent) (hbuilt : (checkPool node server).built=some session) :
    BalancedTx ⟨session,spent⟩ := by
  obtain ⟨heq,hfull⟩ := checkPool_built hbuilt
  rw [heq]
  apply balancedTx_of_uniform h
  intro hempty
  rw [hempty,List.length_nil,maxPoolTransactions] at hfull
  omega

theorem uniformSession_step {world : World} {event : Event}
    (h : UniformSession world.server world.spent)
    (hmatches : FirstMatches node world.server event) :
    UniformSession (processEvent node world.server event).server (spentAfter node world event) ∧
    ∀ session∈(processEvent node world.server event).built,
      BalancedTx ⟨session,spentAfter node world event⟩ := by
  cases event with
  | maintenance =>
    exact ⟨uniformSession_doMaintenance h,fun session hbuilt => by cases hbuilt⟩
  | dsAccept pfrom dsa =>
    dsimp only [spentAfter,processEvent]
    split
    · exact ⟨h,fun session hbuilt => by cases hbuilt⟩
    · obtain ⟨hquiet,hserver⟩ := receiveDSAccept_cases node world.server pfrom dsa
      rw [hquiet.appended,hquiet.built]
      obtain heq | hjoined := hserver
      · rw [heq]
        exact ⟨h,fun session hbuilt => by cases hbuilt⟩
      · exact ⟨uniformSession_joined h hjoined,fun session hbuilt => by cases hbuilt⟩
  | dsVin pfrom vecTxIn txCollateral vecTxOut =>
    dsimp only [spentAfter,processEvent]
    split
    · exact ⟨h,fun session hbuilt => by cases hbuilt⟩
    · obtain ⟨hquiet,hserver⟩ | htaken := receiveDSVin_cases node world.server pfrom
        (readEntry vecTxIn txCollateral vecTxOut)
      · rw [hquiet.appended,hquiet.built]
        obtain heq | heq := hserver
        · rw [heq]
          exact ⟨h,fun session hbuilt => by cases hbuilt⟩
        · rw [heq]
          exact ⟨uniformSession_setNull,fun session hbuilt => by cases hbuilt⟩
      · obtain ⟨addr,hbuilt,hserver⟩ := htaken.built
        rw [htaken.appended,hserver,hbuilt]
        have hadded := uniformSession_withEntry pfrom h htaken addr (hmatches htaken.ready)
        exact ⟨uniformSession_relayStatus (uniformSession_checkPool hadded),
          fun session hsession => balancedTx_of_checkPool node hadded hsession⟩
  | dsSignFinalTx pfrom vecTxIn =>
    dsimp only [spentAfter,processEvent]
    split
    · exact ⟨h,fun session hbuilt => by cases hbuilt⟩
    · have hadded : UniformSession (addScriptSigs node world.server vecTxIn).1 world.spent :=
        uniformSession_addScriptSigs h
      obtain ⟨hquiet,⟨hnone,heq | heq⟩ | ⟨heq,hbuilt⟩⟩ :=
        receiveDSSignFinalTx_cases node world.server pfrom vecTxIn
      · rw [hquiet,heq,hnone.built]
        exact ⟨h,fun session hsession => by cases hsession⟩
      · rw [hquiet,heq,hnone.built]
        exact ⟨uniformSession_relayStatus hadded,fun session hsession => by cases hsession⟩
      · rw [hquiet,heq,hbuilt]
        exact ⟨uniformSession_checkPool hadded,
          fun session hsession => balancedTx_of_checkPool node hadded hsession⟩

/-- In every run in which first entries have the denominations, every transaction is right. -/
theorem balancedTx_of_firstMatches {world : World} (hreached : Reached FirstMatches world) :
    ∀ built∈world.built,BalancedTx built := by
  have hall : UniformSession world.server world.spent ∧ ∀ built∈world.built,BalancedTx built := by
    induction hreached with
    | start => exact ⟨uniformSession_of_noEntries rfl (fun _ => rfl),fun built hbuilt =>
      by cases hbuilt⟩
    | step node event _ met ih =>
      obtain ⟨hserver,hbuilt⟩ := uniformSession_step node ih.1 met
      refine ⟨hserver,?_⟩
      intro built hmember
      dsimp only [World.step] at hmember
      grind
  exact hall.2

end Runs

/-- Entries of one amount in a session for another one, and for no set of amounts, are built into
transactions. -/
theorem builtTx_otherDenominations :
    ¬(∀ world,Reached (fun _ _ _ => True) world → ∀ built∈world.built,BalancedTx built) ∧
    (mixRun (mixEntry [4]::mixEntry [3]::mixEntry [2]::.maintenance::mixUsers 1)).built.map
      (fun built => (built.session.nSessionDenom,
        built.session.vecEntries.map (fun entry => getDenominations entry.vecTxOut)))=
      [(1,[2,2,2])] ∧
    (mixRun (mixEntry [4]::mixEntry [3]::mixEntry [2]::.maintenance::mixUsers (-1))).built.map
      (fun built => built.session.nSessionDenom)=[-1] := by
  have hone : (mixRun (mixEntry [4]::mixEntry [3]::mixEntry [2]::.maintenance::
      mixUsers 1)).built.map (fun built => (built.session.nSessionDenom,
        built.session.vecEntries.map (fun entry => getDenominations entry.vecTxOut)))=
      [(1,[2,2,2])] := by
    decide
  have hneg : (mixRun (mixEntry [4]::mixEntry [3]::mixEntry [2]::.maintenance::
      mixUsers (-1))).built.map (fun built => built.session.nSessionDenom)=[-1] := by
    decide
  refine ⟨?_,hone,hneg⟩
  intro hall
  have hmember : (-1 : ℤ)∈(mixRun (mixEntry [4]::mixEntry [3]::mixEntry [2]::.maintenance::
      mixUsers (-1))).built.map (fun built => built.session.nSessionDenom) := by
    rw [hneg]
    exact List.mem_singleton_self _
  obtain ⟨built,hbuilt,hdenom⟩ := List.mem_map.mp hmember
  have hsession := (hall _ (reached_mixRun _) built hbuilt).session.1
  omega

/-- Three users join, the timer runs, and three entries come. -/
theorem balancedTx_of_firstMatches_mixed : ∃ world : World,world.built.length=1 ∧
    ∀ built∈world.built,BalancedTx built := by
  have hready : Reached FirstMatches (mixRun (.maintenance::mixUsers 2)) :=
    .step (mixNode mixScript) _ (.step (mixNode mixScript) _
      (.step (mixNode mixScript) _ (.step (mixNode mixScript) _ .start trivial) trivial)
      trivial) trivial
  have hmixed : Reached FirstMatches (mixRun (mixEntry [4]::mixEntry [3]::mixEntry [2]::
      .maintenance::mixUsers 2)) :=
    .step (mixNode mixScript) _ (.step (mixNode mixScript) _
      (.step (mixNode mixScript) _ hready (fun _ _ => by decide))
      (fun _ _ => by decide)) (fun _ _ => by decide)
  exact ⟨_,by decide,balancedTx_of_firstMatches hmixed⟩

end Pyrk.PrivateSendServer
