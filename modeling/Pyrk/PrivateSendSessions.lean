import Pyrk.PrivateSendServer

/-!
# Sessions of the mixing server

What a handler does to the session is said once for each of them, with the calls after which the
session follows its states.
-/

namespace Pyrk.PrivateSendServer

open Script PrivateSend Coins List Bool PoolState
open Transaction hiding CTxIn

section Relays

variable (node : ServerNode)

theorem relayStatus_cases (server : CPrivateSendServer) :
    relayStatus node server=server ∨ relayStatus node server=setNull node server := by
  dsimp only [relayStatus]
  split
  · exact .inl rfl
  · split
    · exact .inr rfl
    · exact .inl rfl

theorem relayToEntries_cases (server : CPrivateSendServer) :
    relayToEntries node server=server ∨ relayToEntries node server=setNull node server := by
  dsimp only [relayToEntries]
  split
  · exact .inl rfl
  · exact relayStatus_cases node server

theorem commitFinalTransaction_eq (server : CPrivateSendServer) :
    commitFinalTransaction node server=setNull node server := by
  dsimp only [commitFinalTransaction]
  split
  · have hempty : (setNull node server).vecEntries=[] := rfl
    simp only [relayCompletedTransaction,relayToEntries,hempty,all_nil,if_true]
  · rfl

end Relays

section Scripts

theorem signInputs_prevouts (txin : CTxIn) (inputs : List CTxDSIn) :
    (signInputs txin inputs).1.map (fun input => input.prevout)=
      inputs.map (fun input => input.prevout) := by
  induction inputs with
  | nil => rfl
  | cons txdsin rest ih =>
    rw [signInputs]
    split
    · split <;> simp only [map_cons]
    · simp only [map_cons,ih]

theorem signEntries_outputs (txin : CTxIn) (entries : List CPrivateSendEntry) :
    (signEntries txin entries).1.map CPrivateSendEntry.vecTxOut=
      entries.map CPrivateSendEntry.vecTxOut := by
  induction entries with
  | nil => rfl
  | cons entry rest ih =>
    rw [signEntries]
    split
    · simp only [map_cons]
    · simp only [map_cons,ih]

theorem signEntries_length (txin : CTxIn) (entries : List CPrivateSendEntry) :
    (signEntries txin entries).1.length=entries.length := by
  have hlen := congrArg List.length (signEntries_outputs txin entries)
  simpa only [length_map] using hlen

theorem signEntries_prevouts (txin : CTxIn) (entries : List CPrivateSendEntry) :
    (entryInputs (signEntries txin entries).1).map (fun input => input.prevout)=
      (entryInputs entries).map (fun input => input.prevout) := by
  induction entries with
  | nil => rfl
  | cons entry rest ih =>
    simp only [entryInputs] at ih
    rw [signEntries]
    split
    · simp only [entryInputs,flatMap_cons,map_append,signInputs_prevouts]
    · simp only [entryInputs,flatMap_cons,map_append,ih]

theorem signEntries_entryOutputs (txin : CTxIn) (entries : List CPrivateSendEntry) :
    entryOutputs (signEntries txin entries).1=entryOutputs entries := by
  rw [entryOutputs,flatMap_def,signEntries_outputs,←flatMap_def,entryOutputs]

/-- An input that is the same is not signed. -/
def Unsigned (txin : CTxIn) (inputs : List CTxDSIn) : Prop :=
  ∀ txdsin∈inputs,sameInput txin txdsin.toCTxIn=true → txdsin.fHasSig=false

variable {txin : CTxIn}

theorem signInputs_taken {inputs : List CTxDSIn} (hunsigned : Unsigned txin inputs) :
    (signInputs txin inputs).2=inputs.any (fun txdsin => sameInput txin txdsin.toCTxIn) := by
  induction inputs with
  | nil => rfl
  | cons txdsin rest ih =>
    rw [signInputs,any_cons]
    split
    case isTrue hsame =>
      rw [hunsigned txdsin mem_cons_self hsame,hsame]
      rfl
    case isFalse hsame =>
      rw [Bool.eq_false_iff.mpr hsame,Bool.false_or]
      exact ih (fun input hinput => hunsigned input (mem_cons_of_mem _ hinput))

theorem map_setScriptSig_other {inputs : List CTxIn}
    (hother : ∀ input∈inputs,sameInput txin input=false) :
    inputs.map (setScriptSig txin)=inputs := by
  have hid : ∀ input∈inputs,setScriptSig txin input=input := by
    intro input hinput
    simp only [setScriptSig,hother input hinput,false_eq_true,if_false]
  calc inputs.map (setScriptSig txin)=inputs.map id := map_congr_left hid
    _=inputs := map_id inputs

theorem prevout_of_sameInput {txin other : CTxIn} (hsame : sameInput txin other=true) :
    other.prevout=txin.prevout := by
  simp only [sameInput,and_eq_true,decide_eq_true_eq] at hsame
  exact hsame.1

theorem signInputs_eq_map {inputs : List CTxDSIn}
    (hdistinct : (inputs.map (fun input => input.prevout)).Nodup)
    (hunsigned : Unsigned txin inputs) :
    (signInputs txin inputs).1.map CTxDSIn.toCTxIn=
      (inputs.map CTxDSIn.toCTxIn).map (setScriptSig txin) := by
  induction inputs with
  | nil => rfl
  | cons txdsin rest ih =>
    rw [map_cons,nodup_cons] at hdistinct
    rw [signInputs]
    split
    case isTrue hsame =>
      have hother : ∀ input∈rest.map CTxDSIn.toCTxIn,sameInput txin input=false := by
        intro input hinput
        rw [Bool.eq_false_iff]
        intro hagain
        have hmember : input.prevout∈rest.map (fun input => input.prevout) := by
          grind
        rw [prevout_of_sameInput hagain,←prevout_of_sameInput hsame] at hmember
        exact hdistinct.1 hmember
      rw [hunsigned txdsin mem_cons_self hsame]
      simp only [false_eq_true,if_false,map_cons,map_setScriptSig_other hother,
        setScriptSig,hsame,if_true]
    case isFalse hsame =>
      have hrest := ih hdistinct.2 (fun input hinput => hunsigned input (mem_cons_of_mem _ hinput))
      simp only [map_cons,hrest,setScriptSig,hsame,false_eq_true,if_false]

theorem signInputs_append {inputs others : List CTxDSIn} (hunsigned : Unsigned txin inputs) :
    (signInputs txin (inputs++others)).1=
      if (signInputs txin inputs).2 then (signInputs txin inputs).1++others
      else inputs++(signInputs txin others).1 := by
  induction inputs with
  | nil => rfl
  | cons txdsin rest ih =>
    have hrest := ih (fun input hinput => hunsigned input (mem_cons_of_mem _ hinput))
    rw [cons_append,signInputs,signInputs]
    split
    case isTrue hsame =>
      rw [hunsigned txdsin mem_cons_self hsame]
      rfl
    case isFalse hsame =>
      rw [hrest]
      split <;> rfl

theorem entryInputs_signEntries {entries : List CPrivateSendEntry}
    (hunsigned : Unsigned txin (entryInputs entries)) :
    entryInputs (signEntries txin entries).1=(signInputs txin (entryInputs entries)).1 := by
  induction entries with
  | nil => rfl
  | cons entry rest ih =>
    have hsplit : entryInputs (entry::rest)=entry.vecTxDSIn++entryInputs rest :=
      flatMap_cons
    rw [hsplit] at hunsigned
    have hrest := ih (fun input hinput => hunsigned input (mem_append_right _ hinput))
    have hentry : Unsigned txin entry.vecTxDSIn :=
      fun input hinput => hunsigned input (mem_append_left _ hinput)
    rw [hsplit,signInputs_append hentry,signEntries]
    split
    · simp only [entryInputs,flatMap_cons]
    · rw [←hrest]
      simp only [entryInputs,flatMap_cons]

end Scripts

section Handlers

variable (node : ServerNode) (server : CPrivateSendServer)

/-- What happened to the server when a user joined. -/
structure Joined (changed : CPrivateSendServer) : Prop where
  waiting : isSessionReady server=false
  collaterals : ∃ txCollateral,
    changed.vecSessionCollaterals=server.vecSessionCollaterals++[txCollateral]
  entries : changed.vecEntries=server.vecEntries
  queue : changed.nState=.queue
  /-- The session was started, or had the same denominations. -/
  denom : server.nState=.idle ∨ server.nState=.queue ∧ changed.nSessionDenom=server.nSessionDenom

theorem joined_of_createNewSession {server changed : CPrivateSendServer} {dsa : CPrivateSendAccept}
    (hwaiting : isSessionReady server=false)
    (hcreated : createNewSession node server dsa=.ok changed) : Joined server changed := by
  dsimp only [createNewSession] at hcreated
  split at hcreated
  · cases hcreated
  · split at hcreated
    · cases hcreated
    case isFalse hidle =>
      cases hacceptable : isAcceptableDSA node dsa with
      | error nMessageID =>
        rw [hacceptable] at hcreated
        cases hcreated
      | ok _ =>
        rw [hacceptable] at hcreated
        cases hcreated
        exact ⟨hwaiting,⟨_,rfl⟩,rfl,rfl,.inl (not_not.mp hidle)⟩

theorem joined_of_addUserToExistingSession {server changed : CPrivateSendServer}
    {dsa : CPrivateSendAccept} (hwaiting : isSessionReady server=false)
    (hadded : addUserToExistingSession node server dsa=.ok changed) : Joined server changed := by
  dsimp only [addUserToExistingSession] at hadded
  split at hadded
  · cases hadded
  · cases hacceptable : isAcceptableDSA node dsa with
    | error nMessageID =>
      rw [hacceptable] at hadded
      cases hadded
    | ok _ =>
      rw [hacceptable] at hadded
      split at hadded
      · cases hadded
      case isFalse hqueue =>
        split at hadded
        · cases hadded
        · cases hadded
          have hstate : server.nState=.queue := not_not.mp hqueue
          exact ⟨hwaiting,⟨_,rfl⟩,rfl,hstate,.inr ⟨hstate,rfl⟩⟩

/-- What comes of a message that adds no entry and builds no transaction. -/
structure Quiet (outcome : Outcome) : Prop where
  appended : outcome.appended=none
  built : outcome.built=none

variable (pfrom : CNode)

theorem receiveDSAccept_cases (dsa : CPrivateSendAccept) :
    Quiet (receiveDSAccept node server pfrom dsa) ∧
    ((receiveDSAccept node server pfrom dsa).server=server ∨
      Joined server (receiveDSAccept node server pfrom dsa).server) := by
  dsimp only [receiveDSAccept,refuse]
  split
  · exact ⟨⟨rfl,rfl⟩,.inl rfl⟩
  · split
    · exact ⟨⟨rfl,rfl⟩,.inl rfl⟩
    case isFalse hready =>
      have hwaiting : isSessionReady server=false := Bool.eq_false_iff.mpr hready
      split
      · exact ⟨⟨rfl,rfl⟩,.inl rfl⟩
      · split
        · exact ⟨⟨rfl,rfl⟩,.inl rfl⟩
        · split
          · exact ⟨⟨rfl,rfl⟩,.inl rfl⟩
          · split
            case h_1 changed hchanged =>
              have hjoined : Joined server changed := by
                split at hchanged
                · exact joined_of_createNewSession node hwaiting hchanged
                · exact joined_of_addUserToExistingSession node hwaiting hchanged
              exact ⟨⟨rfl,rfl⟩,.inr hjoined⟩
            case h_2 => exact ⟨⟨rfl,rfl⟩,.inl rfl⟩

theorem addEntry_ok {server added : CPrivateSendServer} {entryNew : CPrivateSendEntry}
    (hadded : addEntry node server entryNew=.ok added) :
    server.vecEntries.length < maxPoolTransactions ∧
    (∀ txin∈entryNew.vecTxDSIn,∀ txdsin∈entryInputs server.vecEntries,
      txdsin.prevout≠txin.prevout) ∧
    added=withEntry node server entryNew := by
  dsimp only [addEntry] at hadded
  grind

/-- What an entry met when it was added. -/
structure EntryTaken (entry : CPrivateSendEntry) (outcome : Outcome) : Prop where
  ready : isSessionReady server=true
  room : server.vecEntries.length < maxPoolTransactions
  other : ∀ txin∈entry.vecTxDSIn,∀ txdsin∈entryInputs server.vecEntries,txdsin.prevout≠txin.prevout
  compatible : isOutputsCompatibleWithSessionDenom server entry.vecTxOut=true
  /-- The entry is balanced and has the right scripts. -/
  checked : checkEntry node entry=.ok ()
  /-- The entry was added in the state of the session. -/
  appended : outcome.appended=some server.nState
  /-- The transaction is built if there are enough entries. -/
  built : ∃ addr,outcome.built=
    (checkPool node (withEntry node server { entry with addr := addr })).built ∧
    outcome.server=relayStatus node
      (checkPool node (withEntry node server { entry with addr := addr })).server

theorem receiveDSVin_cases (entry : CPrivateSendEntry) :
    Quiet (receiveDSVin node server pfrom entry) ∧
      ((receiveDSVin node server pfrom entry).server=server ∨
        (receiveDSVin node server pfrom entry).server=setNull node server) ∨
    EntryTaken node server entry (receiveDSVin node server pfrom entry) := by
  dsimp only [receiveDSVin,refuse]
  split
  · exact .inl ⟨⟨rfl,rfl⟩,.inl rfl⟩
  · split
    · exact .inl ⟨⟨rfl,rfl⟩,.inl rfl⟩
    case isFalse hready =>
      split
      · exact .inl ⟨⟨rfl,rfl⟩,.inl rfl⟩
      · split
        · exact .inl ⟨⟨rfl,rfl⟩,.inl rfl⟩
        · split
          · exact .inl ⟨⟨rfl,rfl⟩,.inl rfl⟩
          case isFalse hcompatible =>
            split
            · exact .inl ⟨⟨rfl,rfl⟩,.inl rfl⟩
            case h_2 hchk =>
              split
              · exact .inl ⟨⟨rfl,rfl⟩,.inr rfl⟩
              case h_2 added hadded =>
                obtain ⟨hroom,hother,heq⟩ := addEntry_ok node hadded
                simp only [not_eq_true,not_eq_false'] at hready hcompatible
                rw [heq]
                exact .inr ⟨hready,hroom,hother,hcompatible,hchk,rfl,⟨pfrom.addr,rfl,rfl⟩⟩

theorem receiveDSSignFinalTx_cases (vecTxIn : List CTxIn) :
    (receiveDSSignFinalTx node server pfrom vecTxIn).appended=none ∧
    (Quiet (receiveDSSignFinalTx node server pfrom vecTxIn) ∧
      ((receiveDSSignFinalTx node server pfrom vecTxIn).server=server ∨
        (receiveDSSignFinalTx node server pfrom vecTxIn).server=
          relayStatus node (addScriptSigs node server vecTxIn).1) ∨
    (receiveDSSignFinalTx node server pfrom vecTxIn).server=
        (checkPool node (addScriptSigs node server vecTxIn).1).server ∧
      (receiveDSSignFinalTx node server pfrom vecTxIn).built=
        (checkPool node (addScriptSigs node server vecTxIn).1).built) := by
  dsimp only [receiveDSSignFinalTx]
  split
  · exact ⟨rfl,.inl ⟨⟨rfl,rfl⟩,.inl rfl⟩⟩
  · split
    · exact ⟨rfl,.inl ⟨⟨rfl,rfl⟩,.inr rfl⟩⟩
    · exact ⟨rfl,.inr ⟨rfl,rfl⟩⟩

theorem checkTimeout_cases :
    checkTimeout node server=checkQueue node server ∨
    checkTimeout node server=setNull node server := by
  dsimp only [checkTimeout]
  split
  all_goals
    split
    · exact .inr rfl
    · exact .inl rfl

theorem checkForCompleteQueue_cases :
    checkForCompleteQueue server=server ∨ server.nState=.queue ∧
      checkForCompleteQueue server={ server with nState := .acceptingEntries } := by
  dsimp only [checkForCompleteQueue]
  split
  case isTrue hcomplete => exact .inr ⟨hcomplete.1,rfl⟩
  · exact .inl rfl

end Handlers

section Invariant

/-- What holds of the session before the pool is checked. -/
structure Kept (server : CPrivateSendServer) : Prop where
  /-- Without a session there are neither users nor entries. -/
  idle : server.nState=.idle → server.vecSessionCollaterals=[] ∧ server.vecEntries=[]
  queue : server.nState=.queue → server.vecEntries=[]
  entries : server.vecEntries.length ≤ maxPoolTransactions
  collaterals : server.vecSessionCollaterals.length ≤ maxPoolTransactions
  distinct : ((entryInputs server.vecEntries).map (fun txin => txin.prevout)).Nodup
  /-- While signatures are gathered, no entry can be added. -/
  full : server.nState=.signing →
    server.vecEntries.length=maxPoolTransactions ∨ server.vecSessionCollaterals=[]
  /-- The final transaction has the inputs of the entries. -/
  vin : server.nState=.signing →
    server.finalMutableTransaction.vin.Perm ((entryInputs server.vecEntries).map CTxDSIn.toCTxIn)
  /-- The final transaction has the outputs of the entries. -/
  vout : server.nState=.signing →
    server.finalMutableTransaction.vout.Perm (entryOutputs server.vecEntries)

/-- What holds of the session between messages. -/
structure InSession (server : CPrivateSendServer) : Prop extends Kept server where
  /-- A session that waits for entries does not have all of them. -/
  accepting : server.nState=.acceptingEntries → server.vecEntries.length < maxPoolTransactions

variable {node : ServerNode} {server : CPrivateSendServer}

theorem inSession_fresh (nTime : ℤ) : InSession { nTimeLastSuccessfulStep := nTime } where
  idle := fun _ => ⟨rfl,rfl⟩
  queue := fun _ => rfl
  entries := Nat.zero_le _
  collaterals := Nat.zero_le _
  distinct := nodup_nil
  full := fun _ => .inr rfl
  vin := fun _ => List.Perm.refl _
  vout := fun _ => List.Perm.refl _
  accepting := fun hstate => noConfusion hstate

theorem inSession_setNull : InSession (setNull node server) := inSession_fresh node.time

theorem inSession_relayStatus (h : InSession server) : InSession (relayStatus node server) := by
  obtain heq | heq := relayStatus_cases node server
  · rw [heq]
    exact h
  · rw [heq]
    exact inSession_setNull

theorem inSession_createFinalTransaction (h : Kept server)
    (hfull : server.vecEntries.length=maxPoolTransactions) :
    InSession (createFinalTransaction node server) := by
  rw [createFinalTransaction,relayFinalTransaction]
  obtain heq | heq := relayToEntries_cases node (withFinalTransaction server)
  · rw [heq]
    exact {
      idle := fun hstate => noConfusion hstate
      queue := fun hstate => noConfusion hstate
      entries := h.entries
      collaterals := h.collaterals
      distinct := h.distinct
      full := fun _ => .inl hfull
      vin := fun _ => perm_insertionSort _ _
      vout := fun _ => perm_insertionSort _ _
      accepting := fun hstate => noConfusion hstate }
  · rw [heq]
    exact {
      idle := fun hstate => noConfusion hstate
      queue := fun hstate => noConfusion hstate
      entries := Nat.zero_le _
      collaterals := Nat.zero_le _
      distinct := nodup_nil
      full := fun _ => .inr rfl
      vin := fun _ => List.Perm.refl _
      vout := fun _ => List.Perm.refl _
      accepting := fun hstate => noConfusion hstate }

theorem inSession_checkPool (h : Kept server) : InSession (checkPool node server).server := by
  rw [checkPool]
  split
  case isTrue hfull =>
    exact inSession_createFinalTransaction h (Nat.le_antisymm h.entries hfull.2)
  case isFalse hfull =>
    split
    · dsimp only
      rw [commitFinalTransaction_eq]
      exact inSession_setNull
    · exact { h with
        accepting := fun hstate => Nat.lt_of_not_le (fun hle => hfull ⟨hstate,hle⟩) }

theorem inSession_joined {changed : CPrivateSendServer} (h : InSession server)
    (hjoined : Joined server changed) : InSession changed := by
  have hempty : changed.vecEntries=[] := by
    rw [hjoined.entries]
    obtain hidle | hqueue := hjoined.denom
    · exact (h.idle hidle).2
    · exact h.queue hqueue.1
  obtain ⟨txCollateral,hcollaterals⟩ := hjoined.collaterals
  have hwaiting := hjoined.waiting
  simp only [isSessionReady,decide_eq_false_iff_not,Nat.not_le] at hwaiting
  have hstate := hjoined.queue
  exact {
    idle := fun hother => noConfusion (hother.symm.trans hstate)
    queue := fun _ => hempty
    entries := by rw [hempty]; exact Nat.zero_le _
    collaterals := by
      rw [hcollaterals,length_append,length_singleton]
      omega
    distinct := by rw [hempty]; exact nodup_nil
    full := fun hother => noConfusion (hother.symm.trans hstate)
    vin := fun hother => noConfusion (hother.symm.trans hstate)
    vout := fun hother => noConfusion (hother.symm.trans hstate)
    accepting := fun hother => noConfusion (hother.symm.trans hstate) }

theorem kept_withEntry {entry : CPrivateSendEntry} (h : InSession server)
    (hstate : server.nState=.acceptingEntries)
    (hdistinct : (entry.vecTxDSIn.map (fun txin => txin.prevout)).Nodup)
    (hother : ∀ txin∈entry.vecTxDSIn,∀ txdsin∈entryInputs server.vecEntries,
      txdsin.prevout≠txin.prevout) : Kept (withEntry node server entry) where
  idle := fun hidle => noConfusion (hstate.symm.trans hidle)
  queue := fun hqueue => noConfusion (hstate.symm.trans hqueue)
  entries := by
    have hroom := h.accepting hstate
    simp only [withEntry,length_append,length_singleton]
    omega
  collaterals := h.collaterals
  distinct := by
    simp only [withEntry,entryInputs,flatMap_append,flatMap_cons,flatMap_nil,append_nil,map_append]
    apply List.Nodup.append h.distinct hdistinct
    intro prevout hold hnew
    grind
  full := fun hsigning => noConfusion (hstate.symm.trans hsigning)
  vin := fun hsigning => noConfusion (hstate.symm.trans hsigning)
  vout := fun hsigning => noConfusion (hstate.symm.trans hsigning)

/-- A script goes into the final transaction and into an entry, if the input is not signed. -/
theorem inSession_withScriptSig {txin : CTxIn} (h : InSession server)
    (hunsigned : server.nState=.signing → Unsigned txin (entryInputs server.vecEntries)) :
    InSession (withScriptSig server txin) where
  idle := by
    intro hidle
    have hempty := (h.idle hidle).2
    dsimp only [withScriptSig]
    rw [hempty]
    exact ⟨(h.idle hidle).1,rfl⟩
  queue := by
    intro hqueue
    have hempty := h.queue hqueue
    dsimp only [withScriptSig]
    rw [hempty]
    rfl
  entries := by
    dsimp only [withScriptSig]
    rw [signEntries_length]
    exact h.entries
  collaterals := h.collaterals
  distinct := by
    dsimp only [withScriptSig]
    rw [signEntries_prevouts]
    exact h.distinct
  full := by
    dsimp only [withScriptSig]
    rw [signEntries_length]
    exact h.full
  vin := by
    intro hsigning
    dsimp only [withScriptSig]
    rw [entryInputs_signEntries (hunsigned hsigning),
      signInputs_eq_map h.distinct (hunsigned hsigning)]
    exact (h.vin hsigning).map _
  vout := by
    dsimp only [withScriptSig]
    rw [signEntries_entryOutputs]
    exact h.vout
  accepting := by
    dsimp only [withScriptSig]
    rw [signEntries_length]
    exact h.accepting

theorem unsigned_signInputs {txin other : CTxIn} {inputs : List CTxDSIn}
    (hne : other.prevout≠txin.prevout) (hunsigned : Unsigned other inputs) :
    Unsigned other (signInputs txin inputs).1 := by
  induction inputs with
  | nil => exact hunsigned
  | cons txdsin rest ih =>
    have hrest := ih (fun input hinput => hunsigned input (mem_cons_of_mem _ hinput))
    rw [signInputs]
    split
    case isTrue hsame =>
      split
      · exact hunsigned
      · intro input hinput hagain
        rw [mem_cons] at hinput
        obtain hhead | htail := hinput
        · rw [hhead] at hagain
          have hprevout := prevout_of_sameInput hagain
          exact absurd (hprevout.symm.trans (prevout_of_sameInput hsame)) hne
        · exact hunsigned input (mem_cons_of_mem _ htail) hagain
    case isFalse hsame =>
      intro input hinput hagain
      rw [mem_cons] at hinput
      obtain hhead | htail := hinput
      · rw [hhead] at hagain ⊢
        exact hunsigned txdsin mem_cons_self hagain
      · exact hrest input htail hagain

instance (txin : CTxIn) (inputs : List CTxDSIn) : Decidable (Unsigned txin inputs) :=
  inferInstanceAs (Decidable (∀ txdsin∈inputs,sameInput txin txdsin.toCTxIn=true →
    txdsin.fHasSig=false))

theorem addScriptSig_cases (txin : CTxIn) :
    (addScriptSig node server txin).1=server ∨
    (addScriptSig node server txin).1=withScriptSig server txin := by
  rw [addScriptSig]
  split
  · exact .inl rfl
  · split
    · exact .inl rfl
    · exact .inr rfl

/-- Every input is named once and is not signed. -/
def SignsOnce (vecTxIn : List CTxIn) (inputs : List CTxDSIn) : Prop :=
  (vecTxIn.map (fun txin => txin.prevout)).Nodup ∧ ∀ txin∈vecTxIn,Unsigned txin inputs

instance (vecTxIn : List CTxIn) (inputs : List CTxDSIn) : Decidable (SignsOnce vecTxIn inputs) :=
  inferInstanceAs (Decidable ((vecTxIn.map (fun txin => txin.prevout)).Nodup ∧
    ∀ txin∈vecTxIn,Unsigned txin inputs))

theorem signsOnce_addScriptSig {txin : CTxIn} {rest : List CTxIn}
    (honce : SignsOnce (txin::rest) (entryInputs server.vecEntries)) :
    SignsOnce rest (entryInputs (addScriptSig node server txin).1.vecEntries) := by
  obtain ⟨hnodup,hunsigned⟩ := honce
  rw [map_cons,nodup_cons] at hnodup
  obtain heq | heq := @addScriptSig_cases node server txin
  · rw [heq]
    exact ⟨hnodup.2,fun other hother => hunsigned other (mem_cons_of_mem _ hother)⟩
  · rw [heq]
    dsimp only [withScriptSig]
    rw [entryInputs_signEntries (hunsigned txin mem_cons_self)]
    have hother : ∀ other∈rest,Unsigned other
        (signInputs txin (entryInputs server.vecEntries)).1 := by
      intro other hother
      have hne : other.prevout≠txin.prevout := by
        intro hprevout
        exact hnodup.1 (mem_map.mpr ⟨other,hother,hprevout⟩)
      exact unsigned_signInputs hne (hunsigned other (mem_cons_of_mem _ hother))
    exact ⟨hnodup.2,hother⟩

theorem addScriptSig_state (txin : CTxIn) :
    (addScriptSig node server txin).1.nState=server.nState := by
  obtain heq | heq := @addScriptSig_cases node server txin
  · rw [heq]
  · rw [heq]
    rfl

theorem inSession_addScriptSig {txin : CTxIn} (h : InSession server)
    (hunsigned : server.nState=.signing → Unsigned txin (entryInputs server.vecEntries)) :
    InSession (addScriptSig node server txin).1 := by
  obtain heq | heq := @addScriptSig_cases node server txin
  · rw [heq]
    exact h
  · rw [heq]
    exact inSession_withScriptSig h hunsigned

theorem inSession_addScriptSigs {vecTxIn : List CTxIn} (h : InSession server)
    (honce : server.nState=.signing → SignsOnce vecTxIn (entryInputs server.vecEntries)) :
    InSession (addScriptSigs node server vecTxIn).1 := by
  induction vecTxIn generalizing server with
  | nil => exact h
  | cons txin rest ih =>
    have hone : InSession (addScriptSig node server txin).1 :=
      inSession_addScriptSig h (fun hsigning => (honce hsigning).2 txin mem_cons_self)
    have hrest : (addScriptSig node server txin).1.nState=.signing →
        SignsOnce rest (entryInputs (addScriptSig node server txin).1.vecEntries) := by
      rw [addScriptSig_state]
      exact fun hsigning => signsOnce_addScriptSig (honce hsigning)
    dsimp only [addScriptSigs]
    split
    · exact ih hone hrest
    · exact hone

theorem inSession_doMaintenance (h : InSession server) : InSession (doMaintenance node server) := by
  rw [doMaintenance]
  split
  · exact h
  · have htimeout : InSession (checkTimeout node server) := by
      obtain heq | heq := checkTimeout_cases node server
      · rw [heq]
        exact { h with }
      · rw [heq]
        exact inSession_setNull
    obtain heq | ⟨hqueue,heq⟩ := checkForCompleteQueue_cases (checkTimeout node server)
    · rw [heq]
      exact htimeout
    · rw [heq]
      have hempty := htimeout.queue hqueue
      exact {
        idle := fun hother => noConfusion hother
        queue := fun hother => noConfusion hother
        entries := htimeout.entries
        collaterals := htimeout.collaterals
        distinct := htimeout.distinct
        full := fun hother => noConfusion hother
        vin := fun hother => noConfusion hother
        vout := fun hother => noConfusion hother
        accepting := by
          intro _
          rw [hempty]
          exact Nat.zero_lt_succ _ }

end Invariant

section States

variable (node : ServerNode) (server : CPrivateSendServer)

/-- No entry comes while the full session waits or names an output twice, and no signature comes for
a signed input. -/
def Orderly (_node : ServerNode) (server : CPrivateSendServer) : Event → Prop
  | .dsAccept _ _ => True
  | .dsVin _ vecTxIn _ _ => (isSessionReady server=true → server.nState≠.queue) ∧
      (vecTxIn.map CTxIn.prevout).Nodup
  | .dsSignFinalTx _ vecTxIn =>
      server.nState=.signing → SignsOnce vecTxIn (entryInputs server.vecEntries)
  | .maintenance => True

theorem accepting_of_taken {server : CPrivateSendServer} (h : InSession server)
    (hready : isSessionReady server=true)
    (hroom : server.vecEntries.length < maxPoolTransactions) (hqueue : server.nState≠.queue) :
    server.nState=.acceptingEntries := by
  have hnonempty : server.vecSessionCollaterals≠[] := by
    intro hempty
    simp only [isSessionReady,decide_eq_true_eq,hempty,length_nil,maxPoolTransactions] at hready
    omega
  cases hstate : server.nState with
  | idle => exact absurd (h.idle hstate).1 hnonempty
  | queue => exact absurd hstate hqueue
  | acceptingEntries => rfl
  | signing =>
    obtain hfull | hempty := h.full hstate
    · omega
    · exact absurd hempty hnonempty

theorem readEntry_prevouts (vecTxIn : List CTxIn) (txCollateral : CMutableTransaction)
    (vecTxOut : List CTxOut) :
    (readEntry vecTxIn txCollateral vecTxOut).vecTxDSIn.map (fun txin => txin.prevout)=
      vecTxIn.map CTxIn.prevout := by
  rw [readEntry,map_map]
  rfl

theorem inSession_receiveDSVin {server : CPrivateSendServer} {pfrom : CNode}
    {entry : CPrivateSendEntry} (h : InSession server)
    (hqueue : isSessionReady server=true → server.nState≠.queue)
    (hdistinct : (entry.vecTxDSIn.map (fun txin => txin.prevout)).Nodup) :
    InSession (receiveDSVin node server pfrom entry).server ∧
    ∀ st∈(receiveDSVin node server pfrom entry).appended,st=.acceptingEntries := by
  obtain ⟨hquiet,hserver⟩ | htaken := receiveDSVin_cases node server pfrom entry
  · rw [hquiet.appended]
    obtain heq | heq := hserver
    · rw [heq]
      exact ⟨h,fun st hstate => by cases hstate⟩
    · rw [heq]
      exact ⟨inSession_setNull,fun st hstate => by cases hstate⟩
  · have hstate := accepting_of_taken h htaken.ready htaken.room (hqueue htaken.ready)
    obtain ⟨addr,_,hserver⟩ := htaken.built
    rw [htaken.appended,hserver,hstate]
    have hkept : Kept (withEntry node server { entry with addr := addr }) :=
      kept_withEntry h hstate hdistinct htaken.other
    exact ⟨inSession_relayStatus (inSession_checkPool hkept),
      fun st hmember => (Option.some.inj hmember).symm⟩

theorem inSession_receiveDSSignFinalTx {server : CPrivateSendServer} {pfrom : CNode}
    {vecTxIn : List CTxIn} (h : InSession server)
    (horderly : Orderly node server (.dsSignFinalTx pfrom vecTxIn)) :
    InSession (receiveDSSignFinalTx node server pfrom vecTxIn).server := by
  have hadded : InSession (addScriptSigs node server vecTxIn).1 :=
    inSession_addScriptSigs h horderly
  obtain ⟨_,⟨_,heq | heq⟩ | ⟨heq,_⟩⟩ := receiveDSSignFinalTx_cases node server pfrom vecTxIn
  · rw [heq]
    exact h
  · rw [heq]
    exact inSession_relayStatus hadded
  · rw [heq]
    exact inSession_checkPool hadded.toKept

/-- Whatever happens keeps the session, and entries are added only while they are gathered. -/
theorem inSession_processEvent {server : CPrivateSendServer} {event : Event} (h : InSession server)
    (horderly : Orderly node server event) :
    InSession (processEvent node server event).server ∧
    ∀ st∈(processEvent node server event).appended,st=.acceptingEntries := by
  cases event with
  | maintenance => exact ⟨inSession_doMaintenance h,fun st hstate => by cases hstate⟩
  | dsAccept pfrom dsa =>
    dsimp only [processEvent]
    split
    · exact ⟨h,fun st hstate => by cases hstate⟩
    · obtain ⟨hquiet,hserver⟩ := receiveDSAccept_cases node server pfrom dsa
      rw [hquiet.appended]
      obtain heq | hjoined := hserver
      · rw [heq]
        exact ⟨h,fun st hstate => by cases hstate⟩
      · exact ⟨inSession_joined h hjoined,fun st hstate => by cases hstate⟩
  | dsVin pfrom vecTxIn txCollateral vecTxOut =>
    dsimp only [processEvent]
    split
    · exact ⟨h,fun st hstate => by cases hstate⟩
    · have hdistinct : ((readEntry vecTxIn txCollateral vecTxOut).vecTxDSIn.map
          (fun txin => txin.prevout)).Nodup := by
        rw [readEntry_prevouts]
        exact horderly.2
      exact inSession_receiveDSVin node h horderly.1 hdistinct
  | dsSignFinalTx pfrom vecTxIn =>
    dsimp only [processEvent]
    split
    · exact ⟨h,fun st hstate => by cases hstate⟩
    · have hquiet := (receiveDSSignFinalTx_cases node server pfrom vecTxIn).1
      rw [hquiet]
      exact ⟨inSession_receiveDSSignFinalTx node h horderly,fun st hstate => by cases hstate⟩

theorem inSession_reached {world : World} (hreached : Reached Orderly world) :
    InSession world.server ∧ ∀ st∈world.appended,st=.acceptingEntries := by
  induction hreached with
  | start => exact ⟨inSession_fresh 0,fun st hstate => by cases hstate⟩
  | step node event _ met ih =>
    obtain ⟨hserver,happended⟩ := inSession_processEvent node ih.1 met
    refine ⟨hserver,?_⟩
    intro st hstate
    dsimp only [World.step] at hstate
    rw [mem_append,Option.mem_toList] at hstate
    obtain hold | hnew := hstate
    · exact ih.2 st hold
    · exact happended st hnew

structure FollowsStates (world : World) : Prop where
  /-- Entries were added only while they were gathered. -/
  appended : ∀ st∈world.appended,st=.acceptingEntries
  entries : world.server.vecEntries.length ≤ maxPoolTransactions
  collaterals : world.server.vecSessionCollaterals.length ≤ maxPoolTransactions
  /-- With enough entries, the final transaction is there and waits for signatures. -/
  created : world.server.vecEntries.length=maxPoolTransactions → world.server.nState=.signing
  /-- The final transaction has the inputs of the entries. -/
  vin : world.server.nState=.signing → world.server.finalMutableTransaction.vin.Perm
    ((entryInputs world.server.vecEntries).map CTxDSIn.toCTxIn)
  /-- The final transaction has the outputs of the entries. -/
  vout : world.server.nState=.signing →
    world.server.finalMutableTransaction.vout.Perm (entryOutputs world.server.vecEntries)
  /-- The final transaction spends every output once. -/
  distinct : world.server.nState=.signing →
    (world.server.finalMutableTransaction.vin.map (fun txin => txin.prevout)).Nodup

/-- In every run whose steps are orderly, the session follows its states. -/
theorem followsStates_of_orderly {world : World} (hreached : Reached Orderly world) :
    FollowsStates world where
  appended := (inSession_reached hreached).2
  entries := (inSession_reached hreached).1.entries
  collaterals := (inSession_reached hreached).1.collaterals
  created := by
    intro hfull
    have h := (inSession_reached hreached).1
    cases hstate : world.server.nState with
    | idle =>
      rw [(h.idle hstate).2] at hfull
      cases hfull
    | queue =>
      rw [h.queue hstate] at hfull
      cases hfull
    | acceptingEntries =>
      have hroom := h.accepting hstate
      omega
    | signing => rfl
  vin := (inSession_reached hreached).1.vin
  vout := (inSession_reached hreached).1.vout
  distinct := by
    intro hsigning
    have h := (inSession_reached hreached).1
    have hperm := (h.vin hsigning).map (fun txin => txin.prevout)
    rw [hperm.nodup_iff,map_map]
    exact h.distinct

end States

/-- A script that pays to a hash. -/
def mixScript : CScript := [0x76,0xa9,0x14]++List.replicate 20 0++[0x88,0xac]

def mixCollateral : CMutableTransaction where
  vin := [{ prevout := ⟨1,0⟩ }]
  vout := [⟨0,[0x6a]⟩]

/-- Coins for the collateral and for three entries of one amount. -/
def mixCoins (scriptPubKey : CScript) : CoinsView :=
  (((OrderedMap.empty.set ⟨1,0⟩ ⟨⟨collateralAmount,scriptPubKey⟩,false,1⟩).set ⟨2,0⟩
    ⟨⟨coin+1000,scriptPubKey⟩,false,1⟩).set ⟨3,0⟩ ⟨⟨coin+1000,scriptPubKey⟩,false,1⟩).set ⟨4,0⟩
    ⟨⟨coin+1000,scriptPubKey⟩,false,1⟩

def mixNode (scriptPubKey : CScript) : ServerNode where
  pcoinsTip := mixCoins scriptPubKey

/-- A user wants to mix some denominations. -/
def mixAccept (nDenom : ℤ) : Event := .dsAccept ⟨1,70213⟩ ⟨nDenom,mixCollateral⟩

/-- Three users want to mix the same denominations. -/
def mixUsers (nDenom : ℤ) : List Event := [mixAccept nDenom,mixAccept nDenom,mixAccept nDenom]

/-- An entry with some inputs of one amount. -/
def mixEntry (hashes : List Uint256) : Event :=
  .dsVin ⟨1,70213⟩ (hashes.map (fun hash => { prevout := ⟨hash,0⟩ })) mixCollateral
    (hashes.map (fun _ => ⟨coin+1000,mixScript⟩))

def mixSign (hash : Uint256) (scriptSig : CScript) : Event :=
  .dsSignFinalTx ⟨1,70213⟩ [{ prevout := ⟨hash,0⟩, scriptSig := scriptSig }]

/-- Some things happen at a node, the last of them first. -/
def runOf (node : ServerNode) : List Event → World
  | [] => {}
  | event::earlier => (runOf node earlier).step node event

/-- Some things happen where coins pay to a hash. -/
def mixRun (events : List Event) : World := runOf (mixNode mixScript) events

theorem reached_mixRun (events : List Event) : Reached (fun _ _ _ => True) (mixRun events) := by
  rw [mixRun]
  induction events with
  | nil => exact Reached.start
  | cons event earlier ih => exact Reached.step _ event ih trivial

/-- Three users join, and an entry that comes before the timer runs is added. An output that is
spent twice and a second signature spoil the final transaction too. -/
theorem sessions_leaveStates :
    ¬(∀ world,Reached (fun _ _ _ => True) world → FollowsStates world) ∧
    (mixRun (mixEntry [2]::mixUsers 2)).appended=[.queue] ∧
    (∃ world,Reached (fun _ _ _ => True) world ∧ world.server.nState=.signing ∧
      ¬(world.server.finalMutableTransaction.vin.map (fun txin => txin.prevout)).Nodup) ∧
    ∃ world,Reached (fun _ _ _ => True) world ∧ world.server.nState=.signing ∧
      ¬world.server.finalMutableTransaction.vin.Perm
        ((entryInputs world.server.vecEntries).map CTxDSIn.toCTxIn) := by
  have hqueue : (mixRun (mixEntry [2]::mixUsers 2)).appended=[.queue] := by decide
  have htwice : (mixRun (mixEntry [4]::mixEntry [3]::mixEntry [2,2]::.maintenance::
      mixUsers 2)).server.nState=.signing ∧
      ¬((mixRun (mixEntry [4]::mixEntry [3]::mixEntry [2,2]::.maintenance::
        mixUsers 2)).server.finalMutableTransaction.vin.map (fun txin => txin.prevout)).Nodup := by
    decide
  have hagain : (mixRun (mixSign 2 [0x52]::mixSign 2 [0x51]::mixEntry [4]::mixEntry [3]::
      mixEntry [2]::.maintenance::mixUsers 2)).server.nState=.signing ∧
      ¬(mixRun (mixSign 2 [0x52]::mixSign 2 [0x51]::mixEntry [4]::mixEntry [3]::
        mixEntry [2]::.maintenance::mixUsers 2)).server.finalMutableTransaction.vin.Perm
        ((entryInputs (mixRun (mixSign 2 [0x52]::mixSign 2 [0x51]::mixEntry [4]::mixEntry [3]::
          mixEntry [2]::.maintenance::mixUsers 2)).server.vecEntries).map CTxDSIn.toCTxIn) := by
    decide
  refine ⟨?_,hqueue,⟨_,reached_mixRun _,htwice⟩,⟨_,reached_mixRun _,hagain⟩⟩
  intro hall
  have happended := (hall _ (reached_mixRun _)).appended .queue (hqueue ▸ mem_singleton_self _)
  cases happended

/-- Three users join, the timer runs, and three entries come. -/
theorem followsStates_of_orderly_mixed : ∃ world,world.server.nState=.signing ∧
    FollowsStates world := by
  have hready : Reached Orderly (mixRun (.maintenance::mixUsers 2)) :=
    .step (mixNode mixScript) _ (.step (mixNode mixScript) _
      (.step (mixNode mixScript) _ (.step (mixNode mixScript) _ .start trivial) trivial)
      trivial) trivial
  have hmixed : Reached Orderly (mixRun (mixEntry [4]::mixEntry [3]::mixEntry [2]::.maintenance::
      mixUsers 2)) :=
    .step (mixNode mixScript) _ (.step (mixNode mixScript) _
      (.step (mixNode mixScript) _ hready ⟨by decide,by decide⟩)
      ⟨by decide,by decide⟩) ⟨by decide,by decide⟩
  exact ⟨_,by decide,followsStates_of_orderly hmixed⟩

end Pyrk.PrivateSendServer
