import Pyrk.PrivateSend
import Pyrk.Coins

/-!
# The mixing server

A masternode gathers users for a session, takes inputs and outputs from each of them, puts all of it
into one transaction and gathers signatures.
-/

namespace Pyrk.PrivateSendServer

open Script PrivateSend Coins
open Transaction hiding CTxIn

/-- An input with its sequence number. -/
structure CTxIn where
  prevout : COutPoint
  scriptSig : CScript := []
  nSequence : ℕ := 0xffffffff
  deriving DecidableEq

/-- An input of an entry. The last two are in memory only: a message does not have them. -/
structure CTxDSIn extends CTxIn where
  prevPubKey : CScript := []
  fHasSig : Bool := false
  deriving DecidableEq

/-- A transaction that may be changed. -/
structure CMutableTransaction where
  vin : List CTxIn := []
  vout : List CTxOut := []
  nLockTime : ℕ := 0
  deriving DecidableEq

/-- What a user puts into a session. -/
structure CPrivateSendEntry where
  vecTxDSIn : List CTxDSIn
  vecTxOut : List CTxOut
  txCollateral : CMutableTransaction
  addr : ℕ := 0
  deriving DecidableEq

/-- What a user asks for. -/
structure CPrivateSendAccept where
  nDenom : ℤ
  txCollateral : CMutableTransaction

/-- An announced session. -/
structure CPrivateSendQueue where
  nDenom : ℤ
  masternodeOutpoint : COutPoint
  nTime : ℤ
  fReady : Bool
  deriving DecidableEq

inductive PoolState where
  | idle
  | queue
  | acceptingEntries
  | signing
  deriving DecidableEq

/-- What a peer is told. -/
inductive PoolMessage where
  | errAlreadyHave
  | errDenom
  | errEntriesFull
  /-- Denominations are not those of the other entries. -/
  | errExistingTx
  | errFees
  | errInvalidCollateral
  | errInvalidInput
  | errInvalidScript
  | errMaximum
  | errMnList
  | errMode
  | errNonStandardPubkey
  | errQueueFull
  | errRecent
  | errSession
  | errMissingTx
  | errVersion
  | msgNoErr
  | msgEntriesAdded
  deriving DecidableEq

structure CPrivateSendServer where
  vecSessionCollaterals : List CMutableTransaction := []
  vecEntries : List CPrivateSendEntry := []
  nState : PoolState := .idle
  nTimeLastSuccessfulStep : ℤ := 0
  nSessionID : ℕ := 0
  finalMutableTransaction : CMutableTransaction := {}
  nSessionDenom : ℤ := 0
  vecPrivateSendQueue : List CPrivateSendQueue := []

structure ServerNode where
  blockchainSynced : Bool := true
  time : ℤ := 0
  adjustedTime : ℤ := 0
  pcoinsTip : CoinsView := OrderedMap.empty
  connected : ℕ → Bool := fun _ => true
  acceptToMemoryPool : CMutableTransaction → Bool := fun _ => true
  /-- Whether an unlocking script fits a script in an input of a transaction. -/
  verifyScript : CScript → CScript → CMutableTransaction → ℕ → Bool := fun _ _ _ _ => true
  masternodeOutpoint : COutPoint := COutPoint.null
  /-- When the masternode mixed last, if it is listed. -/
  nLastDsq : Option ℤ := some 0
  countMasternodes : ℤ := 0
  nDsqCount : ℤ := 0
  randInt : ℕ := 0

/-- A peer. -/
structure CNode where
  addr : ℕ
  nVersion : ℤ

/-- Users of a session. -/
def maxPoolTransactions : ℕ := 3

/-- Most inputs and outputs of an entry. -/
def privateSendEntryMaxSize : ℕ := 9

/-- Oldest version that may mix. -/
def minPrivateSendPeerProtoVersion : ℤ := 70213

/-- Seconds until a session times out. -/
def privateSendQueueTimeout : ℤ := 30

/-- Seconds until signing times out. -/
def privateSendSigningTimeout : ℤ := 15

variable (node : ServerNode)

section Sessions

/-- Forget the session. -/
def setNull (_server : CPrivateSendServer) : CPrivateSendServer :=
  { nTimeLastSuccessfulStep := node.time }

variable (server : CPrivateSendServer)

/-- There are enough users. -/
def isSessionReady : Bool :=
  maxPoolTransactions ≤ server.vecSessionCollaterals.length

/-- Tell the users of the entries; if none of them is connected, forget the session. -/
def relayStatus : CPrivateSendServer :=
  let nDisconnected := server.vecEntries.countP (fun entry => !node.connected entry.addr)
  if nDisconnected=0 then server
  else if nDisconnected=server.vecEntries.length then setNull node server
  else server

/-- Send something to the users of the entries, until one is not connected. -/
def relayToEntries : CPrivateSendServer :=
  if server.vecEntries.all (fun entry => node.connected entry.addr) then server
  else relayStatus node server

def relayFinalTransaction : CPrivateSendServer :=
  relayToEntries node server

/-- Send how the session ended. -/
def relayCompletedTransaction : CPrivateSendServer :=
  relayToEntries node server

variable (vecEntries : List CPrivateSendEntry)

def entryInputs : List CTxDSIn :=
  vecEntries.flatMap CPrivateSendEntry.vecTxDSIn

def entryOutputs : List CTxOut :=
  vecEntries.flatMap CPrivateSendEntry.vecTxOut

/-- Inputs are sorted by the outputs that they spend. -/
def compareInputBIP69 (a b : CTxIn) : Bool := a.prevout<b.prevout

/-- Scripts are compared by length and then by bytes. -/
def scriptLess (a b : CScript) : Bool :=
  a.length<b.length || (a.length=b.length && a.map UInt8.toNat<b.map UInt8.toNat)

/-- Outputs are sorted by amount and script. -/
def compareOutputBIP69 (a b : CTxOut) : Bool :=
  a.nValue<b.nValue || (a.nValue=b.nValue && scriptLess a.scriptPubKey b.scriptPubKey)

def finalTransaction : CMutableTransaction where
  vin := ((entryInputs vecEntries).map CTxDSIn.toCTxIn).insertionSort
    (fun a b => compareInputBIP69 b a=false)
  vout := (entryOutputs vecEntries).insertionSort (fun a b => compareOutputBIP69 b a=false)

def withFinalTransaction : CPrivateSendServer :=
  { server with finalMutableTransaction := finalTransaction server.vecEntries }

/-- Build the final transaction and ask for signatures. -/
def createFinalTransaction : CPrivateSendServer :=
  { relayFinalTransaction node (withFinalTransaction server) with nState := .signing }

/-- Send the final transaction to the network; the session ends either way. -/
def commitFinalTransaction : CPrivateSendServer :=
  if !node.acceptToMemoryPool server.finalMutableTransaction then
    relayCompletedTransaction node (setNull node server)
  else setNull node (relayCompletedTransaction node server)

def isSignaturesComplete : Bool :=
  (entryInputs server.vecEntries).all CTxDSIn.fHasSig

/-- The server, and the session whose final transaction was built, if one was. -/
structure Checked where
  server : CPrivateSendServer
  built : Option CPrivateSendServer := none

/-- Build the final transaction when there are enough entries, and send it when all is signed. -/
def checkPool : Checked :=
  if server.nState=.acceptingEntries ∧ maxPoolTransactions ≤ server.vecEntries.length then
    { server := createFinalTransaction node server, built := some (withFinalTransaction server) }
  else if server.nState=.signing ∧ isSignaturesComplete server=true then
    { server := commitFinalTransaction node server }
  else { server := server }

end Sessions

/-- Amount of the coins that some inputs spend, if all of them are there. -/
def sumInputs (pcoinsTip : CoinsView) : List CTxIn → Option ℤ
  | [] => some 0
  | txin::rest =>
    match getUTXOCoin pcoinsTip txin.prevout with
    | none => none
    | some entry => (sumInputs pcoinsTip rest).map (fun nValueIn => entry.out.nValue+nValueIn)

def sumOutputs (vout : List CTxOut) : ℤ := (vout.map CTxOut.nValue).sum

/-- Whether a collateral for mixing can be taken if its user misbehaves. -/
def isCollateralValid (txCollateral : CMutableTransaction) : Bool :=
  if txCollateral.vout.isEmpty then false
  else if txCollateral.nLockTime≠0 then false
  else if txCollateral.vout.any (fun txout =>
      !isPayToPublicKeyHash txout.scriptPubKey && !isUnspendable txout.scriptPubKey) then false
  else
    match sumInputs node.pcoinsTip txCollateral.vin with
    | none => false
    | some nValueIn =>
      if nValueIn-sumOutputs txCollateral.vout < collateralAmount then false
      else node.acceptToMemoryPool txCollateral

/-- Whether a user may take part; otherwise what the user is told. -/
def isAcceptableDSA (dsa : CPrivateSendAccept) : Except PoolMessage Unit :=
  if !(getDenominationsBits dsa.nDenom).2 then .error .errDenom
  else if !isCollateralValid node dsa.txCollateral then .error .errInvalidCollateral
  else .ok ()

/-- The first user starts a session. -/
def createNewSession (server : CPrivateSendServer) (dsa : CPrivateSendAccept) :
    Except PoolMessage CPrivateSendServer :=
  if server.nSessionID≠0 then .error .msgNoErr
  else if server.nState≠.idle then .error .errMode
  else do
    isAcceptableDSA node dsa
    .ok { server with
      nSessionID := node.randInt%999999+1
      nSessionDenom := dsa.nDenom
      nState := .queue
      nTimeLastSuccessfulStep := node.time
      vecPrivateSendQueue := server.vecPrivateSendQueue++
        [⟨dsa.nDenom,node.masternodeOutpoint,node.adjustedTime,false⟩]
      vecSessionCollaterals := server.vecSessionCollaterals++[dsa.txCollateral] }

/-- Other users join a session with the same denominations. -/
def addUserToExistingSession (server : CPrivateSendServer) (dsa : CPrivateSendAccept) :
    Except PoolMessage CPrivateSendServer :=
  if server.nSessionID=0 ∨ isSessionReady server=true then .error .msgNoErr
  else do
    isAcceptableDSA node dsa
    if server.nState≠.queue then .error .errMode
    else if dsa.nDenom≠server.nSessionDenom then .error .errDenom
    else
      .ok { server with
        nTimeLastSuccessfulStep := node.time
        vecSessionCollaterals := server.vecSessionCollaterals++[dsa.txCollateral] }

section Entries

variable (server : CPrivateSendServer)

/-- Denominations of the outputs are those of the other entries. -/
def isOutputsCompatibleWithSessionDenom (vecTxOut : List CTxOut) : Bool :=
  getDenominations vecTxOut≠0 &&
    server.vecEntries.all (fun entry => getDenominations vecTxOut=getDenominations entry.vecTxOut)

/-- What is wrong with the scripts of some outputs. -/
def checkOutputs : List CTxOut → Except PoolMessage Unit
  | [] => .ok ()
  | txout::rest =>
    if txout.scriptPubKey.length≠25 then .error .errNonStandardPubkey
    else if !isPayToPublicKeyHash txout.scriptPubKey then .error .errInvalidScript
    else checkOutputs rest

/-- Check an entry like a transaction; there is no fee. -/
def checkEntry (entry : CPrivateSendEntry) : Except PoolMessage Unit := do
  checkOutputs entry.vecTxOut
  match sumInputs node.pcoinsTip (entry.vecTxDSIn.map CTxDSIn.toCTxIn) with
  | none => .error .errMissingTx
  | some nValueIn =>
    if nValueIn-sumOutputs entry.vecTxOut≠0 then .error .errFees else .ok ()

/-- The server with one more entry. -/
def withEntry (entryNew : CPrivateSendEntry) : CPrivateSendServer :=
  { server with
    vecEntries := server.vecEntries++[entryNew]
    nTimeLastSuccessfulStep := node.time }

/-- Add an entry. Its inputs are compared with those of the other entries. -/
def addEntry (entryNew : CPrivateSendEntry) : Except PoolMessage CPrivateSendServer :=
  if entryNew.vecTxDSIn.any (fun txin => txin.prevout.isNull) then .error .errInvalidInput
  else if !isCollateralValid node entryNew.txCollateral then .error .errInvalidCollateral
  else if maxPoolTransactions ≤ server.vecEntries.length then .error .errEntriesFull
  else if entryNew.vecTxDSIn.any (fun txin =>
      (entryInputs server.vecEntries).any (fun txdsin => txdsin.prevout=txin.prevout)) then
    .error .errAlreadyHave
  else .ok (withEntry node server entryNew)

end Entries

section Signatures

def lastInput (inputs : List CTxDSIn) (prevout : COutPoint) : Option (CTxDSIn×ℕ) :=
  inputs.zipIdx.reverse.find? (fun input => input.1.prevout=prevout)

/-- The transaction of all entries, in their order. -/
def entryTransaction (vecEntries : List CPrivateSendEntry) : CMutableTransaction where
  vin := (entryInputs vecEntries).map CTxDSIn.toCTxIn
  vout := entryOutputs vecEntries

variable (server : CPrivateSendServer)

/-- The transaction of all entries with a script in one place. -/
def verifiedTransaction (txin : CTxIn) (nTxInIndex : ℕ) : CMutableTransaction :=
  { entryTransaction server.vecEntries with
    vin := (entryTransaction server.vecEntries).vin.modify nTxInIndex
      (fun input => { input with scriptSig := txin.scriptSig }) }

/-- Whether a script unlocks an input of the entries. -/
def isInputScriptSigValid (txin : CTxIn) : Bool :=
  match lastInput (entryInputs server.vecEntries) txin.prevout with
  | none => false
  | some (txdsin,nTxInIndex) =>
    node.verifyScript txin.scriptSig txdsin.prevPubKey
      (verifiedTransaction server txin nTxInIndex) nTxInIndex

def sameInput (txin other : CTxIn) : Bool :=
  other.prevout=txin.prevout && other.nSequence=txin.nSequence

/-- Set the script of an input that is the same. -/
def setScriptSig (txinNew txin : CTxIn) : CTxIn :=
  if sameInput txinNew txin then { txin with scriptSig := txinNew.scriptSig } else txin

/-- Sign the first input of an entry that is the same, if it is not signed. -/
def signInputs (txin : CTxIn) : List CTxDSIn → List CTxDSIn×Bool
  | [] => ([],false)
  | txdsin::rest =>
    if sameInput txin txdsin.toCTxIn then
      if txdsin.fHasSig then (txdsin::rest,false)
      else ({ txdsin with scriptSig := txin.scriptSig, fHasSig := true }::rest,true)
    else (txdsin::(signInputs txin rest).1,(signInputs txin rest).2)

/-- Sign the input of the first entry that takes the script. -/
def signEntries (txin : CTxIn) : List CPrivateSendEntry → List CPrivateSendEntry×Bool
  | [] => ([],false)
  | entry::rest =>
    if (signInputs txin entry.vecTxDSIn).2 then
      ({ entry with vecTxDSIn := (signInputs txin entry.vecTxDSIn).1 }::rest,true)
    else (entry::(signEntries txin rest).1,(signEntries txin rest).2)

/-- Put a script into the final transaction and into an entry. -/
def withScriptSig (txinNew : CTxIn) : CPrivateSendServer :=
  { server with
    finalMutableTransaction := { server.finalMutableTransaction with
      vin := server.finalMutableTransaction.vin.map (setScriptSig txinNew) }
    vecEntries := (signEntries txinNew server.vecEntries).1 }

/-- Take a script: the final transaction gets it even if no entry does. -/
def addScriptSig (txinNew : CTxIn) : CPrivateSendServer×Bool :=
  if (entryInputs server.vecEntries).any (fun txdsin => txdsin.scriptSig=txinNew.scriptSig) then
    (server,false)
  else if !isInputScriptSigValid node server txinNew then (server,false)
  else (withScriptSig server txinNew,(signEntries txinNew server.vecEntries).2)

/-- Take scripts one after the other, until one is refused. -/
def addScriptSigs (server : CPrivateSendServer) : List CTxIn → CPrivateSendServer×Bool
  | [] => (server,true)
  | txin::rest =>
    let added := addScriptSig node server txin
    if added.2 then addScriptSigs added.1 rest else (added.1,false)

end Signatures

section Handlers

/-- What comes of a message. -/
structure Outcome where
  server : CPrivateSendServer
  /-- What the sender is told: accepted or not, and why. -/
  status : Option (Bool×PoolMessage) := none
  /-- The state in which an entry was added, if one was. -/
  appended : Option PoolState := none
  /-- The session whose final transaction was built, if one was. -/
  built : Option CPrivateSendServer := none

variable (server : CPrivateSendServer)

/-- The sender is told that the message is refused. -/
def refuse (nMessageID : PoolMessage) : Outcome :=
  { server := server, status := some (false,nMessageID) }

/-- A user wants to mix. -/
def receiveDSAccept (pfrom : CNode) (dsa : CPrivateSendAccept) : Outcome :=
  if pfrom.nVersion < minPrivateSendPeerProtoVersion then refuse server .errVersion
  else if isSessionReady server then { server := server, status := some (true,.errQueueFull) }
  else
    match node.nLastDsq with
    | none => refuse server .errMnList
    | some nLastDsq =>
      if server.vecSessionCollaterals.isEmpty && server.vecPrivateSendQueue.any (fun q =>
          q.masternodeOutpoint=node.masternodeOutpoint) then refuse server .errRecent
      else if server.vecSessionCollaterals.isEmpty && nLastDsq≠0 &&
          node.nDsqCount<nLastDsq+node.countMasternodes/5 then refuse server .errRecent
      else
        match if server.nSessionID=0 then createNewSession node server dsa
          else addUserToExistingSession node server dsa with
        | .ok changed => { server := changed, status := some (true,.msgNoErr) }
        | .error nMessageID => refuse server nMessageID

/-- A user sends an entry. The state of the session is not looked at. -/
def receiveDSVin (pfrom : CNode) (entry : CPrivateSendEntry) : Outcome :=
  if pfrom.nVersion < minPrivateSendPeerProtoVersion then refuse server .errVersion
  else if !isSessionReady server then refuse server .errSession
  else if privateSendEntryMaxSize<entry.vecTxDSIn.length then refuse server .errMaximum
  else if privateSendEntryMaxSize<entry.vecTxOut.length then refuse server .errMaximum
  else if !isOutputsCompatibleWithSessionDenom server entry.vecTxOut then refuse server
    .errExistingTx
  else
    match checkEntry node entry with
    | .error nMessageID => refuse server nMessageID
    | .ok () =>
      match addEntry node server { entry with addr := pfrom.addr } with
      | .error nMessageID => refuse (setNull node server) nMessageID
      | .ok added =>
        { server := relayStatus node (checkPool node added).server
          status := some (true,.msgEntriesAdded)
          appended := some server.nState
          built := (checkPool node added).built }

/-- A user sends signatures. -/
def receiveDSSignFinalTx (pfrom : CNode) (vecTxIn : List CTxIn) : Outcome :=
  if pfrom.nVersion < minPrivateSendPeerProtoVersion then { server := server }
  else if !(addScriptSigs node server vecTxIn).2 then
    { server := relayStatus node (addScriptSigs node server vecTxIn).1 }
  else
    { server := (checkPool node (addScriptSigs node server vecTxIn).1).server
      built := (checkPool node (addScriptSigs node server vecTxIn).1).built }

/-- Drop announcements that are too old. -/
def checkQueue : CPrivateSendServer :=
  { server with
    vecPrivateSendQueue := server.vecPrivateSendQueue.filter (fun q =>
      ¬privateSendQueueTimeout<node.adjustedTime-q.nTime) }

/-- Drop announcements that are too old, and the session if its last step is. -/
def checkTimeout : CPrivateSendServer :=
  let nTimeout := if server.nState=.signing then privateSendSigningTimeout
    else privateSendQueueTimeout
  if server.nState≠.idle ∧ nTimeout≤node.time-server.nTimeLastSuccessfulStep then
    setNull node (checkQueue node server)
  else checkQueue node server

/-- Take entries when there are enough users. -/
def checkForCompleteQueue : CPrivateSendServer :=
  if server.nState=.queue ∧ isSessionReady server=true then
    { server with nState := .acceptingEntries }
  else server

/-- The timer. -/
def doMaintenance : CPrivateSendServer :=
  if !node.blockchainSynced then server else checkForCompleteQueue (checkTimeout node server)

def readEntry (vecTxIn : List CTxIn) (txCollateral : CMutableTransaction) (vecTxOut : List CTxOut) :
    CPrivateSendEntry where
  vecTxDSIn := vecTxIn.map (fun txin => { toCTxIn := txin })
  vecTxOut := vecTxOut
  txCollateral := txCollateral

/-- What happens to the server. -/
inductive Event where
  | dsAccept (pfrom : CNode) (dsa : CPrivateSendAccept)
  | dsVin (pfrom : CNode) (vecTxIn : List CTxIn) (txCollateral : CMutableTransaction)
      (vecTxOut : List CTxOut)
  | dsSignFinalTx (pfrom : CNode) (vecTxIn : List CTxIn)
  | maintenance

/-- Something happens to the server. Messages wait until the chain is synchronised. -/
def processEvent : Event → Outcome
  | .maintenance => { server := doMaintenance node server }
  | .dsAccept pfrom dsa =>
    if !node.blockchainSynced then { server := server } else receiveDSAccept node server pfrom dsa
  | .dsVin pfrom vecTxIn txCollateral vecTxOut =>
    if !node.blockchainSynced then { server := server }
    else receiveDSVin node server pfrom (readEntry vecTxIn txCollateral vecTxOut)
  | .dsSignFinalTx pfrom vecTxIn =>
    if !node.blockchainSynced then { server := server }
    else receiveDSSignFinalTx node server pfrom vecTxIn

end Handlers

/-- A session whose final transaction was built, with the outputs that it spends. -/
structure BuiltTx where
  session : CPrivateSendServer
  /-- Outputs that the inputs spent when their entries were accepted. -/
  spent : COutPoint → CTxOut

/-- A script that came for an input. -/
structure SigCall where
  node : ServerNode
  server : CPrivateSendServer
  /-- Outputs that the inputs spent when their entries were accepted. -/
  spent : COutPoint → CTxOut
  txinNew : CTxIn
  after : CPrivateSendServer
  added : Bool

/-- The server with a record of what it did. -/
structure World where
  server : CPrivateSendServer := {}
  appended : List PoolState := []
  /-- Outputs that inputs spent when their entries were accepted. -/
  spent : COutPoint → CTxOut := fun _ => ⟨0,[]⟩
  built : List BuiltTx := []
  calls : List SigCall := []

/-- The output that an input spends. -/
def coinOut (pcoinsTip : CoinsView) (prevout : COutPoint) : CTxOut :=
  match getUTXOCoin pcoinsTip prevout with
  | none => ⟨0,[]⟩
  | some entry => entry.out

/-- Note the outputs that the inputs of an entry spend. -/
def noteSpent (spent : COutPoint → CTxOut) : Event → COutPoint → CTxOut
  | .dsVin _ vecTxIn _ _ => fun prevout =>
    if prevout∈vecTxIn.map CTxIn.prevout then coinOut node.pcoinsTip prevout else spent prevout
  | _ => spent

variable (world : World)

/-- Outputs that are known after something happened. -/
def spentAfter (event : Event) : COutPoint → CTxOut :=
  if (processEvent node world.server event).appended.isSome then noteSpent node world.spent event
  else world.spent

/-- A script comes. -/
def sigCall (server : CPrivateSendServer) (spent : COutPoint → CTxOut) (txinNew : CTxIn) : SigCall
    where
  node := node
  server := server
  spent := spent
  txinNew := txinNew
  after := (addScriptSig node server txinNew).1
  added := (addScriptSig node server txinNew).2

/-- Scripts that a message brings, until one is refused. -/
def sigCalls (server : CPrivateSendServer) (spent : COutPoint → CTxOut) : List CTxIn → List SigCall
  | [] => []
  | txin::rest =>
    let call := sigCall node server spent txin
    call::if call.added then sigCalls call.after spent rest else []

/-- Scripts that come when something happens. -/
def callsOf : Event → List SigCall
  | .dsSignFinalTx pfrom vecTxIn =>
    if !node.blockchainSynced || pfrom.nVersion < minPrivateSendPeerProtoVersion then []
    else sigCalls node world.server world.spent vecTxIn
  | _ => []

/-- Something happens, and what the server does is noted. -/
def World.step (event : Event) : World where
  server := (processEvent node world.server event).server
  appended := world.appended++(processEvent node world.server event).appended.toList
  spent := spentAfter node world event
  built := world.built++(processEvent node world.server event).built.toList.map (fun session =>
    ⟨session,spentAfter node world event⟩)
  calls := world.calls++callsOf node world event

/-- Worlds that a run reaches, if each of its steps meets a condition. -/
inductive Reached (meets : ServerNode → CPrivateSendServer → Event → Prop) : World → Prop where
  | start : Reached meets {}
  | step {world : World} (node : ServerNode) (event : Event) (reached : Reached meets world)
      (met : meets node world.server event) : Reached meets (world.step node event)

end Pyrk.PrivateSendServer
