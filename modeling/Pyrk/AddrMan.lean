import Pyrk.NetAddress
import Pyrk.PositionedList
import Pyrk.SlotTable
import Mathlib.Data.Prod.Lex
import Mathlib.Data.Int.Basic

/-!
# Stochastic address manager

Addresses are in the new table, or in the tried table once they answered, at slots hashed from the
address, and in a vector in random order. The map by address leaves the port out unless entries are
told apart by it. `none` stands for a failed assertion or an overflow of the counter of ids.
-/

namespace Pyrk.AddrMan

open NetAddress SlotTable

/-- A network address without a port. -/
abbrev CNetAddr := { ip : List UInt8 // ip.length=16 }

/-- Services are compared by their bytes and then by their port. -/
instance : LinearOrder CService := LinearOrder.lift'
  (fun service => toLex (service.ip.map UInt8.toNat,service.port)) (by
    intro first second h
    have hpair := toLex.injective h
    rw [Prod.mk.injEq] at hpair
    have hip := List.map_injective_iff.mpr (fun _ _ => UInt8.toNat_inj.mp) hpair.1
    cases first
    cases second
    cases hip
    cases hpair.2
    rfl)

def setPort (service : CService) (portIn : ℕ) : CService := { service with port := portIn }

def addrmanTriedBucketCount : ℕ := 256
def addrmanNewBucketCount : ℕ := 1024
def addrmanBucketSize : ℕ := 64
/-- Slots that one new address may have. -/
def addrmanNewBucketsPerAddress : ℤ := 8
/-- Age that makes an address terrible. -/
def addrmanHorizonDays : ℤ := 30
/-- Failed attempts that make an address terrible that never answered. -/
def addrmanRetries : ℤ := 3
/-- Failed attempts in a row that make an address terrible. -/
def addrmanMaxFailures : ℤ := 10
/-- Time without an answer after which they count. -/
def addrmanMinFailDays : ℤ := 7
/-- Greatest share of the addresses that are given away. -/
def addrmanGetaddrMaxPct : ℕ := 23
/-- Greatest number of addresses that are given away. -/
def addrmanGetaddrMax : ℕ := 2500

/-- An address as peers send it. -/
structure CAddress where
  service : CService
  nServices : ℕ
  nTime : ℕ := 100000000
  deriving DecidableEq

/-- What is known of an address. -/
structure CAddrInfo where
  addr : CAddress
  source : CNetAddr
  nLastTry : ℤ := 0
  nLastCountAttempt : ℤ := 0
  nLastSuccess : ℤ := 0
  nAttempts : ℤ := 0
  nRefCount : ℤ := 0
  fInTried : Bool := false
  nRandomPos : ℕ
  deriving DecidableEq

/-- Slots of a table with the ids that are in them. -/
abbrev Table (buckets : ℕ) := SlotTable buckets addrmanBucketSize ℕ

structure CAddrMan where
  /-- Next id, an int of the source that starts at zero. -/
  nIdCount : ℕ := 0
  mapInfo : OrderedMap ℕ CAddrInfo := .empty
  mapAddr : OrderedMap CService ℕ := .empty
  vRandom : List ℕ := []
  nTried : ℤ := 0
  vvTried : Table addrmanTriedBucketCount := fun _ _ => none
  nNew : ℤ := 0
  vvNew : Table addrmanNewBucketCount := fun _ _ => none
  /-- Time of the last answer of any address; one stands for never. -/
  nLastGood : ℤ := 1
  discriminatePorts : Bool
  nKey : ℕ

/-- Hashes of addresses, and whether private networks are reachable. -/
structure AddrContext where
  getTriedBucket : ℕ → CService → Fin addrmanTriedBucketCount
  /-- Bucket of a new address that came from a source. -/
  getNewBucket : ℕ → CService → CNetAddr → Fin addrmanNewBucketCount
  /-- Slot in a bucket of the new table or of the tried one. -/
  getBucketPosition : ℕ → Bool → ℕ → CService → Fin addrmanBucketSize
  fAllowPrivateNet : Bool

/-- Value of an integer as an unsigned one of thirty-two bits. -/
def toUInt32 (value : ℤ) : ℕ := (value%2^32).toNat

/-- An address is not worth a slot. -/
def isTerrible (info : CAddrInfo) (nNow : ℤ) : Bool :=
  if info.nLastTry≠0 ∧ nNow-60 ≤ info.nLastTry then false
  else if nNow+10*60 < (info.addr.nTime : ℤ) then true
  else if info.addr.nTime=0 ∨ addrmanHorizonDays*24*60*60 < nNow-info.addr.nTime then true
  else if info.nLastSuccess=0 ∧ addrmanRetries ≤ info.nAttempts then true
  else if addrmanMinFailDays*24*60*60 < nNow-info.nLastSuccess ∧
      addrmanMaxFailures ≤ info.nAttempts then true
  else false

namespace CAddrMan

variable (man : CAddrMan)

/-- Address under which an entry is found. -/
def lookupKey (addr : CService) : CService :=
  if !man.discriminatePorts then setPort addr 0 else addr

/-- Id and entry of an address. -/
def find (addr : CService) : Option (ℕ×CAddrInfo) :=
  (man.mapAddr.find (man.lookupKey addr)).bind (fun nId =>
    (man.mapInfo.find nId).map (fun info => (nId,info)))

/-- Change an entry. -/
def modifyInfo (nId : ℕ) (change : CAddrInfo → CAddrInfo) : CAddrMan :=
  match man.mapInfo.find nId with
  | none => man
  | some info => { man with mapInfo := man.mapInfo.set nId (change info) }

/-- State with an entry under the next id. -/
def created (addr : CAddress) (addrSource : CNetAddr) : CAddrMan :=
  { man with
    nIdCount := man.nIdCount+1
    mapInfo := man.mapInfo.set man.nIdCount
      { addr := addr, source := addrSource, nRandomPos := man.vRandom.length }
    mapAddr := man.mapAddr.set (man.lookupKey addr.service) man.nIdCount
    vRandom := man.vRandom++[man.nIdCount] }

/-- Make an entry and tell its id, unless the counter is the greatest int. -/
def create (addr : CAddress) (addrSource : CNetAddr) : Option (CAddrMan×ℕ) :=
  if man.nIdCount+1 < 2^31 then some (man.created addr addrSource,man.nIdCount) else none

/-- Swap two elements of the random order. -/
def swapRandom (nRndPos1 nRndPos2 : ℕ) : Option CAddrMan :=
  if nRndPos1=nRndPos2 then some man
  else
    match man.vRandom[nRndPos1]?,man.vRandom[nRndPos2]? with
    | some nId1,some nId2 =>
      if man.mapInfo.contains nId1 && man.mapInfo.contains nId2 then
        let man := man.modifyInfo nId1 (fun info => { info with nRandomPos := nRndPos2 })
        let man := man.modifyInfo nId2 (fun info => { info with nRandomPos := nRndPos1 })
        some { man with vRandom := (man.vRandom.set nRndPos1 nId2).set nRndPos2 nId1 }
      else none
    | _,_ => none

/-- Drop an entry that is in no table. -/
def delete (nId : ℕ) : Option CAddrMan :=
  match man.mapInfo.find nId with
  | none => none
  | some info =>
    if info.fInTried then none
    else if info.nRefCount≠0 then none
    else
      (man.swapRandom info.nRandomPos (man.vRandom.length-1)).map (fun man =>
        { man with
          vRandom := man.vRandom.dropLast
          mapAddr := man.mapAddr.erase (man.lookupKey info.addr.service)
          mapInfo := man.mapInfo.erase nId
          nNew := man.nNew-1 })

/-- Empty a slot of the new table, and drop the entry when it was its last one. -/
def clearNew (nUBucket : Fin addrmanNewBucketCount)
    (nUBucketPos : Fin addrmanBucketSize) : Option CAddrMan :=
  match man.vvNew nUBucket nUBucketPos with
  | none => some man
  | some nIdDelete =>
    match man.mapInfo.find nIdDelete with
    | none => none
    | some infoDelete =>
      if ¬0 < infoDelete.nRefCount then none
      else
        let man := man.modifyInfo nIdDelete
          (fun info => { info with nRefCount := info.nRefCount-1 })
        let man := { man with vvNew := setSlot man.vvNew nUBucket nUBucketPos none }
        if infoDelete.nRefCount-1=0 then man.delete nIdDelete else some man

section Context

variable (ctx : AddrContext)

variable (man : CAddrMan)

/-- Slot of an entry in a bucket of the new table. -/
def newPosition (addr : CService) (bucket : Fin addrmanNewBucketCount) :
    Fin addrmanBucketSize := ctx.getBucketPosition man.nKey true bucket addr

/-- Slot of an entry in a bucket of the tried table. -/
def triedPosition (addr : CService) (bucket : Fin addrmanTriedBucketCount) :
    Fin addrmanBucketSize := ctx.getBucketPosition man.nKey false bucket addr

/-- Take an entry out of a bucket of the new table. -/
def removeFromBucket (nId : ℕ) (addr : CService) (man : CAddrMan)
    (bucket : Fin addrmanNewBucketCount) : CAddrMan :=
  let pos := man.newPosition ctx addr bucket
  if man.vvNew bucket pos=some nId then
    let man := { man with vvNew := setSlot man.vvNew bucket pos none }
    man.modifyInfo nId (fun info => { info with nRefCount := info.nRefCount-1 })
  else man

/-- Take an entry out of all buckets of the new table. -/
def removeFromNew (nId : ℕ) (addr : CService) : CAddrMan :=
  (List.finRange addrmanNewBucketCount).foldl (removeFromBucket ctx nId addr) man

/-- Put an entry that left the tried table in the new table. -/
def reenterNew (nIdEvict : ℕ) (infoOld : CAddrInfo) : Option CAddrMan :=
  let nUBucket := ctx.getNewBucket man.nKey infoOld.addr.service infoOld.source
  let nUBucketPos := man.newPosition ctx infoOld.addr.service nUBucket
  (man.clearNew nUBucket nUBucketPos).bind (fun man =>
    if man.vvNew nUBucket nUBucketPos≠none then none
    else
      let man := man.modifyInfo nIdEvict (fun info => { info with nRefCount := 1 })
      some { man with
        vvNew := setSlot man.vvNew nUBucket nUBucketPos (some nIdEvict)
        nNew := man.nNew+1 })

/-- Move the entry in a slot of the tried table back to the new table. -/
def evictTried (nKBucket : Fin addrmanTriedBucketCount)
    (nKBucketPos : Fin addrmanBucketSize) : Option CAddrMan :=
  match man.vvTried nKBucket nKBucketPos with
  | none => some man
  | some nIdEvict =>
    match man.mapInfo.find nIdEvict with
    | none => none
    | some infoOld =>
      let man := man.modifyInfo nIdEvict (fun info => { info with fInTried := false })
      let man := { man with
        vvTried := setSlot man.vvTried nKBucket nKBucketPos none
        nTried := man.nTried-1 }
      man.reenterNew ctx nIdEvict infoOld

/-- Move an entry from the new table to the tried one. -/
def makeTried (nId : ℕ) (addr : CService) : Option CAddrMan :=
  let man := man.removeFromNew ctx nId addr
  let man := { man with nNew := man.nNew-1 }
  match man.mapInfo.find nId with
  | none => none
  | some info =>
    if info.nRefCount≠0 then none
    else
      let nKBucket := ctx.getTriedBucket man.nKey addr
      let nKBucketPos := man.triedPosition ctx addr nKBucket
      (man.evictTried ctx nKBucket nKBucketPos).bind (fun man =>
        if man.vvTried nKBucket nKBucketPos≠none then none
        else
          let man := { man with
            vvTried := setSlot man.vvTried nKBucket nKBucketPos (some nId)
            nTried := man.nTried+1 }
          some (man.modifyInfo nId (fun info => { info with fInTried := true })))

/-- Bucket of the new table with an entry, searched from a random one on. -/
def findBucket (nId : ℕ) (addr : CService) (nRnd : ℕ) : Option (Fin addrmanNewBucketCount) :=
  ((List.range addrmanNewBucketCount).map (fun n =>
    (⟨(n+nRnd)%addrmanNewBucketCount,Nat.mod_lt _ (by decide)⟩ :
      Fin addrmanNewBucketCount))).find? (fun nB =>
        man.vvNew nB (man.newPosition ctx addr nB)=some nId)

/-- Mark an address as one that answered. -/
def good_ (addr : CService) (nTime : ℤ) (nRnd : ℕ) : Option CAddrMan :=
  let man := { man with nLastGood := nTime }
  match man.find addr with
  | none => some man
  | some (nId,info) =>
    if info.addr.service≠addr then some man
    else
      let man := man.modifyInfo nId (fun info =>
        { info with nLastSuccess := nTime, nLastTry := nTime, nAttempts := 0 })
      if info.fInTried then some man
      else
        match man.findBucket ctx nId info.addr.service nRnd with
        | none => some man
        | some _ => man.makeTried ctx nId info.addr.service

/-- Change of the time and the services of an entry that is heard of again. -/
def refreshInfo (addr : CAddress) (nTimePenalty nNow : ℤ) (info : CAddrInfo) : CAddrInfo :=
  let fCurrentlyOnline := decide (nNow-addr.nTime < 24*60*60)
  let nUpdateInterval : ℤ := if fCurrentlyOnline then 60*60 else 24*60*60
  let nTime := if addr.nTime≠0 ∧ (info.addr.nTime=0 ∨
      (info.addr.nTime : ℤ) < addr.nTime-nUpdateInterval-nTimePenalty) then
    toUInt32 (max 0 (addr.nTime-nTimePenalty)) else info.addr.nTime
  { info with addr := { info.addr with
    nTime := nTime, nServices := info.addr.nServices ||| addr.nServices } }

/-- Whether an entry may take a slot of the new table from the one that is there. -/
def mayInsert (info : CAddrInfo) (nNow : ℤ) : Option ℕ → Bool
  | none => true
  | some nIdExisting =>
    match man.mapInfo.find nIdExisting with
    | none => true
    | some infoExisting => isTerrible infoExisting nNow ||
        (decide (1 < infoExisting.nRefCount) && decide (info.nRefCount=0))

/-- Give an entry a slot of the new table if there is one for it. -/
def placeNew (nId : ℕ) (source : CNetAddr) (nNow : ℤ) : Option CAddrMan :=
  match man.mapInfo.find nId with
  | none => none
  | some info =>
    let nUBucket := ctx.getNewBucket man.nKey info.addr.service source
    let nUBucketPos := man.newPosition ctx info.addr.service nUBucket
    if man.vvNew nUBucket nUBucketPos=some nId then some man
    else if man.mayInsert info nNow (man.vvNew nUBucket nUBucketPos) then
      (man.clearNew nUBucket nUBucketPos).map (fun man =>
        let man := man.modifyInfo nId (fun info => { info with nRefCount := info.nRefCount+1 })
        { man with vvNew := setSlot man.vvNew nUBucket nUBucketPos (some nId) })
    else if info.nRefCount=0 then man.delete nId
    else some man

/-- Add an address, and tell whether it is a new one. -/
def add_ (addr : CAddress) (source : CNetAddr) (nTimePenalty nNow : ℤ)
    (nRnd : ℕ) : Option (CAddrMan×Bool) :=
  if !isRoutable ctx.fAllowPrivateNet addr.service then some (man,false)
  else
    let nTimePenalty := if addr.service.ip=source.1 then 0 else nTimePenalty
    match man.find addr.service with
    | some (nId,old) =>
      let info := refreshInfo addr nTimePenalty nNow old
      let man := man.modifyInfo nId (refreshInfo addr nTimePenalty nNow)
      if addr.nTime=0 ∨ (info.addr.nTime≠0 ∧ addr.nTime ≤ info.addr.nTime) then some (man,false)
      else if info.fInTried then some (man,false)
      else if info.nRefCount=addrmanNewBucketsPerAddress then some (man,false)
      else
        let nFactor := 2^info.nRefCount.toNat
        if 1 < nFactor ∧ nRnd%nFactor≠0 then some (man,false)
        else (man.placeNew ctx nId source nNow).map (fun man => (man,false))
    | none => (man.create addr source).bind (fun (man,nId) =>
      let man := man.modifyInfo nId (fun info => { info with addr := { info.addr with
        nTime := toUInt32 (max 0 (info.addr.nTime-nTimePenalty)) } })
      let man := { man with nNew := man.nNew+1 }
      (man.placeNew ctx nId source nNow).map (fun man => (man,true)))

end Context

/-- Mark a try to connect. -/
def attempt_ (man : CAddrMan) (addr : CService) (fCountFailure : Bool) (nTime : ℤ) : CAddrMan :=
  match man.find addr with
  | none => man
  | some (nId,info) =>
    if info.addr.service≠addr then man
    else
      man.modifyInfo nId (fun info =>
        let info := { info with nLastTry := nTime }
        if fCountFailure && decide (info.nLastCountAttempt < man.nLastGood) then
          { info with nLastCountAttempt := nTime, nAttempts := info.nAttempts+1 }
        else info)

/-- Mark an address that is connected. -/
def connected_ (man : CAddrMan) (addr : CService) (nTime : ℤ) : CAddrMan :=
  match man.find addr with
  | none => man
  | some (nId,info) =>
    if info.addr.service≠addr then man
    else
      man.modifyInfo nId (fun info =>
        if 20*60 < nTime-info.addr.nTime then
          { info with addr := { info.addr with nTime := toUInt32 nTime } }
        else info)

/-- Replace the services of an address. -/
def setServices_ (man : CAddrMan) (addr : CService) (nServices : ℕ) : CAddrMan :=
  match man.find addr with
  | none => man
  | some (nId,info) =>
    if info.addr.service≠addr then man
    else man.modifyInfo nId (fun info =>
      { info with addr := { info.addr with nServices := nServices } })

/-- Gather addresses from a position of the random order on. -/
def gatherAddr (nNodes : ℕ) (nNow : ℤ) (random : ℕ → ℕ) :
    ℕ → ℕ → CAddrMan → List CAddress → Option (CAddrMan×List CAddress)
  | 0,_,man,vAddr => some (man,vAddr)
  | rest+1,n,man,vAddr =>
    if nNodes ≤ vAddr.length then some (man,vAddr)
    else
      let nRndPos := random n%(man.vRandom.length-n)+n
      (man.swapRandom n nRndPos).bind (fun man =>
        match (man.vRandom[n]?).bind man.mapInfo.find with
        | none => none
        | some ai =>
          gatherAddr nNodes nNow random rest (n+1) man
            (if isTerrible ai nNow then vAddr else vAddr++[ai.addr]))

/-- Random addresses to give away. -/
def getAddr_ (man : CAddrMan) (nNow : ℤ) (random : ℕ → ℕ) : Option (CAddrMan×List CAddress) :=
  let nNodes := min (addrmanGetaddrMaxPct*man.vRandom.length/100) addrmanGetaddrMax
  gatherAddr nNodes nNow random man.vRandom.length 0 man []

end CAddrMan

/-- Calls of the address manager with the random numbers that they use. -/
inductive AddrCall where
  | add (addr : CAddress) (source : CNetAddr) (nTimePenalty nNow : ℤ) (nRnd : ℕ)
  | good (addr : CService) (nTime : ℤ) (nRnd : ℕ)
  | attempt (addr : CService) (fCountFailure : Bool) (nTime : ℤ)
  | connected (addr : CService) (nTime : ℤ)
  | setServices (addr : CService) (nServices : ℕ)
  | getAddr (nNow : ℤ) (random : ℕ → ℕ)

/-- The address manager after a call. -/
def step (ctx : AddrContext) (man : CAddrMan) : AddrCall → Option CAddrMan
  | .add addr source nTimePenalty nNow nRnd =>
    (man.add_ ctx addr source nTimePenalty nNow nRnd).map Prod.fst
  | .good addr nTime nRnd => man.good_ ctx addr nTime nRnd
  | .attempt addr fCountFailure nTime => some (man.attempt_ addr fCountFailure nTime)
  | .connected addr nTime => some (man.connected_ addr nTime)
  | .setServices addr nServices => some (man.setServices_ addr nServices)
  | .getAddr nNow random => (man.getAddr_ nNow random).map Prod.fst

/-- The address manager after calls one after the other. -/
def run (ctx : AddrContext) (man : CAddrMan) (calls : List AddrCall) : Option CAddrMan :=
  calls.foldlM (step ctx) man

/-- Whether a call makes an entry. -/
def makesEntry (ctx : AddrContext) (man : CAddrMan) : AddrCall → Bool
  | .add addr _ _ _ _ =>
    isRoutable ctx.fAllowPrivateNet addr.service && (man.find addr.service).isNone
  | _ => false

/-- Number of entries that calls make, up to one that fails. -/
def entriesMade (ctx : AddrContext) : CAddrMan → List AddrCall → ℕ
  | _,[] => 0
  | man,call::calls => (if makesEntry ctx man call then 1 else 0)+
      match step ctx man call with
      | none => 0
      | some next => entriesMade ctx next calls

/-- An address manager without addresses. -/
def empty (discriminatePorts : Bool) (nKey : ℕ) : CAddrMan :=
  { discriminatePorts := discriminatePorts, nKey := nKey }

end Pyrk.AddrMan
