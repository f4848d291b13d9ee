import Mathlib.Data.Nat.Pairing
import Pyrk.Layers
import Pyrk.OrderedMap

/-!
# The database of the masternode code

Changes are kept in two transactions over the database: the current one, which a block commits or
rolls back, and the root one, which is written with the chain state.
-/

namespace Pyrk.EvoDB

open Layers OrderedMap Function List Layer

/-- A key with the index of its type. -/
structure TypedKey (ι κ : Type) where
  type : ι
  key : κ
  deriving DecidableEq

/-- How keys and values are serialized, and which type a value has. -/
structure Codec (ι κ ν τ β γ : Type) where
  encodeKey : TypedKey ι κ → β
  typeOf : ν → τ
  encode : ν → γ
  decode : τ → γ → Option ν

/-- Change of a database in a batch. -/
inductive BatchOp (β γ : Type) where
  | put (key : β) (value : γ)
  | delete (key : β)

/-- Values and keys by type, changed since the last commit. -/
structure CDBTransaction (ι κ ν : Type) [LinearOrder ι] [LinearOrder κ] where
  writes : OrderedMap ι (OrderedMap κ ν) := .empty
  deletes : OrderedMap ι (OrderedMap κ Unit) := .empty

section Transaction

variable {ι κ ν τ β γ : Type} [LinearOrder ι] [LinearOrder κ] [LinearOrder β] [DecidableEq τ]

namespace CDBTransaction

def getMapForType {μ : Type} (map : OrderedMap ι (OrderedMap κ μ)) (type : ι) : OrderedMap κ μ :=
  (map.find type).getD .empty

def eraseKey {μ : Type} (map : OrderedMap ι (OrderedMap κ μ)) (key : TypedKey ι κ) :
    OrderedMap ι (OrderedMap κ μ) :=
  match map.find key.type with
  | none => map
  | some keys => map.set key.type (keys.erase key.key)

def write (tx : CDBTransaction ι κ ν) (key : TypedKey ι κ) (v : ν) : CDBTransaction ι κ ν where
  deletes := eraseKey tx.deletes key
  writes := tx.writes.set key.type
    (((getMapForType tx.writes key.type).erase key.key).emplace key.key v)

def erase (tx : CDBTransaction ι κ ν) (key : TypedKey ι κ) : CDBTransaction ι κ ν where
  writes := eraseKey tx.writes key
  deletes := tx.deletes.set key.type ((getMapForType tx.deletes key.type).emplace key.key ())

def isDeleted (tx : CDBTransaction ι κ ν) (key : TypedKey ι κ) : Bool :=
  ((tx.deletes.find key.type).bind (fun keys => keys.find key.key)).isSome

/-- Written value of a key. -/
def findWrite (tx : CDBTransaction ι κ ν) (key : TypedKey ι κ) : Option ν :=
  (tx.writes.find key.type).bind (fun keys => keys.find key.key)

/-- Read a value of a type; a value of another type is not read. -/
def read (codec : Codec ι κ ν τ β γ) (parent : TypedKey ι κ → τ → Option ν)
    (tx : CDBTransaction ι κ ν) (key : TypedKey ι κ) (type : τ) : Option ν :=
  if tx.isDeleted key then none
  else
    match tx.findWrite key with
    | some v => if codec.typeOf v=type then some v else none
    | none => parent key type

def exist (parent : TypedKey ι κ → Bool) (tx : CDBTransaction ι κ ν) (key : TypedKey ι κ) : Bool :=
  if tx.isDeleted key then false
  else if (tx.findWrite key).isSome then true
  else parent key

/-- Forget all changes. -/
def clear : CDBTransaction ι κ ν := {}

/-- Apply the changes to a target: deleted keys first, then written values. -/
def commit {σ : Type} (eraseKey : σ → TypedKey ι κ → σ) (writeKey : σ → TypedKey ι κ → ν → σ)
    (tx : CDBTransaction ι κ ν) (commitTarget : σ) : σ :=
  let erased := tx.deletes.entries.foldl (fun store p =>
    p.2.entries.foldl (fun store p2 => eraseKey store ⟨p.1,p2.1⟩) store) commitTarget
  tx.writes.entries.foldl (fun store p =>
    p.2.entries.foldl (fun store p2 => writeKey store ⟨p.1,p2.1⟩ p2.2) store) erased

/-- No type has a map. -/
def isClean (tx : CDBTransaction ι κ ν) : Bool :=
  tx.writes.entries.isEmpty && tx.deletes.entries.isEmpty

end CDBTransaction

def batchWrite (codec : Codec ι κ ν τ β γ) (batch : List (BatchOp β γ)) (key : TypedKey ι κ)
    (v : ν) : List (BatchOp β γ) :=
  batch++[.put (codec.encodeKey key) (codec.encode v)]

def batchErase (codec : Codec ι κ ν τ β γ) (batch : List (BatchOp β γ)) (key : TypedKey ι κ) :
    List (BatchOp β γ) :=
  batch++[.delete (codec.encodeKey key)]

/-- Apply a change of a batch. -/
def applyOp (db : OrderedMap β γ) : BatchOp β γ → OrderedMap β γ
  | .put key value => db.set key value
  | .delete key => db.erase key

/-- Apply a batch to the database. -/
def writeBatch (db : OrderedMap β γ) (batch : List (BatchOp β γ)) : OrderedMap β γ :=
  batch.foldl applyOp db

def dbRead (codec : Codec ι κ ν τ β γ) (db : OrderedMap β γ) (key : TypedKey ι κ) (type : τ) :
    Option ν :=
  (db.find (codec.encodeKey key)).bind (codec.decode type)

/-- Whether the database has a key. -/
def dbExists (codec : Codec ι κ ν τ β γ) (db : OrderedMap β γ) (key : TypedKey ι κ) : Bool :=
  db.contains (codec.encodeKey key)

/-- The database with both transactions. -/
structure CEvoDB (ι κ ν β γ : Type) [LinearOrder ι] [LinearOrder κ] [LinearOrder β] where
  db : OrderedMap β γ
  rootBatch : List (BatchOp β γ) := []
  rootDBTransaction : CDBTransaction ι κ ν := {}
  curDBTransaction : CDBTransaction ι κ ν := {}
  /-- For each scoped transaction, whether it was committed or rolled back. -/
  didCommitOrRollback : List Bool := []

namespace CEvoDB

variable (codec : Codec ι κ ν τ β γ)

/-- Begin a scoped transaction; the current one must have no changes. -/
def beginTransaction (evo : CEvoDB ι κ ν β γ) : Option (CEvoDB ι κ ν β γ) :=
  if evo.curDBTransaction.isClean then
    some { evo with didCommitOrRollback := evo.didCommitOrRollback++[false] }
  else none

def read (evo : CEvoDB ι κ ν β γ) (key : TypedKey ι κ) (type : τ) : Option ν :=
  evo.curDBTransaction.read codec (evo.rootDBTransaction.read codec (dbRead codec evo.db)) key type

def exist (evo : CEvoDB ι κ ν β γ) (key : TypedKey ι κ) : Bool :=
  evo.curDBTransaction.exist (evo.rootDBTransaction.exist (dbExists codec evo.db)) key

def write (evo : CEvoDB ι κ ν β γ) (key : TypedKey ι κ) (v : ν) : CEvoDB ι κ ν β γ :=
  { evo with curDBTransaction := evo.curDBTransaction.write key v }

def erase (evo : CEvoDB ι κ ν β γ) (key : TypedKey ι κ) : CEvoDB ι κ ν β γ :=
  { evo with curDBTransaction := evo.curDBTransaction.erase key }

/-- Finish a scoped transaction, which must not be finished yet. -/
def finish (evo : CEvoDB ι κ ν β γ) (scope : ℕ) : Option (CEvoDB ι κ ν β γ) :=
  if evo.didCommitOrRollback[scope]?=some false then
    some { evo with didCommitOrRollback := evo.didCommitOrRollback.set scope true }
  else none

/-- Commit the current transaction into the root transaction. -/
def commit (evo : CEvoDB ι κ ν β γ) (scope : ℕ) : Option (CEvoDB ι κ ν β γ) :=
  (evo.finish scope).map (fun evo => { evo with
    rootDBTransaction := evo.curDBTransaction.commit CDBTransaction.erase CDBTransaction.write
      evo.rootDBTransaction
    curDBTransaction := CDBTransaction.clear })

/-- Forget the changes of the current transaction. -/
def rollback (evo : CEvoDB ι κ ν β γ) (scope : ℕ) : Option (CEvoDB ι κ ν β γ) :=
  (evo.finish scope).map (fun evo => { evo with curDBTransaction := CDBTransaction.clear })

/-- Write the root transaction to the database; the current one must have no changes. -/
def commitRootTransaction (evo : CEvoDB ι κ ν β γ) : Option (CEvoDB ι κ ν β γ) :=
  if evo.curDBTransaction.isClean then
    some { evo with
      db := writeBatch evo.db (evo.rootDBTransaction.commit (batchErase codec) (batchWrite codec)
        evo.rootBatch)
      rootDBTransaction := CDBTransaction.clear
      rootBatch := [] }
  else none

end CEvoDB

inductive EvoOp (ι κ ν τ : Type) where
  | begin
  | read (key : TypedKey ι κ) (type : τ)
  | exist (key : TypedKey ι κ)
  | write (key : TypedKey ι κ) (v : ν)
  | erase (key : TypedKey ι κ)
  | commit (scope : ℕ)
  | rollback (scope : ℕ)
  | commitRoot

inductive Answer (ν : Type) where
  | done
  | value (v : Option ν)
  | found (b : Bool)
  deriving DecidableEq

/-- Carry out a call; without a result an assertion has failed. -/
def step (codec : Codec ι κ ν τ β γ) (evo : CEvoDB ι κ ν β γ) :
    EvoOp ι κ ν τ → Option (Answer ν×CEvoDB ι κ ν β γ)
  | .begin => evo.beginTransaction.map (fun evo => (.done,evo))
  | .read key type => some (.value (evo.read codec key type),evo)
  | .exist key => some (.found (evo.exist codec key),evo)
  | .write key v => some (.done,evo.write key v)
  | .erase key => some (.done,evo.erase key)
  | .commit scope => (evo.commit scope).map (fun evo => (.done,evo))
  | .rollback scope => (evo.rollback scope).map (fun evo => (.done,evo))
  | .commitRoot => (evo.commitRootTransaction codec).map (fun evo => (.done,evo))

/-- Carry out calls and collect the answers. -/
def run {σ : Type} (step : σ → EvoOp ι κ ν τ → Option (Answer ν×σ)) :
    σ → List (EvoOp ι κ ν τ) → Option (List (Answer ν)×σ)
  | st,[] => some ([],st)
  | st,op::ops =>
    (step st op).bind (fun result =>
      (run step result.2 ops).map (fun rest => (result.1::rest.1,rest.2)))

/-- A plain map with a tentative copy at each level, holding serialized values. -/
structure PlainDB (ι κ γ : Type) where
  db : TypedKey ι κ → Option γ
  root : TypedKey ι κ → Option γ
  cur : TypedKey ι κ → Option γ
  /-- Whether there was a write or an erase since the current copy was taken. -/
  dirty : Bool := false
  /-- For each scoped transaction, whether it is finished. -/
  finished : List Bool := []

/-- What a call does on plain maps. -/
def plainStep (codec : Codec ι κ ν τ β γ) (plain : PlainDB ι κ γ) :
    EvoOp ι κ ν τ → Option (Answer ν×PlainDB ι κ γ)
  | .begin =>
    if plain.dirty then none else some (.done,{ plain with finished := plain.finished++[false] })
  | .read key type => some (.value ((plain.cur key).bind (codec.decode type)),plain)
  | .exist key => some (.found (plain.cur key).isSome,plain)
  | .write key v => some (.done,
    { plain with cur := Function.update plain.cur key (some (codec.encode v)), dirty := true })
  | .erase key => some (.done,
    { plain with cur := Function.update plain.cur key none, dirty := true })
  | .commit scope =>
    if plain.finished[scope]?=some false then
      some (.done,{ plain with
        root := plain.cur, dirty := false, finished := plain.finished.set scope true })
    else none
  | .rollback scope =>
    if plain.finished[scope]?=some false then
      some (.done,{ plain with
        cur := plain.root, dirty := false, finished := plain.finished.set scope true })
    else none
  | .commitRoot => if plain.dirty then none else some (.done,{ plain with db := plain.root })

/-- Changes of a transaction with serialized values. -/
def layerOf (codec : Codec ι κ ν τ β γ) (tx : CDBTransaction ι κ ν) : Layer (TypedKey ι κ) γ where
  written := fun key => (tx.findWrite key).map codec.encode
  deleted := tx.isDeleted

/-- What the database holds. -/
def contentOf (codec : Codec ι κ ν τ β γ) (db : OrderedMap β γ) (key : TypedKey ι κ) : Option γ :=
  db.find (codec.encodeKey key)

/-- The codec of a program: keys do not collide and values are read back as they
were written. -/
structure Codec.Lawful (codec : Codec ι κ ν τ β γ) : Prop where
  keys : Function.Injective codec.encodeKey
  values : ∀ v, codec.decode (codec.typeOf v) (codec.encode v)=some v

/-- A call that reads and writes each key with one type of values. -/
def EvoOp.Typed (codec : Codec ι κ ν τ β γ) (valueType : TypedKey ι κ → τ) :
    EvoOp ι κ ν τ → Prop
  | .read key type => type=valueType key
  | .write key v => codec.typeOf v=valueType key
  | _ => True

end Transaction

section Changes

variable {ι κ ν τ β γ : Type} [LinearOrder ι] [LinearOrder κ] {codec : Codec ι κ ν τ β γ}
  {tx : CDBTransaction ι κ ν}

def findKey {μ : Type} (map : OrderedMap ι (OrderedMap κ μ)) (key : TypedKey ι κ) : Option μ :=
  (map.find key.type).bind (fun keys => keys.find key.key)

theorem findKey_eraseKey {μ : Type} (map : OrderedMap ι (OrderedMap κ μ))
    (key other : TypedKey ι κ) :
    findKey (CDBTransaction.eraseKey map key) other=if other=key then none else findKey
      map other := by
  unfold CDBTransaction.eraseKey findKey
  by_cases he : other=key
  · subst he
    rw [if_pos rfl]
    cases hmap : map.find other.type with
    | none =>
      rw [hmap]
      rfl
    | some keys =>
      rw [find_set_self,Option.bind_some,find_erase_self]
  · rw [if_neg he]
    cases hmap : map.find key.type with
    | none => rfl
    | some keys =>
      by_cases htype : other.type=key.type
      · have hkey : other.key≠key.key := by
          intro hkey
          cases other
          cases key
          cases htype
          cases hkey
          exact he rfl
        rw [htype,find_set_self,Option.bind_some,find_erase_of_ne _ hkey,hmap,Option.bind_some]
      · rw [find_set_of_ne _ _ htype]

theorem findKey_set {μ : Type} (map : OrderedMap ι (OrderedMap κ μ)) (keys : OrderedMap κ μ)
    (key other : TypedKey ι κ) (value : μ)
    (hkeys : ∀ k, keys.find k=if k=key.key then some value else
      (CDBTransaction.getMapForType map key.type).find k) :
    findKey (map.set key.type keys) other=if other=key then some value else findKey map other := by
  unfold findKey
  by_cases htype : other.type=key.type
  · rw [htype,find_set_self,Option.bind_some,hkeys]
    by_cases hkey : other.key=key.key
    · have he : other=key := by
        cases other
        cases key
        cases htype
        cases hkey
        rfl
      rw [if_pos hkey,if_pos he]
    · have he : other≠key := fun he => hkey (he ▸ rfl)
      rw [if_neg hkey,if_neg he]
      unfold CDBTransaction.getMapForType
      cases map.find key.type <;> rfl
  · have he : other≠key := fun he => htype (he ▸ rfl)
    rw [if_neg he,find_set_of_ne _ _ htype]

variable (key : TypedKey ι κ)

theorem findWrite_eq : tx.findWrite key=findKey tx.writes key := rfl

theorem isDeleted_eq : tx.isDeleted key=(findKey tx.deletes key).isSome := rfl

theorem find_write (tx : CDBTransaction ι κ ν) (key : TypedKey ι κ) (v : ν) (k : κ) :
    (((CDBTransaction.getMapForType tx.writes key.type).erase key.key).emplace key.key v).find k=
      if k=key.key then some v else
        (CDBTransaction.getMapForType tx.writes key.type).find k := by
  rw [find_emplace,find_erase_self,Option.getD_none]
  split_ifs with hk
  · rfl
  · exact find_erase_of_ne _ hk

theorem layerOf_write (v : ν) :
    layerOf codec (tx.write key v)=(layerOf codec tx).write key (codec.encode v) := by
  have hwritten : (fun other => ((tx.write key v).findWrite other).map codec.encode)=
      Function.update (fun other => (tx.findWrite other).map codec.encode) key
        (some (codec.encode v)) := by
    funext other
    rw [findWrite_eq]
    unfold CDBTransaction.write
    rw [findKey_set tx.writes _ key other v (find_write tx key v)]
    by_cases he : other=key
    · subst he
      rw [if_pos rfl,update_self]
      rfl
    · rw [if_neg he,update_of_ne he]
      rfl
  have hdeleted : (tx.write key v).isDeleted=Function.update tx.isDeleted key false := by
    funext other
    rw [isDeleted_eq]
    unfold CDBTransaction.write
    rw [findKey_eraseKey]
    by_cases he : other=key
    · subst he
      rw [if_pos rfl,update_self]
      rfl
    · rw [if_neg he,update_of_ne he]
      rfl
  unfold layerOf write
  rw [hwritten,hdeleted]

theorem layerOf_erase : layerOf codec (tx.erase key)=(layerOf codec tx).erase key := by
  have hwritten : (fun other => ((tx.erase key).findWrite other).map codec.encode)=
      Function.update (fun other => (tx.findWrite other).map codec.encode) key none := by
    funext other
    rw [findWrite_eq]
    unfold CDBTransaction.erase
    rw [findKey_eraseKey]
    by_cases he : other=key
    · subst he
      rw [if_pos rfl,update_self]
      rfl
    · rw [if_neg he,update_of_ne he]
      rfl
  have hdeleted : (tx.erase key).isDeleted=Function.update tx.isDeleted key true := by
    funext other
    rw [isDeleted_eq]
    unfold CDBTransaction.erase
    have hkeys : ∀ k, ((CDBTransaction.getMapForType tx.deletes key.type).emplace
      key.key ()).find k=
        if k=key.key then some () else (CDBTransaction.getMapForType tx.deletes key.type).find
          k := by
      intro k
      rw [find_emplace]
    rw [findKey_set tx.deletes _ key other () hkeys]
    by_cases he : other=key
    · subst he
      rw [if_pos rfl,update_self]
      rfl
    · rw [if_neg he,update_of_ne he]
      rfl
  unfold layerOf Layer.erase
  rw [hwritten,hdeleted]

def flatEntries {μ : Type} (map : OrderedMap ι (OrderedMap κ μ)) : List (TypedKey ι κ×μ) :=
  map.entries.flatMap (fun p => p.2.entries.map (fun p2 => (⟨p.1,p2.1⟩,p2.2)))

theorem mem_flatEntries {μ : Type} {map : OrderedMap ι (OrderedMap κ μ)} {key : TypedKey ι κ}
    {value : μ} : (key,value)∈flatEntries map ↔ findKey map key=some value := by
  unfold flatEntries findKey
  rw [mem_flatMap,Option.bind_eq_some_iff]
  constructor
  · rintro ⟨⟨type,keys⟩,htype,hm⟩
    obtain ⟨⟨k,v⟩,hentry,he⟩ := mem_map.mp hm
    cases he
    exact ⟨keys,(map.mem_entries_iff type keys).mp htype,(keys.mem_entries_iff k v).mp hentry⟩
  · rintro ⟨keys,htype,hkey⟩
    exact ⟨(key.type,keys),(map.mem_entries_iff key.type keys).mpr htype,
      mem_map.mpr ⟨(key.key,value),(keys.mem_entries_iff key.key value).mpr hkey,rfl⟩⟩

theorem commit_eq {σ : Type} (eraseKey : σ → TypedKey ι κ → σ)
    (writeKey : σ → TypedKey ι κ → ν → σ) (target : σ) :
    tx.commit eraseKey writeKey target=
      (flatEntries tx.writes).foldl (fun store entry => writeKey store entry.1 entry.2)
        (((flatEntries tx.deletes).map Prod.fst).foldl eraseKey target) := by
  unfold CDBTransaction.commit flatEntries
  rw [foldl_flatMap,foldl_map,foldl_flatMap]
  simp only [foldl_map]

theorem content_commit {σ : Type} (target : Target σ (TypedKey ι κ) ν γ)
    (himage : target.image=codec.encode) (hseparate : (layerOf codec tx).Separate) (store : σ) :
    target.content (tx.commit target.erase target.write store)=
      (layerOf codec tx).shown (target.content store) := by
  have hdeletes : ∀ key, key∈(flatEntries tx.deletes).map Prod.fst ↔
      (layerOf codec tx).deleted key=true := by
    intro key
    have hdeleted : (layerOf codec tx).deleted key=(findKey tx.deletes key).isSome := rfl
    rw [hdeleted,Option.isSome_iff_exists,mem_map]
    constructor
    · rintro ⟨⟨other,mark⟩,hm,rfl⟩
      exact ⟨mark,mem_flatEntries.mp hm⟩
    · rintro ⟨mark,hmark⟩
      exact ⟨(key,mark),mem_flatEntries.mpr hmark,rfl⟩
  have hwrites : ∀ entry∈flatEntries tx.writes,
      (layerOf codec tx).written entry.1=some (target.image entry.2) := by
    intro entry hm
    have hfound : tx.findWrite entry.1=some entry.2 := mem_flatEntries.mp hm
    have hwritten : (layerOf codec tx).written entry.1=(tx.findWrite entry.1).map
      codec.encode := rfl
    rw [hwritten,hfound,himage,Option.map_some]
  have hall : ∀ key, ((layerOf codec tx).written key).isSome=true →
      key∈(flatEntries tx.writes).map Prod.fst := by
    intro key hsome
    have hwritten : (layerOf codec tx).written key=(tx.findWrite key).map codec.encode := rfl
    rw [hwritten,Option.isSome_map,Option.isSome_iff_exists] at hsome
    obtain ⟨v,hv⟩ := hsome
    exact mem_map.mpr ⟨(key,v),mem_flatEntries.mpr hv,rfl⟩
  rw [commit_eq]
  exact target.content_take hdeletes hwrites hall hseparate store

theorem commit_invariant {σ : Type} {P : σ → Prop} {eraseKey : σ → TypedKey ι κ → σ}
    {writeKey : σ → TypedKey ι κ → ν → σ} (herase : ∀ store key, P store → P (eraseKey store key))
    (hwrite : ∀ store key v, tx.findWrite key=some v → P store → P (writeKey store key v))
    {target : σ} (htarget : P target) : P (tx.commit eraseKey writeKey target) := by
  rw [commit_eq]
  refine List.foldlRecOn _ _ ?_ ?_
  · exact List.foldlRecOn _ _ htarget (fun store hstore key _ => herase store key hstore)
  · intro store hstore entry hm
    exact hwrite store entry.1 entry.2 (mem_flatEntries.mp hm) hstore

end Changes

section Refinement

variable {ι κ ν τ β γ : Type} [LinearOrder ι] [LinearOrder κ] {codec : Codec ι κ ν τ β γ}
  {valueType : TypedKey ι κ → τ}

/-- All written values have the types of their keys. -/
def TypedWrites (codec : Codec ι κ ν τ β γ) (valueType : TypedKey ι κ → τ)
    (tx : CDBTransaction ι κ ν) : Prop :=
  ∀ key v, tx.findWrite key=some v → codec.typeOf v=valueType key

theorem TypedWrites.write {tx : CDBTransaction ι κ ν} (h : TypedWrites codec valueType tx)
    {key : TypedKey ι κ} {v : ν} (hv : codec.typeOf v=valueType key) :
    TypedWrites codec valueType (tx.write key v) := by
  intro other found hfound
  have hfound : findKey (tx.write key v).writes other=some found := hfound
  unfold CDBTransaction.write at hfound
  rw [findKey_set tx.writes _ key other v (find_write tx key v)] at hfound
  split_ifs at hfound with he
  · cases hfound
    rw [he,hv]
  · exact h other found hfound

theorem TypedWrites.erase {tx : CDBTransaction ι κ ν} (h : TypedWrites codec valueType tx)
    (key : TypedKey ι κ) : TypedWrites codec valueType (tx.erase key) := by
  intro other found hfound
  have hfound : findKey (CDBTransaction.eraseKey tx.writes key) other=some found := hfound
  rw [findKey_eraseKey] at hfound
  split_ifs at hfound
  exact h other found hfound

/-- The root transaction over a map is a target of commits. -/
def rootTarget (codec : Codec ι κ ν τ β γ) (base : TypedKey ι κ → Option γ) :
    Target (CDBTransaction ι κ ν) (TypedKey ι κ) ν γ where
  content := fun root => (layerOf codec root).shown base
  image := codec.encode
  erase := CDBTransaction.erase
  write := CDBTransaction.write
  content_erase := fun root key => by rw [layerOf_erase,shown_erase]
  content_write := fun root key v => by rw [layerOf_write,shown_write]

def batchTarget [LinearOrder β] (codec : Codec ι κ ν τ β γ)
    (hkeys : Function.Injective codec.encodeKey)
    (db : OrderedMap β γ) : Target (List (BatchOp β γ)) (TypedKey ι κ) ν γ where
  content := fun batch => contentOf codec (writeBatch db batch)
  image := codec.encode
  erase := batchErase codec
  write := batchWrite codec
  content_erase := by
    intro batch key
    funext other
    unfold batchErase writeBatch contentOf
    rw [foldl_append,foldl_cons,foldl_nil]
    unfold applyOp
    rw [find_erase]
    by_cases he : other=key
    · subst he
      rw [if_pos rfl,update_self]
    · rw [if_neg (fun heq => he (hkeys heq)),update_of_ne he]
  content_write := by
    intro batch key v
    funext other
    unfold batchWrite writeBatch contentOf
    rw [foldl_append,foldl_cons,foldl_nil]
    unfold applyOp
    rw [find_set]
    by_cases he : other=key
    · subst he
      rw [if_pos rfl,update_self]
    · rw [if_neg (fun heq => he (hkeys heq)),update_of_ne he]

variable {base : TypedKey ι κ → Option γ}

theorem read_eq [DecidableEq τ] {tx : CDBTransaction ι κ ν} (hlawful : codec.Lawful)
    (htyped : TypedWrites codec valueType tx) {parent : TypedKey ι κ → τ → Option ν}
    (hpar : ∀ key, parent key (valueType key)=(base key).bind (codec.decode (valueType key)))
    (key : TypedKey ι κ) : tx.read codec parent key (valueType key)=
      ((layerOf codec tx).shown base key).bind (codec.decode (valueType key)) := by
  unfold CDBTransaction.read shown layerOf
  dsimp only
  by_cases hdeleted : tx.isDeleted key=true
  · rw [if_pos hdeleted,if_pos hdeleted,Option.bind_none]
  · rw [if_neg hdeleted,if_neg hdeleted]
    cases hwrite : tx.findWrite key with
    | none =>
      rw [Option.map_none,Option.none_or,hpar]
    | some v =>
      have htype := htyped key v hwrite
      have hvalue := hlawful.values v
      dsimp only
      rw [if_pos htype,Option.map_some,Option.some_or,Option.bind_some,← htype,hvalue]

theorem exist_eq {tx : CDBTransaction ι κ ν} {parent : TypedKey ι κ → Bool}
    (hpar : ∀ key, parent key=(base key).isSome)
    (key : TypedKey ι κ) : tx.exist parent key=((layerOf codec tx).shown base key).isSome := by
  unfold CDBTransaction.exist shown layerOf
  grind

theorem isEmpty_set {μ : Type} (map : OrderedMap ι μ) (key : ι) (value : μ) :
    (map.set key value).entries.isEmpty=false := by
  have hm : (key,value)∈(map.set key value).entries :=
    ((map.set key value).mem_entries_iff key value).mpr (find_set_self map key value)
  rw [isEmpty_eq_false_iff]
  exact ne_nil_of_mem hm

theorem isClean_write (tx : CDBTransaction ι κ ν) (key : TypedKey ι κ) (v : ν) :
    (tx.write key v).isClean=false := by
  unfold CDBTransaction.isClean CDBTransaction.write
  rw [isEmpty_set,Bool.false_and]

theorem isClean_erase (tx : CDBTransaction ι κ ν) (key : TypedKey ι κ) :
    (tx.erase key).isClean=false := by
  unfold CDBTransaction.isClean CDBTransaction.erase
  rw [isEmpty_set,Bool.and_false]

theorem eq_clear_of_isClean {tx : CDBTransaction ι κ ν} (h : tx.isClean=true) :
    tx=CDBTransaction.clear := by
  unfold CDBTransaction.isClean at h
  rw [Bool.and_eq_true,List.isEmpty_iff,List.isEmpty_iff] at h
  have hwrites : tx.writes=.empty := ext_find (fun key => by
    rw [OrderedMap.find,h.1]
    rfl)
  have hdeletes : tx.deletes=.empty := ext_find (fun key => by
    rw [OrderedMap.find,h.2]
    rfl)
  cases tx
  cases hwrites
  cases hdeletes
  rfl

theorem findWrite_of_isDeleted {tx : CDBTransaction ι κ ν} (h : (layerOf codec tx).Separate)
    {key : TypedKey ι κ} (hdeleted : tx.isDeleted key=true) : tx.findWrite key=none := by
  have hnone : (tx.findWrite key).map codec.encode=none := h key hdeleted
  exact Option.map_eq_none_iff.mp hnone

end Refinement

variable {ι κ ν τ β γ : Type} [LinearOrder ι] [LinearOrder κ] [LinearOrder β]
  {codec : Codec ι κ ν τ β γ} {valueType : TypedKey ι κ → τ} {evo : CEvoDB ι κ ν β γ}
  {plain : PlainDB ι κ γ}

/-- The layers of the database show the copies of plain maps. -/
structure Tracks (codec : Codec ι κ ν τ β γ) (valueType : TypedKey ι κ → τ)
    (evo : CEvoDB ι κ ν β γ) (plain : PlainDB ι κ γ) : Prop where
  db : plain.db=contentOf codec evo.db
  root : plain.root=(layerOf codec evo.rootDBTransaction).shown plain.db
  cur : plain.cur=(layerOf codec evo.curDBTransaction).shown plain.root
  /-- No key is written and deleted in the root transaction. -/
  rootSeparate : (layerOf codec evo.rootDBTransaction).Separate
  curSeparate : (layerOf codec evo.curDBTransaction).Separate
  rootTyped : TypedWrites codec valueType evo.rootDBTransaction
  curTyped : TypedWrites codec valueType evo.curDBTransaction
  batch : evo.rootBatch=[]
  dirty : plain.dirty= !evo.curDBTransaction.isClean
  finished : plain.finished=evo.didCommitOrRollback

theorem tracks_fresh (db : OrderedMap β γ) :
    Tracks codec valueType ({ db := db } : CEvoDB ι κ ν β γ)
      { db := contentOf codec db, root := contentOf codec db, cur := contentOf codec db } :=
  ⟨rfl,rfl,rfl,separate_empty,separate_empty,fun _ _ h => (by cases h),
    fun _ _ h => (by cases h),rfl,rfl,rfl⟩

theorem Tracks.read [DecidableEq τ] (h : Tracks codec valueType evo plain) (hlawful : codec.Lawful)
    (key : TypedKey ι κ) : evo.read codec key (valueType key)=
      (plain.cur key).bind (codec.decode (valueType key)) := by
  have hroot : ∀ key, evo.rootDBTransaction.read codec (dbRead codec evo.db) key (valueType key)=
      (plain.root key).bind (codec.decode (valueType key)) := by
    intro key
    rw [h.root]
    refine read_eq hlawful h.rootTyped (fun key => ?_) key
    rw [h.db]
    rfl
  rw [h.cur]
  exact read_eq hlawful h.curTyped hroot key

section

variable (h : Tracks codec valueType evo plain)

include h

theorem Tracks.exist (key : TypedKey ι κ) :
    evo.exist codec key=(plain.cur key).isSome := by
  have hroot : ∀ key, evo.rootDBTransaction.exist (dbExists codec evo.db) key=
      (plain.root key).isSome := by
    intro key
    rw [h.root]
    refine exist_eq (fun key => ?_) key
    rw [h.db]
    rfl
  rw [h.cur]
  exact exist_eq hroot key

theorem Tracks.write {key : TypedKey ι κ} {v : ν}
    (hv : codec.typeOf v=valueType key) : Tracks codec valueType (evo.write key v)
      { plain with cur := Function.update plain.cur key (some (codec.encode v)), dirty :=
        true } where
  db := h.db
  root := h.root
  cur := by
    have hlayer : layerOf codec (evo.write key v).curDBTransaction=
        (layerOf codec evo.curDBTransaction).write key (codec.encode v) := layerOf_write key v
    rw [hlayer,shown_write,← h.cur]
  rootSeparate := h.rootSeparate
  curSeparate := by
    have hlayer : layerOf codec (evo.write key v).curDBTransaction=
        (layerOf codec evo.curDBTransaction).write key (codec.encode v) := layerOf_write key v
    rw [hlayer]
    exact h.curSeparate.write key _
  rootTyped := h.rootTyped
  curTyped := h.curTyped.write hv
  batch := h.batch
  dirty := by
    have hclean : (evo.write key v).curDBTransaction.isClean=false := isClean_write _ key v
    rw [hclean]
    rfl
  finished := h.finished

theorem Tracks.erase (key : TypedKey ι κ) :
    Tracks codec valueType (evo.erase key)
      { plain with cur := Function.update plain.cur key none, dirty := true } where
  db := h.db
  root := h.root
  cur := by
    have hlayer : layerOf codec (evo.erase key).curDBTransaction=
        (layerOf codec evo.curDBTransaction).erase key := layerOf_erase key
    rw [hlayer,shown_erase,← h.cur]
  rootSeparate := h.rootSeparate
  curSeparate := by
    have hlayer : layerOf codec (evo.erase key).curDBTransaction=
        (layerOf codec evo.curDBTransaction).erase key := layerOf_erase key
    rw [hlayer]
    exact h.curSeparate.erase key
  rootTyped := h.rootTyped
  curTyped := h.curTyped.erase key
  batch := h.batch
  dirty := by
    have hclean : (evo.erase key).curDBTransaction.isClean=false := isClean_erase _ key
    rw [hclean]
    rfl
  finished := h.finished

theorem Tracks.commit (scope : ℕ) :
    Tracks codec valueType
      { evo with
        rootDBTransaction := evo.curDBTransaction.commit CDBTransaction.erase CDBTransaction.write
          evo.rootDBTransaction
        curDBTransaction := CDBTransaction.clear
        didCommitOrRollback := evo.didCommitOrRollback.set scope true }
      { plain with
        root := plain.cur
        dirty := false
        finished := plain.finished.set scope true } where
  db := h.db
  root := by
    have hcontent := content_commit (rootTarget codec plain.db) rfl h.curSeparate
      evo.rootDBTransaction
    refine h.cur.trans ?_
    rw [h.root]
    exact hcontent.symm
  cur := rfl
  rootSeparate := by
    refine @commit_invariant _ _ _ _ _ _ _ (fun tx => (layerOf codec tx).Separate) _ _ ?_ ?_ _
      h.rootSeparate
    · intro tx key hseparate
      rw [layerOf_erase]
      exact hseparate.erase key
    · intro tx key v _ hseparate
      rw [layerOf_write]
      exact hseparate.write key _
  curSeparate := separate_empty
  rootTyped := by
    refine @commit_invariant _ _ _ _ _ _ _ (TypedWrites codec valueType) _ _ ?_ ?_ _ h.rootTyped
    · exact fun tx key htyped => htyped.erase key
    · exact fun tx key v hwritten htyped => htyped.write (h.curTyped key v hwritten)
  curTyped := fun _ _ hfound => (by cases hfound)
  batch := h.batch
  dirty := rfl
  finished := by
    rw [h.finished]

theorem Tracks.rollback (scope : ℕ) :
    Tracks codec valueType
      { evo with
        curDBTransaction := CDBTransaction.clear
        didCommitOrRollback := evo.didCommitOrRollback.set scope true }
      { plain with
        cur := plain.root
        dirty := false
        finished := plain.finished.set scope true } where
  db := h.db
  root := h.root
  cur := rfl
  rootSeparate := h.rootSeparate
  curSeparate := separate_empty
  rootTyped := h.rootTyped
  curTyped := fun _ _ hfound => (by cases hfound)
  batch := h.batch
  dirty := rfl
  finished := by
    rw [h.finished]

theorem Tracks.commitRoot (hlawful : codec.Lawful) :
    Tracks codec valueType
      { evo with
        db := writeBatch evo.db (evo.rootDBTransaction.commit (batchErase codec) (batchWrite codec)
          evo.rootBatch)
        rootDBTransaction := CDBTransaction.clear
        rootBatch := [] }
      { plain with db := plain.root } where
  db := by
    have hcontent := content_commit (batchTarget codec hlawful.keys evo.db) rfl h.rootSeparate
      evo.rootBatch
    have hbefore : (batchTarget codec hlawful.keys evo.db).content evo.rootBatch=plain.db := by
      rw [h.batch,h.db]
      rfl
    rw [hbefore,← h.root] at hcontent
    exact hcontent.symm
  root := rfl
  cur := h.cur
  rootSeparate := separate_empty
  curSeparate := h.curSeparate
  rootTyped := fun _ _ hfound => (by cases hfound)
  curTyped := h.curTyped
  batch := rfl
  dirty := h.dirty
  finished := h.finished

end

variable [DecidableEq τ]

theorem step_tracks (hlawful : codec.Lawful) (h : Tracks codec valueType evo plain)
    {op : EvoOp ι κ ν τ} (hop : op.Typed codec valueType) :
    step codec evo op=none ∧ plainStep codec plain op=none ∨
      ∃ answer next plainNext, step codec evo op=some (answer,next) ∧
        plainStep codec plain op=some (answer,plainNext) ∧
          Tracks codec valueType next plainNext := by
  cases op with
  | begin =>
    cases hclean : evo.curDBTransaction.isClean with
    | false =>
      have hdirty : plain.dirty=true := by rw [h.dirty,hclean]; rfl
      refine .inl ⟨?_,if_pos hdirty⟩
      unfold step CEvoDB.beginTransaction
      rw [hclean]
      rfl
    | true =>
      have hdirty : ¬plain.dirty=true := by rw [h.dirty,hclean]; decide
      have hnext : Tracks codec valueType
          { evo with didCommitOrRollback := evo.didCommitOrRollback++[false] }
          { plain with finished := plain.finished++[false] } :=
        ⟨h.db,h.root,h.cur,h.rootSeparate,h.curSeparate,h.rootTyped,h.curTyped,h.batch,h.dirty,
          congrArg (fun finished => finished++[false]) h.finished⟩
      refine .inr ⟨.done,_,_,?_,if_neg hdirty,hnext⟩
      unfold step CEvoDB.beginTransaction
      rw [hclean]
      rfl
  | read key type =>
    have hread := h.read hlawful key
    have hop : type=valueType key := hop
    rw [← hop] at hread
    refine .inr ⟨.value (evo.read codec key type),evo,plain,rfl,?_,h⟩
    rw [hread]
    rfl
  | exist key =>
    refine .inr ⟨.found (evo.exist codec key),evo,plain,rfl,?_,h⟩
    rw [h.exist key]
    rfl
  | write key v => exact .inr ⟨_,_,_,rfl,rfl,h.write hop⟩
  | erase key => exact .inr ⟨_,_,_,rfl,rfl,h.erase key⟩
  | commit scope =>
    by_cases hopen : evo.didCommitOrRollback[scope]?=some false
    · have hplain : plain.finished[scope]?=some false := by rw [h.finished]; exact hopen
      refine .inr ⟨.done,_,_,?_,if_pos hplain,h.commit scope⟩
      unfold step CEvoDB.commit CEvoDB.finish
      dsimp only
      rw [if_pos hopen]
      rfl
    · have hplain : ¬plain.finished[scope]?=some false := by rw [h.finished]; exact hopen
      refine .inl ⟨?_,if_neg hplain⟩
      unfold step CEvoDB.commit CEvoDB.finish
      dsimp only
      rw [if_neg hopen]
      rfl
  | rollback scope =>
    by_cases hopen : evo.didCommitOrRollback[scope]?=some false
    · have hplain : plain.finished[scope]?=some false := by rw [h.finished]; exact hopen
      refine .inr ⟨.done,_,_,?_,if_pos hplain,h.rollback scope⟩
      unfold step CEvoDB.rollback CEvoDB.finish
      dsimp only
      rw [if_pos hopen]
      rfl
    · have hplain : ¬plain.finished[scope]?=some false := by rw [h.finished]; exact hopen
      refine .inl ⟨?_,if_neg hplain⟩
      unfold step CEvoDB.rollback CEvoDB.finish
      dsimp only
      rw [if_neg hopen]
      rfl
  | commitRoot =>
    cases hclean : evo.curDBTransaction.isClean with
    | false =>
      have hdirty : plain.dirty=true := by rw [h.dirty,hclean]; rfl
      refine .inl ⟨?_,if_pos hdirty⟩
      unfold step CEvoDB.commitRootTransaction
      rw [hclean]
      rfl
    | true =>
      have hdirty : ¬plain.dirty=true := by rw [h.dirty,hclean]; decide
      refine .inr ⟨.done,_,_,?_,if_neg hdirty,h.commitRoot hlawful⟩
      unfold step CEvoDB.commitRootTransaction
      rw [hclean]
      rfl

theorem run_tracks (hlawful : codec.Lawful) {ops : List (EvoOp ι κ ν τ)}
    (hops : ∀ op∈ops, op.Typed codec valueType) (h : Tracks codec valueType evo plain) :
    (run (step codec) evo ops).map Prod.fst=(run (plainStep codec) plain ops).map Prod.fst ∧
    ∀ answers final, run (step codec) evo ops=some (answers,final) →
      ∃ plainFinal, run (plainStep codec) plain ops=some (answers,plainFinal) ∧
        Tracks codec valueType final plainFinal := by
  induction ops generalizing evo plain with
  | nil =>
    refine ⟨rfl,?_⟩
    intro answers final hrun
    cases hrun
    exact ⟨plain,rfl,h⟩
  | cons op ops ih =>
    rw [forall_mem_cons] at hops
    unfold run
    rcases step_tracks hlawful h hops.1 with
      ⟨hstep,hplain⟩|⟨answer,next,plainNext,hstep,hplain,hnext⟩
    · rw [hstep,hplain]
      exact ⟨rfl,fun _ _ hrun => (by cases hrun)⟩
    · rw [hstep,hplain]
      obtain ⟨hanswers,hfinal⟩ := ih hops.2 hnext
      dsimp only [Option.bind_some]
      constructor
      · rw [Option.map_map,Option.map_map]
        have hcons := congrArg (Option.map (fun rest => answer::rest)) hanswers
        rw [Option.map_map,Option.map_map] at hcons
        exact hcons
      · intro answers final hrun
        rw [Option.map_eq_some_iff] at hrun
        grind

/-- A call between the begin and the end of a scoped transaction. -/
def EvoOp.Inside : EvoOp ι κ ν τ → Prop
  | .read _ _ => True
  | .exist _ => True
  | .write _ _ => True
  | .erase _ => True
  | _ => False

theorem run_inside {ops : List (EvoOp ι κ ν τ)} (hops : ∀ op∈ops, op.Inside)
    {answers : List (Answer ν)} {final : CEvoDB ι κ ν β γ}
    (hrun : run (step codec) evo ops=some (answers,final)) :
    { final with curDBTransaction := CDBTransaction.clear }=
      { evo with curDBTransaction := CDBTransaction.clear } := by
  induction ops generalizing evo answers with
  | nil =>
    cases hrun
    rfl
  | cons op ops ih =>
    rw [forall_mem_cons] at hops
    unfold run at hrun
    rw [Option.bind_eq_some_iff] at hrun
    obtain ⟨⟨answer,next⟩,hstep,hrun⟩ := hrun
    rw [Option.map_eq_some_iff] at hrun
    obtain ⟨⟨rest,last⟩,hrest,he⟩ := hrun
    cases he
    refine (ih hops.2 hrest).trans ?_
    cases op with
    | read key type => cases hstep; rfl
    | exist key => cases hstep; rfl
    | write key v => cases hstep; rfl
    | erase key => cases hstep; rfl
    | _ => exact hops.1.elim

/-- Plain maps that hold what a database holds. -/
def plainOf (codec : Codec ι κ ν τ β γ) (db : OrderedMap β γ) : PlainDB ι κ γ where
  db := contentOf codec db
  root := contentOf codec db
  cur := contentOf codec db

theorem rollback_restores {begun changed back : CEvoDB ι κ ν β γ} {inside : List (EvoOp ι κ ν τ)}
    {answers : List (Answer ν)} {scope : ℕ} (hbegin : evo.beginTransaction=some begun)
    (hinside : ∀ op∈inside, op.Inside)
    (hrun : run (step codec) begun inside=some (answers,changed))
    (hback : changed.rollback scope=some back) :
    back.db=evo.db ∧ back.rootDBTransaction=evo.rootDBTransaction ∧
      back.curDBTransaction=evo.curDBTransaction := by
  unfold CEvoDB.beginTransaction at hbegin
  split_ifs at hbegin with hclean
  cases hbegin
  have hcur := eq_clear_of_isClean hclean
  have hsame := run_inside hinside hrun
  unfold CEvoDB.rollback CEvoDB.finish at hback
  grind

/-- The database answers as plain maps do, keeps written and deleted keys apart, restores what was
there with a rollback and writes what it shows with a commit. -/
theorem evoDB_transparent (hlawful : codec.Lawful) {ops : List (EvoOp ι κ ν τ)}
    (hops : ∀ op∈ops, op.Typed codec valueType) (db : OrderedMap β γ) :
    (run (step codec) { db := db } ops).map Prod.fst=
        (run (plainStep codec) (plainOf codec db) ops).map Prod.fst ∧
    ∀ answers evo, run (step codec) { db := db } ops=some (answers,evo) →
      (∀ key, evo.rootDBTransaction.isDeleted key=true → evo.rootDBTransaction.findWrite key=none) ∧
      (∀ key, evo.curDBTransaction.isDeleted key=true → evo.curDBTransaction.findWrite key=none) ∧
      (∀ begun inside inner changed scope back, evo.beginTransaction=some begun →
        (∀ op∈inside, op.Inside) → run (step codec) begun inside=some (inner,changed) →
        changed.rollback scope=some back → ∀ key type,
          back.read codec key type=evo.read codec key type ∧
          back.exist codec key=evo.exist codec key) ∧
      ∀ committed, evo.commitRootTransaction codec=some committed → ∀ key,
        dbRead codec committed.db key (valueType key)=evo.read codec key (valueType key) ∧
        dbExists codec committed.db key=evo.exist codec key := by
  have hfresh : Tracks codec valueType ({ db := db } : CEvoDB ι κ ν β γ) (plainOf codec db) :=
    tracks_fresh db
  obtain ⟨hanswers,hfinal⟩ := run_tracks hlawful hops hfresh
  refine ⟨hanswers,?_⟩
  intro answers evo hrun
  obtain ⟨plain,-,htracks⟩ := hfinal answers evo hrun
  refine ⟨fun key => findWrite_of_isDeleted htracks.rootSeparate,
    fun key => findWrite_of_isDeleted htracks.curSeparate,?_,?_⟩
  · intro begun inside inner changed scope back hbegin hinside hinner hback key type
    obtain ⟨hdb,hroot,hcur⟩ := rollback_restores hbegin hinside hinner hback
    unfold CEvoDB.read CEvoDB.exist
    rw [hdb,hroot,hcur]
    exact ⟨rfl,rfl⟩
  · intro committed hcommit key
    unfold CEvoDB.commitRootTransaction at hcommit
    split_ifs at hcommit with hclean
    cases hcommit
    have hdb := (htracks.commitRoot hlawful).db
    have hcur : plain.cur=plain.root := by
      rw [htracks.cur,eq_clear_of_isClean hclean]
      rfl
    have hkey := (congrFun hcur key).trans (congrFun hdb key)
    rw [htracks.read hlawful key,htracks.exist key,hkey]
    exact ⟨rfl,rfl⟩

/-- Numbers under numbered keys. -/
def numberCodec : Codec ℕ ℕ ℕ Unit ℕ ℕ where
  encodeKey := fun key => Nat.pair key.type key.key
  typeOf := fun _ => ()
  encode := id
  decode := fun _ => some

/-- A key that is committed, rewritten and erased before a rollback. -/
def rewrittenOps : List (EvoOp ℕ ℕ ℕ Unit) :=
  [.begin,.write ⟨1,1⟩ 5,.write ⟨2,1⟩ 6,.commit 0,.begin,.write ⟨1,1⟩ 7,.erase ⟨2,1⟩,.exist ⟨2,1⟩,
    .rollback 1,.read ⟨1,1⟩ (),.commitRoot,.exist ⟨2,1⟩]

/-- The answers of these calls. -/
theorem evoDB_transparent_rewritten :
    (run (plainStep numberCodec) (plainOf numberCodec .empty) rewrittenOps).map Prod.fst=
      some [.done,.done,.done,.done,.done,.done,.done,.found false,.done,.value (some 5),.done,
        .found true] := by
  have hlawful : numberCodec.Lawful := by
    refine ⟨?_,fun v => rfl⟩
    intro first second h
    have hpair := Nat.pair_eq_pair.mp h
    cases first
    cases second
    cases hpair.1
    cases hpair.2
    rfl
  have hops : ∀ op∈rewrittenOps, op.Typed numberCodec (fun _ => ()) := by
    intro op _
    cases op <;> trivial
  rw [← (evoDB_transparent hlawful hops .empty).1]
  decide

end Pyrk.EvoDB
