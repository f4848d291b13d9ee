import Pyrk.Coins

/-!
# Layers of coin caches

A cache of coins lies over another one or the database. Dirty entries differ from the view below,
and fresh ones have no unspent coin there; a flush writes the dirty ones.
-/

namespace Pyrk.CoinsCache

open Transaction Script OrderedMap Function List

/-- A coin of the default constructor, which is spent. -/
def Coin.empty : Coin := ⟨CTxOut.null,false,0⟩

/-- A coin, unless it is spent. -/
def unspent (entry : Coin) : Option Coin := if entry.isSpent then none else some entry

structure CCoinsCacheEntry where
  coin : Coin := Coin.empty
  dirty : Bool := false
  fresh : Bool := false
  deriving DecidableEq

/-- Cached coins by outpoint. -/
abbrev CCoinsMap := OrderedMap COutPoint CCoinsCacheEntry

/-- The database, or a cache over a view. -/
inductive CCoinsView where
  | db (coins : OrderedMap COutPoint Coin) (bestBlock : Uint256)
  /-- A cache; its best block is null until it is asked for. -/
  | cache (base : CCoinsView) (cacheCoins : CCoinsMap) (hashBlock : Uint256)

/-- Where a call stops. -/
inductive CoinsError where
  | spentCoin
  /-- Adding new coin that replaces non-pruned entry. -/
  | replacesEntry
  /-- FRESH flag misapplied to cache entry for base transaction with spendable outputs. -/
  | freshMisapplied
  | noLayer
  deriving DecidableEq

/-- Entry of a coin that was read from the view below. -/
def fetchedEntry (tmp : Coin) : CCoinsCacheEntry := ⟨tmp,false,tmp.isSpent⟩

/-- Read a coin. Caches keep what they read, and do not return spent coins. -/
def getCoin : CCoinsView → COutPoint → Option Coin×CCoinsView
  | .db coins bestBlock,outpoint => (coins.find outpoint,.db coins bestBlock)
  | .cache base cacheCoins hashBlock,outpoint =>
    match cacheCoins.find outpoint with
    | some entry => (unspent entry.coin,.cache base cacheCoins hashBlock)
    | none =>
      match getCoin base outpoint with
      | (none,base) => (none,.cache base cacheCoins hashBlock)
      | (some tmp,base) =>
        (unspent tmp,.cache base (cacheCoins.set outpoint (fetchedEntry tmp)) hashBlock)

/-- Entry of a cache, which is read from the view below if it is missing. -/
def fetchCoin (base : CCoinsView) (cacheCoins : CCoinsMap) (outpoint : COutPoint) :
    Option CCoinsCacheEntry×CCoinsView×CCoinsMap :=
  match cacheCoins.find outpoint with
  | some entry => (some entry,base,cacheCoins)
  | none =>
    match getCoin base outpoint with
    | (none,base) => (none,base,cacheCoins)
    | (some tmp,base) =>
      (some (fetchedEntry tmp),base,cacheCoins.set outpoint (fetchedEntry tmp))

/-- Best block of a view; a cache remembers the one of the view below. -/
def getBestBlock : CCoinsView → Uint256×CCoinsView
  | .db coins bestBlock => (bestBlock,.db coins bestBlock)
  | .cache base cacheCoins hashBlock =>
    if hashBlock=0 then
      let found := getBestBlock base
      (found.1,.cache found.2 cacheCoins found.1)
    else (hashBlock,.cache base cacheCoins hashBlock)

def haveCoin : CCoinsView → COutPoint → Bool×CCoinsView
  | .db coins bestBlock,outpoint => (coins.contains outpoint,.db coins bestBlock)
  | .cache base cacheCoins hashBlock,outpoint =>
    match fetchCoin base cacheCoins outpoint with
    | (none,base,cacheCoins) => (false,.cache base cacheCoins hashBlock)
    | (some entry,base,cacheCoins) => (!entry.coin.isSpent,.cache base cacheCoins hashBlock)

/-- The cached coin, or an empty one. -/
def accessCoin : CCoinsView → COutPoint → Except CoinsError (Coin×CCoinsView)
  | .db _ _,_ => .error .noLayer
  | .cache base cacheCoins hashBlock,outpoint =>
    match fetchCoin base cacheCoins outpoint with
    | (none,base,cacheCoins) => .ok (Coin.empty,.cache base cacheCoins hashBlock)
    | (some entry,base,cacheCoins) => .ok (entry.coin,.cache base cacheCoins hashBlock)

/-- Add a coin. A coin that can be there already must be announced. -/
def addCoin (outpoint : COutPoint) (entry : Coin) (possible_overwrite : Bool) :
    CCoinsView → Except CoinsError CCoinsView
  | .db _ _ => .error .noLayer
  | .cache base cacheCoins hashBlock =>
    if entry.isSpent then .error .spentCoin
    else if isUnspendable entry.out.scriptPubKey then .ok (.cache base cacheCoins hashBlock)
    else
      let old := (cacheCoins.find outpoint).getD {}
      if !possible_overwrite && !old.coin.isSpent then .error .replacesEntry
      else
        let fresh := !possible_overwrite && !old.dirty
        .ok (.cache base (cacheCoins.set outpoint ⟨entry,true,old.fresh || fresh⟩) hashBlock)

def spendCoin (outpoint : COutPoint) : CCoinsView → Except CoinsError (Option Coin×CCoinsView)
  | .db _ _ => .error .noLayer
  | .cache base cacheCoins hashBlock =>
    match fetchCoin base cacheCoins outpoint with
    | (none,base,cacheCoins) => .ok (none,.cache base cacheCoins hashBlock)
    | (some entry,base,cacheCoins) =>
      if entry.fresh then .ok (some entry.coin,.cache base (cacheCoins.erase outpoint) hashBlock)
      else .ok (some entry.coin,
        .cache base (cacheCoins.set outpoint ⟨Coin.empty,true,entry.fresh⟩) hashBlock)

/-- Forget an entry without flags. -/
def uncache (outpoint : COutPoint) : CCoinsView → Except CoinsError CCoinsView
  | .db _ _ => .error .noLayer
  | .cache base cacheCoins hashBlock =>
    match cacheCoins.find outpoint with
    | none => .ok (.cache base cacheCoins hashBlock)
    | some entry =>
      if entry.dirty || entry.fresh then .ok (.cache base cacheCoins hashBlock)
      else .ok (.cache base (cacheCoins.erase outpoint) hashBlock)

/-- What an entry of a cache becomes when the cache above is written to it. -/
def mergeEntry (itUs : Option CCoinsCacheEntry) (entry : CCoinsCacheEntry) :
    Except CoinsError (Option CCoinsCacheEntry) :=
  if !entry.dirty then .ok itUs
  else
    match itUs with
    | none =>
      if entry.fresh && entry.coin.isSpent then .ok none
      else .ok (some ⟨entry.coin,true,entry.fresh⟩)
    | some us =>
      if entry.fresh && !us.coin.isSpent then .error .freshMisapplied
      else if us.fresh && entry.coin.isSpent then .ok none
      else .ok (some ⟨entry.coin,true,us.fresh⟩)

/-- What a coin of the database becomes. -/
def mergeCoin (stored : Option Coin) (entry : CCoinsCacheEntry) : Except CoinsError (Option Coin) :=
  if !entry.dirty then .ok stored else .ok (unspent entry.coin)

section Merge

variable {κ ν μ : Type} [LinearOrder κ]

def putValue (map : OrderedMap κ ν) (key : κ) : Option ν → OrderedMap κ ν
  | none => map.erase key
  | some value => map.set key value

/-- Write entries to a map one by one. -/
def mergeAll (merge : Option ν → μ → Except CoinsError (Option ν)) :
    List (κ×μ) → OrderedMap κ ν → Except CoinsError (OrderedMap κ ν)
  | [],map => .ok map
  | (key,entry)::entries,map => do
    let value ← merge (map.find key) entry
    mergeAll merge entries (putValue map key value)

end Merge

/-- Write the entries of a cache to the view below. -/
def batchWrite (mapCoins : CCoinsMap) (hashBlock : Uint256) :
    CCoinsView → Except CoinsError CCoinsView
  | .db coins bestBlock => do
    let coins ← mergeAll mergeCoin mapCoins.entries coins
    .ok (.db coins (if hashBlock=0 then bestBlock else hashBlock))
  | .cache base cacheCoins _ => do
    let cacheCoins ← mergeAll mergeEntry mapCoins.entries cacheCoins
    .ok (.cache base cacheCoins hashBlock)

/-- Write a cache to the view below and empty it. -/
def flush : CCoinsView → Except CoinsError CCoinsView
  | .db _ _ => .error .noLayer
  | .cache base cacheCoins hashBlock => do
    let base ← batchWrite cacheCoins hashBlock base
    .ok (.cache base .empty hashBlock)

/-- A call on a layer, counted from the top. -/
inductive CoinsCall where
  | addCoin (layer : ℕ) (outpoint : COutPoint) (entry : Coin) (possible_overwrite : Bool)
  | spendCoin (layer : ℕ) (outpoint : COutPoint)
  | getCoin (layer : ℕ) (outpoint : COutPoint)
  | haveCoin (layer : ℕ) (outpoint : COutPoint)
  | accessCoin (layer : ℕ) (outpoint : COutPoint)
  | uncache (layer : ℕ) (outpoint : COutPoint)
  | flush (layer : ℕ)

/-- What a call answers; spent coins count as missing. -/
inductive Answer where
  | done
  | coin (found : Option Coin)
  | exists (found : Bool)
  deriving DecidableEq

open Answer

def atLayer {α : Type} (act : CCoinsView → Except CoinsError (α×CCoinsView)) :
    ℕ → CCoinsView → Except CoinsError (α×CCoinsView)
  | 0,view => act view
  | _+1,.db _ _ => .error .noLayer
  | layer+1,.cache base cacheCoins hashBlock => do
    let result ← atLayer act layer base
    .ok (result.1,.cache result.2 cacheCoins hashBlock)

/-- Act on a layer without an answer. -/
def silently (act : CCoinsView → Except CoinsError CCoinsView) (view : CCoinsView) :
    Except CoinsError (Answer×CCoinsView) := do
  let view ← act view
  .ok (.done,view)

def perform (view : CCoinsView) : CoinsCall → Except CoinsError (Answer×CCoinsView)
  | .addCoin layer outpoint entry possible_overwrite =>
    atLayer (silently (addCoin outpoint entry possible_overwrite)) layer view
  | .spendCoin layer outpoint => atLayer (fun view => do
      let result ← spendCoin outpoint view
      .ok (.coin (result.1.bind unspent),result.2)) layer view
  | .getCoin layer outpoint => atLayer (fun view =>
      .ok (.coin (getCoin view outpoint).1,(getCoin view outpoint).2)) layer view
  | .haveCoin layer outpoint => atLayer (fun view =>
      .ok (.exists (haveCoin view outpoint).1,(haveCoin view outpoint).2)) layer view
  | .accessCoin layer outpoint => atLayer (fun view => do
      let result ← accessCoin view outpoint
      .ok (.coin (unspent result.1),result.2)) layer view
  | .uncache layer outpoint => atLayer (silently (uncache outpoint)) layer view
  | .flush layer => atLayer (silently flush) layer view

/-- Perform calls and collect the answers. -/
def run : CCoinsView → List CoinsCall → Except CoinsError (List Answer×CCoinsView)
  | view,[] => .ok ([],view)
  | view,call::calls => do
    let result ← perform view call
    let rest ← run result.2 calls
    .ok (result.1::rest.1,rest.2)

/-- Unspent coins of a view. -/
def contents : CCoinsView → COutPoint → Option Coin
  | .db coins _,outpoint => (coins.find outpoint).bind unspent
  | .cache base cacheCoins _,outpoint =>
    match cacheCoins.find outpoint with
    | some entry => unspent entry.coin
    | none => contents base outpoint

/-- Unspent coins of all layers from the top, with the database at the end. -/
def layerContents : CCoinsView → List (COutPoint → Option Coin)
  | .db coins bestBlock => [contents (.db coins bestBlock)]
  | .cache base cacheCoins hashBlock =>
    contents (.cache base cacheCoins hashBlock)::layerContents base

/-- Number of caches. -/
def layers : CCoinsView → ℕ
  | .db _ _ => 0
  | .cache base _ _ => layers base+1

/-- Entries that are not dirty agree with the view below, and fresh ones have
no unspent coin there. -/
def Sound : CCoinsView → Prop
  | .db _ _ => True
  | .cache base cacheCoins _ => Sound base ∧ ∀ outpoint entry, cacheCoins.find outpoint=some entry →
        (entry.dirty=false → unspent entry.coin=contents base outpoint) ∧
        (entry.fresh=true → contents base outpoint=none)

abbrev PlainMap := COutPoint → Option Coin

/-- Set a coin in a layer and in those above, which have the layer below them. -/
def plainSet (outpoint : COutPoint) (value : Option Coin) : ℕ → List PlainMap → List PlainMap
  | _,[] => []
  | 0,map::maps => Function.update map outpoint value::maps
  | layer+1,map::maps => Function.update map outpoint value::plainSet outpoint value layer maps

/-- Copy a layer to the one below. -/
def plainFlush : ℕ → List PlainMap → List PlainMap
  | 0,map::_::maps => map::map::maps
  | layer+1,map::maps => map::plainFlush layer maps
  | _,maps => maps

/-- Coin of a layer. -/
def plainRead (layer : ℕ) (outpoint : COutPoint) (maps : List PlainMap) : Option Coin :=
  maps[layer]?.bind (fun map => map outpoint)

/-- What a call does to plain maps. -/
def plainPerform (maps : List PlainMap) : CoinsCall → Answer×List PlainMap
  | .addCoin layer outpoint entry _ =>
    (.done,if isUnspendable entry.out.scriptPubKey then maps
      else plainSet outpoint (some entry) layer maps)
  | .spendCoin layer outpoint =>
    (.coin (plainRead layer outpoint maps),plainSet outpoint none layer maps)
  | .getCoin layer outpoint => (.coin (plainRead layer outpoint maps),maps)
  | .haveCoin layer outpoint => (.exists (plainRead layer outpoint maps).isSome,maps)
  | .accessCoin layer outpoint => (.coin (plainRead layer outpoint maps),maps)
  | .uncache _ _ => (.done,maps)
  | .flush layer => (.done,plainFlush layer maps)

/-- What calls do to plain maps. -/
def plainRun : List PlainMap → List CoinsCall → List Answer×List PlainMap
  | maps,[] => ([],maps)
  | maps,call::calls =>
    let result := plainPerform maps call
    let rest := plainRun result.2 calls
    (result.1::rest.1,rest.2)

theorem unspent_bind (entry : Coin) : (unspent entry).bind unspent=unspent entry := by
  unfold unspent
  split_ifs with hspent
  · rfl
  · rw [Option.bind_some,if_neg hspent]

theorem unspent_of_spent {entry : Coin} (hspent : entry.isSpent=true) : unspent entry=none :=
  if_pos hspent

theorem unspent_of_unspent {entry : Coin} (hspent : entry.isSpent=false) :
    unspent entry=some entry :=
  if_neg (by rw [hspent]; exact Bool.false_ne_true)

theorem unspent_eq_none {entry : Coin} : unspent entry=none ↔ entry.isSpent=true := by
  unfold unspent
  split_ifs with hspent
  · exact iff_of_true rfl hspent
  · exact iff_of_false (by rintro ⟨⟩) hspent

theorem unspent_isSome (entry : Coin) : (unspent entry).isSome=!entry.isSpent := by
  cases hspent : entry.isSpent with
  | true => rw [unspent_of_spent hspent]; rfl
  | false => rw [unspent_of_unspent hspent]; rfl

section Merge

variable {κ ν μ : Type} [LinearOrder κ] {merge : Option ν → μ → Except CoinsError (Option ν)}

theorem find_putValue (map : OrderedMap κ ν) (key other : κ) (value : Option ν) :
    (putValue map key value).find other=if other=key then value else map.find other := by
  cases value with
  | none => exact find_erase map key other
  | some value => exact find_set map key other value

theorem mergeAll_ok {entries : List (κ×μ)} (hkeys : (entries.map Prod.fst).Nodup)
    {map : OrderedMap κ ν} {value : κ → μ → Option ν}
    (hmerge : ∀ entry∈entries, merge (map.find entry.1) entry.2=.ok (value entry.1 entry.2)) :
    ∃ next, mergeAll merge entries map=.ok next ∧
      (∀ entry∈entries, next.find entry.1=value entry.1 entry.2) ∧
      ∀ key, key∉entries.map Prod.fst → next.find key=map.find key := by
  induction entries generalizing map with
  | nil => exact ⟨map,rfl,fun entry hmem => absurd hmem not_mem_nil,fun key _ => rfl⟩
  | cons entry entries ih =>
    obtain ⟨key,stored⟩ := entry
    rw [map_cons,nodup_cons] at hkeys
    have hfirst : merge (map.find key) stored=.ok (value key stored) :=
      hmerge (key,stored) mem_cons_self
    have hfind := find_putValue map key
    obtain ⟨next,hnext,hwritten,hothers⟩ := @ih hkeys.2 (putValue map key (value key stored))
      (fun other hmem => by
        have hne : other.1≠key := fun heq => hkeys.1 (mem_map.mpr ⟨other,hmem,heq⟩)
        rw [hfind,if_neg hne]
        exact hmerge other (mem_cons_of_mem _ hmem))
    refine ⟨next,?_,?_,?_⟩
    · unfold mergeAll
      rw [hfirst]
      exact hnext
    · intro other hmem
      rcases mem_cons.mp hmem with rfl | hmem
      · rw [hothers key hkeys.1,hfind,if_pos rfl]
      · exact hwritten other hmem
    · intro other hout
      rw [map_cons,mem_cons,not_or] at hout
      rw [hothers other hout.2,hfind,if_neg hout.1]

end Merge

section Read

variable {base view : CCoinsView} {cacheCoins : CCoinsMap} {hashBlock : Uint256}

variable {outpoint : COutPoint}

theorem contents_of_entry {entry : CCoinsCacheEntry} (hfind : cacheCoins.find outpoint=some entry) :
    contents (.cache base cacheCoins hashBlock) outpoint=unspent entry.coin := by
  rw [contents,hfind]

theorem contents_of_none (hfind : cacheCoins.find outpoint=none) :
    contents (.cache base cacheCoins hashBlock) outpoint=contents base outpoint := by
  rw [contents,hfind]

theorem contents_set (outpoint other : COutPoint) (entry : CCoinsCacheEntry) :
    contents (.cache base (cacheCoins.set outpoint entry) hashBlock) other=
      if other=outpoint then unspent entry.coin
      else contents (.cache base cacheCoins hashBlock) other := by
  unfold contents
  rw [find_set]
  split_ifs
  · rfl
  · rfl

theorem contents_erase (outpoint other : COutPoint) :
    contents (.cache base (cacheCoins.erase outpoint) hashBlock) other=
      if other=outpoint then contents base outpoint
      else contents (.cache base cacheCoins hashBlock) other := by
  conv_lhs => unfold contents
  rw [find_erase]
  split_ifs with heq
  · rw [heq]
  · rfl

section

variable (hsound : Sound (.cache base cacheCoins hashBlock))

include hsound

theorem Sound.set {entry : CCoinsCacheEntry}
    (hclean : entry.dirty=false → unspent entry.coin=contents base outpoint)
    (hfresh : entry.fresh=true → contents base outpoint=none) :
    Sound (.cache base (cacheCoins.set outpoint entry) hashBlock) := by
  refine ⟨hsound.1,fun other found hfind => ?_⟩
  rw [find_set] at hfind
  split_ifs at hfind with heq
  · cases hfind
    rw [heq]
    exact ⟨hclean,hfresh⟩
  · exact hsound.2 other found hfind

theorem Sound.erase (outpoint : COutPoint) :
    Sound (.cache base (cacheCoins.erase outpoint) hashBlock) := by
  refine ⟨hsound.1,fun other found hfind => ?_⟩
  rw [find_erase] at hfind
  split_ifs at hfind with heq
  exact hsound.2 other found hfind

theorem Sound.rebase (hview : Sound view)
    (hsame : ∀ outpoint entry, cacheCoins.find outpoint=some entry →
      contents view outpoint=contents base outpoint) :
    Sound (.cache view cacheCoins hashBlock) := by
  refine ⟨hview,fun outpoint entry hfind => ?_⟩
  rw [hsame outpoint entry hfind]
  exact hsound.2 outpoint entry hfind

end

/-- What reading does: the coins of all layers stay. -/
structure ReadOnly (view next : CCoinsView) : Prop where
  same : layerContents next=layerContents view
  sound : Sound next

theorem layerContents_cons (view : CCoinsView) :
    ∃ maps, layerContents view=contents view::maps := by
  cases view with
  | db coins bestBlock => exact ⟨[],rfl⟩
  | cache base cacheCoins hashBlock => exact ⟨layerContents base,rfl⟩

theorem ReadOnly.contents {next : CCoinsView} (hread : ReadOnly view next) :
    CoinsCache.contents next=CoinsCache.contents view := by
  obtain ⟨maps,hview⟩ := layerContents_cons view
  obtain ⟨others,hnext⟩ := layerContents_cons next
  have hsame := hread.same
  rw [hview,hnext] at hsame
  exact head_eq_of_cons_eq hsame

theorem ReadOnly.below {next : CCoinsView} (hsound : Sound (.cache base cacheCoins hashBlock))
    (hread : ReadOnly base next) :
    ReadOnly (.cache base cacheCoins hashBlock) (.cache next cacheCoins hashBlock) := by
  refine ⟨?_,hsound.rebase hread.sound (fun outpoint entry _ => by rw [hread.contents])⟩
  unfold layerContents
  rw [hread.same]
  congr 1
  funext outpoint
  unfold CoinsCache.contents
  rw [hread.contents]

theorem readOnly_of_contents {changed : CCoinsMap}
    (hcontents : ∀ outpoint, CoinsCache.contents (.cache base changed hashBlock) outpoint=
      CoinsCache.contents (.cache base cacheCoins hashBlock) outpoint)
    (hsound : Sound (.cache base changed hashBlock)) :
    ReadOnly (.cache base cacheCoins hashBlock) (.cache base changed hashBlock) := by
  refine ⟨?_,hsound⟩
  unfold layerContents
  rw [funext hcontents]

theorem readOnly_fetched (hsound : Sound (.cache base cacheCoins hashBlock))
    (hnone : cacheCoins.find outpoint=none) {tmp : Coin}
    (htmp : contents base outpoint=unspent tmp) :
    ReadOnly (.cache base cacheCoins hashBlock)
      (.cache base (cacheCoins.set outpoint (fetchedEntry tmp)) hashBlock) := by
  refine readOnly_of_contents (fun other => ?_) (hsound.set (fun _ => htmp.symm) (fun hfresh => ?_))
  · rw [contents_set]
    split_ifs with heq
    · rw [heq,contents_of_none hnone,htmp]
      rfl
    · rfl
  · exact htmp.trans (unspent_of_spent hfresh)

theorem ReadOnly.trans {next last : CCoinsView} (hfirst : ReadOnly view next)
    (hsecond : ReadOnly next last) : ReadOnly view last :=
  ⟨hsecond.same.trans hfirst.same,hsecond.sound⟩

theorem getCoin_spec (outpoint : COutPoint) {view : CCoinsView} (hsound : Sound view) :
    (getCoin view outpoint).1.bind unspent=contents view outpoint ∧
      ReadOnly view (getCoin view outpoint).2 := by
  induction view with
  | db coins bestBlock => exact ⟨rfl,rfl,trivial⟩
  | cache base cacheCoins hashBlock ih =>
    obtain ⟨hanswer,hread⟩ := ih hsound.1
    unfold getCoin
    cases hfind : cacheCoins.find outpoint with
    | some entry => exact ⟨by rw [unspent_bind,contents_of_entry hfind],rfl,hsound⟩
    | none =>
      have hbelow := hread.below hsound
      rw [contents_of_none hfind,← hanswer]
      cases hget : getCoin base outpoint with
      | mk found next =>
        rw [hget] at hread hbelow hanswer
        cases found with
        | none => exact ⟨rfl,hbelow⟩
        | some tmp =>
          refine ⟨unspent_bind tmp,hbelow.trans (readOnly_fetched hbelow.sound hfind ?_)⟩
          rw [hread.contents]
          exact hanswer.symm

theorem fetchCoin_spec (outpoint : COutPoint) (hsound : Sound (.cache base cacheCoins hashBlock)) :
    ReadOnly (.cache base cacheCoins hashBlock) (.cache (fetchCoin base cacheCoins outpoint).2.1
        (fetchCoin base cacheCoins outpoint).2.2 hashBlock) ∧
    (fetchCoin base cacheCoins outpoint).2.2.find outpoint=(fetchCoin base cacheCoins outpoint).1 ∧
    ((fetchCoin base cacheCoins outpoint).1=none →
      contents (.cache base cacheCoins hashBlock) outpoint=none) ∧
    ∀ entry, (fetchCoin base cacheCoins outpoint).1=some entry →
      contents (.cache base cacheCoins hashBlock) outpoint=unspent entry.coin := by
  obtain ⟨hanswer,hread⟩ := getCoin_spec outpoint hsound.1
  unfold fetchCoin
  cases hfind : cacheCoins.find outpoint with
  | some entry =>
    refine ⟨⟨rfl,hsound⟩,hfind,?_,?_⟩
    · rintro ⟨⟩
    · rintro found ⟨⟩
      exact contents_of_entry hfind
  | none =>
    have hbelow := hread.below hsound
    rw [contents_of_none hfind,← hanswer]
    cases hget : getCoin base outpoint with
    | mk found next =>
      rw [hget] at hread hbelow hanswer
      cases found with
      | none => exact ⟨hbelow,hfind,fun _ => rfl,by rintro found ⟨⟩⟩
      | some tmp =>
        refine ⟨hbelow.trans (readOnly_fetched hbelow.sound hfind ?_),find_set_self _ _ _,?_,?_⟩
        · rw [hread.contents]
          exact hanswer.symm
        · rintro ⟨⟩
        · rintro found ⟨⟩
          rfl

end Read

section Layer

variable {base : CCoinsView} {cacheCoins : CCoinsMap} {hashBlock : Uint256}

theorem haveCoin_spec (outpoint : COutPoint) (hsound : Sound (.cache base cacheCoins hashBlock)) :
    (haveCoin (.cache base cacheCoins hashBlock) outpoint).1=
      (contents (.cache base cacheCoins hashBlock) outpoint).isSome ∧
    ReadOnly (.cache base cacheCoins hashBlock)
      (haveCoin (.cache base cacheCoins hashBlock) outpoint).2 := by
  obtain ⟨hread,-,hnone,hsome⟩ := fetchCoin_spec outpoint hsound
  unfold haveCoin
  dsimp only
  cases hfetch : fetchCoin base cacheCoins outpoint with
  | mk found next =>
    rw [hfetch] at hread hnone hsome
    cases found with
    | none => exact ⟨by rw [hnone rfl]; rfl,hread⟩
    | some entry => exact ⟨by rw [hsome entry rfl,unspent_isSome],hread⟩

theorem accessCoin_spec (outpoint : COutPoint) (hsound : Sound (.cache base cacheCoins hashBlock)) :
    ∃ found next, accessCoin (.cache base cacheCoins hashBlock) outpoint=.ok (found,next) ∧
      unspent found=contents (.cache base cacheCoins hashBlock) outpoint ∧
      ReadOnly (.cache base cacheCoins hashBlock) next := by
  obtain ⟨hread,-,hnone,hsome⟩ := fetchCoin_spec outpoint hsound
  unfold accessCoin
  dsimp only
  cases hfetch : fetchCoin base cacheCoins outpoint with
  | mk found next =>
    rw [hfetch] at hread hnone hsome
    cases found with
    | none => exact ⟨Coin.empty,_,rfl,(hnone rfl).symm,hread⟩
    | some entry => exact ⟨_,_,rfl,(hsome entry rfl).symm,hread⟩

/-- What a change of a coin does: the other coins and the layers below stay. -/
structure Changed (outpoint : COutPoint) (value : Option Coin) (view next : CCoinsView) : Prop where
  changed : layerContents next=plainSet outpoint value 0 (layerContents view)
  sound : Sound next

variable {outpoint : COutPoint}

theorem changed_of_contents {changed : CCoinsMap} {value : Option Coin}
    (hcontents : ∀ other, contents (.cache base changed hashBlock) other=
      if other=outpoint then value else contents (.cache base cacheCoins hashBlock) other)
    (hsound : Sound (.cache base changed hashBlock)) :
    Changed outpoint value (.cache base cacheCoins hashBlock) (.cache base changed hashBlock) := by
  refine ⟨?_,hsound⟩
  unfold layerContents plainSet
  congr 1
  funext other
  rw [hcontents,update_apply]

theorem addCoin_spec {entry : Coin} {possible_overwrite : Bool}
    (hsound : Sound (.cache base cacheCoins hashBlock)) (hspent : entry.isSpent=false)
    (hscript : isUnspendable entry.out.scriptPubKey=false)
    (hnew : possible_overwrite=false → contents (.cache base cacheCoins hashBlock) outpoint=none) :
    ∃ next, addCoin outpoint entry possible_overwrite (.cache base cacheCoins hashBlock)=.ok next ∧
      Changed outpoint (some entry) (.cache base cacheCoins hashBlock) next := by
  generalize hold : (cacheCoins.find outpoint).getD {}=old
  have hmissing : possible_overwrite=false → old.coin.isSpent=true ∧
      (old.dirty=false → contents base outpoint=none) := by
    intro hfalse
    have hnone := hnew hfalse
    cases hfind : cacheCoins.find outpoint with
    | none =>
      rw [hfind] at hold
      rw [contents_of_none hfind] at hnone
      cases hold
      exact ⟨rfl,fun _ => hnone⟩
    | some found =>
      rw [hfind] at hold
      rw [contents_of_entry hfind] at hnone
      cases hold
      refine ⟨unspent_eq_none.mp hnone,fun hclean => ?_⟩
      rw [← (hsound.2 outpoint found hfind).1 hclean]
      exact hnone
  have hfresh : (old.fresh || (!possible_overwrite && !old.dirty))=true →
      contents base outpoint=none := by
    intro hflag
    cases hfind : cacheCoins.find outpoint with
    | none =>
      rw [hfind] at hold
      cases hold
      cases possible_overwrite with
      | true => cases hflag
      | false => exact (hmissing rfl).2 rfl
    | some found =>
      rw [hfind] at hold
      cases hold
      cases hfreshOld : found.fresh with
      | true => exact (hsound.2 outpoint found hfind).2 hfreshOld
      | false =>
        rw [Option.getD_some,hfreshOld,Bool.false_or,Bool.and_eq_true,Bool.not_eq_true',
          Bool.not_eq_true'] at hflag
        exact (hmissing hflag.1).2 hflag.2
  unfold addCoin
  dsimp only
  rw [hspent,if_neg Bool.false_ne_true,hscript,if_neg Bool.false_ne_true,hold,if_neg ?_]
  · refine ⟨_,rfl,changed_of_contents (fun other => ?_) (hsound.set ?_ hfresh)⟩
    · rw [contents_set,unspent_of_unspent hspent]
    · rintro ⟨⟩
  · rw [Bool.and_eq_true,Bool.not_eq_true',Bool.not_eq_true']
    rintro ⟨hfalse,hunspent⟩
    rw [(hmissing hfalse).1] at hunspent
    cases hunspent

theorem spendCoin_spec (outpoint : COutPoint) (hsound : Sound (.cache base cacheCoins hashBlock)) :
    ∃ found next, spendCoin outpoint (.cache base cacheCoins hashBlock)=.ok (found,next) ∧
      found.bind unspent=contents (.cache base cacheCoins hashBlock) outpoint ∧
      Changed outpoint none (.cache base cacheCoins hashBlock) next := by
  obtain ⟨hread,hentry,hnone,hsome⟩ := fetchCoin_spec outpoint hsound
  unfold spendCoin
  dsimp only
  cases hfetch : fetchCoin base cacheCoins outpoint with
  | mk found next =>
    obtain ⟨next,changed⟩ := next
    rw [hfetch] at hread hentry hnone hsome
    have hupdate : ∀ {last : CCoinsView}, Changed outpoint none
      (.cache next changed hashBlock) last →
        Changed outpoint none (.cache base cacheCoins hashBlock) last :=
      fun hlast => ⟨by rw [hlast.changed,hread.same],hlast.sound⟩
    cases found with
    | none =>
      refine ⟨_,_,rfl,(hnone rfl).symm,hupdate (changed_of_contents (fun other => ?_) hread.sound)⟩
      split_ifs with heq
      · rw [heq,hread.contents,hnone rfl]
      · rfl
    | some entry =>
      dsimp only
      cases hfresh : entry.fresh with
      | true =>
        rw [if_pos rfl]
        refine ⟨_,_,rfl,(hsome entry rfl).symm,
          hupdate (changed_of_contents (fun other => ?_) (hread.sound.erase outpoint))⟩
        rw [contents_erase]
        split_ifs
        · exact (hread.sound.2 outpoint entry hentry).2 hfresh
        · rfl
      | false =>
        rw [if_neg Bool.false_ne_true]
        refine ⟨_,_,rfl,(hsome entry rfl).symm,
          hupdate (changed_of_contents (fun other => ?_) (hread.sound.set ?_ ?_))⟩
        · rw [contents_set]
          split_ifs <;> rfl
        · rintro ⟨⟩
        · rintro ⟨⟩

theorem uncache_spec (outpoint : COutPoint) (hsound : Sound (.cache base cacheCoins hashBlock)) :
    ∃ next, uncache outpoint (.cache base cacheCoins hashBlock)=.ok next ∧
      ReadOnly (.cache base cacheCoins hashBlock) next := by
  unfold uncache
  dsimp only
  cases hfind : cacheCoins.find outpoint with
  | none => exact ⟨_,rfl,rfl,hsound⟩
  | some entry =>
    dsimp only
    split_ifs with hflags
    · exact ⟨_,rfl,rfl,hsound⟩
    · rw [Bool.or_eq_true,not_or,Bool.not_eq_true,Bool.not_eq_true] at hflags
      refine ⟨_,rfl,readOnly_of_contents (fun other => ?_) (hsound.erase outpoint)⟩
      rw [contents_erase]
      split_ifs with heq
      · rw [heq,contents_of_entry hfind,(hsound.2 outpoint entry hfind).1 hflags.1]
      · rfl

theorem mem_entries {entry : CCoinsCacheEntry}
    (hmem : (outpoint,entry)∈cacheCoins.entries) : cacheCoins.find outpoint=some entry :=
  (cacheCoins.mem_entries_iff outpoint entry).mp hmem

theorem find_of_not_mem_keys
    (hout : outpoint∉cacheCoins.entries.map Prod.fst) : cacheCoins.find outpoint=none := by
  by_contra hfind
  obtain ⟨entry,hentry⟩ := Option.ne_none_iff_exists'.mp hfind
  exact hout (mem_map.mpr ⟨_,(cacheCoins.mem_entries_iff outpoint entry).mpr hentry,rfl⟩)

theorem mergeEntry_spec {itUs : Option CCoinsCacheEntry} {entry : CCoinsCacheEntry}
    {below : Option Coin}
    (hclean : ∀ us, itUs=some us → us.dirty=false → unspent us.coin=below)
    (hfresh : ∀ us, itUs=some us → us.fresh=true → below=none)
    (hentry : entry.dirty=false →
      unspent entry.coin=(itUs.map (fun us => unspent us.coin)).getD below)
    (hentryFresh : entry.fresh=true → (itUs.map (fun us => unspent us.coin)).getD below=none) :
    ∃ merged, mergeEntry itUs entry=.ok merged ∧
      (merged.map (fun us => unspent us.coin)).getD below=unspent entry.coin ∧
      ∀ us, merged=some us →
        (us.dirty=false → unspent us.coin=below) ∧ (us.fresh=true → below=none) := by
  unfold mergeEntry
  cases hdirty : entry.dirty with
  | false => exact ⟨itUs,rfl,(hentry hdirty).symm,fun us hus => ⟨hclean us hus,hfresh us hus⟩⟩
  | true =>
    rw [Bool.not_true,if_neg Bool.false_ne_true]
    cases itUs with
    | none =>
      split_ifs with hskip
      · rw [Bool.and_eq_true] at hskip
        exact ⟨none,rfl,(hentryFresh hskip.1).trans (unspent_of_spent hskip.2).symm,by rintro us ⟨⟩⟩
      · refine ⟨_,rfl,rfl,?_⟩
        rintro us ⟨⟩
        exact ⟨by rintro ⟨⟩,hentryFresh⟩
    | some us =>
      dsimp only
      rw [if_neg ?_]
      · split_ifs with hskip
        · rw [Bool.and_eq_true] at hskip
          exact ⟨none,rfl,(hfresh us rfl hskip.1).trans (unspent_of_spent hskip.2).symm,
            by rintro us ⟨⟩⟩
        · refine ⟨_,rfl,rfl,?_⟩
          rintro other ⟨⟩
          exact ⟨by rintro ⟨⟩,hfresh us rfl⟩
      · rw [Bool.and_eq_true,Bool.not_eq_true']
        rintro ⟨hflag,hunspent⟩
        have hnone := unspent_eq_none.mp (hentryFresh hflag)
        rw [hunspent] at hnone
        cases hnone

theorem contents_eq_getD (outpoint : COutPoint) :
    contents (.cache base cacheCoins hashBlock) outpoint=
      ((cacheCoins.find outpoint).map (fun us => unspent us.coin)).getD
        (contents base outpoint) := by
  rw [contents]
  cases cacheCoins.find outpoint with
  | none => rfl
  | some entry => rfl

/-- What is left of the view below when a cache is written to it: it has the
coins of the cache, and the layers further down stay. -/
structure Written (view next : CCoinsView) (base : CCoinsView) : Prop where
  contents : CoinsCache.contents next=CoinsCache.contents view
  below : (layerContents next).tail=(layerContents base).tail
  sound : Sound next

theorem batchWrite_db {coins : OrderedMap COutPoint Coin} {bestBlock : Uint256}
    (hsound : Sound (.cache (.db coins bestBlock) cacheCoins hashBlock)) :
    ∃ next, batchWrite cacheCoins hashBlock (.db coins bestBlock)=.ok next ∧
      Written (.cache (.db coins bestBlock) cacheCoins hashBlock) next (.db coins bestBlock) := by
  obtain ⟨next,hnext,hwritten,hothers⟩ := @mergeAll_ok _ _ _ _ mergeCoin cacheCoins.entries
    cacheCoins.nodup_keys coins
    (fun key entry => if !entry.dirty then coins.find key else unspent entry.coin)
    (fun entry _ => by unfold mergeCoin; split_ifs <;> rfl)
  refine ⟨.db next (if hashBlock=0 then bestBlock else hashBlock),?_,funext (fun outpoint => ?_),
    rfl,trivial⟩
  · unfold batchWrite
    dsimp only
    rw [hnext]
    rfl
  · rw [show CoinsCache.contents (.db next _) outpoint=(next.find outpoint).bind unspent from rfl]
    by_cases hkey : outpoint∈cacheCoins.entries.map Prod.fst
    · obtain ⟨⟨_,entry⟩,hmem,rfl⟩ := mem_map.mp hkey
      have hfind := mem_entries hmem
      rw [hwritten _ hmem,contents_of_entry hfind]
      split_ifs with hdirty
      · rw [Bool.not_eq_true'] at hdirty
        exact ((hsound.2 _ entry hfind).1 hdirty).symm
      · exact unspent_bind entry.coin
    · rw [hothers outpoint hkey,contents_of_none (find_of_not_mem_keys hkey)]
      rfl

theorem batchWrite_cache {below : CCoinsView} {cacheBelow : CCoinsMap} {hashBelow : Uint256}
    (hsound : Sound (.cache (.cache below cacheBelow hashBelow) cacheCoins hashBlock)) :
    ∃ next, batchWrite cacheCoins hashBlock (.cache below cacheBelow hashBelow)=.ok next ∧
      Written (.cache (.cache below cacheBelow hashBelow) cacheCoins hashBlock) next
        (.cache below cacheBelow hashBelow) := by
  have hmerge : ∀ entry∈cacheCoins.entries, ∃ merged,
      mergeEntry (cacheBelow.find entry.1) entry.2=.ok merged ∧
      (merged.map (fun us => unspent us.coin)).getD (contents below entry.1)=unspent entry.2.coin ∧
      ∀ us, merged=some us → (us.dirty=false → unspent us.coin=contents below entry.1) ∧
        (us.fresh=true → contents below entry.1=none) := by
    rintro ⟨outpoint,entry⟩ hmem
    have hentry := hsound.2 outpoint entry (mem_entries hmem)
    rw [contents_eq_getD] at hentry
    exact mergeEntry_spec (fun us hus => (hsound.1.2 outpoint us hus).1)
      (fun us hus => (hsound.1.2 outpoint us hus).2) hentry.1 hentry.2
  obtain ⟨next,hnext,hwritten,hothers⟩ := @mergeAll_ok _ _ _ _ mergeEntry cacheCoins.entries
    cacheCoins.nodup_keys cacheBelow
    (fun key entry => match mergeEntry (cacheBelow.find key) entry with
      | .ok merged => merged
      | .error _ => none)
    (fun entry hmem => by
      obtain ⟨merged,hmerged,-⟩ := hmerge entry hmem
      rw [hmerged])
  have hentries : ∀ outpoint entry, cacheCoins.find outpoint=some entry →
      ((next.find outpoint).map (fun us => unspent us.coin)).getD (contents below outpoint)=
        unspent entry.coin ∧
      ∀ us, next.find outpoint=some us → (us.dirty=false → unspent us.coin=
        contents below outpoint) ∧ (us.fresh=true → contents below outpoint=none) := by
    intro outpoint entry hfind
    have hmem := (cacheCoins.mem_entries_iff outpoint entry).mpr hfind
    obtain ⟨merged,hmerged,hcoin,hflags⟩ := hmerge _ hmem
    have hvalue := hwritten _ hmem
    rw [hmerged] at hvalue
    rw [hvalue]
    exact ⟨hcoin,hflags⟩
  refine ⟨.cache below next hashBlock,?_,funext (fun outpoint => ?_),rfl,hsound.1.1,?_⟩
  · unfold batchWrite
    dsimp only
    rw [hnext]
    rfl
  · cases hfind : cacheCoins.find outpoint with
    | some entry => rw [contents_eq_getD,(hentries outpoint entry hfind).1,contents_of_entry hfind]
    | none =>
      have hsame := hothers outpoint (fun hkey => by
        obtain ⟨⟨_,entry⟩,hmem,rfl⟩ := mem_map.mp hkey
        rw [mem_entries hmem] at hfind
        cases hfind)
      rw [contents_of_none hfind,contents_eq_getD,hsame,← contents_eq_getD]
  · intro outpoint us hus
    cases hfind : cacheCoins.find outpoint with
    | some entry => exact (hentries outpoint entry hfind).2 us hus
    | none =>
      have hsame := hothers outpoint (fun hkey => by
        obtain ⟨⟨_,entry⟩,hmem,rfl⟩ := mem_map.mp hkey
        rw [mem_entries hmem] at hfind
        cases hfind)
      rw [hsame] at hus
      exact hsound.1.2 outpoint us hus

theorem flush_spec (hsound : Sound (.cache base cacheCoins hashBlock)) :
    ∃ next, flush (.cache base cacheCoins hashBlock)=.ok next ∧
      layerContents next=plainFlush 0 (layerContents (.cache base cacheCoins hashBlock)) ∧
      Sound next := by
  obtain ⟨next,hnext,hwritten⟩ : ∃ next, batchWrite cacheCoins hashBlock base=.ok next ∧
      Written (.cache base cacheCoins hashBlock) next base := by
    cases base with
    | db coins bestBlock => exact batchWrite_db hsound
    | cache below cacheBelow hashBelow => exact batchWrite_cache hsound
  obtain ⟨maps,hmaps⟩ := layerContents_cons next
  obtain ⟨others,hothers⟩ := layerContents_cons base
  have hbelow := hwritten.below
  rw [hmaps,hothers,tail_cons,tail_cons] at hbelow
  refine ⟨.cache next .empty hashBlock,?_,?_,hwritten.sound,by rintro outpoint entry ⟨⟩⟩
  · unfold flush
    dsimp only
    rw [hnext]
    rfl
  · have hempty : contents (.cache next .empty hashBlock)=
        contents (.cache base cacheCoins hashBlock) := by
      rw [← hwritten.contents]
      rfl
    unfold layerContents
    rw [hempty,hmaps,hothers,hbelow,hwritten.contents]
    rfl

end Layer

/-- No layer above keeps an entry for a coin. -/
def FreeAbove (outpoint : COutPoint) : ℕ → CCoinsView → Prop
  | 0,_ => True
  | _+1,.db _ _ => True
  | layer+1,.cache base cacheCoins _ =>
    cacheCoins.find outpoint=none ∧ FreeAbove outpoint layer base

/-- No layer above has a dirty entry. -/
def CleanAbove : ℕ → CCoinsView → Prop
  | 0,_ => True
  | _+1,.db _ _ => True
  | layer+1,.cache base cacheCoins _ =>
    (∀ entry∈cacheCoins.entries, entry.2.dirty=false) ∧ CleanAbove layer base

def CoinsCall.layer : CoinsCall → ℕ
  | .addCoin layer _ _ _ => layer
  | .spendCoin layer _ => layer
  | .getCoin layer _ => layer
  | .haveCoin layer _ => layer
  | .accessCoin layer _ => layer
  | .uncache layer _ => layer
  | .flush layer => layer

/-- Coins that are added are unspent, and announced if there can be one. -/
def Announced (view : CCoinsView) : CoinsCall → Prop
  | .addCoin layer outpoint entry possible_overwrite => entry.isSpent=false ∧
      (possible_overwrite=false → plainRead layer outpoint (layerContents view)=none)
  | _ => True

/-- A coin is changed only where no layer above keeps an entry for it. -/
def Unshadowed (view : CCoinsView) : CoinsCall → Prop
  | .addCoin layer outpoint _ _ => FreeAbove outpoint layer view
  | .spendCoin layer outpoint => FreeAbove outpoint layer view
  | _ => True

/-- Every call of a run meets a condition where it is made. -/
def RunMeets (condition : CCoinsView → CoinsCall → Prop) : CCoinsView → List CoinsCall → Prop
  | _,[] => True
  | view,call::calls => condition view call ∧
      ∀ result, perform view call=.ok result → RunMeets condition result.2 calls

variable {base view : CCoinsView} {cacheCoins : CCoinsMap} {hashBlock : Uint256}

/-- How a change of a layer is seen from the layers above. -/
structure Lifts (transform : ℕ → List PlainMap → List PlainMap) (lift : PlainMap → PlainMap)
    (allowed : ℕ → CCoinsView → Prop) : Prop where
  here : ∀ layer map maps, ∃ rest, transform layer (map::maps)=lift map::rest
  above : ∀ layer map maps, transform (layer+1) (map::maps)=lift map::transform layer maps
  down : ∀ {layer base cacheCoins hashBlock}, allowed (layer+1) (.cache base cacheCoins hashBlock) →
    allowed layer base
  entry : ∀ {layer base cacheCoins hashBlock}, allowed (layer+1)
    (.cache base cacheCoins hashBlock) →
    ∀ {outpoint entry}, cacheCoins.find outpoint=some entry → ∀ map, lift map outpoint=map outpoint
  through : ∀ {map other : PlainMap} {outpoint}, map outpoint=other outpoint →
    lift map outpoint=lift other outpoint

theorem atLayer_spec {α : Type} {act : CCoinsView → Except CoinsError (α×CCoinsView)}
    {transform : ℕ → List PlainMap → List PlainMap} {lift : PlainMap → PlainMap}
    {allowed : ℕ → CCoinsView → Prop} (hlifts : Lifts transform lift allowed)
    {answer : PlainMap → α} {suited : PlainMap → Prop}
    (hact : ∀ {base cacheCoins hashBlock}, Sound (.cache base cacheCoins hashBlock) →
      suited (contents (.cache base cacheCoins hashBlock)) →
      ∃ next, act (.cache base cacheCoins hashBlock)=
          .ok (answer (contents (.cache base cacheCoins hashBlock)),next) ∧
        layerContents next=transform 0 (layerContents (.cache base cacheCoins hashBlock)) ∧
        Sound next)
    {layer : ℕ} (hlayer : layer<layers view) (hsound : Sound view) (hallowed : allowed layer view)
    (hsuited : suited (fun outpoint => plainRead layer outpoint (layerContents view))) :
    ∃ next, atLayer act layer view=
        .ok (answer (fun outpoint => plainRead layer outpoint (layerContents view)),next) ∧
      layerContents next=transform layer (layerContents view) ∧ Sound next := by
  induction layer generalizing view with
  | zero =>
    cases view with
    | db coins bestBlock => exact absurd hlayer (Nat.not_lt_zero _)
    | cache base cacheCoins hashBlock => exact hact hsound hsuited
  | succ layer ih =>
    cases view with
    | db coins bestBlock => exact absurd hlayer (Nat.not_lt_zero _)
    | cache base cacheCoins hashBlock =>
      obtain ⟨next,hnext,hcontents,hsoundNext⟩ :=
        ih (Nat.lt_of_succ_lt_succ hlayer) hsound.1 (hlifts.down hallowed) hsuited
      obtain ⟨maps,hmaps⟩ := layerContents_cons base
      obtain ⟨others,hothers⟩ := layerContents_cons next
      have hhead : contents next=lift (contents base) := by
        obtain ⟨rest,hrest⟩ := hlifts.here layer (contents base) maps
        rw [hmaps,hrest,hothers] at hcontents
        exact head_eq_of_cons_eq hcontents
      refine ⟨.cache next cacheCoins hashBlock,?_,?_,hsound.rebase hsoundNext ?_⟩
      · unfold atLayer
        rw [hnext]
        rfl
      · have htop : contents (.cache next cacheCoins hashBlock)=
            lift (contents (.cache base cacheCoins hashBlock)) := by
          funext outpoint
          cases hfind : cacheCoins.find outpoint with
          | some entry =>
            rw [contents_of_entry hfind,hlifts.entry hallowed hfind,contents_of_entry hfind]
          | none =>
            rw [contents_of_none hfind,hhead]
            exact hlifts.through (contents_of_none hfind).symm
        rw [show layerContents (.cache base cacheCoins hashBlock)=
          contents (.cache base cacheCoins hashBlock)::layerContents base from rfl,hlifts.above,
          ← hcontents,← htop]
        rfl
      · intro outpoint entry hfind
        rw [hhead,hlifts.entry hallowed hfind]

theorem lifts_read : Lifts (fun _ maps => maps) id (fun _ _ => True) :=
  ⟨fun _ _ maps => ⟨maps,rfl⟩,fun _ _ _ => rfl,fun _ => trivial,fun _ _ _ _ _ => rfl,id⟩

theorem lifts_flush : Lifts plainFlush id (fun _ _ => True) := by
  refine ⟨?_,fun _ _ _ => rfl,fun _ => trivial,fun _ _ _ _ _ => rfl,id⟩
  intro layer map maps
  cases layer with
  | zero =>
    cases maps with
    | nil => exact ⟨[],rfl⟩
    | cons other maps => exact ⟨map::maps,rfl⟩
  | succ layer => exact ⟨plainFlush layer maps,rfl⟩

theorem lifts_set (outpoint : COutPoint) (value : Option Coin) :
    Lifts (plainSet outpoint value) (fun map => Function.update map outpoint value)
      (FreeAbove outpoint) := by
  refine ⟨?_,fun _ _ _ => rfl,fun hfree => hfree.2,?_,?_⟩
  · intro layer map maps
    cases layer with
    | zero => exact ⟨maps,rfl⟩
    | succ layer => exact ⟨plainSet outpoint value layer maps,rfl⟩
  · intro layer base cacheCoins hashBlock hfree other entry hfind map
    have hne : other≠outpoint := by
      rintro rfl
      rw [hfree.1] at hfind
      cases hfind
    rw [update_apply,if_neg hne]
  · intro map maps other hsame
    rw [update_apply,update_apply,hsame]

theorem perform_spec (hsound : Sound view) {call : CoinsCall} (hlayer : call.layer<layers view)
    (hannounced : Announced view call) (hfree : Unshadowed view call) :
    ∃ next, perform view call=.ok ((plainPerform (layerContents view) call).1,next) ∧
      layerContents next=(plainPerform (layerContents view) call).2 ∧ Sound next := by
  cases call with
  | addCoin layer outpoint entry possible_overwrite =>
    obtain ⟨hspent,hnew⟩ := hannounced
    cases hscript : isUnspendable entry.out.scriptPubKey with
    | true =>
      have hplain : plainPerform (layerContents view) (.addCoin layer outpoint entry
          possible_overwrite)=(.done,layerContents view) := by
        unfold plainPerform
        dsimp only
        rw [if_pos hscript]
      rw [hplain]
      refine @atLayer_spec _ _ _ _ _ _ lifts_read (fun _ => done) (fun _ => True)
        (fun {base cacheCoins hashBlock} hsound _ => ?_) layer hlayer hsound trivial trivial
      refine ⟨.cache base cacheCoins hashBlock,?_,rfl,hsound⟩
      unfold silently addCoin
      rw [hspent,hscript]
      rfl
    | false =>
      have hplain : plainPerform (layerContents view) (.addCoin layer outpoint entry
          possible_overwrite)=(.done,plainSet outpoint (some entry) layer
            (layerContents view)) := by
        unfold plainPerform
        dsimp only
        rw [hscript,if_neg Bool.false_ne_true]
      rw [hplain]
      refine @atLayer_spec _ _ _ _ _ _ (lifts_set outpoint (some entry)) (fun _ => done)
        (fun map => possible_overwrite=false → map outpoint=none)
        (fun {base cacheCoins hashBlock} hsound hnew => ?_) layer hlayer hsound hfree hnew
      obtain ⟨next,hnext,hchanged⟩ := addCoin_spec hsound hspent hscript hnew
      refine ⟨next,?_,hchanged.changed,hchanged.sound⟩
      unfold silently
      rw [hnext]
      rfl
  | spendCoin layer outpoint =>
    refine @atLayer_spec _ _ _ _ _ _ (lifts_set outpoint none)
      (fun map => coin (map outpoint)) (fun _ => True)
      (fun {base cacheCoins hashBlock} hsound _ => ?_) layer hlayer hsound hfree trivial
    obtain ⟨found,next,hnext,hfound,hchanged⟩ := spendCoin_spec outpoint hsound
    refine ⟨next,?_,hchanged.changed,hchanged.sound⟩
    rw [hnext,← hfound]
    rfl
  | getCoin layer outpoint =>
    refine @atLayer_spec _ _ _ _ _ _ lifts_read (fun map => coin (map outpoint))
      (fun _ => True) (fun {base cacheCoins hashBlock} hsound _ => ?_) layer hlayer hsound trivial
      trivial
    obtain ⟨hanswer,hread⟩ := getCoin_spec outpoint hsound
    refine ⟨_,?_,hread.same,hread.sound⟩
    rw [← hanswer]
    congr 3
    unfold getCoin
    cases cacheCoins.find outpoint with
    | some entry => exact (unspent_bind entry.coin).symm
    | none =>
      cases getCoin base outpoint with
      | mk found next =>
        cases found with
        | none => rfl
        | some tmp => exact (unspent_bind tmp).symm
  | haveCoin layer outpoint =>
    refine @atLayer_spec _ _ _ _ _ _ lifts_read (fun map => Answer.exists (map outpoint).isSome)
      (fun _ => True) (fun {base cacheCoins hashBlock} hsound _ => ?_) layer hlayer hsound trivial
      trivial
    obtain ⟨hanswer,hread⟩ := haveCoin_spec outpoint hsound
    exact ⟨_,by rw [hanswer],hread.same,hread.sound⟩
  | accessCoin layer outpoint =>
    refine @atLayer_spec _ _ _ _ _ _ lifts_read (fun map => coin (map outpoint))
      (fun _ => True) (fun {base cacheCoins hashBlock} hsound _ => ?_) layer hlayer hsound trivial
      trivial
    obtain ⟨found,next,hnext,hfound,hread⟩ := accessCoin_spec outpoint hsound
    refine ⟨next,?_,hread.same,hread.sound⟩
    rw [hnext,← hfound]
    rfl
  | uncache layer outpoint =>
    refine @atLayer_spec _ _ _ _ _ _ lifts_read (fun _ => done) (fun _ => True)
      (fun {base cacheCoins hashBlock} hsound _ => ?_) layer hlayer hsound trivial trivial
    obtain ⟨next,hnext,hread⟩ := uncache_spec outpoint hsound
    refine ⟨next,?_,hread.same,hread.sound⟩
    unfold silently
    rw [hnext]
    rfl
  | flush layer =>
    refine @atLayer_spec _ _ _ _ _ _ lifts_flush (fun _ => done) (fun _ => True)
      (fun {base cacheCoins hashBlock} hsound _ => ?_) layer hlayer hsound trivial trivial
    obtain ⟨next,hnext,hcontents,hsoundNext⟩ := flush_spec hsound
    refine ⟨next,?_,hcontents,hsoundNext⟩
    unfold silently
    rw [hnext]
    rfl

/-- Empty caches over the database. -/
def stackOn (coins : OrderedMap COutPoint Coin) (bestBlock : Uint256) : ℕ → CCoinsView
  | 0 => .db coins bestBlock
  | layer+1 => .cache (stackOn coins bestBlock layer) .empty 0

theorem sound_stackOn (coins : OrderedMap COutPoint Coin) (bestBlock : Uint256) (count : ℕ) :
    Sound (stackOn coins bestBlock count) := by
  induction count with
  | zero => trivial
  | succ count ih => exact ⟨ih,by rintro outpoint entry ⟨⟩⟩

/-- Calls answer as plain maps do, and leave every layer with the coins of its plain map and sound
entries. -/
def Transparent (view : CCoinsView) (calls : List CoinsCall) : Prop :=
  ∃ next, run view calls=.ok ((plainRun (layerContents view) calls).1,next) ∧
    layerContents next=(plainRun (layerContents view) calls).2 ∧ Sound next

theorem transparent_of_sound (hsound : Sound view) {calls : List CoinsCall}
    (hrun : RunMeets (fun view call => call.layer<layers view ∧ Announced view call ∧
      Unshadowed view call) view calls) : Transparent view calls := by
  induction calls generalizing view with
  | nil => exact ⟨view,rfl,rfl,hsound⟩
  | cons call calls ih =>
    obtain ⟨⟨hlayer,hannounced,hfree⟩,hrest⟩ := hrun
    obtain ⟨next,hnext,hcontents,hsoundNext⟩ := perform_spec hsound hlayer hannounced hfree
    obtain ⟨last,hlast,hcontentsLast,hsoundLast⟩ := ih hsoundNext (hrest _ hnext)
    rw [hcontents] at hlast hcontentsLast
    refine ⟨last,?_,hcontentsLast,hsoundLast⟩
    unfold run
    rw [hnext]
    change (run next calls>>=fun rest => Except.ok (_::rest.1,rest.2))=_
    rw [hlast]
    rfl

/-- Layers are transparent, as long as a coin is added or spent only where no layer above keeps an
entry for it. -/
theorem run_transparent (coins : OrderedMap COutPoint Coin) (bestBlock : Uint256) (count : ℕ)
    {calls : List CoinsCall} (hrun : RunMeets (fun view call => call.layer<layers view ∧
      Announced view call ∧ Unshadowed view call) (stackOn coins bestBlock count) calls) :
    Transparent (stackOn coins bestBlock count) calls :=
  transparent_of_sound (sound_stackOn coins bestBlock count) hrun

theorem RunMeets.step {condition : CCoinsView → CoinsCall → Prop} {call : CoinsCall}
    {calls : List CoinsCall} {result : Answer×CCoinsView} (hcond : condition view call)
    (hres : perform view call=.ok result) (hrest : RunMeets condition result.2 calls) :
    RunMeets condition view (call::calls) := by
  refine ⟨hcond,fun other hother => ?_⟩
  rw [hres] at hother
  cases hother
  exact hrest

def sampleCoin (nHeight : ℕ) : Coin := ⟨⟨5*Transaction.coin,[0x51]⟩,false,nHeight⟩

def sampleCoins : OrderedMap COutPoint Coin := OrderedMap.empty.set ⟨7,0⟩ (sampleCoin 1)

/-- The top cache spends a coin and adds another one, which is spent below once it was written. -/
def layeredCalls : List CoinsCall :=
  [.getCoin 0 ⟨7,0⟩,.spendCoin 0 ⟨7,0⟩,.addCoin 0 ⟨8,0⟩ (sampleCoin 2) false,.flush 0,
    .haveCoin 1 ⟨7,0⟩,.spendCoin 1 ⟨8,0⟩,.accessCoin 0 ⟨8,0⟩,.flush 1]

/-- All calls on two layers are answered as by plain maps. -/
theorem run_transparent_layered :
    (run (stackOn sampleCoins 0 2) layeredCalls).toOption.map Prod.fst=
      some [.coin (some (sampleCoin 1)),.coin (some (sampleCoin 1)),.done,.done,.exists false,
        .coin (some (sampleCoin 2)),.coin none,.done] ∧
    Transparent (stackOn sampleCoins 0 2) layeredCalls := by
  refine ⟨by decide,run_transparent sampleCoins 0 2 ?_⟩
  refine .step ⟨by decide,trivial,trivial⟩ rfl ?_
  refine .step ⟨by decide,trivial,trivial⟩ rfl ?_
  refine .step ⟨by decide,⟨rfl,fun _ => rfl⟩,trivial⟩ rfl ?_
  refine .step ⟨by decide,trivial,trivial⟩ rfl ?_
  refine .step ⟨by decide,trivial,trivial⟩ rfl ?_
  refine .step ⟨by decide,trivial,⟨rfl,trivial⟩⟩ rfl ?_
  refine .step ⟨by decide,trivial,trivial⟩ rfl ?_
  refine .step ⟨by decide,trivial,trivial⟩ rfl ?_
  trivial

/-- The top cache reads a coin, and the cache below spends it. -/
def staleCalls : List CoinsCall := [.getCoin 0 ⟨7,0⟩,.spendCoin 1 ⟨7,0⟩,.getCoin 0 ⟨7,0⟩]

/-- The top cache keeps a coin that it has read and answers with it after it was spent below. -/
theorem run_stale_read :
    RunMeets (fun view call => call.layer<layers view ∧ Announced view call ∧
      CleanAbove call.layer view) (stackOn sampleCoins 0 2) staleCalls ∧
    (run (stackOn sampleCoins 0 2) staleCalls).toOption.map Prod.fst=
      some [.coin (some (sampleCoin 1)),.coin (some (sampleCoin 1)),.coin (some (sampleCoin 1))] ∧
    (plainRun (layerContents (stackOn sampleCoins 0 2)) staleCalls).1=
      [.coin (some (sampleCoin 1)),.coin (some (sampleCoin 1)),.coin none] ∧
    ¬Transparent (stackOn sampleCoins 0 2) staleCalls := by
  have hanswers : (run (stackOn sampleCoins 0 2) staleCalls).toOption.map Prod.fst=
      some [.coin (some (sampleCoin 1)),.coin (some (sampleCoin 1)),
        .coin (some (sampleCoin 1))] := by
    decide
  have hplain : (plainRun (layerContents (stackOn sampleCoins 0 2)) staleCalls).1=
      [.coin (some (sampleCoin 1)),.coin (some (sampleCoin 1)),.coin none] := by
    decide
  refine ⟨?_,hanswers,hplain,?_⟩
  · refine .step ⟨by decide,trivial,trivial⟩ rfl ?_
    refine .step ⟨by decide,trivial,by decide,trivial⟩ rfl ?_
    exact .step ⟨by decide,trivial,trivial⟩ rfl trivial
  · rintro ⟨next,hnext,-⟩
    rw [hnext,hplain] at hanswers
    have hsame : [coin (some (sampleCoin 1)),.coin (some (sampleCoin 1)),.coin none]=
        [.coin (some (sampleCoin 1)),.coin (some (sampleCoin 1)),.coin (some (sampleCoin 1))] :=
      Option.some.inj hanswers
    exact absurd hsame (by decide)

end Pyrk.CoinsCache
