import Pyrk.CoinsCache
import Pyrk.UndoData

/-!
# Giving a spent coin back

Each input gives its coin back. Old undo data lacks the height, and a coin that is there already is
only replaced if it is announced as a coinbase.
-/

namespace Pyrk.UndoneCoin

open Transaction Script CoinsCache Function Option CCoinsCacheEntry

/-- Outcome of taking a block back. -/
inductive DisconnectResult where
  | ok
  /-- Rolled back, but the coins did not match the block. -/
  | unclean
  | failed
  deriving DecidableEq

/-- Outputs that a block can have, each of at least nine bytes. -/
def maxOutputsPerBlock : ℕ := UndoData.maxBlockSize/9

/-- Look at outputs of a transaction from an index on, up to an unspent one. -/
def accessOutputs (txid : Uint256) : ℕ → ℕ → CCoinsView → Except CoinsError (Coin×CCoinsView)
  | 0,_,view => .ok (Coin.empty,view)
  | left+1,n,view => do
    let alternate ← accessCoin view ⟨txid,n⟩
    if alternate.1.isSpent then accessOutputs txid left (n+1) alternate.2 else .ok alternate

/-- First unspent output of a transaction, or an empty coin. -/
def accessByTxid (view : CCoinsView) (txid : Uint256) : Except CoinsError (Coin×CCoinsView) :=
  accessOutputs txid maxOutputsPerBlock 0 view

/-- Put the coin in its place and report whether that was free. -/
def putBack (fClean : Bool) (undo : Coin) (view : CCoinsView) (out : COutPoint) :
    Except CoinsError (DisconnectResult×CCoinsView) := do
  let view ← addCoin out undo undo.fCoinBase view
  .ok (if fClean then .ok else .unclean,view)

/-- Restore a coin at an outpoint. -/
def applyTxInUndo (undo : Coin) (view : CCoinsView) (out : COutPoint) :
    Except CoinsError (DisconnectResult×CCoinsView) := do
  let present := haveCoin view out
  let fClean := !present.1
  if undo.nHeight=0 then
    let alternate ← accessByTxid present.2 out.hash
    if alternate.1.isSpent then .ok (.failed,alternate.2)
    else putBack fClean ⟨undo.out,alternate.1.fCoinBase,alternate.1.nHeight⟩ alternate.2 out
  else putBack fClean undo present.2 out

/-- First unspent output of a transaction among plain coins. -/
def firstUnspent (coins : PlainMap) (txid : Uint256) : Option Coin :=
  (List.range' 0 maxOutputsPerBlock).findSome? (fun n => coins ⟨txid,n⟩)

/-- The coin to restore, with the height and the coinbase flag of another output
if it has no height itself. -/
def completed (coins : PlainMap) (out : COutPoint) (undo : Coin) : Option Coin :=
  if undo.nHeight=0 then
    (firstUnspent coins out.hash).map
      (fun alternate => ⟨undo.out,alternate.fCoinBase,alternate.nHeight⟩)
  else some undo

/-- What restoring a coin is meant to do. -/
structure Restored (coins after : PlainMap) (out : COutPoint) (undo : Coin)
    (result : DisconnectResult) : Prop where
  left : result=.failed → after=coins
  /-- Otherwise exactly this coin is added or replaced. -/
  added : result≠.failed → ∃ entry, completed coins out undo=some entry ∧
    after=Function.update coins out (some entry)
  /-- A coin that was there makes the result unclean. -/
  present : (coins out).isSome=true → result=.unclean

/-- Restoring the coin does what it is meant to do, and throws nothing. -/
def RestoresCoin (view : CCoinsView) (out : COutPoint) (undo : Coin) : Prop :=
  ∃ result next, applyTxInUndo undo view out=.ok (result,next) ∧
    Restored (contents view) (contents next) out undo result

/-- The coin is not spent, it can be spent unless it is there already, and it is
from a coinbase unless its place is free. -/
def CanPut (coins : PlainMap) (out : COutPoint) (entry : Coin) : Prop :=
  entry.isSpent=false ∧ ((isUnspendable entry.out.scriptPubKey=true ∧ coins out=some entry) ∨
      (isUnspendable entry.out.scriptPubKey=false ∧ (coins out=none ∨ entry.fCoinBase=true)))

/-- The completed coin can be put in its place. Without a height to be found, the
place is free. -/
def CanRestore (coins : PlainMap) (out : COutPoint) (undo : Coin) : Prop :=
  (completed coins out undo=none ∧ coins out=none) ∨
    ∃ entry, completed coins out undo=some entry ∧ CanPut coins out entry

section Reads

variable {base : CCoinsView} {cacheCoins : CCoinsMap} {hashBlock : Uint256}

variable {next : CCoinsView}

theorem contents_fetched {outpoint : COutPoint} {tmp : Coin}
    (hsame : contents next=contents base) (hnone : cacheCoins.find outpoint=none)
    (htmp : unspent tmp=contents base outpoint) :
    contents (.cache next (cacheCoins.set outpoint (fetchedEntry tmp)) hashBlock)=
      contents (.cache base cacheCoins hashBlock) := by
  funext other
  rw [contents_set]
  split_ifs with heq
  · rw [heq,contents_of_none hnone,← htmp,fetchedEntry]
  · unfold contents
    rw [hsame]

theorem contents_rebase (hsame : contents next=contents base) :
    contents (.cache next cacheCoins hashBlock)=contents (.cache base cacheCoins hashBlock) := by
  funext other
  unfold contents
  rw [hsame]

theorem getCoin_contents (view : CCoinsView) (outpoint : COutPoint) :
    (getCoin view outpoint).1.bind unspent=contents view outpoint ∧
      contents (getCoin view outpoint).2=contents view := by
  induction view with
  | db coins bestBlock => exact ⟨rfl,rfl⟩
  | cache base cacheCoins hashBlock ih =>
    obtain ⟨hanswer,hsame⟩ := ih
    unfold getCoin
    cases hfind : cacheCoins.find outpoint with
    | some entry => exact ⟨by rw [unspent_bind,contents_of_entry hfind],rfl⟩
    | none =>
      rw [contents_of_none hfind]
      cases hget : getCoin base outpoint with
      | mk found next =>
        rw [hget] at hanswer hsame
        cases found with
        | none => exact ⟨hanswer,contents_rebase hsame⟩
        | some tmp =>
          exact ⟨(unspent_bind tmp).trans hanswer,contents_fetched hsame hfind hanswer⟩

/-- What reads leave of a cache: its coins and the entries it had. -/
structure Kept (base : CCoinsView) (cacheCoins : CCoinsMap) (next : CCoinsView)
    (nextCoins : CCoinsMap) (hashBlock : Uint256) : Prop where
  coins : contents (.cache next nextCoins hashBlock)=contents (.cache base cacheCoins hashBlock)
  entries : ∀ outpoint entry, cacheCoins.find outpoint=some entry →
    nextCoins.find outpoint=some entry

theorem Kept.refl : Kept base cacheCoins base cacheCoins hashBlock :=
  ⟨rfl,fun _ _ hfind => hfind⟩

theorem Kept.trans {next last : CCoinsView} {nextCoins lastCoins : CCoinsMap}
    (hfirst : Kept base cacheCoins next nextCoins hashBlock)
    (hsecond : Kept next nextCoins last lastCoins hashBlock) :
    Kept base cacheCoins last lastCoins hashBlock :=
  ⟨hsecond.coins.trans hfirst.coins,
    fun outpoint entry hfind => hsecond.entries outpoint entry
      (hfirst.entries outpoint entry hfind)⟩

theorem Kept.held {nextCoins : CCoinsMap} {out : COutPoint}
    (hkept : Kept base cacheCoins next nextCoins hashBlock)
    (hheld : ((cacheCoins.find out).map coin).bind unspent=
      contents (.cache base cacheCoins hashBlock) out) :
    ((nextCoins.find out).map coin).bind unspent=
      contents (.cache next nextCoins hashBlock) out := by
  cases hnext : nextCoins.find out with
  | some entry => exact (contents_of_entry hnext).symm
  | none =>
    cases hfind : cacheCoins.find out with
    | some entry =>
      rw [hkept.entries out entry hfind] at hnext
      cases hnext
    | none =>
      rw [hfind] at hheld
      rw [hkept.coins,← hheld]

theorem fetchCoin_kept (outpoint : COutPoint) (hashBlock : Uint256) :
    ∃ found next nextCoins, fetchCoin base cacheCoins outpoint=(found,next,nextCoins) ∧
      Kept base cacheCoins next nextCoins hashBlock ∧ nextCoins.find outpoint=found ∧
      (found.map coin).bind unspent=contents (.cache base cacheCoins hashBlock) outpoint := by
  obtain ⟨hanswer,hsame⟩ := getCoin_contents base outpoint
  unfold fetchCoin
  cases hfind : cacheCoins.find outpoint with
  | some entry => exact ⟨_,_,_,rfl,Kept.refl,hfind,(contents_of_entry hfind).symm⟩
  | none =>
    rw [contents_of_none hfind]
    cases hget : getCoin base outpoint with
    | mk found next =>
      rw [hget] at hanswer hsame
      cases found with
      | none =>
        exact ⟨_,_,_,rfl,⟨contents_rebase hsame,fun _ _ hentry => hentry⟩,hfind,hanswer⟩
      | some tmp =>
        refine ⟨_,_,_,rfl,⟨contents_fetched hsame hfind hanswer,fun other entry hentry => ?_⟩,
          OrderedMap.find_set_self _ _ _,hanswer⟩
        have hne : other≠outpoint := fun heq => by rw [heq,hfind] at hentry; cases hentry
        rw [OrderedMap.find_set,if_neg hne]
        exact hentry

theorem haveCoin_kept (outpoint : COutPoint) (hashBlock : Uint256) :
    ∃ next nextCoins, haveCoin (.cache base cacheCoins hashBlock) outpoint=
        ((contents (.cache base cacheCoins hashBlock) outpoint).isSome,
          .cache next nextCoins hashBlock) ∧
      Kept base cacheCoins next nextCoins hashBlock ∧
      ((nextCoins.find outpoint).map coin).bind unspent=
        contents (.cache base cacheCoins hashBlock) outpoint := by
  obtain ⟨found,next,nextCoins,hfetch,hkept,hentry,hcoin⟩ :=
    @fetchCoin_kept base cacheCoins outpoint hashBlock
  refine ⟨next,nextCoins,?_,hkept,by rw [hentry,hcoin]⟩
  rw [haveCoin,hfetch,← hcoin]
  cases found with
  | none => rfl
  | some entry =>
    rw [map_some,bind_some,unspent_isSome]

theorem accessCoin_kept (outpoint : COutPoint) (hashBlock : Uint256) :
    ∃ found next nextCoins, accessCoin (.cache base cacheCoins hashBlock) outpoint=
        .ok (found,.cache next nextCoins hashBlock) ∧
      Kept base cacheCoins next nextCoins hashBlock ∧
      unspent found=contents (.cache base cacheCoins hashBlock) outpoint := by
  obtain ⟨found,next,nextCoins,hfetch,hkept,-,hcoin⟩ :=
    @fetchCoin_kept base cacheCoins outpoint hashBlock
  rw [accessCoin,hfetch]
  cases found with
  | none => exact ⟨Coin.empty,next,nextCoins,rfl,hkept,hcoin⟩
  | some entry => exact ⟨entry.coin,next,nextCoins,rfl,hkept,hcoin⟩

theorem accessOutputs_kept (txid : Uint256) (left n : ℕ) (base : CCoinsView)
    (cacheCoins : CCoinsMap) (hashBlock : Uint256) :
    ∃ found next nextCoins, accessOutputs txid left n (.cache base cacheCoins hashBlock)=
        .ok (found,.cache next nextCoins hashBlock) ∧
      Kept base cacheCoins next nextCoins hashBlock ∧ unspent found=(List.range' n left).findSome?
        (fun n => contents (.cache base cacheCoins hashBlock) ⟨txid,n⟩) := by
  induction left generalizing n base cacheCoins with
  | zero => exact ⟨Coin.empty,base,cacheCoins,rfl,Kept.refl,rfl⟩
  | succ left ih =>
    obtain ⟨found,next,nextCoins,haccess,hkept,hcoin⟩ :=
      @accessCoin_kept base cacheCoins ⟨txid,n⟩ hashBlock
    rw [accessOutputs,haccess,List.range'_succ,List.findSome?_cons,← hcoin]
    cases hspent : found.isSpent with
    | false =>
      refine ⟨found,next,nextCoins,?_,hkept,by rw [unspent_of_unspent hspent]⟩
      dsimp only [bind,Except.bind]
      rw [hspent,if_neg Bool.false_ne_true]
    | true =>
      obtain ⟨last,lastView,lastCoins,hrest,hkeptRest,hlast⟩ := ih (n+1) next nextCoins
      refine ⟨last,lastView,lastCoins,?_,hkept.trans hkeptRest,?_⟩
      · dsimp only [bind,Except.bind]
        rw [hspent,if_pos rfl,hrest]
      · rw [unspent_of_spent hspent,hlast,hkept.coins]

end Reads

section Restore

variable {base : CCoinsView} {cacheCoins : CCoinsMap} {hashBlock : Uint256}

theorem addCoin_cases (out : COutPoint) (entry : Coin) (possible_overwrite : Bool)
    (old : Option Coin)
    (hold : ((cacheCoins.find out).map coin).bind unspent=old) :
    (entry.isSpent=true ∧ addCoin out entry possible_overwrite (.cache base cacheCoins hashBlock)=
        .error .spentCoin) ∨
    (entry.isSpent=false ∧ isUnspendable entry.out.scriptPubKey=true ∧
      addCoin out entry possible_overwrite (.cache base cacheCoins hashBlock)=
        .ok (.cache base cacheCoins hashBlock)) ∨
    (entry.isSpent=false ∧ isUnspendable entry.out.scriptPubKey=false ∧
      possible_overwrite=false ∧ old≠none ∧
      addCoin out entry possible_overwrite (.cache base cacheCoins hashBlock)=
        .error .replacesEntry) ∨
    (entry.isSpent=false ∧ isUnspendable entry.out.scriptPubKey=false ∧
      (old=none ∨ possible_overwrite=true) ∧
      ∃ next, addCoin out entry possible_overwrite (.cache base cacheCoins hashBlock)=.ok next ∧
        contents next=
          Function.update (contents (.cache base cacheCoins hashBlock)) out (some entry)) := by
  have hunspent : (!((cacheCoins.find out).getD {}).coin.isSpent)=old.isSome := by
    rw [← hold]
    cases cacheCoins.find out with
    | none => rfl
    | some found => exact (unspent_isSome found.coin).symm
  unfold addCoin
  dsimp only
  cases hspent : entry.isSpent with
  | true => exact .inl ⟨rfl,rfl⟩
  | false =>
    rw [if_neg Bool.false_ne_true]
    cases hscript : isUnspendable entry.out.scriptPubKey with
    | true => exact .inr (.inl ⟨rfl,rfl,rfl⟩)
    | false =>
      rw [if_neg Bool.false_ne_true,hunspent]
      have hadded : ∀ flags : Bool×Bool, contents (.cache base
          (cacheCoins.set out ⟨entry,flags.1,flags.2⟩) hashBlock)=
            Function.update (contents (.cache base cacheCoins hashBlock)) out (some entry) := by
        intro flags
        funext other
        rw [contents_set,update_apply,unspent_of_unspent hspent]
      cases possible_overwrite with
      | true => exact .inr (.inr (.inr ⟨rfl,rfl,.inr rfl,_,rfl,hadded (_,_)⟩))
      | false =>
        cases old with
        | none => exact .inr (.inr (.inr ⟨rfl,rfl,.inl rfl,_,rfl,hadded (_,_)⟩))
        | some found => exact .inr (.inr (.inl ⟨rfl,rfl,rfl,some_ne_none _,rfl⟩))

/-- Putting a completed coin back does what is meant if and only if it can be
put in its place. -/
theorem putBack_iff {coins : PlainMap} {out : COutPoint} {undo entry : Coin}
    (hcoins : contents (.cache base cacheCoins hashBlock)=coins)
    (hold : ((cacheCoins.find out).map coin).bind unspent=coins out)
    (hcompleted : completed coins out undo=some entry) :
    (∃ result next, putBack (!(coins out).isSome) entry (.cache base cacheCoins hashBlock) out=
        .ok (result,next) ∧ Restored coins (contents next) out undo result) ↔
      CanPut coins out entry := by
  have hres : ∀ result, (if (!(coins out).isSome)=true then DisconnectResult.ok
      else .unclean)=result → result≠.failed ∧ ((coins out).isSome=true → result=.unclean) := by
    intro result hres
    cases hpresent : (coins out).isSome with
    | true => rw [hpresent] at hres; cases hres; exact ⟨by rintro ⟨⟩,fun _ => rfl⟩
    | false => rw [hpresent] at hres; cases hres; exact ⟨by rintro ⟨⟩,by rintro ⟨⟩⟩
  unfold putBack CanPut
  rcases @addCoin_cases base cacheCoins hashBlock out entry entry.fCoinBase (coins out) hold with
    ⟨hspent,hadd⟩ | ⟨hspent,hscript,hadd⟩ | ⟨hspent,hscript,hbase,hthere,hadd⟩ |
    ⟨hspent,hscript,hfree,next,hadd,hnext⟩
  · rw [hadd,hspent]
    refine iff_of_false ?_ (fun hcan => Bool.noConfusion hcan.1)
    rintro ⟨result,next,⟨⟩,-⟩
  · rw [hadd,hspent,hscript]
    constructor
    · rintro ⟨result,next,hok,hback⟩
      cases hok
      obtain ⟨other,hother,hupdate⟩ := hback.added (hres _ rfl).1
      rw [hcompleted] at hother
      cases hother
      refine ⟨rfl,.inl ⟨rfl,?_⟩⟩
      rw [← hcoins,hupdate,update_self]
    · rintro ⟨-,⟨-,hthere⟩ | ⟨hfalse,-⟩⟩
      · refine ⟨_,_,rfl,fun hfail => absurd hfail (hres _ rfl).1,fun _ =>
          ⟨entry,hcompleted,?_⟩,(hres _ rfl).2⟩
        rw [hcoins,← hthere,update_eq_self]
      · cases hfalse
  · rw [hadd,hspent,hscript,hbase]
    refine iff_of_false ?_ ?_
    · rintro ⟨result,next,⟨⟩,-⟩
    · rintro ⟨-,⟨⟨⟩,-⟩ | ⟨-,hnone | ⟨⟨⟩⟩⟩⟩
      exact hthere hnone
  · rw [hadd,hspent,hscript]
    refine iff_of_true ⟨_,_,rfl,fun hfail => absurd hfail (hres _ rfl).1,fun _ =>
      ⟨entry,hcompleted,by rw [hnext,hcoins]⟩,(hres _ rfl).2⟩ ⟨rfl,.inr ⟨rfl,hfree⟩⟩

theorem firstUnspent_spent {coins : PlainMap} {txid : Uint256} {found : Coin}
    (hfound : unspent found=firstUnspent coins txid) :
    (found.isSpent=true → firstUnspent coins txid=none) ∧
      (found.isSpent=false → firstUnspent coins txid=some found) := by
  constructor
  · intro hspent
    rw [← hfound,unspent_of_spent hspent]
  · intro hspent
    rw [← hfound,unspent_of_unspent hspent]

theorem or_some_iff {coins : PlainMap} {out : COutPoint} {entry : Coin} (condition : Coin → Prop) :
    ((some entry=none ∧ coins out=none) ∨
      ∃ found, some entry=some found ∧ condition found) ↔ condition entry := by
  grind

/-- Restoring a coin does what is meant if and only if it is not spent, can be spent, and is from a
coinbase unless its place is free. -/
theorem applyTxInUndo_restores (base : CCoinsView) (cacheCoins : CCoinsMap)
    (hashBlock : Uint256) (out : COutPoint) (undo : Coin) :
    RestoresCoin (.cache base cacheCoins hashBlock) out undo ↔
      CanRestore (contents (.cache base cacheCoins hashBlock)) out undo := by
  generalize hcoins : contents (.cache base cacheCoins hashBlock)=coins
  obtain ⟨next,nextCoins,hhave,hkept,hentry⟩ := @haveCoin_kept base cacheCoins out hashBlock
  rw [hcoins] at hhave hentry
  have hnext := hkept.coins.trans hcoins
  unfold RestoresCoin applyTxInUndo CanRestore
  rw [hcoins,hhave]
  by_cases hheight : undo.nHeight=0
  · rw [if_pos hheight]
    obtain ⟨found,last,lastCoins,haccess,hkeptLast,hfound⟩ :=
      accessOutputs_kept out.hash maxOutputsPerBlock 0 next nextCoins hashBlock
    rw [hnext] at hfound
    obtain ⟨hmissing,hsome⟩ := @firstUnspent_spent coins out.hash found hfound
    have hlast := hkeptLast.coins.trans hnext
    unfold accessByTxid
    rw [haccess]
    dsimp only [bind,Except.bind]
    cases hspent : found.isSpent with
    | true =>
      have hnone : completed coins out undo=none := by
        rw [completed,if_pos hheight,hmissing hspent,map_none]
      rw [if_pos rfl,hnone]
      constructor
      · rintro ⟨result,view,hok,hback⟩
        cases hok
        cases hthere : coins out with
        | none => exact .inl ⟨rfl,rfl⟩
        | some entry =>
          have hunclean := hback.present (by rw [hthere]; rfl)
          cases hunclean
      · rintro (⟨-,hfree⟩ | ⟨entry,⟨⟩,-⟩)
        refine ⟨_,_,rfl,fun _ => hlast,fun hfail => absurd rfl hfail,fun hthere => ?_⟩
        rw [hfree] at hthere
        cases hthere
    | false =>
      have hcompleted : completed coins out undo=
          some ⟨undo.out,found.fCoinBase,found.nHeight⟩ := by
        rw [completed,if_pos hheight,hsome hspent,map_some]
      rw [if_neg Bool.false_ne_true]
      refine (putBack_iff hlast ?_ hcompleted).trans ?_
      · rw [← hlast]
        exact hkeptLast.held (by rw [hentry,hnext])
      · rw [hcompleted]
        exact (or_some_iff (CanPut coins out)).symm
  · rw [if_neg hheight]
    have hcompleted : completed coins out undo=some undo := if_neg hheight
    refine (putBack_iff hnext hentry hcompleted).trans ?_
    rw [hcompleted]
    exact (or_some_iff (CanPut coins out)).symm

end Restore

/-- A coin of a block that is there already and is not from a coinbase is not
replaced; the cache throws. -/
theorem applyTxInUndo_throws :
    applyTxInUndo (sampleCoin 1) (.cache (.db sampleCoins 0) .empty 0) ⟨7,0⟩=
        .error .replacesEntry ∧
      ¬∀ base cacheCoins hashBlock out undo,
        RestoresCoin (.cache base cacheCoins hashBlock) out undo := by
  have hthrows : applyTxInUndo (sampleCoin 1)
      (.cache (.db sampleCoins 0) .empty 0) ⟨7,0⟩=.error .replacesEntry := rfl
  refine ⟨hthrows,fun hrestores => ?_⟩
  obtain ⟨result,next,hok,-⟩ := hrestores (.db sampleCoins 0) .empty 0 ⟨7,0⟩
    (sampleCoin 1)
  rw [hthrows] at hok
  cases hok

end Pyrk.UndoneCoin
