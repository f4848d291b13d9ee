import Pyrk.Sporks

/-!
# Nodes agree on sporks

A node keeps of each key the message with the latest time, whatever the order of arrival. More than
half of the keys have to agree on a value.
-/

namespace Pyrk.Sporks

open Transaction OrderedMap List Option

/-- Spork of the new signature format. -/
def spork6NewSigs : ℤ := 10005

/-- Values of sporks that no message has set. -/
def mapSporkDefaults : OrderedMap ℤ ℤ :=
  OrderedMap.ofEntries [(10001,0),(10002,0),(10004,1000),(10005,4070908800),(10007,4070908800),
    (10008,0),(10011,0),(10013,4070908800),(10014,4070908800),(10015,4070908800),(10016,4070908800)]

/-- What a node is like when a message arrives. -/
structure SporkEnv where
  fLiteMode : Bool := false
  hasTip : Bool := true
  nAdjustedTime : ℤ

/-- What became of a message. -/
inductive SporkOutcome where
  | ignored
  /-- Signed too far in the future, which is punished. -/
  | tooFarInFuture
  /-- Not signed by an authorised key, which is punished. -/
  | invalidSignature
  | seen
  | accepted
  deriving DecidableEq

namespace CSporkManager

/-- First value that enough of the messages agree on. -/
def agreedValue (nMinSporkKeys : ℤ) : OrderedMap ℤ ℤ → List CSporkMessage → Option ℤ
  | _,[] => none
  | mapValueCounts,spork::rest =>
    let count := (mapValueCounts.find spork.nValue).getD 0+1
    if nMinSporkKeys ≤ count then some spork.nValue
    else agreedValue nMinSporkKeys (mapValueCounts.set spork.nValue count) rest

/-- Value of a spork that enough keys agree on. -/
def sporkValueIsActive (mgr : CSporkManager) (nSporkID : ℤ) : Option ℤ :=
  match mgr.mapSporksActive.find nSporkID with
  | none => none
  | some signers => agreedValue mgr.nMinSporkKeys .empty signers.values

/-- Whether the time of a spork has come. -/
def isSporkActive (mgr : CSporkManager) (nAdjustedTime nSporkID : ℤ) : Bool :=
  match mgr.sporkValueIsActive nSporkID with
  | some nSporkValue => nSporkValue < nAdjustedTime
  | none =>
    match mapSporkDefaults.find nSporkID with
    | some nSporkValue => nSporkValue < nAdjustedTime
    | none => false

/-- Set the number of keys that have to agree, more than half of them. -/
def setMinSporkKeys (mgr : CSporkManager) (minSporkKeys : ℤ) : Option CSporkManager :=
  let maxKeysNumber : ℤ := mgr.setSporkPubKeyIDs.size
  if minSporkKeys ≤ maxKeysNumber/2 || maxKeysNumber < minSporkKeys then none
  else some { mgr with nMinSporkKeys := minSporkKeys }

/-- Authorised key that signed a message, looked for in one format and then in the
other one. -/
def findSigner (ctx : SporkContext) (mgr : CSporkManager) (spork : CSporkMessage)
    (fSpork6IsActive : Bool) : Option CKeyID :=
  match (spork.getSignerKeyID ctx fSpork6IsActive).filter
      mgr.setSporkPubKeyIDs.contains with
  | some keyIDSigner => some keyIDSigner
  | none => (spork.getSignerKeyID ctx (!fSpork6IsActive)).filter
      mgr.setSporkPubKeyIDs.contains

/-- Store a message of a key. -/
def storeSpork (ctx : SporkContext) (mgr : CSporkManager) (keyIDSigner : CKeyID)
    (spork : CSporkMessage) : CSporkManager :=
  { mgr with
    mapSporksByHash := mgr.mapSporksByHash.set (ctx.serializeHash spork) spork
    mapSporksActive := mgr.mapSporksActive.set spork.nSporkID
      (((mgr.mapSporksActive.find spork.nSporkID).getD .empty).set
        keyIDSigner spork) }

/-- Take a message of a peer. -/
def processSpork (ctx : SporkContext) (env : SporkEnv) (mgr : CSporkManager)
    (spork : CSporkMessage) : SporkOutcome×CSporkManager :=
  if env.fLiteMode || !env.hasTip then (.ignored,mgr)
  else if env.nAdjustedTime+2*60*60 < spork.nTimeSigned then (.tooFarInFuture,mgr)
  else
    match mgr.findSigner ctx spork
        (mgr.isSporkActive env.nAdjustedTime spork6NewSigs) with
    | none => (.invalidSignature,mgr)
    | some keyIDSigner =>
      if (activeSpork mgr.mapSporksActive spork.nSporkID keyIDSigner).any
          (fun stored => spork.nTimeSigned ≤ stored.nTimeSigned) then (.seen,mgr)
      else (.accepted,mgr.storeSpork ctx keyIDSigner spork)

/-- Take messages one after the other. -/
def processSporks (ctx : SporkContext) (mgr : CSporkManager)
    (events : List (SporkEnv×CSporkMessage)) : CSporkManager :=
  events.foldl (fun mgr event => (mgr.processSpork ctx event.1 event.2).2) mgr

/-- Number of keys that stand for a value. -/
def valueCount (mgr : CSporkManager) (nSporkID nValue : ℤ) : ℕ :=
  (((mgr.mapSporksActive.find nSporkID).getD .empty).values.filter
    (fun spork => spork.nValue=nValue)).length

/-- Enough keys stand for a value. -/
def Reaches (mgr : CSporkManager) (nSporkID nValue : ℤ) : Prop :=
  mgr.nMinSporkKeys ≤ mgr.valueCount nSporkID nValue

/-- Messages that each come from one authorised key, with a time of its own. -/
structure Authorised (ctx : SporkContext) (keys : OrderedSet CKeyID)
    (messages : CSporkMessage → Prop) : Prop where
  signed : ∀ spork, messages spork → ∃ signer∈keys, spork.signedBy ctx signer=true
  /-- In both formats no other authorised key is recovered from a signature. -/
  unique : ∀ spork, messages spork → ∀ first∈keys, ∀ second∈keys,
    spork.signedBy ctx first=true → spork.signedBy ctx second=true → first=second
  /-- A key does not sign two messages for one spork at the same time. -/
  distinct : ∀ first second signer, messages first → messages second → signer∈keys →
    first.signedBy ctx signer=true → second.signedBy ctx signer=true →
    first.nSporkID=second.nSporkID → first.nTimeSigned=second.nTimeSigned → first=second

/-- A message that a node looks at. -/
def Timely (event : SporkEnv×CSporkMessage) : Prop :=
  event.1.fLiteMode=false ∧ event.1.hasTip=true ∧ event.2.nTimeSigned≤event.1.nAdjustedTime+2*60*60

instance (event : SporkEnv×CSporkMessage) : Decidable (Timely event) :=
  inferInstanceAs (Decidable (_ ∧ _ ∧ _))

/-- A node has the newest of the known messages of each key. -/
structure Newest (ctx : SporkContext) (keys : OrderedSet CKeyID)
    (known : CSporkMessage → Prop) (mgr : CSporkManager) : Prop where
  authorised : mgr.setSporkPubKeyIDs=keys
  /-- What is stored is known and stored with its key. -/
  sound : ∀ nSporkID signer spork, activeSpork mgr.mapSporksActive nSporkID signer=some spork →
      known spork ∧ spork.nSporkID=nSporkID ∧ signer∈keys ∧ spork.signedBy ctx signer=true
  newest : ∀ spork signer, known spork → signer∈keys → spork.signedBy ctx signer=true →
    ∃ stored, activeSpork mgr.mapSporksActive spork.nSporkID signer=some stored ∧
      spork.nTimeSigned ≤ stored.nTimeSigned
  nonempty : ∀ nSporkID signers, mgr.mapSporksActive.find nSporkID=some signers →
    ∃ signer spork, signers.find signer=some spork

section Agreement

variable {ctx : SporkContext} {keys : OrderedSet CKeyID}
  {messages known : CSporkMessage → Prop} {mgr other : CSporkManager}

theorem findSigner_eq (h : Authorised ctx keys messages) (hkeys : mgr.setSporkPubKeyIDs=keys)
    {spork : CSporkMessage} (hspork : messages spork) {signer : CKeyID} (hsigner : signer∈keys)
    (hsigned : spork.signedBy ctx signer=true) (fSpork6IsActive : Bool) :
    mgr.findSigner ctx spork fSpork6IsActive=some signer := by
  have hfound : ∀ format found, (spork.getSignerKeyID ctx format).filter
      mgr.setSporkPubKeyIDs.contains=some found → found=signer := by
    intro format found hfilter
    rw [filter_eq_some_iff,hkeys] at hfilter
    exact h.unique spork hspork found hfilter.2 signer hsigner
      ((CSporkMessage.signedBy_iff _ _ _).mpr ⟨format,hfilter.1⟩) hsigned
  have hthere : ∀ format, spork.getSignerKeyID ctx format=some signer →
      (spork.getSignerKeyID ctx format).filter mgr.setSporkPubKeyIDs.contains=
        some signer := by
    intro format hformat
    rw [filter_eq_some_iff,hkeys]
    exact ⟨hformat,hsigner⟩
  obtain ⟨format,hformat⟩ := (CSporkMessage.signedBy_iff _ _ _).mp hsigned
  unfold findSigner
  cases hfirst : (spork.getSignerKeyID ctx fSpork6IsActive).filter
      mgr.setSporkPubKeyIDs.contains with
  | some found => rw [hfound fSpork6IsActive found hfirst]
  | none =>
    have hne : format=!fSpork6IsActive := by
      by_contra hne
      rw [Bool.eq_not,not_not] at hne
      rw [hne] at hformat
      rw [hthere _ hformat] at hfirst
      cases hfirst
    exact hne ▸ hthere format hformat

theorem activeSpork_storeSpork (signer : CKeyID) (spork : CSporkMessage) (nSporkID : ℤ)
    (key : CKeyID) :
    activeSpork (mgr.storeSpork ctx signer spork).mapSporksActive nSporkID key=
      if nSporkID=spork.nSporkID ∧ key=signer then some spork
      else activeSpork mgr.mapSporksActive nSporkID key := by
  unfold activeSpork storeSpork
  rw [find_set]
  by_cases hid : nSporkID=spork.nSporkID
  · subst hid
    rw [if_pos rfl,bind_some,find_set]
    by_cases hkey : key=signer
    · simp [hkey]
    · cases hfind : mgr.mapSporksActive.find spork.nSporkID <;> simp [hkey]
  · simp [hid]

section

variable (h : Newest ctx keys known mgr)

include h

theorem Newest.processSpork
    (hauth : Authorised ctx keys messages) {event : SporkEnv×CSporkMessage}
    (htimely : Timely event) (hspork : messages event.2) :
    Newest ctx keys (fun spork => spork=event.2 ∨ known spork)
      (mgr.processSpork ctx event.1 event.2).2 := by
  obtain ⟨env,spork⟩ := event
  obtain ⟨hlite,htip,htime⟩ := htimely
  obtain ⟨signer,hsigner,hsigned⟩ := hauth.signed spork hspork
  unfold CSporkManager.processSpork
  rw [hlite,htip,if_neg (by simp),if_neg (by omega),findSigner_eq hauth h.authorised hspork
    hsigner hsigned]
  dsimp only
  split_ifs with hseen
  · have hstored : ∃ stored, activeSpork mgr.mapSporksActive spork.nSporkID signer=
        some stored ∧ spork.nTimeSigned ≤ stored.nTimeSigned := by
      cases hact : activeSpork mgr.mapSporksActive spork.nSporkID signer with
      | none => simp [hact] at hseen
      | some stored => exact ⟨stored,rfl,by simpa [hact] using hseen⟩
    refine ⟨h.authorised,fun nSporkID key found hfound => ?_,?_,h.nonempty⟩
    · obtain ⟨hknown,hrest⟩ := h.sound nSporkID key found hfound
      exact ⟨.inr hknown,hrest⟩
    · rintro found key (rfl | hknown) hkey hfound
      · rw [hauth.unique found hspork key hkey signer hsigner hfound hsigned]
        exact hstored
      · exact h.newest found key hknown hkey hfound
  · refine ⟨h.authorised,fun nSporkID key found hfound => ?_,?_,?_⟩
    · rw [activeSpork_storeSpork] at hfound
      split_ifs at hfound with he
      · cases hfound
        rw [he.1,he.2]
        exact ⟨.inl rfl,rfl,hsigner,hsigned⟩
      · obtain ⟨hknown,hrest⟩ := h.sound nSporkID key found hfound
        exact ⟨.inr hknown,hrest⟩
    · intro found key hknown hkey hfound
      rw [activeSpork_storeSpork]
      split_ifs with he
      · refine ⟨spork,rfl,?_⟩
        rcases hknown with rfl | hknown
        · exact le_refl _
        · obtain ⟨stored,hstored,hle⟩ := h.newest found key hknown hkey hfound
          grind
      · rcases hknown with rfl | hknown
        · exact absurd ⟨rfl,hauth.unique found hspork key hkey signer hsigner hfound hsigned⟩ he
        · exact h.newest found key hknown hkey hfound
    · intro nSporkID signers hfind
      unfold storeSpork at hfind
      rw [find_set] at hfind
      split_ifs at hfind with he
      · cases hfind
        exact ⟨signer,spork,find_set_self _ _ _⟩
      · exact h.nonempty nSporkID signers hfind

theorem Newest.processSporks
    (hauth : Authorised ctx keys messages) {events : List (SporkEnv×CSporkMessage)}
    (htimely : ∀ event∈events, Timely event) (hmessages : ∀ event∈events, messages event.2) :
    Newest ctx keys (fun spork => (∃ env, (env,spork)∈events) ∨ known spork)
      (mgr.processSporks ctx events) := by
  induction events generalizing mgr known with
  | nil => simpa [CSporkManager.processSporks] using h
  | cons event events ih =>
    rw [forall_mem_cons] at htimely hmessages
    have hnext := ih (h.processSpork hauth htimely.1 hmessages.1) htimely.2 hmessages.2
    have hknown : (fun spork => (∃ env, (env,spork)∈event::events) ∨ known spork)=
        fun spork => (∃ env, (env,spork)∈events) ∨ spork=event.2 ∨ known spork := by
      grind
    rw [hknown]
    exact hnext

theorem Newest.activeSpork_le
    (hother : Newest ctx keys known other) (hauth : Authorised ctx keys messages)
    (hknown : ∀ spork, known spork → messages spork) {nSporkID : ℤ} {signer : CKeyID}
    {spork : CSporkMessage}
    (hspork : activeSpork mgr.mapSporksActive nSporkID signer=some spork) :
    activeSpork other.mapSporksActive nSporkID signer=some spork := by
  obtain ⟨hs,rfl,hsigner,hsigned⟩ := h.sound nSporkID signer spork hspork
  obtain ⟨stored,hstored,hle⟩ := hother.newest spork signer hs hsigner hsigned
  obtain ⟨ht,hid,-,hsigns⟩ := hother.sound _ signer stored hstored
  obtain ⟨newest,hnewest,hge⟩ := h.newest stored signer ht hsigner hsigns
  rw [hid,hspork,some.injEq] at hnewest
  subst hnewest
  rw [hstored,hauth.distinct stored spork signer (hknown _ ht) (hknown _ hs) hsigner hsigns
    hsigned hid (le_antisymm hge hle)]

theorem Newest.find_ne_none (hact : ∀ nSporkID signer spork,
      activeSpork mgr.mapSporksActive nSporkID signer=some spork →
      activeSpork other.mapSporksActive nSporkID signer=some spork)
    {nSporkID : ℤ} {signers : OrderedMap CKeyID CSporkMessage}
    (hfind : mgr.mapSporksActive.find nSporkID=some signers) :
    ∃ others, other.mapSporksActive.find nSporkID=some others := by
  obtain ⟨signer,spork,hspork⟩ := h.nonempty nSporkID signers hfind
  have hthere := hact nSporkID signer spork (by simp [activeSpork,hfind,hspork])
  obtain ⟨others,hothers,-⟩ := bind_eq_some_iff.mp hthere
  exact ⟨others,hothers⟩

theorem Newest.agree
    (hother : Newest ctx keys known other) (hauth : Authorised ctx keys messages)
    (hknown : ∀ spork, known spork → messages spork) :
    mgr.mapSporksActive=other.mapSporksActive := by
  have hleft := fun nSporkID signer spork =>
    @Newest.activeSpork_le ctx keys messages known mgr other h hother hauth hknown
      nSporkID signer spork
  have hright := fun nSporkID signer spork =>
    @Newest.activeSpork_le ctx keys messages known other mgr hother h hauth hknown
      nSporkID signer spork
  refine ext_find (fun nSporkID => ?_)
  cases hfind : mgr.mapSporksActive.find nSporkID with
  | none =>
    cases hfound : other.mapSporksActive.find nSporkID with
    | none => rfl
    | some others =>
      obtain ⟨signers,hsigners⟩ := hother.find_ne_none hright hfound
      rw [hfind] at hsigners
      cases hsigners
  | some signers =>
    obtain ⟨others,hothers⟩ := h.find_ne_none hleft hfind
    rw [hothers,some.injEq]
    refine ext_find (fun signer => Option.ext (fun spork => ?_))
    have hl := hleft nSporkID signer spork
    have hr := hright nSporkID signer spork
    rw [activeSpork,activeSpork,hfind,hothers,bind_some,bind_some] at hl hr
    exact ⟨hl,hr⟩

end

end Agreement

theorem length_filter_add_le (sporks : List CSporkMessage) {first second : ℤ} (hne : first≠second) :
    (sporks.filter (fun spork => spork.nValue=first)).length+
      (sporks.filter (fun spork => spork.nValue=second)).length ≤ sporks.length := by
  induction sporks with
  | nil => simp
  | cons spork sporks ih =>
    rw [filter_cons,filter_cons]
    split_ifs with h1 h2 <;> simp only [length_cons,decide_eq_true_eq] at * <;> omega

theorem reaches_unique {ctx : SporkContext} {keys : OrderedSet CKeyID}
    {known : CSporkMessage → Prop} {mgr : CSporkManager}
    (h : Newest ctx keys known mgr) (hmin : (keys.size : ℤ)/2 < mgr.nMinSporkKeys)
    {nSporkID first second : ℤ} (hfirst : mgr.Reaches nSporkID first)
    (hsecond : mgr.Reaches nSporkID second) : first=second := by
  by_contra hne
  unfold Reaches valueCount at hfirst hsecond
  cases hfind : mgr.mapSporksActive.find nSporkID with
  | none =>
    have hzero : (.empty : OrderedMap CKeyID CSporkMessage).values=[] := rfl
    grind
  | some signers =>
    rw [hfind,getD_some] at hfirst hsecond
    have hcount := length_filter_add_le signers.values hne
    have hsub : signers.entries.map Prod.fst⊆keys.items := by
      intro signer hm
      obtain ⟨⟨key,spork⟩,hentry,rfl⟩ := mem_map.mp hm
      rw [mem_entries_iff] at hentry
      exact OrderedSet.mem_items.mpr (h.sound nSporkID key spork
        (by simp [activeSpork,hfind,hentry])).2.2.1
    have hlen := (signers.nodup_keys.subperm hsub).length_le
    have hvalues : signers.values.length=(signers.entries.map Prod.fst).length := by
      rw [OrderedMap.values,length_map,length_map]
    have hsize : keys.size=keys.items.length := rfl
    omega

theorem agreedValue_cases (nMinSporkKeys : ℤ) (mapValueCounts : OrderedMap ℤ ℤ)
    (sporks : List CSporkMessage)
    (hcounts : ∀ value, (mapValueCounts.find value).getD 0 < nMinSporkKeys) :
    (∃ value, agreedValue nMinSporkKeys mapValueCounts sporks=some value ∧
      nMinSporkKeys≤(mapValueCounts.find value).getD 0+
        (sporks.filter (fun spork => spork.nValue=value)).length) ∨
    (agreedValue nMinSporkKeys mapValueCounts sporks=none ∧
      ∀ value, (mapValueCounts.find value).getD 0+
        (sporks.filter (fun spork => spork.nValue=value)).length < nMinSporkKeys) := by
  induction sporks generalizing mapValueCounts with
  | nil => simpa [agreedValue] using hcounts
  | cons spork sporks ih =>
    have hlen : ∀ value, ((((spork::sporks).filter
        (fun found => found.nValue=value)).length : ℕ) : ℤ)=(if spork.nValue=value then 1 else 0)+
          (sporks.filter (fun found => found.nValue=value)).length := by
      grind
    simp only [hlen]
    unfold agreedValue
    dsimp only
    split_ifs with hreached
    · refine .inl ⟨spork.nValue,rfl,?_⟩
      rw [if_pos rfl]
      omega
    · have hset : ∀ value, ((mapValueCounts.set spork.nValue
          ((mapValueCounts.find spork.nValue).getD 0+1)).find value).getD 0=
          (mapValueCounts.find value).getD 0+(if spork.nValue=value then 1 else 0) := by
        intro value
        rw [find_set]
        by_cases he : value=spork.nValue
        · simp [he]
        · simp [he,Ne.symm he]
      grind

/-- The count stops at the first value that enough keys agree on, and the order in which it comes to
the messages does not matter. -/
theorem sporkValueIsActive_eq_some {ctx : SporkContext} {keys : OrderedSet CKeyID}
    {known : CSporkMessage → Prop} {mgr : CSporkManager}
    (h : Newest ctx keys known mgr) (hmin : (keys.size : ℤ)/2 < mgr.nMinSporkKeys)
    (nSporkID value : ℤ) :
    (mgr.sporkValueIsActive nSporkID=some value ↔ mgr.Reaches nSporkID value) ∧
      ∀ signers, mgr.mapSporksActive.find nSporkID=some signers →
        ∀ sporks, sporks ~ signers.values →
          (agreedValue mgr.nMinSporkKeys .empty sporks=some value ↔
            mgr.Reaches nSporkID value) := by
  have hcases := fun sporks => agreedValue_cases mgr.nMinSporkKeys .empty sporks
    (fun value => by rw [find_empty,getD_none]; omega)
  simp only [find_empty,getD_none,zero_add] at hcases
  have hone := @reaches_unique ctx keys known mgr h hmin nSporkID
  unfold Reaches valueCount at hone
  have horder : ∀ signers, mgr.mapSporksActive.find nSporkID=some signers →
      ∀ sporks, sporks ~ signers.values →
        (agreedValue mgr.nMinSporkKeys .empty sporks=some value ↔
          mgr.Reaches nSporkID value) := by
    intro signers hfind sporks horder
    unfold Reaches valueCount
    rw [hfind] at hone ⊢
    simp only [getD_some] at hone ⊢
    have hcount := fun value => (horder.filter (fun spork => spork.nValue=value)).length_eq
    rcases hcases sporks with ⟨found,hfound,hreached⟩ | ⟨hnone,hless⟩
    · rw [hcount] at hreached
      rw [hfound,some.injEq]
      exact ⟨fun he => he ▸ hreached,fun hvalue => hone hreached hvalue⟩
    · rw [hnone]
      simp only [reduceCtorEq,false_iff,not_le]
      rw [← hcount]
      exact hless value
  refine ⟨?_,horder⟩
  unfold sporkValueIsActive
  cases hfind : mgr.mapSporksActive.find nSporkID with
  | none =>
    have hzero : (.empty : OrderedMap CKeyID CSporkMessage).values=[] := rfl
    unfold Reaches valueCount
    simp only [hfind,getD_none,hzero,filter_nil,length_nil,reduceCtorEq,false_iff]
    omega
  | some signers => exact horder signers hfind _ (Perm.refl _)

theorem newest_start (ctx : SporkContext) (keys : OrderedSet CKeyID) (minSporkKeys : ℤ) :
    Newest ctx keys (fun _ => False)
      { setSporkPubKeyIDs := keys, nMinSporkKeys := minSporkKeys } := by
  refine ⟨rfl,?_,by simp,?_⟩
  · simp [activeSpork]
  · simp

theorem nMinSporkKeys_processSporks (ctx : SporkContext) (mgr : CSporkManager)
    (events : List (SporkEnv×CSporkMessage)) :
    (mgr.processSporks ctx events).nMinSporkKeys=mgr.nMinSporkKeys := by
  induction events generalizing mgr with
  | nil => rfl
  | cons event events ih =>
    refine (ih _).trans ?_
    unfold processSpork
    dsimp only
    split_ifs
    · rfl
    · rfl
    · split
      · rfl
      · split_ifs <;> rfl

theorem setMinSporkKeys_some {mgr result : CSporkManager} {minSporkKeys : ℤ}
    (h : mgr.setMinSporkKeys minSporkKeys=some result) :
    result={ mgr with nMinSporkKeys := minSporkKeys } ∧
      (mgr.setSporkPubKeyIDs.size : ℤ)/2 < minSporkKeys := by
  unfold setMinSporkKeys at h
  grind

/-- Nodes that look at the same messages, in any order and as often as they come, have the same
sporks and values. -/
theorem processSporks_agree (ctx : SporkContext) (keys : OrderedSet CKeyID)
    (minSporkKeys : ℤ) (node : CSporkManager)
    (hnode : setMinSporkKeys { setSporkPubKeyIDs := keys, nMinSporkKeys := 0 } minSporkKeys=
      some node)
    (messages : CSporkMessage → Prop) (hauth : Authorised ctx keys messages)
    (first second : List (SporkEnv×CSporkMessage))
    (hfirst : ∀ spork, messages spork ↔ ∃ env, (env,spork)∈first)
    (hsecond : ∀ spork, messages spork ↔ ∃ env, (env,spork)∈second)
    (htimely : ∀ event∈first++second, Timely event) :
    (node.processSporks ctx first).mapSporksActive=
      (node.processSporks ctx second).mapSporksActive ∧
    (∀ nSporkID, (node.processSporks ctx first).sporkValueIsActive nSporkID=
      (node.processSporks ctx second).sporkValueIsActive nSporkID) ∧
    ∀ nSporkID value other, (node.processSporks ctx first).Reaches nSporkID value →
      (node.processSporks ctx first).Reaches nSporkID other → value=other := by
  obtain ⟨rfl,hmin⟩ := setMinSporkKeys_some hnode
  have hrun : ∀ events : List (SporkEnv×CSporkMessage),
      (∀ spork, messages spork ↔ ∃ env, (env,spork)∈events) → (∀ event∈events, Timely event) →
      Newest ctx keys messages (processSporks ctx
          { setSporkPubKeyIDs := keys, nMinSporkKeys := minSporkKeys } events) := by
    intro events hevents hlooked
    have hnewest := (newest_start ctx keys minSporkKeys).processSporks hauth hlooked
      (fun event hm => (hevents event.2).mpr ⟨event.1,hm⟩)
    have hknown : (fun spork => (∃ env, (env,spork)∈events) ∨ False)=messages := by
      funext spork
      rw [or_false]
      exact propext (hevents spork).symm
    rwa [hknown] at hnewest
  have hone := hrun first hfirst (fun event hm => htimely event (mem_append_left _ hm))
  have htwo := hrun second hsecond (fun event hm => htimely event (mem_append_right _ hm))
  have hact := hone.agree htwo hauth (fun _ h => h)
  refine ⟨hact,fun nSporkID => ?_,fun nSporkID value other hvalue hother => ?_⟩
  · unfold sporkValueIsActive
    rw [hact,nMinSporkKeys_processSporks,nMinSporkKeys_processSporks]
  · refine reaches_unique hone ?_ hvalue hother
    rw [nMinSporkKeys_processSporks]
    exact hmin

theorem signedBy_sampleContext {spork : CSporkMessage} {signer : UInt8}
    (hsig : spork.vchSig=[signer]) (key : CKeyID) :
    spork.signedBy sampleContext key=true ↔ key=signer.toNat := by
  rw [CSporkMessage.signedBy_iff]
  simp [CSporkMessage.getSignerKeyID,sampleContext,hsig,eq_comm]

theorem authorised_sample (signers : List UInt8) {keys : OrderedSet CKeyID}
    {sporks : List CSporkMessage} (hkeys : ∀ key∈signers.map UInt8.toNat,key∈keys)
    (hsigned : ∀ spork∈sporks,spork.vchSig∈signers.map (fun signer => [signer]))
    (hdistinct : ∀ first∈sporks,∀ second∈sporks,first.vchSig=second.vchSig →
      first.nTimeSigned=second.nTimeSigned → first=second) :
    Authorised sampleContext keys (fun spork => spork∈sporks) := by
  constructor
  · intro spork hspork
    obtain ⟨signer,hsigner,hsig⟩ := mem_map.mp (hsigned spork hspork)
    exact ⟨_,hkeys _ (mem_map_of_mem hsigner),(signedBy_sampleContext hsig.symm _).mpr rfl⟩
  · intro spork hspork first _ second _ hfirst hsecond
    obtain ⟨signer,-,hsig⟩ := mem_map.mp (hsigned spork hspork)
    rw [signedBy_sampleContext hsig.symm] at hfirst hsecond
    rw [hfirst,hsecond]
  · intro first second key hfirst hsecond _ hone htwo _ htime
    obtain ⟨signer,-,hsig⟩ := mem_map.mp (hsigned first hfirst)
    obtain ⟨other,-,hother⟩ := mem_map.mp (hsigned second hsecond)
    rw [signedBy_sampleContext hsig.symm] at hone
    rw [signedBy_sampleContext hother.symm,hone,UInt8.toNat_inj] at htwo
    exact hdistinct first hfirst second hsecond (by rw [← hsig,← hother,htwo]) htime

/-- A node with one key. -/
def sampleAgreement : CSporkManager where
  setSporkPubKeyIDs := OrderedSet.empty.insert 5
  nMinSporkKeys := 1

/-- A node with three keys, two of which have to agree. -/
def threeKeys : CSporkManager where
  setSporkPubKeyIDs := ((OrderedSet.empty.insert 5).insert 6).insert 7
  nMinSporkKeys := 2

/-- Messages of these keys; the second one has another value. -/
def threeMessages : List CSporkMessage :=
  [sampleSpork 5 20,{ sampleSpork 6 20 with nValue := 9 },sampleSpork 7 30]

/-- The first and the last key agree. -/
theorem sporkValueIsActive_sample :
    (threeKeys.processSporks sampleContext
      (threeMessages.map (fun spork => (⟨false,true,100⟩,spork)))).sporkValueIsActive
        10001=some 0 := by
  have hauth : Authorised sampleContext threeKeys.setSporkPubKeyIDs
      (fun spork => spork∈threeMessages) :=
    authorised_sample [5,6,7] (by decide) (by decide) (by decide)
  have htimely : ∀ event∈threeMessages.map (fun spork => ((⟨false,true,100⟩ : SporkEnv),spork)),
      Timely event := by
    decide
  have hnewest := (newest_start sampleContext threeKeys.setSporkPubKeyIDs 2).processSporks
    hauth htimely (by decide)
  have hreaches : (threeKeys.processSporks sampleContext
      (threeMessages.map (fun spork => (⟨false,true,100⟩,spork)))).Reaches 10001 0 := by
    unfold Reaches
    decide
  exact (sporkValueIsActive_eq_some hnewest (by decide) 10001 0).1.mpr hreaches

/-- Messages that arrive in one order and in the other. -/
theorem processSporks_agree_sample :
    (sampleAgreement.processSporks sampleContext
        [(⟨false,true,100⟩,sampleSpork 5 20),(⟨false,true,100⟩,sampleSpork 5 30)]).mapSporksActive=
      (sampleAgreement.processSporks sampleContext
        [(⟨false,true,200⟩,sampleSpork 5 30),
          (⟨false,true,100⟩,sampleSpork 5 20)]).mapSporksActive :=
  (processSporks_agree sampleContext (OrderedSet.empty.insert 5) 1 sampleAgreement rfl
    (fun spork => spork∈[sampleSpork 5 20,sampleSpork 5 30])
    (authorised_sample [5] (by decide) (by decide) (by decide))
    [(⟨false,true,100⟩,sampleSpork 5 20),(⟨false,true,100⟩,sampleSpork 5 30)]
    [(⟨false,true,200⟩,sampleSpork 5 30),(⟨false,true,100⟩,sampleSpork 5 20)]
    (by simp [exists_or]) (by simp [exists_or,or_comm]) (by decide)).1

/-- A message from the future is dropped by the node whose clock is behind. -/
theorem processSporks_future :
    setMinSporkKeys { setSporkPubKeyIDs := OrderedSet.empty.insert 5, nMinSporkKeys := 0 } 1=
      some sampleAgreement ∧
    Authorised sampleContext (OrderedSet.empty.insert 5)
      (fun spork => spork∈[sampleSpork 5 10000]) ∧
    (sampleAgreement.processSporks sampleContext
        [(⟨false,true,100⟩,sampleSpork 5 10000)]).mapSporksActive≠
      (sampleAgreement.processSporks sampleContext
        [(⟨false,true,10000⟩,sampleSpork 5 10000)]).mapSporksActive := by
  refine ⟨rfl,authorised_sample [5] (by decide) (by decide) (by decide),fun he => ?_⟩
  have hfind := congrArg (fun active => (activeSpork active 10001 5).isSome) he
  exact absurd hfind (by decide)

end CSporkManager

end Pyrk.Sporks
