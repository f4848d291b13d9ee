import Pyrk.OrderedMap
import Mathlib.Data.Finset.Card

/-!
# Finite sets iterated in order, and walks over a graph

A set is a map without values. A walk takes the first staged element, marks it and stages those of
its neighbours that are not marked.
-/

namespace Pyrk

open OrderedMap

/-- A finite set of ordered elements. -/
structure OrderedSet (κ : Type) [LinearOrder κ] where
  map : OrderedMap κ Unit

namespace OrderedSet

variable {κ : Type} [LinearOrder κ]

variable (set : OrderedSet κ)

/-- Elements in iteration order. -/
def items : List κ := set.map.entries.map Prod.fst

/-- The set without elements. -/
def empty : OrderedSet κ := ⟨.empty⟩

def contains (key : κ) : Bool := set.map.contains key

/-- Add an element. -/
def insert (key : κ) : OrderedSet κ := ⟨set.map.set key ()⟩

/-- Remove an element. -/
def erase (key : κ) : OrderedSet κ := ⟨set.map.erase key⟩

/-- Add elements one by one. -/
def insertAll (keys : List κ) : OrderedSet κ := keys.foldl insert set

/-- Number of elements. -/
def size : ℕ := set.items.length

instance : Membership κ (OrderedSet κ) := ⟨fun set key => set.contains key=true⟩

instance (key : κ) (set : OrderedSet κ) : Decidable (key∈set) :=
  inferInstanceAs (Decidable (set.contains key=true))

theorem mem_def {key : κ} {set : OrderedSet κ} : key∈set ↔ set.contains key=true := Iff.rfl

@[simp] theorem mem_empty (key : κ) : ¬key∈(empty : OrderedSet κ) := by
  simp [mem_def,contains,empty,OrderedMap.contains,find_empty]

@[simp] theorem mem_insert {key other : κ} {set : OrderedSet κ} :
    other∈set.insert key ↔ other=key ∨ other∈set := by
  simp only [mem_def,contains,insert,OrderedMap.contains,find_set]
  split_ifs with he
  · simp [he]
  · simp [he]

@[simp] theorem mem_erase {key other : κ} {set : OrderedSet κ} :
    other∈set.erase key ↔ other≠key ∧ other∈set := by
  simp only [mem_def,contains,erase,OrderedMap.contains,find_erase]
  split_ifs with he
  · simp [he]
  · simp [he]

@[simp] theorem mem_insertAll {keys : List κ} {other : κ} {set : OrderedSet κ} :
    other∈set.insertAll keys ↔ other∈keys ∨ other∈set := by
  unfold insertAll
  induction keys generalizing set with
  | nil => simp
  | cons key keys ih => rw [List.foldl_cons,ih,mem_insert,List.mem_cons,or_left_comm,or_assoc]

@[simp] theorem mem_items {key : κ} {set : OrderedSet κ} : key∈set.items ↔ key∈set := by
  rw [mem_def,contains,contains_iff,items,List.mem_map]
  constructor
  · rintro ⟨⟨found,value⟩,hm,rfl⟩
    exact ⟨value,(mem_entries_iff _ _ _).mp hm⟩
  · rintro ⟨value,hfind⟩
    exact ⟨(key,value),(mem_entries_iff _ _ _).mpr hfind,rfl⟩

theorem nodup_items : set.items.Nodup := set.map.nodup_keys

/-- The elements as a set of mathematics. -/
def toFinset : Finset κ := ⟨set.items,set.nodup_items⟩

@[simp] theorem mem_toFinset {key : κ} {set : OrderedSet κ} : key∈set.toFinset ↔ key∈set :=
  mem_items

theorem not_mem_of_items_nil {set : OrderedSet κ} (h : set.items=[]) (key : κ) : ¬key∈set := by
  rw [← mem_items,h]
  exact List.not_mem_nil

end OrderedSet

namespace Walk

variable {κ : Type} [LinearOrder κ]

/-- Stage the neighbours that are not marked. -/
def stageNew (next : List κ) (seen stage : OrderedSet κ) : OrderedSet κ :=
  stage.insertAll (next.filter (fun key => !seen.contains key))

/-- Walk from staged elements; each round marks one more. -/
def walk (next : κ → List κ) : ℕ → OrderedSet κ → OrderedSet κ → OrderedSet κ
  | 0,_,seen => seen
  | rounds+1,stage,seen =>
    match stage.items with
    | [] => seen
    | key::_ =>
      walk next rounds (stageNew (next key) (seen.insert key) (stage.erase key)) (seen.insert key)

/-- Neighbourhood as a relation. -/
def Edge (next : κ → List κ) (first second : κ) : Prop := second∈next first

/-- What holds between two rounds, for a walk from some roots in a closed set of
nodes. -/
structure Frontier (next : κ → List κ) (roots : κ → Prop) (nodes : Finset κ)
    (stage seen : OrderedSet κ) : Prop where
  sound : ∀ key, key∈stage ∨ key∈seen → ∃ root, roots root ∧
    Relation.ReflTransGen (Edge next) root key
  roots : ∀ root, roots root → root∈stage ∨ root∈seen
  closed : ∀ key∈seen, ∀ other∈next key, other∈stage ∨ other∈seen
  apart : ∀ key∈stage, ¬key∈seen
  nodes : ∀ key, key∈stage ∨ key∈seen → key∈nodes

variable {next : κ → List κ} {roots : κ → Prop} {nodes : Finset κ} {stage seen : OrderedSet κ}

theorem Frontier.round (h : Frontier next roots nodes stage seen)
    (hnodes : ∀ key∈nodes, ∀ other∈next key, other∈nodes) {key : κ} (hkey : key∈stage) :
    Frontier next roots nodes (stageNew (next key) (seen.insert key) (stage.erase key))
      (seen.insert key) := by
  have hmem : ∀ other, other∈stageNew (next key) (seen.insert key) (stage.erase key) ↔
      (other∈next key ∧ other≠key ∧ ¬other∈seen) ∨ (other≠key ∧ other∈stage) := by
    intro other
    have hnot : (!(seen.insert key).contains other)=true ↔ other≠key ∧ ¬other∈seen := by
      rw [Bool.not_eq_true',← Bool.not_eq_true,← OrderedSet.mem_def,OrderedSet.mem_insert,not_or]
    simp only [stageNew,OrderedSet.mem_insertAll,List.mem_filter,OrderedSet.mem_erase,hnot]
  have hcome : ∀ other, other∈next key → ∃ root, roots root ∧
      Relation.ReflTransGen (Edge next) root other := by
    intro other hother
    obtain ⟨root,hroot,hpath⟩ := h.sound key (.inl hkey)
    exact ⟨root,hroot,hpath.tail hother⟩
  have hkept : ∀ other, other∈stage ∨ other∈seen →
      other∈stageNew (next key) (seen.insert key) (stage.erase key) ∨ other∈seen.insert key := by
    intro other hother
    rw [hmem,OrderedSet.mem_insert]
    by_cases he : other=key
    · exact .inr (.inl he)
    · rcases hother with hs | hs
      · exact .inl (.inr ⟨he,hs⟩)
      · exact .inr (.inr hs)
  constructor
  · intro other hother
    rw [hmem,OrderedSet.mem_insert] at hother
    rcases hother with (⟨hnext,-⟩ | ⟨-,hs⟩) | rfl | hs
    · exact hcome other hnext
    · exact h.sound other (.inl hs)
    · exact h.sound other (.inl hkey)
    · exact h.sound other (.inr hs)
  · exact fun root hroot => hkept root (h.roots root hroot)
  · intro marked hmarked other hother
    rcases OrderedSet.mem_insert.mp hmarked with rfl | hs
    · rw [hmem,OrderedSet.mem_insert]
      by_cases he : other=marked
      · exact .inr (.inl he)
      · by_cases hs : other∈seen
        · exact .inr (.inr hs)
        · exact .inl (.inl ⟨hother,he,hs⟩)
    · exact hkept other (h.closed marked hs other hother)
  · intro other hother hs
    rw [hmem] at hother
    rcases OrderedSet.mem_insert.mp hs with rfl | hs
    · rcases hother with ⟨-,hne,-⟩ | ⟨hne,-⟩
      · exact hne rfl
      · exact hne rfl
    · rcases hother with ⟨-,-,hnot⟩ | ⟨-,hstage⟩
      · exact hnot hs
      · exact h.apart other hstage hs
  · intro other hother
    rw [hmem,OrderedSet.mem_insert] at hother
    rcases hother with (⟨hnext,-⟩ | ⟨-,hs⟩) | rfl | hs
    · exact hnodes key (h.nodes key (.inl hkey)) other hnext
    · exact h.nodes other (.inl hs)
    · exact h.nodes other (.inl hkey)
    · exact h.nodes other (.inr hs)

theorem Frontier.seen_iff (h : Frontier next roots nodes stage seen) (hnone : ∀ key, ¬key∈stage)
    (key : κ) :
    key∈seen ↔ ∃ root, roots root ∧ Relation.ReflTransGen (Edge next) root key := by
  constructor
  · exact fun hs => h.sound key (.inr hs)
  · rintro ⟨root,hroot,hpath⟩
    induction hpath with
    | refl => exact (h.roots root hroot).resolve_left (hnone root)
    | tail hpath hedge ih => exact (h.closed _ ih _ hedge).resolve_left (hnone _)

/-- With as many rounds as there are nodes left, a walk marks exactly what can be
reached. -/
theorem mem_walk (hnodes : ∀ key∈nodes, ∀ other∈next key, other∈nodes) {rounds : ℕ}
    (h : Frontier next roots nodes stage seen)
    (hrounds : (nodes.filter (fun key => ¬key∈seen)).card ≤ rounds) (key : κ) :
    key∈walk next rounds stage seen ↔
      ∃ root, roots root ∧ Relation.ReflTransGen (Edge next) root key := by
  induction rounds generalizing stage seen with
  | zero =>
    have hall : ∀ other, ¬other∈stage := by
      intro other hother
      have hm : other∈nodes.filter (fun key => ¬key∈seen) :=
        Finset.mem_filter.mpr ⟨h.nodes other (.inl hother),h.apart other hother⟩
      have hpos := Finset.card_pos.mpr ⟨other,hm⟩
      omega
    exact h.seen_iff hall key
  | succ rounds ih =>
    unfold walk
    cases hitems : stage.items with
    | nil => exact h.seen_iff (OrderedSet.not_mem_of_items_nil hitems) key
    | cons first tail =>
      have hfirst : first∈stage := by
        rw [← OrderedSet.mem_items,hitems]
        exact List.mem_cons_self
      refine ih (h.round hnodes hfirst) ?_
      have hsub : nodes.filter (fun other => ¬other∈seen.insert first) ⊆
          (nodes.filter (fun other => ¬other∈seen)).erase first := by
        intro other hother
        simp only [Finset.mem_filter,OrderedSet.mem_insert,not_or] at hother
        simp only [Finset.mem_erase,Finset.mem_filter]
        exact ⟨hother.2.1,hother.1,hother.2.2⟩
      have hcard := Finset.card_le_card hsub
      have hmem : first∈nodes.filter (fun other => ¬other∈seen) :=
        Finset.mem_filter.mpr ⟨h.nodes first (.inl hfirst),h.apart first hfirst⟩
      have hpos := Finset.card_pos.mpr ⟨first,hmem⟩
      rw [Finset.card_erase_of_mem hmem] at hcard
      omega

/-- A walk stays where the neighbours of its start lead. -/
theorem walk_stays {P : κ → Prop} (hstep : ∀ {key other}, P key → other∈next key → P other)
    {rounds : ℕ} (hstage : ∀ key∈stage, P key) (hseen : ∀ key∈seen, P key) :
    ∀ key∈walk next rounds stage seen, P key := by
  induction rounds generalizing stage seen with
  | zero => exact hseen
  | succ rounds ih =>
    unfold walk
    cases hitems : stage.items with
    | nil => exact hseen
    | cons first tail =>
      have hfirst : P first := hstage first (by
        rw [← OrderedSet.mem_items,hitems]
        exact List.mem_cons_self)
      refine ih ?_ ?_
      · intro key hkey
        rcases OrderedSet.mem_insertAll.mp hkey with hnext | hkept
        · exact hstep hfirst (List.mem_filter.mp hnext).1
        · exact hstage key (OrderedSet.mem_erase.mp hkept).2
      · intro key hkey
        rcases OrderedSet.mem_insert.mp hkey with rfl | hold
        · exact hfirst
        · exact hseen key hold

end Walk

end Pyrk
