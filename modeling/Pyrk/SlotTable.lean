import Mathlib.Data.Fintype.Prod

/-!
# Tables of slots

A table has a number of buckets with a number of slots each, and a slot holds a
value or nothing. A value may be in several slots, which are counted.
-/

namespace Pyrk

open Finset

/-- Slots of a table with the values that are in them. -/
abbrev SlotTable (buckets size : ℕ) (α : Type) := Fin buckets → Fin size → Option α

namespace SlotTable

variable {buckets size : ℕ} {α : Type}

/-- Put a value in a slot, or empty it. -/
def setSlot (table : SlotTable buckets size α) (bucket : Fin buckets) (pos : Fin size)
    (value : Option α) : SlotTable buckets size α :=
  fun other otherPos => if other=bucket ∧ otherPos=pos then value else table other otherPos

@[simp]
theorem setSlot_self (table : SlotTable buckets size α) (bucket : Fin buckets) (pos : Fin size)
    (value : Option α) : table.setSlot bucket pos value bucket pos=value := if_pos ⟨rfl,rfl⟩

theorem setSlot_of_ne (table : SlotTable buckets size α) {bucket other : Fin buckets}
    {pos otherPos : Fin size} (value : Option α) (h : ¬(other=bucket ∧ otherPos=pos)) :
    table.setSlot bucket pos value other otherPos=table other otherPos := if_neg h

/-- Who neither leaves nor takes a slot keeps its own. -/
theorem setSlot_other {table : SlotTable buckets size α} {bucket : Fin buckets} {pos : Fin size}
    {value : Option α} {other : α} (hold : table bucket pos≠some other)
    (hvalue : value≠some other) (otherBucket : Fin buckets) (otherPos : Fin size) :
    table.setSlot bucket pos value otherBucket otherPos=some other ↔
      table otherBucket otherPos=some other := by
  unfold setSlot
  split_ifs with hslot
  · rw [hslot.1,hslot.2]
    exact iff_of_false hvalue hold
  · rfl

variable [DecidableEq α]

/-- Slots with a value. -/
def slots (table : SlotTable buckets size α) (value : α) : Finset (Fin buckets×Fin size) :=
  Finset.univ.filter (fun slot => table slot.1 slot.2=some value)

variable {table : SlotTable buckets size α}

theorem mem_slots {value : α} {slot : Fin buckets×Fin size} :
    slot∈table.slots value ↔ table slot.1 slot.2=some value := by
  rw [slots,mem_filter]
  simp only [mem_univ,true_and]

variable {bucket : Fin buckets} {pos : Fin size}

/-- A cleared slot is one less. -/
theorem slots_setSlot_none {value : α} (h : table bucket pos=some value) :
    ((table.setSlot bucket pos none).slots value).card+1=(table.slots value).card := by
  have hslots : (table.setSlot bucket pos none).slots value=
      (table.slots value).erase (bucket,pos) := by
    ext slot
    rw [mem_slots,mem_erase,mem_slots,setSlot]
    split_ifs with hslot
    · exact iff_of_false nofun (fun hne => hne.1 (Prod.ext hslot.1 hslot.2))
    · exact (and_iff_right (fun heq => hslot ⟨by rw [heq],by rw [heq]⟩)).symm
  rw [hslots,card_erase_add_one (mem_slots.mpr h)]

/-- A free slot that is taken is one more. -/
theorem slots_setSlot_some (h : table bucket pos=none) (value : α) :
    ((table.setSlot bucket pos (some value)).slots value).card=(table.slots value).card+1 := by
  have hslots : (table.setSlot bucket pos (some value)).slots value=
      insert (bucket,pos) (table.slots value) := by
    ext slot
    rw [mem_slots,mem_insert,mem_slots,setSlot]
    split_ifs with hslot
    · exact iff_of_true rfl (.inl (Prod.ext hslot.1 hslot.2))
    · exact (or_iff_right (fun heq => hslot ⟨by rw [heq],by rw [heq]⟩)).symm
  rw [hslots,card_insert_of_notMem (fun hm => by rw [mem_slots,h] at hm; cases hm)]

theorem slots_eq_zero_iff {table : SlotTable buckets size α} {value : α} :
    (table.slots value).card=0 ↔ ∀ bucket pos,table bucket pos≠some value := by
  rw [card_eq_zero,eq_empty_iff_forall_notMem]
  constructor
  · intro h bucket pos hslot
    exact h (bucket,pos) (mem_slots.mpr hslot)
  · intro h slot hslot
    exact h slot.1 slot.2 (mem_slots.mp hslot)

theorem slots_pos {value : α} (h : table bucket pos=some value) : 0<(table.slots value).card :=
  card_pos.mpr ⟨(bucket,pos),mem_slots.mpr h⟩

variable {table other : SlotTable buckets size α}

theorem slots_card_congr {value otherValue : α}
    (h : ∀ bucket pos,table bucket pos=some value ↔ other bucket pos=some otherValue) :
    (table.slots value).card=(other.slots otherValue).card := by
  refine congrArg Finset.card (Finset.ext (fun slot => ?_))
  rw [mem_slots,mem_slots]
  exact h slot.1 slot.2

theorem slots_card_lt {value otherValue : α}
    (h : ∀ bucket pos,table bucket pos=some value → other bucket pos=some otherValue)
    (hnot : table bucket pos≠some value)
    (hslot : other bucket pos=some otherValue) :
    (table.slots value).card < (other.slots otherValue).card := by
  refine Finset.card_lt_card (Finset.ssubset_iff_subset_ne.mpr ⟨fun slot hm => ?_,fun heq => ?_⟩)
  · exact mem_slots.mpr (h slot.1 slot.2 (mem_slots.mp hm))
  · have hm : (bucket,pos)∈other.slots otherValue := mem_slots.mpr hslot
    rw [←heq] at hm
    exact hnot (mem_slots.mp hm)

/-- There are no more values than slots. -/
theorem length_le_of_slots {table : SlotTable buckets size α} {values : List α}
    (hnodup : values.Nodup) (hslot : ∀ value∈values,∃ bucket pos,table bucket pos=some value) :
    values.length ≤ buckets*size := by
  have hsome : (values.map some).Nodup := hnodup.map (Option.some_injective α)
  have hsubset : (values.map some).toFinset⊆
      Finset.univ.image (fun slot : Fin buckets×Fin size => table slot.1 slot.2) := by
    intro value hm
    obtain ⟨held,hheld,hvalue⟩ := List.mem_map.mp (List.mem_toFinset.mp hm)
    obtain ⟨bucket,pos,hfound⟩ := hslot held hheld
    exact mem_image.mpr ⟨(bucket,pos),mem_univ _,hfound.trans hvalue⟩
  have hcard := (card_le_card hsubset).trans card_image_le
  rwa [List.toFinset_card_of_nodup hsome,List.length_map,card_univ,Fintype.card_prod,
    Fintype.card_fin,Fintype.card_fin] at hcard

end SlotTable

end Pyrk
