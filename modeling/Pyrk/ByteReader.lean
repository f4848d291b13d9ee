import Mathlib.Data.List.Basic

/-!
# Reading values from bytes

A reader takes a value from the front of a byte list, or fails, whatever comes behind the value.
-/

namespace Pyrk.ByteReader

open List

variable {α β : Type}

/-- Code that takes a value from the front of a byte list, or fails. -/
abbrev Reader := StateT (List UInt8) Option

/-- The bytes are read as the value, whatever follows them. -/
def Reads (read : Reader α) (bytes : List UInt8) (value : α) : Prop :=
  ∀ rest, read.run (bytes++rest)=some (value,rest)

def readByte : Reader UInt8
  | [] => none
  | byte::rest => some (byte,rest)

def readBytes (size : ℕ) : Reader (List UInt8) := fun input =>
  if input.length < size then none else some (input.take size,input.drop size)

/-- Take a number of values. -/
def readMany (read : Reader α) : ℕ → Reader (List α)
  | 0 => pure []
  | count+1 => do
    let value ← read
    let values ← readMany read count
    pure (value::values)

theorem reads_pure (value : α) : Reads (pure value) [] value := fun _ => rfl

theorem Reads.bind {read : Reader α} {bytes : List UInt8} {value : α} (h : Reads read bytes value)
    {next : α → Reader β} {tail : List UInt8} {result : β}
    (hnext : Reads (next value) tail result) :
    Reads (read>>=next) (bytes++tail) result := by
  intro rest
  rw [StateT.run_bind,append_assoc,h]
  exact hnext rest

theorem Reads.map {read : Reader α} {bytes : List UInt8} {value : α} (h : Reads read bytes value)
    {next : α → Reader β} {result : β} (hnext : Reads (next value) [] result) :
    Reads (read>>=next) bytes result := by
  have hboth := h.bind hnext
  rwa [append_nil] at hboth

theorem reads_readByte (byte : UInt8) : Reads readByte [byte] byte := fun _ => rfl

theorem reads_readBytes (bytes : List UInt8) : Reads (readBytes bytes.length) bytes bytes := by
  intro rest
  change (if (bytes++rest).length < bytes.length then none else
    some ((bytes++rest).take bytes.length,(bytes++rest).drop bytes.length))=some (bytes,rest)
  rw [if_neg (by rw [length_append]; omega),take_left,drop_left]

theorem reads_readMany {read : Reader α} {write : α → List UInt8} {values : List α}
    (h : ∀ value∈values, Reads read (write value) value) :
    Reads (readMany read values.length) (values.flatMap write) values := by
  induction values with
  | nil => exact reads_pure []
  | cons value values ih =>
    have htail := ih (fun other hm => h other (mem_cons_of_mem _ hm))
    rw [flatMap_cons]
    exact (h value mem_cons_self).bind (htail.map (reads_pure (value::values)))

end Pyrk.ByteReader
