import Pyrk.ByteReader

/-!
# Codecs

A codec reads back what it writes, and it reads nothing else: bytes that are read
as a value are the bytes that are written for it. Codecs of parts make codecs of
what is put together from them.
-/

namespace Pyrk.ByteCodec

open ByteReader List

variable {α β : Type}

/-- A reader and a writer for the values that fit. -/
structure Codec (read : Reader α) (write : α → List UInt8) (Fits : α → Prop) : Prop where
  reads : ∀ value,Fits value → Reads read (write value) value
  writes : ∀ input value rest,read.run input=some (value,rest) →
    Fits value ∧ input=write value++rest

variable {read : Reader α}

theorem run_bind_eq_some {next : α → Reader β} {input rest : List UInt8} {result : β}
    (hrun : (read>>=next).run input=some (result,rest)) :
    ∃ value behind,read.run input=some (value,behind) ∧
      (next value).run behind=some (result,rest) := by
  rw [StateT.run_bind] at hrun
  cases hfirst : read.run input with
  | none =>
    rw [hfirst] at hrun
    cases hrun
  | some found =>
    rw [hfirst] at hrun
    exact ⟨found.1,found.2,rfl,hrun⟩

variable {write : α → List UInt8} {Fits : α → Prop}

theorem Codec.run_iff (codec : Codec read write Fits) {input : List UInt8} {value : α} :
    read.run input=some (value,[]) ↔ Fits value ∧ input=write value := by
  constructor
  · intro hrun
    obtain ⟨hfits,heq⟩ := codec.writes input value [] hrun
    rw [append_nil] at heq
    exact ⟨hfits,heq⟩
  · intro ⟨hfits,heq⟩
    have hread := codec.reads value hfits []
    rw [append_nil] at hread
    rw [heq]
    exact hread

theorem Codec.congr {write other : α → List UInt8} {Fits Same : α → Prop}
    (codec : Codec read write Fits) (hwrite : ∀ value,Fits value → write value=other value)
    (hsame : ∀ value,Fits value ↔ Same value) : Codec read other Same where
  reads := by
    intro value hfits
    have hvalue := (hsame value).mpr hfits
    rw [←hwrite value hvalue]
    exact codec.reads value hvalue
  writes := by
    intro input value rest hrun
    obtain ⟨hfits,heq⟩ := codec.writes input value rest hrun
    rw [←hwrite value hfits]
    exact ⟨(hsame value).mp hfits,heq⟩

theorem codec_pure (known : α) : Codec (pure known) (fun _ => []) (fun value => value=known) where
  reads := by
    intro value hvalue
    rw [hvalue]
    exact reads_pure known
  writes := by
    intro input value rest hrun
    cases hrun
    exact ⟨rfl,rfl⟩

theorem Codec.bind {readFirst : Reader α} {writeFirst : α → List UInt8} {FitsFirst : α → Prop}
    {readNext : α → Reader β} {writeNext : α → β → List UInt8} {FitsNext : α → β → Prop}
    (codecFirst : Codec readFirst writeFirst FitsFirst)
    (codecNext : ∀ part,FitsFirst part → Codec (readNext part) (writeNext part) (FitsNext part))
    (first : β → α)
    (hfirst : ∀ part value,FitsFirst part → FitsNext part value → first value=part) :
    Codec (readFirst>>=readNext)
      (fun value => writeFirst (first value)++writeNext (first value) value)
      (fun value => FitsFirst (first value) ∧ FitsNext (first value) value) where
  reads := fun value hfits => (codecFirst.reads (first value) hfits.1).bind
    ((codecNext (first value) hfits.1).reads value hfits.2)
  writes := by
    intro input value rest hrun
    obtain ⟨part,behind,hpart,hnext⟩ := run_bind_eq_some hrun
    obtain ⟨hfitsFirst,hinput⟩ := codecFirst.writes input part behind hpart
    obtain ⟨hfitsNext,hbehind⟩ := (codecNext part hfitsFirst).writes behind value rest hnext
    rw [hfirst part value hfitsFirst hfitsNext]
    refine ⟨⟨hfitsFirst,hfitsNext⟩,?_⟩
    rw [hinput,hbehind,append_assoc]

theorem Codec.map (codec : Codec read write Fits) (make : α → β) (part : β → α)
    (hpart : ∀ value,Fits value → part (make value)=value) :
    Codec (do let value ← read; pure (make value)) (fun result => write (part result))
      (fun result => Fits (part result) ∧ result=make (part result)) := by
  have hboth := codec.bind (fun value _ => codec_pure (make value)) part (by
    intro value result hfits hres
    rw [hres]
    exact hpart value hfits)
  apply hboth.congr
  · intro result _
    exact append_nil _
  · intro result
    exact Iff.rfl

theorem codec_readMany (codec : Codec read write Fits) (count : ℕ) :
    Codec (readMany read count) (fun values => values.flatMap write)
      (fun values => values.length=count ∧ ∀ value∈values,Fits value) where
  reads := by
    intro values hfits
    have hread := reads_readMany (fun value hvalue => codec.reads value (hfits.2 value hvalue))
    rw [hfits.1] at hread
    exact hread
  writes := by
    induction count with
    | zero =>
      intro input values rest hrun
      cases hrun
      exact ⟨⟨rfl,fun value hvalue => by cases hvalue⟩,rfl⟩
    | succ count ih =>
      intro input values rest hrun
      obtain ⟨value,behind,hvalue,hnext⟩ := run_bind_eq_some hrun
      obtain ⟨others,last,hothers,hend⟩ := run_bind_eq_some hnext
      cases hend
      obtain ⟨hfits,hinput⟩ := codec.writes input value behind hvalue
      obtain ⟨⟨hlen,hall⟩,hbehind⟩ := ih behind others rest hothers
      refine ⟨⟨?_,forall_mem_cons.mpr ⟨hfits,hall⟩⟩,?_⟩
      · rw [length_cons,hlen]
      · rw [hinput,hbehind,flatMap_cons,append_assoc]

theorem codec_readBytes (size : ℕ) :
    Codec (readBytes size) (fun bytes => bytes) (fun bytes => bytes.length=size) where
  reads := by
    intro bytes hsize
    have hread := reads_readBytes bytes
    rw [hsize] at hread
    exact hread
  writes := by
    intro input bytes rest hrun
    change (if input.length < size then none else some (input.take size,input.drop size))=
      some (bytes,rest) at hrun
    split at hrun
    · cases hrun
    case isFalse hlong =>
      cases hrun
      refine ⟨?_,(take_append_drop size input).symm⟩
      rw [length_take]
      omega

end Pyrk.ByteCodec
