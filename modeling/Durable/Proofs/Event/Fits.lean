import Durable.Event.Basic
import Durable.Text.Utf8
import Durable.Proofs.Time.Millis
import Mathlib.Algebra.Ring.Nat
import Mathlib.Data.List.Forall2

/-!
# Events that can be held

The events that a machine can hold: every number is in the range of its field, and all that the
fields hold fits in memory. Stored forms give such events back.
-/

namespace Durable

namespace Instant

variable {t : Instant} {us : Int}

/-- Whether an instant is a whole number of microseconds, and in no leap second. -/
structure IsWholeMicros (t : Instant) : Prop extends t.IsProper where
  micros : t.nanos % 1000 = 0

theorem IsWholeMicros.ofMicros? (h : t.IsWholeMicros) : Instant.ofMicros? t.micros = some t := by
  obtain ⟨seconds, nanos⟩ := t
  have hnanos : nanos < 1000000000 := h.nanos
  have hmicros : nanos % 1000 = 0 := h.micros
  have hseconds : (Instant.mk seconds nanos).micros / 1000000 = seconds := by
    show (seconds * 1000000 + (nanos : Int) / 1000) / 1000000 = seconds
    omega
  have hrest : ((Instant.mk seconds nanos).micros % 1000000).toNat * 1000 = nanos := by
    show ((seconds * 1000000 + (nanos : Int) / 1000) % 1000000).toNat * 1000 = nanos
    omega
  unfold Instant.ofMicros?
  simp only [hseconds, hrest, if_pos h.seconds]

theorem isWholeMicros_of_ofMicros? (h : ofMicros? us = some t) : t.IsWholeMicros := by
  unfold ofMicros? at h
  simp only at h
  split at h
  · rename_i hrange
    cases h
    refine ⟨⟨?_, hrange⟩, ?_⟩
    · show (us % 1000000).toNat * 1000 < 1000000000
      omega
    · exact Nat.mul_mod_left _ 1000
  · cases h

/-- The microseconds of an instant of the calendar fit sixty-four bits, in a leap second too. -/
theorem fitsInt64_micros (hseconds : secondsInRange t.seconds) (hnanos : t.nanos < 2000000000) :
    fitsInt64 t.micros := by
  rw [secondsInRange_iff] at hseconds
  simp only [fitsInt64, Bool.and_eq_true, decide_eq_true_eq]
  unfold micros
  omega

end Instant

namespace FieldValue

/-- Whether a value has the form of a field, and a number is in its range. -/
inductive Fits : FieldForm → FieldValue → Prop where
  | text (s : String) : Fits .text (.text s)
  | bytes (b : List UInt8) : Fits .bytes (.bytes b)
  | int64 {n : Int} (h : fitsInt64 n) : Fits .int64 (.int n)
  | int32 {n : Int} (h : fitsInt32 n) : Fits .int32 (.int n)
  | optionalText (s : Option String) : Fits .optionalText (.optionalText s)
  | optionalUInt32 {n : Option Nat} (h : ∀ m ∈ n, fitsUInt32 m) :
    Fits .optionalUInt32 (.optionalNat n)
  | flag (b : Bool) : Fits .flag (.flag b)

/-- The number of bytes that a value takes. Numbers take none of their own. -/
def size : FieldValue → Nat
  | text s => (Text.utf8 s).length
  | bytes b => b.length
  | int _ => 0
  | optionalText s => (s.map fun s => (Text.utf8 s).length).getD 0
  | optionalNat _ => 0
  | flag _ => 0

theorem fits_blank (form : FieldForm) : Fits form form.blank := by
  cases form with
  | text => exact .text ""
  | bytes => exact .bytes []
  | int64 => exact .int64 rfl
  | int32 => exact .int32 rfl
  | optionalText => exact .optionalText none
  | optionalUInt32 => exact .optionalUInt32 (fun m hm => nomatch hm)
  | flag => exact .flag false

theorem size_blank (form : FieldForm) : form.blank.size = 0 := by
  cases form with
  | text => simp [FieldForm.blank, size, Text.utf8]
  | _ => rfl

end FieldValue

/-- The number of bytes that values take together. -/
def sizeOf (values : List FieldValue) : Nat :=
  (values.map FieldValue.size).sum

/-- Whether values are those of the fields in their order. -/
def Fit (fields : List Field) (values : List FieldValue) : Prop :=
  List.Forall₂ (fun field value => FieldValue.Fits field.form value) fields values

namespace Attributes

/-- Whether each value fits its field. -/
def Fits (a : Attributes) : Prop :=
  Fit a.kind.fields a.values

/-- Nothing else has the given values. -/
theorem eq_of_ofValues? {kind : EventKind} {values : List FieldValue} {a : Attributes}
    (h : ofValues? kind values = some a) : a.kind = kind ∧ a.values = values := by
  unfold ofValues? at h
  split at h <;> cases h <;> exact ⟨rfl, rfl⟩

end Attributes

/-- The largest number of bytes that anything in memory has. -/
def maxSize : Nat := 0x7fffffffffffffff

namespace Event

/-- Whether every number of an event is in the range of its field. Texts and bytes may be any. -/
structure InRange (e : Event) : Prop where
  eventId : fitsInt64 e.eventId
  version : fitsInt64 e.version
  taskId : fitsInt64 e.taskId
  attributes : e.attributes.Fits

/-- Whether a machine can hold an event. -/
structure Fits (e : Event) : Prop where
  eventId : fitsInt64 e.eventId
  version : fitsInt64 e.version
  taskId : fitsInt64 e.taskId
  attributes : e.attributes.Fits
  size : sizeOf e.attributes.values ≤ maxSize

theorem Fits.inRange {e : Event} (h : e.Fits) : e.InRange :=
  ⟨h.eventId, h.version, h.taskId, h.attributes⟩

end Event

end Durable
