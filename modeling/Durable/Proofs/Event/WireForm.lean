import Durable.Event.Encoding
import Durable.Proofs.Event.Fits
import Durable.Proofs.Wire.Message
import Mathlib.Algebra.Order.BigOperators.Group.List
import Mathlib.Algebra.Order.Group.Nat

/-!
# Events read back from the wire

An event that a machine can hold, with a kind that is that of its attributes and a time in whole
microseconds, is read back from its message. Whatever message is read as an event, the event is of
these; so its own message, which may be another, gives it back.
-/

namespace Durable

open Wire

/-! ### One field -/

namespace FieldValue

variable {form : FieldForm} {kind : WireKind} {value : FieldValue} {bytes rest : List UInt8}
variable {tag : Nat}

/-- Whether a value is written behind a key and read back. -/
def ReadsBack (tag : Nat) (form : FieldForm) (value : FieldValue) : Prop :=
  ∃ kind body, value.toWire tag = writeKey tag kind ++ body ∧
    ∀ rest, ofWire? form kind (body ++ rest) = some (value, rest)

theorem readsBack_bytes (hsome : bytes ≠ []) (h : bytes.length < 0x10000000000000000) :
    ReadsBack tag .bytes (.bytes bytes) := by
  refine ⟨.counted, writeVarint bytes.length ++ bytes, ?_, fun rest => ?_⟩
  · rw [FieldValue.toWire, writeCountedUnlessEmpty, if_neg (by simpa using hsome), writeCounted,
      List.append_assoc]
  · rw [ofWire?, readBytes?_counted h, Option.map_some]

theorem readsBack_text {s : String} (hsome : Text.utf8 s ≠ [])
    (h : (Text.utf8 s).length < 0x10000000000000000) : ReadsBack tag .text (.text s) := by
  refine ⟨.counted, writeVarint (Text.utf8 s).length ++ Text.utf8 s, ?_, fun rest => ?_⟩
  · rw [FieldValue.toWire, writeCountedUnlessEmpty, if_neg (by simpa using hsome), writeCounted,
      List.append_assoc]
  · rw [ofWire?, readText?_counted h, Option.map_some]

theorem readsBack_optionalText {s : String} (h : (Text.utf8 s).length < 0x10000000000000000) :
    ReadsBack tag .optionalText (.optionalText (some s)) := by
  refine ⟨.counted, writeVarint (Text.utf8 s).length ++ Text.utf8 s, ?_, fun rest => ?_⟩
  · rw [FieldValue.toWire, writeCounted, List.append_assoc]
  · rw [ofWire?, readText?_counted h, Option.map_some]

theorem readsBack_optionalUInt32 {n : Nat} (h : fitsUInt32 n) :
    ReadsBack tag .optionalUInt32 (.optionalNat (some n)) := by
  refine ⟨.varint, writeVarint (word n), rfl, fun rest => ?_⟩
  rw [ofWire?, readUInt32?_word h, Option.map_some]

theorem readsBack_flag : ReadsBack tag .flag (.flag true) := by
  refine ⟨.varint, writeVarint (word 1), rfl, fun rest => ?_⟩
  rw [ofWire?, readWord?_word, Option.map_some]
  rfl

theorem readsBack_int64 {n : Int} (hn : n ≠ 0) (h : fitsInt64 n) :
    ReadsBack tag .int64 (.int n) := by
  refine ⟨.varint, writeVarint (word n), ?_, fun rest => ?_⟩
  · rw [FieldValue.toWire, writeIntUnlessZero, if_neg hn, writeInt]
  · rw [ofWire?, readInt64?_word h, Option.map_some]

theorem readsBack_int32 {n : Int} (hn : n ≠ 0) (h : fitsInt32 n) :
    ReadsBack tag .int32 (.int n) := by
  refine ⟨.varint, writeVarint (word n), ?_, fun rest => ?_⟩
  · rw [FieldValue.toWire, writeIntUnlessZero, if_neg hn, writeInt]
  · rw [ofWire?, readInt32?_word h, Option.map_some]

theorem eq_empty_of_utf8 {s : String} (h : Text.utf8 s = []) : s = "" := by
  have hs : Text.ofUtf8? [] = some s := h ▸ Text.ofUtf8?_utf8 s
  have hblank : Text.ofUtf8? [] = some "" := by decide
  exact Option.some.inj (hs.symm.trans hblank)

/-- A value is left out when a field that was left out has it, and is else read back. -/
theorem Fits.toWire (h : Fits form value) (hsize : value.size < 0x10000000000000000) (tag : Nat) :
    value.toWire tag = [] ∧ value = form.blank ∨ ReadsBack tag form value := by
  cases h with
  | text s =>
    by_cases hempty : Text.utf8 s = []
    · refine .inl ⟨?_, by rw [eq_empty_of_utf8 hempty, FieldForm.blank]⟩
      rw [FieldValue.toWire, hempty]
      rfl
    · exact .inr (readsBack_text hempty hsize)
  | bytes b =>
    by_cases hempty : b = []
    · subst hempty
      exact .inl ⟨rfl, rfl⟩
    · exact .inr (readsBack_bytes hempty hsize)
  | @int64 n hn =>
    by_cases hzero : n = 0
    · subst hzero
      exact .inl ⟨rfl, rfl⟩
    · exact .inr (readsBack_int64 hzero hn)
  | @int32 n hn =>
    by_cases hzero : n = 0
    · subst hzero
      exact .inl ⟨rfl, rfl⟩
    · exact .inr (readsBack_int32 hzero hn)
  | optionalText s =>
    cases s with
    | none => exact .inl ⟨rfl, rfl⟩
    | some s => exact .inr (readsBack_optionalText hsize)
  | @optionalUInt32 n hn =>
    cases n with
    | none => exact .inl ⟨rfl, rfl⟩
    | some n => exact .inr (readsBack_optionalUInt32 (hn n rfl))
  | flag b =>
    cases b with
    | false => exact .inl ⟨rfl, rfl⟩
    | true => exact .inr readsBack_flag

/-- A field takes no more than its value, a key and a count. -/
theorem length_toWire_le (value : FieldValue) (hsmall : tag < 0x20000000)
    (hsize : value.size < 0x10000000000000000) :
    (value.toWire tag).length ≤ value.size + 15 := by
  have hcounted : ∀ {bytes : List UInt8}, bytes.length < 0x10000000000000000 →
      (writeCountedUnlessEmpty tag bytes).length ≤ bytes.length + 15 := by
    intro bytes hbytes
    unfold writeCountedUnlessEmpty
    split
    · exact Nat.zero_le _
    · exact length_writeCounted_le hsmall hbytes
  cases value with
  | text s => exact hcounted hsize
  | bytes b => exact hcounted hsize
  | int n =>
    rw [FieldValue.toWire, writeIntUnlessZero]
    split
    · exact Nat.zero_le _
    · exact Nat.le_trans (length_writeInt_le hsmall n) (Nat.le_add_left 15 _)
  | optionalText s =>
    cases s with
    | none => exact Nat.zero_le _
    | some s => exact length_writeCounted_le hsmall hsize
  | optionalNat n =>
    cases n with
    | none => exact Nat.zero_le _
    | some n => exact Nat.le_trans (length_writeInt_le hsmall n) (Nat.le_add_left 15 _)
  | flag b =>
    cases b with
    | false => exact Nat.zero_le _
    | true => exact Nat.le_trans (length_writeInt_le hsmall 1) (Nat.le_add_left 15 _)

/-- What is read fits its field, and takes no more bytes than it was read from. -/
theorem fits_of_ofWire? (h : ofWire? form kind bytes = some (value, rest)) :
    Fits form value ∧ value.size + rest.length ≤ bytes.length := by
  cases form with
  | text =>
    obtain ⟨⟨s, behind⟩, hread, heq⟩ := Option.map_eq_some_iff.mp h
    cases heq
    exact ⟨.text s, length_of_readText? hread⟩
  | bytes =>
    obtain ⟨⟨b, behind⟩, hread, heq⟩ := Option.map_eq_some_iff.mp h
    cases heq
    exact ⟨.bytes b, length_of_readBytes? hread⟩
  | int64 =>
    obtain ⟨⟨n, behind⟩, hread, heq⟩ := Option.map_eq_some_iff.mp h
    cases heq
    have hfits := fits_of_readInt64? hread
    exact ⟨.int64 hfits.1, by simpa [size] using hfits.2⟩
  | int32 =>
    obtain ⟨⟨n, behind⟩, hread, heq⟩ := Option.map_eq_some_iff.mp h
    cases heq
    have hfits := fits_of_readInt32? hread
    exact ⟨.int32 hfits.1, by simpa [size] using hfits.2⟩
  | optionalText =>
    obtain ⟨⟨s, behind⟩, hread, heq⟩ := Option.map_eq_some_iff.mp h
    cases heq
    exact ⟨.optionalText (some s), length_of_readText? hread⟩
  | optionalUInt32 =>
    obtain ⟨⟨n, behind⟩, hread, heq⟩ := Option.map_eq_some_iff.mp h
    cases heq
    have hfits := fits_of_readUInt32? hread
    refine ⟨.optionalUInt32 (fun m hm => ?_), by simpa [size] using hfits.2⟩
    cases hm
    exact hfits.1
  | flag =>
    obtain ⟨⟨n, behind⟩, hread, heq⟩ := Option.map_eq_some_iff.mp h
    cases heq
    have hlength := length_of_readWord? hread
    exact ⟨.flag _, by simpa [size] using hlength⟩

end FieldValue

/-! ### Attributes -/

theorem EventKind.fields_tags (kind : EventKind) :
    (kind.fields.map (·.tag)).Nodup ∧ ∀ field ∈ kind.fields, 0 < field.tag ∧ field.tag < 7 := by
  cases kind <;> decide

theorem EventKind.wireTag_bounds (kind : EventKind) : 9 < kind.wireTag ∧ kind.wireTag < 29 := by
  cases kind <;> decide

theorem EventKind.find?_wireTag (kind : EventKind) :
    EventKind.all.find? (·.wireTag = kind.wireTag) = some kind := by
  cases kind <;> rfl

theorem EventKind.ofCode?_code (kind : EventKind) : EventKind.ofCode? kind.code = some kind := by
  cases kind <;> rfl

namespace Attributes

variable {kind : EventKind} {values : List FieldValue}

/-- The fields behind others are put in their places, which held what was left out. -/
theorem reads_fields {before fields : List Field} {done : List FieldValue}
    (hkind : kind.fields = before ++ fields) (hdone : done.length = before.length)
    (hfit : Fit fields values) (hsize : ∀ value ∈ values, value.size < 0x10000000000000000) :
    Reads (wireStep kind)
      ((fields.zip values).map fun (field, value) => value.toWire field.tag).flatten
      (done ++ fields.map (·.form.blank)) (done ++ values) := by
  induction hfit generalizing before done with
  | nil => exact Reads.nil
  | @cons field value fields values hvalue hrest ih =>
    obtain ⟨hnodup, htags⟩ := kind.fields_tags
    rw [hkind] at hnodup htags
    have hfresh : ∀ other ∈ before, ¬ other.tag = field.tag := by
      intro other hother heq
      rw [List.map_append, List.nodup_append] at hnodup
      exact hnodup.2.2 other.tag (List.mem_map_of_mem hother) field.tag
        (List.mem_map_of_mem List.mem_cons_self) heq
    have hfind : kind.fields.findIdx? (·.tag = field.tag) = some before.length := by
      rw [hkind, List.findIdx?_append, List.findIdx?_eq_none_iff.mpr (by simpa using hfresh)]
      simp [List.findIdx?_cons]
    have hget : kind.fields[before.length]? = some field := by
      rw [hkind]
      simp
    have hset : ∀ held after, (done ++ held :: after).set before.length value
        = done ++ value :: after := by
      intro held after
      rw [← hdone]
      simp
    have htail := @ih (before ++ [field]) (done ++ [value]) (by simp [hkind]) (by simp [hdone])
      (fun other hother => hsize other (List.mem_cons_of_mem _ hother))
    rw [List.append_assoc, List.append_assoc] at htail
    simp only [List.zip_cons_cons, List.map_cons, List.flatten_cons]
    obtain ⟨hnone, hblank⟩ | ⟨form, body, hbytes, hback⟩ :=
      hvalue.toWire (hsize value List.mem_cons_self) field.tag
    · rw [hnone, List.nil_append, ← hblank]
      exact htail
    · obtain ⟨hpos, hsmall⟩ := htags field (by simp)
      rw [hbytes]
      refine Reads.field hpos (Nat.lt_trans hsmall (by decide)) ?_ htail
      simp only [wireStep, hfind, hget, Option.bind_eq_bind, Option.bind_some, hback, hset,
        Option.pure_def]
      rfl

theorem sizeOf_set_le (values : List FieldValue) (i : Nat) (value : FieldValue) :
    sizeOf (values.set i value) ≤ sizeOf values + value.size := by
  induction values generalizing i with
  | nil => exact Nat.zero_le _
  | cons held values ih =>
    cases i with
    | zero =>
      show value.size + sizeOf values ≤ held.size + sizeOf values + value.size
      omega
    | succ i =>
      have hrest := ih i
      show held.size + sizeOf (values.set i value) ≤ held.size + sizeOf values + value.size
      omega

theorem fit_set {fields : List Field} {i : Nat} {field : Field} {value : FieldValue}
    (hfit : Fit fields values) (hfield : fields[i]? = some field)
    (hvalue : FieldValue.Fits field.form value) : Fit fields (values.set i value) := by
  induction hfit generalizing i with
  | nil => cases hfield
  | @cons first held fields values hheld hrest ih =>
    cases i with
    | zero =>
      cases hfield
      exact .cons hvalue hrest
    | succ i => exact .cons hheld (ih hfield)

/-- The values of a field that was left out are of its form and take nothing. -/
theorem fit_blanks (fields : List Field) : Fit fields (fields.map (·.form.blank)) := by
  induction fields with
  | nil => exact .nil
  | cons field fields ih => exact .cons (FieldValue.fits_blank field.form) ih

theorem sizeOf_blanks (fields : List Field) : sizeOf (fields.map (·.form.blank)) = 0 := by
  induction fields with
  | nil => rfl
  | cons field fields ih =>
    show field.form.blank.size + sizeOf (fields.map (·.form.blank)) = 0
    rw [FieldValue.size_blank, ih]

/-- Merging keeps values of the fields' forms, and takes no more bytes than there are. -/
theorem fits_of_mergeWire? {bytes : List UInt8} {merged : List FieldValue}
    (h : mergeWire? kind values bytes = some merged) (hfit : Fit kind.fields values) :
    Fit kind.fields merged ∧ sizeOf merged ≤ sizeOf values + bytes.length := by
  have hkept := foldFields?_induct
    (P := fun rest held => Fit kind.fields held ∧
      sizeOf held + rest.length ≤ sizeOf values + bytes.length)
    (fun {before tag form behind after held next} hkey hstep ⟨hheld, hroom⟩ => by
      have hlength := length_of_readKey? hkey
      unfold wireStep at hstep
      split at hstep
      · rename_i i hfind
        simp only [Option.bind_eq_bind, Option.bind_eq_some_iff] at hstep
        obtain ⟨field, hfield, ⟨value, rest⟩, hvalue, heq⟩ := hstep
        cases heq
        obtain ⟨hfits, htaken⟩ := FieldValue.fits_of_ofWire? hvalue
        have hset := sizeOf_set_le held i value
        refine ⟨fit_set hheld hfield hfits, ?_⟩
        show sizeOf (held.set i value) + rest.length ≤ _
        omega
      · obtain ⟨rest, hskip, heq⟩ := Option.map_eq_some_iff.mp hstep
        cases heq
        have hskipped := length_of_skipField? hskip
        refine ⟨hheld, ?_⟩
        show sizeOf held + after.length ≤ _
        omega)
    h ⟨hfit, Nat.le_refl _⟩
  exact ⟨hkept.1, hkept.2⟩

/-- The fields of a message take no more than their values, a key and a count each. -/
theorem length_fields_le {fields : List Field} (hfit : Fit fields values)
    (htags : ∀ field ∈ fields, field.tag < 0x20000000)
    (hsize : ∀ value ∈ values, value.size < 0x10000000000000000) :
    ((fields.zip values).map fun (field, value) => value.toWire field.tag).flatten.length
      ≤ sizeOf values + 15 * fields.length := by
  induction hfit with
  | nil => exact Nat.le_refl 0
  | @cons field value fields values hvalue hrest ih =>
    have htail := ih (fun other hother => htags other (List.mem_cons_of_mem _ hother))
      (fun other hother => hsize other (List.mem_cons_of_mem _ hother))
    have hhead := value.length_toWire_le (htags field List.mem_cons_self)
      (hsize value List.mem_cons_self)
    rw [List.zip_cons_cons, List.map_cons, List.flatten_cons, List.length_append,
      List.length_cons]
    show (value.toWire field.tag).length + _ ≤ value.size + sizeOf values + _
    omega

theorem size_le_of_mem {value : FieldValue} (h : value ∈ values) : value.size ≤ sizeOf values :=
  List.single_le_sum (fun _ _ => Nat.zero_le _) _ (List.mem_map_of_mem h)

/-- The attributes of an event are merged into fresh ones. -/
theorem mergeWire?_toWire {a : Attributes} (hfit : a.Fits) (hsize : sizeOf a.values ≤ maxSize) :
    a.toWire.length < 0x10000000000000000 ∧
      mergeWire? a.kind (a.kind.fields.map (·.form.blank)) a.toWire = some a.values := by
  have hsmall : ∀ value ∈ a.values, value.size < 0x10000000000000000 := fun value hvalue =>
    Nat.lt_of_le_of_lt (Nat.le_trans (size_le_of_mem hvalue) hsize) (by decide)
  refine ⟨?_, ?_⟩
  · have hlength : a.toWire.length ≤ _ := length_fields_le hfit
      (fun field hfield => Nat.lt_trans (a.kind.fields_tags.2 field hfield).2 (by decide)) hsmall
    have hcount : a.kind.fields.length ≤ 6 := by
      cases a.kind <;> decide
    unfold maxSize at hsize
    omega
  · have hreads := @reads_fields a.kind a.values [] a.kind.fields [] rfl rfl hfit hsmall
    exact hreads.foldMessage?

end Attributes

/-! ### The event -/

namespace Event

variable {e : Event} {bytes : List UInt8}

theorem Envelope.step_wireTag (envelope : Envelope) {envelope' : Envelope} {kind : EventKind}
    (hmerge : envelope.merge? kind bytes = some envelope')
    (hsize : bytes.length < 0x10000000000000000) (rest : List UInt8) :
    Envelope.step kind.wireTag .counted (writeVarint bytes.length ++ bytes ++ rest) envelope
      = some (envelope', rest) := by
  have hbounds := kind.wireTag_bounds
  unfold Envelope.step
  rw [if_neg (by omega), if_neg (by omega), if_neg (by omega), if_neg (by omega),
    if_neg (by omega)]
  simp only [kind.find?_wireTag, readBytes?_counted hsize, Option.bind_eq_bind, Option.bind_some,
    hmerge, Option.pure_def]

/-- An event's message is read into an envelope of all that it holds, whatever kind it declares. -/
theorem Fits.foldMessage?_toWire (h : e.Fits) (htime : fitsInt64 e.timestamp.micros) :
    foldMessage? Envelope.step e.toWire {} =
      some ⟨e.eventId, e.kind.code, e.timestamp.micros, e.version, e.taskId,
        some (e.attributes.kind, e.attributes.values)⟩ := by
  obtain ⟨eventId, kind, timestamp, version, taskId, attributes⟩ := e
  have hattributes : attributes.Fits := h.attributes
  have hroom : sizeOf attributes.values ≤ maxSize := h.size
  obtain ⟨hlength, hmerge⟩ := Attributes.mergeWire?_toWire hattributes hroom
  have hcode : fitsInt32 kind.code := by
    cases kind <;> rfl
  have hreads : Reads Envelope.step
      (toWire ⟨eventId, kind, timestamp, version, taskId, attributes⟩) {}
      ⟨eventId, kind.code, timestamp.micros, version, taskId,
        some (attributes.kind, attributes.values)⟩ := by
    unfold toWire
    simp only [List.append_assoc]
    refine Reads.int ⟨eventId, 0, 0, 0, 0, none⟩ (by decide) (by decide)
      (fun hzero => by rw [hzero])
      (fun rest => by simp [Envelope.step, readInt64?_word h.eventId]) ?_
    refine Reads.int ⟨eventId, kind.code, 0, 0, 0, none⟩ (by decide) (by decide)
      (fun hzero => by rw [hzero])
      (fun rest => by simp [Envelope.step, readInt32?_word hcode]) ?_
    refine Reads.int ⟨eventId, kind.code, timestamp.micros, 0, 0, none⟩
      (by decide) (by decide) (fun hzero => by rw [hzero])
      (fun rest => by simp [Envelope.step, readInt64?_word htime]) ?_
    refine Reads.int ⟨eventId, kind.code, timestamp.micros, version, 0, none⟩
      (by decide) (by decide) (fun hzero => by rw [hzero])
      (fun rest => by simp [Envelope.step, readInt64?_word h.version]) ?_
    refine Reads.int ⟨eventId, kind.code, timestamp.micros, version, taskId, none⟩
      (by decide) (by decide) (fun hzero => by rw [hzero])
      (fun rest => by simp [Envelope.step, readInt64?_word h.taskId]) ?_
    have hbounds := attributes.kind.wireTag_bounds
    have hstep := Envelope.step_wireTag ⟨eventId, kind.code, timestamp.micros, version,
      taskId, none⟩ (by rw [Envelope.merge?, hmerge, Option.map_some])
      hlength []
    have hfield := Reads.field (by omega) (by omega) hstep Reads.nil
    rw [List.append_nil, ← List.append_assoc] at hfield
    exact hfield
  exact hreads.foldMessage?

/-- An event is read back from its message. -/
theorem Fits.ofWire_toWire (h : e.Fits) (hkind : e.isConsistent)
    (htime : e.timestamp.IsWholeMicros) : ofWire e.toWire = .ok e := by
  have hkind : e.kind = e.attributes.kind := of_decide_eq_true hkind
  have hmicros := Instant.fitsInt64_micros htime.seconds (Nat.lt_trans htime.nanos (by decide))
  unfold ofWire
  rw [h.foldMessage?_toWire hmicros]
  simp only [ofEnvelope, EventKind.ofCode?_code, Option.bind_some, Attributes.ofValues?_values,
    hkind, htime.ofMicros?, ne_eq, not_true_eq_false, if_false]
  rw [← hkind]

/-- The number of bytes that the attributes in an envelope take. -/
def Envelope.size (envelope : Envelope) : Nat :=
  (envelope.attributes.map fun (_, values) => sizeOf values).getD 0

/-- Whether all that was read into an envelope fits its fields. -/
structure Envelope.Fits (envelope : Envelope) : Prop where
  eventId : fitsInt64 envelope.eventId
  version : fitsInt64 envelope.version
  taskId : fitsInt64 envelope.taskId
  attributes : ∀ entry ∈ envelope.attributes, Fit entry.1.fields entry.2

/-- Attributes merged into an envelope take no more than they were read from. -/
theorem Envelope.Fits.merge? {envelope envelope' : Envelope} {kind : EventKind}
    (hfits : envelope.Fits) (h : envelope.merge? kind bytes = some envelope') :
    envelope'.Fits ∧ envelope'.size ≤ envelope.size + bytes.length := by
  obtain ⟨values, hmerge, rfl⟩ := Option.map_eq_some_iff.mp h
  have hblanks := Attributes.fit_blanks kind.fields
  have hzero := Attributes.sizeOf_blanks kind.fields
  have hmerged : Fit kind.fields values ∧ sizeOf values ≤ envelope.size + bytes.length := by
    split at hmerge
    · rename_i held before hheld
      have hsize : envelope.size = sizeOf before := by
        rw [Envelope.size, hheld]
        rfl
      split at hmerge
      · rename_i hkind
        rw [hsize, ← hkind]
        rw [← hkind] at hmerge
        exact Attributes.fits_of_mergeWire? hmerge (hfits.attributes _ hheld)
      · obtain ⟨hvalues, htaken⟩ := Attributes.fits_of_mergeWire? hmerge hblanks
        exact ⟨hvalues, by omega⟩
    · obtain ⟨hvalues, htaken⟩ := Attributes.fits_of_mergeWire? hmerge hblanks
      exact ⟨hvalues, by omega⟩
  refine ⟨⟨hfits.eventId, hfits.version, hfits.taskId, fun entry hentry => ?_⟩, hmerged.2⟩
  cases hentry
  exact hmerged.1

/-- One more field is read into an envelope. -/
theorem Envelope.Fits.step {envelope envelope' : Envelope} {tag : Nat} {kind : WireKind}
    {rest : List UInt8} (hfits : envelope.Fits)
    (h : Envelope.step tag kind bytes envelope = some (envelope', rest)) :
    envelope'.Fits ∧ envelope'.size + rest.length ≤ envelope.size + bytes.length := by
  obtain ⟨hevent, hversion, htask, hattributes⟩ := hfits
  unfold Envelope.step at h
  split at h
  · obtain ⟨⟨n, behind⟩, hread, heq⟩ := Option.map_eq_some_iff.mp h
    cases heq
    obtain ⟨hn, hlength⟩ := fits_of_readInt64? hread
    exact ⟨⟨hn, hversion, htask, hattributes⟩, Nat.add_le_add_left hlength _⟩
  split at h
  · obtain ⟨⟨n, behind⟩, hread, heq⟩ := Option.map_eq_some_iff.mp h
    cases heq
    obtain ⟨-, hlength⟩ := fits_of_readInt32? hread
    exact ⟨⟨hevent, hversion, htask, hattributes⟩, Nat.add_le_add_left hlength _⟩
  split at h
  · obtain ⟨⟨n, behind⟩, hread, heq⟩ := Option.map_eq_some_iff.mp h
    cases heq
    obtain ⟨-, hlength⟩ := fits_of_readInt64? hread
    exact ⟨⟨hevent, hversion, htask, hattributes⟩, Nat.add_le_add_left hlength _⟩
  split at h
  · obtain ⟨⟨n, behind⟩, hread, heq⟩ := Option.map_eq_some_iff.mp h
    cases heq
    obtain ⟨hn, hlength⟩ := fits_of_readInt64? hread
    exact ⟨⟨hevent, hn, htask, hattributes⟩, Nat.add_le_add_left hlength _⟩
  split at h
  · obtain ⟨⟨n, behind⟩, hread, heq⟩ := Option.map_eq_some_iff.mp h
    cases heq
    obtain ⟨hn, hlength⟩ := fits_of_readInt64? hread
    exact ⟨⟨hevent, hversion, hn, hattributes⟩, Nat.add_le_add_left hlength _⟩
  split at h
  · simp only [Option.bind_eq_bind, Option.bind_eq_some_iff] at h
    obtain ⟨⟨inner, behind⟩, hread, merged, hmerge, heq⟩ := h
    cases heq
    have hlength := length_of_readBytes? hread
    obtain ⟨hmerged, htaken⟩ :=
      Envelope.Fits.merge? ⟨hevent, hversion, htask, hattributes⟩ hmerge
    have htaken : envelope'.size ≤ envelope.size + inner.length := htaken
    refine ⟨hmerged, ?_⟩
    show envelope'.size + behind.length ≤ envelope.size + bytes.length
    omega
  · obtain ⟨behind, hskip, heq⟩ := Option.map_eq_some_iff.mp h
    cases heq
    have hlength := length_of_skipField? hskip
    exact ⟨⟨hevent, hversion, htask, hattributes⟩, Nat.add_le_add_left hlength _⟩

/-- The event of an envelope is of the kind of its attributes and at a whole microsecond. -/
theorem Envelope.Fits.ofEnvelope {envelope : Envelope} (hfits : envelope.Fits)
    (hsize : envelope.size ≤ maxSize) (h : ofEnvelope envelope = .ok e) :
    e.Fits ∧ e.isConsistent ∧ e.timestamp.IsWholeMicros := by
  unfold Event.ofEnvelope at h
  split at h
  · cases h
  rename_i kind hcode
  split at h
  · cases h
  rename_i attributes hattributes
  split at h
  · cases h
  rename_i hkind
  split at h
  · cases h
  rename_i timestamp htime
  cases h
  obtain ⟨⟨held, values⟩, hentry, hvalues⟩ := Option.bind_eq_some_iff.mp hattributes
  obtain ⟨hheld, hsame⟩ := Attributes.eq_of_ofValues? hvalues
  have hfit : Fit held.fields values := hfits.attributes _ hentry
  have htaken : sizeOf values ≤ maxSize := by
    rw [Envelope.size, hentry] at hsize
    exact hsize
  refine ⟨⟨hfits.eventId, hfits.version, hfits.taskId, ?_, ?_⟩, ?_,
    Instant.isWholeMicros_of_ofMicros? htime⟩
  · show Fit attributes.kind.fields attributes.values
    rw [hheld, hsame]
    exact hfit
  · show sizeOf attributes.values ≤ maxSize
    rw [hsame]
    exact htaken
  · exact decide_eq_true (Decidable.not_not.mp hkind).symm

theorem fits_of_ofWire (hsize : bytes.length ≤ maxSize) (h : ofWire bytes = .ok e) :
    e.Fits ∧ e.isConsistent ∧ e.timestamp.IsWholeMicros := by
  unfold ofWire at h
  split at h
  · cases h
  rename_i envelope hfold
  have hread := foldFields?_induct
    (P := fun rest (envelope : Envelope) => envelope.Fits ∧
      envelope.size + rest.length ≤ bytes.length)
    (fun {before tag kind behind after held next} hkey hstep ⟨hheld, hroom⟩ => by
      have hlength := length_of_readKey? hkey
      obtain ⟨hnext, htaken⟩ := hheld.step hstep
      exact ⟨hnext, by omega⟩)
    hfold ⟨⟨rfl, rfl, rfl, fun entry hentry => nomatch hentry⟩, Nat.le_of_eq (Nat.zero_add _)⟩
  exact hread.1.ofEnvelope (Nat.le_trans hread.2 hsize) h

/-- The wire form of events loses nothing. An event that a machine can hold, of the kind of its
    attributes and at a whole microsecond, is read back from its message. Whatever bytes are read
    as an event, the event is such a one, and the message that it is stored as gives it back. -/
theorem read_back_from_the_wire :
    (∀ e : Event, e.Fits → e.isConsistent → e.timestamp.IsWholeMicros →
      Encoding.proto.decode (Encoding.proto.encode e) = .ok e) ∧
    ∀ (bytes : List UInt8) (e : Event), bytes.length ≤ maxSize →
      Encoding.proto.decode bytes = .ok e →
        e.Fits ∧ e.isConsistent ∧ e.timestamp.IsWholeMicros ∧
          Encoding.proto.decode (Encoding.proto.encode e) = .ok e := by
  refine ⟨fun e hfits hkind htime => hfits.ofWire_toWire hkind htime, fun bytes e hsize hread => ?_⟩
  obtain ⟨hfits, hkind, htime⟩ := fits_of_ofWire hsize hread
  exact ⟨hfits, hkind, htime, hfits.ofWire_toWire hkind htime⟩

/-- The fields may stand in any order, come twice and have unknown ones between them. -/
theorem a_marker_is_read_back :
    let bytes : List UInt8 :=
      [160, 6, 128, 0, 210, 1, 2, 18, 0, 40, 7, 16, 1, 210, 1, 8, 10, 2, 195, 188, 18, 2, 0, 255,
        16, 17, 24, 255, 255, 255, 255, 255, 255, 255, 255, 255, 1, 8, 254, 255, 255, 255, 255, 255,
        255, 255, 255, 1]
    let e : Event :=
      ⟨-2, .markerRecorded, ⟨-1, 999999000⟩, 0, 7, .markerRecorded ⟨"ü", [0, 255]⟩⟩
    e.Fits ∧ e.isConsistent ∧ e.timestamp.IsWholeMicros ∧ bytes.length ≤ maxSize ∧
      Encoding.proto.decode bytes = .ok e ∧ Encoding.proto.encode e ≠ bytes ∧
      Encoding.proto.decode (Encoding.proto.encode e) = .ok e := by
  intro bytes e
  have hread : Encoding.proto.decode bytes = .ok e := by decide +kernel
  have hsize : bytes.length ≤ maxSize := by decide
  obtain ⟨hfits, hkind, htime, -⟩ := read_back_from_the_wire.2 bytes e hsize hread
  exact ⟨hfits, hkind, htime, hsize, hread, by decide +kernel,
    read_back_from_the_wire.1 e hfits hkind htime⟩

end Event

end Durable
