import Durable.Proofs.Event.Fits
import Durable.Proofs.Json.Records
import Durable.Proofs.Text.Base64
import Durable.Proofs.Time.Rfc3339
import Durable.Event.Encoding

/-!
# Events read back from JSON

An event with its numbers in range, a kind that is that of its attributes and a time on the
calendar, is read from its JSON text at the time that the text stands for. That is its own time but
for a leap second within a minute. Whatever text is read as an event, the event is in no such leap
second; so its own text, which may be another, gives it back.
-/

namespace Durable

open Json

/-! ### Times -/

namespace Instant

variable {t : Instant}

/-- A time is read as it was written. -/
theorem IsOnCalendar.ofJson?_toJson (h : t.IsOnCalendar) :
    Instant.ofJson? t.toJson = some t.asWritten := by
  rw [Instant.ofJson?, Instant.toJson, text?_text, Option.bind_some, Time.Rfc3339.read?_write h]

theorem IsValid.ofJson?_toJson (h : t.IsValid) : Instant.ofJson? t.toJson = some t := by
  rw [h.isOnCalendar.ofJson?_toJson, h.asWritten_eq]

@[simp] theorem written_toJson (t : Instant) : Written t.toJson :=
  .text _

/-- What is read as a time is on the calendar. -/
theorem isValid_of_ofJson? {j : Json} (h : Instant.ofJson? j = some t) : t.IsValid := by
  obtain ⟨text, -, hread⟩ := Option.bind_eq_some_iff.mp h
  exact Time.Rfc3339.isValid_of_read? hread

end Instant

/-! ### Attributes -/

namespace FieldValue

variable {form : FieldForm} {value : FieldValue}

@[simp] theorem written_toJson (value : FieldValue) : Written value.toJson := by
  cases value with
  | text s => exact .text s
  | bytes b => exact .textBytes _
  | int n => exact .int n
  | optionalText s => exact .opt .text s
  | optionalNat n => exact .opt .nat n
  | flag b => exact .bool b

/-- A value is read back. -/
theorem Fits.ofJson?_toJson (h : Fits form value) : ofJson? form value.toJson = some value := by
  cases h with
  | text s => rw [toJson, ofJson?, text?_text, Option.map_some]
  | bytes b =>
    obtain ⟨s, hs⟩ := Text.exists_utf8_of_ascii (Text.Base64.encode_ascii b)
    have htext : (Json.textBytes (Text.Base64.encode b)).text? = some s := by
      rw [← hs]
      exact text?_text s
    rw [toJson, ofJson?, htext, Option.bind_some, hs, Text.Base64.decode?_encode, Option.map_some]
  | int64 hn => rw [toJson, ofJson?, int64?_int hn, Option.map_some]
  | int32 hn => rw [toJson, ofJson?, int32?_int hn, Option.map_some]
  | optionalText s =>
    rw [toJson, ofJson?, opt?_opt text_ne_null (fun s _ => text?_text s), Option.map_some]
  | optionalUInt32 hn =>
    rw [toJson, ofJson?, opt?_opt nat_ne_null (fun n hmem => uint32?_nat (hn n hmem)),
      Option.map_some]
  | flag b => rfl

/-- A value is no deeper than its text. -/
theorem Fits.plain_toJson (h : Fits form value) (depth : Nat) : value.toJson.plain depth := by
  cases h with
  | text s => exact plain_text s
  | bytes b =>
    obtain ⟨s, hs⟩ := Text.exists_utf8_of_ascii (Text.Base64.encode_ascii b)
    exact plain_textBytes hs
  | int64 hn => exact plain_int hn
  | int32 hn =>
    simp only [fitsInt32, Bool.and_eq_true, decide_eq_true_eq] at hn
    exact plain_int (by simp only [fitsInt64, Bool.and_eq_true, decide_eq_true_eq]; omega)
  | optionalText s => exact plain_opt fun s _ => plain_text s
  | @optionalUInt32 n hn =>
    refine plain_opt fun m hm => ?_
    have hfits := hn m hm
    simp only [fitsUInt32, Bool.and_eq_true, decide_eq_true_eq] at hfits
    rw [nat_eq_int]
    exact plain_int (by simp only [fitsInt64, Bool.and_eq_true, decide_eq_true_eq]; omega)
  | flag b => rw [toJson, Json.plain]

/-- What is read as the value of a field fits it. -/
theorem fits_of_ofJson? {j : Json} (h : ofJson? form j = some value) : Fits form value := by
  cases form with
  | text =>
    obtain ⟨s, -, rfl⟩ := Option.map_eq_some_iff.mp h
    exact .text s
  | bytes =>
    obtain ⟨b, -, rfl⟩ := Option.map_eq_some_iff.mp h
    exact .bytes b
  | int64 =>
    obtain ⟨n, hn, rfl⟩ := Option.map_eq_some_iff.mp h
    exact .int64 (fits_of_int64? hn)
  | int32 =>
    obtain ⟨n, hn, rfl⟩ := Option.map_eq_some_iff.mp h
    exact .int32 (fits_of_int32? hn)
  | optionalText =>
    obtain ⟨s, -, rfl⟩ := Option.map_eq_some_iff.mp h
    exact .optionalText s
  | optionalUInt32 =>
    obtain ⟨n, hn, rfl⟩ := Option.map_eq_some_iff.mp h
    exact .optionalUInt32 fun m hm => fits_of_uint32? (exists_of_opt? hn m hm)
  | flag =>
    obtain ⟨b, -, rfl⟩ := Option.map_eq_some_iff.mp h
    exact .flag b

theorem fits_of_ofSlot? {field : Field} {slot : Option Json} (h : field.ofSlot? slot = some value) :
    Fits field.form value := by
  cases slot with
  | some j => exact fits_of_ofJson? h
  | none =>
    obtain ⟨-, hblank⟩ := Option.ite_none_right_eq_some.mp h
    cases hblank
    exact fits_blank field.form

end FieldValue

theorem EventKind.names_nodup (kind : EventKind) : (kind.fields.map (·.name)).Nodup := by
  cases kind <;> decide

theorem EventKind.mem_all (kind : EventKind) : kind ∈ EventKind.all := by
  cases kind <;> decide

/-- What can be told of each kind can be told of all. -/
instance EventKind.decidableForall {P : EventKind → Prop} [DecidablePred P] :
    Decidable (∀ kind, P kind) :=
  decidable_of_iff (∀ kind ∈ EventKind.all, P kind)
    ⟨fun h kind => h kind kind.mem_all, fun h kind _ => h kind⟩

/-- Fields of one name have one form, whatever kinds they are of. -/
theorem EventKind.form_of_name {kind kind' : EventKind} {field other : Field}
    (hfield : field ∈ kind.fields) (hother : other ∈ kind'.fields)
    (hname : other.name = field.name) : other.form = field.form := by
  have hall : ∀ kind kind' : EventKind, ∀ field ∈ kind.fields, ∀ other ∈ kind'.fields,
      other.name = field.name → other.form = field.form := by
    decide +kernel
  exact hall kind kind' field hfield other hother hname

namespace Attributes

variable {a : Attributes}

/-- The members of the attributes' object, before they are sorted. -/
def members (a : Attributes) : List (String × Json) :=
  (a.kind.fields.map (·.name)).zip (a.values.map FieldValue.toJson)

theorem members_eq (a : Attributes) : a.members =
    (a.kind.fields.zip a.values).map fun entry => (entry.1.name, entry.2.toJson) :=
  List.zip_map

theorem toJson_eq (a : Attributes) :
    a.toJson = .record (a.members.mergeSort fun m n => m.1 ≤ n.1) :=
  rfl

theorem map_fst_entries (a : Attributes) :
    (a.kind.fields.zip a.values).map Prod.fst = a.kind.fields :=
  List.map_fst_zip (by simp)

theorem map_name_entries (a : Attributes) :
    (a.kind.fields.zip a.values).map (·.1.name) = a.kind.fields.map (·.name) := by
  have hnames := congrArg (List.map (·.name)) a.map_fst_entries
  rw [List.map_map] at hnames
  exact hnames

theorem exists_entry_of_mem_toJson {m : String × Json}
    (h : m ∈ a.members.mergeSort fun m n => m.1 ≤ n.1) :
    ∃ entry ∈ a.kind.fields.zip a.values, m.2 = entry.2.toJson := by
  rw [List.mem_mergeSort, members_eq] at h
  obtain ⟨entry, hentry, rfl⟩ := List.mem_map.mp h
  exact ⟨entry, hentry, rfl⟩

@[simp] theorem written_toJson (a : Attributes) : Written a.toJson := by
  rw [toJson_eq]
  refine .record fun m hm => ?_
  obtain ⟨entry, -, heq⟩ := exists_entry_of_mem_toJson hm
  rw [heq]
  exact entry.2.written_toJson

theorem Fits.entry (h : a.Fits) {entry : Field × FieldValue}
    (hentry : entry ∈ a.kind.fields.zip a.values) : FieldValue.Fits entry.1.form entry.2 :=
  (List.forall₂_iff_zip.mp h).2 hentry

theorem Fits.plain_toJson (h : a.Fits) : a.toJson.plain maxDepth := by
  rw [toJson_eq]
  refine plain_record fun m hm => ?_
  obtain ⟨entry, hentry, heq⟩ := exists_entry_of_mem_toJson hm
  rw [heq]
  exact (h.entry hentry).plain_toJson _

/-- The value that attributes have for a field, found by its name: when there is none, and the field
    may miss, the value of a field that was left out. -/
def valueFor? (a : Attributes) (field : Field) : Option FieldValue :=
  match (a.kind.fields.zip a.values).find? fun entry => entry.1.name = field.name with
  | some (_, value) => some value
  | none => if field.mayMiss then some field.form.blank else none

/-- The attributes of a kind that have the values which others have for its fields. -/
def recast? (a : Attributes) (kind : EventKind) : Option Attributes :=
  (kind.fields.mapM a.valueFor?).bind (ofValues? kind)

/-- Attributes are what they have for the fields of their own kind. -/
theorem recast?_kind (a : Attributes) : a.recast? a.kind = some a := by
  have hdistinct : ((a.kind.fields.zip a.values).map (·.1.name)).Nodup := by
    rw [map_name_entries]
    exact a.kind.names_nodup
  have hvalue : ∀ entry ∈ a.kind.fields.zip a.values, a.valueFor? entry.1 = pure entry.2 := by
    intro entry hentry
    have hfind := find?_of_nodup_map (fun entry : Field × FieldValue => entry.1.name) hentry
      hdistinct
    rw [valueFor?, hfind]
    rfl
  have hvalues := mapM_map_eq_pure Prod.snd hvalue
  rw [map_fst_entries, List.map_snd_zip (by simp)] at hvalues
  rw [recast?, hvalues]
  exact a.ofValues?_values

/-- A field of any kind is read from the object as its name says. -/
theorem Fits.ofSlot?_members (h : a.Fits) {kind : EventKind} {field : Field}
    (hfield : field ∈ kind.fields) :
    field.ofSlot? ((a.members.find? (·.1 = field.name)).map (·.2)) = a.valueFor? field := by
  rw [members_eq, List.find?_map, valueFor?, Option.map_map]
  show field.ofSlot? (Option.map _ ((a.kind.fields.zip a.values).find? fun entry =>
    entry.1.name = field.name)) = _
  cases hfound : (a.kind.fields.zip a.values).find? fun entry => entry.1.name = field.name with
  | none => rfl
  | some entry =>
    have hentry := List.mem_of_find?_eq_some hfound
    have hname : entry.1.name = field.name := by simpa using List.find?_some hfound
    have hform := EventKind.form_of_name hfield (List.of_mem_zip hentry).1 hname
    show FieldValue.ofJson? field.form entry.2.toJson = some entry.2
    rw [← hform, (h.entry hentry).ofJson?_toJson]

/-- Attributes are read as those of any kind by the names of its fields. -/
theorem Fits.ofJson?_toJson_as (h : a.Fits) (kind : EventKind) :
    ofJson? kind a.toJson = a.recast? kind := by
  have hdistinct : (a.members.map (·.1)).Nodup := by
    rw [members_eq, List.map_map]
    show ((a.kind.fields.zip a.values).map (·.1.name)).Nodup
    rw [map_name_entries]
    exact a.kind.names_nodup
  have hslots := plainSlots?_record hdistinct (List.mergeSort_perm a.members fun m n => m.1 ≤ n.1)
    (kind.fields.map (·.name))
  rw [← toJson_eq, List.map_map] at hslots
  unfold ofJson?
  rw [h.plain_toJson, hslots]
  simp only [Option.bind_eq_bind, Option.bind_some, if_true]
  rw [← List.map_prod_left_eq_zip, List.mapM_map]
  exact congrArg (·.bind (ofValues? kind))
    (mapM_congr fun field hfield => h.ofSlot?_members hfield)

/-- The attributes of an event are read back. -/
theorem Fits.ofJson?_toJson (h : a.Fits) : ofJson? a.kind a.toJson = some a :=
  (h.ofJson?_toJson_as a.kind).trans a.recast?_kind

/-- Values that are read from slots fit their fields, when there is one for each. -/
theorem fit_of_ofSlots {fields : List Field} {slots : List (Option Json)}
    {values : List FieldValue} (hlength : values.length = fields.length)
    (h : (fields.zip slots).mapM (fun (field, slot) => field.ofSlot? slot) = some values) :
    Fit fields values := by
  have hread := forall₂_of_mapM h
  have hzip := hread.length_eq
  rw [List.length_zip] at hzip
  have hfields : (fields.zip slots).map Prod.fst = fields := List.map_fst_zip (by omega)
  rw [← hfields, Fit, List.forall₂_map_left_iff]
  exact hread.imp fun _ _ hvalue => FieldValue.fits_of_ofSlot? hvalue

/-- What is read as attributes of a kind is of that kind, its numbers in range. -/
theorem fits_of_ofJson? {kind : EventKind} {j : Json} (h : ofJson? kind j = some a) :
    a.kind = kind ∧ a.Fits := by
  unfold ofJson? at h
  split at h
  · simp only [Option.bind_eq_bind, Option.bind_eq_some_iff] at h
    obtain ⟨slots, -, values, hvalues, ha⟩ := h
    obtain ⟨rfl, rfl⟩ := eq_of_ofValues? ha
    exact ⟨rfl, fit_of_ofSlots a.length_values hvalues⟩
  · cases h

end Attributes

/-! ### Events -/

theorem EventKind.ofName?_name (kind : EventKind) : EventKind.ofName? kind.name = some kind := by
  cases kind <;> decide

namespace Event

variable {e : Event}

theorem written_toJson (e : Event) : Written e.toJson :=
  .record (by simp)

/-- An event's text is read by its header, whatever the attributes behind it. -/
theorem ofJsonBytes?_toJsonBytes (h : e.InRange) (htime : e.timestamp.IsOnCalendar) :
    ofJsonBytes? e.toJsonBytes =
      (Attributes.ofJson? e.kind e.attributes.toJson).map fun a =>
        { e with timestamp := e.timestamp.asWritten, attributes := a } := by
  have hname : (Json.text e.kind.name).variant?.bind EventKind.ofName? = some e.kind := by
    rw [show (Json.text e.kind.name).variant? = some e.kind.name from rawText?_escape _,
      Option.bind_some, EventKind.ofName?_name]
  have hslots : e.toJson.strictSlots? fieldNames = some ⟨false, _⟩ :=
    strictSlots?_record (show fieldNames.Nodup by decide)
  rw [ofJsonBytes?, toJsonBytes, (written_toJson _).parse?_render, Option.bind_some, ofJson?,
    hslots]
  simp only [Option.bind_eq_bind, Option.bind_some, List.map_cons, List.map_nil, required,
    defaulted, int64?_int h.eventId, hname, htime.ofJson?_toJson, int64?_int h.version,
    int64?_int h.taskId, Option.pure_def, Option.map_eq_bind]
  rfl

/-- An event is read from its JSON text at the time that was written. -/
theorem InRange.ofJsonBytes?_asWritten (h : e.InRange) (hkind : e.isConsistent)
    (htime : e.timestamp.IsOnCalendar) :
    ofJsonBytes? e.toJsonBytes = some { e with timestamp := e.timestamp.asWritten } := by
  have hkind : e.kind = e.attributes.kind := of_decide_eq_true hkind
  rw [Event.ofJsonBytes?_toJsonBytes h htime, hkind, h.attributes.ofJson?_toJson, Option.map_some,
    ← hkind]

/-- An event is read back from its JSON text. -/
theorem InRange.ofJsonBytes?_toJsonBytes (h : e.InRange) (hkind : e.isConsistent)
    (htime : e.timestamp.IsValid) : ofJsonBytes? e.toJsonBytes = some e := by
  rw [h.ofJsonBytes?_asWritten hkind htime.isOnCalendar, htime.asWritten_eq]

/-- An event is decoded at the time that was written. -/
theorem InRange.decode_encode_json (h : e.InRange) (hkind : e.isConsistent)
    (htime : e.timestamp.IsOnCalendar) :
    Encoding.json.decode (Encoding.json.encode e) =
      .ok { e with timestamp := e.timestamp.asWritten } := by
  rw [Encoding.encode, Encoding.decode, h.ofJsonBytes?_asWritten hkind htime]

/-- What is read as an event is of the kind of its attributes, with all numbers in range and at a
    time of the calendar. -/
theorem inRange_of_ofJson? {j : Json} (h : ofJson? j = some e) :
    e.InRange ∧ e.isConsistent ∧ e.timestamp.IsValid := by
  obtain ⟨slots, -, h⟩ := Option.bind_eq_some_iff.mp h
  split at h
  · simp only [Option.bind_eq_bind, Option.bind_eq_some_iff] at h
    obtain ⟨eventId, heventId, kind, -, timestamp, htimestamp, version, hversion, taskId, htaskId,
      attributes, hattributes, h⟩ := h
    cases h
    have hrequired : ∀ {α : Type} {read : Json → Option α} {slot : Option Json} {a : α},
        required read slot = some a → ∃ j, read j = some a := by
      intro α read slot a hread
      cases slot with
      | none => cases hread
      | some j => exact ⟨j, hread⟩
    have hdefaulted : ∀ {slot : Option Json} {n : Int},
        defaulted 0 int64? slot = some n → fitsInt64 n := by
      intro slot n hread
      cases slot with
      | none =>
        cases hread
        rfl
      | some j => exact fits_of_int64? hread
    obtain ⟨_, heventId⟩ := hrequired heventId
    obtain ⟨_, htimestamp⟩ := hrequired htimestamp
    obtain ⟨_, hattributes⟩ := hrequired hattributes
    obtain ⟨hkind, hfits⟩ := Attributes.fits_of_ofJson? hattributes
    exact ⟨⟨fits_of_int64? heventId, hdefaulted hversion, hdefaulted htaskId, hfits⟩,
      decide_eq_true hkind.symm, Instant.isValid_of_ofJson? htimestamp⟩
  · cases h

/-- The JSON form of events keeps all but one thing. An event whose numbers are in range, of the kind
    of its attributes and at a time of the calendar, is read from its text at the time that was
    written, and so it is read back just when it is not in a leap second within a minute: the texts
    and bytes in it may be any. Whatever bytes are read as an event, the event is such a one, and
    the text that it is stored as gives it back. -/
theorem read_back_from_json :
    (∀ e : Event, e.InRange → e.isConsistent → e.timestamp.IsOnCalendar →
      Encoding.json.decode (Encoding.json.encode e)
          = .ok { e with timestamp := e.timestamp.asWritten } ∧
        (Encoding.json.decode (Encoding.json.encode e) = .ok e ↔ e.timestamp.IsValid)) ∧
    ∀ (bytes : List UInt8) (e : Event), Encoding.json.decode bytes = .ok e →
      e.InRange ∧ e.isConsistent ∧ e.timestamp.IsValid ∧
        Encoding.json.decode (Encoding.json.encode e) = .ok e := by
  refine ⟨fun e hrange hkind htime => ?_, fun bytes e hread => ?_⟩
  · have hback := hrange.decode_encode_json hkind htime
    refine ⟨hback, ?_⟩
    rw [hback, ← htime.asWritten_eq_iff, Except.ok.injEq]
    exact ⟨congrArg timestamp, fun htold => by rw [htold]⟩
  · rw [Encoding.decode] at hread
    split at hread
    · cases hread
      obtain ⟨j, -, hj⟩ := Option.bind_eq_some_iff.mp ‹ofJsonBytes? bytes = some e›
      obtain ⟨hrange, hkind, htime⟩ := inRange_of_ofJson? hj
      have hback := hrange.decode_encode_json hkind htime.isOnCalendar
      rw [htime.asWritten_eq] at hback
      exact ⟨hrange, hkind, htime, hback⟩
    · cases hread

/-- A signal in a leap second of a far year, its fields in a row, one of them left out. -/
theorem a_signal_is_read_back_from_json :
    let bytes := Text.utf8 ("[-9223372036854775808, \"SignalReceived\", " ++
      "\"+12016-12-31 23:59:60.123456789999 +01:30\", 0, 7, [\"\\u0000\\ud83d\\ude00\", \"AP8=\"]]")
    let e : Event :=
      ⟨-0x8000000000000000, .signalReceived, ⟨317052743399, 1123456789⟩, 0, 7,
        .signalReceived ⟨"\x00😀", [0, 255], ""⟩⟩
    e.InRange ∧ e.isConsistent ∧ e.timestamp.IsValid ∧ Encoding.json.decode bytes = .ok e ∧
      Encoding.json.decode (Encoding.json.encode e) = .ok e := by
  intro bytes e
  have hread : Encoding.json.decode bytes = .ok e := by decide +kernel
  obtain ⟨hrange, hkind, htime, -⟩ := read_back_from_json.2 bytes e hread
  have hback := (read_back_from_json.1 e hrange hkind htime.isOnCalendar).2.mpr htime
  exact ⟨hrange, hkind, htime, hread, hback⟩

/-- A signal a third of a second into a leap second behind the fourth second of a minute. It is
    written, and so read, as one a third of a second behind the fifth. -/
theorem signal_within_a_minute_is_moved :
    let e : Event :=
      ⟨1, .signalReceived, ⟨1750000004, 1333333333⟩, 0, 7, .signalReceived ⟨"go", [], "w"⟩⟩
    e.InRange ∧ e.isConsistent ∧ e.timestamp.IsOnCalendar ∧
      Encoding.json.decode (Encoding.json.encode e)
        = .ok { e with timestamp := ⟨1750000005, 333333333⟩ } ∧
      Encoding.json.decode (Encoding.json.encode e) ≠ .ok e := by
  intro e
  have hrange : e.InRange :=
    ⟨rfl, rfl, rfl, .cons (.text _) (.cons (.bytes _) (.cons (.text _) .nil))⟩
  have htime : e.timestamp.IsOnCalendar := ⟨by decide +kernel, by decide⟩
  have htold : e.timestamp.asWritten = ⟨1750000005, 333333333⟩ := by decide +kernel
  have hback := hrange.decode_encode_json rfl htime
  rw [htold] at hback
  refine ⟨hrange, rfl, htime, hback, fun heq => ?_⟩
  have hsame := congrArg timestamp (Except.ok.inj (hback.symm.trans heq))
  exact absurd hsame (by decide)

end Event

end Durable
