import Durable.Proofs.Event.JsonForm
import Durable.Proofs.Event.WireForm

/-!
# Declared kinds

An event declares a kind and carries attributes, which should be of that kind. In a message the
attributes stand under the tag of their own kind, so other ones are told from those declared. In
JSON nothing says of what kind they are: they are read by the names of the declared kind's fields,
and other ones are refused only where a field that may not miss is not among theirs.
-/

namespace Durable

namespace EventKind

/-- Whether attributes of a kind have all the fields that those of another may not miss. -/
def covers (kind declared : EventKind) : Bool :=
  declared.fields.all fun field => field.mayMiss || kind.fields.any (·.name = field.name)

theorem covers_eq_false_iff {kind declared : EventKind} :
    kind.covers declared = false ↔
      ∃ field ∈ declared.fields, field.mayMiss = false ∧
        ∀ other ∈ kind.fields, other.name ≠ field.name := by
  simp [covers, List.all_eq_false]

/-- The kinds whose attributes are taken for those of others. Those of a completed execution have
    no field that may not miss, so any attributes are taken for them. -/
theorem covers_iff : ∀ kind declared : EventKind,
    kind.covers declared ↔ kind = declared ∨ kind ∈
      match declared with
      | executionCompleted => all
      | executionFailed => [executionTerminated, nodeFailed]
      | executionTerminated => [executionFailed, nodeFailed]
      | workflowTaskScheduled => [executionStarted, nodeScheduled]
      | workflowTaskStarted => [workflowTaskCompleted, nodeStarted, nodeCompleted, nodeFailed]
      | workflowTaskCompleted => [nodeCompleted, nodeFailed]
      | nodeStarted => [workflowTaskStarted, workflowTaskCompleted, nodeCompleted, nodeFailed]
      | nodeCompleted => [workflowTaskCompleted, nodeFailed]
      | timerFired => [timerCanceled]
      | timerCanceled => [timerFired]
      | _ => [] := by
  decide +kernel

end EventKind

namespace Attributes

variable {a : Attributes} {kind : EventKind} {values : List FieldValue}

/-- Values that fit the fields of a kind make attributes of it. -/
theorem exists_ofValues? (h : Fit kind.fields values) : ∃ a, ofValues? kind values = some a := by
  -- one value at a time: a field tells the form of its value
  cases kind <;> unfold EventKind.fields Fit at h <;>
    (repeat (obtain _ | ⟨hvalue, h⟩ := h; cases hvalue)) <;> cases h <;> exact ⟨_, rfl⟩

/-- There is no value for a field that may not miss and has a name that no other field has. -/
theorem valueFor?_eq_none_iff {field : Field} :
    a.valueFor? field = none ↔
      field.mayMiss = false ∧ ∀ other ∈ a.kind.fields, other.name ≠ field.name := by
  have hnone : ((a.kind.fields.zip a.values).find? fun entry => entry.1.name = field.name) = none
      ↔ ∀ other ∈ a.kind.fields, other.name ≠ field.name := by
    rw [List.find?_eq_none]
    conv_rhs => rw [← a.map_fst_entries, List.forall_mem_map]
    simp
  rw [← hnone, valueFor?]
  cases (a.kind.fields.zip a.values).find? fun entry => entry.1.name = field.name with
  | none => simp
  | some entry => simp

/-- What there is for the fields of a kind fits them. -/
theorem Fits.fit_of_mapM (h : a.Fits) (hvalues : kind.fields.mapM a.valueFor? = some values) :
    Fit kind.fields values := by
  rw [← mapM_congr fun field hfield => h.ofSlot?_members hfield] at hvalues
  exact (forall₂_of_mapM hvalues).imp fun _ _ hvalue => FieldValue.fits_of_ofSlot? hvalue

/-- Attributes are taken for those of a kind just when its fields are covered. -/
theorem Fits.recast?_eq_none_iff (h : a.Fits) (kind : EventKind) :
    a.recast? kind = none ↔ a.kind.covers kind = false := by
  rw [EventKind.covers_eq_false_iff]
  simp only [← valueFor?_eq_none_iff]
  rw [← mapM_eq_none_iff, recast?]
  cases hvalues : kind.fields.mapM a.valueFor? with
  | none => simp
  | some values =>
    obtain ⟨a', ha'⟩ := exists_ofValues? (h.fit_of_mapM hvalues)
    simp [ha']

end Attributes

namespace Event

variable {e : Event}

/-- A message whose attributes are of another kind than it declares is refused. -/
theorem Fits.ofWire_of_misdeclared (h : e.Fits) (htime : e.timestamp.IsOnCalendar)
    (hkind : e.kind ≠ e.attributes.kind) :
    ofWire e.toWire = .error (.serialization ("event " ++ toString e.eventId
      ++ " declares type " ++ e.kind.name ++ " but carries " ++ e.attributes.kind.name
      ++ " attributes")) := by
  unfold ofWire
  rw [h.foldMessage?_toWire (Instant.fitsInt64_micros htime.seconds htime.nanos)]
  simp only [ofEnvelope, EventKind.ofCode?_code, Option.bind_some, Attributes.ofValues?_values,
    ne_eq, Ne.symm hkind, not_false_eq_true, if_true]

/-- An object is read as the event that has its attributes for those of the kind it declares, at the
    time that was written. -/
theorem InRange.decode_json (h : e.InRange) (htime : e.timestamp.IsOnCalendar) :
    Encoding.json.decode (Encoding.json.encode e) =
      match e.attributes.recast? e.kind with
      | some a => .ok { e with timestamp := e.timestamp.asWritten, attributes := a }
      | none => .error (.serialization "json: malformed event") := by
  rw [Encoding.encode, Encoding.decode, Event.ofJsonBytes?_toJsonBytes h htime,
    h.attributes.ofJson?_toJson_as]
  cases e.attributes.recast? e.kind <;> rfl

/-- What becomes of an event that declares another kind than that of its attributes, at any time of
    the calendar. Its message is always refused. Its JSON text is refused just when the attributes
    lack a field that those of the declared kind may not miss; otherwise it is read as an event of
    the declared kind, at the time that was written and with the values that stand under the names
    of its fields. -/
theorem misdeclared_is_refused_iff (e : Event) (hfits : e.Fits) (htime : e.timestamp.IsOnCalendar)
    (hkind : e.kind ≠ e.attributes.kind) :
    (∃ message, Encoding.proto.decode (Encoding.proto.encode e) = .error (.serialization message)) ∧
      ((∃ message, Encoding.json.decode (Encoding.json.encode e) = .error (.serialization message))
        ↔ e.attributes.kind.covers e.kind = false) ∧
      ∀ read, Encoding.json.decode (Encoding.json.encode e) = .ok read ↔
        ∃ a, e.attributes.recast? e.kind = some a ∧
          read = { e with timestamp := e.timestamp.asWritten, attributes := a } := by
  have hjson := hfits.inRange.decode_json htime
  have hcovers := hfits.attributes.recast?_eq_none_iff e.kind
  refine ⟨⟨_, hfits.ofWire_of_misdeclared htime hkind⟩, ?_⟩
  rw [hjson, ← hcovers]
  cases e.attributes.recast? e.kind with
  | none => simp
  | some a => simp [eq_comm]

/-- A timer that fired has no event that it was scheduled by, which a node that was started has. -/
theorem fired_timer_declared_node_is_refused :
    let e : Event := ⟨3, .nodeStarted, ⟨1750000000, 0⟩, 1, 30, .timerFired ⟨"t", 2⟩⟩
    e.Fits ∧ e.timestamp.IsOnCalendar ∧ e.kind ≠ e.attributes.kind ∧
      (∃ message,
        Encoding.proto.decode (Encoding.proto.encode e) = .error (.serialization message)) ∧
      ∃ message,
        Encoding.json.decode (Encoding.json.encode e) = .error (.serialization message) := by
  intro e
  have hattributes : e.attributes.Fits := .cons (.text "t") (.cons (.int64 rfl) .nil)
  have hfits : e.Fits := ⟨rfl, rfl, rfl, hattributes, by decide +kernel⟩
  have htime : e.timestamp.IsOnCalendar := ⟨by decide +kernel, by decide⟩
  have hkind : e.kind ≠ e.attributes.kind := by decide
  obtain ⟨hproto, hjson, -⟩ := misdeclared_is_refused_iff e hfits htime hkind
  exact ⟨hfits, htime, hkind, hproto, hjson.mpr (by decide +kernel)⟩

/-- The scheduling of a node is read as the end of its execution, without a result. -/
theorem node_declared_completed_is_read :
    let e : Event := ⟨3, .executionCompleted, ⟨1750000000, 0⟩, 1, 30,
      .nodeScheduled ⟨"n", "http", "q", [0, 1], some 3, 30000⟩⟩
    e.kind ≠ e.attributes.kind ∧ Encoding.json.decode (Encoding.json.encode e)
      = .ok ⟨3, .executionCompleted, ⟨1750000000, 0⟩, 1, 30, .executionCompleted ⟨[]⟩⟩ := by
  intro e
  have hattributes : e.attributes.Fits :=
    .cons (.text "n") (.cons (.text "http") (.cons (.text "q") (.cons (.bytes [0, 1])
      (.cons (.optionalUInt32 fun m hm => by cases hm; rfl) (.cons (.int64 rfl) .nil)))))
  have hrange : e.InRange := ⟨rfl, rfl, rfl, hattributes⟩
  have htime : e.timestamp.IsValid := by decide +kernel
  have hrecast : e.attributes.recast? .executionCompleted = some (.executionCompleted ⟨[]⟩) := by
    decide +kernel
  refine ⟨by decide, ?_⟩
  rw [hrange.decode_json htime.isOnCalendar, hrecast, htime.asWritten_eq]

end Event

end Durable
