import Durable.Event.Basic
import Durable.Json.Fields
import Durable.Json.Printer
import Durable.Json.Reader
import Durable.Text.Base64
import Durable.Time.Rfc3339

/-!
# Events in JSON

An event is a record of its header and its attributes; the attributes are an object with their
names in ascending order, and bytes stand in it as base64.
-/

namespace Durable

/-- A time as JSON. -/
def Instant.toJson (t : Instant) : Json :=
  .text (Time.Rfc3339.write t)

/-- The time that a JSON text stands for. -/
def Instant.ofJson? (j : Json) : Option Instant :=
  j.text?.bind Time.Rfc3339.read?

namespace FieldValue

/-- The value of a field as JSON. -/
def toJson : FieldValue → Json
  | text s => .text s
  | bytes b => .textBytes (Text.Base64.encode b)
  | int n => .int n
  | optionalText s => .opt .text s
  | optionalNat n => .opt .nat n
  | flag b => .bool b

/-- The value of a field of a form, read from JSON. -/
def ofJson? : FieldForm → Json → Option FieldValue
  | .text, j => j.text?.map text
  | .bytes, j => (j.text?.bind fun s => Text.Base64.decode? (Text.utf8 s)).map bytes
  | .int64, j => j.int64?.map int
  | .int32, j => j.int32?.map int
  | .optionalText, j => (j.opt? Json.text?).map optionalText
  | .optionalUInt32, j => (j.opt? Json.uint32?).map optionalNat
  | .flag, j => j.bool?.map flag

end FieldValue

/-- The value of a field in its slot, which may be empty only where the field may miss. -/
def Field.ofSlot? (field : Field) : Option Json → Option FieldValue
  | some j => FieldValue.ofJson? field.form j
  | none => if field.mayMiss then some field.form.blank else none

namespace Attributes

/-- The attributes as a JSON object with ascending names. -/
def toJson (a : Attributes) : Json :=
  .record (((a.kind.fields.map (·.name)).zip (a.values.map FieldValue.toJson)).mergeSort
    fun m n => m.1 ≤ n.1)

/-- The number of containers inside each other that attributes may have, with the event around
    them. -/
def maxDepth : Nat := 126

/-- The attributes of a kind, read from a plain JSON value. -/
def ofJson? (kind : EventKind) (j : Json) : Option Attributes := do
  if j.plain maxDepth then pure () else none
  let slots ← j.plainSlots? (kind.fields.map (·.name))
  let values ← (kind.fields.zip slots.values).mapM fun (field, slot) => field.ofSlot? slot
  ofValues? kind values

end Attributes

namespace Event

/-- The names of an event's fields. -/
def fieldNames : List String :=
  ["event_id", "event_type", "timestamp", "version", "task_id", "attributes"]

/-- An event as JSON. -/
def toJson (e : Event) : Json :=
  .record [("event_id", .int e.eventId), ("event_type", .text e.kind.name),
    ("timestamp", e.timestamp.toJson), ("version", .int e.version), ("task_id", .int e.taskId),
    ("attributes", e.attributes.toJson)]

/-- The event that a JSON value stands for. -/
def ofJson? (j : Json) : Option Event := do
  let slots ← j.strictSlots? fieldNames
  match slots.values with
  | [eventId, eventType, timestamp, version, taskId, attributes] =>
    let eventId ← Json.required Json.int64? eventId
    let kind ← Json.required (fun j => j.variant?.bind EventKind.ofName?) eventType
    let timestamp ← Json.required Instant.ofJson? timestamp
    let version ← Json.defaulted 0 Json.int64? version
    let taskId ← Json.defaulted 0 Json.int64? taskId
    let attributes ← Json.required (Attributes.ofJson? kind) attributes
    pure ⟨eventId, kind, timestamp, version, taskId, attributes⟩
  | _ => none

/-- The bytes of an event as JSON. -/
def toJsonBytes (e : Event) : List UInt8 :=
  e.toJson.render

/-- The event that bytes hold as JSON. -/
def ofJsonBytes? (bytes : List UInt8) : Option Event :=
  (Json.parse? bytes).bind ofJson?

end Event

end Durable
