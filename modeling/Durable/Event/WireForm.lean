import Durable.Event.Basic
import Durable.Wire.Message
import Durable.Error

/-!
# Events on the wire

An event is a message with the fields of its header under the tags one to five and its attributes,
a message of their own, under the tag of their kind. Fields with the value of a fresh message are
left out. When attributes of one kind come twice they are merged; those of another kind replace
them.
-/

namespace Durable

/-- How many messages and groups may stand inside each other. -/
def Wire.maxDepth : Nat := 100

namespace FieldValue

/-- The bytes of a field. -/
def toWire (tag : Nat) : FieldValue → List UInt8
  | text s => Wire.writeCountedUnlessEmpty tag (Text.utf8 s)
  | bytes b => Wire.writeCountedUnlessEmpty tag b
  | int n => Wire.writeIntUnlessZero tag n
  | optionalText none => []
  | optionalText (some s) => Wire.writeCounted tag (Text.utf8 s)
  | optionalNat none => []
  | optionalNat (some n) => Wire.writeInt tag n
  | flag b => if b then Wire.writeInt tag 1 else []

/-- The value of a field of a form, and what follows it. -/
def ofWire? (form : FieldForm) (kind : Wire.WireKind) (bytes : List UInt8) :
    Option (FieldValue × List UInt8) :=
  match form with
  | .text => (Wire.readText? kind bytes).map fun (s, rest) => (.text s, rest)
  | .bytes => (Wire.readBytes? kind bytes).map fun (b, rest) => (.bytes b, rest)
  | .int64 => (Wire.readInt64? kind bytes).map fun (n, rest) => (.int n, rest)
  | .int32 => (Wire.readInt32? kind bytes).map fun (n, rest) => (.int n, rest)
  | .optionalText => (Wire.readText? kind bytes).map fun (s, rest) => (.optionalText (some s), rest)
  | .optionalUInt32 =>
    (Wire.readUInt32? kind bytes).map fun (n, rest) => (.optionalNat (some n), rest)
  | .flag => (Wire.readWord? kind bytes).map fun (n, rest) => (.flag (n ≠ 0), rest)

end FieldValue

namespace Attributes

/-- The bytes of the attributes' message. -/
def toWire (a : Attributes) : List UInt8 :=
  ((a.kind.fields.zip a.values).map fun (field, value) => value.toWire field.tag).flatten

/-- One field of the attributes of a kind, put in its place among the values read before. -/
def wireStep (kind : EventKind) (tag : Nat) (form : Wire.WireKind) (bytes : List UInt8)
    (values : List FieldValue) : Option (List FieldValue × List UInt8) :=
  match kind.fields.findIdx? (·.tag = tag) with
  | some i => do
    let field ← kind.fields[i]?
    let (value, rest) ← FieldValue.ofWire? field.form form bytes
    pure (values.set i value, rest)
  | none =>
    (Wire.skipField? (Wire.maxDepth - 1) tag form bytes).map fun rest => (values, rest)

/-- The values of the fields in a message, merged into those read before. -/
def mergeWire? (kind : EventKind) (values : List FieldValue) (bytes : List UInt8) :
    Option (List FieldValue) :=
  Wire.foldMessage? (wireStep kind) bytes values

end Attributes

namespace Event

/-- An event's message as far as it is read. -/
structure Envelope where
  eventId : Int := 0
  typeCode : Int := 0
  timestampMicros : Int := 0
  version : Int := 0
  taskId : Int := 0
  attributes : Option (EventKind × List FieldValue) := none

/-- The bytes of an event. -/
def toWire (e : Event) : List UInt8 :=
  Wire.writeIntUnlessZero 1 e.eventId ++ Wire.writeIntUnlessZero 2 e.kind.code
    ++ Wire.writeIntUnlessZero 3 e.timestamp.micros ++ Wire.writeIntUnlessZero 4 e.version
    ++ Wire.writeIntUnlessZero 5 e.taskId
    ++ Wire.writeCounted e.attributes.kind.wireTag e.attributes.toWire

/-- Attributes of a kind merged into what the message held before. -/
def Envelope.merge? (envelope : Envelope) (kind : EventKind) (bytes : List UInt8) :
    Option Envelope :=
  let before := match envelope.attributes with
    | some (held, values) => if held = kind then values else kind.fields.map (·.form.blank)
    | none => kind.fields.map (·.form.blank)
  (Attributes.mergeWire? kind before bytes).map fun values =>
    { envelope with attributes := some (kind, values) }

/-- One field of an event's message. -/
def Envelope.step (tag : Nat) (form : Wire.WireKind) (bytes : List UInt8) (envelope : Envelope) :
    Option (Envelope × List UInt8) :=
  if tag = 1 then
    (Wire.readInt64? form bytes).map fun (n, rest) => ({ envelope with eventId := n }, rest)
  else if tag = 2 then
    (Wire.readInt32? form bytes).map fun (n, rest) => ({ envelope with typeCode := n }, rest)
  else if tag = 3 then
    (Wire.readInt64? form bytes).map fun (n, rest) => ({ envelope with timestampMicros := n }, rest)
  else if tag = 4 then
    (Wire.readInt64? form bytes).map fun (n, rest) => ({ envelope with version := n }, rest)
  else if tag = 5 then
    (Wire.readInt64? form bytes).map fun (n, rest) => ({ envelope with taskId := n }, rest)
  else
    match EventKind.all.find? (·.wireTag = tag) with
    | some kind => do
      let (inner, rest) ← Wire.readBytes? form bytes
      let envelope ← envelope.merge? kind inner
      pure (envelope, rest)
    | none => (Wire.skipField? Wire.maxDepth tag form bytes).map fun rest => (envelope, rest)

/-- The event of a message: its code has to be known, attributes of the declared kind present, and
    the time on the calendar. -/
def ofEnvelope (envelope : Envelope) : Except Error Event :=
  match EventKind.ofCode? envelope.typeCode with
  | none => .error (.serialization ("unknown event type code " ++ toString envelope.typeCode))
  | some kind =>
    match envelope.attributes.bind fun (held, values) => Attributes.ofValues? held values with
    | none =>
      .error (.serialization ("event " ++ toString envelope.eventId ++ " (" ++ kind.name
        ++ ") has no attributes"))
    | some attributes =>
      if attributes.kind ≠ kind then
        .error (.serialization ("event " ++ toString envelope.eventId ++ " declares type "
          ++ kind.name ++ " but carries " ++ attributes.kind.name ++ " attributes"))
      else
        match Instant.ofMicros? envelope.timestampMicros with
        | none =>
          .error (.serialization ("timestamp " ++ toString envelope.timestampMicros
            ++ " out of range"))
        | some timestamp =>
          .ok ⟨envelope.eventId, kind, timestamp, envelope.version, envelope.taskId, attributes⟩

/-- The event that bytes hold as a message. -/
def ofWire (bytes : List UInt8) : Except Error Event :=
  match Wire.foldMessage? Envelope.step bytes {} with
  | none => .error (.serialization "protobuf: malformed message")
  | some envelope => ofEnvelope envelope

end Event

end Durable
