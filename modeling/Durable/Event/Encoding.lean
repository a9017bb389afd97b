import Durable.Event.JsonForm
import Durable.Event.WireForm

/-!
# Stored events

An event is stored in one of two encodings, which the settings choose. A stored event may stand
behind a tag with the version of the encoding; without a tag it counts as version zero. The marker
of the tag can begin neither a JSON text nor a message.
-/

namespace Durable

/-- How events are stored. -/
inductive Encoding where
  | json
  | proto
  deriving DecidableEq, Repr, Inhabited

namespace Encoding

/-- The name of an encoding in settings and stored rows. -/
def name : Encoding → String
  | json => "json"
  | proto => "proto"

/-- A text with its ASCII capitals made small. -/
def lowered (text : String) : String :=
  text.map Char.toLower

/-- The encoding that a text names, in either case. -/
def parse (text : String) : Except Error Encoding :=
  let lower := lowered text
  if lower = "json" then .ok json
  else if lower = "proto" || lower = "protobuf" then .ok proto
  else .error (.validation "encoding" ("unknown event encoding '" ++ lower ++ "'"))

/-- The bytes of an event. -/
def encode : Encoding → Event → List UInt8
  | json, e => e.toJsonBytes
  | proto, e => e.toWire

/-- The event that bytes hold. -/
def decode : Encoding → List UInt8 → Except Error Event
  | json, bytes =>
    match Event.ofJsonBytes? bytes with
    | some e => .ok e
    | none => .error (.serialization "json: malformed event")
  | proto, bytes => Event.ofWire bytes

/-- The version of the encodings. -/
def currentVersion : Nat := 1

/-- The first byte of a version tag. -/
def versionMarker : UInt8 := 0xFE

/-- The version tag: the marker and the version in two bytes, high byte first. -/
def versionTag (version : Nat) : List UInt8 :=
  [versionMarker, UInt8.ofNat (version / 256), UInt8.ofNat (version % 256)]

/-- The version that stored bytes declare, and the bytes behind the tag. -/
def splitVersionTag : List UInt8 → Except Error (Nat × List UInt8)
  | [] => .error (.serialization "empty event payload")
  | first :: rest =>
    if first = versionMarker then
      match rest with
      | high :: low :: payload => .ok (high.toNat * 256 + low.toNat, payload)
      | _ =>
        .error (.serialization ("truncated version header: " ++ toString (rest.length + 1)
          ++ " bytes"))
    else .ok (0, first :: rest)

/-- The bytes of an event behind a tag of the current version. -/
def encodeVersioned (encoding : Encoding) (e : Event) : List UInt8 :=
  versionTag currentVersion ++ encoding.encode e

/-- The event that bytes hold, behind a tag or without one. -/
def decodeVersioned (encoding : Encoding) (bytes : List UInt8) : Except Error Event := do
  let (version, payload) ← splitVersionTag bytes
  if version = 0 || version = currentVersion then encoding.decode payload
  else
    .error (.serialization ("unsupported schema version " ++ toString version ++ " (current is "
      ++ toString currentVersion ++ ")"))

end Encoding

end Durable
