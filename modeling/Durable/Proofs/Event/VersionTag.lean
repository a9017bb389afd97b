import Durable.Event.Encoding
import Durable.Proofs.Wire.Message

/-!
# Version tags

A tag is told apart from what stands behind it, and from an event without a tag: the marker that a
tag begins with can begin neither a JSON text nor a message.
-/

namespace Durable

/-! ### The marker -/

/-- No JSON text begins with the marker. -/
theorem Json.parse?_marker (rest : List UInt8) :
    parse? (Encoding.versionMarker :: rest) = none := by
  have hother : ∀ {b : UInt8} {behind : List UInt8}, b ≠ Encoding.versionMarker →
      Encoding.versionMarker :: rest ≠ b :: behind :=
    fun hb heq => hb (List.cons.inj heq).1.symm
  have hspace : skipSpace (Encoding.versionMarker :: rest) = Encoding.versionMarker :: rest := by
    rw [skipSpace, List.dropWhile_cons_of_neg (by decide)]
  have hnumber : scanNumber? (Encoding.versionMarker :: rest) = none := by
    rw [scanNumber?.eq_2 _ fun _ => hother (by decide)]
    rfl
  have hvalue : ∀ fuel, scanValue? (fuel + 1) (Encoding.versionMarker :: rest) = none := by
    intro fuel
    rw [scanValue?.eq_8 _ fuel (fun _ => hother (by decide)) (fun _ => hother (by decide))
      (fun _ => hother (by decide)) (fun _ => hother (by decide)) (fun _ => hother (by decide))
      (fun _ => hother (by decide)), hnumber, Option.map_none]
  rw [parse?, hspace, hvalue]

/-- No key begins with the marker: the low bits of its number would name a kind that there is not,
    whatever stands in the bytes behind. -/
theorem Wire.readKey?_marker (rest : List UInt8) :
    readKey? (Encoding.versionMarker :: rest) = none := by
  have hnumber : readVarint? (Encoding.versionMarker :: rest)
      = (readVarintWithin? 9 rest).map fun read => (126 + 128 * read.1, read.2) := by
    rw [readVarint?, readVarintWithin?, if_neg (by decide)]
    rfl
  rw [readKey?, hnumber]
  cases readVarintWithin? 9 rest with
  | none => rfl
  | some found =>
    have hkind : (126 + 128 * found.1) % 8 = 6 := by omega
    simp only [Option.map_some, Option.bind_eq_bind, Option.bind_some, hkind, WireKind.ofCode?,
      Option.bind_none]

namespace Encoding

variable {encoding : Encoding} {bytes payload : List UInt8} {e : Event}

/-- No event is stored in bytes that begin with the marker. -/
theorem decode_ne_ok_of_marker (encoding : Encoding) (rest : List UInt8) (e : Event) :
    encoding.decode (versionMarker :: rest) ≠ .ok e := by
  intro h
  cases encoding with
  | json =>
    rw [decode, Event.ofJsonBytes?, Json.parse?_marker] at h
    cases h
  | proto =>
    have hfold : Wire.foldMessage? Event.Envelope.step (versionMarker :: rest) {} = none := by
      rw [Wire.foldMessage?, List.length_cons, Wire.foldFields?_succ _ (List.cons_ne_nil _ rest),
        Wire.readKey?_marker, Option.bind_none]
    rw [decode, Event.ofWire, hfold] at h
    cases h

theorem decode_nil_ne_ok (encoding : Encoding) (e : Event) : encoding.decode [] ≠ .ok e := by
  intro h
  cases encoding <;> cases h

/-! ### Tagged bytes -/

theorem decodeVersioned_of_version {version : Nat}
    (hsplit : splitVersionTag bytes = .ok (version, payload)) :
    encoding.decodeVersioned bytes =
      if version = 0 ∨ version = currentVersion then encoding.decode payload
      else .error (.serialization ("unsupported schema version " ++ toString version
        ++ " (current is " ++ toString currentVersion ++ ")")) := by
  rw [decodeVersioned, hsplit]
  show (if (version = 0 || version = currentVersion) = true then _ else _) = _
  simp only [Bool.or_eq_true, decide_eq_true_eq]

/-- Bytes without a tag are read as they are. -/
theorem decodeVersioned_of_untagged (hread : encoding.decode bytes = .ok e) :
    (∃ first rest, bytes = first :: rest ∧ first ≠ versionMarker) ∧
      encoding.decodeVersioned bytes = encoding.decode bytes := by
  cases bytes with
  | nil => exact absurd hread (decode_nil_ne_ok encoding e)
  | cons first rest =>
    by_cases hfirst : first = versionMarker
    · subst hfirst
      exact absurd hread (decode_ne_ok_of_marker encoding rest e)
    · have hsplit : splitVersionTag (first :: rest) = .ok (0, first :: rest) := if_neg hfirst
      exact ⟨⟨first, rest, rfl, hfirst⟩, (decodeVersioned_of_version hsplit).trans
        (if_pos (.inl rfl))⟩

/-- A version tag is unambiguous. What an event is stored as is split into the current version and
    the bytes of the event. Behind a tag of version zero or one, what is read is what is behind it;
    any other version is an error, and so is a tag that is cut off. Whatever is read as an event
    without a tag does not begin like a tag, and is read the same by who looks for one. -/
theorem version_tag_is_unambiguous (encoding : Encoding) :
    (∀ e, splitVersionTag (encoding.encodeVersioned e) = .ok (1, encoding.encode e)) ∧
    (∀ high low payload, high.toNat * 256 + low.toNat = 0 ∨ high.toNat * 256 + low.toNat = 1 →
      encoding.decodeVersioned (versionMarker :: high :: low :: payload)
        = encoding.decode payload) ∧
    (∀ high low payload, high.toNat * 256 + low.toNat ≠ 0 → high.toNat * 256 + low.toNat ≠ 1 →
      ∃ reason, encoding.decodeVersioned (versionMarker :: high :: low :: payload)
        = .error (.serialization reason)) ∧
    (∀ rest, rest.length < 2 → ∃ reason,
      encoding.decodeVersioned (versionMarker :: rest) = .error (.serialization reason)) ∧
    ∀ bytes e, encoding.decode bytes = .ok e →
      bytes ≠ [] ∧ bytes.head? ≠ some versionMarker ∧
        encoding.decodeVersioned bytes = encoding.decode bytes := by
  have hsplit : ∀ high low payload, splitVersionTag (versionMarker :: high :: low :: payload)
      = .ok (high.toNat * 256 + low.toNat, payload) := fun _ _ _ => rfl
  refine ⟨fun e => rfl, fun high low payload hversion => ?_, fun high low payload hzero hone => ?_,
    fun rest hshort => ?_, fun bytes e hread => ?_⟩
  · rw [decodeVersioned_of_version (hsplit high low payload)]
    exact if_pos hversion
  · rw [decodeVersioned_of_version (hsplit high low payload)]
    exact ⟨_, if_neg (not_or.mpr ⟨hzero, hone⟩)⟩
  · match rest, hshort with
    | [], _ => exact ⟨_, rfl⟩
    | [_], _ => exact ⟨_, rfl⟩
  · obtain ⟨⟨first, rest, rfl, hfirst⟩, hsame⟩ := decodeVersioned_of_untagged hread
    exact ⟨List.cons_ne_nil first rest, fun heq => hfirst (Option.some.inj heq), hsame⟩

/-- The same message behind the tags of two versions, without a tag, and a tag that is cut off. -/
theorem a_marker_is_read_behind_a_tag :
    let bytes : List UInt8 := [16, 17, 210, 1, 3, 10, 1, 110]
    let e : Event := ⟨0, .markerRecorded, ⟨0, 0⟩, 0, 0, .markerRecorded ⟨"n", []⟩⟩
    proto.decode bytes = .ok e ∧ proto.decodeVersioned bytes = .ok e ∧
      proto.decodeVersioned (versionMarker :: 0 :: 1 :: bytes) = .ok e ∧
      (∃ reason, proto.decodeVersioned (versionMarker :: 1 :: 1 :: bytes)
        = .error (.serialization reason)) ∧
      ∃ reason, proto.decodeVersioned [versionMarker, 0] = .error (.serialization reason) := by
  intro bytes e
  have hread : proto.decode bytes = .ok e := by decide +kernel
  obtain ⟨-, hknown, hunknown, hcut, huntagged⟩ := version_tag_is_unambiguous proto
  exact ⟨hread, ((huntagged bytes e hread).2.2).trans hread,
    (hknown 0 1 bytes (by decide)).trans hread, hunknown 1 1 bytes (by decide) (by decide),
    hcut [0] (by decide)⟩

end Encoding

end Durable
