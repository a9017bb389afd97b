import Durable.Proofs.Json.Rendered
import Mathlib.Data.List.Nodup
import Mathlib.Data.List.TakeWhile

/-!
# JSON records read back

The fields of a record are found under their names, in whatever order they stand.
-/

namespace Durable.Json

open Durable.Text

variable {members : List (String × Json)} {name : String} {j : Json} {n : Int} {depth : Nat}

attribute [simp] Written.null Written.bool Written.int Written.textBytes

/-- A record of written values is written. -/
@[simp] theorem Written.record (h : ∀ m ∈ members, Written m.2) : Written (.record members) := by
  refine .obj (fun m hm => ?_) (fun m hm => ?_)
  · obtain ⟨member, -, rfl⟩ := List.mem_map.mp hm
    exact ⟨_, rfl⟩
  · obtain ⟨member, hmember, rfl⟩ := List.mem_map.mp hm
    exact h member hmember

@[simp] theorem Written.opt {α : Type} {write : α → Json} (h : ∀ a, Written (write a))
    (a : Option α) : Written (.opt write a) := by
  cases a with
  | none => exact .null
  | some a => exact h a

@[simp] theorem Written.list {α : Type} {write : α → Json} (h : ∀ a, Written (write a))
    (xs : List α) : Written (.list write xs) := by
  refine .arr fun j hj => ?_
  obtain ⟨x, -, rfl⟩ := List.mem_map.mp hj
  exact h x

@[simp] theorem Written.text (s : String) : Written (.text s) :=
  .textBytes (utf8 s)

theorem nat_eq_int (n : Nat) : Json.nat n = Json.int n := by
  rw [Json.nat, Json.int, intDigits, if_neg (by omega), Int.natAbs_natCast]

@[simp] theorem Written.nat (n : Nat) : Written (.nat n) := by
  rw [nat_eq_int]
  exact .int n

/-! ### Names -/

theorem namedMembers?_record (members : List (String × Json)) :
    namedMembers? (members.map fun (name, value) => (escape (utf8 name), value)) = some members :=
  (mapM_map_eq_pure id fun m _ => by
    show (rawText? (escape (utf8 m.1))).map (·, m.2) = some m
    rw [rawText?_escape, Option.map_some]).trans (congrArg some members.map_id)

theorem filter_of_mem_nodup (hnodup : (members.map (·.1)).Nodup) (hmem : (name, j) ∈ members) :
    members.filter (·.1 = name) = [(name, j)] := by
  induction members with
  | nil => cases hmem
  | cons m members ih =>
    rw [List.map_cons, List.nodup_cons] at hnodup
    rcases List.mem_cons.mp hmem with rfl | hmem
    · rw [List.filter_cons_of_pos (by simp)]
      congr 1
      refine List.filter_eq_nil_iff.mpr fun m hm => ?_
      have hne : m.1 ≠ name := fun heq => hnodup.1 (List.mem_map.mpr ⟨m, hm, heq⟩)
      simpa using hne
    · have hne : m.1 ≠ name := fun heq => hnodup.1 (List.mem_map.mpr ⟨_, hmem, heq.symm⟩)
      rw [List.filter_cons_of_neg (by simpa using hne), ih hnodup.2 hmem]

/-- A strict record's fields are found in their order. -/
theorem strictSlots?_record (hnodup : (members.map (·.1)).Nodup) :
    (record members).strictSlots? (members.map (·.1)) =
      some ⟨false, members.map fun m => some m.2⟩ := by
  have hfound : (members.map (·.1)).mapM (fun name => onlyMember? name members)
      = some (members.map fun m => some m.2) :=
    mapM_map_eq_pure _ fun m hm => by
      rw [onlyMember?, filter_of_mem_nodup hnodup hm]
      rfl
  show (namedMembers? _ >>= fun named => _) = _
  rw [namedMembers?_record]
  simp only [Option.bind_eq_bind, Option.bind_some, hfound, Option.pure_def]

/-- What a plain record has under names is found in whatever order it stands. -/
theorem plainSlots?_record {sorted : List (String × Json)} (hnodup : (members.map (·.1)).Nodup)
    (hperm : sorted.Perm members) (names : List String) :
    (record sorted).plainSlots? names =
      some ⟨false, names.map fun name => (members.find? (·.1 = name)).map (·.2)⟩ := by
  show (namedMembers? _ >>= fun named => _) = _
  rw [namedMembers?_record]
  simp only [Option.bind_eq_bind, Option.bind_some, Option.pure_def]
  congr 2
  refine List.map_congr_left fun name _ => ?_
  rw [find?_of_perm (·.1) (sorted.reverse_perm.trans hperm) hnodup]

/-! ### Plain values -/

theorem plainMembers_of_forall {raw : List (List UInt8 × Json)}
    (h : ∀ m ∈ raw, (rawText? m.1).isSome ∧ plain depth m.2) : plainMembers depth raw := by
  induction raw with
  | nil => rw [plainMembers]
  | cons m raw ih =>
    obtain ⟨hname, hvalue⟩ := h m List.mem_cons_self
    rw [plainMembers, hname, hvalue, ih fun m hm => h m (List.mem_cons_of_mem _ hm)]
    rfl

/-- A record of plain values is plain, one level deeper. -/
theorem plain_record (h : ∀ m ∈ members, plain depth m.2) : plain (depth + 1) (record members) := by
  rw [record, plain]
  refine plainMembers_of_forall fun m hm => ?_
  obtain ⟨member, hmember, rfl⟩ := List.mem_map.mp hm
  exact ⟨by simp, h member hmember⟩

theorem plain_text (s : String) : plain depth (text s) := by
  rw [text, plain, rawText?_escape]
  rfl

theorem plain_textBytes {bytes : List UInt8} {s : String} (h : utf8 s = bytes) :
    plain depth (textBytes bytes) := by
  rw [← h]
  exact plain_text s

theorem plain_opt {α : Type} {write : α → Json} {a : Option α}
    (h : ∀ x ∈ a, plain depth (write x)) : plain depth (opt write a) := by
  cases a with
  | none => rw [opt, plain]
  | some a => exact h a rfl

theorem literalParts_intDigits (n : Int) :
    literalParts (intDigits n) = (natDigits n.natAbs, 0) := by
  have hbegins : ∀ b ∈ natDigits n.natAbs, BeginsNumber b := fun b hb =>
    .inr (natDigits_all n.natAbs b hb)
  unfold literalParts
  extract_lets unsigned isE mantissa exponent whole fraction
  have hunsigned : unsigned = natDigits n.natAbs := by
    unfold unsigned
    by_cases hneg : n < 0
    · rw [show intDigits n = 0x2D :: natDigits n.natAbs from if_pos hneg]
      rfl
    · rw [show intDigits n = natDigits n.natAbs from if_neg hneg]
      split
      · exact absurd ((List.append_nil _).trans ‹_›) (natDigits_ne_minus _ [] _)
      · rfl
  have hletter : ∀ b ∈ unsigned, (!isE b) = true := by
    intro b hb
    rw [hunsigned] at hb
    have hb := hbegins b hb
    simp [isE, hb.ne (c := 0x65) (by decide) rfl, hb.ne (c := 0x45) (by decide) rfl]
  have hmantissa : mantissa = unsigned := List.takeWhile_eq_self_iff.mpr hletter
  have hexponent : exponent = 0 := by
    unfold exponent
    rw [List.dropWhile_eq_nil_iff.mpr hletter]
  have hpoint : ∀ b ∈ mantissa, decide (b ≠ 0x2E) = true := by
    intro b hb
    rw [hmantissa, hunsigned] at hb
    simpa using (hbegins b hb).ne (by decide) rfl
  have hwhole : whole = mantissa := List.takeWhile_eq_self_iff.mpr hpoint
  have hfraction : fraction = [] := by
    unfold fraction
    rw [List.dropWhile_eq_nil_iff.mpr hpoint, List.drop_nil]
  rw [hwhole, hmantissa, hunsigned, hfraction, hexponent, List.append_nil]
  rfl

/-- Integers of sixty-four bits are far from the largest double. -/
theorem literalFinite_intDigits (h : fitsInt64 n) : literalFinite (intDigits n) := by
  simp only [fitsInt64, Bool.and_eq_true, decide_eq_true_eq] at h
  have hlength := length_natDigits_le 19 n.natAbs (by omega)
  have hshort := List.length_dropWhile_le (· = 0x30) (natDigits n.natAbs)
  unfold literalFinite
  rw [literalParts_intDigits]
  simp only
  rw [if_pos]
  simp only [Bool.or_eq_true, decide_eq_true_eq]
  omega

theorem plain_int (h : fitsInt64 n) : plain depth (int n) := by
  rw [int, plain]
  exact literalFinite_intDigits h

end Durable.Json
