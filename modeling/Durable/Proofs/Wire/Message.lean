import Durable.Wire.Message
import Durable.Proofs.Text.Utf8
import Mathlib.Algebra.Group.Nat.Defs

/-!
# Messages read back

What is written in front of other bytes is read back, and these bytes are left. Whatever is read, no
more is left than there was.
-/

namespace Durable.Wire

variable {n tag room : Nat} {kind : WireKind} {bytes rest : List UInt8}

/-! ### Integers -/

/-- The last of `room` bytes has one bit to give, each other one seven. -/
theorem readVarintWithin?_writeVarint (room n : Nat) (h : n < 2 * 128 ^ room)
    (rest : List UInt8) :
    readVarintWithin? (room + 1) (writeVarint n ++ rest) = some (n, rest) := by
  induction room generalizing n with
  | zero =>
    have hsmall : n < 2 := by simpa using h
    have hbyte : (UInt8.ofNat n).toNat = n :=
      UInt8.toNat_ofNat_of_lt' (Nat.lt_trans hsmall (by decide))
    have hlt : UInt8.ofNat n < 128 := by
      rw [UInt8.lt_iff_toNat_lt, hbyte]
      exact Nat.lt_trans hsmall (by decide)
    have hroom : ¬ 2 ≤ UInt8.ofNat n := by
      rw [UInt8.le_iff_toNat_le, hbyte]
      exact Nat.not_le.mpr hsmall
    rw [writeVarint, if_pos (by omega), List.singleton_append, readVarintWithin?, if_pos hlt,
      if_neg (fun hfull => hroom hfull.2), hbyte]
  | succ room ih =>
    by_cases hn : n < 128
    · have hbyte : (UInt8.ofNat n).toNat = n :=
        UInt8.toNat_ofNat_of_lt' (Nat.lt_trans hn (by decide))
      have hlt : UInt8.ofNat n < 128 := by
        rw [UInt8.lt_iff_toNat_lt, hbyte]
        exact hn
      rw [writeVarint, if_pos hn, List.singleton_append, readVarintWithin?, if_pos hlt,
        if_neg (fun hfull => Nat.succ_ne_zero room hfull.1), hbyte]
    · have hmod : n % 128 + 128 < UInt8.size := Nat.add_lt_add_right (Nat.mod_lt n (by decide)) 128
      have hbyte := UInt8.toNat_ofNat_of_lt' hmod
      have hge : ¬ UInt8.ofNat (n % 128 + 128) < 128 := by
        rw [UInt8.lt_iff_toNat_lt, hbyte]
        exact Nat.not_lt.mpr (Nat.le_add_left 128 _)
      have hrest : n / 128 < 2 * 128 ^ room := by
        rw [Nat.pow_succ, ← Nat.mul_assoc] at h
        exact Nat.div_lt_of_lt_mul (by rwa [Nat.mul_comm])
      rw [writeVarint, if_neg hn, List.cons_append, readVarintWithin?, if_neg hge, ih _ hrest,
        Option.map_some]
      simp only [hbyte]
      congr 2
      omega

theorem readVarint?_writeVarint (h : n < 0x10000000000000000) (rest : List UInt8) :
    readVarint? (writeVarint n ++ rest) = some (n, rest) :=
  readVarintWithin?_writeVarint 9 n h rest

theorem length_writeVarint (room n : Nat) (h : n < 128 ^ (room + 1)) :
    (writeVarint n).length ≤ room + 1 := by
  induction room generalizing n with
  | zero =>
    have hlength : (writeVarint n).length = 1 := by
      rw [writeVarint, if_pos (by simpa using h), List.length_singleton]
    exact Nat.le_of_eq hlength
  | succ room ih =>
    rw [writeVarint]
    split
    · rw [List.length_singleton]
      omega
    · have hrest : n / 128 < 128 ^ (room + 1) :=
        Nat.div_lt_of_lt_mul (by rwa [Nat.mul_comm, ← Nat.pow_succ])
      have hlength := ih _ hrest
      rw [List.length_cons]
      omega

theorem length_of_readVarintWithin? (h : readVarintWithin? room bytes = some (n, rest)) :
    rest.length < bytes.length := by
  induction room generalizing bytes n with
  | zero => cases h
  | succ room ih =>
    cases bytes with
    | nil => cases h
    | cons b behind =>
      rw [readVarintWithin?] at h
      split at h
      · split at h
        · cases h
        · cases h
          exact Nat.lt_succ_self _
      · obtain ⟨⟨m, after⟩, hread, heq⟩ := Option.map_eq_some_iff.mp h
        cases heq
        exact Nat.lt_succ_of_lt (ih hread)

theorem length_of_readVarint? (h : readVarint? bytes = some (n, rest)) :
    rest.length < bytes.length :=
  length_of_readVarintWithin? h

/-! ### Keys -/

theorem ofCode?_code (kind : WireKind) : WireKind.ofCode? kind.code = some kind := by
  cases kind <;> rfl

theorem code_lt (kind : WireKind) : kind.code < 8 := by
  cases kind <;> decide

theorem readKey?_writeKey (hpos : 0 < tag) (hsmall : tag < 0x20000000) (kind : WireKind)
    (rest : List UInt8) : readKey? (writeKey tag kind ++ rest) = some (tag, kind, rest) := by
  have hcode := code_lt kind
  have htag : (tag * 8 + kind.code) / 8 = tag := by omega
  have hkind : (tag * 8 + kind.code) % 8 = kind.code := by omega
  unfold readKey? writeKey
  rw [readVarint?_writeVarint (by omega)]
  simp only [Option.bind_eq_bind, Option.bind_some, htag, hkind, ofCode?_code]
  rw [if_pos (by omega)]

theorem length_of_readKey? (h : readKey? bytes = some (tag, kind, rest)) :
    rest.length < bytes.length := by
  unfold readKey? at h
  simp only [Option.bind_eq_bind, Option.bind_eq_some_iff] at h
  obtain ⟨⟨key, behind⟩, hread, found, -, h⟩ := h
  split at h
  · cases h
    exact length_of_readVarint? hread
  · cases h

/-! ### Contents -/

theorem word_lt (n : Int) : word n < 0x10000000000000000 := by
  unfold word
  omega

theorem wrapInt64_word {n : Int} (h : fitsInt64 n) : wrapInt64 (word n) = n := by
  simp only [fitsInt64, Bool.and_eq_true, decide_eq_true_eq] at h
  have hword : (word n : Int) = n % 0x10000000000000000 := by
    unfold word
    omega
  unfold wrapInt64
  rw [hword, Int.bmod_eq_emod]
  split <;> omega

theorem wrapInt32_word {n : Int} (h : fitsInt32 n) : wrapInt32 (word n) = n := by
  simp only [fitsInt32, Bool.and_eq_true, decide_eq_true_eq] at h
  have hword : (word n : Int) = n % 0x10000000000000000 := by
    unfold word
    omega
  unfold wrapInt32
  rw [hword, Int.bmod_eq_emod]
  split <;> omega

theorem fitsInt64_wrapInt64 (n : Int) : fitsInt64 (wrapInt64 n) := by
  simp only [fitsInt64, Bool.and_eq_true, decide_eq_true_eq]
  unfold wrapInt64
  rw [Int.bmod_eq_emod]
  split <;> omega

theorem fitsInt32_wrapInt32 (n : Int) : fitsInt32 (wrapInt32 n) := by
  simp only [fitsInt32, Bool.and_eq_true, decide_eq_true_eq]
  unfold wrapInt32
  rw [Int.bmod_eq_emod]
  split <;> omega

theorem readWord?_word (n : Int) (rest : List UInt8) :
    readWord? .varint (writeVarint (word n) ++ rest) = some (word n, rest) := by
  rw [readWord?, if_pos rfl, readVarint?_writeVarint (word_lt n)]

theorem readInt64?_word {n : Int} (h : fitsInt64 n) (rest : List UInt8) :
    readInt64? .varint (writeVarint (word n) ++ rest) = some (n, rest) := by
  rw [readInt64?, readWord?_word, Option.map_some]
  simp only [wrapInt64_word h]

theorem readInt32?_word {n : Int} (h : fitsInt32 n) (rest : List UInt8) :
    readInt32? .varint (writeVarint (word n) ++ rest) = some (n, rest) := by
  rw [readInt32?, readWord?_word, Option.map_some]
  simp only [wrapInt32_word h]

theorem readUInt32?_word {n : Nat} (h : fitsUInt32 n) (rest : List UInt8) :
    readUInt32? .varint (writeVarint (word n) ++ rest) = some (n, rest) := by
  simp only [fitsUInt32, Bool.and_eq_true, decide_eq_true_eq] at h
  have hword : word n % 0x100000000 = n := by
    unfold word
    omega
  rw [readUInt32?, readWord?_word, Option.map_some]
  simp only [hword]

theorem readBytes?_counted (h : bytes.length < 0x10000000000000000) (rest : List UInt8) :
    readBytes? .counted (writeVarint bytes.length ++ bytes ++ rest) = some (bytes, rest) := by
  rw [readBytes?, if_pos rfl, readCounted?, List.append_assoc, readVarint?_writeVarint h]
  simp only [Option.bind_eq_bind, Option.bind_some]
  rw [if_pos (by rw [List.length_append]; omega), List.take_left, List.drop_left]

theorem readText?_counted {s : String} (h : (Text.utf8 s).length < 0x10000000000000000)
    (rest : List UInt8) :
    readText? .counted (writeVarint (Text.utf8 s).length ++ Text.utf8 s ++ rest)
      = some (s, rest) := by
  rw [readText?, readBytes?_counted h]
  simp only [Option.bind_eq_bind, Option.bind_some, Text.ofUtf8?_utf8, Option.pure_def]

/-! ### What a field takes -/

theorem length_writeKey_le (hsmall : tag < 0x20000000) (kind : WireKind) :
    (writeKey tag kind).length ≤ 5 := by
  have hcode := code_lt kind
  exact length_writeVarint 4 _ (by omega)

theorem length_writeInt_le (hsmall : tag < 0x20000000) (n : Int) :
    (writeInt tag n).length ≤ 15 := by
  have hkey := length_writeKey_le hsmall .varint
  have hword := length_writeVarint 9 (word n) (Nat.lt_trans (word_lt n) (by decide))
  rw [writeInt, List.length_append]
  omega

theorem length_writeCounted_le (hsmall : tag < 0x20000000)
    (h : bytes.length < 0x10000000000000000) :
    (writeCounted tag bytes).length ≤ bytes.length + 15 := by
  have hkey := length_writeKey_le hsmall .counted
  have hcount := length_writeVarint 9 bytes.length (Nat.lt_trans h (by decide))
  rw [writeCounted, List.length_append, List.length_append]
  omega

/-! ### What is left -/

theorem length_of_readCounted? {found : List UInt8} (h : readCounted? bytes = some (found, rest)) :
    found.length + rest.length ≤ bytes.length := by
  unfold readCounted? at h
  simp only [Option.bind_eq_bind, Option.bind_eq_some_iff] at h
  obtain ⟨⟨n, behind⟩, hread, h⟩ := h
  have hlength := length_of_readVarint? hread
  simp only at h
  split at h
  · cases h
    rw [List.length_take, List.length_drop]
    omega
  · cases h

theorem length_of_readBytes? {found : List UInt8} (h : readBytes? kind bytes = some (found, rest)) :
    found.length + rest.length ≤ bytes.length := by
  unfold readBytes? at h
  split at h
  · exact length_of_readCounted? h
  · cases h

theorem length_of_readText? {s : String} (h : readText? kind bytes = some (s, rest)) :
    (Text.utf8 s).length + rest.length ≤ bytes.length := by
  unfold readText? at h
  simp only [Option.bind_eq_bind, Option.bind_eq_some_iff] at h
  obtain ⟨⟨found, behind⟩, hread, text, htext, h⟩ := h
  cases h
  rw [Text.utf8_of_ofUtf8? htext]
  exact length_of_readBytes? hread

theorem length_of_readWord? (h : readWord? kind bytes = some (n, rest)) :
    rest.length ≤ bytes.length := by
  unfold readWord? at h
  split at h
  · exact Nat.le_of_lt (length_of_readVarint? h)
  · cases h

theorem fits_of_readInt64? {n : Int} (h : readInt64? kind bytes = some (n, rest)) :
    fitsInt64 n ∧ rest.length ≤ bytes.length := by
  obtain ⟨⟨word, behind⟩, hread, heq⟩ := Option.map_eq_some_iff.mp h
  simp only [Prod.mk.injEq] at heq
  obtain ⟨rfl, rfl⟩ := heq
  exact ⟨fitsInt64_wrapInt64 word, length_of_readWord? hread⟩

theorem fits_of_readInt32? {n : Int} (h : readInt32? kind bytes = some (n, rest)) :
    fitsInt32 n ∧ rest.length ≤ bytes.length := by
  obtain ⟨⟨word, behind⟩, hread, heq⟩ := Option.map_eq_some_iff.mp h
  simp only [Prod.mk.injEq] at heq
  obtain ⟨rfl, rfl⟩ := heq
  exact ⟨fitsInt32_wrapInt32 word, length_of_readWord? hread⟩

theorem fits_of_readUInt32? {n : Nat} (h : readUInt32? kind bytes = some (n, rest)) :
    fitsUInt32 n ∧ rest.length ≤ bytes.length := by
  obtain ⟨⟨word, behind⟩, hread, heq⟩ := Option.map_eq_some_iff.mp h
  simp only [Prod.mk.injEq] at heq
  obtain ⟨rfl, rfl⟩ := heq
  have hsmall := Nat.mod_lt word (show 0 < 0x100000000 by decide)
  refine ⟨?_, length_of_readWord? hread⟩
  simp only [fitsUInt32, Bool.and_eq_true, decide_eq_true_eq]
  omega

theorem length_of_skipFlat? (h : skipFlat? kind bytes = some rest) :
    rest.length ≤ bytes.length := by
  have hdrop : ∀ n, dropExactly? n bytes = some rest → rest.length ≤ bytes.length := by
    intro n h
    unfold dropExactly? at h
    split at h
    · cases h
      rw [List.length_drop]
      exact Nat.sub_le _ _
    · cases h
  unfold skipFlat? at h
  split at h
  · obtain ⟨⟨n, behind⟩, hread, rfl⟩ := Option.map_eq_some_iff.mp h
    exact Nat.le_of_lt (length_of_readVarint? hread)
  · exact hdrop 8 h
  · exact hdrop 4 h
  · obtain ⟨⟨found, behind⟩, hread, rfl⟩ := Option.map_eq_some_iff.mp h
    have hlength := length_of_readCounted? hread
    show behind.length ≤ _
    omega
  · cases h
  · cases h

theorem length_of_skipGroup? {fuel depth : Nat} (h : skipGroup? fuel depth tag bytes = some rest) :
    rest.length ≤ bytes.length := by
  induction fuel generalizing depth tag bytes rest with
  | zero => cases h
  | succ fuel ih =>
    rw [skipGroup?] at h
    simp only [Option.bind_eq_bind, Option.bind_eq_some_iff] at h
    obtain ⟨⟨inner, kind, behind⟩, hkey, h⟩ := h
    have hlength := length_of_readKey? hkey
    simp only at h
    split at h
    · split at h
      · cases h
        omega
      · cases h
    split at h
    · cases h
    split at h
    · obtain ⟨after, hgroup, h⟩ := Option.bind_eq_some_iff.mp h
      have hinner := ih hgroup
      have houter := ih h
      omega
    · obtain ⟨after, hflat, h⟩ := Option.bind_eq_some_iff.mp h
      have hinner := length_of_skipFlat? hflat
      have houter := ih h
      omega

theorem length_of_skipField? {depth : Nat} (h : skipField? depth tag kind bytes = some rest) :
    rest.length ≤ bytes.length := by
  unfold skipField? at h
  split at h
  · cases h
  split at h
  · exact length_of_skipGroup? h
  · exact length_of_skipFlat? h

/-! ### Fields in a row -/

section

variable {α : Type} {step : Nat → WireKind → List UInt8 → α → Option (α × List UInt8)}
variable {a a' a'' : α}

/-- Whether a message is read to its end, from one value to another. -/
def Reads (step : Nat → WireKind → List UInt8 → α → Option (α × List UInt8))
    (bytes : List UInt8) (a a' : α) : Prop :=
  ∀ fuel, bytes.length ≤ fuel → foldFields? step fuel bytes a = some a'

theorem Reads.foldMessage? (h : Reads step bytes a a') : foldMessage? step bytes a = some a' :=
  h bytes.length (Nat.le_refl _)

theorem Reads.nil : Reads step [] a a := by
  intro fuel _
  cases fuel <;> rfl

theorem foldFields?_succ (fuel : Nat) (hbytes : bytes ≠ []) (a : α) :
    foldFields? step (fuel + 1) bytes a = (readKey? bytes).bind fun (tag, kind, rest) =>
      (step tag kind rest a).bind fun (a, rest) => foldFields? step fuel rest a := by
  cases bytes with
  | nil => exact absurd rfl hbytes
  | cons b behind => rfl

/-- A field is read, then the rest. -/
theorem Reads.field {body : List UInt8} (hpos : 0 < tag) (hsmall : tag < 0x20000000)
    (hfield : step tag kind (body ++ rest) a = some (a', rest)) (h : Reads step rest a' a'') :
    Reads step (writeKey tag kind ++ body ++ rest) a a'' := by
  intro fuel hfuel
  have hkey := readKey?_writeKey hpos hsmall kind (body ++ rest)
  have hshort := length_of_readKey? hkey
  rw [List.append_assoc] at hfuel ⊢
  cases fuel with
  | zero => omega
  | succ fuel =>
    rw [foldFields?_succ fuel (List.ne_nil_of_length_pos (by omega)), hkey]
    simp only [Option.bind_some, hfield]
    refine h fuel ?_
    rw [List.length_append] at hshort
    omega

/-- An integer that was left out changes nothing. -/
theorem Reads.int {n : Int} (a' : α) (hpos : 0 < tag) (hsmall : tag < 0x20000000)
    (hzero : n = 0 → a' = a)
    (hfield : ∀ rest, step tag .varint (writeVarint (word n) ++ rest) a = some (a', rest))
    (h : Reads step rest a' a'') : Reads step (writeIntUnlessZero tag n ++ rest) a a'' := by
  unfold writeIntUnlessZero
  split
  · rename_i hn
    rw [← hzero hn]
    exact h
  · exact Reads.field hpos hsmall (hfield rest) h

/-- What every field keeps, the message keeps. -/
theorem foldFields?_induct {P : List UInt8 → α → Prop}
    (keeps : ∀ {bytes tag kind behind rest a a'}, readKey? bytes = some (tag, kind, behind) →
      step tag kind behind a = some (a', rest) → P bytes a → P rest a')
    {fuel : Nat} (h : foldFields? step fuel bytes a = some a') (hP : P bytes a) : P [] a' := by
  induction fuel generalizing bytes a with
  | zero =>
    cases bytes with
    | nil =>
      cases h
      exact hP
    | cons b behind => cases h
  | succ fuel ih =>
    cases bytes with
    | nil =>
      cases h
      exact hP
    | cons b behind =>
      rw [foldFields?_succ fuel (List.cons_ne_nil b behind)] at h
      simp only [Option.bind_eq_some_iff] at h
      obtain ⟨⟨tag, kind, after⟩, hkey, ⟨next, rest⟩, hfield, h⟩ := h
      exact ih h (keeps hkey hfield hP)

end

end Durable.Wire
