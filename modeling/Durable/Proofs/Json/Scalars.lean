import Durable.Json.Reader
import Durable.Proofs.Maps
import Durable.Proofs.Text.Numeral
import Durable.Proofs.Text.Utf8

/-!
# JSON numbers and strings read back

What stands between quotes is scanned and read back, and so are the digits of integers.
-/

namespace Durable.Json

open Durable.Text

variable {bytes rest : List UInt8} {n : Int}

/-- Whether a value can end in front of bytes: there are none, or they begin with a comma or a
    closing bracket. -/
def Ended (rest : List UInt8) : Prop :=
  ∀ b ∈ rest.head?, b = 0x2C ∨ b = 0x5D ∨ b = 0x7D

theorem Ended.nil : Ended [] := fun _ h => nomatch h

theorem Ended.comma (rest : List UInt8) : Ended (0x2C :: rest) := fun _ h => by
  cases h
  exact .inl rfl

theorem Ended.bracket (rest : List UInt8) : Ended (0x5D :: rest) := fun _ h => by
  cases h
  exact .inr (.inl rfl)

theorem Ended.brace (rest : List UInt8) : Ended (0x7D :: rest) := fun _ h => by
  cases h
  exact .inr (.inr rfl)

/-! ### Numbers -/

theorem scanDigits?_append {digits : List UInt8} (hsome : digits ≠ [])
    (hall : ∀ b ∈ digits, isDigit b) (hend : Ended rest) :
    scanDigits? (digits ++ rest) = some (digits, rest) := by
  have hstop : rest.takeWhile isDigit = [] ∧ rest.dropWhile isDigit = rest := by
    cases rest with
    | nil => exact ⟨rfl, rfl⟩
    | cons b rest =>
      have hb : isDigit b = false := by
        rcases hend b rfl with rfl | rfl | rfl <;> rfl
      rw [List.takeWhile_cons, List.dropWhile_cons, hb]
      exact ⟨rfl, rfl⟩
  unfold scanDigits?
  simp only [List.takeWhile_append_of_pos hall, List.dropWhile_append_of_pos hall, hstop.1,
    hstop.2, List.append_nil]
  rw [if_neg (by simpa using hsome)]

theorem scanFraction?_of_ended (hend : Ended rest) : scanFraction? rest = some ([], rest) := by
  unfold scanFraction?
  split
  · rcases hend _ rfl with h | h | h <;> exact absurd h (by decide)
  · rfl

theorem scanExponent?_of_ended (hend : Ended rest) : scanExponent? rest = some ([], rest) := by
  unfold scanExponent?
  split
  · rcases hend _ rfl with h | h | h <;> exact absurd h (by decide)
  · rcases hend _ rfl with h | h | h <;> exact absurd h (by decide)
  · rfl

theorem scanUnsigned?_natDigits (n : Nat) (hend : Ended rest) :
    scanUnsigned? (natDigits n ++ rest) = some (natDigits n, rest) := by
  have hwhole : scanWhole? (natDigits n ++ rest) = some (natDigits n, rest) := by
    unfold scanWhole?
    rw [scanDigits?_append (natDigits_ne_nil n) (natDigits_all n) hend]
    simp only [Option.bind_eq_bind, Option.bind_some]
    rcases natDigits_cases n with ⟨-, hdigits⟩ | ⟨-, b, more, hdigits, -, hb⟩
    · rw [hdigits]
      rfl
    · rw [hdigits]
      split
      · rename_i heq
        exact absurd (List.cons.inj heq).1 hb
      · rfl
  unfold scanUnsigned?
  rw [hwhole]
  simp only [Option.bind_eq_bind, Option.bind_some, scanFraction?_of_ended hend,
    scanExponent?_of_ended hend, List.append_nil, Option.pure_def]

theorem natDigits_ne_minus (n : Nat) (rest more : List UInt8) :
    natDigits n ++ rest ≠ 0x2D :: more := by
  intro heq
  rcases natDigits_cases n with ⟨-, hdigits⟩ | ⟨-, b, behind, hdigits, hdigit, -⟩
  · rw [hdigits] at heq
    exact absurd (List.cons.inj heq).1 (by decide)
  · rw [hdigits] at heq
    rw [(List.cons.inj heq).1] at hdigit
    exact absurd hdigit (by decide)

theorem scanNumber?_natDigits (n : Nat) (hend : Ended rest) :
    scanNumber? (natDigits n ++ rest) = some (natDigits n, rest) := by
  unfold scanNumber?
  split
  · rename_i heq
    exact absurd heq (natDigits_ne_minus n rest _)
  · exact scanUnsigned?_natDigits n hend

theorem scanNumber?_intDigits (n : Int) (hend : Ended rest) :
    scanNumber? (intDigits n ++ rest) = some (intDigits n, rest) := by
  unfold intDigits
  split
  · rw [List.cons_append, scanNumber?, scanUnsigned?_natDigits _ hend, Option.map_some]
  · exact scanNumber?_natDigits _ hend

theorem literalInt?_natDigits (n : Nat) : literalInt? (natDigits n) = some (n : Int) := by
  unfold literalInt?
  split
  · exact absurd ‹natDigits n = []› (natDigits_ne_nil n)
  · rename_i heq
    exact absurd ((List.append_nil _).trans heq) (natDigits_ne_minus n [] _)
  · rw [if_pos (List.all_eq_true.mpr (natDigits_all n)), digitsValue_natDigits]

theorem literalInt?_intDigits (n : Int) : literalInt? (intDigits n) = some n := by
  unfold intDigits
  split
  · rename_i hneg
    have hsome := natDigits_ne_nil n.natAbs
    have hall : (natDigits n.natAbs).all isDigit = true := List.all_eq_true.mpr (natDigits_all _)
    rw [literalInt?, hall, if_neg (by simpa using hsome)]
    simp only [digitsValue_natDigits]
    rw [if_neg (by omega)]
    congr 1
    omega
  · rename_i hpos
    rw [literalInt?_natDigits]
    congr 1
    omega

/-! ### Strings -/

/-- The three ways to write a byte: as itself, by a letter, or by its number. -/
inductive Escaped (b : UInt8) : List UInt8 → Prop where
  | plain (hplain : ¬ b < 0x20) (hquote : b ≠ 0x22) (hslash : b ≠ 0x5C) : Escaped b [b]
  | letter {e : UInt8} (hletter : shortEscape? e = some b) (hunit : e ≠ 0x75) : Escaped b [0x5C, e]
  | number {h i j k : UInt8} (hnumber : hex4? h i j k = some b.toNat)
    (hbytes : codePointBytes b.toNat = [b]) : Escaped b [0x5C, 0x75, h, i, j, k]

theorem escaped_escapeByte (b : UInt8) : Escaped b (escapeByte b) := by
  unfold escapeByte
  split
  · subst b
    exact .letter rfl (by decide)
  split
  · subst b
    exact .letter rfl (by decide)
  split
  · subst b
    exact .letter rfl (by decide)
  split
  · subst b
    exact .letter rfl (by decide)
  split
  · subst b
    exact .letter rfl (by decide)
  split
  · subst b
    exact .letter rfl (by decide)
  split
  · subst b
    exact .letter rfl (by decide)
  split
  · rename_i hsmall
    have hall : ∀ n < 32, hex4? 0x30 0x30 (if UInt8.ofNat n < 0x10 then 0x30 else 0x31)
        (if UInt8.ofNat n % 16 < 10 then 0x30 + UInt8.ofNat n % 16 else 0x57 + UInt8.ofNat n % 16)
          = some n ∧ codePointBytes n = [UInt8.ofNat n] := by
      decide +kernel
    have hb := hall b.toNat (UInt8.lt_iff_toNat_lt.mp hsmall)
    rw [UInt8.ofNat_toNat] at hb
    exact .number hb.1 hb.2
  · exact .plain ‹_› ‹_› ‹_›

theorem unescape?_escaped {b : UInt8} {found : List UInt8} (h : Escaped b found)
    (raw : List UInt8) : unescape? (found ++ raw) = (unescape? raw).map (b :: ·) := by
  cases h with
  | plain hplain hquote hslash =>
    exact unescape?.eq_5 b raw (fun _ _ _ _ _ _ _ _ _ h _ => hslash h)
      (fun _ _ _ _ _ h _ => hslash h) (fun _ _ h _ => hslash h)
  | @letter e hletter hunit =>
    have hread := unescape?.eq_4 e raw (fun _ _ _ _ _ _ _ _ _ h _ => hunit h)
      (fun _ _ _ _ _ h _ => hunit h)
    rw [hletter] at hread
    simp only [Option.bind_eq_bind, Option.bind_some, Option.pure_def] at hread
    rw [Option.map_eq_bind]
    exact hread
  | @number h i j k hnumber hbytes =>
    have hsmall := b.toNat_lt
    have hlow : ¬ (0xD800 ≤ b.toNat ∧ b.toNat < 0xDC00) := by omega
    have hhigh : ¬ (0xDC00 ≤ b.toNat ∧ b.toNat < 0xE000) := by omega
    have hboth : ¬ (0xD800 ≤ b.toNat ∧ b.toNat < 0xE000) := by omega
    -- A second number behind the first could make a pair of it, but not with one so small.
    by_cases hpair : ∃ e f g h rest, raw = 0x5C :: 0x75 :: e :: f :: g :: h :: rest
    · obtain ⟨e, f, g, h', rest, rfl⟩ := hpair
      have hread := unescape?.eq_2 h i j k e f g h' rest
      rw [hnumber] at hread
      simp only [Option.bind_eq_bind, Option.bind_some, if_neg hlow, if_neg hhigh, hbytes,
        Option.pure_def] at hread
      rw [Option.map_eq_bind]
      exact hread
    · have hread := unescape?.eq_3 h i j k raw
        (fun e f g h rest heq => hpair ⟨e, f, g, h, rest, heq⟩)
      rw [hnumber] at hread
      simp only [Option.bind_eq_bind, Option.bind_some, if_neg hboth, hbytes,
        Option.pure_def] at hread
      rw [Option.map_eq_bind]
      exact hread

theorem scanString?_escaped {b : UInt8} {found : List UInt8} (h : Escaped b found)
    (raw : List UInt8) : scanString? (found ++ raw) =
      (scanString? raw).map fun (inner, after) => (found ++ inner, after) := by
  cases h with
  | plain hplain hquote hslash =>
    have hread := scanString?.eq_5 b raw hquote (fun _ _ _ _ _ h _ => hslash h)
      (fun _ _ h _ => hslash h)
    rw [if_neg (by simpa using ⟨by simpa using hplain, hslash⟩)] at hread
    exact hread
  | @letter e hletter hunit =>
    have hread := scanString?.eq_4 e raw (fun _ _ _ _ _ h _ => hunit h)
    rw [hletter, if_pos Option.isSome_some] at hread
    exact hread
  | @number h i j k hnumber hbytes =>
    have hread := scanString?.eq_3 h i j k raw
    rw [hnumber, if_pos Option.isSome_some] at hread
    exact hread

/-- Bytes are read back from between quotes. -/
@[simp] theorem unescape?_escape (bytes : List UInt8) : unescape? (escape bytes) = some bytes := by
  induction bytes with
  | nil => rfl
  | cons b bytes ih =>
    rw [escape, List.flatMap_cons, unescape?_escaped (escaped_escapeByte b)]
    exact congrArg (Option.map (b :: ·)) ih

/-- Bytes are found between their quotes. -/
theorem scanString?_escape (bytes rest : List UInt8) :
    scanString? (escape bytes ++ 0x22 :: rest) = some (escape bytes, rest) := by
  induction bytes with
  | nil => rfl
  | cons b bytes ih =>
    rw [escape, List.flatMap_cons, List.append_assoc,
      scanString?_escaped (escaped_escapeByte b), ← escape, ih, Option.map_some]

@[simp] theorem rawText?_escape (s : String) : rawText? (escape (utf8 s)) = some s := by
  rw [rawText?, unescape?_escape, Option.bind_some, ofUtf8?_utf8]

/-! ### Scalars -/

@[simp] theorem text?_text (s : String) : (text s).text? = some s :=
  rawText?_escape s

@[simp] theorem int?_int (n : Int) : (int n).int? = some n :=
  literalInt?_intDigits n

@[simp] theorem int?_nat (n : Nat) : (nat n).int? = some (n : Int) :=
  literalInt?_natDigits n

theorem int64?_int (h : fitsInt64 n) : (int n).int64? = some n := by
  rw [int64?, int?_int, Option.filter_some, if_pos h]

theorem int32?_int (h : fitsInt32 n) : (int n).int32? = some n := by
  rw [int32?, int?_int, Option.filter_some, if_pos h]

theorem uint32?_nat {n : Nat} (h : fitsUInt32 n) : (nat n).uint32? = some n := by
  rw [uint32?, int?_nat, Option.filter_some, if_pos h]
  rfl

theorem byte?_nat (b : UInt8) : (nat b.toNat).byte? = some b := by
  have hsmall := b.toNat_lt
  rw [byte?, int?_nat, Option.filter_some, if_pos (by simp; omega), Option.map_some,
    Int.toNat_natCast, UInt8.ofNat_toNat]

theorem text_ne_null (s : String) : text s ≠ .null := nofun

theorem int_ne_null (n : Int) : int n ≠ .null := nofun

theorem nat_ne_null (n : Nat) : nat n ≠ .null := nofun

theorem record_ne_null (members : List (String × Json)) : record members ≠ .null := nofun

theorem opt?_opt {α : Type} {read : Json → Option α} {write : α → Json} {a : Option α}
    (hnull : ∀ a, write a ≠ .null) (hread : ∀ x ∈ a, read (write x) = some x) :
    (opt write a).opt? read = some a := by
  cases a with
  | none => rfl
  | some a =>
    have hsome : (write a).opt? read = (read (write a)).map some := by
      unfold opt?
      split
      · rename_i heq
        exact absurd heq (hnull a)
      · rfl
    rw [opt, hsome, hread a rfl, Option.map_some]

theorem list?_list {α : Type} {read : Json → Option α} {write : α → Json} {xs : List α}
    (hread : ∀ x ∈ xs, read (write x) = some x) : (list write xs).list? read = some xs :=
  (mapM_map_eq_pure id hread).trans (congrArg some xs.map_id)

/-! ### What is read -/

variable {j : Json}

theorem fits_of_int64? (h : j.int64? = some n) : fitsInt64 n :=
  (Option.filter_eq_some_iff.mp h).2

theorem fits_of_int32? (h : j.int32? = some n) : fitsInt32 n :=
  (Option.filter_eq_some_iff.mp h).2

theorem fits_of_uint32? {m : Nat} (h : j.uint32? = some m) : fitsUInt32 m := by
  obtain ⟨n, hn, rfl⟩ := Option.map_eq_some_iff.mp h
  have hfits := (Option.filter_eq_some_iff.mp hn).2
  simp only [fitsUInt32, Bool.and_eq_true, decide_eq_true_eq] at hfits ⊢
  omega

theorem exists_of_opt? {α : Type} {read : Json → Option α} {a : Option α}
    (h : j.opt? read = some a) : ∀ x ∈ a, read j = some x := by
  unfold opt? at h
  split at h
  · cases h
    exact fun x hx => nomatch hx
  · obtain ⟨b, hb, rfl⟩ := Option.map_eq_some_iff.mp h
    intro x hx
    cases hx
    exact hb

end Durable.Json
