import Durable.Text.Numeral
import Mathlib.Algebra.Group.Nat.Defs

/-!
# Numbers read back

The digits of a number stand for it, and no zero stands in front of them.
-/

namespace Durable.Text

variable {n : Nat}

theorem toNat_digit {d : Nat} (h : d < 10) : (UInt8.ofNat (0x30 + d)).toNat = 0x30 + d :=
  UInt8.toNat_ofNat_of_lt' (show 0x30 + d < 256 by omega)

theorem isDigit_digit {d : Nat} (h : d < 10) : isDigit (UInt8.ofNat (0x30 + d)) := by
  simp only [isDigit, Bool.and_eq_true, decide_eq_true_eq, UInt8.le_iff_toNat_le, toNat_digit h]
  exact ⟨Nat.le_add_right _ _, Nat.add_le_add_left (Nat.le_of_lt_succ h) _⟩

theorem natDigits_all (n : Nat) : ∀ b ∈ natDigits n, isDigit b := by
  fun_induction natDigits n with
  | case1 n hsmall =>
    intro b hb
    rw [List.mem_singleton.mp hb]
    exact isDigit_digit hsmall
  | case2 n hlarge ih =>
    intro b hb
    rcases List.mem_append.mp hb with hb | hb
    · exact ih b hb
    · rw [List.mem_singleton.mp hb]
      exact isDigit_digit (Nat.mod_lt n (by decide))

theorem digitsValue_append (sofar : Nat) (xs ys : List UInt8) :
    digitsValue sofar (xs ++ ys) = digitsValue (digitsValue sofar xs) ys := by
  induction xs generalizing sofar with
  | nil => rfl
  | cons b xs ih => exact ih _

theorem digitsValue_digit (sofar : Nat) {d : Nat} (h : d < 10) :
    digitsValue sofar [UInt8.ofNat (0x30 + d)] = 10 * sofar + d := by
  show 10 * sofar + ((UInt8.ofNat (0x30 + d)).toNat - 0x30) = 10 * sofar + d
  rw [toNat_digit h, Nat.add_sub_cancel_left]

/-- Digits are read back. -/
@[simp] theorem digitsValue_natDigits (n : Nat) : digitsValue 0 (natDigits n) = n := by
  fun_induction natDigits n with
  | case1 n hsmall =>
    rw [digitsValue_digit 0 hsmall, Nat.mul_zero, Nat.zero_add]
  | case2 n hlarge ih =>
    rw [digitsValue_append, ih, digitsValue_digit _ (Nat.mod_lt n (by decide))]
    omega

/-- Digits begin with a zero only when they are of zero. -/
theorem natDigits_cases (n : Nat) :
    n = 0 ∧ natDigits n = [0x30] ∨
      0 < n ∧ ∃ b rest, natDigits n = b :: rest ∧ isDigit b ∧ b ≠ 0x30 := by
  fun_induction natDigits n with
  | case1 n hsmall =>
    cases n with
    | zero => exact .inl ⟨rfl, rfl⟩
    | succ n =>
      refine .inr ⟨Nat.succ_pos n, _, [], rfl, isDigit_digit hsmall, fun heq => ?_⟩
      have hbyte := congrArg UInt8.toNat heq
      rw [toNat_digit hsmall] at hbyte
      have hzero : 0x30 + (n + 1) = 0x30 := hbyte
      omega
  | case2 n hlarge ih =>
    rcases ih with ⟨hzero, -⟩ | ⟨-, b, rest, hdigits, hdigit, hb⟩
    · omega
    · exact .inr ⟨by omega, b, rest ++ [UInt8.ofNat (0x30 + n % 10)], by rw [hdigits]; rfl, hdigit,
        hb⟩

theorem length_natDigits_le (k n : Nat) (h : n < 10 ^ (k + 1)) : (natDigits n).length ≤ k + 1 := by
  induction k generalizing n with
  | zero =>
    have hlength : (natDigits n).length = 1 := by
      rw [natDigits, if_pos (by simpa using h), List.length_singleton]
    exact Nat.le_of_eq hlength
  | succ k ih =>
    rw [natDigits]
    split
    · rw [List.length_singleton]
      omega
    · have hrest : n / 10 < 10 ^ (k + 1) :=
        Nat.div_lt_of_lt_mul (by rwa [Nat.mul_comm, ← Nat.pow_succ])
      have hlength := ih _ hrest
      rw [List.length_append, List.length_singleton]
      omega

theorem natDigits_ne_nil (n : Nat) : natDigits n ≠ [] := by
  rcases natDigits_cases n with ⟨-, hdigits⟩ | ⟨-, b, rest, hdigits, -⟩ <;> rw [hdigits] <;> simp

end Durable.Text
