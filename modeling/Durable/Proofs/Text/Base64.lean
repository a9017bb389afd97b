import Durable.Text.Base64

/-!
# Base64 read back

Bytes are read back from their groups of four characters, all of them ASCII.
-/

namespace Durable.Text.Base64

theorem value?_digit {n : Nat} (h : n < 64) :
    value? (digit n) = some n ∧ digit n ≠ pad ∧ digit n < 0x80 := by
  have hall : ∀ n < 64, value? (digit n) = some n ∧ digit n ≠ pad ∧ digit n < 0x80 := by
    decide +kernel
  exact hall n h

/-- Bytes are read back from their written form. -/
@[simp] theorem decode?_encode (bytes : List UInt8) : decode? (encode bytes) = some bytes := by
  fun_induction encode bytes with
  | case1 => rfl
  | case2 a =>
    have ha := a.toNat_lt
    obtain ⟨hx, -, -⟩ := value?_digit (n := a.toNat / 4) (by omega)
    obtain ⟨hy, -, -⟩ := value?_digit (n := a.toNat % 4 * 16) (by omega)
    have hfirst : a.toNat / 4 * 4 + a.toNat % 4 * 16 / 16 = a.toNat := by omega
    have hrest : a.toNat % 4 * 16 % 16 = 0 := by omega
    rw [decode?, hx, hy]
    simp only [Option.bind_eq_bind, Option.bind_some, hfirst, hrest, UInt8.ofNat_toNat, and_self,
      if_true]
  | case3 a b =>
    have ha := a.toNat_lt
    have hb := b.toNat_lt
    obtain ⟨hx, -, -⟩ := value?_digit (n := a.toNat / 4) (by omega)
    obtain ⟨hy, -, -⟩ := value?_digit (n := a.toNat % 4 * 16 + b.toNat / 16) (by omega)
    obtain ⟨hz, hzpad, -⟩ := value?_digit (n := b.toNat % 16 * 4) (by omega)
    have hfirst : a.toNat / 4 * 4 + (a.toNat % 4 * 16 + b.toNat / 16) / 16 = a.toNat := by omega
    have hsecond : (a.toNat % 4 * 16 + b.toNat / 16) % 16 * 16 + b.toNat % 16 * 4 / 4
        = b.toNat := by omega
    have hrest : b.toNat % 16 * 4 % 4 = 0 := by omega
    rw [decode?, hx, hy, hz]
    simp only [Option.bind_eq_bind, Option.bind_some, hfirst, hsecond, hrest, UInt8.ofNat_toNat,
      hzpad, false_and, and_self, if_false, if_true]
  | case4 a b c rest ih =>
    have ha := a.toNat_lt
    have hb := b.toNat_lt
    have hc := c.toNat_lt
    obtain ⟨hx, -, -⟩ := value?_digit (n := a.toNat / 4) (by omega)
    obtain ⟨hy, -, -⟩ := value?_digit (n := a.toNat % 4 * 16 + b.toNat / 16) (by omega)
    obtain ⟨hz, hzpad, -⟩ := value?_digit (n := b.toNat % 16 * 4 + c.toNat / 64) (by omega)
    obtain ⟨hw, hwpad, -⟩ := value?_digit (n := c.toNat % 64) (by omega)
    have hfirst : a.toNat / 4 * 4 + (a.toNat % 4 * 16 + b.toNat / 16) / 16 = a.toNat := by omega
    have hsecond : (a.toNat % 4 * 16 + b.toNat / 16) % 16 * 16
        + (b.toNat % 16 * 4 + c.toNat / 64) / 4 = b.toNat := by omega
    have hthird : (b.toNat % 16 * 4 + c.toNat / 64) % 4 * 64 + c.toNat % 64 = c.toNat := by omega
    rw [decode?, hx, hy, hz, hw, ih]
    simp only [Option.bind_eq_bind, Option.bind_some, hfirst, hsecond, hthird, UInt8.ofNat_toNat,
      hzpad, hwpad, false_and, if_false]

theorem encode_ascii (bytes : List UInt8) : ∀ c ∈ encode bytes, c < 0x80 := by
  have hdigit : ∀ {n : Nat}, n < 64 → digit n < 0x80 := fun h => (value?_digit h).2.2
  fun_induction encode bytes with
  | case1 => exact fun c hc => nomatch hc
  | case2 a =>
    have ha := a.toNat_lt
    simp only [List.forall_mem_cons]
    refine ⟨hdigit (by omega), hdigit (by omega), by decide, by decide, fun c hc => nomatch hc⟩
  | case3 a b =>
    have ha := a.toNat_lt
    have hb := b.toNat_lt
    simp only [List.forall_mem_cons]
    refine ⟨hdigit (by omega), hdigit (by omega), hdigit (by omega), by decide,
      fun c hc => nomatch hc⟩
  | case4 a b c rest ih =>
    have ha := a.toNat_lt
    have hb := b.toNat_lt
    have hc := c.toNat_lt
    simp only [List.forall_mem_cons]
    exact ⟨hdigit (by omega), hdigit (by omega), hdigit (by omega), hdigit (by omega), ih⟩

end Durable.Text.Base64
