/-!
# Decimal integers

The digits of a number and the number of digits, over bytes; and the ranges of the fixed-width
integers that formats and settings bound them by.
-/

namespace Durable

/-- Whether an integer fits sixty-four signed bits. -/
def fitsInt64 (n : Int) : Bool :=
  -0x8000000000000000 ≤ n && n < 0x8000000000000000

/-- Whether an integer fits thirty-two signed bits. -/
def fitsInt32 (n : Int) : Bool :=
  -0x80000000 ≤ n && n < 0x80000000

/-- Whether an integer fits thirty-two unsigned bits. -/
def fitsUInt32 (n : Int) : Bool :=
  0 ≤ n && n < 0x100000000

/-- The signed reading of the low sixty-four bits of an integer. -/
def wrapInt64 (n : Int) : Int :=
  n.bmod 0x10000000000000000

/-- The signed reading of the low thirty-two bits of an integer. -/
def wrapInt32 (n : Int) : Int :=
  n.bmod 0x100000000

/-- The nearest integer that fits sixty-four signed bits. -/
def clampInt64 (n : Int) : Int :=
  max (-0x8000000000000000) (min n 0x7fffffffffffffff)

namespace Text

/-- Whether a byte is an ASCII digit. -/
def isDigit (b : UInt8) : Bool :=
  0x30 ≤ b && b ≤ 0x39

/-- The number that decimal digits stand for, after the digits already read. -/
def digitsValue (sofar : Nat) : List UInt8 → Nat
  | [] => sofar
  | b :: rest => digitsValue (10 * sofar + (b.toNat - 0x30)) rest

/-- The decimal digits of a natural number, none of them a leading zero except for zero itself. -/
def natDigits (n : Nat) : List UInt8 :=
  if n < 10 then [UInt8.ofNat (0x30 + n)]
  else natDigits (n / 10) ++ [UInt8.ofNat (0x30 + n % 10)]

/-- The decimal digits of an integer, behind a minus sign when it is negative. -/
def intDigits (n : Int) : List UInt8 :=
  if n < 0 then 0x2D :: natDigits n.natAbs else natDigits n.natAbs

/-- Exactly `width` decimal digits of a number, zeros in front. -/
def paddedDigits : (width : Nat) → Nat → List UInt8
  | 0, _ => []
  | width + 1, n => paddedDigits width (n / 10) ++ [UInt8.ofNat (0x30 + n % 10)]

/-- The natural number below `bound` that a text stands for: digits, behind an optional plus. -/
def boundedNat? (bound : Nat) (bytes : List UInt8) : Option Nat :=
  let digits := match bytes with
    | 0x2B :: rest => rest
    | other => other
  if digits.isEmpty || !digits.all isDigit then none
  else
    let n := digitsValue 0 digits
    if n < bound then some n else none

end Text

end Durable
