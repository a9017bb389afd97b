/-!
# Hexadecimal bytes

Two lower-case digits a byte, high half first. Reading takes digits of either case.
-/

namespace Durable.Text

/-- The digit of a value below sixteen, lower case. -/
def hexDigit (n : Nat) : Char :=
  if n < 10 then Char.ofNat (0x30 + n) else Char.ofNat (0x57 + n)

/-- The value of a hexadecimal digit of either case. -/
def hexValue (c : Char) : Option Nat :=
  if '0' ≤ c ∧ c ≤ '9' then some (c.toNat - 0x30)
  else if 'a' ≤ c ∧ c ≤ 'f' then some (c.toNat - 0x57)
  else if 'A' ≤ c ∧ c ≤ 'F' then some (c.toNat - 0x37)
  else none

/-- The digits of a list of bytes. -/
def hexChars : List UInt8 → List Char
  | [] => []
  | b :: rest => hexDigit (b.toNat / 16) :: hexDigit (b.toNat % 16) :: hexChars rest

/-- The bytes that pairs of digits stand for; nothing when a digit is bad or has no partner. -/
def hexBytes? : List Char → Option (List UInt8)
  | [] => some []
  | high :: low :: rest => do
    let h ← hexValue high
    let l ← hexValue low
    let bytes ← hexBytes? rest
    pure (UInt8.ofNat (16 * h + l) :: bytes)
  | [_] => none

/-- Bytes as a text of digits. -/
def toHex (bytes : List UInt8) : String :=
  String.ofList (hexChars bytes)

/-- The bytes written by a text of digits. -/
def ofHex? (text : String) : Option (List UInt8) :=
  hexBytes? text.toList

end Durable.Text
