import Durable.Text.Utf8
import Durable.Text.Numeral

/-!
# JSON values

A value keeps its numbers and strings as they are written, so that what a reader makes of them
(an integer in a range, a text) is decided where they are used, and what nobody uses is only
checked for its syntax.
-/

namespace Durable

/-- A JSON value. A number is its literal; a string is what stands between its quotes. -/
inductive Json where
  | null
  | bool (b : Bool)
  | num (literal : List UInt8)
  | str (raw : List UInt8)
  | arr (items : List Json)
  | obj (members : List (List UInt8 × Json))
  deriving Repr, Inhabited

namespace Json

/-! ### Strings -/

/-- How a byte of a text is written inside quotes: the quote, the backslash and the control
    characters are escaped, all else stands for itself. -/
def escapeByte (b : UInt8) : List UInt8 :=
  if b = 0x22 then [0x5C, 0x22]
  else if b = 0x5C then [0x5C, 0x5C]
  else if b = 0x08 then [0x5C, 0x62]
  else if b = 0x09 then [0x5C, 0x74]
  else if b = 0x0A then [0x5C, 0x6E]
  else if b = 0x0C then [0x5C, 0x66]
  else if b = 0x0D then [0x5C, 0x72]
  else if b < 0x20 then
    [0x5C, 0x75, 0x30, 0x30, if b < 0x10 then 0x30 else 0x31,
      if b % 16 < 10 then 0x30 + b % 16 else 0x57 + b % 16]
  else [b]

/-- A text as it stands between quotes. -/
def escape (bytes : List UInt8) : List UInt8 :=
  bytes.flatMap escapeByte

/-- The value of a hexadecimal digit. -/
def hexByte? (b : UInt8) : Option Nat :=
  if 0x30 ≤ b ∧ b ≤ 0x39 then some (b.toNat - 0x30)
  else if 0x61 ≤ b ∧ b ≤ 0x66 then some (b.toNat - 0x57)
  else if 0x41 ≤ b ∧ b ≤ 0x46 then some (b.toNat - 0x37)
  else none

/-- The value of four hexadecimal digits. -/
def hex4? (a b c d : UInt8) : Option Nat := do
  let a ← hexByte? a
  let b ← hexByte? b
  let c ← hexByte? c
  let d ← hexByte? d
  pure (((a * 16 + b) * 16 + c) * 16 + d)

/-- The byte that a one-letter escape stands for. -/
def shortEscape? (b : UInt8) : Option UInt8 :=
  if b = 0x22 then some 0x22
  else if b = 0x5C then some 0x5C
  else if b = 0x2F then some 0x2F
  else if b = 0x62 then some 0x08
  else if b = 0x66 then some 0x0C
  else if b = 0x6E then some 0x0A
  else if b = 0x72 then some 0x0D
  else if b = 0x74 then some 0x09
  else none

/-- The UTF-8 bytes of a code point. -/
def codePointBytes (n : Nat) : List UInt8 :=
  Text.utf8 (String.singleton (Char.ofNat n))

/-- The bytes that stand between quotes, their escapes resolved. A surrogate escape has to be one
    of a pair, high half first. -/
def unescape? : List UInt8 → Option (List UInt8)
  | [] => some []
  | 0x5C :: 0x75 :: a :: b :: c :: d :: 0x5C :: 0x75 :: e :: f :: g :: h :: rest => do
    let n ← hex4? a b c d
    if 0xD800 ≤ n ∧ n < 0xDC00 then
      let m ← hex4? e f g h
      if 0xDC00 ≤ m ∧ m < 0xE000 then
        let bytes ← unescape? rest
        pure (codePointBytes (0x10000 + (n - 0xD800) * 0x400 + (m - 0xDC00)) ++ bytes)
      else none
    else if 0xDC00 ≤ n ∧ n < 0xE000 then none
    else
      let bytes ← unescape? (0x5C :: 0x75 :: e :: f :: g :: h :: rest)
      pure (codePointBytes n ++ bytes)
  | 0x5C :: 0x75 :: a :: b :: c :: d :: rest => do
    let n ← hex4? a b c d
    if 0xD800 ≤ n ∧ n < 0xE000 then none
    else
      let bytes ← unescape? rest
      pure (codePointBytes n ++ bytes)
  | 0x5C :: e :: rest => do
    let b ← shortEscape? e
    let bytes ← unescape? rest
    pure (b :: bytes)
  | b :: rest => (unescape? rest).map (b :: ·)

/-- The text that stands between quotes. -/
def rawText? (raw : List UInt8) : Option String :=
  (unescape? raw).bind Text.ofUtf8?

/-! ### Building values -/

variable {α : Type}

/-- A text. -/
def text (s : String) : Json :=
  .str (escape (Text.utf8 s))

/-- A text given as its bytes. -/
def textBytes (bytes : List UInt8) : Json :=
  .str (escape bytes)

/-- An integer. -/
def int (n : Int) : Json :=
  .num (Text.intDigits n)

/-- A natural number. -/
def nat (n : Nat) : Json :=
  .num (Text.natDigits n)

/-- A value, or null in its absence. -/
def opt (write : α → Json) : Option α → Json
  | none => .null
  | some a => write a

/-- A list of values. -/
def list (write : α → Json) (xs : List α) : Json :=
  .arr (xs.map write)

/-- An object with the given members, in their order. -/
def record (members : List (String × Json)) : Json :=
  .obj (members.map fun (name, value) => (escape (Text.utf8 name), value))

/-! ### Reading scalars -/

/-- The text of a string. -/
def text? : Json → Option String
  | .str raw => rawText? raw
  | _ => none

/-- A truth value. -/
def bool? : Json → Option Bool
  | .bool b => some b
  | _ => none

/-- The integer of a literal without fraction and exponent. Minus zero is not an integer. -/
def literalInt? : List UInt8 → Option Int
  | [] => none
  | 0x2D :: digits =>
    if digits.isEmpty || !digits.all Text.isDigit then none
    else
      let n := Text.digitsValue 0 digits
      if n = 0 then none else some (-(n : Int))
  | digits => if digits.all Text.isDigit then some (Text.digitsValue 0 digits : Int) else none

/-- The integer of a number. -/
def int? : Json → Option Int
  | .num literal => literalInt? literal
  | _ => none

/-- The integer of a number that fits sixty-four signed bits. -/
def int64? (j : Json) : Option Int :=
  j.int?.filter fitsInt64

/-- The integer of a number that fits thirty-two signed bits. -/
def int32? (j : Json) : Option Int :=
  j.int?.filter fitsInt32

/-- The number that fits thirty-two unsigned bits. -/
def uint32? (j : Json) : Option Nat :=
  (j.int?.filter fitsUInt32).map Int.toNat

/-- The number that fits eight unsigned bits. -/
def byte? (j : Json) : Option UInt8 :=
  (j.int?.filter fun n => 0 ≤ n && n < 256).map fun n => UInt8.ofNat n.toNat

/-- A value that may be null. -/
def opt? (read : Json → Option α) : Json → Option (Option α)
  | .null => some none
  | j => (read j).map some

/-- A list of values. -/
def list? (read : Json → Option α) : Json → Option (List α)
  | .arr items => items.mapM read
  | _ => none

end Json

end Durable
