import Durable.Text.Hex
import Durable.Text.Utf8

/-!
# Percent escapes

A byte may be written as a percent sign and its two hexadecimal digits. A percent sign that no two
digits follow stands for itself. Forms are pairs of a name and a value: an ampersand stands between
pairs, an equals sign between name and value, and a plus sign for a blank.
-/

namespace Durable.Text

/-- The byte that two digits stand for. -/
def hexByte? (high low : UInt8) : Option UInt8 := do
  let h ← hexValue (Char.ofNat high.toNat)
  let l ← hexValue (Char.ofNat low.toNat)
  pure (UInt8.ofNat (16 * h + l))

/-- Bytes with their escapes resolved. -/
def unescaped : List UInt8 → List UInt8
  | b :: high :: low :: rest =>
    match if b = 0x25 then hexByte? high low else none with
    | some byte => byte :: unescaped rest
    | none => b :: unescaped (high :: low :: rest)
  | [b, c] => [b, c]
  | [b] => [b]
  | [] => []

/-- A part of a form as text; nothing when it is no well-formed text. -/
def formText? (bytes : List UInt8) : Option String :=
  ofUtf8? (unescaped (bytes.map fun b => if b = 0x2b then 0x20 else b))

/-- What stands before the first occurrence of a byte, and what stands after it. -/
def cutAt (b : UInt8) (bytes : List UInt8) : List UInt8 × List UInt8 :=
  (bytes.takeWhile (· ≠ b), (bytes.dropWhile (· ≠ b)).drop 1)

/-- The names and values of a form in order. Empty pairs are passed over. -/
def formPairs (bytes : List UInt8) : List (Option String × Option String) :=
  ((bytes.splitOn 0x26).filter (!·.isEmpty)).map fun pair =>
    let (name, value) := cutAt 0x3d pair
    (formText? name, formText? value)

end Durable.Text
