/-!
# Base64

Three bytes as four characters of the standard alphabet, the last group filled up with `=`.
Reading takes only what writing produces: whole groups, padding, and zero bits behind the data.
-/

namespace Durable.Text.Base64

/-- The character of six bits. -/
def digit (n : Nat) : UInt8 :=
  if n < 26 then UInt8.ofNat (0x41 + n)
  else if n < 52 then UInt8.ofNat (0x61 + (n - 26))
  else if n < 62 then UInt8.ofNat (0x30 + (n - 52))
  else if n = 62 then 0x2B
  else 0x2F

/-- The six bits of a character. -/
def value? (c : UInt8) : Option Nat :=
  if 0x41 ≤ c ∧ c ≤ 0x5A then some (c.toNat - 0x41)
  else if 0x61 ≤ c ∧ c ≤ 0x7A then some (c.toNat - 0x61 + 26)
  else if 0x30 ≤ c ∧ c ≤ 0x39 then some (c.toNat - 0x30 + 52)
  else if c = 0x2B then some 62
  else if c = 0x2F then some 63
  else none

/-- The padding character. -/
def pad : UInt8 := 0x3D

/-- The written form of bytes. -/
def encode : List UInt8 → List UInt8
  | [] => []
  | [a] => [digit (a.toNat / 4), digit (a.toNat % 4 * 16), pad, pad]
  | [a, b] =>
    [digit (a.toNat / 4), digit (a.toNat % 4 * 16 + b.toNat / 16), digit (b.toNat % 16 * 4), pad]
  | a :: b :: c :: rest =>
    digit (a.toNat / 4) :: digit (a.toNat % 4 * 16 + b.toNat / 16)
      :: digit (b.toNat % 16 * 4 + c.toNat / 64) :: digit (c.toNat % 64) :: encode rest

/-- The bytes of a written form. -/
def decode? : List UInt8 → Option (List UInt8)
  | [] => some []
  | p :: q :: r :: s :: rest => do
    let x ← value? p
    let y ← value? q
    let first := UInt8.ofNat (x * 4 + y / 16)
    if r = pad ∧ s = pad ∧ rest = [] then
      if y % 16 = 0 then some [first] else none
    else
      let z ← value? r
      let second := UInt8.ofNat (y % 16 * 16 + z / 4)
      if s = pad ∧ rest = [] then
        if z % 4 = 0 then some [first, second] else none
      else
        let w ← value? s
        let others ← decode? rest
        some (first :: second :: UInt8.ofNat (z % 4 * 64 + w) :: others)
  | _ => none

end Durable.Text.Base64
