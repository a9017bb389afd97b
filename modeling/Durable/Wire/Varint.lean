/-!
# Variable-length integers

Seven bits a byte, lowest first; the high bit of a byte says that another follows. A sixty-four
bit value takes at most ten bytes, and reading takes longer than necessary forms too.
-/

namespace Durable.Wire

/-- The bytes of a natural number. -/
def writeVarint (n : Nat) : List UInt8 :=
  if n < 128 then [UInt8.ofNat n] else UInt8.ofNat (n % 128 + 128) :: writeVarint (n / 128)

/-- A number in front, of at most `room` bytes, and what follows it. The last byte that there is
    room for must not exceed one, which keeps ten bytes below sixty-five bits. -/
def readVarintWithin? : (room : Nat) → List UInt8 → Option (Nat × List UInt8)
  | 0, _ => none
  | _, [] => none
  | room + 1, b :: rest =>
    if b < 128 then
      if room = 0 ∧ 2 ≤ b then none else some (b.toNat, rest)
    else
      (readVarintWithin? room rest).map fun (n, after) => (b.toNat - 128 + 128 * n, after)

/-- A sixty-four bit number in front, and what follows it. -/
def readVarint? (bytes : List UInt8) : Option (Nat × List UInt8) :=
  readVarintWithin? 10 bytes

end Durable.Wire
