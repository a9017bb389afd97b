/-!
# Rounding to binary fractions

Numbers of fifty-three significant bits, as doubles have them, kept as rationals: each operation
is carried out exactly and its result rounded to the nearest such number, a tie to the even one.
There is no bound on exponents here; the numbers that occur stay far from a double's.
-/

namespace Durable.Binary

/-- The whole number nearest to `n / d`, a half going to the even neighbour. -/
def nearest (n d : Nat) : Nat :=
  let low := n / d
  let rest := n % d
  if 2 * rest < d then low
  else if d < 2 * rest then low + 1
  else if low % 2 = 0 then low
  else low + 1

/-- Numerator and denominator of `n / d / 2 ^ e`. -/
def shifted (n d : Nat) (e : Int) : Nat × Nat :=
  if 0 ≤ e then (n, d <<< e.toNat) else (n <<< (-e).toNat, d)

/-- A whole number times a power of two. -/
def scaled (m : Nat) (e : Int) : Rat :=
  if 0 ≤ e then (m <<< e.toNat : Nat) else mkRat m (1 <<< (-e).toNat)

/-- The number of fifty-three bits nearest to a positive fraction. -/
def roundFraction (n d : Nat) : Rat :=
  let guess := (n.log2 : Int) - d.log2 - 53
  let (a, b) := shifted n d guess
  let e := if a / b < 1 <<< 53 then guess else guess + 1
  let (a, b) := shifted n d e
  scaled (nearest a b) e

/-- The number of fifty-three bits nearest to a rational. -/
def round (q : Rat) : Rat :=
  if q.num = 0 then 0
  else if 0 < q.num then roundFraction q.num.natAbs q.den
  else -roundFraction q.num.natAbs q.den

/-- The rounded sum. -/
def add (x y : Rat) : Rat := round (x + y)

/-- The rounded difference. -/
def sub (x y : Rat) : Rat := round (x - y)

/-- The rounded product. -/
def mul (x y : Rat) : Rat := round (x * y)

/-- The rounded quotient. -/
def div (x y : Rat) : Rat := round (x / y)

/-- A number of nanoseconds in seconds, whole seconds and rest apart. -/
def secondsOf (nanos : Nat) : Rat :=
  add (round (nanos / 1000000000 : Nat)) (div (nanos % 1000000000 : Nat) 1000000000)

/-- The number of nanoseconds nearest to a number of seconds. -/
def nanosOf (seconds : Rat) : Nat :=
  nearest (seconds.num.toNat * 1000000000) seconds.den

end Durable.Binary
