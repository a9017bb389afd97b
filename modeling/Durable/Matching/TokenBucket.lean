import Durable.Number.Binary

/-!
# Rate limits

A bucket of tokens that fills at a rate up to a burst; a task that is handed out takes one. The
amounts are numbers of fifty-three bits.
-/

namespace Durable

/-- A bucket of tokens: tokens a second, the most it holds, what it held when last looked at, and
    when that was, in nanoseconds. -/
structure TokenBucket where
  rate : Rat
  burst : Rat
  tokens : Rat
  lastRefill : Nat
  deriving DecidableEq

namespace TokenBucket

/-- A full bucket. It holds the rate rounded up, and at least one token. -/
def full (rate : Rat) (now : Nat) : TokenBucket :=
  let burst : Int := if rate.ceil < 1 then 1 else rate.ceil
  ⟨rate, burst, burst, now⟩

/-- The bucket with the tokens that have come since it was last looked at. -/
def refill (b : TokenBucket) (now : Nat) : TokenBucket :=
  let gained := Binary.mul (Binary.secondsOf (now - b.lastRefill)) b.rate
  let tokens := Binary.add b.tokens gained
  { b with
    tokens := if tokens < b.burst then tokens else b.burst
    lastRefill := now }

/-- Nanoseconds until there is a whole token, none if there is one. -/
def waitTime (b : TokenBucket) : Nat :=
  if 1 ≤ b.tokens then 0
  else Binary.nanosOf (Binary.div (Binary.sub 1 b.tokens) b.rate)

/-- The bucket with a token taken. -/
def spend (b : TokenBucket) : TokenBucket :=
  { b with tokens := Binary.sub b.tokens 1 }

/-- A rate in thousandths of a task a second. -/
def rateOfMilli (milli : Int) : Rat :=
  Binary.div (Binary.round milli) 1000

/-- A rate in thousandths, rounded. -/
def rateMilli (b : TokenBucket) : Int :=
  (Binary.mul b.rate 1000 + 1 / 2).floor

end TokenBucket

end Durable
