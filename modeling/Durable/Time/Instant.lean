import Durable.Time.Calendar
import Durable.Text.Numeral

/-!
# Instants

A point in time to the nanosecond, between the first and the last day of the calendar. A leap
second lies behind another one, as a rule the last second of its minute: it is that second with a
fraction of one or more.
-/

namespace Durable

/-- Seconds since 1970-01-01 and nanoseconds behind them. In a leap second the nanoseconds go on
    above a thousand million. -/
structure Instant where
  seconds : Int
  nanos : Nat
  deriving DecidableEq, Repr, Inhabited

namespace Instant

/-- Earlier instants come first. -/
instance : Ord Instant :=
  ⟨compareLex (compareOn seconds) (compareOn nanos)⟩

instance : LE Instant := ⟨fun s t => compare s t ≠ .gt⟩

instance (s t : Instant) : Decidable (s ≤ t) :=
  inferInstanceAs (Decidable (compare s t ≠ .gt))

/-- Whether the second lies on a day of the calendar. -/
def secondsInRange (seconds : Int) : Bool :=
  let day := seconds / 86400
  Time.Date.first.toDays ≤ day && day ≤ Time.Date.last.toDays

/-- The end of the last day of the calendar. -/
def last : Instant :=
  ⟨Time.Date.last.toDays * 86400 + 86399, 999999999⟩

/-- Whole microseconds since 1970, rounded down. -/
def micros (t : Instant) : Int :=
  t.seconds * 1000000 + t.nanos / 1000

/-- Whole milliseconds since 1970, rounded down. -/
def millis (t : Instant) : Int :=
  t.seconds * 1000 + t.nanos / 1000000

/-- The instant of a microsecond, if it is on the calendar. -/
def ofMicros? (us : Int) : Option Instant :=
  let seconds := us / 1000000
  if secondsInRange seconds then some ⟨seconds, (us % 1000000).toNat * 1000⟩ else none

/-- The instant of a millisecond, if it is on the calendar. -/
def ofMillis? (ms : Int) : Option Instant :=
  let seconds := ms / 1000
  if secondsInRange seconds then some ⟨seconds, (ms % 1000).toNat * 1000000⟩ else none

/-- The instant a number of milliseconds later, if it is on the calendar. It is counted from times
    that clocks give, which are in no leap second. -/
def addMillis? (t : Instant) (ms : Int) : Option Instant :=
  let later := (t.nanos : Int) + ms * 1000000
  let seconds := t.seconds + later / 1000000000
  if secondsInRange seconds then some ⟨seconds, (later % 1000000000).toNat⟩ else none

/-- Whether the instant's count of nanoseconds fits sixty-four signed bits. -/
def nanosFit (t : Instant) : Bool :=
  fitsInt64 (t.seconds * 1000000000 + t.nanos)

/-- The instant rounded down to a millisecond. Times whose nanoseconds cannot be counted stay as
    they are. -/
def floorMillis (t : Instant) : Instant :=
  if t.nanosFit then ⟨t.seconds, t.nanos - t.nanos % 1000000⟩ else t

/-- The instant rounded down to a microsecond. -/
def floorMicros (t : Instant) : Instant :=
  ⟨t.seconds, t.nanos - t.nanos % 1000⟩

end Instant

end Durable
