import Durable.Time.Instant

/-!
# Clocks

What time it is, for two uses: as an instant of the calendar, and as the time that has gone by
since the clock was started, which waiting is measured with.
-/

namespace Durable

/-- When the clock was started and how many milliseconds have gone by. -/
structure Clock where
  start : Instant
  elapsed : Nat := 0
  deriving DecidableEq, Repr

namespace Clock

/-- The present instant. -/
def now (c : Clock) : Instant :=
  (c.start.addMillis? c.elapsed).getD c.start

/-- The nanoseconds in a number of milliseconds. -/
def nanosOf (ms : Nat) : Nat := ms * 1000000

/-- The first whole millisecond at or behind a number of nanoseconds. -/
def ceilMillis (nanos : Nat) : Nat := (nanos + 999999) / 1000000

/-- Nanoseconds that have gone by. -/
def nanos (c : Clock) : Nat := nanosOf c.elapsed

end Clock

end Durable
