import Durable.Execution.Key
import Durable.Time.Instant
import Durable.Error

/-!
# Timers

A timer of an execution as it is stored: when it is due, whether it still waits, and a version that
every change raises.
-/

namespace Durable

/-- Where a timer stands. -/
inductive TimerStatus where
  | pending
  | fired
  | canceled
  deriving DecidableEq, Repr, Inhabited

namespace TimerStatus

/-- The name of a status. -/
def name : TimerStatus → String
  | pending => "pending"
  | fired => "fired"
  | canceled => "canceled"

/-- The status with a name. -/
def ofName? (name : String) : Option TimerStatus :=
  [pending, fired, canceled].find? fun status => status.name = name

/-- The status with a stored name. -/
def parse (name : String) : Except Error TimerStatus :=
  match ofName? name with
  | some status => .ok status
  | none => .error (.serialization ("unknown timer status '" ++ name ++ "'"))

end TimerStatus

/-- A stored timer. -/
structure Timer where
  shard : Nat
  key : TimerKey
  fireTime : Instant
  status : TimerStatus
  version : Int
  createdAt : Instant
  firedAt : Option Instant
  deriving DecidableEq, Repr

namespace Timer

/-- Whether the timer waits and its time has come. -/
def isDue (t : Timer) (now : Instant) : Bool :=
  t.status = .pending && t.fireTime ≤ now

/-- Timers are served by fire time, then by key. -/
def servedBefore (s t : Timer) : Bool :=
  compareLex (compareOn Timer.fireTime) (compareOn Timer.key) s t ≠ .gt

end Timer

end Durable
