import Durable.Store.Basic
import Durable.Settings

/-!
# Firing a timer

A timer that was found due is read again, claimed by marking it as fired, and reported. A report
that fails or is not answered in time is repeated, behind a pause that grows; if none succeeds the
claim is rolled back and the timer waits again. Each of these is one step, and between any two
steps the timer may change.
-/

namespace Durable

/-- What became of a timer that was found due. -/
inductive FireOutcome where
  /-- It was claimed and reported. -/
  | fired
  /-- It does not wait any more, or not yet. -/
  | skipped
  /-- It was claimed, but no report succeeded. -/
  | rolledBack
  deriving DecidableEq, Repr

namespace FireOutcome

/-- The name of an outcome. -/
def name : FireOutcome → String
  | fired => "fired"
  | skipped => "skipped"
  | rolledBack => "rolled_back"

end FireOutcome

/-- What comes of one report. -/
inductive CallResult where
  | ok
  | failed
  /-- No answer. -/
  | hung
  deriving DecidableEq, Repr

/-- How far the firing of a timer has come. -/
inductive FiringPhase where
  /-- The timer is to be read. -/
  | reading
  /-- The timer was read at an instant and is to be claimed. -/
  | claiming (timer : Timer) (readAt : Instant)
  /-- The claimed timer is to be reported, for the `attempt`-th time. -/
  | calling (claimed : Timer) (attempt : Nat)
  /-- A report has not been answered. -/
  | awaiting (claimed : Timer) (attempt : Nat)
  /-- The pause behind a report that failed. -/
  | pausing (claimed : Timer) (attempt : Nat)
  /-- The claim is to be rolled back. -/
  | rollingBack (claimed : Timer)
  | done (outcome : FireOutcome)
  | failed (e : Error)
  deriving DecidableEq, Repr

namespace FiringPhase

variable {σ : Type} [Store σ]

/-- The phase behind the reading of a timer. -/
def ofRead (now : Instant) : Except Error (Option Timer) → FiringPhase
  | .error e => .failed e
  | .ok none => .done .skipped
  | .ok (some timer) => if timer.isDue now then .claiming timer now else .done .skipped

/-- A timer as it is claimed. -/
def claimOf (timer : Timer) (now : Instant) : Timer :=
  { timer with status := .fired, firedAt := some now.floorMillis, version := timer.version + 1 }

/-- The phase behind a claim. Who comes too late skips the timer. -/
def ofClaim (claimed : Timer) : Except Error Int → FiringPhase
  | .ok _ => .calling claimed 1
  | .error (.optimisticLockConflict ..) => .done .skipped
  | .error (.timerNotFound ..) => .done .skipped
  | .error e => .failed e

/-- The number of reports that are made; at least one. -/
def attempts (s : TimerSettings) : Nat := max s.maxAttempts 1

/-- The phase behind a report without success. -/
def ofFailure (s : TimerSettings) (claimed : Timer) (attempt : Nat) : FiringPhase :=
  if attempt < attempts s then .pausing claimed attempt else .rollingBack claimed

/-- The phase behind a report. -/
def ofCall (s : TimerSettings) (claimed : Timer) (attempt : Nat) : CallResult → FiringPhase
  | .ok => .done .fired
  | .failed => ofFailure s claimed attempt
  | .hung => .awaiting claimed attempt

/-- A timer as it is rolled back. -/
def rollBackOf (claimed : Timer) : Timer :=
  { claimed with status := .pending, firedAt := none, version := claimed.version + 1 }

/-- The phase behind a rollback. -/
def ofRollBack : Except Error Int → FiringPhase
  | .ok _ => .done .rolledBack
  | .error e => .failed e

/-- Whether the firing is over. -/
def isOver : FiringPhase → Bool
  | done _ => true
  | failed _ => true
  | _ => false

/-- What a firing has come to. One that is not over has come to nothing yet. -/
def answer : FiringPhase → Except Error FireOutcome
  | done outcome => .ok outcome
  | failed e => .error e
  | _ => .ok .skipped

/-- How many milliseconds go by in a phase. -/
def delay (s : TimerSettings) : FiringPhase → Nat
  | awaiting .. => s.claimLockMs
  | pausing _ attempt => s.backoffMs * attempt
  | _ => 0

/-- One step of the firing of the timer under `key`; `result` is what comes of a report, if this
    step makes one. -/
def step (s : TimerSettings) (now : Instant) (key : TimerKey) (result : CallResult) :
    FiringPhase → StateM σ FiringPhase
  | reading => do pure (ofRead now (← StoreM.outcome (Store.timer? key)))
  | claiming timer readAt => do
    let claimed := claimOf timer readAt
    pure (ofClaim claimed (← StoreM.outcome (Store.updateTimer claimed timer.version)))
  | calling claimed attempt => pure (ofCall s claimed attempt result)
  | awaiting claimed attempt => pure (ofFailure s claimed attempt)
  | pausing claimed attempt => pure (.calling claimed (attempt + 1))
  | rollingBack claimed => do
    let restored := rollBackOf claimed
    pure (ofRollBack (← StoreM.outcome (Store.updateTimer restored claimed.version)))
  | done outcome => pure (.done outcome)
  | failed e => pure (.failed e)

end FiringPhase

end Durable
