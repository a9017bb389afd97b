import Durable.Timer.Service

/-!
# Scripted receivers

A receiver of timers that answers reports as it was told to beforehand and keeps a record of them,
for trying out a timer service by itself.
-/

namespace Durable

/-- A report that was made: when, of which timer, and the answer that was prepared for it. -/
structure TimerCall where
  time : Instant
  key : TimerKey
  answer : Option CallResult
  deriving DecidableEq, Repr

/-- Prepared answers and the reports made so far. Without a prepared answer a report succeeds. -/
structure CallScript where
  answers : List CallResult := []
  calls : List TimerCall := []
  deriving DecidableEq, Repr

namespace CallScript

/-- Answers a report. -/
def call (s : CallScript) (now : Instant) (key : TimerKey) : CallResult × CallScript :=
  (s.answers.head?.getD .ok,
    { answers := s.answers.tail, calls := s.calls ++ [⟨now, key, s.answers.head?⟩] })

end CallScript

end Durable
