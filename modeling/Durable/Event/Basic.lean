import Durable.Event.Attributes
import Durable.Time.Instant

/-!
# Events

An event of an execution's log.
-/

namespace Durable

/-- One entry of a log. Ids count from one within a log; the task id is that of the transition
    that wrote the entry. -/
structure Event where
  eventId : Int
  kind : EventKind
  timestamp : Instant
  version : Int
  taskId : Int
  attributes : Attributes
  deriving DecidableEq, Repr

/-- Whether the kind that the event declares is that of its attributes. -/
def Event.isConsistent (e : Event) : Bool :=
  e.kind = e.attributes.kind

end Durable
