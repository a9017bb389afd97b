import Durable.Store.Memory
import Durable.Store.Tables

/-!
# Backends

A store that is in memory or in tables, as the settings have it.
-/

namespace Durable

/-- A store of either kind. -/
inductive Backend where
  | memory (m : Memory)
  | tables (t : Tables)

namespace Backend

variable {α : Type}

/-- Runs an operation on the store that there is. -/
def run (x : {σ : Type} → [Store σ] → StoreM σ α) : StoreM Backend α
  | .memory m =>
    match x (σ := Memory) m with
    | .ok a m => .ok a (.memory m)
    | .error e m => .error e (.memory m)
  | .tables t =>
    match x (σ := Tables) t with
    | .ok a t => .ok a (.tables t)
    | .error e t => .error e (.tables t)

instance : Store Backend where
  appendEvents key events expectedLast := run (Store.appendEvents key events expectedLast)
  events key first last := run (Store.events key first last)
  eventCount key := run (Store.eventCount key)
  state key := run (Store.state key)
  putState key state expectedVersion := run (Store.putState key state expectedVersion)
  running := run Store.running
  commit key events expectedLast state expectedVersion :=
    run (Store.commit key events expectedLast state expectedVersion)
  createTimer timer := run (Store.createTimer timer)
  timer? key := run (Store.timer? key)
  updateTimer timer expectedVersion := run (Store.updateTimer timer expectedVersion)
  dueTimers shard now limit := run (Store.dueTimers shard now limit)
  timersOf key := run (Store.timersOf key)
  isHealthy := run Store.isHealthy

end Backend

end Durable
