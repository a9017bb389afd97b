import Std.Data.ExtTreeMap
import Durable.Matching.Task
import Durable.Error

/-!
# Tasks by priority

The waiting tasks of a queue stand in slots, one list of slots a level, oldest first; level zero
is served first. An index holds the live slot of each id. Withdrawing a task only drops it from
the index: its slot stays behind, dead, and is passed over when its turn comes.
-/

namespace Durable

/-- A place in the list of a level. Numbers are never used twice. -/
structure Slot where
  number : Nat
  task : Task
  deriving DecidableEq, Repr

/-- Waiting tasks by priority. -/
structure PriorityStore where
  levels : Nat
  defaultPriority : Nat
  slots : Std.ExtTreeMap Nat (List Slot) := ∅
  /-- The level and the number of each waiting task's slot. -/
  index : Std.ExtTreeMap String (Nat × Nat) := ∅
  nextNumber : Nat := 0
  deriving DecidableEq

namespace PriorityStore

/-- A store without tasks. There is at least one level, and the default is one of them. -/
def empty (levels defaultPriority : Nat) : PriorityStore :=
  let levels := max levels 1
  { levels, defaultPriority := min defaultPriority (levels - 1) }

/-- The level of a priority; those behind the last level go to the last. -/
def levelFor (s : PriorityStore) (priority : Option Nat) : Nat :=
  min (priority.getD s.defaultPriority) (s.levels - 1)

/-- Whether a task waits. -/
def contains (s : PriorityStore) (id : String) : Bool :=
  s.index.contains id

/-- The number of waiting tasks. -/
def size (s : PriorityStore) : Nat :=
  s.index.size

/-- Whether no task waits. -/
def isEmpty (s : PriorityStore) : Bool :=
  s.index.isEmpty

/-- The slots of a level. -/
def slotsAt (s : PriorityStore) (level : Nat) : List Slot :=
  s.slots.getD level []

/-- Whether a slot of a level is that of a waiting task. -/
def isLive (s : PriorityStore) (level : Nat) (slot : Slot) : Bool :=
  s.index[slot.task.taskId]? = some (level, slot.number)

/-- Adds a task behind all of its level, unless its id waits already. -/
def add (s : PriorityStore) (task : Task) : Except Error PriorityStore :=
  if s.contains task.taskId then .error (.taskExists task.taskId)
  else
    let level := s.levelFor task.priority
    .ok { s with
      slots := s.slots.insert level (s.slotsAt level ++ [⟨s.nextNumber, task⟩])
      index := s.index.insert task.taskId (level, s.nextNumber)
      nextNumber := s.nextNumber + 1 }

/-- Takes the first live task of the given levels, dropping the dead slots before it. -/
def takeFrom (s : PriorityStore) : (levels : List Nat) → Option Task × PriorityStore
  | [] => (none, s)
  | level :: rest =>
    match (s.slotsAt level).dropWhile fun slot => !s.isLive level slot with
    | [] => takeFrom { s with slots := s.slots.erase level } rest
    | slot :: behind =>
      (some slot.task,
        { s with
          slots := s.slots.insert level behind
          index := s.index.erase slot.task.taskId })

/-- Takes the oldest task of the first level that has one. -/
def take (s : PriorityStore) : Option Task × PriorityStore :=
  s.takeFrom s.slots.keys

/-- Withdraws a task; whether it was waiting. -/
def withdraw (s : PriorityStore) (id : String) : Bool × PriorityStore :=
  (s.contains id, { s with index := s.index.erase id })

/-- The waiting tasks in the order in which they are served. -/
def toList (s : PriorityStore) : List Task :=
  s.slots.toList.flatMap fun (level, slots) => (slots.filter (s.isLive level)).map (·.task)

/-- Takes all tasks. -/
def drain (s : PriorityStore) : List Task × PriorityStore :=
  (s.toList, { s with slots := ∅, index := ∅ })

end PriorityStore

end Durable
