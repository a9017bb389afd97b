import Durable.Ring
import Durable.Matching.TaskQueue

/-!
# Partitions of task queues

A queue lives in the partition that the ring gives its routing key to. When a partition comes or
goes, the queues that change owner move with their tasks.
-/

namespace Durable

/-- The queues of a partition by routing key. -/
abbrev QueueTable := Std.ExtTreeMap String TaskQueue

/-- All partitions. -/
structure Partitions where
  ring : Ring
  tables : Std.ExtTreeMap Nat QueueTable
  levels : Nat
  defaultPriority : Nat
  deriving DecidableEq

namespace Partitions

/-- A partition put on the ring, with no queues. -/
def join (p : Partitions) (id : Nat) : Partitions :=
  match p.ring.add? id with
  | some ring => { p with ring, tables := p.tables.insert id ∅ }
  | none => p

/-- The partitions `0` to `count - 1`, without queues. -/
def initial (count replicas levels defaultPriority : Nat) : Partitions :=
  (List.range count).foldl join
    { ring := .empty replicas, tables := ∅, levels, defaultPriority }

/-- The partition that owns a routing key. -/
def owner? (p : Partitions) (key : String) : Option Nat :=
  p.ring.get? key

/-- The queue of a routing key. -/
def find? (p : Partitions) (key : String) : Option TaskQueue := do
  let owner ← p.owner? key
  let table ← p.tables[owner]?
  table[key]?

/-- Puts a queue into the table of the owner of its key. Without an owner it is lost. -/
def place (p : Partitions) (key : String) (queue : TaskQueue) : Partitions :=
  match p.owner? key with
  | some owner =>
    { p with tables := p.tables.modify owner fun table => table.insert key queue }
  | none => p

/-- The queue of a namespace and name, made if there is none. -/
def getOrCreate (p : Partitions) (namespaceId name : String) :
    Except Error (TaskQueue × Partitions) :=
  let key := TaskQueue.routingKey namespaceId name
  match p.owner? key, (p.owner? key).bind (p.tables[·]?) with
  | some _, some table =>
    match table[key]? with
    | some queue => .ok (queue, p)
    | none =>
      let queue := TaskQueue.empty namespaceId name p.levels p.defaultPriority
      .ok (queue, p.place key queue)
  | _, _ => .error (.serviceNotRunning "matching: no partitions")

/-- Every queue with its key, partition by partition. -/
def queues (p : Partitions) : List (String × TaskQueue) :=
  p.tables.values.flatMap (·.toList)

/-- Changes every queue where it lives. -/
def mapQueues (p : Partitions) (f : TaskQueue → TaskQueue) : Partitions :=
  { p with tables := p.tables.map fun _ table => table.map fun _ queue => f queue }

/-- The entries of a partition's table that belong to another partition by now. -/
def misplaced (p : Partitions) (id : Nat) (table : QueueTable) : List (String × TaskQueue) :=
  table.toList.filter fun (key, _) => p.owner? key ≠ some id

/-- Moves every queue that its partition no longer owns. -/
def rebalance (p : Partitions) : Partitions :=
  let moving := p.tables.toList.flatMap fun (id, table) => p.misplaced id table
  let kept := { p with
    tables := p.tables.map fun id table => table.filter fun key _ => p.owner? key = some id }
  moving.foldl (fun p (key, queue) => p.place key queue) kept

/-- Adds a partition and moves the queues it now owns; nothing if it is there already. -/
def add? (p : Partitions) (id : Nat) : Option Partitions :=
  if id ∈ p.ring.members then none else some (p.join id).rebalance

/-- Removes a partition and hands its queues to their new owners; whether it was there. The last
    one cannot be removed. -/
def remove (p : Partitions) (id : Nat) : Except Error (Bool × Partitions) :=
  match p.tables[id]? with
  | none => .ok (false, p)
  | some table =>
    if p.tables.size = 1 then
      .error (.validation "partition_id" "cannot remove the last partition")
    else
      let rest := { p with
        ring := (p.ring.remove? id).getD p.ring
        tables := p.tables.erase id }
      .ok (true, table.toList.foldl (fun p (key, queue) => p.place key queue) rest)

end Partitions

end Durable
