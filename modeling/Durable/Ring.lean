import Std.Data.ExtTreeMap
import Std.Data.ExtTreeSet
import Durable.Digest

/-!
# The hash ring

Partitions stand on a ring of thirty-two bit points, each with a number of points of its own. A
key belongs to the partition of the first point at or behind its hash, past the largest point to
the smallest. So a partition that comes or goes moves only the keys that it gains or loses.
-/

namespace Durable

/-- Partitions on the ring: the owner of each taken point, and the members. -/
structure Ring where
  replicas : Nat
  points : Std.ExtTreeMap UInt32 Nat := ∅
  members : Std.ExtTreeSet Nat := ∅
  deriving DecidableEq

namespace Ring

/-- A ring without partitions; each that comes gets at least one point. -/
def empty (replicas : Nat) : Ring :=
  { replicas := max replicas 1 }

/-- The first point at or behind `point` that is not taken, looking at `fuel` points before giving
    up. -/
def freePoint (points : Std.ExtTreeMap UInt32 Nat) : (fuel : Nat) → UInt32 → UInt32
  | 0, point => point
  | fuel + 1, point => if point ∈ points then freePoint points fuel (point + 1) else point

/-- Takes the first free point at or behind `point`. One more look than there are points finds it
    unless the ring is full. -/
def claimPoint (points : Std.ExtTreeMap UInt32 Nat) (point : UInt32) (owner : Nat) :
    Std.ExtTreeMap UInt32 Nat :=
  points.insert (freePoint points points.size point) owner

/-- Where the `i`-th point of a partition wants to stand. -/
def wantedPoint (id i : Nat) : UInt32 :=
  Digest.stableHash (toString id ++ "-" ++ toString i)

/-- The points when the first `n` points of a partition have been added. -/
def addPoints (points : Std.ExtTreeMap UInt32 Nat) (id : Nat) : (n : Nat) →
    Std.ExtTreeMap UInt32 Nat
  | 0 => points
  | n + 1 => claimPoint (addPoints points id n) (wantedPoint id n) id

/-- Adds a partition; nothing if it is a member already. -/
def add? (ring : Ring) (id : Nat) : Option Ring :=
  if id ∈ ring.members then none
  else
    some { ring with
      points := addPoints ring.points id ring.replicas
      members := ring.members.insert id }

/-- Removes a partition; nothing if it is not a member. -/
def remove? (ring : Ring) (id : Nat) : Option Ring :=
  if id ∈ ring.members then
    some { ring with
      points := ring.points.filter fun _ owner => owner ≠ id
      members := ring.members.erase id }
  else none

/-- The owner of a point of the circle. -/
def ownerOf? (ring : Ring) (point : UInt32) : Option Nat :=
  match ring.points.getEntryGE? point with
  | some (_, owner) => some owner
  | none => ring.points.minEntry?.map (·.2)

/-- The partition that a key belongs to. -/
def get? (ring : Ring) (key : String) : Option Nat :=
  ring.ownerOf? (Digest.stableHash key)

end Ring

end Durable
