import Durable.Wire.Varint
import Durable.Text.Utf8
import Durable.Text.Numeral

/-!
# Messages on the wire

A message is a run of fields, each behind a key of its tag and the kind of its contents. A reader
passes over fields that it does not know, groups within groups included, up to a bound.
-/

namespace Durable.Wire

/-- What stands behind a key. -/
inductive WireKind where
  | varint
  | eightBytes
  | counted
  | groupStart
  | groupEnd
  | fourBytes
  deriving DecidableEq, Repr

namespace WireKind

/-- The low three bits of a key. -/
def code : WireKind → Nat
  | varint => 0
  | eightBytes => 1
  | counted => 2
  | groupStart => 3
  | groupEnd => 4
  | fourBytes => 5

/-- The kind with the given bits. -/
def ofCode? : Nat → Option WireKind
  | 0 => some varint
  | 1 => some eightBytes
  | 2 => some counted
  | 3 => some groupStart
  | 4 => some groupEnd
  | 5 => some fourBytes
  | _ => none

end WireKind

/-! ### Writing -/

/-- The key of a field. -/
def writeKey (tag : Nat) (kind : WireKind) : List UInt8 :=
  writeVarint (tag * 8 + kind.code)

/-- A signed integer in two's complement of sixty-four bits. -/
def word (n : Int) : Nat :=
  (n % 0x10000000000000000).toNat

/-- A field with an integer. -/
def writeInt (tag : Nat) (n : Int) : List UInt8 :=
  writeKey tag .varint ++ writeVarint (word n)

/-- A field with an integer, left out when zero. -/
def writeIntUnlessZero (tag : Nat) (n : Int) : List UInt8 :=
  if n = 0 then [] else writeInt tag n

/-- A field with bytes. -/
def writeCounted (tag : Nat) (bytes : List UInt8) : List UInt8 :=
  writeKey tag .counted ++ writeVarint bytes.length ++ bytes

/-- A field with bytes, left out when there are none. -/
def writeCountedUnlessEmpty (tag : Nat) (bytes : List UInt8) : List UInt8 :=
  if bytes.isEmpty then [] else writeCounted tag bytes

/-! ### Reading -/

/-- The key in front. A tag is at least one, and the whole key fits thirty-two bits. -/
def readKey? (bytes : List UInt8) : Option (Nat × WireKind × List UInt8) := do
  let (key, rest) ← readVarint? bytes
  let kind ← WireKind.ofCode? (key % 8)
  if key < 0x100000000 ∧ 0 < key / 8 then some (key / 8, kind, rest) else none

/-- What is left behind `n` bytes. -/
def dropExactly? (n : Nat) (bytes : List UInt8) : Option (List UInt8) :=
  if n ≤ bytes.length then some (bytes.drop n) else none

/-- Counted bytes and what follows them. -/
def readCounted? (bytes : List UInt8) : Option (List UInt8 × List UInt8) := do
  let (n, rest) ← readVarint? bytes
  if n ≤ rest.length then some (rest.take n, rest.drop n) else none

/-- What follows a field that is not a group. -/
def skipFlat? (kind : WireKind) (bytes : List UInt8) : Option (List UInt8) :=
  match kind with
  | .varint => (readVarint? bytes).map (·.2)
  | .eightBytes => dropExactly? 8 bytes
  | .fourBytes => dropExactly? 4 bytes
  | .counted => (readCounted? bytes).map (·.2)
  | .groupStart => none
  | .groupEnd => none

/-- What follows the end of the group with the given tag. At most `depth` groups may stand inside
    each other, counting a field inside as one more; `fuel` bounds the number of fields. -/
def skipGroup? : (fuel depth : Nat) → (tag : Nat) → List UInt8 → Option (List UInt8)
  | 0, _, _, _ => none
  | fuel + 1, depth, tag, bytes => do
    let (inner, kind, rest) ← readKey? bytes
    if kind = .groupEnd then
      if inner = tag then some rest else none
    else if depth ≤ 1 then none
    else if kind = .groupStart then
      let rest ← skipGroup? fuel (depth - 1) inner rest
      skipGroup? fuel depth tag rest
    else
      let rest ← skipFlat? kind rest
      skipGroup? fuel depth tag rest

/-- What follows a field of an unknown tag. -/
def skipField? (depth tag : Nat) (kind : WireKind) (bytes : List UInt8) : Option (List UInt8) :=
  if depth = 0 then none
  else if kind = .groupStart then skipGroup? (bytes.length + 1) depth tag bytes
  else skipFlat? kind bytes

variable {α : Type}

/-- Folds `step` over the fields of a message: it is given tag, kind and the bytes behind the key,
    and leaves the bytes behind the field. -/
def foldFields? (step : Nat → WireKind → List UInt8 → α → Option (α × List UInt8)) :
    (fuel : Nat) → List UInt8 → α → Option α
  | _, [], a => some a
  | 0, _, _ => none
  | fuel + 1, bytes, a => do
    let (tag, kind, rest) ← readKey? bytes
    let (a, rest) ← step tag kind rest a
    foldFields? step fuel rest a

/-- Folds `step` over all fields of a message. -/
def foldMessage? (step : Nat → WireKind → List UInt8 → α → Option (α × List UInt8))
    (bytes : List UInt8) (a : α) : Option α :=
  foldFields? step bytes.length bytes a

/-- The varint of a field, whose kind has to be right. -/
def readWord? (kind : WireKind) (bytes : List UInt8) : Option (Nat × List UInt8) :=
  if kind = .varint then readVarint? bytes else none

/-- The signed integer of sixty-four bits of a field. -/
def readInt64? (kind : WireKind) (bytes : List UInt8) : Option (Int × List UInt8) :=
  (readWord? kind bytes).map fun (n, rest) => (wrapInt64 n, rest)

/-- The low thirty-two bits of a field, signed. -/
def readInt32? (kind : WireKind) (bytes : List UInt8) : Option (Int × List UInt8) :=
  (readWord? kind bytes).map fun (n, rest) => (wrapInt32 n, rest)

/-- The low thirty-two bits of a field. -/
def readUInt32? (kind : WireKind) (bytes : List UInt8) : Option (Nat × List UInt8) :=
  (readWord? kind bytes).map fun (n, rest) => (n % 0x100000000, rest)

/-- The bytes of a field, whose kind has to be right. -/
def readBytes? (kind : WireKind) (bytes : List UInt8) : Option (List UInt8 × List UInt8) :=
  if kind = .counted then readCounted? bytes else none

/-- The text of a field. -/
def readText? (kind : WireKind) (bytes : List UInt8) : Option (String × List UInt8) := do
  let (found, rest) ← readBytes? kind bytes
  let text ← Text.ofUtf8? found
  pure (text, rest)

end Durable.Wire
