import Durable.Json.Basic

/-!
# Fields of a record

A record with named fields is written as an object, or as an array of its fields in their order.
Reading a record sorts what is there into one slot a field.

Two kinds of record differ in what a repeated name means. In a *strict* record it is an error and
values under unknown names are passed over unseen. A *plain* value is read in whole first: every
text in it has to be well formed, every number has to be in the range of a double, nesting is
bounded, and of a repeated name the last value counts.
-/

namespace Durable.Json

/-- The slots of a record. -/
structure Slots where
  /-- Whether the fields stand in an array, by position. -/
  positional : Bool
  /-- A value a field, absent if none was given. -/
  values : List (Option Json)

/-- The value under a name of a strict record, and whether the name occurs twice. -/
def onlyMember? (name : String) (members : List (String × Json)) : Option (Option Json) :=
  match members.filter (·.1 = name) with
  | [] => some none
  | [(_, j)] => some (some j)
  | _ => none

/-- Members with their names read. -/
def namedMembers? (members : List (List UInt8 × Json)) : Option (List (String × Json)) :=
  members.mapM fun (raw, j) => (rawText? raw).map (·, j)

/-- The items of an array as slots; too many are refused. -/
def positionalSlots? (count : Nat) (items : List Json) : Option Slots :=
  if items.length ≤ count then
    some ⟨true, items.map some ++ List.replicate (count - items.length) none⟩
  else none

/-- The value under a name, the last one if it is repeated. -/
def get? (name : String) : Json → Option Json
  | .obj members => (members.reverse.find? fun (raw, _) => rawText? raw = some name).map (·.2)
  | _ => none

/-- The slots of a strict record. -/
def strictSlots? (names : List String) : Json → Option Slots
  | .obj members => do
    let named ← namedMembers? members
    let values ← names.mapM fun name => onlyMember? name named
    pure ⟨false, values⟩
  | .arr items => positionalSlots? names.length items
  | _ => none

/-- The slots of a record in a plain value. -/
def plainSlots? (names : List String) : Json → Option Slots
  | .obj members => do
    let named ← namedMembers? members
    pure ⟨false, names.map fun name => (named.reverse.find? (·.1 = name)).map (·.2)⟩
  | .arr items => positionalSlots? names.length items
  | _ => none

variable {α : Type}

/-- The value of a field that has to be there. -/
def required (read : Json → Option α) : Option Json → Option α
  | some j => read j
  | none => none

/-- The value of a field with a default. -/
def defaulted (fallback : α) (read : Json → Option α) : Option Json → Option α
  | some j => read j
  | none => some fallback

/-- The value of a field that may be null. It may be absent too, unless it has a position. -/
def optional (positional : Bool) (read : Json → Option α) : Option Json → Option (Option α)
  | some j => opt? read j
  | none => if positional then none else some none

/-- The name of a variant without a payload: a text, or an object of that one name with null. -/
def variant? : Json → Option String
  | .str raw => rawText? raw
  | .obj [(raw, .null)] => rawText? raw
  | _ => none

/-! ### Plain values -/

/-- The digits of a literal's whole part and fraction without the point, and the power of ten that
    the last digit stands for. -/
def literalParts (literal : List UInt8) : List UInt8 × Int :=
  let unsigned := match literal with
    | 0x2D :: rest => rest
    | rest => rest
  let isE (b : UInt8) : Bool := b = 0x65 || b = 0x45
  let mantissa := unsigned.takeWhile fun b => !isE b
  let exponent : Int := match unsigned.dropWhile (fun b => !isE b) with
    | _ :: 0x2D :: digits => -(Text.digitsValue 0 digits : Int)
    | _ :: 0x2B :: digits => Text.digitsValue 0 digits
    | _ :: digits => Text.digitsValue 0 digits
    | [] => 0
  let whole := mantissa.takeWhile (· ≠ 0x2E)
  let fraction := (mantissa.dropWhile (· ≠ 0x2E)).drop 1
  (whole ++ fraction, exponent - fraction.length)

/-- Whether a literal rounds to a finite double: it is below the midpoint of the largest double
    and the power of two behind it. -/
def literalFinite (literal : List UInt8) : Bool :=
  let (digits, exponent) := literalParts literal
  let significant := digits.dropWhile (· = 0x30)
  let magnitude := exponent + significant.length
  if significant.isEmpty || magnitude < 300 then true
  else if magnitude > 310 then false
  else
    let n := Text.digitsValue 0 significant
    let limit := (1 <<< 1024) - (1 <<< 970)
    if 0 ≤ exponent then n * Nat.pow 10 exponent.toNat < limit
    else n < limit * Nat.pow 10 (-exponent).toNat

mutual

/-- Whether a value can be read in whole with at most `depth` containers inside each other. -/
def plain (depth : Nat) : Json → Bool
  | .null => true
  | .bool _ => true
  | .num literal => literalFinite literal
  | .str raw => (rawText? raw).isSome
  | .arr items => match depth with
    | 0 => false
    | depth + 1 => plainItems depth items
  | .obj members => match depth with
    | 0 => false
    | depth + 1 => plainMembers depth members

/-- The same of every item. -/
def plainItems (depth : Nat) : List Json → Bool
  | [] => true
  | j :: rest => plain depth j && plainItems depth rest

/-- The same of every member, and every name is a text. -/
def plainMembers (depth : Nat) : List (List UInt8 × Json) → Bool
  | [] => true
  | (raw, j) :: rest => (rawText? raw).isSome && plain depth j && plainMembers depth rest

end

end Durable.Json
