import Durable.Json.Basic

/-!
# Reading JSON

A value is read from the front of a list of bytes together with the bytes behind it. The reader
checks syntax alone: nesting may be of any depth, a number of any size, and an escape of any code
point.
-/

namespace Durable.Json

/-- Blanks between the parts of a value. -/
def isSpace (b : UInt8) : Bool :=
  b = 0x20 || b = 0x0A || b = 0x0D || b = 0x09

/-- What follows the blanks in front. -/
def skipSpace (bytes : List UInt8) : List UInt8 :=
  bytes.dropWhile isSpace

/-- What stands up to the closing quote, and what follows the quote. Escapes must be known ones
    and control characters may not stand for themselves. -/
def scanString? : List UInt8 → Option (List UInt8 × List UInt8)
  | [] => none
  | 0x22 :: rest => some ([], rest)
  | 0x5C :: 0x75 :: a :: b :: c :: d :: rest =>
    if (hex4? a b c d).isSome then
      (scanString? rest).map fun (raw, after) =>
        (0x5C :: 0x75 :: a :: b :: c :: d :: raw, after)
    else none
  | 0x5C :: e :: rest =>
    if (shortEscape? e).isSome then
      (scanString? rest).map fun (raw, after) => (0x5C :: e :: raw, after)
    else none
  | b :: rest =>
    if b < 0x20 || b = 0x5C then none
    else (scanString? rest).map fun (raw, after) => (b :: raw, after)

/-- The digits in front, at least one, and what follows them. -/
def scanDigits? (bytes : List UInt8) : Option (List UInt8 × List UInt8) :=
  let digits := bytes.takeWhile Text.isDigit
  if digits.isEmpty then none else some (digits, bytes.dropWhile Text.isDigit)

/-- The digits of a whole part: a single zero, or digits that begin with another. -/
def scanWhole? (bytes : List UInt8) : Option (List UInt8 × List UInt8) := do
  let (digits, rest) ← scanDigits? bytes
  match digits with
  | 0x30 :: _ :: _ => none
  | _ => some (digits, rest)

/-- A fraction, if there is one. -/
def scanFraction? : List UInt8 → Option (List UInt8 × List UInt8)
  | 0x2E :: rest => (scanDigits? rest).map fun (digits, after) => (0x2E :: digits, after)
  | rest => some ([], rest)

/-- The digits of an exponent, behind an optional sign. -/
def scanSigned? : List UInt8 → Option (List UInt8 × List UInt8)
  | 0x2B :: rest => (scanDigits? rest).map fun (digits, after) => (0x2B :: digits, after)
  | 0x2D :: rest => (scanDigits? rest).map fun (digits, after) => (0x2D :: digits, after)
  | rest => scanDigits? rest

/-- An exponent, if there is one. -/
def scanExponent? : List UInt8 → Option (List UInt8 × List UInt8)
  | 0x65 :: rest => (scanSigned? rest).map fun (digits, after) => (0x65 :: digits, after)
  | 0x45 :: rest => (scanSigned? rest).map fun (digits, after) => (0x45 :: digits, after)
  | rest => some ([], rest)

/-- A literal without its sign. -/
def scanUnsigned? (bytes : List UInt8) : Option (List UInt8 × List UInt8) := do
  let (whole, rest) ← scanWhole? bytes
  let (fraction, rest) ← scanFraction? rest
  let (exponent, rest) ← scanExponent? rest
  pure (whole ++ fraction ++ exponent, rest)

/-- A number literal in front, and what follows it. -/
def scanNumber? : List UInt8 → Option (List UInt8 × List UInt8)
  | 0x2D :: rest => (scanUnsigned? rest).map fun (literal, after) => (0x2D :: literal, after)
  | rest => scanUnsigned? rest

mutual

/-- A value in front, within `fuel` steps, and what follows it. -/
def scanValue? : (fuel : Nat) → List UInt8 → Option (Json × List UInt8)
  | 0, _ => none
  | fuel + 1, bytes =>
    match bytes with
    | 0x6E :: 0x75 :: 0x6C :: 0x6C :: rest => some (.null, rest)
    | 0x74 :: 0x72 :: 0x75 :: 0x65 :: rest => some (.bool true, rest)
    | 0x66 :: 0x61 :: 0x6C :: 0x73 :: 0x65 :: rest => some (.bool false, rest)
    | 0x22 :: rest => (scanString? rest).map fun (raw, after) => (.str raw, after)
    | 0x5B :: rest =>
      match skipSpace rest with
      | 0x5D :: after => some (.arr [], after)
      | inner => (scanItems? fuel inner).map fun (items, after) => (.arr items, after)
    | 0x7B :: rest =>
      match skipSpace rest with
      | 0x7D :: after => some (.obj [], after)
      | inner => (scanMembers? fuel inner).map fun (members, after) => (.obj members, after)
    | _ => (scanNumber? bytes).map fun (literal, after) => (.num literal, after)

/-- The items up to the closing bracket, at least one. -/
def scanItems? : (fuel : Nat) → List UInt8 → Option (List Json × List UInt8)
  | 0, _ => none
  | fuel + 1, bytes =>
    match scanValue? fuel bytes with
    | none => none
    | some (item, rest) =>
      match skipSpace rest with
      | 0x5D :: after => some ([item], after)
      | 0x2C :: more =>
        (scanItems? fuel (skipSpace more)).map fun (items, after) => (item :: items, after)
      | _ => none

/-- The members up to the closing brace, at least one. -/
def scanMembers? : (fuel : Nat) → List UInt8 → Option (List (List UInt8 × Json) × List UInt8)
  | 0, _ => none
  | fuel + 1, bytes =>
    match bytes with
    | 0x22 :: quoted =>
      match scanString? quoted with
      | none => none
      | some (name, rest) =>
        match skipSpace rest with
        | 0x3A :: value =>
          match scanValue? fuel (skipSpace value) with
          | none => none
          | some (j, rest) =>
            match skipSpace rest with
            | 0x7D :: after => some ([(name, j)], after)
            | 0x2C :: more =>
              (scanMembers? fuel (skipSpace more)).map fun (members, after) =>
                ((name, j) :: members, after)
            | _ => none
        | _ => none
    | _ => none

end

/-- The value that bytes hold, with nothing but blanks around it. -/
def parse? (bytes : List UInt8) : Option Json :=
  match scanValue? (bytes.length + 1) (skipSpace bytes) with
  | some (j, rest) => if (skipSpace rest).isEmpty then some j else none
  | none => none

end Durable.Json
