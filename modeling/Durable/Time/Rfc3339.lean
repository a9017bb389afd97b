import Durable.Time.Instant
import Durable.Text.Blank

/-!
# RFC 3339 times

An instant is written in UTC with the fewest of 0, 3, 6 or 9 fraction digits that are exact.
Years outside 0 to 9999 carry a sign. Reading is more lenient: blanks may stand between the parts,
numbers may be short, fractions long, and the offset any below a day.
-/

namespace Durable.Time.Rfc3339

/-! ### Writing -/

/-- A natural number as characters, at least `width` of them. -/
def digits (width n : Nat) : List Char :=
  let bare := (Nat.toDigits 10 n)
  List.replicate (width - bare.length) '0' ++ bare

/-- A year: four digits, or a sign and at least four digits. -/
def writeYear (year : Int) : List Char :=
  if 0 ≤ year ∧ year ≤ 9999 then digits 4 year.toNat
  else (if year < 0 then '-' else '+') :: digits 4 year.natAbs

/-- A fraction of a second in nanoseconds, behind its point. -/
def writeFraction (nanos : Nat) : List Char :=
  if nanos = 0 then []
  else if nanos % 1000000 = 0 then '.' :: digits 3 (nanos / 1000000)
  else if nanos % 1000 = 0 then '.' :: digits 6 (nanos / 1000)
  else '.' :: digits 9 nanos

/-- The characters of an instant. -/
def writeChars (t : Instant) : List Char :=
  let date := Date.ofDays (t.seconds / 86400)
  let clock := (t.seconds % 86400).toNat
  let leap := 1000000000 ≤ t.nanos
  let second := clock % 60 + if leap then 1 else 0
  let nanos := if leap then t.nanos - 1000000000 else t.nanos
  writeYear date.year ++ '-' :: digits 2 date.month ++ '-' :: digits 2 date.day
    ++ 'T' :: digits 2 (clock / 3600) ++ ':' :: digits 2 (clock / 60 % 60)
    ++ ':' :: digits 2 second ++ writeFraction nanos ++ ['Z']

/-- The text of an instant. -/
def write (t : Instant) : String :=
  String.ofList (writeChars t)

/-! ### Reading -/

/-- What is left behind blanks. -/
def skip (cs : List Char) : List Char :=
  cs.dropWhile Text.isBlank

/-- The number of ASCII digits. -/
def value (digits : List Char) : Nat :=
  digits.foldl (fun n c => 10 * n + (c.toNat - 0x30)) 0

/-- A number of one to `width` digits. -/
def number? (width : Nat) (cs : List Char) : Option (Nat × List Char) :=
  let found := (cs.take width).takeWhile Char.isDigit
  if found.isEmpty then none else some (value found, cs.drop found.length)

/-- A number of at least one digit. -/
def anyNumber? (cs : List Char) : Option (Nat × List Char) :=
  number? cs.length cs

/-- A year: a sign and digits, or up to four digits. -/
def year? (cs : List Char) : Option (Int × List Char) :=
  match skip cs with
  | '-' :: rest => (anyNumber? rest).map fun (n, after) => (-(n : Int), after)
  | '+' :: rest => (anyNumber? rest).map fun (n, after) => ((n : Int), after)
  | rest => (number? 4 rest).map fun (n, after) => ((n : Int), after)

/-- A number of one or two digits, blanks in front. -/
def two? (cs : List Char) : Option (Nat × List Char) :=
  number? 2 (skip cs)

/-- What follows a given character, blanks in front of it. -/
def mark? (c : Char) (cs : List Char) : Option (List Char) :=
  match skip cs with
  | d :: rest => if d = c then some rest else none
  | [] => none

/-- A fraction of a second in nanoseconds, if there is one. Digits behind the ninth are passed
    over. -/
def fraction? : List Char → Option (Nat × List Char)
  | '.' :: rest =>
    let found := (rest.take 9).takeWhile Char.isDigit
    if found.isEmpty then none
    else some (value found * Nat.pow 10 (9 - found.length), rest.dropWhile Char.isDigit)
  | rest => some (0, rest)

/-- The value of a digit. -/
def digit? (c : Char) : Option Nat :=
  if c.isDigit then some (c.toNat - 0x30) else none

/-- Hours and minutes of an offset as seconds, with colons and blanks between them. -/
def clock? : List Char → Option (Nat × List Char)
  | h1 :: h2 :: rest => do
    let h1 ← digit? h1
    let h2 ← digit? h2
    match rest.dropWhile (fun c => c = ':' || Text.isBlank c) with
    | m1 :: m2 :: after => do
      let m1 ← digit? m1
      let m2 ← digit? m2
      if m1 < 6 then pure (((10 * h1 + h2) * 60 + 10 * m1 + m2) * 60, after) else none
    | _ => none
  | _ => none

/-- An offset from UTC in seconds. -/
def offset? (cs : List Char) : Option (Int × List Char) :=
  match cs with
  | 'Z' :: rest => some (0, rest)
  | 'z' :: rest => some (0, rest)
  | '+' :: rest => (clock? rest).map fun (n, after) => ((n : Int), after)
  | '-' :: rest => (clock? rest).map fun (n, after) => (-(n : Int), after)
  | '−' :: rest => (clock? rest).map fun (n, after) => (-(n : Int), after)
  | u :: t :: c :: rest =>
    if u.toUpper = 'U' ∧ t.toUpper = 'T' ∧ c.toUpper = 'C' then some (0, rest) else none
  | _ => none

/-- What follows the letter or the blank between date and time. -/
def separator? : List Char → Option (List Char)
  | 'T' :: rest => some rest
  | 't' :: rest => some rest
  | ' ' :: rest => some rest
  | _ => none

/-- The instant of a date, a time of day and an offset, if all exist. -/
def assemble? (date : Date) (hour minute second nanos : Nat) (offset : Int) : Option Instant :=
  if date.isValid ∧ Date.first.year ≤ date.year ∧ date.year ≤ Date.last.year
      ∧ hour < 24 ∧ minute < 60 ∧ second ≤ 60 ∧ offset.natAbs < 86400 then
    let leap := second = 60
    let clock := hour * 3600 + minute * 60 + if leap then 59 else second
    let seconds := date.toDays * 86400 + clock - offset
    if Instant.secondsInRange seconds then
      some ⟨seconds, nanos + if leap then 1000000000 else 0⟩
    else none
  else none

/-- The instant that characters stand for. -/
def readChars? (cs : List Char) : Option Instant := do
  let (year, cs) ← year? cs
  let cs ← mark? '-' cs
  let (month, cs) ← two? cs
  let cs ← mark? '-' cs
  let (day, cs) ← two? cs
  let cs ← separator? cs
  let (hour, cs) ← two? cs
  let cs ← mark? ':' cs
  let (minute, cs) ← two? cs
  let cs ← mark? ':' cs
  let (second, cs) ← two? cs
  let (nanos, cs) ← fraction? cs
  let (offset, cs) ← offset? (skip cs)
  if (skip cs).isEmpty then assemble? ⟨year, month, day⟩ hour minute second nanos offset else none

/-- The instant that a text stands for. -/
def read? (text : String) : Option Instant :=
  readChars? text.toList

end Durable.Time.Rfc3339
