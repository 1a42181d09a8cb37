import Flowline.Text.Bytes

/-!
# Timestamps

A plain scalar that reads as a point in time is no string.  It is a date, or a date and a time of
day: with a zone behind a `T` or a `t`, without one behind blanks.  The year has four digits, all
other numbers one or two, and the day must exist.
-/

namespace Flowline.Description.Timestamp

/-- Decimal digits. -/
def isDigit (c : Char) : Bool := '0' ≤ c && c ≤ '9'

/-- The value of a digit. -/
def digit (c : Char) : Nat := c.toNat - '0'.toNat

/-- Reads a number of one or two digits. -/
def number? : List Char → Option (Nat × List Char)
  | a :: b :: cs =>
    if !isDigit a then none
    else if isDigit b then some (digit a * 10 + digit b, cs)
    else some (digit a, b :: cs)
  | [a] => if isDigit a then some (digit a, []) else none
  | [] => none

/-- Reads a character that must be there. -/
def expect? (c : Char) : List Char → Option (List Char)
  | d :: cs => if d = c then some cs else none
  | [] => none

/-- Whether a year has a leap day. -/
def isLeap (year : Nat) : Bool := year % 4 = 0 && (year % 100 ≠ 0 || year % 400 = 0)

/-- The number of days of a month. -/
def daysIn (year month : Nat) : Nat :=
  if month = 2 then (if isLeap year then 29 else 28)
  else if month = 4 ∨ month = 6 ∨ month = 9 ∨ month = 11 then 30
  else 31

/-- Reads a date: year, month and day with dashes between them. -/
def date? (cs : List Char) : Option (List Char) := do
  let year := cs.takeWhile isDigit
  if year.length ≠ 4 then none
  let cs ← expect? '-' (cs.drop 4)
  let (month, cs) ← number? cs
  let cs ← expect? '-' cs
  let (day, cs) ← number? cs
  let y := year.foldl (fun n c => n * 10 + digit c) 0
  if 1 ≤ month ∧ month ≤ 12 ∧ 1 ≤ day ∧ day ≤ daysIn y month then some cs else none

/-- Skips a fraction of a second: a point or a comma, and digits. -/
def skipFraction : List Char → List Char
  | p :: d :: cs =>
    if (p = '.' || p = ',') && isDigit d then cs.dropWhile isDigit else p :: d :: cs
  | cs => cs

/-- Reads a time of day. -/
def time? (cs : List Char) : Option (List Char) := do
  let (hour, cs) ← number? cs
  let cs ← expect? ':' cs
  let (minute, cs) ← number? cs
  let cs ← expect? ':' cs
  let (second, cs) ← number? cs
  if hour < 24 ∧ minute < 60 ∧ second < 60 then some (skipFraction cs) else none

/-- Whether the characters are a zone: a `Z`, or a distance in hours and minutes with a sign. -/
def isZone : List Char → Bool
  | ['Z'] => true
  | [sign, h, i, ':', m, n] =>
    (sign = '+' || sign = '-') && isDigit h && isDigit i && isDigit m && isDigit n &&
      digit h * 10 + digit i ≤ 24 && digit m * 10 + digit n ≤ 60
  | _ => false

end Timestamp

open Timestamp in
/-- Whether the characters of a scalar are a timestamp. -/
def isTimestamp (cs : List Char) : Bool :=
  match date? cs with
  | none => false
  | some [] => true
  | some (c :: rest) =>
    if c = 'T' ∨ c = 't' then (time? rest).any isZone
    else if c = ' ' then (time? (rest.dropWhile (· = ' '))).any List.isEmpty
    else false

end Flowline.Description
