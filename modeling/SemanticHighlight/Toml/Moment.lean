import SemanticHighlight.Toml.Value

/-!
# Dates and times

A moment is a date, a time of day, or both with an optional offset behind. A date has to exist in
the calendar, and a minute may have a 61st second.
-/

set_option autoImplicit false

namespace SemanticHighlight.Toml

/-- Reads a number of exactly so many digits. -/
def readFixed? (count : Nat) (chars : List Char) : Option (Nat × List Char) :=
  let digits := chars.take count
  if digits.length = count ∧ digits.all Char.isDigit then
    some (Nat.ofDigitChars 10 digits 0, chars.drop count)
  else
    none

def pass? (expected : Char) : List Char → Option (List Char)
  | [] => none
  | character :: rest => if character = expected then some rest else none

def isLeapYear (year : Nat) : Bool :=
  year % 4 == 0 && (year % 100 != 0 || year % 400 == 0)

def daysIn (year month : Nat) : Nat :=
  if month = 2 then if isLeapYear year then 29 else 28
  else if month = 4 ∨ month = 6 ∨ month = 9 ∨ month = 11 then 30
  else 31

def passDate? (chars : List Char) : Option (List Char) := do
  let (year, rest) ← readFixed? 4 chars
  let rest ← pass? '-' rest
  let (month, rest) ← readFixed? 2 rest
  guard (1 ≤ month ∧ month ≤ 12)
  let rest ← pass? '-' rest
  let (day, rest) ← readFixed? 2 rest
  guard (1 ≤ day ∧ day ≤ daysIn year month)
  return rest

def skipSecondFraction : List Char → List Char
  | '.' :: digit :: rest =>
      if digit.isDigit then rest.dropWhile Char.isDigit else '.' :: digit :: rest
  | chars => chars

def passHourMinute? (chars : List Char) : Option (List Char) := do
  let (hour, rest) ← readFixed? 2 chars
  guard (hour ≤ 23)
  let rest ← pass? ':' rest
  let (minute, rest) ← readFixed? 2 rest
  guard (minute ≤ 59)
  return rest

def passTime? (chars : List Char) : Option (List Char) := do
  let rest ← passHourMinute? chars
  let rest ← pass? ':' rest
  let (second, rest) ← readFixed? 2 rest
  guard (second ≤ 60)
  return skipSecondFraction rest

def skipOffset : List Char → List Char
  | [] => []
  | mark :: rest =>
      if mark = 'Z' ∨ mark = 'z' then rest
      else if mark = '+' ∨ mark = '-' then (passHourMinute? rest).getD (mark :: rest)
      else mark :: rest

/-- Passes the time behind a date, where there is one. -/
def skipTimeOfDate : List Char → List Char
  | [] => []
  | mark :: rest =>
      if mark = 'T' ∨ mark = 't' ∨ mark = ' ' then
        match passTime? rest with
        | some rest => skipOffset rest
        | none => mark :: rest
      else
        mark :: rest

/-- Reads a date, a time of day, or both. -/
def readMoment? (chars : List Char) : Option (Value × List Char) :=
  match passDate? chars with
  | some rest => some (.moment, skipTimeOfDate rest)
  | none => (passTime? chars).map fun rest => (.moment, rest)

end SemanticHighlight.Toml
