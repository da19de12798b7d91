import ReluAbstraction.Scan

/-!
# Dates and times

The dates and times that a TOML value may be: a date, a time of day, or a date with a time of day and possibly a distance
from universal time.
-/

namespace ReluAbstraction.Toml

/-- A number of a fixed count of digits. -/
def fixedDigits (count : Nat) : Scan Nat := return ofDigits 10 (← Scan.times count Char.isDigit)

/-- A number of two digits in a range. -/
def twoDigits (low high : Nat) : Scan Nat := do
  let n ← fixedDigits 2
  if low ≤ n ∧ n ≤ high then return n else failure

/-- Number of days of a month. -/
def daysIn (year month : Nat) : Nat :=
  let leap : Bool := year % 4 = 0 && (year % 100 ≠ 0 || year % 400 = 0)
  if month = 2 then (if leap then 29 else 28)
  else if month ∈ [4, 6, 9, 11] then 30
  else 31

/-- A date. -/
def date : Scan Unit := do
  let year ← fixedDigits 4
  Scan.exactly "-"
  let month ← twoDigits 1 12
  Scan.exactly "-"
  discard (twoDigits 1 (daysIn year month))

/-- A time of day; a minute may have a leap second. -/
def timeOfDay : Scan Unit := do
  discard (twoDigits 0 23)
  Scan.exactly ":"
  discard (twoDigits 0 59)
  Scan.exactly ":"
  discard (twoDigits 0 60)
  if ← Scan.accept '.' then discard (Scan.span1 Char.isDigit)

/-- A distance from universal time. -/
def offset : Scan Unit :=
  discard (Scan.char fun c => c = 'Z' || c = 'z') <|> do
    discard (Scan.char fun c => c = '+' || c = '-')
    discard (twoDigits 0 23)
    Scan.exactly ":"
    discard (twoDigits 0 59)

/-- The time of day that may follow a date. -/
def timeAfterDate : Scan Unit := do
  discard (Scan.char fun c => c = 'T' || c = 't' || c = ' ')
  timeOfDay
  discard (Scan.attempt offset)

/-- A date, a time of day or both. -/
def dateOrTime : Scan Unit :=
  (do
    date
    discard (Scan.attempt timeAfterDate)) <|> timeOfDay

end ReluAbstraction.Toml
