import Bitemporal.Digits

/-!
Calendar dates of the proleptic Gregorian calendar, for days from 1970-01-01 onwards.

A date is found by counting from 0000-03-01, so that the leap day comes last in its year: 400
years, an era, have 146097 days, and the months from March on have lengths that one linear formula
gives.
-/

namespace Bitemporal

/-- A day of the calendar. -/
@[ext]
structure Date where
  /-- The year; it starts in January. -/
  year : Nat
  /-- The month, from 1. -/
  month : Nat
  /-- The day of the month, from 1. -/
  day : Nat
deriving DecidableEq

namespace Date

/-- The number of days of a month. Every fourth year has a leap day, but of the centuries only
every fourth. -/
def daysInMonth (year month : Nat) : Nat :=
  if month = 2 then if year % 4 = 0 ∧ (year % 100 ≠ 0 ∨ year % 400 = 0) then 29 else 28
  else if month = 4 ∨ month = 6 ∨ month = 9 ∨ month = 11 then 30
  else 31

/-- The year within its era of 400 years, of the day `dayOfEra` within that era, where years start
in March: one day in 1460 is a leap day, save one in 36524, save one in 146096. -/
def marchYearOfEra (dayOfEra : Nat) : Nat :=
  (dayOfEra - dayOfEra / 1460 + dayOfEra / 36524 - dayOfEra / 146096) / 365

/-- The days of an era before its year `yearOfEra`, where years start in March. -/
def daysBeforeMarchYear (yearOfEra : Nat) : Nat :=
  365 * yearOfEra + yearOfEra / 4 - yearOfEra / 100

/-- The days of a year before its month `marchMonth`, where March is month 0. -/
def daysBeforeMarchMonth (marchMonth : Nat) : Nat := (153 * marchMonth + 2) / 5

/-- The month of the day `dayOfYear`, where years start with March as month 0. -/
def marchMonthOfDay (dayOfYear : Nat) : Nat := (5 * dayOfYear + 2) / 153

/-- The date `days` days after 1970-01-01, which is day 719468 after 0000-03-01. -/
def ofEpochDay (days : Nat) : Date :=
  let shifted := days + 719468
  let dayOfEra := shifted % 146097
  let yearOfEra := marchYearOfEra dayOfEra
  let dayOfYear := dayOfEra - daysBeforeMarchYear yearOfEra
  let marchMonth := marchMonthOfDay dayOfYear
  let marchYear := 400 * (shifted / 146097) + yearOfEra
  { year := if marchMonth < 10 then marchYear else marchYear + 1
    month := if marchMonth < 10 then marchMonth + 3 else marchMonth - 9
    day := dayOfYear - daysBeforeMarchMonth marchMonth + 1 }

/-- The date as ISO 8601 writes it: years above 9999 carry a plus sign. -/
def text (d : Date) : String :=
  (if d.year ≤ 9999 then paddedDecimal 4 d.year else "+" ++ paddedDecimal 5 d.year) ++
    "-" ++ paddedDecimal 2 d.month ++ "-" ++ paddedDecimal 2 d.day

end Date

end Bitemporal
