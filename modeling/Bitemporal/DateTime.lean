import Bitemporal.Calendar
import Bitemporal.Instant

/-!
Date-times, which cover a span of years around the epoch down to nanoseconds, their exchange with
instants, and the text of an instant.

An instant within the span is written as an RFC 3339 date-time with six fraction digits; one
beyond it as its seconds and six fraction digits.
-/

namespace Bitemporal

/-- A UTC date-time. Its fraction may run to a second leap second when the minute ends. -/
@[ext]
structure DateTime where
  /-- Seconds since the epoch, negative before it. -/
  seconds : Int
  /-- The fraction in nanoseconds; a billion or more within a leap second. -/
  nanos : Nat
deriving DecidableEq

namespace DateTime

/-- The first second of the span, in the year -262143. -/
def firstSecond : Int := -8334601228800

/-- The last second of the span, in the year 262142. -/
def lastSecond : Int := 8210266876799

/-- The date-time `seconds` and `nanos` after the epoch, if it lies in the span. Only the last
second of a minute may have a leap second after it. -/
def ofUnix? (seconds : Int) (nanos : Nat) : Option DateTime :=
  if firstSecond ≤ seconds ∧ seconds ≤ lastSecond ∧
      (nanos < 1000000000 ∨ nanos < 2000000000 ∧ seconds % 60 = 59) then
    some ⟨seconds, nanos⟩
  else none

end DateTime

namespace Instant

/-- The date-time of an instant, if it lies in the span of date-times. -/
def toDateTime? (a : Instant) : Option DateTime :=
  DateTime.ofUnix? a.seconds (a.micros % 1000000 * 1000)

/-- The instant of a date-time, down to whole microseconds, if it is not before the epoch. -/
def ofDateTime? (d : DateTime) : Option Instant :=
  if 0 ≤ d.seconds * 1000000 + (d.nanos / 1000 : Nat) then
    ofMicros? (d.seconds * 1000000 + (d.nanos / 1000 : Nat)).toNat
  else none

/-- The time of day of the second `secondOfDay`, as ISO 8601 writes it. -/
def timeOfDayText (secondOfDay : Nat) : String :=
  paddedDecimal 2 (secondOfDay / 3600) ++ ":" ++ paddedDecimal 2 (secondOfDay / 60 % 60) ++ ":" ++
    paddedDecimal 2 (secondOfDay % 60)

/-- The text of an instant. -/
def text (a : Instant) : String :=
  if a.toDateTime?.isSome then
    (Date.ofEpochDay (a.seconds / 86400)).text ++ "T" ++ timeOfDayText (a.seconds % 86400) ++
      "." ++ paddedDecimal 6 (a.micros % 1000000) ++ "Z"
  else Nat.repr a.seconds ++ "." ++ paddedDecimal 6 (a.micros % 1000000)

end Instant

end Bitemporal
