import Bitemporal.Instant

/-!
Durations, and their sum and difference with instants.

A duration counts far more seconds than an instant can hold microseconds. Arithmetic on instants
reads only the low 64 bits of its whole microseconds (`Duration.wordMicros`); sums and differences
with that count saturate.
-/

namespace Bitemporal

/-- A length of time: whole seconds, at most 64 bits of them, and a fraction in nanoseconds. -/
@[ext]
structure Duration where
  /-- Whole seconds. -/
  seconds : Nat
  /-- The rest, in nanoseconds. -/
  nanos : Nat
  /-- The seconds fit in 64 bits. -/
  seconds_le : seconds ≤ 18446744073709551615
  /-- The rest is less than a second. -/
  nanos_lt : nanos < 1000000000

namespace Duration

instance : DecidableEq Duration := fun a b =>
  decidable_of_iff (a.seconds = b.seconds ∧ a.nanos = b.nanos)
    ⟨fun h => Duration.ext h.1 h.2, fun h => h ▸ ⟨rfl, rfl⟩⟩

/-- The duration of `seconds` and `nanos`, where whole seconds among the
nanoseconds are carried over. -/
def ofParts? (seconds nanos : Nat) : Option Duration :=
  if h : seconds + nanos / 1000000000 ≤ 18446744073709551615 then
    some ⟨seconds + nanos / 1000000000, nanos % 1000000000, h, Nat.mod_lt _ (by decide)⟩
  else none

/-- Whole microseconds, without a bound. -/
def wholeMicros (d : Duration) : Nat := d.seconds * 1000000 + d.nanos / 1000

/-- The low 64 bits of the whole microseconds. -/
def wordMicros (d : Duration) : Nat := d.wholeMicros % 18446744073709551616

end Duration

namespace Instant

/-- The instant `d` after the epoch. -/
def ofDuration (d : Duration) : Instant := saturating d.wordMicros

/-- The instant `d` later, or the last instant if that is beyond it. -/
def add (a : Instant) (d : Duration) : Instant := saturating (a.micros + d.wordMicros)

/-- The instant `d` earlier, or the epoch if that is before it. -/
def sub (a : Instant) (d : Duration) : Instant := a.back d.wordMicros

/-- The time from `earlier` to `a`, if `earlier` is not later than `a`. -/
def since? (a earlier : Instant) : Option Duration :=
  if earlier ≤ a then
    some
      { seconds := (a.micros - earlier.micros) / 1000000
        nanos := (a.micros - earlier.micros) % 1000000 * 1000
        seconds_le := by have := a.micros_le; omega
        nanos_lt := by omega }
  else none

end Instant

end Bitemporal
