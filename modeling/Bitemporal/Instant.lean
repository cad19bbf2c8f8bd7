/-!
Instants: microseconds since the Unix epoch, from the epoch up to the largest 64-bit count.

Version time and correction time are measured with the same type. Arithmetic never leaves the
range: a result beyond either end stays at that end.
-/

namespace Bitemporal

/-- A point of either time axis, in microseconds since 1970-01-01T00:00:00Z. -/
@[ext]
structure Instant where
  /-- Microseconds since the epoch. -/
  micros : Nat
  /-- An instant fits in 64 bits. -/
  micros_le : micros ≤ 18446744073709551615
deriving DecidableEq

namespace Instant

/-- The largest number of microseconds that an instant holds. -/
def maxMicros : Nat := 18446744073709551615

/-- The first instant, 1970-01-01T00:00:00Z. -/
def epoch : Instant := ⟨0, Nat.zero_le _⟩

/-- The last instant. -/
def last : Instant := ⟨maxMicros, Nat.le_refl _⟩

instance : Inhabited Instant := ⟨epoch⟩

instance : LE Instant := ⟨fun a b => a.micros ≤ b.micros⟩

instance : LT Instant := ⟨fun a b => a.micros < b.micros⟩

instance (a b : Instant) : Decidable (a ≤ b) := inferInstanceAs (Decidable (a.micros ≤ b.micros))

instance (a b : Instant) : Decidable (a < b) := inferInstanceAs (Decidable (a.micros < b.micros))

instance : Ord Instant := ⟨compareOn (·.micros)⟩

theorem compare_def : compare (α := Instant) = compareOn (·.micros) := rfl

instance : Std.TransOrd Instant := inferInstanceAs <| Std.TransCmp (compareOn _)

instance : Std.LawfulEqOrd Instant where
  eq_of_compare {a b} h :=
    Instant.ext (Nat.compare_eq_eq.mp (show compare a.micros b.micros = .eq from h))

instance : Max Instant := maxOfLe

instance : Min Instant := minOfLe

theorem le_iff {a b : Instant} : a ≤ b ↔ a.micros ≤ b.micros := Iff.rfl

theorem lt_iff {a b : Instant} : a < b ↔ a.micros < b.micros := Iff.rfl

/-- The instant `micros` after the epoch, or the last instant if that is beyond it. -/
def saturating (micros : Nat) : Instant := ⟨min micros maxMicros, Nat.min_le_right _ _⟩

/-- The instant `micros` after the epoch, if there is one. -/
def ofMicros? (micros : Nat) : Option Instant :=
  if h : micros ≤ maxMicros then some ⟨micros, h⟩ else none

/-- The instant `seconds` after the epoch, saturating. -/
def ofSeconds (seconds : Nat) : Instant := saturating (seconds * 1000000)

/-- The instant `millis` milliseconds after the epoch, saturating. -/
def ofMillis (millis : Nat) : Instant := saturating (millis * 1000)

/-- Whole seconds since the epoch. -/
def seconds (a : Instant) : Nat := a.micros / 1000000

/-- Whole milliseconds since the epoch. -/
def millis (a : Instant) : Nat := a.micros / 1000

/-- The next microsecond; the last instant is its own successor. -/
def next (a : Instant) : Instant := saturating (a.micros + 1)

/-- The instant `micros` earlier, or the epoch if that is before it. -/
def back (a : Instant) (micros : Nat) : Instant :=
  ⟨a.micros - micros, Nat.le_trans (Nat.sub_le _ _) a.micros_le⟩

end Instant

end Bitemporal
