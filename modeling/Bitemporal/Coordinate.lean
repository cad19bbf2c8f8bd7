import Bitemporal.DateTime

/-!
Coordinates of queries: a version instant and a correction instant, either of which may be the
latest.

The latest version is the present; the latest correction is whatever is believed now.
-/

namespace Bitemporal

/-- A point of both time axes; no instant means the latest. -/
@[ext]
structure Coordinate where
  /-- When the fact should hold. -/
  version : Option Instant
  /-- When the system should have believed it. -/
  correction : Option Instant
deriving DecidableEq

namespace Coordinate

/-- The latest version as seen by the latest correction. -/
def latest : Coordinate := ⟨none, none⟩

/-- Whether an axis is left at the latest. -/
def containsLatest (c : Coordinate) : Bool := c.version.isNone || c.correction.isNone

/-- The coordinate with `now` for each axis that is left at the latest. -/
def fixLatest (c : Coordinate) (now : Instant) : Coordinate :=
  ⟨some (c.version.getD now), some (c.correction.getD now)⟩

/-- The coordinate with `now` for the latest version. The latest correction stays. -/
def resolve (c : Coordinate) (now : Instant) : Coordinate :=
  ⟨some (c.version.getD now), c.correction⟩

/-- The text of one axis. -/
def axisText : Option Instant → String
  | some instant => instant.text
  | none => "LATEST"

/-- The text of a coordinate. -/
def text (c : Coordinate) : String := "V" ++ axisText c.version ++ ".C" ++ axisText c.correction

end Coordinate

end Bitemporal
