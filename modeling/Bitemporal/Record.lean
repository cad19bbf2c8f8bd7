import Bitemporal.Fault

/-!
Records: a payload with its extent on both time axes.

The version interval says when a fact was true, the correction interval when it was believed. A
record is current until a later correction supersedes it, and it is kept after that.
-/

namespace Bitemporal

/-- A payload placed on both time axes. -/
@[ext]
structure Record (α : Type) where
  /-- The identity of the record. -/
  id : RecordId
  /-- When the fact was true. -/
  version : Interval
  /-- When the system believed it. -/
  correction : Interval
  /-- The fact. -/
  payload : α
deriving DecidableEq

namespace Record

variable {α β : Type}

/-- The lineage of the record. -/
def object (r : Record α) : ObjectId := r.id.object

/-- Whether no later correction has superseded the record. -/
def isCurrent (r : Record α) : Bool := r.correction.isOpen

/-- When the record was superseded, if it was. -/
def supersededAt? (r : Record α) : Option Instant := r.correction.stop.instant?

/-- Whether the record holds at `version`, as believed at `correction`. -/
def isVisibleAt (r : Record α) (version correction : Instant) : Bool :=
  r.version.contains version && r.correction.contains correction

/-- The record with another payload. -/
def map (f : α → β) (r : Record α) : Record β := { r with payload := f r.payload }

/-- The record as superseded at `instant`, refused unless that is after it was recorded. -/
def close (r : Record α) (instant : Instant) : Except Fault (Record α) := do
  return { r with correction := ← r.correction.withStop (.finite instant) }

/-- The record as a tile of version time. -/
def tile (r : Record α) : Tile := ⟨some r.id, r.version⟩

end Record

end Bitemporal
