import Bitemporal.Batch
import Bitemporal.Program
import Bitemporal.Record
import Bitemporal.StableSort
import Std.Data.ExtTreeMap

/-!
Timelines: every record ever written for one object.

A timeline only grows on the correction axis: a record is inserted, and later closed, but never
removed. The slice at a correction instant holds the records believed then; each slice is a tiling
of version time. `Timeline.apply` is the only way to change a timeline. It checks the slice that a
batch would leave before it changes anything in place.

Beside the records in commit order a timeline keeps two indexes: the position of each record by
identity, and the positions of the current records by the start of their version interval.
-/

namespace Bitemporal

/-- All records of one object. -/
structure Timeline (α : Type) where
  /-- The object. -/
  object : ObjectId
  /-- The records in commit order. -/
  records : List (Record α)
  /-- The position of each record. -/
  positions : Std.ExtTreeMap RecordId Nat
  /-- The positions of the current records, by the start of their version interval. -/
  active : Std.ExtTreeMap Instant Nat
  /-- The stamp of the newest batch. -/
  latest : Option Instant
  /-- The number that the next record gets as its version. -/
  nextVersion : Nat

/-- Refuses a slice that is not a tiling of version time in the order given. -/
def checkPartition {α : Type} (object : ObjectId) (slice : List (Record α)) : Except Fault Unit :=
  match Misfit.first? Record.version slice with
  | some (misfit, a, b) => .error (.corruptTimeline object (.misfit misfit a.tile b.tile))
  | none => .ok ()

/-- Refuses a run of intervals that is not a tiling of version time in the order given. -/
def checkTiling (object : ObjectId) (run : List Interval) : Except Fault Unit :=
  match Misfit.first? id run with
  | some (misfit, i, j) => .error (.corruptTimeline object (.misfit misfit ⟨none, i⟩ ⟨none, j⟩))
  | none => .ok ()

namespace Timeline

variable {α : Type}

/-- The timeline without records. -/
def empty (object : ObjectId) : Timeline α := ⟨object, [], ∅, ∅, none, 0⟩

/-- How many records were ever written. -/
def size (tl : Timeline α) : Nat := tl.records.length

/-! ## Reads -/

/-- The stamp for the next batch: the clock's reading, or one microsecond past the newest stamp if
the clock has not passed that. -/
def nextCorrection (tl : Timeline α) (now : Instant) : Instant :=
  match tl.latest with
  | some latest => if now ≤ latest then latest.next else now
  | none => now

/-- The records that were believed at `correction`, by the start of their version interval. -/
def visibleAt (tl : Timeline α) (correction : Instant) : List (Record α) :=
  stableSort (fun r s => r.version.startsBy s.version)
    (tl.records.filter fun r => r.correction.contains correction)

/-- The records that were believed at `correction`, checked to be a tiling. -/
def sliceAt (tl : Timeline α) (correction : Instant) : Except Fault (List (Record α)) := do
  checkPartition tl.object (tl.visibleAt correction)
  return tl.visibleAt correction

/-- The records that the index of current records leads to. -/
def activeRecords (tl : Timeline α) : List (Record α) :=
  tl.active.toList.filterMap fun entry => tl.records[entry.2]?

/-- The current records, checked to be a tiling. -/
def activeSlice (tl : Timeline α) : Except Fault (List (Record α)) := do
  checkPartition tl.object tl.activeRecords
  return tl.activeRecords

/-- The slice believed at `correction`, or the current one. -/
def slice (tl : Timeline α) : Option Instant → Except Fault (List (Record α))
  | some correction => tl.sliceAt correction
  | none => tl.activeSlice

/-- The last record of a slice that starts no later than `version`. -/
def candidate? (slice : List (Record α)) (version : Instant) : Option (Record α) :=
  (slice.takeWhile fun r => r.version.start ≤ version).getLast?

/-- The record that covers `version`, as believed at `correction` or now. -/
def recordAt (tl : Timeline α) (version : Instant) (correction : Option Instant) :
    Except Fault (Record α) := do
  match candidate? (← tl.slice correction) version with
  | some r =>
    if r.version.contains version then return r
    else throw (.notFound (.point tl.object version correction))
  | none => throw (.notFound (.point tl.object version correction))

/-- The record with an identity, current or not. -/
def record? (tl : Timeline α) (id : RecordId) : Option (Record α) :=
  tl.positions[id]?.bind fun position => tl.records[position]?

/-- The record with an identity, current or not. -/
def record (tl : Timeline α) (id : RecordId) : Except Fault (Record α) :=
  match tl.record? id with
  | some r => .ok r
  | none => .error (.notFound (.record id))

/-- Whether `r` comes no later than `s` in a history: later version starts first, then later
corrections. -/
def historyOrder (r s : Record α) : Bool :=
  s.version.start < r.version.start ||
    s.version.start = r.version.start && s.correction.start ≤ r.correction.start

/-- Whether an interval overlaps a window; no window is no restriction. -/
def inWindow (window : Option Interval) (i : Interval) : Bool :=
  match window with
  | some w => i.overlaps w
  | none => true

/-- The records that overlap both windows, newest view first. -/
def history (tl : Timeline α) (versions corrections : Option Interval) : List (Record α) :=
  stableSort historyOrder
    (tl.records.filter fun r => inWindow versions r.version && inWindow corrections r.correction)

/-- Checks that every record was believed for a while, and the slice at every correction instant
at which a record was written. -/
def verify (tl : Timeline α) : Except Fault Unit :=
  tl.records.forM fun r => do
    if r.correction.stop ≤ .finite r.correction.start then
      throw (.corruptTimeline tl.object (.emptyCorrection r.id))
    let _ ← tl.sliceAt r.correction.start

/-! ## Writes -/

/-- Refuses a batch for another object, one that does nothing, and one whose stamp is not new. -/
def checkBatch (tl : Timeline α) (b : Batch α) : Except Fault Unit := do
  if b.object ≠ tl.object then
    throw (.invalidInput (.foreignBatch b.object tl.object))
  if b.isEmpty then
    throw (.invalidInput .emptyBatch)
  match tl.latest with
  | some latest =>
    if b.stamp ≤ latest then throw (.conflict tl.object (.staleStamp b.stamp latest))
  | none => pure ()

/-- The position of a record to close, which must be current. -/
def closable (tl : Timeline α) (id : RecordId) : Except Fault Nat :=
  match tl.positions[id]? with
  | some position =>
    match tl.records[position]? with
    | some r =>
      if r.isCurrent then .ok position else .error (.conflict tl.object (.superseded id))
    | none => .error (.conflict tl.object (.unknownRecord id))
  | none => .error (.conflict tl.object (.unknownRecord id))

/-- The version intervals of the slice that a batch would leave, in ascending order. -/
def projected (tl : Timeline α) (closing : List Nat) (inserts : List (Pending α)) :
    List Interval :=
  stableSort Interval.startsBy
    ((tl.active.toList.filter fun entry => !closing.contains entry.2).filterMap
        (fun entry => tl.records[entry.2]?.map Record.version) ++
      inserts.map Pending.version)

/-- Closes the record at a position. The record leaves the index of the current ones first. -/
def closeAt (stamp : Instant) (position : Nat) : Program (Timeline α) Unit := do
  match (← get).records[position]? with
  | some r =>
    modify fun tl => { tl with active := tl.active.erase r.version.start }
    let closed ← Program.ofExcept (r.close stamp)
    modify fun tl => { tl with records := tl.records.set position closed }
  | none => return

/-- The record that a timeline would make of a pending one. -/
def stamped (tl : Timeline α) (stamp : Instant) (pending : Pending α) : Record α :=
  { id := tl.object.atVersion (Nat.repr tl.nextVersion)
    version := pending.version
    correction := .openFrom stamp
    payload := pending.payload }

/-- The timeline with one record more. -/
def append (tl : Timeline α) (r : Record α) : Timeline α :=
  { tl with
    records := tl.records ++ [r]
    positions := tl.positions.insert r.id tl.records.length
    active := tl.active.insert r.version.start tl.records.length
    nextVersion := tl.nextVersion + 1 }

/-- Writes the record of a pending one. -/
def write (stamp : Instant) (pending : Pending α) : Program (Timeline α) (Record α) := do
  let r := (← get).stamped stamp pending
  modify (·.append r)
  return r

/-- Applies a batch, unless it does not fit, and returns the records that it inserts. -/
def apply (b : Batch α) : Program (Timeline α) (List (Record α)) := do
  let tl ← get
  Program.ofExcept (tl.checkBatch b)
  let closing ← Program.ofExcept (b.closes.mapM tl.closable)
  Program.ofExcept (checkTiling tl.object (tl.projected closing b.inserts))
  closing.forM (closeAt b.stamp)
  let inserted ← b.inserts.mapM (write b.stamp)
  modify fun tl => { tl with latest := some b.stamp }
  return inserted

end Timeline

end Bitemporal
