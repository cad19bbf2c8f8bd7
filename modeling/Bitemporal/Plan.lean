import Bitemporal.Batch
import Bitemporal.Record
import Bitemporal.Replacement
import Bitemporal.StableSort

/-!
Plans: what an edit closes and inserts, worked out on the current slice before anything is
touched.

* `Plan.exactReplace` replaces the records of a range whose ends are boundaries of the slice.
* `Plan.singleReplace` replaces one current record.
* `Plan.splice` lays replacements over the span that they cover. A record that the span cuts
  keeps its part outside the span as a remnant.
* `Plan.terminate` ends the lineage.

`Plan.check` looks at the slice that a plan would leave. A gap is the caller's fault, an overlap
the planner's.
-/

namespace Bitemporal

/-- What an edit closes and inserts, without a stamp. -/
@[ext]
structure Plan (α : Type) where
  /-- The records to supersede. -/
  closes : List RecordId
  /-- The records to create, in order. -/
  inserts : List (Pending α)
deriving DecidableEq

namespace Plan

variable {α : Type}

/-- The plan as a batch at a stamp. -/
def toBatch (plan : Plan α) (object : ObjectId) (stamp : Instant) : Except Fault (Batch α) := do
  return (← (Batch.empty object stamp).closeAll plan.closes).insertAll plan.inserts

/-- Lays replacements end to end from `start` to `stop`: each runs to where the next one starts,
whatever start the first and end the last one asks for. -/
def layOut (start : Instant) (stop : Boundary) :
    List (Replacement α) → Except Fault (List (Pending α))
  | [] => .ok []
  | [last] => do
    return [⟨← Interval.between start stop, last.payload⟩]
  | r :: next :: rest => do
    let extent ← Interval.between start (.finite next.start)
    return ⟨extent, r.payload⟩ :: (← layOut next.start stop (next :: rest))

/-- The records of a run up to the one that ends at `stop`, or nothing if no record does before
one ends later. -/
def runUpTo? (stop : Boundary) : List (Record α) → Option (List (Record α))
  | [] => none
  | r :: rest =>
    if stop < r.version.stop then none
    else if r.version.stop = stop then some [r]
    else (runUpTo? stop rest).map (r :: ·)

/-- Plans to replace the records from the one that starts at the target's start to the one that
ends at its end. -/
def exactReplace (object : ObjectId) (active : List (Record α)) (target : Interval)
    (replacements : List (Replacement α)) : Except Fault (Plan α) := do
  match active.dropWhile (fun r => r.version.start ≠ target.start) with
  | [] => throw (.nonExactRange object (.startOffBoundary target.start))
  | r :: rest =>
    match runUpTo? target.stop (r :: rest) with
    | some run => return ⟨run.map Record.id, ← layOut target.start target.stop replacements⟩
    | none => throw (.nonExactRange object (.stopOffBoundary target.stop))

/-- Refuses replacements that do not start where the record starts. -/
def checkStart (record : Record α) : List (Replacement α) → Except Fault Unit
  | [] => .error (.invalidInput .noReplacements)
  | first :: _ =>
    if first.start = record.version.start then .ok ()
    else
      .error (.nonExactRange record.object
        (.startMismatch first.start record.id record.version.start))

/-- Refuses replacements that start at or beyond the end of the record. -/
def checkInside (record : Record α) (replacements : List (Replacement α)) : Except Fault Unit :=
  match replacements.find? (fun r => record.version.stop ≤ .finite r.start) with
  | some outside => .error (.boundaryMismatch record.version.stop (.finite outside.start))
  | none => .ok ()

/-- Refuses an explicit last end that is not the end of the record. -/
def checkStop (record : Record α) (replacements : List (Replacement α)) : Except Fault Unit :=
  match replacements.getLast?.bind Replacement.stop with
  | some stop =>
    if .finite stop = record.version.stop then .ok ()
    else .error (.boundaryMismatch record.version.stop (.finite stop))
  | none => .ok ()

/-- Plans to replace one record, which must be current. The replacements start where it starts,
stay inside it and, if they have a last end, end where it ends. -/
def singleReplace (record : Record α) (replacements : List (Replacement α)) :
    Except Fault (Plan α) := do
  match record.supersededAt? with
  | some instant => throw (.staleVersion record.id instant)
  | none =>
    checkStart record replacements
    checkInside record replacements
    checkStop record replacements
    return ⟨[record.id], ← layOut record.version.start record.version.stop replacements⟩

/-- The span that replacements cover. -/
def span (replacements : List (Replacement α)) : Except Fault Interval :=
  match replacements.head?, replacements.getLast? with
  | some first, some last => Interval.between first.start last.boundary
  | _, _ => .error (.invalidInput .noReplacements)

/-- The part of the first overlapped record before the span. -/
def headRemnant (span : Interval) (overlapped : List (Record α)) :
    Except Fault (List (Pending α)) :=
  match overlapped.head? with
  | some head =>
    if head.version.start < span.start then do
      return [⟨← head.version.withStop (.finite span.start), head.payload⟩]
    else .ok []
  | none => .ok []

/-- The part of the last overlapped record after the span. -/
def tailRemnant (span : Interval) (overlapped : List (Record α)) :
    Except Fault (List (Pending α)) :=
  match overlapped.getLast?, span.stop with
  | some tail, .finite stop =>
    if .finite stop < tail.version.stop then do
      return [⟨← tail.version.withStart stop, tail.payload⟩]
    else .ok []
  | _, _ => .ok []

/-- Plans to lay replacements over the span that they cover. -/
def splice (active : List (Record α)) (replacements : List (Replacement α)) :
    Except Fault (Plan α) := do
  let span ← span replacements
  let overlapped := active.filter fun r => r.version.overlaps span
  let before ← headRemnant span overlapped
  let laid ← layOut span.start span.stop replacements
  let after ← tailRemnant span overlapped
  return ⟨overlapped.map Record.id, before ++ laid ++ after⟩

/-- Plans to end the lineage at `stop`: its last record must be open and start before that. -/
def terminate (object : ObjectId) (active : List (Record α)) (stop : Instant) :
    Except Fault (Plan α) := do
  match active.getLast? with
  | none => throw (.notFound (.object object))
  | some latest =>
    if !latest.version.isOpen then
      throw (.invalidInput (.alreadyEnded object latest.version.stop))
    if stop ≤ latest.version.start then
      throw (.invalidInput (.endTooEarly object stop latest.version.start))
    return ⟨[latest.id], [⟨← latest.version.withStop (.finite stop), latest.payload⟩]⟩

/-- The version intervals of the slice that a plan would leave, in ascending order. -/
def result (active : List (Record α)) (plan : Plan α) : List Interval :=
  stableSort Interval.startsBy
    ((active.filter fun r => !plan.closes.contains r.id).map Record.version ++
      plan.inserts.map Pending.version)

/-- Refuses a plan whose result is not a tiling of version time. -/
def check (object : ObjectId) (active : List (Record α)) (plan : Plan α) : Except Fault Unit :=
  match Misfit.first? id (plan.result active) with
  | some (.gap, i, j) => .error (.nonExactRange object (.gap i j))
  | some (.overlap, i, j) => .error (.corruptTimeline object (.plannedOverlap i j))
  | none => .ok ()

end Plan

end Bitemporal
