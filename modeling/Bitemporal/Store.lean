import Bitemporal.DocumentStore
import Bitemporal.Timeline

/-!
The document store in memory: one timeline per object, and the number of batches committed.

A batch without closes creates the timeline of an unknown object. A commit that fails counts for
nothing.
-/

namespace Bitemporal

/-- A store of documents in memory. -/
structure Store (α : Type) where
  /-- The timeline of each known object. -/
  timelines : Std.ExtTreeMap ObjectId (Timeline α)
  /-- How many batches were committed. -/
  commitCount : Nat

namespace Store

variable {α : Type}

/-- The store without objects. -/
def empty : Store α := ⟨∅, 0⟩

instance : Inhabited (Store α) := ⟨empty⟩

/-- The timeline of an object, if it is known. -/
def timeline? (s : Store α) (object : ObjectId) : Option (Timeline α) := s.timelines[object]?

/-- The timeline of an object, which must be known. -/
def timeline (s : Store α) (object : ObjectId) : Except Fault (Timeline α) :=
  match s.timeline? object with
  | some tl => .ok tl
  | none => .error (.notFound (.object object))

/-! ## Reads -/

/-- The current records of an object. -/
def activeSlice (s : Store α) (object : ObjectId) : Except Fault (List (Record α)) := do
  (← s.timeline object).activeSlice

/-- The records of an object that were believed at a correction instant. -/
def sliceAt (s : Store α) (object : ObjectId) (correction : Instant) :
    Except Fault (List (Record α)) := do
  (← s.timeline object).sliceAt correction

/-- The record of an object that covers a version instant. -/
def recordAt (s : Store α) (object : ObjectId) (version : Instant) (correction : Option Instant) :
    Except Fault (Record α) := do
  (← s.timeline object).recordAt version correction

/-- A record, current or not. -/
def record (s : Store α) (id : RecordId) : Except Fault (Record α) :=
  match (s.timeline? id.object).bind (·.record? id) with
  | some r => .ok r
  | none => .error (.notFound (.record id))

/-- The records of an object that overlap both windows, newest view first. -/
def history (s : Store α) (object : ObjectId) (versions corrections : Option Interval) :
    Except Fault (List (Record α)) := do
  return (← s.timeline object).history versions corrections

/-- The newest stamp of an object. -/
def latestCorrection (s : Store α) (object : ObjectId) : Option Instant :=
  (s.timeline? object).bind (·.latest)

/-- The stamp for the next batch of an object; an unknown object takes the clock's reading. -/
def nextCorrection (s : Store α) (object : ObjectId) (now : Instant) : Instant :=
  match s.timeline? object with
  | some tl => tl.nextCorrection now
  | none => now

/-- Whether an object has records. -/
def contains (s : Store α) (object : ObjectId) : Bool := (s.timeline? object).isSome

/-- How many objects have records. -/
def objectCount (s : Store α) : Nat := s.timelines.size

/-- How many records there are, superseded ones included. -/
def recordCount (s : Store α) : Nat :=
  s.timelines.toList.foldr (fun entry count => entry.2.size + count) 0

/-- Checks every timeline. -/
def verify (s : Store α) : Except Fault Unit :=
  s.timelines.toList.forM fun entry => entry.2.verify

/-! ## Commits -/

/-- The store with a timeline of an object and one commit more. -/
def committed (s : Store α) (object : ObjectId) (tl : Timeline α) : Store α :=
  ⟨s.timelines.insert object tl, s.commitCount + 1⟩

/-- Applies a batch to the timeline of its object, in place, and returns the records
that it inserts. Only a batch without closes may create a timeline, which is kept only
if the batch is accepted. -/
def commit (b : Batch α) : Program (Store α) (List (Record α)) := fun s =>
  match s.timeline? b.object with
  | some tl =>
    match Timeline.apply b tl with
    | .ok inserted grown => .ok inserted (s.committed b.object grown)
    | .error fault left => .error fault { s with timelines := s.timelines.insert b.object left }
  | none =>
    if b.isCreation then
      match Timeline.apply b (.empty b.object) with
      | .ok inserted grown => .ok inserted (s.committed b.object grown)
      | .error fault _ => .error fault s
    else .error (.conflict b.object .unknownObject) s

instance : DocumentStore (Store α) α where
  activeSlice object := .read (·.activeSlice object)
  sliceAt object correction := .read (·.sliceAt object correction)
  recordAt object version correction := .read (·.recordAt object version correction)
  record id := .read (·.record id)
  history object versions corrections := .read (·.history object versions corrections)
  latestCorrection object := .read fun s => .ok (s.latestCorrection object)
  nextCorrection object now := .read fun s => .ok (s.nextCorrection object now)
  commit b := commit b
  contains object := .read fun s => .ok (s.contains object)
  objectCount := .read fun s => .ok s.objectCount

end Store

end Bitemporal
