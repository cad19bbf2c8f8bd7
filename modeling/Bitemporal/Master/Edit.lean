import Bitemporal.Master.Basic
import Bitemporal.Plan
import Bitemporal.Timeline

/-!
The edits of a master.

Each edit reads the current slice, plans on it, checks the plan, stamps it and commits it, all
under the object's lock. What a request alone gets wrong is found before the lock is taken. After
the commit the slice is read again and checked if the settings say so; a fault found then does not
undo the commit.
-/

namespace Bitemporal.Master

variable {σ α : Type} [DocumentStore σ α]

/-- Checks, stamps and commits a plan made on the slice `active`, and returns the
records that it inserts. -/
def commitPlan (m : Master σ) (object : ObjectId) (active : List (Record α)) (plan : Plan α) :
    Program σ (List (Record α)) := do
  Program.ofExcept (plan.check object active)
  let stamp ← DocumentStore.nextCorrection object m.now
  let batch ← Program.ofExcept (plan.toBatch object stamp)
  let inserted ← DocumentStore.commit batch
  if m.config.verifyCommits then
    let after ← DocumentStore.activeSlice object
    Program.ofExcept (checkPartition object after)
  return inserted

/-- The last record that an edit inserted. -/
def lastInserted (object : ObjectId) (edit : String) (inserted : List (Record α)) :
    Except Fault (Record α) :=
  match inserted.getLast? with
  | some r => .ok r
  | none => .error (.corruptTimeline object (.insertedNothing edit))

/-- Creates the first record of a lineage, which must not exist. -/
def create (object : ObjectId) (payload : α) (version : Interval) : MasterM σ (Record α) := do
  let m ← get
  locked object do
    if ← DocumentStore.contains object then
      throw (.invalidInput (.alreadyExists object))
    let inserted ← commitPlan m object [] ⟨[], [⟨version, payload⟩]⟩
    Program.ofExcept (lastInserted object "creation" inserted)

/-- Creates a lineage under an identity made of a random value. -/
def add (drawn : Uuid) (payload : α) (start : Instant) (stop : Option Instant) :
    MasterM σ (Record α) := do
  let m ← get
  let version ← Program.ofExcept (Interval.between start (.ofInstant? stop))
  create (.generate m.config.scheme drawn) payload version

/-- Creates a lineage under a given identity, whose text must be readable. -/
def addWithId (object : ObjectId) (payload : α) (version : Interval) : MasterM σ (Record α) := do
  Program.ofExcept object.validate
  create object payload version

/-- Replaces the records that exactly cover a target. -/
def replaceVersions (object : ObjectId) (target : Interval)
    (replacements : List (Replacement α)) :
    MasterM σ (List (Record α)) := do
  let m ← get
  Program.ofExcept (Replacement.validate replacements m.config.maxReplacements)
  locked object do
    let active ← DocumentStore.activeSlice object
    let plan ← Program.ofExcept (Plan.exactReplace object active target replacements)
    commitPlan m object active plan

/-- Replaces one current record by replacements that cover its version interval. -/
def replaceVersion (id : RecordId) (replacements : List (Replacement α)) :
    MasterM σ (List (Record α)) := do
  let m ← get
  Program.ofExcept (Replacement.validate replacements m.config.maxReplacements)
  locked id.object do
    let record ← DocumentStore.record id
    let plan ← Program.ofExcept (Plan.singleReplace record replacements)
    let active ← DocumentStore.activeSlice id.object
    commitPlan m id.object active plan

/-- Lays replacements over the span that they cover. -/
def splice (object : ObjectId) (replacements : List (Replacement α)) :
    MasterM σ (List (Record α)) := do
  let m ← get
  Program.ofExcept (Replacement.validate replacements m.config.maxReplacements)
  locked object do
    let active ← DocumentStore.activeSlice object
    let plan ← Program.ofExcept (Plan.splice active replacements)
    commitPlan m object active plan

/-- The record that an update from `start` on inserted. -/
def updated (object : ObjectId) (start : Instant) (inserted : List (Record α)) :
    Except Fault (Record α) :=
  match inserted.find? (fun r => r.version.start = start) with
  | some r => .ok r
  | none => .error (.corruptTimeline object (.insertedNothing "update"))

/-- Refuses an update that does not start after the last version. -/
def checkUpdate (object : ObjectId) (start : Instant) (active : List (Record α)) :
    Except Fault Unit :=
  match active.getLast? with
  | none => .error (.notFound (.object object))
  | some latest =>
    if start ≤ latest.version.start then
      .error (.invalidInput (.updateTooEarly object start latest.version.start))
    else .ok ()

/-- Makes a new version from `start` on, or from now on, which must be after the
last version's start. -/
def update (object : ObjectId) (payload : α) (start : Option Instant) : MasterM σ (Record α) := do
  let m ← get
  locked object do
    let active ← DocumentStore.activeSlice object
    Program.ofExcept (checkUpdate object (start.getD m.now) active)
    let plan ← Program.ofExcept (Plan.splice active [⟨payload, start.getD m.now, none⟩])
    let inserted ← commitPlan m object active plan
    Program.ofExcept (updated object (start.getD m.now) inserted)

/-- Replaces the payload of one current record. -/
def correct (id : RecordId) (payload : α) : MasterM σ (Record α) := do
  let m ← get
  locked id.object do
    let record ← DocumentStore.record id
    let plan ← Program.ofExcept
      (Plan.singleReplace record [⟨payload, record.version.start, none⟩])
    let active ← DocumentStore.activeSlice id.object
    let inserted ← commitPlan m id.object active plan
    Program.ofExcept (lastInserted id.object "correction" inserted)

/-- Ends a lineage at `stop`, or now. -/
def remove (object : ObjectId) (stop : Option Instant) : MasterM σ (Record α) := do
  let m ← get
  locked object do
    let active ← DocumentStore.activeSlice object
    let plan ← Program.ofExcept (Plan.terminate object active (stop.getD m.now))
    let inserted ← commitPlan m object active plan
    Program.ofExcept (lastInserted object "termination" inserted)

end Bitemporal.Master
