import Bitemporal.DocumentStore
import Bitemporal.LockTable

/-!
The coordinator of writes: it holds the object's lock while a write runs and counts how writes
end.

`Coordinator.enter` and `Coordinator.leave` bracket every write, however it ends. `Call.run`
follows a whole tree of nested writes with the three ways in which a write may end; it has no
result when a write waits for a lock that the same thread holds, for such a write never ends.
-/

namespace Bitemporal

/-- The locks and counters of all writes. -/
structure Coordinator where
  /-- The locks. -/
  locks : LockTable
  /-- Writes in progress. -/
  active : Nat
  /-- Writes started. -/
  started : Nat
  /-- Writes that succeeded. -/
  committed : Nat
  /-- Writes that failed. -/
  aborted : Nat

/-- What the counters say at one moment. -/
structure Metrics where
  /-- Writes in progress. -/
  active : Nat
  /-- Writes started. -/
  started : Nat
  /-- Writes that succeeded. -/
  committed : Nat
  /-- Writes that failed. -/
  aborted : Nat
deriving DecidableEq

namespace Metrics

/-- A share of writes as a binary64 quotient; of no writes it is zero. -/
def rate (part whole : Nat) : Float :=
  if whole = 0 then 0 else Float.ofNat part / Float.ofNat whole

/-- Writes that ended. -/
def completed (m : Metrics) : Nat := m.committed + m.aborted

/-- The share of started writes that succeeded. -/
def commitRate (m : Metrics) : Float := rate m.committed m.started

/-- The share of started writes that failed. -/
def abortRate (m : Metrics) : Float := rate m.aborted m.started

end Metrics

namespace Coordinator

/-- The coordinator before the first write. -/
def empty : Coordinator := ⟨.empty, 0, 0, 0, 0⟩

/-- What the counters say. -/
def metrics (c : Coordinator) : Metrics := ⟨c.active, c.started, c.committed, c.aborted⟩

/-- How many objects were ever written. -/
def lockedObjects (c : Coordinator) : Nat := c.locks.size

/-- Whether a write of the object is in progress. -/
def isHeld (c : Coordinator) (object : ObjectId) : Bool :=
  match c.locks.handle? object with
  | some handle => c.locks.isHeld handle
  | none => false

/-- Starts a write of an object, whose lock is free: takes the lock and counts the write. -/
def enter (c : Coordinator) (object : ObjectId) : Coordinator :=
  let (handle, locks) := c.locks.lockFor object
  { c with
    locks := (locks.tryLock handle).2
    active := c.active + 1
    started := c.started + 1 }

/-- Ends a write of an object: counts how it ended and frees the lock. -/
def leave (c : Coordinator) (object : ObjectId) (succeeded : Bool) : Coordinator :=
  let (handle, locks) := c.locks.lockFor object
  { c with
    locks := locks.release handle
    active := c.active - 1
    committed := if succeeded then c.committed + 1 else c.committed
    aborted := if succeeded then c.aborted else c.aborted + 1 }

end Coordinator

/-! ## Trees of nested writes -/

/-- How a write ends. -/
inductive Outcome (β : Type) where
  /-- It returns a value. -/
  | returned (value : β)
  /-- It fails. -/
  | failed (fault : Fault)
  /-- It is abandoned on the way. -/
  | panicked
deriving DecidableEq

/-- Whether the write succeeded. -/
def Outcome.isReturned {β : Type} : Outcome β → Bool
  | returned _ => true
  | _ => false

/-- What a thread does with a coordinator. -/
inductive Call where
  /-- It reads the counters. -/
  | metrics
  /-- It writes an object. The write makes the calls of `body` and then ends as told. If a panic
  of the write is not `caught`, the calls around it are abandoned too. -/
  | execute (object : ObjectId) (caught : Bool) (body : List Call) (ending : Outcome Nat)

/-- What a call shows. -/
inductive Reply where
  /-- What the counters say, and how many objects were ever written. -/
  | metrics (counters : Metrics) (lockedObjects : Nat)
  /-- How the write ended, and what its calls showed. -/
  | executed (outcome : Outcome Nat) (body : List Reply)

/-- What a run of calls shows, whether a panic ended it, and the coordinator after it. -/
structure CallRun where
  /-- What each call showed, up to the one that panicked. -/
  replies : List Reply
  /-- Whether a panic abandoned the run. -/
  panicked : Bool
  /-- The coordinator after the run. -/
  coordinator : Coordinator

mutual

/-- Follows one call: what it shows, whether it abandons the calls around it, and the coordinator
after it. There is no result if a write waits for a lock that is held. -/
def Call.run (c : Coordinator) : Call → Option (Reply × Bool × Coordinator)
  | .metrics => some (.metrics c.metrics c.lockedObjects, false, c)
  | .execute object caught body ending =>
    if c.isHeld object then none
    else
      match Call.runAll (c.enter object) body with
      | some inner =>
        let outcome := if inner.panicked then .panicked else ending
        some
          (.executed outcome inner.replies, !caught && outcome = .panicked,
            inner.coordinator.leave object outcome.isReturned)
      | none => none

/-- Follows calls one after the other until a panic abandons them. -/
def Call.runAll (c : Coordinator) : List Call → Option CallRun
  | [] => some ⟨[], false, c⟩
  | call :: rest =>
    match Call.run c call with
    | some (reply, true, c) => some ⟨[reply], true, c⟩
    | some (reply, false, c) =>
      match Call.runAll c rest with
      | some later => some { later with replies := reply :: later.replies }
      | none => none
    | none => none

end

/-! ## Writes to a store -/

/-- A store together with the coordinator of the writes to it. -/
structure Session (σ : Type) where
  /-- The store. -/
  store : σ
  /-- The coordinator. -/
  coordinator : Coordinator

/-- Runs a write of an object under the object's lock. A write that fails counts as aborted; its
fault is passed on, and so is the store as the write left it. -/
def Session.execute {σ β : Type} (object : ObjectId) (write : Program σ β) :
    Program (Session σ) β := fun s =>
  match write s.store with
  | .ok b store => .ok b ⟨store, (s.coordinator.enter object).leave object true⟩
  | .error fault store => .error fault ⟨store, (s.coordinator.enter object).leave object false⟩

end Bitemporal
