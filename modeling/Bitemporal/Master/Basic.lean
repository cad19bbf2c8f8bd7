import Bitemporal.Config
import Bitemporal.Coordinator

/-!
Masters: a store with its write coordinator, a reading of the clock and the settings.

Every operation is a program on a master. A master never looks at the time by itself: the reading
`now` stamps corrections and stands for the latest version until `Master.withClock` replaces it.
-/

namespace Bitemporal

/-- A master of documents over a store `σ`. -/
structure Master (σ : Type) where
  /-- The settings. -/
  config : Config
  /-- The clock's reading. -/
  now : Instant
  /-- The store and the coordinator of its writes. -/
  session : Session σ

/-- A program on a master. -/
abbrev MasterM (σ : Type) := Program (Master σ)

namespace Master

variable {σ β : Type}

/-- The master over a store, refused if the settings are bad. -/
def ofStore (store : σ) (now : Instant) (config : Config) : Except Fault (Master σ) := do
  config.validate
  return ⟨config, now, ⟨store, .empty⟩⟩

/-- The store. -/
def store (m : Master σ) : σ := m.session.store

/-- What the counters of the writes say. -/
def metrics (m : Master σ) : Metrics := m.session.coordinator.metrics

/-- The same master at another reading of the clock. -/
def withClock (m : Master σ) (now : Instant) : Master σ := { m with now := now }

/-- Runs a program on the store, without the lock of any object. -/
def onStore (program : Program σ β) : MasterM σ β := fun m =>
  match program m.session.store with
  | .ok b store => .ok b { m with session := { m.session with store := store } }
  | .error fault store => .error fault { m with session := { m.session with store := store } }

/-- Runs a write of an object under the object's lock. -/
def locked (object : ObjectId) (write : Program σ β) : MasterM σ β := fun m =>
  match Session.execute object write m.session with
  | .ok b session => .ok b { m with session := session }
  | .error fault session => .error fault { m with session := session }

end Master

end Bitemporal
