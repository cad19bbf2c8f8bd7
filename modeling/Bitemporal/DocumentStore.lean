import Bitemporal.Batch
import Bitemporal.Program
import Bitemporal.Record

/-!
The interface of a document store: reads of one object's records under a correction filter, and
the atomic commit of one batch.

Whoever edits or queries documents knows a store by this interface only, so a store may keep its
records as it likes, and may fail where the store in memory never does.
-/

namespace Bitemporal

/-- What the edits and queries of documents with payloads `α` need from a store `σ`. -/
class DocumentStore (σ : Type) (α : outParam Type) where
  /-- The current records of an object, by the start of their version interval. -/
  activeSlice : ObjectId → Program σ (List (Record α))
  /-- The records of an object that were believed at a correction instant, in the same order. -/
  sliceAt : ObjectId → Instant → Program σ (List (Record α))
  /-- The record of an object that covers a version instant, as believed at a
  correction instant or now. -/
  recordAt : ObjectId → Instant → Option Instant → Program σ (Record α)
  /-- A record, current or not. -/
  record : RecordId → Program σ (Record α)
  /-- The records of an object that overlap both windows, newest view first. -/
  history : ObjectId → Option Interval → Option Interval → Program σ (List (Record α))
  /-- The newest stamp of an object. -/
  latestCorrection : ObjectId → Program σ (Option Instant)
  /-- The stamp for the next batch of an object, given the clock's reading. -/
  nextCorrection : ObjectId → Instant → Program σ Instant
  /-- Applies a batch as a whole, or not at all, and returns the records that it inserts. -/
  commit : Batch α → Program σ (List (Record α))
  /-- Whether an object has records. -/
  contains : ObjectId → Program σ Bool
  /-- How many objects have records. -/
  objectCount : Program σ Nat

end Bitemporal
