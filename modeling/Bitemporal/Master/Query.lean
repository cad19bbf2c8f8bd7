import Bitemporal.Coordinate
import Bitemporal.History
import Bitemporal.Master.Basic

/-!
The queries of a master.
-/

namespace Bitemporal.Master

variable {σ α : Type} [DocumentStore σ α]

/-- The record of an object at a coordinate; the latest version is the clock's reading. -/
def lookup (object : ObjectId) (coordinate : Coordinate) : MasterM σ (Record α) := do
  let m ← get
  onStore (DocumentStore.recordAt object (coordinate.version.getD m.now) coordinate.correction)

/-- A record, current or not. -/
def record (id : RecordId) : MasterM σ (Record α) := onStore (DocumentStore.record id)

/-- The records of an object that were believed at a correction instant, or the current ones. -/
def slice (object : ObjectId) (correction : Option Instant) : MasterM σ (List (Record α)) :=
  match correction with
  | some instant => onStore (DocumentStore.sliceAt object instant)
  | none => onStore (DocumentStore.activeSlice object)

/-- One page of the history of an object, newest view first. -/
def history (request : HistoryRequest) : MasterM σ (HistoryPage α) := do
  let m ← get
  let pageSize := request.pageSize.getD m.config.historyPageSize
  if pageSize = 0 then
    throw (.invalidInput .emptyPage)
  let result ← onStore (DocumentStore.history request.object request.versions request.corrections)
  return .cut result request.firstItem pageSize

end Bitemporal.Master
