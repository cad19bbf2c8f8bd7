import Bitemporal.Master.Edit
import Bitemporal.Master.Query
import Bitemporal.Proofs.Program
import Bitemporal.Store

/-!
# Requests and sessions

An `Edit` or a `Query` is an operation of a master with its arguments, and a `Request` is either.
`Master.after` and `Master.answers` follow a master through a script: a list of requests, each
made at a reading of the clock of its own.  Readings may come in any order.

A master may also read the clock twice for one request, for a default start and for the stamp.
What it becomes then it becomes by a script as well, with the default starts in place
(`Master.afterAcross_eq`).
-/

namespace Bitemporal

variable {σ α : Type}

/-! ## Requests -/

/-- An edit with its arguments. -/
inductive Edit (α : Type) where
  | add (drawn : Uuid) (payload : α) (start : Instant) (stop : Option Instant)
  | addWithId (object : ObjectId) (payload : α) (version : Interval)
  | replaceVersions (object : ObjectId) (target : Interval) (replacements : List (Replacement α))
  | replaceVersion (id : RecordId) (replacements : List (Replacement α))
  | splice (object : ObjectId) (replacements : List (Replacement α))
  | update (object : ObjectId) (payload : α) (start : Option Instant)
  | correct (id : RecordId) (payload : α)
  | remove (object : ObjectId) (stop : Option Instant)

/-- A query with its arguments. -/
inductive Query where
  | lookup (object : ObjectId) (coordinate : Coordinate)
  | record (id : RecordId)
  | slice (object : ObjectId) (correction : Option Instant)
  | history (request : HistoryRequest)

/-- An edit or a query. -/
inductive Request (α : Type) where
  | edit (e : Edit α)
  | query (q : Query)

/-- What a request returns. -/
inductive Answer (α : Type) where
  | records (records : List (Record α))
  | page (page : HistoryPage α)

/-- The object that an edit is for. -/
def Edit.object (config : Config) : Edit α → ObjectId
  | add drawn .. => .generate config.scheme drawn
  | addWithId object .. | replaceVersions object .. | splice object .. | update object .. |
  remove object .. => object
  | replaceVersion id _ | correct id _ => id.object

/-- The object that a query is for. -/
def Query.object : Query → ObjectId
  | lookup object _ | slice object _ => object
  | record id => id.object
  | history request => request.object

/-- The object that a request is for. -/
def Request.object (config : Config) : Request α → ObjectId
  | edit e => e.object config
  | query q => q.object

section

variable [DocumentStore σ α]

/-- Makes an edit, which shows the records that it returns. -/
def Edit.run : Edit α → MasterM σ (List (Record α))
  | add drawn payload start stop => return [← Master.add drawn payload start stop]
  | addWithId object payload version => return [← Master.addWithId object payload version]
  | replaceVersions object target replacements =>
    Master.replaceVersions object target replacements
  | replaceVersion id replacements => Master.replaceVersion id replacements
  | splice object replacements => Master.splice object replacements
  | update object payload start => return [← Master.update object payload start]
  | correct id payload => return [← Master.correct id payload]
  | remove object stop => return [← Master.remove object stop]

/-- Makes a query. -/
def Query.run : Query → MasterM σ (Answer α)
  | lookup object coordinate => return .records [← Master.lookup object coordinate]
  | record id => return .records [← Master.record id]
  | slice object correction => return .records (← Master.slice object correction)
  | history request => return .page (← Master.history request)

/-- Makes a request. -/
def Request.run : Request α → MasterM σ (Answer α)
  | edit e => return .records (← e.run)
  | query q => q.run

end

/-! ## Sessions -/

namespace Master

/-- A master over the empty store. -/
def opened (config : Config) (now : Instant) : Master (Store α) := ⟨config, now, ⟨.empty, .empty⟩⟩

/-- `Master.ofStore` opens this master, if the settings are good. -/
theorem ofStore_empty {config : Config} (valid : config.validate = .ok ()) (now : Instant) :
    ofStore (Store.empty : Store α) now config = .ok (opened config now) := by
  rw [ofStore, valid]
  rfl

/-- The master after requests, each at its own reading of the clock and whether it is
answered or refused. -/
def after (m : Master (Store α)) (script : List (Instant × Request α)) : Master (Store α) :=
  script.foldl (fun m entry => Program.final entry.2.run (m.withClock entry.1)) m

/-- What requests are answered or refused with, one after the other. -/
def answers (m : Master (Store α)) : List (Instant × Request α) → List (Except Fault (Answer α))
  | [] => []
  | (now, request) :: rest =>
    Program.outcome request.run (m.withClock now) :: answers
      (Program.final request.run (m.withClock now)) rest

end Master

/-! ## Clocks that move within a request -/

/-- The edit whose default start was read from the clock at `read`. -/
def Edit.startingAt (read : Instant) : Edit α → Edit α
  | update object payload start => update object payload (some (start.getD read))
  | remove object stop => remove object (some (stop.getD read))
  | e => e

/-- The request whose default start was read from the clock at `read`. -/
def Request.startingAt (read : Instant) : Request α → Request α
  | edit e => edit (e.startingAt read)
  | query q => query q

/-- Makes a request while the clock moves on to `later`: only a default start is read before. -/
def Request.runAcross [DocumentStore σ α] (later : Instant) (request : Request α) :
    MasterM σ (Answer α) := do
  let m ← get
  set (m.withClock later)
  (request.startingAt m.now).run

namespace Master

/-- The master after requests, each made while the clock moves from one reading to another. -/
def afterAcross (m : Master (Store α)) (script : List (Instant × Instant × Request α)) :
    Master (Store α) :=
  script.foldl
    (fun m entry => Program.final (entry.2.2.runAcross entry.2.1) (m.withClock entry.1)) m

section

variable [DocumentStore σ α] (m : Master σ)

/-- The default start of an edit is what the clock reads. -/
theorem run_startingAt (request : Request α) :
    (request.startingAt m.now).run.run m = request.run.run m := by
  cases request with
  | query q => rfl
  | edit e => cases e <;> rfl

/-- A request across two readings is the request with its default start in
place, at the later one. -/
theorem run_runAcross (later : Instant) (request : Request α) :
    (request.runAcross later).run m = (request.startingAt m.now).run.run (m.withClock later) :=
  rfl

/-- A clock that stands still is read as often as one likes. -/
theorem run_runAcross_now (request : Request α) :
    (request.runAcross m.now).run m = request.run.run m :=
  (run_runAcross m m.now request).trans (run_startingAt m request)

end

/-- Whatever the clock does within requests: the master becomes what it becomes by the requests
with their default starts in place, each at its later reading. -/
theorem afterAcross_eq (m : Master (Store α)) (script : List (Instant × Instant × Request α)) :
    m.afterAcross script =
      m.after (script.map fun entry => (entry.2.1, entry.2.2.startingAt entry.1)) := by
  induction script generalizing m with
  | nil => rfl
  | cons entry rest ih => exact ih _

end Master

end Bitemporal
