import Bitemporal.Fault

/-!
Correction batches: what one edit closes and inserts, all at one correction instant.

A batch names only records of its own object, each at most once, by its type.
-/

namespace Bitemporal

/-- A record that waits for its identity. -/
@[ext]
structure Pending (α : Type) where
  /-- When the fact is true. -/
  version : Interval
  /-- The fact. -/
  payload : α
deriving DecidableEq

/-- Closes and inserts that are committed together. -/
structure Batch (α : Type) where
  /-- The object that the batch is for. -/
  object : ObjectId
  /-- The correction instant of every close and insert. -/
  stamp : Instant
  /-- The records to supersede. -/
  closes : List RecordId
  /-- The records to create. -/
  inserts : List (Pending α)
  /-- The batch closes records of its object only. -/
  closes_object : ∀ id ∈ closes, id.object = object
  /-- The batch closes a record once. -/
  closes_nodup : closes.Nodup
deriving DecidableEq

namespace Batch

variable {α : Type}

/-- The batch that does nothing. -/
def empty (object : ObjectId) (stamp : Instant) : Batch α :=
  ⟨object, stamp, [], [], by simp, .nil⟩

/-- The batch that also supersedes a record, which must be of its object. -/
def close (b : Batch α) (id : RecordId) : Except Fault (Batch α) :=
  if own : id.object = b.object then
    if new : id ∈ b.closes then .ok b
    else
      .ok
        { b with
          closes := b.closes ++ [id]
          closes_object := by
            simp only [List.mem_append, List.mem_singleton]
            rintro other (old | rfl)
            · exact b.closes_object other old
            · exact own
          closes_nodup := by
            simp only [List.nodup_append, List.mem_singleton]
            exact ⟨b.closes_nodup, by simp, fun other old => by rintro _ rfl rfl; exact new old⟩ }
  else .error (.invalidInput (.foreignClose id b.object))

/-- The batch that also creates a record. -/
def insert (b : Batch α) (pending : Pending α) : Batch α :=
  { b with inserts := b.inserts ++ [pending] }

/-- The batch that also supersedes some records. -/
def closeAll (b : Batch α) (ids : List RecordId) : Except Fault (Batch α) := ids.foldlM close b

/-- The batch that also creates some records. -/
def insertAll (b : Batch α) (pendings : List (Pending α)) : Batch α :=
  { b with inserts := b.inserts ++ pendings }

/-- Whether the batch only creates records. -/
def isCreation (b : Batch α) : Bool := b.closes.isEmpty

/-- Whether the batch changes nothing. -/
def isEmpty (b : Batch α) : Bool := b.closes.isEmpty && b.inserts.isEmpty

end Batch

end Bitemporal
