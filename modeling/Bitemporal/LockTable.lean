import Bitemporal.Identity

/-!
The table of write locks: one lock per object, made when the object is first written and kept from
then on.

A handle names the lock of one object. Whoever asks for the lock of an object again gets the same
handle.
-/

namespace Bitemporal

/-- The name of a lock: its place in the table. -/
structure LockHandle where
  /-- The place. -/
  index : Nat
deriving DecidableEq

/-- The locks of all objects that were ever asked for. -/
structure LockTable where
  /-- The objects, in the order in which they were first asked for. -/
  objects : List ObjectId
  /-- The locks that are held. -/
  held : List LockHandle

namespace LockTable

/-- The table without locks. -/
def empty : LockTable := ⟨[], []⟩

/-- How many objects were ever asked for. -/
def size (t : LockTable) : Nat := t.objects.length

/-- Whether no object was asked for yet. -/
def isEmpty (t : LockTable) : Bool := t.objects.isEmpty

/-- The lock of an object, if it was asked for before. -/
def handle? (t : LockTable) (object : ObjectId) : Option LockHandle :=
  (t.objects.findIdx? (· = object)).map LockHandle.mk

/-- The lock of an object, and the table that has it. -/
def lockFor (t : LockTable) (object : ObjectId) : LockHandle × LockTable :=
  match t.handle? object with
  | some handle => (handle, t)
  | none => (⟨t.objects.length⟩, { t with objects := t.objects ++ [object] })

/-- Whether a lock is held. -/
def isHeld (t : LockTable) (handle : LockHandle) : Bool := t.held.contains handle

/-- Takes a lock if it is free; says whether it was. -/
def tryLock (t : LockTable) (handle : LockHandle) : Bool × LockTable :=
  if t.isHeld handle then (false, t) else (true, { t with held := handle :: t.held })

/-- Frees a lock. -/
def release (t : LockTable) (handle : LockHandle) : LockTable :=
  { t with held := t.held.filter (· ≠ handle) }

end LockTable

end Bitemporal
