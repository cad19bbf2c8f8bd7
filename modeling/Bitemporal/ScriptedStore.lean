import Bitemporal.Coordinate
import Bitemporal.DocumentStore

/-!
A store that answers from a script and keeps the batches it is given.

It stands in for a store that fails, changes between two reads, or answers something that no sound
store would, so that the edits and queries can be tried against it.
-/

namespace Bitemporal

/-- A store that answers what it is told to. -/
structure ScriptedStore (α : Type) where
  /-- The answers to reads of the current records, one after the other; the last one repeats. -/
  activeSlices : List (Except Fault (List (Record α)))
  /-- Whether every object is known. -/
  knowsAll : Bool
  /-- The answer to a read of a record. -/
  record : Option (Record α)
  /-- The answer to every other read of several records. -/
  history : List (Record α)
  /-- The stamp for the next batch, if it is not the clock's reading. -/
  nextStamp : Option Instant
  /-- The answer to a commit. -/
  inserted : Except Fault (List (Record α))
  /-- The batches given to commit, in order. -/
  batches : List (Batch α)

namespace ScriptedStore

variable {α : Type}

/-- Answers a read of the current records, and moves on to the next answer unless
this is the last one. -/
def nextActiveSlice : Program (ScriptedStore α) (List (Record α)) := fun s =>
  match s.activeSlices with
  | [] => .ok [] s
  | answer :: rest =>
    let moved := if rest.isEmpty then s else { s with activeSlices := rest }
    match answer with
    | .ok records => .ok records moved
    | .error fault => .error fault moved

instance : DocumentStore (ScriptedStore α) α where
  activeSlice _ := nextActiveSlice
  sliceAt _ _ := .read fun s => .ok s.history
  recordAt _ version correction :=
    throw (.notFound (.other (Coordinate.text ⟨some version, correction⟩)))
  record id := .read fun s =>
    match s.record with
    | some r => .ok r
    | none => .error (.notFound (.record id))
  history _ _ _ := .read fun s => .ok s.history
  latestCorrection _ := pure none
  nextCorrection _ now := .read fun s => .ok (s.nextStamp.getD now)
  commit b s :=
    let kept := { s with batches := s.batches ++ [b] }
    match s.inserted with
    | .ok records => .ok records kept
    | .error fault => .error fault kept
  contains _ := .read fun s => .ok s.knowsAll
  objectCount := pure 0

end ScriptedStore

end Bitemporal
