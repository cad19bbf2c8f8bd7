import Bitemporal.Fault

/-!
Replacements: the payloads that an edit lays over version time, in the caller's order.

A list of replacements is accepted only if it describes one contiguous run already; it is never
sorted.
-/

namespace Bitemporal

/-- One payload of an edit with the version time that it asks for. -/
@[ext]
structure Replacement (α : Type) where
  /-- The fact. -/
  payload : α
  /-- Where it starts. -/
  start : Instant
  /-- Where it ends; without an end it runs to the next replacement or to the end
  of the edited range. -/
  stop : Option Instant
deriving DecidableEq

namespace Replacement

variable {α : Type}

/-- The end as a boundary. -/
def boundary (r : Replacement α) : Boundary := .ofInstant? r.stop

/-- What is wrong between a replacement at place `index` and the next one, if anything. -/
def pairDefect? (index : Nat) (r next : Replacement α) : Option Fault :=
  if next.start ≤ r.start then
    some (.nonContiguous (index + 1) (.notAfter next.start r.start))
  else
    match r.stop with
    | some stop =>
      if stop = next.start then none
      else
        some (.nonContiguous index
          (.misfit (if stop < next.start then .gap else .overlap) stop next.start))
    | none => none

/-- The first defect of a list whose head has place `index`: a pair that does not meet, or else a
last replacement that would be empty. -/
def defect? : Nat → List (Replacement α) → Option Fault
  | _, [] => none
  | _, [last] =>
    match last.stop with
    | some stop =>
      if stop ≤ last.start then some (.invalidInterval last.start (.finite stop)) else none
    | none => none
  | index, r :: next :: rest =>
    match pairDefect? index r next with
    | some fault => some fault
    | none => defect? (index + 1) (next :: rest)

/-- Refuses a list that is empty, longer than `limit`, or no contiguous run. -/
def validate (replacements : List (Replacement α)) (limit : Nat) : Except Fault Unit :=
  if replacements.isEmpty then .error (.invalidInput .noReplacements)
  else if replacements.length > limit then
    .error (.invalidInput (.tooManyReplacements replacements.length limit))
  else
    match defect? 0 replacements with
    | some fault => .error fault
    | none => .ok ()

end Replacement

end Bitemporal
