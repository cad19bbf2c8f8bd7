import Bitemporal.Identity
import Bitemporal.Interval

/-!
Tilings of version time: runs of intervals in which each ends exactly where the next one starts.

`Misfit.first?` looks at neighbours only; it finds nothing exactly when the run is a tiling.
-/

namespace Bitemporal

/-- How two neighbours of a run fail to meet. -/
inductive Misfit where
  /-- The first ends before the second starts. -/
  | gap
  /-- The first ends after the second starts. -/
  | overlap
deriving DecidableEq

namespace Misfit

/-- The word for a misfit. -/
def text : Misfit → String
  | gap => "gap"
  | overlap => "overlap"

/-- How an interval fails to meet its successor, if it does. -/
def between? (i j : Interval) : Option Misfit :=
  if i.stop = .finite j.start then none
  else if i.stop < .finite j.start then some gap
  else some overlap

/-- The first pair of neighbours in a run that do not meet. -/
def first? {ι : Type} (extent : ι → Interval) : List ι → Option (Misfit × ι × ι)
  | a :: b :: rest =>
    match between? (extent a) (extent b) with
    | some misfit => some (misfit, a, b)
    | none => first? extent (b :: rest)
  | _ => none

end Misfit

/-- Whether one interval starts no later than another. -/
def Interval.startsBy (i j : Interval) : Bool := i.start ≤ j.start

/-- An interval as a tiling names it: alone, or as the extent of a record. -/
structure Tile where
  /-- The record whose extent it is, if it is stored already. -/
  record : Option RecordId
  /-- The interval. -/
  extent : Interval
deriving DecidableEq

/-- The name of a tile. -/
def Tile.text (t : Tile) : String :=
  match t.record with
  | some id => id.text ++ " " ++ t.extent.text
  | none => t.extent.text

end Bitemporal
