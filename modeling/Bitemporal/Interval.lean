import Bitemporal.DateTime
import Bitemporal.Duration

/-!
Half-open intervals of instants.

An interval runs from its first instant up to, and without, its boundary, which may be missing: an
open end lies after every instant. No interval is empty, by its type. Every operation is a
comparison of ends; membership `t ∈ i` is what they mean.
-/

namespace Bitemporal

/-- The upper end of an interval. -/
inductive Boundary where
  /-- The interval ends before this instant. -/
  | finite (instant : Instant)
  /-- The interval never ends. -/
  | unbounded
deriving DecidableEq

namespace Boundary

/-- An open end is the greatest boundary. -/
protected def le : Boundary → Boundary → Prop
  | finite a, finite b => a ≤ b
  | _, unbounded => True
  | unbounded, finite _ => False

/-- An open end is the greatest boundary. -/
protected def lt : Boundary → Boundary → Prop
  | finite a, finite b => a < b
  | finite _, unbounded => True
  | unbounded, _ => False

instance : LE Boundary := ⟨Boundary.le⟩

instance : LT Boundary := ⟨Boundary.lt⟩

instance : (a b : Boundary) → Decidable (a ≤ b)
  | finite a, finite b => inferInstanceAs (Decidable (a ≤ b))
  | finite _, unbounded => isTrue trivial
  | unbounded, unbounded => isTrue trivial
  | unbounded, finite _ => isFalse id

instance : (a b : Boundary) → Decidable (a < b)
  | finite a, finite b => inferInstanceAs (Decidable (a < b))
  | finite _, unbounded => isTrue trivial
  | unbounded, _ => isFalse id

instance : Max Boundary := maxOfLe

instance : Min Boundary := minOfLe

/-- How two boundaries compare. -/
def order (a b : Boundary) : Ordering :=
  if a < b then .lt else if a = b then .eq else .gt

@[simp]
theorem finite_le_finite {a b : Instant} : finite a ≤ finite b ↔ a ≤ b := Iff.rfl

@[simp]
theorem finite_lt_finite {a b : Instant} : finite a < finite b ↔ a < b := Iff.rfl

@[simp]
theorem finite_lt_unbounded {a : Instant} : finite a < unbounded := trivial

@[simp]
theorem not_unbounded_lt {b : Boundary} : ¬ unbounded < b := id

@[simp]
theorem le_unbounded {a : Boundary} : a ≤ unbounded := by cases a <;> trivial

/-- No instant means an open end. -/
def ofInstant? : Option Instant → Boundary
  | some t => finite t
  | none => unbounded

/-- The instant of a finite boundary. -/
def instant? : Boundary → Option Instant
  | finite t => some t
  | unbounded => none

/-- Whether the boundary is the open end. -/
def isUnbounded : Boundary → Bool
  | finite _ => false
  | unbounded => true

/-- The text of a boundary. -/
def text : Boundary → String
  | finite t => t.text
  | unbounded => "unbounded"

end Boundary

/-- The instants from `start` up to, and without, `stop`. -/
@[ext]
structure Interval where
  /-- The first instant. -/
  start : Instant
  /-- The end, which is not part of the interval. -/
  stop : Boundary
  /-- The interval holds its first instant. -/
  start_lt_stop : Boundary.finite start < stop
deriving DecidableEq

namespace Interval

/-- The interval between two ends, if it is not empty. -/
def between? (start : Instant) (stop : Boundary) : Option Interval :=
  if h : .finite start < stop then some ⟨start, stop, h⟩ else none

/-- The interval from `start` on. -/
def openFrom (start : Instant) : Interval := ⟨start, .unbounded, trivial⟩

instance : Membership Instant Interval := ⟨fun i t => i.start ≤ t ∧ .finite t < i.stop⟩

theorem mem_iff {t : Instant} {i : Interval} : t ∈ i ↔ i.start ≤ t ∧ .finite t < i.stop := Iff.rfl

instance (t : Instant) (i : Interval) : Decidable (t ∈ i) :=
  inferInstanceAs (Decidable (_ ∧ _))

/-- Whether the interval holds `t`. -/
def contains (i : Interval) (t : Instant) : Bool := decide (t ∈ i)

/-- Whether the interval never ends. -/
def isOpen (i : Interval) : Bool := i.stop.isUnbounded

/-- The length of an interval that ends. -/
def length? (i : Interval) : Option Duration := i.stop.instant?.bind (·.since? i.start)

/-- Whether two intervals share an instant. -/
def overlaps (i j : Interval) : Bool := .finite i.start < j.stop && .finite j.start < i.stop

/-- Whether one interval ends where the other starts. -/
def isAdjacentTo (i j : Interval) : Bool := i.stop = .finite j.start || j.stop = .finite i.start

/-- Whether `j` lies within `i`. -/
def encloses (i j : Interval) : Bool := i.start ≤ j.start && j.stop ≤ i.stop

/-- What two intervals share. -/
def intersection? (i j : Interval) : Option Interval :=
  between? (max i.start j.start) (min i.stop j.stop)

/-- The text of the interval between two ends, whether it is empty or not. -/
def boundsText (start : Instant) (stop : Boundary) : String :=
  "[" ++ start.text ++ ", " ++ stop.text ++ ")"

/-- The text of an interval. -/
def text (i : Interval) : String := boundsText i.start i.stop

end Interval

end Bitemporal
