import Bitemporal.Proofs.Order
import Mathlib.Order.MinMax

/-!
# Intervals as sets of instants

The operations on intervals compare ends.  They mean operations on the instants that the intervals
hold, up to the last instant, which only an open interval holds.

* An interval encloses another one exactly if it holds all of its instants
  (`Interval.encloses_iff_forall_mem`), so it is determined by what it holds
  (`Interval.eq_iff_forall_mem`).
* `Interval.between?_eq_some_iff_forall_mem` describes the interval between two ends by what it
  holds.  The intersection and the clamped interval are both of this kind.
* Two intervals are adjacent exactly if they share no instant and leave none out
  (`Interval.isAdjacentTo_iff_bridges`).

`Interval.operations_exact` collects them.
-/

namespace Bitemporal

/-- A boundary is no later than another one if no instant of an interval that ends there passes
the other. -/
theorem Boundary.le_of_forall_lt {start : Instant} {b c : Boundary} (room : .finite start < b)
    (within : ∀ t, start ≤ t → .finite t < b → .finite t < c) : b ≤ c := by
  by_contra later
  rw [not_le] at later
  cases c with
  | unbounded => exact not_unbounded_lt later
  | finite stop =>
    -- The first instant that `c` leaves out, or the start if that is later.
    have inside : .finite (max start stop) < b := by
      rcases max_choice start stop with same | same
      · rwa [same]
      · rwa [same]
    have early : max start stop < stop := within (max start stop) (le_max_left start stop) inside
    exact absurd early (le_max_right start stop).not_gt

namespace Interval

variable {i j k : Interval} {t start : Instant} {stop : Boundary}

/-! ## Enclosed and equal intervals -/

theorem encloses_iff : i.encloses j = true ↔ i.start ≤ j.start ∧ j.stop ≤ i.stop := by
  simp [encloses]

/-- An interval encloses another one exactly if it holds all of its instants. -/
theorem encloses_iff_forall_mem : i.encloses j = true ↔ ∀ t, t ∈ j → t ∈ i := by
  rw [encloses_iff]
  constructor
  · intro h t inside
    exact ⟨h.1.trans inside.1, inside.2.trans_le h.2⟩
  · intro within
    have starts : i.start ≤ j.start := (within j.start j.start_mem).1
    refine ⟨starts, Boundary.le_of_forall_lt j.start_lt_stop fun t late early => ?_⟩
    exact (within t ⟨late, early⟩).2

/-- An interval is determined by the instants that it holds. -/
theorem eq_iff_forall_mem : i = j ↔ ∀ t, t ∈ i ↔ t ∈ j := by
  constructor
  · rintro rfl t
    exact Iff.rfl
  · intro same
    obtain ⟨early, late⟩ := encloses_iff.mp (encloses_iff_forall_mem.mpr fun t => (same t).mpr)
    obtain ⟨early', late'⟩ := encloses_iff.mp (encloses_iff_forall_mem.mpr fun t => (same t).mp)
    exact Interval.ext (le_antisymm early early') (le_antisymm late' late)

/-! ## The interval between two ends -/

/-- There is no interval between two ends exactly if no instant lies there. -/
theorem between?_eq_none_iff :
    between? start stop = none ↔ ∀ t, ¬ (start ≤ t ∧ .finite t < stop) := by
  unfold between?
  split
  · rename_i room
    exact iff_of_false (Option.some_ne_none _) fun empty => empty start ⟨le_rfl, room⟩
  · rename_i empty
    refine iff_of_true rfl fun t inside => ?_
    exact empty ((Boundary.finite_le_finite.mpr inside.1).trans_lt inside.2)

/-- The interval between two ends is the one that holds the instants there. -/
theorem between?_eq_some_iff_forall_mem :
    between? start stop = some i ↔ ∀ t, t ∈ i ↔ start ≤ t ∧ .finite t < stop := by
  constructor
  · intro made t
    obtain ⟨rfl, rfl⟩ := between?_eq_some_iff.mp made
    exact Iff.rfl
  · intro holds
    cases made : between? start stop with
    | none => exact absurd ((holds i.start).mp i.start_mem) (between?_eq_none_iff.mp made i.start)
    | some j =>
      obtain ⟨rfl, rfl⟩ := between?_eq_some_iff.mp made
      rw [eq_iff_forall_mem.mpr holds]

/-- An interval is made of the instants between its bounds. -/
theorem between_eq_ok_iff_forall_mem :
    between start stop = .ok i ↔ ∀ t, t ∈ i ↔ start ≤ t ∧ .finite t < stop := by
  rw [between_eq_ok_iff, ← between?_eq_some_iff, between?_eq_some_iff_forall_mem]

/-- Clamping an interval leaves out what is before or beyond two ends. -/
theorem clamped_iff {lower : Instant} {upper : Boundary} :
    max i.start lower ≤ t ∧ .finite t < min i.stop upper ↔
      t ∈ i ∧ lower ≤ t ∧ .finite t < upper := by
  rw [max_le_iff, lt_min_iff, mem_iff]
  exact and_and_and_comm

/-- Intervals without a common instant have no intersection. -/
theorem intersection?_eq_none_iff : i.intersection? j = none ↔ ∀ t, ¬ (t ∈ i ∧ t ∈ j) := by
  rw [intersection?, between?_eq_none_iff]
  exact forall_congr' fun t => not_congr clamped_iff

/-- The intersection of two intervals is the interval that holds the instants of both. -/
theorem intersection?_eq_some_iff : i.intersection? j = some k ↔ ∀ t, t ∈ k ↔ t ∈ i ∧ t ∈ j := by
  rw [intersection?, between?_eq_some_iff_forall_mem]
  exact forall_congr' fun t => iff_congr Iff.rfl clamped_iff

/-- Nothing is left of an interval exactly if none of its instants lies between the ends. -/
theorem clamp_eq_error_iff {lower : Instant} {upper : Boundary} {fault : Fault} :
    i.clamp lower upper = .error fault ↔
      (∀ t, ¬ (t ∈ i ∧ lower ≤ t ∧ .finite t < upper)) ∧
        fault = .invalidInterval (max i.start lower) (min i.stop upper) := by
  have nothing : min i.stop upper ≤ .finite (max i.start lower) ↔
      ∀ t, ¬ (t ∈ i ∧ lower ≤ t ∧ .finite t < upper) := by
    constructor
    · intro crossed t inside
      obtain ⟨late, early⟩ := clamped_iff.mpr inside
      exact absurd (early.trans_le crossed) (Boundary.finite_le_finite.mpr late).not_gt
    · intro empty
      by_contra room
      exact empty (max i.start lower) (clamped_iff.mp ⟨le_rfl, not_le.mp room⟩)
  rw [clamp, between_eq_error_iff, nothing]

/-- An interval is clamped to its instants between the bounds. -/
theorem clamp_eq_ok_iff {lower : Instant} {upper : Boundary} :
    i.clamp lower upper = .ok k ↔ ∀ t, t ∈ k ↔ t ∈ i ∧ lower ≤ t ∧ .finite t < upper := by
  rw [clamp, between_eq_ok_iff_forall_mem]
  exact forall_congr' fun t => iff_congr Iff.rfl clamped_iff

/-! ## Adjacent intervals -/

/-- Every instant between one of `i` and one of `j` is in one of the two. -/
def Bridges (i j : Interval) : Prop :=
  ∀ a ∈ i, ∀ b ∈ j, ∀ t, min a b ≤ t → t ≤ max a b → t ∈ i ∨ t ∈ j

theorem Bridges.symm (bridges : i.Bridges j) : j.Bridges i := by
  intro a inLeft b inRight t late early
  rw [min_comm] at late
  rw [max_comm] at early
  exact (bridges b inRight a inLeft t late early).symm

/-- Intervals that meet leave out nothing between them. -/
theorem bridges_of_stop_eq (meets : i.stop = .finite j.start) : i.Bridges j := by
  intro a inLeft b inRight t late early
  have order : a < j.start := Boundary.finite_lt_finite.mp (meets ▸ inLeft.2)
  have order' : a ≤ b := order.le.trans inRight.1
  rw [min_eq_left order'] at late
  rw [max_eq_right order'] at early
  rcases lt_or_ge t j.start with first | second
  · left
    rw [mem_iff, meets]
    exact ⟨inLeft.1.trans late, first⟩
  · right
    exact ⟨second, (Boundary.finite_le_finite.mpr early).trans_lt inRight.2⟩

/-- Of two intervals that leave nothing out between them, the first ends
where the second starts. -/
theorem Before.stop_eq (before : i.Before j) (bridges : i.Bridges j) :
    i.stop = .finite j.start := by
  cases ends : i.stop with
  | unbounded =>
    rw [Before, ends] at before
    exact absurd before Boundary.not_unbounded_le
  | finite stop =>
    have ended : stop ≤ j.start := by
      rw [Before, ends] at before
      exact before
    have nonempty : i.start < stop := Boundary.finite_lt_finite.mp (ends ▸ i.start_lt_stop)
    -- The end of the first interval lies between the two starts, and is not in the first
    -- interval.
    have between : stop ∈ i ∨ stop ∈ j := by
      refine bridges i.start i.start_mem j.start j.start_mem stop ?_ ?_
      · exact (min_le_left i.start j.start).trans nonempty.le
      · exact ended.trans (le_max_right i.start j.start)
    rcases between with inLeft | inRight
    · rw [mem_iff, ends] at inLeft
      exact absurd inLeft.2 (lt_irrefl _)
    · rw [le_antisymm ended inRight.1]

/-- Two intervals are adjacent exactly if they share no instant and leave
none out between them. -/
theorem isAdjacentTo_iff_bridges :
    i.isAdjacentTo j = true ↔ (∀ t, ¬ (t ∈ i ∧ t ∈ j)) ∧ i.Bridges j := by
  have ends : i.isAdjacentTo j = true ↔ i.stop = .finite j.start ∨ j.stop = .finite i.start := by
    simp [isAdjacentTo]
  have apart : (∀ t, ¬ (t ∈ i ∧ t ∈ j)) ↔ i.Before j ∨ j.Before i := by
    rw [← overlaps_eq_false_iff, Bool.eq_false_iff, ne_eq, overlaps_iff_exists_mem, not_exists]
  rw [ends, apart]
  constructor
  · intro adjacent
    rcases adjacent with meets | meets
    · exact ⟨.inl (le_of_eq meets), bridges_of_stop_eq meets⟩
    · exact ⟨.inr (le_of_eq meets), (bridges_of_stop_eq meets).symm⟩
  · rintro ⟨before | after, bridges⟩
    · exact .inl (before.stop_eq bridges)
    · exact .inr (after.stop_eq bridges.symm)

/-! ## All operations -/

/-- The operations on intervals, bounded or open, are the operations on the instants that they
hold: equality, overlap, inclusion, intersection, clamping to two ends in any order, and
adjacency. -/
theorem operations_exact (i j : Interval) :
    (i = j ↔ ∀ t, t ∈ i ↔ t ∈ j) ∧
    (∀ t, i.contains t = true ↔ t ∈ i) ∧
    (i.overlaps j = true ↔ ∃ t, t ∈ i ∧ t ∈ j) ∧
    (i.encloses j = true ↔ ∀ t, t ∈ j → t ∈ i) ∧
    (i.intersection? j = none ↔ ¬ ∃ t, t ∈ i ∧ t ∈ j) ∧
    (∀ k, i.intersection? j = some k ↔ ∀ t, t ∈ k ↔ t ∈ i ∧ t ∈ j) ∧
    (∀ (lower : Instant) (upper : Boundary),
      (∀ fault, i.clamp lower upper = .error fault ↔
        (¬ ∃ t, t ∈ i ∧ lower ≤ t ∧ .finite t < upper) ∧
          fault = .invalidInterval (max i.start lower) (min i.stop upper)) ∧
      ∀ k, i.clamp lower upper = .ok k ↔ ∀ t, t ∈ k ↔ t ∈ i ∧ lower ≤ t ∧ .finite t < upper) ∧
    (i.isAdjacentTo j = true ↔ (¬ ∃ t, t ∈ i ∧ t ∈ j) ∧ i.Bridges j) := by
  refine ⟨eq_iff_forall_mem, fun t => contains_iff, overlaps_iff_exists_mem,
    encloses_iff_forall_mem, ?_, fun k => intersection?_eq_some_iff,
    fun lower upper => ⟨fun fault => ?_, fun k => clamp_eq_ok_iff⟩, ?_⟩
  · rw [not_exists]
    exact intersection?_eq_none_iff
  · rw [not_exists]
    exact clamp_eq_error_iff
  · rw [not_exists]
    exact isAdjacentTo_iff_bridges

/-- The last instant is beyond every end, so just the open interval that starts
there is left over. -/
example : isAdjacentTo ⟨.epoch, .finite .last, by decide⟩ (.openFrom .last) = true := by decide

end Interval

end Bitemporal
