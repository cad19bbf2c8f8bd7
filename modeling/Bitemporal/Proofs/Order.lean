import Bitemporal.Fault
import Mathlib.Order.Defs.LinearOrder
import Mathlib.Tactic.Order

/-!
# The order of instants, boundaries and intervals

Instants and boundaries are linear orders, an open end being the greatest boundary.
`Interval.Before` says that an interval has ended when another starts.  Two intervals share an
instant exactly when neither is before the other, which is what `Interval.overlaps` computes from
the ends.
-/

namespace Bitemporal

/-! ## Linear orders -/

instance : LinearOrder Instant where
  le_refl a := Nat.le_refl a.micros
  le_trans _ _ _ := Nat.le_trans
  lt_iff_le_not_ge _ _ := Nat.lt_iff_le_and_not_ge
  le_antisymm _ _ h h' := Instant.ext (Nat.le_antisymm h h')
  le_total a b := Nat.le_total a.micros b.micros
  toDecidableLE := inferInstance
  min_def _ _ := rfl
  max_def _ _ := rfl
  compare_eq_compareOfLessAndEq a b := by
    have h : compare a b = compare a.micros b.micros := rfl
    rw [h, Nat.compare_eq_ite_lt, compareOfLessAndEq]
    simp only [Instant.lt_iff, Instant.ext_iff]
    split
    · rfl
    · split <;> split <;> first | rfl | omega

theorem Instant.le_last (a : Instant) : a ≤ Instant.last := a.micros_le

namespace Boundary

@[simp]
theorem not_unbounded_le {t : Instant} : ¬ unbounded ≤ finite t := id

instance : LinearOrder Boundary where
  le_refl a := by cases a <;> simp
  le_trans a b c h h' := by
    cases a <;> cases b <;> cases c <;> simp_all
    exact h.trans h'
  lt_iff_le_not_ge a b := by
    cases a <;> cases b <;> simp
    exact le_of_lt
  le_antisymm a b h h' := by
    cases a <;> cases b <;> simp_all
    exact le_antisymm h h'
  le_total a b := by
    cases a <;> cases b <;> simp
    exact le_total _ _
  toDecidableLE := inferInstance
  min_def _ _ := rfl
  max_def _ _ := rfl

theorem eq_unbounded_iff {b : Boundary} : b.isUnbounded = true ↔ b = unbounded := by
  cases b <;> simp [isUnbounded]

end Boundary

/-! ## Intervals -/

namespace Interval

variable {i j k : Interval} {t : Instant}

/-- An interval has ended when another one starts. -/
def Before (i j : Interval) : Prop := i.stop ≤ .finite j.start

@[simp]
theorem contains_iff : i.contains t = true ↔ t ∈ i := decide_eq_true_iff

theorem start_mem (i : Interval) : i.start ∈ i := ⟨le_rfl, i.start_lt_stop⟩

theorem mem_openFrom {start : Instant} : t ∈ openFrom start ↔ start ≤ t :=
  and_iff_left Boundary.finite_lt_unbounded

/-- Intervals overlap if each starts before the other ends. -/
theorem overlaps_iff :
    i.overlaps j = true ↔ .finite i.start < j.stop ∧ .finite j.start < i.stop := by
  simp [overlaps]

theorem overlaps_comm : i.overlaps j = j.overlaps i := by
  rw [Bool.eq_iff_iff, overlaps_iff, overlaps_iff, and_comm]

theorem Before.trans (first : i.Before j) (second : j.Before k) : i.Before k :=
  le_trans (le_trans first j.start_lt_stop.le) second

theorem Before.start_lt (before : i.Before j) : i.start < j.start :=
  i.start_lt_stop.trans_le before

theorem Before.not_overlaps (before : i.Before j) : i.overlaps j = false := by
  rw [Bool.eq_false_iff, ne_eq, overlaps_iff]
  intro h
  rcases h with ⟨-, late⟩
  exact absurd late before.not_gt

/-- Intervals that do not overlap lie one before the other. -/
theorem overlaps_eq_false_iff : i.overlaps j = false ↔ i.Before j ∨ j.Before i := by
  constructor
  · intro apart
    rw [Bool.eq_false_iff, ne_eq, overlaps_iff, not_and_or, not_lt, not_lt] at apart
    exact apart.symm
  · intro h
    rcases h with before | after
    · exact before.not_overlaps
    · rw [overlaps_comm]
      exact after.not_overlaps

/-- Of two intervals that do not overlap, the one that starts first lies before the other. -/
theorem before_of_start_le (apart : i.overlaps j = false) (order : i.start ≤ j.start) :
    i.Before j := by
  rcases overlaps_eq_false_iff.mp apart with before | after
  · exact before
  · exact absurd order after.start_lt.not_ge

/-- An interval before `k` is before whatever overlaps `k` and not the interval itself. -/
theorem Before.before_of_overlaps (before : i.Before k) (shares : j.overlaps k = true)
    (apart : i.overlaps j = false) : i.Before j := by
  rcases overlaps_eq_false_iff.mp apart with first | first
  · exact first
  · have late : Boundary.finite k.start < j.stop := (overlaps_iff.mp shares).2
    exact absurd late (first.trans before).not_gt

/-- What overlaps an interval in front of another, but not that one, lies before it. -/
theorem Before.before_of_overlaps_right (before : k.Before i) (shares : j.overlaps k = true)
    (apart : i.overlaps j = false) : j.Before i := by
  rcases overlaps_eq_false_iff.mp apart with first | first
  · have early : Boundary.finite j.start < k.stop := (overlaps_iff.mp shares).1
    exact absurd early (before.trans first).not_gt
  · exact first

theorem overlaps_of_mem (inLeft : t ∈ i) (inRight : t ∈ j) : i.overlaps j = true :=
  overlaps_iff.mpr
    ⟨lt_of_le_of_lt (b := .finite t) inLeft.1 inRight.2,
      lt_of_le_of_lt (b := .finite t) inRight.1 inLeft.2⟩

/-- Two intervals overlap exactly when they share an instant: the later start, if any. -/
theorem overlaps_iff_exists_mem : i.overlaps j = true ↔ ∃ t, t ∈ i ∧ t ∈ j := by
  constructor
  · intro meets
    rw [overlaps_iff] at meets
    rcases le_total i.start j.start with order | order
    · exact ⟨j.start, ⟨order, meets.2⟩, j.start_mem⟩
    · exact ⟨i.start, i.start_mem, ⟨order, meets.1⟩⟩
  · intro h
    rcases h with ⟨t, inLeft, inRight⟩
    exact overlaps_of_mem inLeft inRight

/-- An interval is made of just its two bounds. -/
theorem between?_eq_some_iff {start : Instant} {stop : Boundary} :
    between? start stop = some i ↔ i.start = start ∧ i.stop = stop := by
  unfold between?
  split
  · rename_i nonempty
    rw [Option.some.injEq, Interval.ext_iff]
    exact ⟨fun h => ⟨h.1.symm, h.2.symm⟩, fun h => ⟨h.1.symm, h.2.symm⟩⟩
  · rename_i empty
    constructor
    · intro impossible
      cases impossible
    · intro h
      rcases h with ⟨rfl, rfl⟩
      exact absurd i.start_lt_stop empty

theorem between_eq_ok_iff {start : Instant} {stop : Boundary} :
    between start stop = .ok i ↔ i.start = start ∧ i.stop = stop := by
  rw [← between?_eq_some_iff]
  unfold between
  cases between? start stop <;> simp

/-- The interval between two ends is refused exactly when it would be empty. -/
theorem between_eq_error_iff {start : Instant} {stop : Boundary} {fault : Fault} :
    between start stop = .error fault ↔
      stop ≤ .finite start ∧ fault = .invalidInterval start stop := by
  unfold between between?
  by_cases nonempty : Boundary.finite start < stop
  · simp [nonempty]
  · simp [nonempty, not_lt.mp nonempty, eq_comm]

end Interval

end Bitemporal
