import Bitemporal.Proofs.Timeline.Slices
import Mathlib.Data.Prod.Lex

/-!
# Histories

A history lists the records of a timeline that overlap two windows, by their places: later version
starts come first, and of records that start together the one that was recorded last.  No two
records of a timeline have one place (`Timeline.Sound.position_eq_of_place`), since both would be
believed at the start of both.  So a history descends strictly
(`Timeline.Sound.history_descends`), and it shows each record once.
-/

namespace Bitemporal

variable {α : Type}

/-- Where a record stands in a history: by when its version starts, and then by
when it was recorded. -/
def Record.place (r : Record α) : Instant ×ₗ Instant :=
  toLex (r.version.start, r.correction.start)

namespace Timeline

variable {tl : Timeline α} {versions corrections window : Option Interval} {i : Interval}
    {r s : Record α} {p q : Nat}

/-- A history descends by place. -/
theorem historyOrder_iff : historyOrder r s = true ↔ s.place ≤ r.place := by
  rw [Record.place, Record.place, Prod.Lex.toLex_le_toLex]
  simp [historyOrder]

/-- An interval is in a window that shares an instant with it. -/
theorem inWindow_iff : inWindow window i = true ↔ ∀ w, window = some w → ∃ t, t ∈ i ∧ t ∈ w := by
  cases window with
  | none => simp [inWindow]
  | some w => simp [inWindow, Interval.overlaps_iff_exists_mem]

/-- A history is a rearrangement of the records that overlap both windows. -/
theorem history_perm_filter (tl : Timeline α) (versions corrections : Option Interval) :
    (tl.history versions corrections).Perm
      (tl.records.filter fun r => inWindow versions r.version &&
        inWindow corrections r.correction) :=
  stableSort_perm _ _

/-- A history shows the records that share an instant with each window. -/
theorem mem_history_iff :
    r ∈ tl.history versions corrections ↔ r ∈ tl.records ∧
      (∀ w, versions = some w → ∃ t, t ∈ r.version ∧ t ∈ w) ∧
        ∀ w, corrections = some w → ∃ t, t ∈ r.correction ∧ t ∈ w := by
  rw [(tl.history_perm_filter versions corrections).mem_iff, List.mem_filter, Bool.and_eq_true,
    inWindow_iff, inWindow_iff]

theorem history_sorted (tl : Timeline α) (versions corrections : Option Interval) :
    (tl.history versions corrections).Pairwise (fun r s => s.place ≤ r.place) := by
  have total : Std.Total (fun r s : Record α => historyOrder r s = true) :=
    ⟨fun r s => by simpa only [historyOrder_iff] using le_total s.place r.place⟩
  have trans : IsTrans (Record α) (fun r s => historyOrder r s = true) :=
    ⟨fun r s t => by simpa only [historyOrder_iff]
      using fun first second => le_trans second first⟩
  rw [history, stableSort_eq_insertionSort]
  exact (List.pairwise_insertionSort _ _).imp historyOrder_iff.mp

namespace Sound

/-- No two records of a timeline have one place. -/
theorem position_eq_of_place (sound : tl.Sound) (left : tl.records[p]? = some r)
    (right : tl.records[q]? = some s) (same : r.place = s.place) : p = q := by
  obtain ⟨versions, corrections⟩ := Prod.mk.inj (toLex.injective same)
  -- Both are visible where the first one starts on both axes.
  have visible : r.isVisibleAt r.version.start r.correction.start = true := by
    rw [Record.isVisibleAt, Bool.and_eq_true, Interval.contains_iff, Interval.contains_iff]
    exact ⟨r.version.start_mem, r.correction.start_mem⟩
  have visible' : s.isVisibleAt r.version.start r.correction.start = true := by
    rw [versions, corrections, Record.isVisibleAt, Bool.and_eq_true, Interval.contains_iff,
      Interval.contains_iff]
    exact ⟨s.version.start_mem, s.correction.start_mem⟩
  exact sound.position_eq_of_visible left right visible visible'

/-- No two records of a timeline have one place. -/
theorem eq_of_place_eq (sound : tl.Sound) (left : r ∈ tl.records) (right : s ∈ tl.records)
    (same : r.place = s.place) : r = s := by
  obtain ⟨p, left⟩ := List.mem_iff_getElem?.mp left
  obtain ⟨q, right⟩ := List.mem_iff_getElem?.mp right
  rw [sound.position_eq_of_place left right same, right] at left
  exact (Option.some.inj left).symm

theorem history_nodup (sound : tl.Sound) (versions corrections : Option Interval) :
    (tl.history versions corrections).Nodup :=
  (tl.history_perm_filter versions corrections).nodup_iff.mpr (sound.toIndexed.nodup.filter _)

/-- A history descends strictly. -/
theorem history_descends (sound : tl.Sound) (versions corrections : Option Interval) :
    (tl.history versions corrections).Pairwise (fun r s => s.place < r.place) := by
  have distinct := List.nodup_iff_pairwise_ne.mp (sound.history_nodup versions corrections)
  refine ((tl.history_sorted versions corrections).and distinct).imp_of_mem ?_
  rintro r s left right ⟨order, different⟩
  refine lt_of_le_of_ne order fun same => different ?_
  exact sound.eq_of_place_eq (mem_history_iff.mp left).1 (mem_history_iff.mp right).1 same.symm

end Sound

end Timeline

end Bitemporal
