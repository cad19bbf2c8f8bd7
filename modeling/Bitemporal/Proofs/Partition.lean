import Bitemporal.Proofs.Exchange

/-!
# Neighbours decide partitions

The check of a slice compares each record with its successor, so it decides whether the slice is a
tiling.  Its callers rely on more: that the slice partitions time (`Partitions`), which speaks of
all pairs of records and of all instants.  The two are the same (`partitions_iff_isTiling`).  A
tiling is a partition since each interval is before all later ones and covers what lies between.
In a partition that ascends, the end of an interval that did not meet its successor would be
covered by no interval at all.

`checkPartition_decides` states this for slices of any length and in any order.
-/

namespace Bitemporal

variable {α : Type} {run : List Interval} {i j : Interval} {t : Instant}

/-- A run of intervals partitions time: the starts ascend strictly, no two intervals share
an instant, and each instant from the first start up to the last end is in exactly one
interval of the run. -/
structure Partitions (run : List Interval) : Prop where
  ascends : run.Pairwise (fun i j => i.start < j.start)
  disjoint : run.Pairwise (fun i j => ∀ t, ¬ (t ∈ i ∧ t ∈ j))
  covers_once : ∀ first ∈ run.head?,
    ∀ last ∈ run.getLast?, ∀ t, first.start ≤ t → .finite t < last.stop →
    run.countP (·.contains t) = 1

theorem Interval.Before.disjoint (before : i.Before j) (t : Instant) : ¬ (t ∈ i ∧ t ∈ j) := by
  rintro ⟨inLeft, inRight⟩
  have apart : i.overlaps j = false := before.not_overlaps
  rw [Interval.overlaps_of_mem inLeft inRight] at apart
  cases apart

/-- Intervals that share no instant cover an instant at most once. -/
theorem countP_contains_of_covers (disjoint : run.Pairwise (fun i j => ∀ t, ¬ (t ∈ i ∧ t ∈ j)))
    (covered : Covers run t) : run.countP (·.contains t) = 1 := by
  obtain ⟨i, member, holds⟩ := covered
  obtain ⟨before, after, rfl⟩ := List.append_of_mem member
  obtain ⟨-, others, earlier⟩ := List.pairwise_append.mp disjoint
  have none_before : before.countP (·.contains t) = 0 := by
    refine List.countP_eq_zero.mpr fun j listed => ?_
    rw [Interval.contains_iff]
    exact fun shared => earlier j listed i List.mem_cons_self t ⟨shared, holds⟩
  have none_after : after.countP (·.contains t) = 0 := by
    refine List.countP_eq_zero.mpr fun j listed => ?_
    rw [Interval.contains_iff]
    exact fun shared => List.rel_of_pairwise_cons others listed t ⟨holds, shared⟩
  rw [List.countP_append, List.countP_cons, if_pos (Interval.contains_iff.mpr holds), none_before,
    none_after]

/-! ## Tilings are partitions -/

/-- A tiling is a partition of what it spans. -/
theorem IsTiling.partitions (tiling : IsTiling run) : Partitions run where
  ascends := tiling.starts_ascend
  disjoint := tiling.pairwise.imp Interval.Before.disjoint
  covers_once := by
    intro first begins last ends t late early
    have nonempty : run ≠ [] := by
      rintro rfl
      cases begins
    obtain ⟨start, stop, spans⟩ := tiling.exists_spans nonempty
    obtain ⟨i, rest, rfl, starts⟩ := spans.exists_cons
    obtain ⟨j, final, stops⟩ := spans.exists_getLast
    cases begins
    cases final.symm.trans ends
    refine countP_contains_of_covers (tiling.pairwise.imp Interval.Before.disjoint) ?_
    exact spans.covers_iff.mpr ⟨starts ▸ late, stops ▸ early⟩

/-! ## Partitions are tilings -/

namespace Partitions

variable {rest : List Interval}

theorem before (partitions : Partitions run) : run.Pairwise Interval.Before := by
  refine partitions.ascends.imp₂ (fun i j early apart => ?_) partitions.disjoint
  refine Interval.before_of_start_le ?_ early.le
  rw [Bool.eq_false_iff, ne_eq, Interval.overlaps_iff_exists_mem]
  exact fun ⟨t, shared⟩ => apart t shared

/-- Neighbours meet at the head of a partition: the end of the first interval lies before the last
end, and no other interval than the second can hold it. -/
theorem meets (partitions : Partitions (i :: j :: rest)) : i.Meets j := by
  have ordered := partitions.before
  have first : i.Before j := List.rel_of_pairwise_cons ordered List.mem_cons_self
  obtain ⟨last, final⟩ : ∃ last, (j :: rest).getLast? = some last := ⟨_, List.getLast?_cons⟩
  have listed : last ∈ j :: rest := List.mem_of_getLast? final
  have beyond : i.Before last := List.rel_of_pairwise_cons ordered listed
  by_contra apart
  have gap : i.stop < .finite j.start := lt_of_le_of_ne first apart
  cases ends : i.stop with
  | unbounded =>
    rw [ends] at gap
    exact Boundary.not_unbounded_lt gap
  | finite stop =>
    rw [ends] at gap
    have late : i.start ≤ stop := (Boundary.finite_lt_finite.mp (ends ▸ i.start_lt_stop)).le
    have early : Boundary.finite stop < last.stop := by
      rw [Interval.Before, ends] at beyond
      exact beyond.trans_lt last.start_lt_stop
    have once := partitions.covers_once i rfl last
      (by rw [List.getLast?_cons, final]; rfl) stop late early
    have never : (i :: j :: rest).countP (·.contains stop) = 0 := by
      refine List.countP_eq_zero.mpr fun k listed => ?_
      rw [Interval.contains_iff, Interval.mem_iff]
      rintro ⟨starts, holds⟩
      rcases List.mem_cons.mp listed with rfl | later
      · rw [ends] at holds
        exact lt_irrefl _ holds
      · have order : j.start ≤ k.start := by
          rcases List.mem_cons.mp later with rfl | later
          · exact le_rfl
          · exact (List.rel_of_pairwise_cons partitions.ascends.of_cons later).le
        exact absurd (order.trans starts) (Boundary.finite_lt_finite.mp gap).not_ge
    rw [never] at once
    cases once

theorem tail (partitions : Partitions (i :: rest)) : Partitions rest where
  ascends := partitions.ascends.of_cons
  disjoint := partitions.disjoint.of_cons
  covers_once := by
    intro first begins last ends t late early
    have earlier : i.Before first :=
      List.rel_of_pairwise_cons partitions.before (List.mem_of_head? begins)
    have outside : ¬ i.contains t = true := by
      rw [Interval.contains_iff]
      exact fun holds =>
        absurd (holds.2.trans_le earlier) (Boundary.finite_lt_finite.not.mpr late.not_gt)
    have once := partitions.covers_once i rfl last (by rw [List.getLast?_cons, ends]; rfl) t
      (earlier.start_lt.le.trans late) early
    rwa [List.countP_cons, if_neg outside] at once

/-- A partition leaves no gaps, so it is a tiling. -/
theorem tiling (partitions : Partitions run) : IsTiling run := by
  induction run with
  | nil => exact .nil
  | cons i rest ih =>
    cases rest with
    | nil => exact List.isChain_singleton i
    | cons j rest => exact List.isChain_cons_cons.mpr ⟨partitions.meets, ih partitions.tail⟩

end Partitions

/-- To partition time is a matter of neighbours. -/
theorem partitions_iff_isTiling : Partitions run ↔ IsTiling run :=
  ⟨Partitions.tiling, IsTiling.partitions⟩

/-! ## The check of a slice -/

/-- A slice that is no tiling is refused for the first two neighbours that do not meet. -/
theorem checkPartition_eq_error {slice : List (Record α)} (object : ObjectId)
    (misfit : ¬ IsTiling (slice.map Record.version)) :
    ∃ before a b after kind, slice = before ++ a :: b :: after ∧
      IsTiling ((before ++ [a]).map Record.version) ∧
      Misfit.between? a.version b.version = some kind ∧
      checkPartition object slice =
        .error (.corruptTimeline object (.misfit kind a.tile b.tile)) := by
  cases found : Misfit.first? Record.version slice with
  | none => exact absurd (Misfit.first?_eq_none_iff.mp found) misfit
  | some triple =>
    obtain ⟨kind, a, b⟩ := triple
    obtain ⟨before, after, shape, tiled, apart⟩ := Misfit.first?_eq_some_iff.mp found
    exact ⟨before, a, b, after, kind, shape, tiled, apart, by rw [checkPartition, found]⟩

/-- Whatever records are listed, and in whatever order: the check accepts exactly the slices that
partition time, and then only the last record may be open-ended.  Any other slice is refused as
corrupt, by the first two neighbours that do not meet. -/
theorem checkPartition_decides (object : ObjectId) (slice : List (Record α)) :
    (checkPartition object slice = .ok () ↔ Partitions (slice.map Record.version)) ∧
    (¬ Partitions (slice.map Record.version) ↔
      ∃ before a b after kind, slice = before ++ a :: b :: after ∧
        Partitions ((before ++ [a]).map Record.version) ∧
        Misfit.between? a.version b.version = some kind ∧
        checkPartition object slice =
          .error (.corruptTimeline object (.misfit kind a.tile b.tile))) ∧
    (checkPartition object slice = .ok () →
      ∀ before r after, slice = before ++ r :: after → r.version.isOpen = true → after = []) := by
  simp only [partitions_iff_isTiling]
  refine ⟨checkPartition_eq_ok_iff, ⟨checkPartition_eq_error object, ?_⟩, ?_⟩
  · rintro ⟨before, a, b, after, kind, -, -, -, refused⟩
    intro tiled
    rw [checkPartition_eq_ok_iff.mpr tiled] at refused
    cases refused
  · rintro accepted before r after rfl isOpen
    have tiled := checkPartition_eq_ok_iff.mp accepted
    cases after with
    | nil => rfl
    | cons s after =>
      rw [List.map_append] at tiled
      have meets : r.version.Meets s.version :=
        (List.isChain_cons_cons.mp (List.isChain_append.mp tiled).2.1).1
      rw [Interval.Meets, Boundary.eq_unbounded_iff.mp isOpen] at meets
      cases meets

end Bitemporal
