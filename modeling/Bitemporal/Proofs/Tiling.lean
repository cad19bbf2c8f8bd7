import Bitemporal.Proofs.Order
import Bitemporal.StableSort
import Bitemporal.Tiling
import Mathlib.Data.List.Chain
import Mathlib.Data.List.Sort

/-!
# Tilings of version time

A run of intervals is a tiling (`IsTiling`) if each ends exactly where the next one starts.

* `Misfit.first?_eq_none_iff`: looking at neighbours decides it, and `Misfit.first?_eq_some_iff`
  says what is found else.
* `IsTiling.pairwise`: each interval of a tiling is before every later one, so no two overlap
  and the starts ascend strictly.
* `IsTiling.stableSort_congr`: a collection of intervals has at most one order in which it is a
  tiling, and sorting by start finds it.  The order in which the collection is listed plays no
  part.
* `Misfit.first?_ne_overlap`: sorting intervals of which no two overlap leaves at most gaps.
-/

namespace Bitemporal

/-! ## Runs of intervals -/

/-- An interval ends exactly where another one starts. -/
def Interval.Meets (i j : Interval) : Prop := i.stop = .finite j.start

/-- Each interval of a run ends where the next one starts. -/
def IsTiling (run : List Interval) : Prop := run.IsChain Interval.Meets

theorem Interval.Meets.before {i j : Interval} (meets : i.Meets j) : i.Before j := le_of_eq meets

namespace IsTiling

variable {run : List Interval}

theorem nil : IsTiling [] := List.isChain_nil

theorem pairwise (tiling : IsTiling run) : run.Pairwise Interval.Before :=
  haveI : Trans Interval.Before Interval.Before Interval.Before := ⟨Interval.Before.trans⟩
  (List.IsChain.imp (fun _ _ => Interval.Meets.before) tiling).pairwise

theorem starts_ascend (tiling : IsTiling run) : run.Pairwise (fun i j => i.start < j.start) :=
  tiling.pairwise.imp Interval.Before.start_lt

/-- Of two members of a tiling one is before the other. -/
theorem before_or_before {ι : Type} {extent : ι → Interval} {l : List ι}
    (tiling : IsTiling (l.map extent)) {a b : ι} (left : a ∈ l) (right : b ∈ l)
    (distinct : a ≠ b) : (extent a).Before (extent b) ∨ (extent b).Before (extent a) := by
  have symm : Std.Symm
      (fun a b : ι => (extent a).Before (extent b) ∨ (extent b).Before (extent a)) :=
    ⟨fun _ _ h => h.symm⟩
  have ordered : l.Pairwise
      (fun a b => (extent a).Before (extent b) ∨ (extent b).Before (extent a)) :=
    (List.pairwise_map.mp tiling.pairwise).imp Or.inl
  exact ordered.forall left right distinct

theorem not_overlaps (tiling : IsTiling run) : run.Pairwise (fun i j => i.overlaps j = false) :=
  tiling.pairwise.imp Interval.Before.not_overlaps

end IsTiling

/-! ## Misfits -/

namespace Misfit

variable {ι : Type} {extent : ι → Interval} {run : List ι} {i j : Interval}

/-- Neighbours have no misfit exactly if they meet. -/
theorem between?_eq_none_iff : between? i j = none ↔ i.Meets j := by
  unfold between? Interval.Meets
  split
  · rename_i meets
    simp [meets]
  · rename_i misfit
    split <;> simp [misfit]

/-- A misfit is an overlap exactly if the first neighbour does not end
before the second starts. -/
theorem between?_eq_overlap_iff : between? i j = some overlap ↔ ¬ i.Before j := by
  unfold between? Interval.Before
  split
  · rename_i meets
    simp [meets]
  · rename_i misfit
    split
    · rename_i early
      simp [early.le]
    · rename_i late
      simp only [true_iff]
      exact fun before => late (lt_of_le_of_ne before misfit)

theorem first?_of_misfit {misfit : Misfit} {a b : ι}
    (found : between? (extent a) (extent b) = some misfit) (rest : List ι) :
    first? extent (a :: b :: rest) = some (misfit, a, b) := by
  rw [first?, found]

theorem first?_of_meets {a b : ι} (meets : between? (extent a) (extent b) = none)
    (rest : List ι) : first? extent (a :: b :: rest) = first? extent (b :: rest) := by
  rw [first?, meets]

/-- Looking at neighbours finds no misfit exactly in a tiling. -/
theorem first?_eq_none_iff : first? extent run = none ↔ IsTiling (run.map extent) := by
  induction run with
  | nil => exact ⟨fun _ => .nil, fun _ => rfl⟩
  | cons a rest ih =>
    cases rest with
    | nil => exact ⟨fun _ => List.isChain_singleton _, fun _ => rfl⟩
    | cons b rest =>
      rw [List.map_cons, List.map_cons, IsTiling, List.isChain_cons_cons, ← List.map_cons]
      cases here : between? (extent a) (extent b) with
      | some misfit =>
        rw [first?_of_misfit here, ← between?_eq_none_iff, here]
        simp
      | none =>
        rw [first?_of_meets here, ih]
        exact (and_iff_right (between?_eq_none_iff.mp here)).symm

/-- A run without a misfit is a tiling. -/
theorem first?_id_eq_none_iff {run : List Interval} : first? id run = none ↔ IsTiling run := by
  rw [first?_eq_none_iff, List.map_id]

/-- Neighbours that do not meet have a gap between them or overlap. -/
theorem between?_of_not_meets (apart : ¬ i.Meets j) :
    between? i j = some (if i.stop < .finite j.start then gap else overlap) := by
  unfold between?
  split
  · rename_i meets
    exact absurd meets apart
  · split <;> rfl

/-- The first misfit of a run is between neighbours, and up to the first of them
the run is a tiling. -/
theorem first?_eq_some_iff {misfit : Misfit} {a b : ι} :
    first? extent run = some (misfit, a, b) ↔ ∃ before after, run = before ++ a :: b :: after ∧
      IsTiling ((before ++ [a]).map extent) ∧ between? (extent a) (extent b) = some misfit := by
  constructor
  · intro found
    induction run with
    | nil => cases found
    | cons c rest ih =>
      cases rest with
      | nil => cases found
      | cons d rest =>
        cases here : between? (extent c) (extent d) with
        | some misfit' =>
          cases (first?_of_misfit here rest).symm.trans found
          exact ⟨[], rest, rfl, List.isChain_singleton _, here⟩
        | none =>
          rcases ih ((first?_of_meets here rest).symm.trans found) with
              ⟨before, after, shape, tiled, there⟩
          refine ⟨c :: before, after, by rw [shape, List.cons_append], ?_, there⟩
          refine List.isChain_cons.mpr ⟨fun i first => ?_, tiled⟩
          -- The next interval is that of `d`, whether the misfit is right behind it or later.
          have next : ((before ++ [a]).map extent).head? = some (extent d) := by
            cases before <;> cases shape <;> rfl
          cases next.symm.trans first
          exact between?_eq_none_iff.mp here
  · rintro ⟨before, after, rfl, tiled, misfits⟩
    induction before with
    | nil => exact first?_of_misfit misfits after
    | cons c before ih =>
      rcases List.isChain_cons.mp tiled with ⟨meets, tiled⟩
      have rest := ih tiled
      cases before with
      | nil => exact (first?_of_meets (between?_eq_none_iff.mpr (meets _ rfl)) _).trans rest
      | cons d before =>
        exact (first?_of_meets (between?_eq_none_iff.mpr (meets _ rfl)) _).trans rest

/-- The first misfit stands behind the longest tiling that the run starts with. -/
theorem first?_id_eq_some_iff {run : List Interval} {misfit : Misfit} :
    first? id run = some (misfit, i, j) ↔ ∃ before after, run = before ++ i :: j :: after ∧
      IsTiling (before ++ [i]) ∧ between? i j = some misfit := by
  simp only [first?_eq_some_iff, List.map_id, id]

end Misfit

/-! ## Sorting by start -/

section Sorting

variable {ι κ : Type} {le : ι → ι → Bool} {le' : κ → κ → Bool} {extent : ι → Interval}
    {l l' : List ι}

/-- The sort of the slices is the insertion sort of the library. -/
theorem stableSort_eq_insertionSort (le : ι → ι → Bool) (l : List ι) :
    stableSort le l = l.insertionSort (fun a b => le a b = true) := by
  have insert (a : ι) (l : List ι) :
      insertSorted le a l = l.orderedInsert (fun a b => le a b = true) a := by
    induction l with
    | nil => rfl
    | cons b rest ih => rw [insertSorted, ih, List.orderedInsert_cons]
  induction l with
  | nil => rfl
  | cons a rest ih => rw [stableSort, ih, insert, List.insertionSort_cons]

/-- Sorting commutes with a map that keeps the order. -/
theorem map_stableSort (f : ι → κ) (order : ∀ a b, le' (f a) (f b) = le a b) (l : List ι) :
    (stableSort le l).map f = stableSort le' (l.map f) := by
  rw [stableSort_eq_insertionSort, stableSort_eq_insertionSort]
  exact List.map_insertionSort _ _ f l fun a _ b _ => by rw [order]

theorem map_extent_stableSort (extent : ι → Interval) (l : List ι) :
    (stableSort (fun a b => (extent a).startsBy (extent b)) l).map extent =
      stableSort Interval.startsBy (l.map extent) :=
  map_stableSort extent (fun _ _ => rfl) l

theorem stableSort_starts_ascend (extent : ι → Interval) (l : List ι) :
    (stableSort (fun a b => (extent a).startsBy (extent b)) l).Pairwise
      (fun a b => (extent a).start ≤ (extent b).start) := by
  have total : Std.Total (fun a b : ι => (extent a).startsBy (extent b) = true) :=
    ⟨fun a b => by simpa [Interval.startsBy] using le_total _ _⟩
  have trans : IsTrans ι (fun a b => (extent a).startsBy (extent b) = true) :=
    ⟨fun a b c => by simpa [Interval.startsBy] using le_trans⟩
  rw [stableSort_eq_insertionSort]
  exact (List.pairwise_insertionSort _ l).imp fun {a b} h => by simpa [Interval.startsBy] using h

/-- Elements of a strictly ascending list that start together are one element. -/
theorem eq_of_start_eq (ascends : l.Pairwise (fun a b => (extent a).start < (extent b).start))
    {a b : ι} (left : a ∈ l) (right : b ∈ l) (start : (extent a).start = (extent b).start) :
    a = b := by
  have symm : Std.Symm (fun a b : ι => (extent a).start ≠ (extent b).start) :=
    ⟨fun _ _ h => h.symm⟩
  by_contra distinct
  exact (ascends.imp (fun h => h.ne)).forall left right distinct start

/-- What ascends strictly already is the result of sorting any rearrangement of it. -/
theorem stableSort_eq_of_perm (extent : ι → Interval) (perm : l.Perm l')
    (ascends : l'.Pairwise (fun a b => (extent a).start < (extent b).start)) :
    stableSort (fun a b => (extent a).startsBy (extent b)) l = l' := by
  refine List.Perm.eq_of_pairwise ?_ (stableSort_starts_ascend extent l) (ascends.imp le_of_lt)
    ((stableSort_perm _ l).trans perm)
  intro a b left right before after
  rw [mem_stableSort, perm.mem_iff] at left
  exact eq_of_start_eq ascends left right (le_antisymm before after)

end Sorting

/-- If one order of some intervals is a tiling, they sort to it from any order. -/
theorem IsTiling.stableSort_congr {run run' : List Interval}
    (tiling : IsTiling (stableSort Interval.startsBy run)) (perm : run.Perm run') :
    stableSort Interval.startsBy run' = stableSort Interval.startsBy run :=
  stableSort_eq_of_perm id (perm.symm.trans (stableSort_perm _ run).symm) tiling.starts_ascend

/-- Of intervals of which no two overlap, sorting makes a run whose neighbours do
not overlap either. -/
theorem Misfit.first?_ne_overlap {run : List Interval}
    (apart : run.Pairwise (fun i j => i.overlaps j = false)) {i j : Interval} :
    Misfit.first? id (stableSort Interval.startsBy run) ≠ some (.overlap, i, j) := by
  intro found
  obtain ⟨before, after, shape, -, late⟩ := Misfit.first?_id_eq_some_iff.mp found
  have ordered : (stableSort Interval.startsBy run).Pairwise Interval.Before := by
    have sorted := stableSort_starts_ascend id run
    have separate : (stableSort Interval.startsBy run).Pairwise
        (fun i j => i.overlaps j = false) :=
      ((stableSort_perm _ run).pairwise_iff fun h => by rw [Interval.overlaps_comm]; exact h).mpr
        apart
    exact sorted.imp₂ (fun _ _ order h => Interval.before_of_start_le h order) separate
  rw [shape, List.pairwise_append] at ordered
  exact Misfit.between?_eq_overlap_iff.mp late
    (List.rel_of_pairwise_cons ordered.2.1 List.mem_cons_self)

end Bitemporal
