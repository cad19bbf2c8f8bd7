import Bitemporal.Proofs.Exchange
import Mathlib.Order.MinMax

/-!
# Clipped contents

Contents are clipped to a range by cutting off what reaches beyond it (`clip`).  Clipping twice is
clipping to what both ranges share (`clip_clip`), so the order plays no part.

To lay a run over a span is to clip what was there on both sides, and to put the run in between
(`laidInto`).  Runs over spans of which neither overlaps the other can be laid in either order
(`laidInto_comm`): each is out of the other's reach.
-/

namespace Bitemporal

variable {α : Type} {t : Instant} {lo lo' hi hi' : Boundary} {p q : Pending α}
    {run run' laid : List (Pending α)}
  {span : Interval}

/-- No boundary is before the epoch. -/
theorem Boundary.epoch_le (b : Boundary) : .finite .epoch ≤ b := by
  cases b with
  | finite t => exact Boundary.finite_le_finite.mpr (Nat.zero_le t.micros)
  | unbounded => exact Boundary.le_unbounded

/-! ## One part -/

/-- The part of a pending record between two boundaries, if there is one. -/
def Pending.clip? (lo hi : Boundary) (p : Pending α) : Option (Pending α) :=
  match max (.finite p.version.start) lo with
  | .finite start => (Interval.between? start (min p.version.stop hi)).map (⟨·, p.payload⟩)
  | .unbounded => none

namespace Pending

/-- What is left of a fact in a range is the part from the later start to the earlier end. -/
theorem clip?_eq_some_iff :
    p.clip? lo hi = some q ↔ .finite q.version.start = max (.finite p.version.start) lo ∧
      q.version.stop = min p.version.stop hi ∧ q.payload = p.payload := by
  unfold clip?
  cases max (.finite p.version.start) lo with
  | unbounded => exact ⟨nofun, nofun⟩
  | finite start =>
    rw [Option.map_eq_some_iff]
    constructor
    · rintro ⟨extent, part, rfl⟩
      rcases Interval.between?_eq_some_iff.mp part with ⟨rfl, stops⟩
      exact ⟨rfl, stops, rfl⟩
    · rintro ⟨starts, stops, same⟩
      cases starts
      exact ⟨q.version, Interval.between?_eq_some_iff.mpr ⟨rfl, stops⟩, Pending.ext rfl same.symm⟩

/-- Nothing is left of a fact if its part in the range would be empty. -/
theorem clip?_eq_none_iff :
    p.clip? lo hi = none ↔ min p.version.stop hi ≤ max (.finite p.version.start) lo := by
  rw [Option.eq_none_iff_forall_ne_some]
  constructor
  · intro empty
    by_contra part
    rw [not_le] at part
    cases starts : max (.finite p.version.start) lo with
    | unbounded =>
      rw [starts] at part
      exact Boundary.not_unbounded_lt part
    | finite start =>
      rw [starts] at part
      exact empty ⟨⟨start, min p.version.stop hi, part⟩, p.payload⟩
        (clip?_eq_some_iff.mpr ⟨starts.symm, rfl, rfl⟩)
  · intro beyond q part
    rcases clip?_eq_some_iff.mp part with ⟨starts, stops, -⟩
    rw [← starts, ← stops] at beyond
    exact absurd q.version.start_lt_stop beyond.not_gt

/-- The part of a pending record holds what the record holds between the boundaries. -/
theorem mem_of_clip? (part : p.clip? lo hi = some q) :
    t ∈ q.version ↔ (lo ≤ .finite t ∧ .finite t < hi) ∧ t ∈ p.version := by
  rcases clip?_eq_some_iff.mp part with ⟨starts, stops, -⟩
  rw [Interval.mem_iff, Interval.mem_iff, ← Boundary.finite_le_finite, starts, stops, max_le_iff,
    lt_min_iff, Boundary.finite_le_finite]
  tauto

theorem not_mem_of_clip? (none : p.clip? lo hi = none) :
    ¬ ((lo ≤ .finite t ∧ .finite t < hi) ∧ t ∈ p.version) := by
  intro h
  rcases h with ⟨⟨late, early⟩, holds⟩
  have beyond := clip?_eq_none_iff.mp none
  exact absurd (lt_min holds.2 early)
    (beyond.trans (max_le (Boundary.finite_le_finite.mpr holds.1) late)).not_gt

/-- A fact within a range stays as it is. -/
theorem clip?_of_within (starts : lo ≤ .finite p.version.start) (stops : p.version.stop ≤ hi) :
    p.clip? lo hi = some p := by
  rw [clip?_eq_some_iff, max_eq_left starts, min_eq_left stops]
  exact ⟨rfl, rfl, rfl⟩

theorem clip?_of_beyond (beyond : p.version.stop ≤ lo ∨ hi ≤ .finite p.version.start ∨ hi ≤ lo) :
    p.clip? lo hi = none := by
  rw [clip?_eq_none_iff, min_le_iff, le_max_iff, le_max_iff]
  tauto

/-- Clipping twice is clipping to what the ranges have in common. -/
theorem clip?_bind_clip? :
    (p.clip? lo hi).bind (clip? lo' hi') = p.clip? (max lo lo') (min hi hi') := by
  cases part : p.clip? lo hi with
  | some q =>
    rcases clip?_eq_some_iff.mp part with ⟨starts, stops, same⟩
    refine Option.ext fun r => ?_
    rw [Option.bind_some, clip?_eq_some_iff, clip?_eq_some_iff, starts, stops, same, max_assoc,
      min_assoc]
  | none =>
    rw [Option.bind_none, eq_comm, clip?_eq_none_iff, ← max_assoc, ← min_assoc]
    exact (min_le_left _ _).trans ((clip?_eq_none_iff.mp part).trans (le_max_left _ _))

end Pending

/-! ## Whole contents -/

/-- What contents say between two boundaries. -/
def clip (lo hi : Boundary) (run : List (Pending α)) : List (Pending α) :=
  run.filterMap (Pending.clip? lo hi)

theorem clip_append : clip lo hi (run ++ run') = clip lo hi run ++ clip lo hi run' :=
  List.filterMap_append

theorem clip_singleton (part : p.clip? lo hi = some q) : clip lo hi [p] = [q] := by
  rw [clip, List.filterMap_cons_some part, List.filterMap_nil]

/-- Clipping twice is clipping to what both ranges share. -/
theorem clip_clip : clip lo' hi' (clip lo hi run) = clip (max lo lo') (min hi hi') run := by
  rw [clip, clip, List.filterMap_filterMap]
  exact List.filterMap_congr fun p _ => Pending.clip?_bind_clip?

theorem clip_of_within (within : ∀ p ∈ run, lo ≤ .finite p.version.start ∧ p.version.stop ≤ hi) :
    clip lo hi run = run := by
  have all : run.filterMap (Pending.clip? lo hi) = run.filterMap some :=
    List.filterMap_congr fun p member =>
      Pending.clip?_of_within (within p member).1 (within p member).2
  rw [clip, all, List.filterMap_some]

theorem clip_of_beyond (beyond : ∀ p ∈ run, p.version.stop ≤ lo ∨ hi ≤ .finite p.version.start) :
    clip lo hi run = [] := by
  refine List.filterMap_eq_nil_iff.mpr fun p member => Pending.clip?_of_beyond ?_
  exact (beyond p member).imp_right .inl

theorem clip_of_le (empty : hi ≤ lo) : clip lo hi run = [] :=
  List.filterMap_eq_nil_iff.mpr fun _ _ => Pending.clip?_of_beyond (.inr (.inr empty))

/-- Clipped contents read as before in their range, and nowhere else. -/
theorem payloadAt?_clip :
    payloadAt? (clip lo hi run) t = if lo ≤ .finite t ∧ .finite t < hi then payloadAt? run t
      else none := by
  induction run with
  | nil => exact (ite_self none).symm
  | cons p rest ih =>
    cases part : p.clip? lo hi with
    | some q =>
      have shape : clip lo hi (p :: rest) = q :: clip lo hi rest := List.filterMap_cons_some part
      rw [shape, payloadAt?_cons, payloadAt?_cons p, payloadAt?_singleton,
        payloadAt?_singleton, ih, (Pending.clip?_eq_some_iff.mp part).2.2]
      simp only [Pending.mem_of_clip? part]
      by_cases inside : lo ≤ .finite t ∧ .finite t < hi
      · simp only [inside, and_self, true_and, if_true]
      · simp only [inside, false_and, if_false, Option.none_or]
    | none =>
      have shape : clip lo hi (p :: rest) = clip lo hi rest := List.filterMap_cons_none part
      rw [shape, payloadAt?_cons p, payloadAt?_singleton, ih]
      refine if_ctx_congr Iff.rfl (fun inside => ?_) fun _ => rfl
      rw [if_neg fun holds => Pending.not_mem_of_clip? part ⟨inside, holds⟩, Option.none_or]

/-! ## Runs laid into contents -/

/-- Contents with a run laid over a span. -/
def laidInto (span : Interval) (laid run : List (Pending α)) : List (Pending α) :=
  clip (.finite .epoch) (.finite span.start) run ++ (laid ++ clip span.stop .unbounded run)

/-- What lies clear of the span stays where it is. -/
theorem laidInto_between {before closed after : List (Record α)}
    (early : ∀ r ∈ before, r.version.Before span) (late : ∀ r ∈ after, span.Before r.version) :
    laidInto span laid ((before ++ (closed ++ after)).map Record.content) =
      before.map Record.content ++
      (laidInto span laid (closed.map Record.content) ++ after.map Record.content) := by
  have kept : clip (.finite .epoch) (.finite span.start) (before.map Record.content) =
      before.map Record.content :=
    clip_of_within (List.forall_mem_map.mpr fun r member => ⟨Boundary.epoch_le _, early r member⟩)
  have gone : clip span.stop .unbounded (before.map Record.content) = [] :=
    clip_of_beyond (List.forall_mem_map.mpr fun r member =>
      .inl (le_trans (early r member) span.start_lt_stop.le))
  have gone' : clip (.finite .epoch) (.finite span.start) (after.map Record.content) = [] :=
    clip_of_beyond
      (List.forall_mem_map.mpr fun r member => .inr (span.start_lt_stop.le.trans (late r member)))
  have kept' : clip span.stop .unbounded (after.map Record.content) = after.map Record.content :=
    clip_of_within
      (List.forall_mem_map.mpr fun r member => ⟨late r member, Boundary.le_unbounded⟩)
  simp only [laidInto, List.map_append, clip_append, kept, gone, kept', gone', List.append_assoc,
    List.nil_append, List.append_nil]

/-- What lies within the span is gone. -/
theorem laidInto_of_within
    (within : ∀ p ∈ run, span.start ≤ p.version.start ∧ p.version.stop ≤ span.stop) :
    laidInto span laid run = laid := by
  have early : clip (.finite .epoch) (.finite span.start) run = [] :=
    clip_of_beyond fun p member => .inr (Boundary.finite_le_finite.mpr (within p member).1)
  have late : clip span.stop .unbounded run = [] :=
    clip_of_beyond fun p member => .inl (within p member).2
  rw [laidInto, early, late, List.nil_append, List.append_nil]

/-- Within the span what was laid is read. -/
theorem payloadAt?_laidInto_of_mem (inside : t ∈ span) {payload : α}
    (found : payloadAt? laid t = some payload) :
    payloadAt? (laidInto span laid run) t = some payload := by
  have started : ¬ (.finite .epoch ≤ Boundary.finite t ∧
      Boundary.finite t < .finite span.start) :=
    fun h => absurd (Boundary.finite_lt_finite.mp h.2) inside.1.not_gt
  rw [laidInto, payloadAt?_append, payloadAt?_append, payloadAt?_clip, if_neg started, found]
  rfl

/-- Outside the span what was there before is read. -/
theorem payloadAt?_laidInto_of_not_mem (outside : t ∉ span) (none : payloadAt? laid t = none) :
    payloadAt? (laidInto span laid run) t = payloadAt? run t := by
  rw [laidInto, payloadAt?_append, payloadAt?_append, payloadAt?_clip, payloadAt?_clip, none,
    Option.none_or]
  rcases lt_or_ge t span.start with early | started
  · have inside : .finite t < span.stop :=
      (Boundary.finite_lt_finite.mpr early).trans span.start_lt_stop
    rw [if_pos ⟨Boundary.epoch_le _, Boundary.finite_lt_finite.mpr early⟩,
      if_neg fun h => absurd inside h.1.not_gt, Option.or_none]
  · have late : span.stop ≤ .finite t := not_lt.mp fun early => outside ⟨started, early⟩
    rw [if_neg fun h => absurd (Boundary.finite_lt_finite.mp h.2) started.not_gt,
      if_pos ⟨late, Boundary.finite_lt_unbounded⟩, Option.none_or]

/-- Runs over separate spans can be laid in either order. -/
theorem laidInto_comm {first second : Interval} {laid laid' : List (Pending α)}
    (apart : first.Before second)
    (within : ∀ p ∈ laid, first.start ≤ p.version.start ∧ p.version.stop ≤ first.stop)
    (within' : ∀ p ∈ laid', second.start ≤ p.version.start ∧ p.version.stop ≤ second.stop) :
    laidInto second laid' (laidInto first laid run) =
      laidInto first laid (laidInto second laid' run) := by
  have starts : Boundary.finite first.start < .finite second.start := apart.start_lt
  have stops : first.stop < second.stop := apart.trans_lt second.start_lt_stop
  have early : clip (.finite .epoch) (.finite second.start) laid = laid :=
    clip_of_within fun p member => ⟨Boundary.epoch_le _, (within p member).2.trans apart⟩
  have early' : clip second.stop .unbounded laid = [] :=
    clip_of_beyond fun p member => .inl ((within p member).2.trans stops.le)
  have late : clip (.finite .epoch) (.finite first.start) laid' = [] :=
    clip_of_beyond fun p member =>
      .inr (starts.le.trans (Boundary.finite_le_finite.mpr (within' p member).1))
  have late' : clip first.stop .unbounded laid' = laid' :=
    clip_of_within fun p member =>
      ⟨le_trans apart (Boundary.finite_le_finite.mpr (within' p member).1), Boundary.le_unbounded⟩
  have none : clip second.stop (.finite first.start) run = [] :=
    clip_of_le (starts.trans second.start_lt_stop).le
  have ends : ∀ b : Boundary, min b .unbounded = b := fun _ => min_eq_left Boundary.le_unbounded
  have ends' : ∀ b : Boundary, min .unbounded b = b := fun _ => min_eq_right Boundary.le_unbounded
  have epoch : ∀ b : Boundary, max (.finite .epoch) b = b := fun b => max_eq_right b.epoch_le
  have epoch' : ∀ b : Boundary, max b (.finite .epoch) = b := fun b => max_eq_left b.epoch_le
  -- Either way what was there is left before, between and after the spans.
  calc laidInto second laid' (laidInto first laid run)
      = clip (.finite .epoch) (.finite first.start) run ++
          (laid ++ (clip first.stop (.finite second.start) run ++
            (laid' ++ clip second.stop .unbounded run))) := by
        simp only [laidInto, clip_append, clip_clip, early, early', none, ends, ends', epoch,
          epoch', min_eq_left starts.le, max_eq_right stops.le, List.append_assoc,
          List.nil_append]
    _ = laidInto first laid (laidInto second laid' run) := by
        simp only [laidInto, clip_append, clip_clip, late, late', none, ends, ends', epoch,
          epoch', min_eq_right starts.le, max_eq_left stops.le, List.append_assoc,
          List.nil_append]

end Bitemporal
