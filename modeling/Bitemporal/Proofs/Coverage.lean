import Bitemporal.Proofs.Plan

/-!
# What a run of intervals covers

A run covers an instant if some interval of it holds the instant (`Covers`).  A run that tiles a
span covers just the instants of the span (`Spans.covers_iff`).

A plan that lays its run over everything that it closes leaves covered what was covered
(`Plan.Lays.covers`).  A termination lays its run over less, and uncovers just the instants from
its own on (`Plan.terminate_covers_iff`).
-/

namespace Bitemporal

variable {α : Type} {run run' : List Interval} {t : Instant} {start : Instant} {stop : Boundary}

/-- Some interval of a run holds an instant. -/
def Covers (run : List Interval) (t : Instant) : Prop := ∃ i ∈ run, t ∈ i

theorem covers_congr (perm : run.Perm run') : Covers run t ↔ Covers run' t := by
  unfold Covers
  simp only [perm.mem_iff]

theorem covers_append : Covers (run ++ run') t ↔ Covers run t ∨ Covers run' t := by
  unfold Covers
  simp only [List.mem_append, or_and_right, exists_or]

theorem covers_map {ι : Type} {extent : ι → Interval} {l : List ι} :
    Covers (l.map extent) t ↔ ∃ a ∈ l, t ∈ extent a := by
  unfold Covers
  simp only [List.mem_map, exists_exists_and_eq_and]

/-- A run that tiles a span covers the span and nothing else. -/
theorem Spans.covers_iff (spans : Spans start stop run) :
    Covers run t ↔ start ≤ t ∧ .finite t < stop := by
  induction spans with
  | single i => simp [Covers, Interval.mem_iff]
  | @cons i mid stop run ends rest ih =>
    have first : i.start < mid := Boundary.finite_lt_finite.mp (ends ▸ i.start_lt_stop)
    have split : Covers (i :: run) t ↔
        (i.start ≤ t ∧ t < mid) ∨ (mid ≤ t ∧ .finite t < stop) := by
      rw [← ih, ← Boundary.finite_lt_finite, ← ends]
      simp [Covers, Interval.mem_iff]
    rw [split]
    constructor
    · intro h
      rcases h with ⟨after, before⟩ | ⟨after, before⟩
      · exact ⟨after, (Boundary.finite_lt_finite.mpr before).trans rest.start_lt_stop⟩
      · exact ⟨first.le.trans after, before⟩
    · intro h
      rcases lt_or_ge t mid with before | after
      · exact .inl ⟨h.1, before⟩
      · exact .inr ⟨after, h.2⟩

namespace IsTiling

/-- Nothing before the first start of a tiling is covered. -/
theorem start_le_of_covers {i : Interval} (tiling : IsTiling (i :: run))
    (covered : Covers (i :: run) t) : i.start ≤ t := by
  rcases covered with ⟨j, member, holds⟩
  rcases List.mem_cons.mp member with rfl | later
  · exact holds.1
  · have order : i.start < j.start := List.rel_of_pairwise_cons tiling.starts_ascend later
    exact order.le.trans holds.1

/-- Nothing follows an open interval of a tiling. -/
theorem getLast?_of_isOpen {i : Interval} (tiling : IsTiling run) (member : i ∈ run)
    (isOpen : i.isOpen = true) : run.getLast? = some i := by
  obtain ⟨before, after, rfl⟩ := List.append_of_mem member
  cases after with
  | nil => exact List.getLast?_concat
  | cons j rest =>
    have meets : i.Meets j := (List.isChain_cons_cons.mp (List.isChain_append.mp tiling).2.1).1
    rw [Interval.Meets, Boundary.eq_unbounded_iff.mp isOpen] at meets
    cases meets

/-- A tiling is open at its end exactly if it covers the last instant. -/
theorem covers_last_iff (tiling : IsTiling run) :
    Covers run .last ↔ ∃ i, run.getLast? = some i ∧ i.isOpen = true := by
  have holds_iff (i : Interval) : Instant.last ∈ i ↔ i.isOpen = true := by
    unfold Interval.isOpen
    rw [Interval.mem_iff, Boundary.eq_unbounded_iff]
    constructor
    · intro h
      cases stop : i.stop with
      | unbounded => rfl
      | finite ended =>
        rw [stop] at h
        exact absurd (Boundary.finite_lt_finite.mp h.2) ended.le_last.not_gt
    · intro never
      rw [never]
      exact ⟨i.start.le_last, trivial⟩
  constructor
  · intro h
    rcases h with ⟨i, member, holds⟩
    have isOpen := (holds_iff i).mp holds
    exact ⟨i, tiling.getLast?_of_isOpen member isOpen, isOpen⟩
  · intro h
    rcases h with ⟨i, last, isOpen⟩
    exact ⟨i, List.mem_of_getLast? last, (holds_iff i).mpr isOpen⟩

end IsTiling

/-! ## What plans leave covered -/

namespace Plan

variable {object : ObjectId} {active closed : List (Record α)} {plan : Plan α}

/-- A plan leaves covered its span, and what the records cover that it does not close. -/
theorem Lays.covers_iff (lays : plan.Lays active closed start stop)
    (distinct : ∀ r ∈ active, ∀ s ∈ active, r.id = s.id → r = s) :
    Covers (plan.outlook active) t ↔
      (∃ r ∈ active, r ∉ closed ∧ t ∈ r.version) ∨ start ≤ t ∧ .finite t < stop := by
  have kept : ∀ r ∈ active, (!plan.closes.contains r.id) = true ↔ r ∉ closed := by
    intro r listed
    rw [Bool.not_eq_true', List.contains_eq_mem, decide_eq_false_iff_not, lays.closes_eq,
      not_iff_not, List.mem_map]
    constructor
    · intro h
      rcases h with ⟨s, member, same⟩
      rwa [distinct r listed s (lays.closed_active s member) same.symm]
    · intro member
      exact ⟨r, member, rfl⟩
  rw [outlook, covers_append, lays.spans.covers_iff, covers_map]
  refine or_congr_left (exists_congr fun r => ?_)
  rw [List.mem_filter, and_assoc]
  exact and_congr_right fun listed => and_congr_left' (kept r listed)

/-- A plan whose run reaches over all that it closes uncovers nothing. -/
theorem Lays.covers (lays : plan.Lays active closed start stop)
    (distinct : ∀ r ∈ active, ∀ s ∈ active, r.id = s.id → r = s)
    (within : ∀ r ∈ closed, start ≤ r.version.start ∧ r.version.stop ≤ stop)
    (covered : Covers (active.map Record.version) t) : Covers (plan.outlook active) t := by
  rcases covers_map.mp covered with ⟨r, listed, holds⟩
  rw [lays.covers_iff distinct]
  by_cases member : r ∈ closed
  · rcases within r member with ⟨left, right⟩
    exact .inr ⟨left.trans holds.1, holds.2.trans_le right⟩
  · exact .inl ⟨r, listed, member, holds⟩

variable {instant : Instant}

/-- A termination ends the lineage after its first start. -/
theorem start_lt_of_terminate (tiled : IsTiling (active.map Record.version))
    (planned : terminate object active instant = .ok plan) :
    ∀ r ∈ active, r.version.start < instant := by
  rcases terminate_lays tiled planned with ⟨latest, last, -, lays⟩
  have ends : latest.version.start < instant :=
    Boundary.finite_lt_finite.mp lays.spans.start_lt_stop
  rcases List.getLast?_eq_some_iff.mp last with ⟨rest, rfl⟩
  have ascends := List.pairwise_append.mp (List.pairwise_map.mp tiled.starts_ascend)
  intro r listed
  rcases List.mem_append.mp listed with earlier | here
  · exact (ascends.2.2 r earlier latest (List.mem_singleton_self latest)).trans ends
  · rw [List.mem_singleton.mp here]
    exact ends

/-- A termination uncovers the instants from its own on, and no other. -/
theorem terminate_covers_iff (tiled : IsTiling (active.map Record.version))
    (distinct : ∀ r ∈ active, ∀ s ∈ active, r.id = s.id → r = s)
    (planned : terminate object active instant = .ok plan) :
    Covers (plan.outlook active) t ↔ Covers (active.map Record.version) t ∧ t < instant := by
  rcases terminate_lays tiled planned with ⟨latest, last, isOpen, lays⟩
  have listed : latest ∈ active := List.mem_of_getLast? last
  have ends : latest.version.start < instant :=
    Boundary.finite_lt_finite.mp lays.spans.start_lt_stop
  have endless : latest.version.stop = .unbounded := Boundary.eq_unbounded_iff.mp isOpen
  rw [lays.covers_iff distinct, covers_map, Boundary.finite_lt_finite]
  constructor
  · intro h
    rcases h with ⟨r, member, other, holds⟩ | ⟨after, before⟩
    · refine ⟨⟨r, member, holds⟩, ?_⟩
      rcases tiled.before_or_before member listed fun same =>
        other (List.mem_singleton.mpr same) with earlier | later
      · exact (Boundary.finite_lt_finite.mp (holds.2.trans_le earlier)).trans ends
      · -- Nothing comes after an open record.
        rw [Interval.Before, endless] at later
        exact absurd later Boundary.not_unbounded_le
    · exact ⟨⟨latest, listed, after, endless ▸ trivial⟩, before⟩
  · intro h
    rcases h with ⟨⟨r, member, holds⟩, before⟩
    by_cases here : r = latest
    · subst here
      exact .inr ⟨holds.1, before⟩
    · exact .inl ⟨r, member, fun same => here (List.mem_singleton.mp same), holds⟩

end Plan

end Bitemporal
