import Bitemporal.Proofs.Coverage
import Bitemporal.Proofs.Timeline.Lookup

/-!
# Plans that exchange a part of a slice

A slice that is a tiling falls into what lies before a plan's run, what the plan closes, and what
lies after the run.  The plan takes the middle out and puts its own run there (`Plan.Exchanges`),
so what it leaves is known as a list (`Plan.Exchanges.result_eq`), in which only the two seams are
in question (`Spans.tiling_between_iff`).  The check of the plan looks at just these
(`Plan.Exchanges.check_eq_ok`, `Plan.Exchanges.exists_gap`).

Without identities and beliefs a record is a payload with a version interval (`Record.content`),
as a pending record is, and `payloadAt?` reads lists of them.
-/

namespace Bitemporal

variable {α : Type} {t : Instant}

/-! ## What is said, and of when -/

/-- What a record says and of when, without its identity and when it was believed. -/
def Record.content (r : Record α) : Pending α := ⟨r.version, r.payload⟩

/-- The payload that a list holds at an instant. -/
def payloadAt? (run : List (Pending α)) (t : Instant) : Option α :=
  (run.find? fun p => p.version.contains t).map Pending.payload

section Contents

variable {run run' : List (Pending α)} {slice : List (Record α)}

theorem map_version_content :
    (slice.map Record.content).map Pending.version = slice.map Record.version := by
  rw [List.map_map]
  rfl

theorem map_payload_content :
    (slice.map Record.content).map Pending.payload = slice.map Record.payload := by
  rw [List.map_map]
  rfl

/-- What is read of the contents of a slice is the payload of the record that
covers the instant. -/
theorem payloadAt?_content (slice : List (Record α)) (t : Instant) :
    payloadAt? (slice.map Record.content) t =
      (Timeline.covering? slice t).map Record.payload := by
  rw [payloadAt?, List.find?_map, Option.map_map]
  rfl

/-- What is read of two runs is read of the first, or else of the second. -/
theorem payloadAt?_append :
    payloadAt? (run ++ run') t = (payloadAt? run t).or (payloadAt? run' t) := by
  rw [payloadAt?, List.find?_append, Option.map_or]
  rfl

theorem payloadAt?_cons (p : Pending α) :
    payloadAt? (p :: run) t = (payloadAt? [p] t).or (payloadAt? run t) := by
  rw [← List.singleton_append, payloadAt?_append]

theorem payloadAt?_of_not_covers (uncovered : ¬ Covers (run.map Pending.version) t) :
    payloadAt? run t = none := by
  rw [payloadAt?, Option.map_eq_none_iff, List.find?_eq_none]
  intro p member holds
  exact uncovered (covers_map.mpr ⟨p, member, Interval.contains_iff.mp holds⟩)

theorem payloadAt?_singleton (p : Pending α) (t : Instant) :
    payloadAt? [p] t = if t ∈ p.version then some p.payload else none := by
  rw [payloadAt?, List.find?_singleton, apply_ite (Option.map Pending.payload)]
  exact if_congr Interval.contains_iff rfl rfl

end Contents

/-! ## Runs between others -/

section Seams

variable {start : Instant} {stop : Boundary} {left run right : List Interval}

theorem Spans.exists_getLast (spans : Spans start stop run) :
    ∃ i, run.getLast? = some i ∧ i.stop = stop := by
  induction spans with
  | single i => exact ⟨i, rfl, rfl⟩
  | @cons i mid stop run ends rest ih =>
    rcases ih with ⟨j, final, stops⟩
    exact ⟨j, by rw [List.getLast?_cons, final, Option.getD_some], stops⟩

/-- Every tiling but the empty one tiles some span. -/
theorem IsTiling.exists_spans (tiling : IsTiling run) (nonempty : run ≠ []) :
    ∃ start stop, Spans start stop run := by
  induction run with
  | nil => exact absurd rfl nonempty
  | cons i rest ih =>
    cases rest with
    | nil => exact ⟨i.start, i.stop, .single i⟩
    | cons j rest =>
      rcases List.isChain_cons_cons.mp tiling with ⟨meets, tiling⟩
      rcases ih tiling (List.cons_ne_nil j rest) with ⟨start, stop, spans⟩
      rcases spans.exists_cons with ⟨j', rest', shape, starts⟩
      cases shape
      exact ⟨i.start, stop, .cons (starts ▸ meets) spans⟩

/-- A run that tiles a span tiles on with what lies before and after it exactly if
both seams are tight. -/
theorem Spans.tiling_between_iff (spans : Spans start stop run) :
    IsTiling (left ++ (run ++ right)) ↔
      IsTiling left ∧ IsTiling right ∧ (∀ i ∈ left.getLast?, i.stop = .finite start) ∧
        ∀ j ∈ right.head?, stop = .finite j.start := by
  rcases spans.exists_cons with ⟨first, rest, shape, starts⟩
  rcases spans.exists_getLast with ⟨last, final, stops⟩
  have head : (run ++ right).head? = some first := by rw [shape]; rfl
  have tiled : run.IsChain Interval.Meets := spans.tiling
  unfold IsTiling
  rw [List.isChain_append, List.isChain_append, head, final]
  simp only [Option.mem_some_iff, forall_eq', Interval.Meets, starts, stops, tiled, true_and]
  tauto

/-- What tiles the same span fits into the same place. -/
theorem Spans.tiling_of_exchange {run' : List Interval} (spans : Spans start stop run)
    (spans' : Spans start stop run') (tiled : IsTiling (left ++ (run ++ right))) :
    IsTiling (left ++ (run' ++ right)) :=
  spans'.tiling_between_iff.mpr (spans.tiling_between_iff.mp tiled)

end Seams

/-! ## Exchanges -/

namespace Plan

variable {plan : Plan α} {before closed after : List (Record α)} {start : Instant}
    {stop : Boundary}

/-- A plan takes `closed` out of the slice `before ++ (closed ++ after)`, and lays a run over a
span between the others. -/
structure Exchanges (plan : Plan α) (before closed after : List (Record α)) (start : Instant)
    (stop : Boundary) : Prop where
  closes_eq : plan.closes = closed.map Record.id
  spans : Spans start stop (plan.inserts.map Pending.version)
  before_le : ∀ r ∈ before, r.version.stop ≤ .finite start
  le_after : ∀ r ∈ after, stop ≤ .finite r.version.start

/-- What a plan leaves that puts its run between `before` and `after`. -/
def exchanged (plan : Plan α) (before after : List (Record α)) : List Interval :=
  before.map Record.version ++ (plan.inserts.map Pending.version ++ after.map Record.version)

namespace Exchanges

/-- An exchange lays a run over the records that it closes. -/
theorem lays (exchanges : plan.Exchanges before closed after start stop) :
    plan.Lays (before ++ (closed ++ after)) closed start stop where
  closes_eq := exchanges.closes_eq
  closed_active _ member := List.mem_append_right _ (List.mem_append_left _ member)
  spans := exchanges.spans
  clear r listed kept := by
    rcases List.mem_append.mp listed with early | listed
    · exact .inl (exchanges.before_le r early)
    · exact .inr (exchanges.le_after r ((List.mem_append.mp listed).resolve_left kept))

/-- What the plan does not close lies on both sides. -/
theorem kept_eq (exchanges : plan.Exchanges before closed after start stop)
    (distinct : ((before ++ (closed ++ after)).map Record.id).Nodup) :
    (before ++ (closed ++ after)).filter (fun r => !plan.closes.contains r.id) = before ++
      after := by
  rw [List.map_append, List.map_append, List.nodup_append] at distinct
  rcases distinct with ⟨-, inner, apart⟩
  have apart' := (List.nodup_append.mp inner).2.2
  have spared {r : Record α} : (!plan.closes.contains r.id) = true ↔
      ∀ s ∈ closed, s.id ≠ r.id := by
    rw [exchanges.closes_eq]
    simp
  have all (l : List (Record α)) (keeps : ∀ r ∈ l, ∀ s ∈ closed, s.id ≠ r.id) :
      l.filter (fun r => !plan.closes.contains r.id) = l :=
    List.filter_eq_self.mpr fun r member => spared.mpr (keeps r member)
  have none : closed.filter (fun r => !plan.closes.contains r.id) = [] :=
    List.filter_eq_nil_iff.mpr fun r member keeps => spared.mp keeps r member rfl
  rw [List.filter_append, List.filter_append, none, all before, all after, List.nil_append]
  · intro r member s member' same
    exact apart' _ (List.mem_map_of_mem member') _ (List.mem_map_of_mem member) same
  · intro r member s member' same
    exact apart _ (List.mem_map_of_mem member) _
      (List.mem_append_left _ (List.mem_map_of_mem member')) same.symm

theorem ordered (exchanges : plan.Exchanges before closed after start stop)
    (tiled : IsTiling ((before ++ (closed ++ after)).map Record.version)) :
    (plan.exchanged before after).Pairwise Interval.Before := by
  have old := tiled.pairwise
  rw [List.map_append, List.map_append, List.pairwise_append, List.pairwise_append] at old
  rcases old with ⟨early, ⟨-, late, -⟩, across⟩
  have within := exchanges.spans.within
  rw [exchanged, List.pairwise_append, List.pairwise_append]
  refine ⟨early, ⟨exchanges.spans.tiling.pairwise, late, fun i inserted j listed => ?_⟩,
    fun i listed j member => ?_⟩
  · rcases List.mem_map.mp listed with ⟨r, member, rfl⟩
    exact (within i inserted).2.trans (exchanges.le_after r member)
  · rcases List.mem_append.mp member with inserted | listed'
    · rcases List.mem_map.mp listed with ⟨r, member, rfl⟩
      exact (exchanges.before_le r member).trans
        (Boundary.finite_le_finite.mpr (within j inserted).1)
    · exact across i listed j (List.mem_append_right _ listed')

/-- What the plan leaves, in order. -/
theorem result_eq (exchanges : plan.Exchanges before closed after start stop)
    (distinct : ((before ++ (closed ++ after)).map Record.id).Nodup)
    (tiled : IsTiling ((before ++ (closed ++ after)).map Record.version)) :
    plan.result (before ++ (closed ++ after)) = plan.exchanged before after := by
  have perm : (before.map Record.version ++ after.map Record.version ++
      plan.inserts.map Pending.version).Perm (plan.exchanged before after) := by
    rw [exchanged, List.append_assoc]
    exact List.Perm.append_left _ List.perm_append_comm
  rw [result, exchanges.kept_eq distinct, List.map_append]
  exact stableSort_eq_of_perm id perm ((exchanges.ordered tiled).imp Interval.Before.start_lt)

variable (exchanges : plan.Exchanges before closed after start stop)
  (distinct : ((before ++ (closed ++ after)).map Record.id).Nodup)
  (tiled : IsTiling ((before ++ (closed ++ after)).map Record.version)) (object : ObjectId)

include exchanges distinct tiled

/-- A plan whose run fits in passes its check. -/
theorem check_eq_ok (fits : IsTiling (plan.exchanged before after)) :
    plan.check object (before ++ (closed ++ after)) = .ok () := by
  have clean : Misfit.first? id (plan.exchanged before after) = none :=
    Misfit.first?_id_eq_none_iff.mpr fits
  rw [check, exchanges.result_eq distinct tiled, clean]

/-- A plan whose run does not fit in leaves a gap. -/
theorem exists_gap (misfit : ¬ IsTiling (plan.exchanged before after)) :
    ∃ i j, plan.check object (before ++ (closed ++ after)) =
      .error (.nonExactRange object (.gap i j)) := by
  rcases (exchanges.lays.suits tiled).check_cases object with ⟨-, fits⟩ | gap
  · rw [exchanges.result_eq distinct tiled] at fits
    exact absurd fits misfit
  · exact gap

end Exchanges

/-- A plan that lays its run over the very span of what it closes is an exchange,
and its run fits in. -/
theorem exchanges_of_spans (tiled : IsTiling ((before ++ (closed ++ after)).map Record.version))
    (old : Spans start stop (closed.map Record.version))
    (new : Spans start stop (plan.inserts.map Pending.version))
    (closes : plan.closes = closed.map Record.id) :
    plan.Exchanges before closed after start stop ∧ IsTiling (plan.exchanged before after) := by
  rcases old.clear_of_tiling tiled with ⟨clearBefore, clearAfter⟩
  refine ⟨⟨closes, new, clearBefore, clearAfter⟩, ?_⟩
  rw [List.map_append, List.map_append] at tiled
  exact old.tiling_of_exchange new tiled

end Plan

end Bitemporal
