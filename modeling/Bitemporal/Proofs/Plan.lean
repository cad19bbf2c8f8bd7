import Bitemporal.Plan
import Bitemporal.Proofs.Program
import Bitemporal.Proofs.Tiling

/-!
# Plans leave no overlap

Every planner works on a slice that is a tiling.  What it inserts tiles a span (`Spans`), and
the records that it does not close lie outside that span (`Plan.Lays`).  So what the plan leaves
does not overlap (`Plan.Suits`), whatever the caller asked for, and `Plan.check` finds a gap at
worst (`Plan.Suits.check_cases`).  A gap is the caller's fault, as is whatever the planners
themselves refuse.

* `Plan.exactReplace_lays`, `Plan.singleReplace_lays`, `Plan.splice_lays`,
  `Plan.terminate_lays`: the four planners.
* `Plan.create_lays`: the plan for a first record.
* `Plan.toBatch_eq_ok`: a plan that suits a slice can be stamped.
-/

namespace Bitemporal

variable {α : Type}

/-! ## Runs that tile a span -/

/-- A run of intervals is a tiling from `start` up to `stop`. -/
inductive Spans : Instant → Boundary → List Interval → Prop
  | single (i : Interval) : Spans i.start i.stop [i]
  | cons {i : Interval} {mid : Instant} {stop : Boundary} {run : List Interval} :
    i.stop = .finite mid → Spans mid stop run → Spans i.start stop (i :: run)

namespace Spans

variable {start mid : Instant} {stop : Boundary} {run run' : List Interval}

theorem exists_cons (spans : Spans start stop run) :
    ∃ i rest, run = i :: rest ∧ i.start = start := by
  cases spans with
  | single i => exact ⟨i, [], rfl, rfl⟩
  | cons ends rest => exact ⟨_, _, rfl, rfl⟩

theorem ne_nil (spans : Spans start stop run) : run ≠ [] := by
  rcases spans.exists_cons with ⟨i, rest, rfl, -⟩
  exact List.cons_ne_nil i rest

theorem exists_start (spans : Spans start stop run) : ∃ i ∈ run, i.start = start := by
  rcases spans.exists_cons with ⟨i, rest, rfl, starts⟩
  exact ⟨i, List.mem_cons_self, starts⟩

theorem exists_stop (spans : Spans start stop run) : ∃ i ∈ run, i.stop = stop := by
  induction spans with
  | single i => exact ⟨i, List.mem_cons_self, rfl⟩
  | cons ends rest ih =>
    rcases ih with ⟨j, member, stops⟩
    exact ⟨j, List.mem_cons_of_mem _ member, stops⟩

theorem append (left : Spans start (.finite mid) run) (right : Spans mid stop run') :
    Spans start stop (run ++ run') := by
  generalize ends : Boundary.finite mid = stop' at left
  induction left with
  | single i => exact .cons ends.symm right
  | cons meets rest ih => exact .cons meets (ih ends)

/-- The intervals of a run meet one after the other. -/
theorem tiling (spans : Spans start stop run) : IsTiling run := by
  induction spans with
  | single i => exact List.isChain_singleton i
  | cons ends rest ih =>
    rcases rest.exists_cons with ⟨j, others, rfl, starts⟩
    rw [IsTiling, List.isChain_cons_cons]
    exact ⟨by rw [Interval.Meets, ends, starts], ih⟩

theorem start_lt_stop (spans : Spans start stop run) : .finite start < stop := by
  induction spans with
  | single i => exact i.start_lt_stop
  | @cons i mid stop run ends rest ih =>
    have first : Boundary.finite i.start < .finite mid := ends ▸ i.start_lt_stop
    exact first.trans ih

/-- No interval of the run leaves the span. -/
theorem within (spans : Spans start stop run) : ∀ i ∈ run, start ≤ i.start ∧ i.stop ≤ stop := by
  induction spans with
  | single i =>
    intro j member
    rw [List.mem_singleton.mp member]
    exact ⟨le_rfl, le_rfl⟩
  | @cons i mid stop run ends rest ih =>
    have first : i.start < mid := Boundary.finite_lt_finite.mp (ends ▸ i.start_lt_stop)
    intro j member
    rcases List.mem_cons.mp member with here | later
    · rw [here, ends]
      exact ⟨le_rfl, rest.start_lt_stop.le⟩
    · exact ⟨first.le.trans (ih j later).1, (ih j later).2⟩

/-- In a tiling, what lies before and after a run that tiles a span is clear of the span. -/
theorem clear_of_tiling {before closed after : List (Record α)}
    (spans : Spans start stop (closed.map Record.version))
    (tiled : IsTiling ((before ++ (closed ++ after)).map Record.version)) :
    (∀ r ∈ before, r.version.stop ≤ .finite start) ∧
      ∀ r ∈ after, stop ≤ .finite r.version.start := by
  have ordered := List.pairwise_append.mp (List.pairwise_map.mp tiled.pairwise)
  have ordered' := List.pairwise_append.mp ordered.2.1
  constructor
  · rcases spans.exists_start with ⟨i, member, rfl⟩
    rcases List.mem_map.mp member with ⟨first, inRun, rfl⟩
    exact fun r early => ordered.2.2 r early first (List.mem_append_left after inRun)
  · rcases spans.exists_stop with ⟨i, member, rfl⟩
    rcases List.mem_map.mp member with ⟨last, inRun, rfl⟩
    exact ordered'.2.2 last inRun

end Spans

namespace Plan

variable {object : ObjectId} {active closed overlapped : List (Record α)} {plan : Plan α}
    {start : Instant}
  {stop : Boundary} {replacements : List (Replacement α)} {span : Interval}

/-! ## What is laid out -/

/-- Replacements that are laid end to end tile the whole range, whatever ends they ask for. -/
theorem layOut_spans {laid : List (Pending α)} (nonempty : replacements ≠ [])
    (made : layOut start stop replacements = .ok laid) :
    Spans start stop (laid.map Pending.version) := by
  induction replacements generalizing start laid with
  | nil => exact absurd rfl nonempty
  | cons r rest ih =>
    cases rest with
    | nil =>
      rcases Program.exists_of_bind_eq_ok made with ⟨i, extent, done⟩
      cases done
      rcases Interval.between_eq_ok_iff.mp extent with ⟨rfl, rfl⟩
      exact .single i
    | cons next rest =>
      rcases Program.exists_of_bind_eq_ok made with ⟨i, extent, made'⟩
      rcases Program.exists_of_bind_eq_ok made' with ⟨laid', others, done⟩
      cases done
      rcases Interval.between_eq_ok_iff.mp extent with ⟨rfl, ends⟩
      exact .cons ends (ih (List.cons_ne_nil next rest) others)

theorem layOut_blamesCaller (start : Instant) (stop : Boundary)
    (replacements : List (Replacement α)) :
    Program.BlamesCaller (layOut start stop replacements) := by
  induction replacements generalizing start with
  | nil => exact .ok
  | cons r rest ih =>
    cases rest with
    | nil => exact (Program.BlamesCaller.between _ _).bind fun i _ => .ok
    | cons next rest =>
      refine (Program.BlamesCaller.between _ _).bind fun i _ => ?_
      exact (ih next.start).bind fun laid _ => .ok

/-! ## Plans that suit a slice -/

/-- The version intervals that a plan would leave, in no particular order. -/
def outlook (active : List (Record α)) (plan : Plan α) : List Interval :=
  (active.filter fun r => !plan.closes.contains r.id).map Record.version ++
    plan.inserts.map Pending.version

/-- A plan closes records of a slice only, inserts something and leaves no overlap. -/
structure Suits (plan : Plan α) (active : List (Record α)) : Prop where
  closes_active : ∀ id ∈ plan.closes, ∃ r ∈ active, r.id = id
  inserts_ne_nil : plan.inserts ≠ []
  apart : (plan.outlook active).Pairwise (fun i j => i.overlaps j = false)

/-- A plan closes some records of a slice and lays a run over a span that no other record of the
slice shares. -/
structure Lays (plan : Plan α) (active closed : List (Record α)) (start : Instant)
    (stop : Boundary) : Prop where
  closes_eq : plan.closes = closed.map Record.id
  closed_active : ∀ r ∈ closed, r ∈ active
  spans : Spans start stop (plan.inserts.map Pending.version)
  clear : ∀ r ∈ active, r ∉ closed → r.version.stop ≤ .finite start ∨
    stop ≤ .finite r.version.start

/-- A plan that lays a run over records of the slice suits the slice. -/
theorem Lays.suits (lays : plan.Lays active closed start stop)
    (tiled : IsTiling (active.map Record.version)) : plan.Suits active where
  closes_active := by
    intro id member
    rw [lays.closes_eq] at member
    rcases List.mem_map.mp member with ⟨r, listed, rfl⟩
    exact ⟨r, lays.closed_active r listed, rfl⟩
  inserts_ne_nil empty := lays.spans.ne_nil (by rw [empty, List.map_nil])
  apart := by
    have kept : ((active.filter fun r => !plan.closes.contains r.id).map Record.version).Sublist
        (active.map Record.version) := List.Sublist.map _ List.filter_sublist
    rw [outlook, List.pairwise_append]
    refine ⟨tiled.not_overlaps.sublist kept, lays.spans.tiling.not_overlaps, ?_⟩
    intro i keeps j inserted
    rcases List.mem_map.mp keeps with ⟨r, member, rfl⟩
    rcases List.mem_filter.mp member with ⟨listed, spared⟩
    rw [Bool.not_eq_true', List.contains_eq_mem, decide_eq_false_iff_not, lays.closes_eq]
      at spared
    have other : r ∉ closed := fun here => spared (List.mem_map_of_mem here)
    rcases lays.spans.within j inserted with ⟨later, sooner⟩
    rw [Interval.overlaps_eq_false_iff]
    rcases lays.clear r listed other with before | after
    · exact .inl (before.trans later)
    · exact .inr (sooner.trans after)

/-- The check of a plan that suits the slice passes, or else finds a gap. -/
theorem Suits.check_cases (suits : plan.Suits active) (object : ObjectId) :
    plan.check object active = .ok () ∧ IsTiling (plan.result active) ∨
      ∃ i j, plan.check object active = .error (.nonExactRange object (.gap i j)) := by
  unfold check
  cases found : Misfit.first? id (plan.result active) with
  | none =>
    have tiling := Misfit.first?_eq_none_iff.mp found
    rw [List.map_id] at tiling
    exact .inl ⟨rfl, tiling⟩
  | some finding =>
    rcases finding with ⟨misfit, i, j⟩
    cases misfit with
    | gap => exact .inr ⟨i, j, rfl⟩
    | overlap => exact absurd found (Misfit.first?_ne_overlap suits.apart)

/-! ## Exact replaces -/

/-- The run up to `stop` is a prefix of the slice, and tiles the range from its
first start up to there. -/
theorem runUpTo?_eq_some {l run : List (Record α)} (tiled : IsTiling (l.map Record.version))
    (found : runUpTo? stop l = some run) :
    ∃ first rest, l.head? = some first ∧ l = run ++ rest ∧
      Spans first.version.start stop (run.map Record.version) := by
  induction l generalizing run with
  | nil => cases found
  | cons r rest ih =>
    unfold runUpTo? at found
    split at found
    · cases found
    · split at found
      · rename_i ends
        cases found
        subst ends
        exact ⟨r, rest, rfl, rfl, .single r.version⟩
      · cases others : runUpTo? stop rest with
        | none =>
          rw [others] at found
          cases found
        | some run' =>
          rw [others] at found
          cases found
          rcases ih tiled.tail others with ⟨next, rest', head, shape, spans⟩
          rcases List.head?_eq_some_iff.mp head with ⟨later, split⟩
          have meets : r.version.Meets next.version := by
            rw [split, List.map_cons, List.map_cons] at tiled
            exact (List.isChain_cons_cons.mp tiled).1
          exact ⟨r, rest', rfl, by rw [shape, List.cons_append], .cons meets spans⟩

/-- What is left after the records that start elsewhere starts there. -/
theorem start_of_dropWhile {start : Instant} {r : Record α} {rest : List (Record α)}
    (dropped : active.dropWhile (fun r => r.version.start ≠ start) = r :: rest) :
    r.version.start = start := by
  have stopped :=
    List.head?_dropWhile_not (fun r : Record α => decide (r.version.start ≠ start)) active
  rw [dropped] at stopped
  simpa using stopped

/-- A run that is found in a tiling, from one instant up to another, tiles the time between. -/
theorem exists_run_eq {target : Interval} {r : Record α} {rest closed : List (Record α)}
    (tiled : IsTiling (active.map Record.version))
    (dropped : active.dropWhile (fun r => r.version.start ≠ target.start) = r :: rest)
    (found : runUpTo? target.stop (r :: rest) = some closed) :
    ∃ before after, active = before ++ (closed ++ after) ∧
      Spans target.start target.stop (closed.map Record.version) := by
  have shape := List.takeWhile_append_dropWhile
    (p := fun r : Record α => r.version.start ≠ target.start) (l := active)
  rw [dropped] at shape
  have later : IsTiling ((r :: rest).map Record.version) := by
    rw [← shape, List.map_append] at tiled
    exact tiled.right_of_append
  rcases runUpTo?_eq_some later found with ⟨first, after, head, run_eq, spans⟩
  cases head
  rw [start_of_dropWhile dropped] at spans
  rw [run_eq] at shape
  exact ⟨_, after, shape.symm, spans⟩

/-- An exact replace closes the run of records that tiles the target. -/
theorem exactReplace_eq_ok {target : Interval} (tiled : IsTiling (active.map Record.version))
    (planned : exactReplace object active target replacements = .ok plan) :
    ∃ before closed after, active = before ++ (closed ++ after) ∧
      Spans target.start target.stop (closed.map Record.version) ∧
      plan.closes = closed.map Record.id ∧
      layOut target.start target.stop replacements = .ok plan.inserts := by
  unfold exactReplace at planned
  split at planned
  · cases planned
  · rename_i r rest dropped
    split at planned
    · rename_i closed found
      rcases Program.exists_of_bind_eq_ok planned with ⟨laid, made, done⟩
      cases done
      rcases exists_run_eq tiled dropped found with ⟨before, after, split, spans⟩
      exact ⟨before, closed, after, split, spans, rfl, made⟩
    · cases planned

/-- An exact replacement lays its target, from boundary to boundary, over the
records that it closes. -/
theorem exactReplace_lays {target : Interval} (nonempty : replacements ≠ [])
    (tiled : IsTiling (active.map Record.version))
    (planned : exactReplace object active target replacements = .ok plan) :
    ∃ closed, plan.Lays active closed target.start target.stop ∧
      Spans target.start target.stop (closed.map Record.version) := by
  rcases exactReplace_eq_ok tiled planned with ⟨before, closed, after, rfl, spans, closes, made⟩
  rcases spans.clear_of_tiling tiled with ⟨clearBefore, clearAfter⟩
  refine ⟨closed, ⟨closes, fun r member => ?_, layOut_spans nonempty made,
    fun r listed other => ?_⟩, spans⟩
  · exact List.mem_append_right before (List.mem_append_left after member)
  · rcases List.mem_append.mp listed with early | late
    · exact .inl (clearBefore r early)
    · exact .inr (clearAfter r ((List.mem_append.mp late).resolve_left other))

theorem exactReplace_blamesCaller (object : ObjectId) (active : List (Record α))
    (target : Interval) (replacements : List (Replacement α)) :
    Program.BlamesCaller (exactReplace object active target replacements) := by
  unfold exactReplace
  split
  · exact .error rfl
  · split
    · exact (layOut_blamesCaller _ _ _).bind fun laid _ => .ok
    · exact .error rfl

/-! ## Single replaces -/

/-- A record that is replaced alone was current, and its replacements are laid
over its own interval. -/
theorem singleReplace_eq_ok {record : Record α}
    (planned : singleReplace record replacements = .ok plan) :
    record.supersededAt? = none ∧ replacements ≠ [] ∧ plan.closes = [record.id] ∧
      layOut record.version.start record.version.stop replacements = .ok plan.inserts := by
  unfold singleReplace at planned
  split at planned
  · cases planned
  · rename_i current
    rcases Program.exists_of_bind_eq_ok planned with ⟨⟨⟩, starts, planned⟩
    rcases Program.exists_of_bind_eq_ok planned with ⟨⟨⟩, -, planned⟩
    rcases Program.exists_of_bind_eq_ok planned with ⟨⟨⟩, -, planned⟩
    rcases Program.exists_of_bind_eq_ok planned with ⟨laid, made, done⟩
    cases done
    have nonempty : replacements ≠ [] := by
      intro empty
      rw [empty] at starts
      cases starts
    exact ⟨current, nonempty, rfl, made⟩

/-- A single replacement closes one record and lays its replacements in its place. -/
theorem singleReplace_lays {record : Record α} (tiled : IsTiling (active.map Record.version))
    (listed : record ∈ active) (planned : singleReplace record replacements = .ok plan) :
    plan.Lays active [record] record.version.start record.version.stop := by
  rcases singleReplace_eq_ok planned with ⟨-, nonempty, closes, made⟩
  refine ⟨closes, fun r member => ?_, layOut_spans nonempty made, fun r other distinct => ?_⟩
  · rw [List.mem_singleton.mp member]
    exact listed
  · exact tiled.before_or_before other listed fun same => distinct (List.mem_singleton.mpr same)

theorem checkStart_blamesCaller (record : Record α) (replacements : List (Replacement α)) :
    Program.BlamesCaller (checkStart record replacements) := by
  unfold checkStart
  split
  · exact .error rfl
  · split
    · exact .ok
    · exact .error rfl

theorem checkInside_blamesCaller (record : Record α) (replacements : List (Replacement α)) :
    Program.BlamesCaller (checkInside record replacements) := by
  unfold checkInside
  split
  · exact .error rfl
  · exact .ok

theorem checkStop_blamesCaller (record : Record α) (replacements : List (Replacement α)) :
    Program.BlamesCaller (checkStop record replacements) := by
  unfold checkStop
  split
  · split
    · exact .ok
    · exact .error rfl
  · exact .ok

theorem singleReplace_blamesCaller (record : Record α) (replacements : List (Replacement α)) :
    Program.BlamesCaller (singleReplace record replacements) := by
  unfold singleReplace
  split
  · exact .error rfl
  · refine (checkStart_blamesCaller record replacements).bind fun _ _ => ?_
    refine (checkInside_blamesCaller record replacements).bind fun _ _ => ?_
    refine (checkStop_blamesCaller record replacements).bind fun _ _ => ?_
    exact (layOut_blamesCaller _ _ _).bind fun laid _ => .ok

/-! ## Splices -/

section Remnants

variable {run : List Interval}

/-- With the remnant before it, what is laid over the span reaches back to where the overlapped
records start. -/
theorem headRemnant_spans {before : List (Pending α)}
    (ordered : overlapped.Pairwise fun r s => r.version.Before s.version)
    (made : headRemnant span overlapped = .ok before) (spans : Spans span.start stop run) :
    ∃ start, Spans start stop (before.map Pending.version ++ run) ∧
      (∀ r ∈ overlapped, start ≤ r.version.start) ∧
      (start = span.start ∨ ∃ head ∈ overlapped, start = head.version.start) := by
  cases overlapped with
  | nil =>
    cases made
    exact ⟨span.start, spans, nofun, .inl rfl⟩
  | cons head rest =>
    have least : ∀ r ∈ head :: rest, head.version.start ≤ r.version.start := by
      intro r member
      rcases List.mem_cons.mp member with rfl | later
      · exact le_rfl
      · exact (List.rel_of_pairwise_cons ordered later).start_lt.le
    unfold headRemnant at made
    dsimp only [List.head?_cons] at made
    split at made
    · rcases Program.exists_of_bind_eq_ok made with ⟨i, extent, done⟩
      cases done
      rcases Interval.between_eq_ok_iff.mp extent with ⟨starts, stops⟩
      refine ⟨head.version.start, ?_, least, .inr ⟨head, List.mem_cons_self, rfl⟩⟩
      rw [← starts]
      exact .cons stops spans
    · rename_i inside
      cases made
      exact ⟨span.start, spans, fun r member => (not_lt.mp inside).trans (least r member),
        .inl rfl⟩

/-- With the remnant after it, what is laid over the span reaches on to where the overlapped
records end. -/
theorem tailRemnant_spans {after : List (Pending α)}
    (ordered : overlapped.Pairwise fun r s => r.version.Before s.version)
    (made : tailRemnant span overlapped = .ok after) (spans : Spans start span.stop run) :
    ∃ stop, Spans start stop (run ++ after.map Pending.version) ∧
      (∀ r ∈ overlapped, r.version.stop ≤ stop) ∧
      (stop = span.stop ∨ ∃ tail ∈ overlapped, stop = tail.version.stop) := by
  rcases overlapped.eq_nil_or_concat' with rfl | ⟨rest, tail, rfl⟩
  · cases made
    exact ⟨span.stop, by rwa [List.map_nil, List.append_nil], nofun, .inl rfl⟩
  · have greatest : ∀ r ∈ rest ++ [tail], r.version.stop ≤ tail.version.stop := by
      intro r member
      rcases List.mem_append.mp member with earlier | here
      · have before := (List.pairwise_append.mp ordered).2.2 r earlier tail
          (List.mem_singleton_self tail)
        exact le_trans before tail.version.start_lt_stop.le
      · rw [List.mem_singleton.mp here]
    unfold tailRemnant at made
    rw [List.getLast?_concat] at made
    cases ends : span.stop with
    | unbounded =>
      rw [ends] at made spans
      cases made
      exact ⟨.unbounded, by rwa [List.map_nil, List.append_nil], fun _ _ => Boundary.le_unbounded,
        .inl rfl⟩
    | finite stop =>
      rw [ends] at made spans
      dsimp only at made
      split at made
      · rcases Program.exists_of_bind_eq_ok made with ⟨i, extent, done⟩
        cases done
        rcases Interval.between_eq_ok_iff.mp extent with ⟨starts, stops⟩
        refine ⟨tail.version.stop, ?_, greatest, .inr ⟨tail, by simp, rfl⟩⟩
        rw [← starts] at spans
        rw [← stops]
        exact spans.append (.single i)
      · rename_i inside
        cases made
        refine ⟨.finite stop, by rwa [List.map_nil, List.append_nil], fun r member => ?_,
          .inl rfl⟩
        exact (greatest r member).trans (not_lt.mp inside)

end Remnants

theorem headRemnant_blamesCaller (span : Interval) (overlapped : List (Record α)) :
    Program.BlamesCaller (headRemnant span overlapped) := by
  unfold headRemnant
  split
  · split
    · exact (Program.BlamesCaller.between _ _).bind fun i _ => .ok
    · exact .ok
  · exact .ok

theorem tailRemnant_blamesCaller (span : Interval) (overlapped : List (Record α)) :
    Program.BlamesCaller (tailRemnant span overlapped) := by
  unfold tailRemnant
  split
  · split
    · exact (Program.BlamesCaller.between _ _).bind fun i _ => .ok
    · exact .ok
  · exact .ok

theorem span_eq_ok (covered : Plan.span replacements = .ok span) :
    ∃ first, replacements.head? = some first ∧ span.start = first.start ∧ replacements ≠ [] := by
  unfold Plan.span at covered
  split at covered
  · rename_i first last head _
    refine ⟨first, head, (Interval.between_eq_ok_iff.mp covered).1, ?_⟩
    intro empty
    rw [empty] at head
    cases head
  · cases covered

theorem span_blamesCaller (replacements : List (Replacement α)) :
    Program.BlamesCaller (Plan.span replacements) := by
  unfold Plan.span
  split
  · exact .between _ _
  · exact .error rfl

/-- The parts of a splice: its span, what is left of the records at both ends, and
what is laid between. -/
theorem splice_eq_ok (planned : splice active replacements = .ok plan) :
    ∃ span before laid after, Plan.span replacements = .ok span ∧
      headRemnant span (active.filter fun r => r.version.overlaps span) = .ok before ∧
      layOut span.start span.stop replacements = .ok laid ∧
      tailRemnant span (active.filter fun r => r.version.overlaps span) = .ok after ∧
      plan.closes = (active.filter fun r => r.version.overlaps span).map Record.id ∧
      plan.inserts = before ++ laid ++ after := by
  rcases Program.exists_of_bind_eq_ok planned with ⟨span, covered, planned⟩
  rcases Program.exists_of_bind_eq_ok planned with ⟨before, head, planned⟩
  rcases Program.exists_of_bind_eq_ok planned with ⟨laid, made, planned⟩
  rcases Program.exists_of_bind_eq_ok planned with ⟨after, tail, done⟩
  cases done
  exact ⟨span, before, laid, after, covered, head, made, tail, rfl, rfl⟩

/-- What a splice inserts spans the range of the replacements and the remnants on both sides.  A
record that does not overlap the range lies beyond the remnants too, for it does not overlap the
record that they are cut from. -/
theorem splice_lays (tiled : IsTiling (active.map Record.version))
    (planned : splice active replacements = .ok plan) :
    ∃ closed start stop, plan.Lays active closed start stop ∧
      ∀ r ∈ closed, start ≤ r.version.start ∧ r.version.stop ≤ stop := by
  rcases splice_eq_ok planned with
      ⟨span, before, laid, after, covered, head, made, tail, closes, inserts⟩
  rcases span_eq_ok covered with ⟨-, -, -, nonempty⟩
  have ordered := (List.pairwise_map.mp tiled.pairwise).filter fun r => r.version.overlaps span
  have middle := layOut_spans nonempty made
  rcases headRemnant_spans ordered head middle with ⟨start, leftSpans, leftmost, startsAt⟩
  rcases tailRemnant_spans ordered tail leftSpans with ⟨stop, spans, rightmost, stopsAt⟩
  have apart : ∀ r ∈ active, r.version.overlaps span = false →
      ∀ s ∈ active.filter (fun r => r.version.overlaps span),
        r.version.overlaps s.version = false := by
    intro r listed clear s member
    rcases List.mem_filter.mp member with ⟨listed', overlaps⟩
    refine Interval.overlaps_eq_false_iff.mpr (tiled.before_or_before listed listed' ?_)
    intro same
    rw [same, overlaps] at clear
    cases clear
  refine ⟨_, start, stop, ⟨closes, fun r => List.mem_of_mem_filter, ?_, fun r listed kept => ?_⟩,
    fun r member => ⟨leftmost r member, rightmost r member⟩⟩
  · rw [inserts, List.map_append, List.map_append]
    exact spans
  · have clear : r.version.overlaps span = false := by
      rw [Bool.eq_false_iff]
      exact fun overlaps => kept (List.mem_filter.mpr ⟨listed, overlaps⟩)
    rcases Interval.overlaps_eq_false_iff.mp clear with early | late
    · left
      rcases startsAt with rfl | ⟨first, member, rfl⟩
      · exact early
      · exact early.before_of_overlaps (List.mem_filter.mp member).2
          (apart r listed clear first member)
    · right
      rcases stopsAt with rfl | ⟨last, member, rfl⟩
      · exact late
      · exact late.before_of_overlaps_right (List.mem_filter.mp member).2
          (apart r listed clear last member)

/-- A splice inserts a record that starts where the first replacement does. -/
theorem exists_start_of_splice {first : Replacement α} {rest : List (Replacement α)}
    (planned : splice active (first :: rest) = .ok plan) :
    ∃ p ∈ plan.inserts, p.version.start = first.start := by
  rcases splice_eq_ok planned with ⟨span, before, laid, after, covered, -, made, -, -, inserts⟩
  rcases span_eq_ok covered with ⟨first', head, starts, nonempty⟩
  cases head
  rcases (layOut_spans nonempty made).exists_cons with ⟨i, others, shape, starts'⟩
  have member : i ∈ laid.map Pending.version := by
    rw [shape]
    exact List.mem_cons_self
  rcases List.mem_map.mp member with ⟨p, listed, rfl⟩
  refine ⟨p, ?_, starts'.trans starts⟩
  rw [inserts]
  exact List.mem_append_left after (List.mem_append_right before listed)

theorem splice_blamesCaller (active : List (Record α)) (replacements : List (Replacement α)) :
    Program.BlamesCaller (splice active replacements) := by
  refine (span_blamesCaller replacements).bind fun span _ => ?_
  refine (headRemnant_blamesCaller span _).bind fun before _ => ?_
  refine (layOut_blamesCaller _ _ _).bind fun laid _ => ?_
  exact (tailRemnant_blamesCaller span _).bind fun after _ => .ok

/-! ## Terminations and creations -/

/-- A termination cuts the last record, which has no end, and keeps its payload. -/
theorem terminate_eq_ok {instant : Instant}
    (planned : terminate object active instant = .ok plan) :
    ∃ latest extent, active.getLast? = some latest ∧ latest.version.isOpen = true ∧
      latest.version.withStop (.finite instant) = .ok extent ∧
      plan = ⟨[latest.id], [⟨extent, latest.payload⟩]⟩ := by
  unfold terminate at planned
  split at planned
  · cases planned
  · rename_i latest last
    by_cases open_ : latest.version.isOpen = true
    · rw [open_] at planned
      split at planned
      · cases planned
      · rcases Program.exists_of_bind_eq_ok planned with ⟨i, extent, done⟩
        cases done
        exact ⟨latest, i, last, open_, extent, rfl⟩
    · rw [Bool.not_eq_true] at open_
      rw [open_] at planned
      cases planned

/-- A termination lays the last record anew, up to the instant given. -/
theorem terminate_lays {instant : Instant} (tiled : IsTiling (active.map Record.version))
    (planned : terminate object active instant = .ok plan) :
    ∃ latest, active.getLast? = some latest ∧ latest.version.isOpen = true ∧
      plan.Lays active [latest] latest.version.start (.finite instant) := by
  rcases terminate_eq_ok planned with ⟨latest, extent, last, isOpen, cut, rfl⟩
  have listed : latest ∈ active := List.mem_of_getLast? last
  rcases Interval.between_eq_ok_iff.mp cut with ⟨starts, stops⟩
  refine ⟨latest, last, isOpen, ⟨rfl, fun r member => ?_, ?_, fun r other distinct => ?_⟩⟩
  · rw [List.mem_singleton.mp member]
    exact listed
  · rw [← starts, ← stops]
    exact .single extent
  · rcases tiled.before_or_before other listed fun same =>
      distinct (List.mem_singleton.mpr same) with before | after
    · exact .inl before
    · -- Nothing comes after an open record.
      unfold Interval.Before at after
      rw [Boundary.eq_unbounded_iff.mp isOpen] at after
      exact absurd after Boundary.not_unbounded_le

theorem terminate_blamesCaller (object : ObjectId) (active : List (Record α))
    (instant : Instant) : Program.BlamesCaller (terminate object active instant) := by
  unfold terminate
  split
  · exact .error rfl
  · dsimp only
    split
    · exact .bind (.error rfl) nofun
    · split
      · exact .bind (.error rfl) nofun
      · exact (Program.BlamesCaller.between _ _).bind fun i _ => .ok

/-- The plan for a first record lays it over nothing. -/
theorem create_lays (pending : Pending α) :
    Plan.Lays ⟨[], [pending]⟩ ([] : List (Record α))
      [] pending.version.start pending.version.stop :=
  ⟨rfl, nofun, .single pending.version, nofun⟩

/-! ## Stamped plans -/

/-- Records of the own object can be closed in a batch, each of them once. -/
theorem closeAll_eq_ok {b : Batch α} {ids : List RecordId}
    (own : ∀ id ∈ ids, id.object = b.object) :
    ∃ b', b.closeAll ids = .ok b' ∧ b'.object = b.object ∧ b'.stamp = b.stamp ∧
      b'.inserts = b.inserts ∧ ∀ id, id ∈ b'.closes ↔ id ∈ b.closes ∨ id ∈ ids := by
  induction ids generalizing b with
  | nil => exact ⟨b, rfl, rfl, rfl, rfl, by simp⟩
  | cons id rest ih =>
    have step : ∃ b', b.close id = .ok b' ∧ b'.object = b.object ∧ b'.stamp = b.stamp ∧
        b'.inserts = b.inserts ∧ ∀ other, other ∈ b'.closes ↔ other ∈ b.closes ∨ other = id := by
      unfold Batch.close
      rw [dif_pos (own id List.mem_cons_self)]
      split
      · rename_i listed
        refine ⟨b, rfl, rfl, rfl, rfl, fun other => ?_⟩
        constructor
        · exact Or.inl
        · intro h
          rcases h with old | rfl
          · exact old
          · exact listed
      · exact ⟨_, rfl, rfl, rfl, rfl, fun other => by simp⟩
    rcases step with ⟨mid, first, object, stamp, inserts, closes⟩
    have own' : ∀ other ∈ rest, other.object = mid.object := by
      intro other member
      rw [object]
      exact own other (List.mem_cons_of_mem id member)
    rcases ih own' with ⟨b', others, object', stamp', inserts', closes'⟩
    refine ⟨b', ?_, object'.trans object, stamp'.trans stamp, inserts'.trans inserts,
      fun other => ?_⟩
    · unfold Batch.closeAll
      rw [List.foldlM_cons, first]
      exact others
    · rw [closes' other, closes other, List.mem_cons, or_assoc]

/-- A plan that closes records of the object only can be stamped. -/
theorem toBatch_eq_ok (own : ∀ id ∈ plan.closes, id.object = object) (stamp : Instant) :
    ∃ b, plan.toBatch object stamp = .ok b ∧ b.object = object ∧ b.stamp = stamp ∧
      b.inserts = plan.inserts ∧ ∀ id, id ∈ b.closes ↔ id ∈ plan.closes := by
  rcases closeAll_eq_ok (b := .empty object stamp) own with
      ⟨b, closed, object', stamp', inserts, closes⟩
  refine ⟨b.insertAll plan.inserts, ?_, object', stamp', ?_, fun id => ?_⟩
  · unfold toBatch
    rw [closed]
    rfl
  · unfold Batch.insertAll
    rw [inserts]
    exact List.nil_append _
  · refine (closes id).trans ?_
    simp [Batch.empty]

end Plan

end Bitemporal
