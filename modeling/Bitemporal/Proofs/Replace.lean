import Bitemporal.Proofs.LayOut
import Mathlib.Data.List.TakeWhile

/-!
# Replaces, exactly

An exact replace finds its run in a tiling exactly if both ends of the target are ends of records
there (`Plan.exactReplace_of_aligned`, `Plan.exactReplace_of_not_aligned`).  A single replace goes
through its checks in turn: `Plan.singleReplace_of_superseded`, `Plan.singleReplace_of_start_ne`
and `Plan.singleReplace_of_misfits`.  What passes them all can be laid out
(`Plan.exists_singleReplace`), so there is no other way to fail.
-/

namespace Bitemporal.Plan

variable {α : Type} {object : ObjectId} {active before closed after : List (Record α)}
    {target : Interval}
  {replacements : List (Replacement α)}

/-! ## Exact replaces -/

/-- Some record of a slice starts where a target does, and some record ends where it does. -/
def Aligned (active : List (Record α)) (target : Interval) : Prop :=
  (∃ r ∈ active, r.version.start = target.start) ∧ ∃ r ∈ active, r.version.stop = target.stop

/-- In a tiling there is a run up to the end of any member. -/
theorem exists_runUpTo? {l : List (Record α)} {s : Record α}
    (tiled : IsTiling (l.map Record.version)) (listed : s ∈ l) :
    ∃ run, runUpTo? s.version.stop l = some run := by
  induction l with
  | nil => cases listed
  | cons r rest ih =>
    have ordered := List.pairwise_map.mp tiled.pairwise
    have upTo : r.version.stop ≤ s.version.stop := by
      rcases List.mem_cons.mp listed with rfl | later
      · exact le_rfl
      · have first : r.version.Before s.version := List.rel_of_pairwise_cons ordered later
        exact le_trans first s.version.start_lt_stop.le
    unfold runUpTo?
    rw [if_neg upTo.not_gt]
    by_cases here : r.version.stop = s.version.stop
    · exact ⟨_, if_pos here⟩
    · rw [if_neg here]
      have later : s ∈ rest :=
        (List.mem_cons.mp listed).resolve_left fun same => here (same ▸ rfl)
      rcases ih tiled.tail later with ⟨run, found⟩
      exact ⟨r :: run, by rw [found, Option.map_some]⟩

/-- In a tiling the run of an aligned target is found. -/
theorem Aligned.exists_run (aligned : Aligned active target)
    (tiled : IsTiling (active.map Record.version)) :
    ∃ r rest run, active.dropWhile (fun r => r.version.start ≠ target.start) = r :: rest ∧
      runUpTo? target.stop (r :: rest) = some run := by
  rcases aligned with ⟨⟨s, startListed, starts⟩, ⟨s', stopListed, stops⟩⟩
  have shape := List.takeWhile_append_dropWhile
    (p := fun r : Record α => r.version.start ≠ target.start) (l := active)
  cases dropped : active.dropWhile (fun r => r.version.start ≠ target.start) with
  | nil =>
    have missed := List.dropWhile_eq_nil_iff.mp dropped s startListed
    simp [starts] at missed
  | cons r rest =>
    rw [dropped] at shape
    rw [← shape] at tiled stopListed
    have inRest : s' ∈ r :: rest := by
      rcases List.mem_append.mp stopListed with early | here
      · -- The record that ends with the target does not end before it starts.
        have ordered := List.pairwise_append.mp (List.pairwise_map.mp tiled.pairwise)
        have before : s'.version.Before r.version := ordered.2.2 s' early r List.mem_cons_self
        rw [Interval.Before, stops, start_of_dropWhile dropped] at before
        exact absurd before target.start_lt_stop.not_ge
      · exact here
    rw [List.map_append] at tiled
    rcases exists_runUpTo? tiled.right_of_append inRest with ⟨run, found⟩
    exact ⟨r, rest, run, rfl, stops ▸ found⟩

/-- The ends of a run of records are ends of records. -/
theorem aligned_of_spans (spans : Spans target.start target.stop (closed.map Record.version)) :
    Aligned (before ++ (closed ++ after)) target := by
  have listed {r : Record α} (member : r ∈ closed) : r ∈ before ++ (closed ++ after) :=
    List.mem_append_right before (List.mem_append_left after member)
  rcases spans.exists_start with ⟨i, first, starts⟩
  rcases spans.exists_stop with ⟨j, last, stops⟩
  rcases List.mem_map.mp first with ⟨r, inRun, rfl⟩
  rcases List.mem_map.mp last with ⟨s, inRun', rfl⟩
  exact ⟨⟨r, listed inRun, starts⟩, ⟨s, listed inRun', stops⟩⟩

/-- The records of a tiling from one end of an aligned target to the other are replaced by what is
laid over it. -/
theorem exactReplace_of_aligned (tiled : IsTiling (active.map Record.version))
    (aligned : Aligned active target) :
    ∃ before closed after, active = before ++ (closed ++ after) ∧
      Spans target.start target.stop (closed.map Record.version) ∧
      ∀ object (replacements : List (Replacement α)),
        exactReplace object active target replacements =
          (layOut target.start target.stop replacements).map
            (Plan.mk (closed.map Record.id)) := by
  rcases aligned.exists_run tiled with ⟨r, rest, closed, dropped, found⟩
  rcases exists_run_eq tiled dropped found with ⟨before, after, split, spans⟩
  refine ⟨before, closed, after, split, spans, fun object replacements => ?_⟩
  unfold exactReplace
  rw [dropped]
  dsimp only
  rw [found]
  dsimp only
  cases layOut target.start target.stop replacements <;> rfl

/-- A target that is not aligned is refused. -/
theorem exactReplace_of_not_aligned (tiled : IsTiling (active.map Record.version))
    (misaligned : ¬ Aligned active target) (object : ObjectId)
    (replacements : List (Replacement α)) :
    ∃ cause, exactReplace object active target replacements =
      .error (.nonExactRange object cause) := by
  unfold exactReplace
  split
  · exact ⟨_, rfl⟩
  · rename_i r rest dropped
    split
    · rename_i run found
      rcases exists_run_eq tiled dropped found with ⟨before, after, rfl, spans⟩
      exact absurd (aligned_of_spans spans) misaligned
    · exact ⟨_, rfl⟩

/-- Of a tiling the target of an exact replace encloses just the records that are replaced. -/
theorem encloses_iff (tiled : IsTiling ((before ++ (closed ++ after)).map Record.version))
    (spans : Spans target.start target.stop (closed.map Record.version)) {r : Record α}
    (listed : r ∈ before ++ (closed ++ after)) :
    target.encloses r.version = true ↔ r ∈ closed := by
  unfold Interval.encloses
  rw [Bool.and_eq_true, decide_eq_true_iff, decide_eq_true_iff]
  constructor
  · intro h
    rcases h with ⟨left, right⟩
    rcases spans.clear_of_tiling tiled with ⟨clearBefore, clearAfter⟩
    rcases List.mem_append.mp listed with early | listed
    · have before : r.version.start < target.start :=
        Boundary.finite_lt_finite.mp (r.version.start_lt_stop.trans_le (clearBefore r early))
      exact absurd left before.not_ge
    · rcases List.mem_append.mp listed with here | late
      · exact here
      · have beyond : target.stop < r.version.stop :=
          (clearAfter r late).trans_lt r.version.start_lt_stop
        exact absurd right beyond.not_ge
  · intro member
    exact spans.within r.version (List.mem_map_of_mem member)

/-! ## Single replaces -/

/-- Replacements of a record that start where it starts do not fit into it: one starts at its end
or beyond, or else the last one has an end of its own that is not the end of the record. -/
def Misfits (record : Record α) (replacements : List (Replacement α)) : Prop :=
  (∃ r ∈ replacements, record.version.stop ≤ .finite r.start) ∨
    ∃ last stop, replacements.getLast? = some last ∧ last.stop = some stop ∧
      .finite stop ≠ record.version.stop

variable {record : Record α}

/-- Either every replacement starts inside the record, or one of them is blamed that does not. -/
theorem checkInside_cases (record : Record α) (replacements : List (Replacement α)) :
    (checkInside record replacements = .ok () ∧
      ∀ r ∈ replacements, .finite r.start < record.version.stop) ∨
      ∃ r ∈ replacements, record.version.stop ≤ .finite r.start ∧
        checkInside record replacements =
          .error (.boundaryMismatch record.version.stop (.finite r.start)) := by
  unfold checkInside
  cases found : replacements.find? (fun r => record.version.stop ≤ .finite r.start) with
  | none =>
    refine .inl ⟨rfl, fun r member => ?_⟩
    have inside := List.find?_eq_none.mp found r member
    simpa using inside
  | some outside =>
    have beyond := List.find?_some found
    exact .inr ⟨outside, List.mem_of_find?_eq_some found, by simpa using beyond, rfl⟩

/-- Either the last replacement ends with the record, or it is blamed. -/
theorem checkStop_cases (record : Record α) (replacements : List (Replacement α)) :
    (checkStop record replacements = .ok () ∧
      ∀ last stop, replacements.getLast? = some last → last.stop = some stop →
        .finite stop = record.version.stop) ∨
      ∃ last stop, replacements.getLast? = some last ∧ last.stop = some stop ∧
        .finite stop ≠ record.version.stop ∧
        checkStop record replacements =
          .error (.boundaryMismatch record.version.stop (.finite stop)) := by
  unfold checkStop
  cases found : replacements.getLast?.bind Replacement.stop with
  | none =>
    refine .inl ⟨rfl, fun last stop final ends => ?_⟩
    rw [final, Option.bind_some, ends] at found
    cases found
  | some stop =>
    rcases Option.bind_eq_some_iff.mp found with ⟨last, final, ends⟩
    by_cases same : .finite stop = record.version.stop
    · refine .inl ⟨if_pos same, fun last' stop' final' ends' => ?_⟩
      cases final.symm.trans final'
      cases ends.symm.trans ends'
      exact same
    · exact .inr ⟨last, stop, final, ends, same, if_neg same⟩

theorem singleReplace_of_superseded {instant : Instant}
    (superseded : record.supersededAt? = some instant) (replacements : List (Replacement α)) :
    singleReplace record replacements = .error (.staleVersion record.id instant) := by
  unfold singleReplace
  rw [superseded]
  rfl

theorem checkStart_eq {first : Replacement α} (head : replacements.head? = some first) :
    checkStart record replacements =
      if first.start = record.version.start then .ok ()
      else .error (.nonExactRange record.object
        (.startMismatch first.start record.id record.version.start)) := by
  rcases List.head?_eq_some_iff.mp head with ⟨rest, rfl⟩
  rfl

variable {first : Replacement α} (current : record.supersededAt? = none)
    (head : replacements.head? = some first)

include current head

theorem singleReplace_of_start_ne (elsewhere : first.start ≠ record.version.start) :
    singleReplace record replacements =
      .error (.nonExactRange record.object
        (.startMismatch first.start record.id record.version.start)) := by
  unfold singleReplace
  rw [current, checkStart_eq head, if_neg elsewhere]
  rfl

/-- Replacements that do not fit into the record are refused. -/
theorem singleReplace_of_misfits (starts : first.start = record.version.start)
    (misfits : Misfits record replacements) :
    ∃ actual, singleReplace record replacements =
      .error (.boundaryMismatch record.version.stop actual) := by
  unfold singleReplace
  rw [current, checkStart_eq head, if_pos starts]
  rcases checkInside_cases record replacements with ⟨inside, within⟩ | ⟨r, -, -, outside⟩
  · rcases checkStop_cases record replacements with ⟨-, ends⟩ | ⟨last, stop, -, -, -, mismatch⟩
    · rcases misfits with ⟨r, member, beyond⟩ | ⟨last, stop, final, explicit, other⟩
      · exact absurd beyond (within r member).not_ge
      · exact absurd (ends last stop final explicit) other
    · rw [inside, mismatch]
      exact ⟨_, rfl⟩
  · rw [outside]
    exact ⟨_, rfl⟩

omit head in
/-- Replacements that fit into the record can be laid over it. -/
theorem exists_singleReplace (run : Replacement.IsRun replacements)
    (head : replacements.head? = some first) (starts : first.start = record.version.start)
    (fits : ¬ Misfits record replacements) :
    ∃ laid, layOut record.version.start record.version.stop replacements = .ok laid ∧
      singleReplace record replacements = .ok ⟨[record.id], laid⟩ := by
  have inside : checkInside record replacements = .ok () ∧
      ∀ r ∈ replacements, .finite r.start < record.version.stop := by
    rcases checkInside_cases record replacements with passed | ⟨r, member, beyond, -⟩
    · exact passed
    · exact absurd (.inl ⟨r, member, beyond⟩) fits
  have ends : checkStop record replacements = .ok () := by
    rcases checkStop_cases record replacements with
        ⟨passed, -⟩ | ⟨last, stop, final, explicit, other, -⟩
    · exact passed
    · exact absurd (.inr ⟨last, stop, final, explicit, other⟩) fits
  have later : ∀ r ∈ replacements.tail, record.version.start < r.start ∧
      .finite r.start < record.version.stop := by
    intro r member
    refine ⟨?_, inside.2 r (List.mem_of_mem_tail member)⟩
    rcases List.head?_eq_some_iff.mp head with ⟨rest, rfl⟩
    exact starts ▸ List.rel_of_pairwise_cons run.ascends member
  rcases (exists_layOut_iff run.ne_nil run.ascends record.version.start_lt_stop).mpr later with
      ⟨laid, made⟩
  refine ⟨laid, made, ?_⟩
  unfold singleReplace
  rw [current, checkStart_eq head, if_pos starts, inside.1, ends, made]
  rfl

end Bitemporal.Plan
