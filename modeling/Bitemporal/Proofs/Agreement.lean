import Bitemporal.Proofs.Replace
import Bitemporal.Proofs.Splice

/-!
# The planners of replacements agree

An exact replace walks the slice from one boundary to another, a splice takes what overlaps its
span, and a single replace is given its record.  Where the replacements cover a target whose ends
are boundaries of the slice, the records that are walked over are those that overlap the target,
and nothing of them is left over on either side.  So the plans are the same
(`Plan.replaces_agree`), down to the order of what they close and insert.
-/

namespace Bitemporal

variable {α : Type}

/-- The version intervals of a partition are a tiling. -/
theorem Timeline.IsPartition.tiling {slice : List (Record α)}
    (partition : Timeline.IsPartition slice) :
    IsTiling (slice.map Record.version) := (List.isChain_map _).mpr partition.2

namespace Plan

variable {object : ObjectId} {slice : List (Record α)} {target : Interval}
    {replacements : List (Replacement α)}
  {record : Record α} {first last : Replacement α}

/-- A run of replacements fits into a record that ends where the run does. -/
theorem not_misfits_of_boundary (run : Replacement.IsRun replacements)
    (final : replacements.getLast? = some last) (stops : last.boundary = record.version.stop) :
    ¬ Misfits record replacements := by
  intro misfits
  rcases misfits with ⟨r, member, beyond⟩ | ⟨last', stop, final', explicit, other⟩
  · have inside := run.start_lt_boundary final r member
    rw [stops] at inside
    exact absurd beyond inside.not_ge
  · cases final.symm.trans final'
    rw [← stops, Replacement.boundary, explicit] at other
    exact other rfl

/-- In a slice that is a partition and current, let replacements cover a target from the start of
one record to the end of another.  An exact replace of the target and a splice are both planned,
and are the same plan.  If the target is the version interval of one record, that is the plan of a
single replace of the record too. -/
theorem replaces_agree {limit : Nat} (partition : Timeline.IsPartition slice)
    (current : ∀ r ∈ slice, r.isCurrent = true) (aligned : Aligned slice target)
    (valid : Replacement.validate replacements limit = .ok ())
    (head : replacements.head? = some first)
    (final : replacements.getLast? = some last) (starts : first.start = target.start)
    (stops : last.boundary = target.stop) (object : ObjectId) :
    ∃ plan, exactReplace object slice target replacements = .ok plan ∧
      splice slice replacements = .ok plan ∧
      ∀ r ∈ slice, r.version = target → singleReplace r replacements = .ok plan := by
  have run := (Replacement.validate_eq_ok_iff.mp valid).1
  have tiled := partition.tiling
  have covered : Plan.span replacements = .ok target := by
    rw [Plan.span, head, final]
    exact Interval.between_eq_ok_iff.mpr ⟨starts.symm, stops.symm⟩
  rcases exists_layOut_span run covered with ⟨laid, made⟩
  rcases exactReplace_of_aligned tiled aligned with ⟨before, closed, after, rfl, spans, exact_eq⟩
  refine ⟨⟨closed.map Record.id, laid⟩, ?_, ?_, fun r listed same => ?_⟩
  · rw [exact_eq, made]
    rfl
  · rw [splice_of_spans spans tiled covered, made]
    rfl
  · subst same
    -- The record alone tiles the target, so it is all that overlaps it.
    have alone : closed = [r] := by
      rw [← filter_overlaps_of_spans spans tiled]
      have single : Spans r.version.start r.version.stop ([r].map Record.version) :=
        .single r.version
      rcases List.append_of_mem listed with ⟨before', after', split⟩
      rw [split] at tiled ⊢
      exact filter_overlaps_of_spans single tiled
    have fits := not_misfits_of_boundary run final stops
    rcases exists_singleReplace
      (Record.supersededAt?_eq_none_iff.mpr (current r listed)) run head starts fits with
      ⟨laid', made', planned⟩
    cases made.symm.trans made'
    rw [planned, alone]
    rfl

/-- The middle one of three rents is cut in two, and all three planners plan that alike. -/
theorem replaces_agree_rents :
    let flat : ObjectId := ⟨"flat", "2"⟩
    let target : Interval := ⟨⟨10, by decide⟩, .finite ⟨20, by decide⟩, by decide⟩
    let rent : Record String := ⟨flat.atVersion "2", target, .openFrom ⟨5, by decide⟩, "130"⟩
    let slice : List (Record String) :=
      [⟨flat.atVersion "1", ⟨.epoch, .finite ⟨10, by decide⟩, by decide⟩,
        .openFrom ⟨3, by decide⟩, "120"⟩, rent,
          ⟨flat.atVersion "3", .openFrom ⟨20, by decide⟩, .openFrom ⟨5, by decide⟩, "140"⟩]
    let finer : List (Replacement String) :=
      [⟨"125", ⟨10, by decide⟩, none⟩, ⟨"135", ⟨15, by decide⟩, some ⟨20, by decide⟩⟩]
    Timeline.IsPartition slice ∧ Aligned slice target ∧ Replacement.validate finer 2 = .ok () ∧
      ∃ plan, exactReplace flat slice target finer = .ok plan ∧ splice slice finer = .ok plan ∧
        singleReplace rent finer = .ok plan := by
  intro flat target rent slice finer
  have partition : Timeline.IsPartition slice := by
    unfold Timeline.IsPartition
    decide
  have aligned : Aligned slice target := by
    unfold Aligned
    decide
  have valid : Replacement.validate finer 2 = .ok () := by decide
  rcases replaces_agree partition (by decide) aligned valid rfl rfl rfl rfl flat with
    ⟨plan, exact_eq, splice_eq, single_eq⟩
  exact ⟨partition, aligned, valid, plan, exact_eq, splice_eq, single_eq rent (by decide) rfl⟩

end Plan

end Bitemporal
