import Bitemporal.Proofs.Replace
import Bitemporal.Proofs.Splice

/-!
# Plans of updates, corrections and removals

All three change what is said from the last record of a slice on, or of one record.

* An update is the splice of one replacement without an end.  It closes the last record if it
  starts inside of it, and keeps the part of it before
  (`Plan.Splices.closed_eq_singleton_of_reaches`).
* A correction lays another payload over the very interval of a record
  (`Plan.content_eq_of_correction`).
* A removal cuts the last record off, which must be open (`Plan.terminate_of_open`), so what it
  leaves is the contents of the slice up to there (`Plan.content_eq_of_terminate`).
-/

namespace Bitemporal.Plan

variable {α : Type} {init : List (Record α)} {latest : Record α} {object : ObjectId} {t : Instant}
    {payload : α}

/-- In a tiling all records but the last have ended when that starts. -/
theorem before_last (tiled : IsTiling ((init ++ [latest]).map Record.version)) :
    ∀ r ∈ init, r.version.Before latest.version := fun r member =>
  (List.pairwise_append.mp (List.pairwise_map.mp tiled.pairwise)).2.2 r member latest
    (List.mem_singleton_self latest)

/-- What a slice covers ends where its last record does. -/
theorem stop_of_spans {start : Instant} {stop : Boundary}
    (spans : Spans start stop ((init ++ [latest]).map Record.version)) :
    latest.version.stop = stop := by
  rcases spans.exists_getLast with ⟨i, final, stops⟩
  rw [List.map_append, List.map_singleton, List.getLast?_concat] at final
  cases final
  exact stops

/-! ## Updates -/

/-- The one replacement of an update can be spliced. -/
theorem isRun_openFrom (payload : α) (start : Instant) :
    Replacement.IsRun [⟨payload, start, none⟩] where
  ne_nil := List.cons_ne_nil _ _
  chain := List.isChain_singleton _
  last_nonempty last final := by
    cases final
    exact Boundary.finite_lt_unbounded

namespace Splices

section OpenFrom

variable {plan : Plan α} {span : Interval} {before closed after : List (Record α)}
    {head laid tail : List (Pending α)}

/-- An update reaches beyond all records, and lays its payload from its start on. -/
theorem openFrom_eq
    (splices : plan.Splices [⟨payload, t, none⟩] span before closed after head laid tail) :
    span = .openFrom t ∧ after = [] ∧ laid = [⟨.openFrom t, payload⟩] ∧ tail = [] := by
  have covered : Plan.span [(⟨payload, t, none⟩ : Replacement α)] = .ok (.openFrom t) := rfl
  cases splices.span_eq.symm.trans covered
  refine ⟨rfl, ?_, ?_, ?_⟩
  · refine List.eq_nil_iff_forall_not_mem.mpr fun r member => ?_
    exact Boundary.not_unbounded_le (splices.late r member)
  · rcases layOut_singleton_eq_ok_iff.mp splices.laid_eq with ⟨extent, starts, stops, rfl⟩
    exact congrArg (fun extent => [Pending.mk extent payload]) (Interval.ext starts stops)
  · rcases tailRemnant_cases (.openFrom t) closed with ⟨none, -⟩ | ⟨r, extent, -, starts, -⟩
    · cases splices.tail_eq.symm.trans none
      rfl
    · cases starts

variable (splices : plan.Splices [⟨payload, t, none⟩] (.openFrom t) before closed
    [] head laid tail)
  (split : init ++ [latest] = before ++ (closed ++ []))
  (tiled : IsTiling ((init ++ [latest]).map Record.version))
  (later : latest.version.start < t)

include splices split tiled later

/-- Only the last record can reach into the span of an update. -/
theorem closed_cases_of_openFrom : closed = [] ∨ closed = [latest] := by
  rw [List.append_nil] at split
  rcases closed.eq_nil_or_concat' with rfl | ⟨others, r, rfl⟩
  · exact .inl rfl
  · rw [← List.append_assoc] at split
    rcases List.append_inj' split rfl with ⟨rfl, same⟩
    cases same
    have none : others = [] := by
      refine List.eq_nil_iff_forall_not_mem.mpr fun s member => ?_
      have ended : s.version.Before (.openFrom t) :=
        le_trans (before_last tiled s (List.mem_append_right before member))
          (Boundary.finite_le_finite.mpr later.le)
      have shares := splices.shares s (List.mem_append_left _ member)
      rw [ended.not_overlaps] at shares
      cases shares
    rw [none]
    exact .inr rfl

/-- What starts at the end of a lineage or later closes nothing of it. -/
theorem closed_eq_nil_of_ended (ended : latest.version.stop ≤ .finite t) :
    closed = [] ∧ head = [] := by
  have none : closed = [] := by
    rcases splices.closed_cases_of_openFrom split tiled later with none | one
    · exact none
    · have shares := splices.shares latest (one ▸ List.mem_singleton_self latest)
      exact absurd (Interval.overlaps_iff.mp shares).2 ended.not_gt
  subst none
  cases splices.head_eq
  exact ⟨rfl, rfl⟩

/-- The last record is cut where the update starts, if it reaches there. -/
theorem closed_eq_singleton_of_reaches (reaches : .finite t < latest.version.stop) :
    closed = [latest] ∧ head = [⟨⟨latest.version.start, .finite t, later⟩, latest.payload⟩] := by
  have one : closed = [latest] := by
    rcases splices.closed_cases_of_openFrom split tiled later with none | one
    · rw [none, List.append_nil, List.append_nil] at split
      have listed : latest ∈ before :=
        split ▸ List.mem_append_right init (List.mem_singleton_self latest)
      exact absurd reaches (splices.early latest listed : latest.version.stop ≤ .finite t).not_gt
    · exact one
  subst one
  refine ⟨rfl, ?_⟩
  rcases headRemnant_cases (.openFrom t) [latest] with
      ⟨-, inside⟩ | ⟨r, extent, found, starts, stops, cut⟩
  · exact absurd later (inside latest rfl).not_gt
  · cases found
    cases splices.head_eq.symm.trans cut
    exact congrArg (fun extent => [Pending.mk extent latest.payload]) (Interval.ext starts stops)

end OpenFrom

end Splices

/-! ## Corrections -/

/-- A correction lays another payload over the record. -/
theorem content_eq_of_correction {before after : List (Record α)} {record : Record α}
    (tiled : IsTiling ((before ++ ([record] ++ after)).map Record.version)) :
    before.map Record.content ++ ([⟨record.version, payload⟩] ++ after.map Record.content) =
      laidInto record.version [⟨record.version, payload⟩]
        ((before ++ ([record] ++ after)).map Record.content) := by
  have spans : Spans record.version.start record.version.stop ([record].map Record.version) :=
    .single record.version
  rcases spans.clear_of_tiling tiled with ⟨early, late⟩
  rw [laidInto_between early late, List.map_singleton, laidInto_of_within]
  intro p member
  rw [List.mem_singleton.mp member]
  exact ⟨le_rfl, le_rfl⟩

/-! ## Removals -/

/-- A lineage that has an end is not ended again. -/
theorem terminate_of_ended (ended : latest.version.stop ≠ .unbounded) (instant : Instant) :
    terminate object (init ++ [latest]) instant =
      .error (.invalidInput (.alreadyEnded object latest.version.stop)) := by
  have closed : latest.version.isOpen = false :=
    Bool.eq_false_iff.mpr (mt Boundary.eq_unbounded_iff.mp ended)
  unfold terminate
  rw [List.getLast?_concat]
  dsimp only
  rw [closed]
  rfl

/-- A lineage is not ended before its last version starts. -/
theorem terminate_of_early (isOpen : latest.version.stop = .unbounded)
    (early : t ≤ latest.version.start) :
    terminate object (init ++ [latest]) t =
      .error (.invalidInput (.endTooEarly object t latest.version.start)) := by
  have opened : latest.version.isOpen = true := Boundary.eq_unbounded_iff.mpr isOpen
  unfold terminate
  rw [List.getLast?_concat]
  dsimp only
  rw [opened, if_pos early]
  rfl

/-- A lineage without an end is ended by cutting its last version. -/
theorem terminate_of_open (isOpen : latest.version.stop = .unbounded)
    (later : latest.version.start < t) :
    terminate object (init ++ [latest]) t =
      .ok ⟨[latest.id], [⟨⟨latest.version.start, .finite t, later⟩, latest.payload⟩]⟩ := by
  have opened : latest.version.isOpen = true := Boundary.eq_unbounded_iff.mpr isOpen
  have cut : latest.version.withStop (.finite t) = .ok ⟨latest.version.start, .finite t, later⟩ :=
    Interval.between_eq_ok_iff.mpr ⟨rfl, rfl⟩
  unfold terminate
  rw [List.getLast?_concat]
  dsimp only
  rw [opened, if_neg later.not_ge, cut]
  rfl

/-- A removal leaves what was there before its instant. -/
theorem content_eq_of_terminate (tiled : IsTiling ((init ++ [latest]).map Record.version))
    (isOpen : latest.version.stop = .unbounded) (later : latest.version.start < t) :
    init.map Record.content ++ [⟨⟨latest.version.start, .finite t, later⟩, latest.payload⟩] =
      clip (.finite .epoch) (.finite t) ((init ++ [latest]).map Record.content) := by
  have kept : clip (.finite .epoch) (.finite t) (init.map Record.content) =
      init.map Record.content :=
    clip_of_within (List.forall_mem_map.mpr fun r member =>
      ⟨Boundary.epoch_le _,
        le_trans (before_last tiled r member) (Boundary.finite_le_finite.mpr later.le)⟩)
  have cut : latest.content.clip? (.finite .epoch) (.finite t) =
      some ⟨⟨latest.version.start, .finite t, later⟩, latest.payload⟩ := by
    refine Pending.clip?_eq_some_iff.mpr ⟨(max_eq_left (Boundary.epoch_le _)).symm, ?_, rfl⟩
    change Boundary.finite t = min latest.version.stop (.finite t)
    rw [isOpen, min_eq_right Boundary.le_unbounded]
  rw [List.map_append, clip_append, kept, List.map_singleton, clip_singleton cut]

end Bitemporal.Plan
