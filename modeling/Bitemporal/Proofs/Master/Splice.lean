import Bitemporal.Proofs.Master.Coverage
import Bitemporal.Proofs.Master.Exchange
import Bitemporal.Proofs.Splice

/-!
# Splices from end to end

A splice of acceptable replacements succeeds exactly if their span overlaps or touches what the
object covers.  It changes what is read inside the span and nowhere else, and it closes what the
span overlaps and nothing else.
-/

namespace Bitemporal

variable {α : Type}

/-- Inside a span a slice reads as the replacement in force, and outside it as
another slice does. -/
structure ReadsSpliced (replacements : List (Replacement α)) (span : Interval)
    (slice slice' : List (Record α)) : Prop where
  inside : ∀ t ∈ span, ∃ r s, Replacement.inForce? replacements t = some r ∧
    Timeline.covering? slice' t = some s ∧ s.payload = r.payload
  outside : ∀ t, t ∉ span →
    (Timeline.covering? slice' t).map Record.payload =
    (Timeline.covering? slice t).map Record.payload

/-- Records are replacements laid over a span, with a remnant on each side at most. -/
structure LaidBetween (replacements : List (Replacement α)) (span : Interval)
    (head laid tail : List (Record α)) : Prop where
  length_head_le : head.length ≤ 1
  laid : LaidOver replacements span.start span.stop laid
  length_tail_le : tail.length ≤ 1

namespace Plan.Splices

variable {plan : Plan α} {replacements : List (Replacement α)} {span : Interval}
  {before closed after inserted : List (Record α)} {head laid tail : List (Pending α)}

/-- After a splice the replacements are read on the span, and what was there before elsewhere. -/
theorem readsSpliced (splices : plan.Splices replacements span before closed after head laid tail)
    (ascends : replacements.Pairwise (·.start < ·.start))
    (tiled : IsTiling ((before ++ (closed ++ after)).map Record.version))
    (content : inserted.map Record.content = plan.inserts) :
    ReadsSpliced replacements span (before ++ (closed ++ after))
      (before ++ (inserted ++ after)) := by
  have shape : (before ++ (inserted ++ after)).map Record.content =
      before.map Record.content ++ (plan.inserts ++ after.map Record.content) := by
    rw [List.map_append, List.map_append, content]
  refine ⟨fun t inside => ?_, fun t outside => ?_⟩
  · rcases splices.payloadAt?_of_mem tiled ascends inside with ⟨r, inForce, reads⟩
    rw [← shape, payloadAt?_content, Option.map_eq_some_iff] at reads
    rcases reads with ⟨s, covers, same⟩
    exact ⟨r, s, inForce, covers, same⟩
  · rw [← payloadAt?_content, ← payloadAt?_content, shape]
    exact splices.payloadAt?_of_not_mem tiled outside

/-- The records that a splice inserts are the replacements, with a remnant
on each side at most. -/
theorem exists_laidBetween
    (splices : plan.Splices replacements span before closed after head laid tail)
    (content : inserted.map Record.content = plan.inserts) :
    ∃ head' laid' tail', inserted = head' ++ laid' ++ tail' ∧ laid'.map Record.content = laid ∧
      LaidBetween replacements span head' laid' tail' := by
  rw [splices.inserts_eq, List.map_eq_append_iff] at content
  rcases content with ⟨rest, tail', rfl, content, tailContent⟩
  rcases List.map_eq_append_iff.mp content with ⟨head', laid', rfl, headContent, laidContent⟩
  refine ⟨head', laid', tail', rfl, laidContent, ?_,
    laidOver splices.ne_nil splices.laid_eq laidContent, ?_⟩
  · rw [← List.length_map Record.content, headContent]
    exact splices.length_head_le
  · rw [← List.length_map Record.content, tailContent]
    exact splices.length_tail_le

end Plan.Splices

namespace Master

/-- Whatever a master over the empty store was asked before, and by whatever clock, an object that
exists covers some span of time from `start` up to `stop`.  As long as there is a new stamp,
replacements that are acceptable can be spliced exactly if their own span overlaps or touches
that; otherwise there would be a gap.

A splice leaves the replacement in force inside the span, and what was read before outside of it.
At one stamp it closes the records that overlap the span, keeps all others as they are, and
inserts the replacements and a remnant on each side at most. -/
theorem splice_exact {config : Config} {start₀ : Instant} {script : List (Instant × Request α)}
    {object : ObjectId} {replacements : List (Replacement α)}
    (known :
      ((opened config start₀ : Master (Store α)).after script).store.contains object = true)
    (room : ∀ latest,
      ((opened config start₀ : Master (Store α)).after script).store.latestCorrection object =
        some latest → latest < .last)
    (valid : Replacement.validate replacements config.maxReplacements = .ok ()) (now : Instant) :
    let m : Master (Store α) := ((opened config start₀).after script).withClock now
    ∃ slice start stop span first last,
      m.store.activeSlice object = .ok slice ∧ Spans start stop (slice.map Record.version) ∧
      replacements.head? = some first ∧ replacements.getLast? = some last ∧
      span.start = first.start ∧ span.stop = last.boundary ∧
      (.finite span.start ≤ stop ∧ .finite start ≤ span.stop →
        ∃ before closed after head laid tail m',
          (splice object replacements).run m = .ok (head ++ laid ++ tail) m' ∧
          slice = before ++ (closed ++ after) ∧
          m.store.Exchanged object (m.store.nextCorrection object now) before closed after
            (head ++ laid ++ tail) m'.store ∧
          (∀ r ∈ slice, r ∈ closed ↔ r.version.overlaps span = true) ∧
          LaidBetween replacements span head laid tail ∧
          ReadsSpliced replacements span slice (before ++ (head ++ laid ++ tail ++ after))) ∧
      (¬ (.finite span.start ≤ stop ∧ .finite start ≤ span.stop) →
        ∃ i j, m.Refuses (splice object replacements) (.nonExactRange object (.gap i j))) := by
  intro m
  have sound₀ : (opened config start₀ : Master (Store α)).Sound := .opened config start₀
  rcases sound₀.after script with ⟨sound, settings⟩
  have populated : m.store.Populated := sound₀.populated_after .empty script
  have soundStore : m.store.Sound := sound.store
  have run := (Replacement.validate_eq_ok_iff.mp valid).1
  have tiled : IsTiling ((m.store.lineage object).activeRecords.map Record.version) :=
    soundStore.held_tiled object
  rcases tiled.exists_spans (populated object known) with ⟨start, stop, spans⟩
  rcases Plan.exists_splices run tiled with
      ⟨plan, span, before, closed, after, head, laid, tail, planned, split, splices⟩
  rcases Plan.exists_span run with ⟨span', first, last, covered, first_eq, last_eq, starts, stops⟩
  cases splices.span_eq.symm.trans covered
  have prechecked : (Edit.splice object replacements).precheck m.config = .ok () := by
    have same : m.config = config := settings
    rw [same]
    exact valid
  have drafted : (Edit.splice object replacements).draft m =
      .ok (before ++ (closed ++ after), plan) :=
    split ▸ Edit.draftOn_of_ok soundStore known planned
  rw [split] at tiled spans
  rcases splices.exchanges tiled with ⟨_, _, exchanges, -⟩
  refine ⟨before ++ (closed ++ after), start, stop, span, first, last, ?_, spans, first_eq,
    last_eq, starts, stops, fun touches => ?_, fun apart => ?_⟩
  · rw [soundStore.activeSlice_of_contains known, split]
  · have fits := (splices.fits_iff spans).mpr touches
    rcases Edit.run_of_exchange soundStore prechecked drafted split exchanges fits known room with
      ⟨inserted, shown, m', run', picked, content, exchanged⟩
    cases picked
    rcases splices.exists_laidBetween content with ⟨head', laid', tail', rfl, -, laidBetween⟩
    exact ⟨before, closed, after, head', laid', tail', m', run', rfl, exchanged,
      fun r listed => (splices.overlaps_iff listed).symm, laidBetween,
      splices.readsSpliced run.ascends tiled content⟩
  · have misfit := mt (splices.fits_iff spans).mp apart
    exact Edit.run_of_gap soundStore prechecked drafted split exchanges misfit

/-- The loan of `loanScript` is lower for a while, in two steps. -/
def lowering : List (Replacement String) :=
  [⟨"3000", ⟨10, by decide⟩, none⟩, ⟨"2000", ⟨20, by decide⟩, some ⟨30, by decide⟩⟩]

/-- A loan is lowered twice in one splice, which leaves a remnant on each side. -/
theorem splice_exact_loanScript :
    let m : Master (Store String) := (opened .default .epoch).after (loanScript ⟨5, by decide⟩)
    let span : Interval := ⟨⟨10, by decide⟩, .finite ⟨30, by decide⟩, by decide⟩
    let r : Record String :=
      ⟨loan.atVersion "0", .openFrom .epoch, .openFrom ⟨5, by decide⟩, "4000"⟩
    m.store.contains loan = true ∧ m.store.latestCorrection loan = some ⟨5, by decide⟩ ∧
      Replacement.validate lowering Config.default.maxReplacements = .ok () ∧
      m.store.activeSlice loan = .ok [r] ∧
      ∃ head laid tail m' slice',
        (splice loan lowering).run (m.withClock ⟨7, by decide⟩) = .ok (head ++ laid ++ tail) m' ∧
        LaidBetween lowering span head laid tail ∧ m'.store.activeSlice loan = .ok slice' ∧
        ReadsSpliced lowering span [r] slice' := by
  intro m span r
  have known : m.store.contains loan = true := rfl
  have newest : m.store.latestCorrection loan = some ⟨5, by decide⟩ := rfl
  have valid : Replacement.validate lowering Config.default.maxReplacements = .ok () := by decide
  have current : m.store.activeSlice loan = .ok [r] := rfl
  have room : ∀ latest, m.store.latestCorrection loan = some latest → latest < .last := by
    intro latest found
    cases newest.symm.trans found
    decide
  rcases splice_exact known room valid ⟨7, by decide⟩ with
    ⟨slice, start, stop, span', first, last, read, spans, first_eq, last_eq, starts, stops,
      accepted, -⟩
  cases current.symm.trans read
  cases first_eq
  cases last_eq
  have same : span' = span := Interval.ext starts stops
  subst same
  rcases spans.exists_cons with ⟨i, rest, shape, rfl⟩
  rcases spans.exists_getLast with ⟨j, final, rfl⟩
  cases shape
  cases final
  rcases accepted (by decide) with
    ⟨before, closed, after, head, laid, tail, m', run, -, exchanged, -, laidBetween, reads⟩
  exact ⟨known, newest, valid, current, head, laid, tail, m', _, run, laidBetween,
    exchanged.slice_eq', reads⟩

end Master

end Bitemporal
