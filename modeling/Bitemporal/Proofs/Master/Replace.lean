import Bitemporal.Proofs.Master.Splice
import Bitemporal.Proofs.Replace

/-!
# Replaces from end to end

Both replaces exchange records for replacements that are laid over the very span of those records.
So once the planner has accepted, neither the check of the plan nor the commit can refuse, and the
two theorems are complete lists of what may happen.
-/

namespace Bitemporal

variable {α : Type}

/-! ## Replacements in the place of records -/

section Runs

variable {m : Master (Store α)} {replacements : List (Replacement α)} (sound : m.store.Sound)

include sound

/-- An edit that closes records and lays replacements over the very span of them is committed. -/
theorem Edit.run_of_laidOver {e : Edit α} {before closed after : List (Record α)}
    {laid : List (Pending α)} {start : Instant} {stop : Boundary}
    (prechecked : e.precheck m.config = .ok ()) (drafted : e.draft m =
      .ok ((m.store.lineage (e.object m.config)).activeRecords, ⟨closed.map Record.id, laid⟩))
    (split : (m.store.lineage (e.object m.config)).activeRecords = before ++ (closed ++ after))
    (spans : Spans start stop (closed.map Record.version)) (nonempty : replacements ≠ [])
    (made : Plan.layOut start stop replacements = .ok laid)
    (known : m.store.contains (e.object m.config) = true)
    (room : ∀ latest, m.store.latestCorrection (e.object m.config) = some latest →
      latest < .last) :
    ∃ inserted shown m', e.run.run m = .ok shown m' ∧ e.pick m inserted = .ok shown ∧
      m.store.Exchanged (e.object m.config)
        (m.store.nextCorrection (e.object m.config) m.now) before closed after inserted m'.store ∧
        inserted.map Record.content = laid ∧ LaidOver replacements start stop inserted := by
  let plan : Plan α := ⟨closed.map Record.id, laid⟩
  have tiled : IsTiling ((before ++ (closed ++ after)).map Record.version) :=
    split ▸ (sound.lineage_sound (e.object m.config)).activeRecords_tiled
  have new : Spans start stop (plan.inserts.map Pending.version) :=
    Plan.layOut_spans nonempty made
  rw [split] at drafted
  rcases Plan.exchanges_of_spans tiled spans new rfl with ⟨exchanges, fits⟩
  rcases Edit.run_of_exchange sound prechecked drafted split exchanges fits known room with
    ⟨inserted, shown, m', run, picked, content, exchanged⟩
  exact ⟨inserted, shown, m', run, picked, exchanged, content,
    Plan.laidOver nonempty made content⟩

namespace Master

variable (valid : Replacement.validate replacements m.config.maxReplacements = .ok ())

include valid

/-- An aligned target is replaced by what can be laid over it. -/
theorem exists_replaceVersions {object : ObjectId} {target : Interval} {laid : List (Pending α)}
    (known : m.store.contains object = true)
    (room : ∀ latest, m.store.latestCorrection object = some latest → latest < .last)
    (aligned : Plan.Aligned (m.store.lineage object).activeRecords target)
    (made : Plan.layOut target.start target.stop replacements = .ok laid) :
    ∃ before closed after inserted m',
      (replaceVersions object target replacements).run m = .ok inserted m' ∧
      (m.store.lineage object).activeRecords = before ++ (closed ++ after) ∧
      m.store.Exchanged object
        (m.store.nextCorrection object m.now) before closed after inserted m'.store ∧
      (∀ r ∈ (m.store.lineage object).activeRecords, r ∈ closed ↔
        target.encloses r.version = true) ∧
      LaidOver replacements target.start target.stop inserted := by
  have nonempty := Replacement.ne_nil_of_validate valid
  have prechecked : (Edit.replaceVersions object target replacements).precheck m.config =
      .ok () := valid
  have tiled : IsTiling ((m.store.lineage object).activeRecords.map Record.version) :=
    (sound.lineage_sound object).activeRecords_tiled
  rcases Plan.exactReplace_of_aligned tiled aligned with
      ⟨before, closed, after, split, spans, planned⟩
  have drafted : (Edit.replaceVersions object target replacements).draft m =
      .ok ((m.store.lineage object).activeRecords, ⟨closed.map Record.id, laid⟩) := by
    refine Edit.draftOn_of_ok sound known ?_
    rw [planned, made]
    rfl
  rcases Edit.run_of_laidOver sound prechecked drafted split spans nonempty made known room with
    ⟨inserted, shown, m', run, picked, exchanged, -, laidOver⟩
  cases picked
  refine ⟨before, closed, after, inserted, m', run, split, exchanged, fun r listed => ?_,
    laidOver⟩
  rw [split] at tiled listed
  exact (Plan.encloses_iff tiled spans listed).symm

/-- A current record is replaced by replacements that start where it does and fit into it. -/
theorem exists_replaceVersion {r : Record α} {first : Replacement α}
    (room : ∀ latest, m.store.latestCorrection r.id.object = some latest → latest < .last)
    (stored : r ∈ (m.store.lineage r.id.object).records) (current : r.supersededAt? = none)
    (head : replacements.head? = some first) (starts : first.start = r.version.start)
    (fits : ¬ Plan.Misfits r replacements) :
    ∃ before after inserted m', (replaceVersion r.id replacements).run m = .ok inserted m' ∧
      m.store.Exchanged r.id.object (m.store.nextCorrection r.id.object m.now) before
        [r] after inserted m'.store ∧
      LaidOver replacements r.version.start r.version.stop inserted := by
  have isRun := (Replacement.validate_eq_ok_iff.mp valid).1
  have prechecked : (Edit.replaceVersion r.id replacements).precheck m.config = .ok () := valid
  have found : m.store.record r.id = .ok r := sound.record_eq_ok_iff.mpr ⟨stored, rfl⟩
  rcases Plan.exists_singleReplace current isRun head starts fits with ⟨laid, made, planned⟩
  have drafted : (Edit.replaceVersion r.id replacements).draft m =
      .ok ((m.store.lineage r.id.object).activeRecords, ⟨[r].map Record.id, laid⟩) :=
    Edit.draftFor_of_ok sound found planned
  rcases List.append_of_mem ((sound.mem_activeRecords_of_record found).mpr current) with
      ⟨before, after, split⟩
  rcases Edit.run_of_laidOver sound prechecked drafted split (.single r.version) isRun.ne_nil made
    (Store.contains_of_mem stored) room with
    ⟨inserted, shown, m', run, picked, exchanged, -, laidOver⟩
  cases picked
  exact ⟨before, after, inserted, m', run, exchanged, laidOver⟩

end Master

end Runs

namespace Master

variable {config : Config} {start : Instant} {script : List (Instant × Request α)}
    {replacements : List (Replacement α)}

/-- Whatever a master over the empty store was asked before, and by whatever clock: as long as
there is a new stamp, acceptable replacements replace the records of a target exactly if both its
ends are ends of current records and all but the first replacement start strictly inside of it.
It is said which of the two conditions fails.

Then at one stamp just the records that the target encloses are closed, and the replacements are
laid over it. -/
theorem replaceVersions_exact {object : ObjectId}
    (known : ((opened config start : Master (Store α)).after script).store.contains object = true)
    (room : ∀ latest,
      ((opened config start : Master (Store α)).after script).store.latestCorrection object =
        some latest → latest < .last)
    (valid : Replacement.validate replacements config.maxReplacements = .ok ())
    (target : Interval) (now : Instant) :
    let m : Master (Store α) := ((opened config start).after script).withClock now
    let inside : Prop :=
      ∀ r ∈ replacements.tail, target.start < r.start ∧ .finite r.start < target.stop
    ∃ slice, m.store.activeSlice object = .ok slice ∧
      (Plan.Aligned slice target → inside → ∃ before closed after inserted m',
        (replaceVersions object target replacements).run m = .ok inserted m' ∧
        slice = before ++ (closed ++ after) ∧
        m.store.Exchanged object
          (m.store.nextCorrection object now) before closed after inserted m'.store ∧
        (∀ r ∈ slice, r ∈ closed ↔ target.encloses r.version = true) ∧
        LaidOver replacements target.start target.stop inserted) ∧
      (¬ Plan.Aligned slice target → ∃ cause,
        m.Refuses (replaceVersions object target replacements) (.nonExactRange object cause)) ∧
      (Plan.Aligned slice target → ¬ inside → ∃ a b,
        m.Refuses (replaceVersions object target replacements) (.invalidInterval a b)) := by
  intro m inside
  have sound₀ : (opened config start : Master (Store α)).Sound := .opened config start
  rcases sound₀.after script with ⟨sound, settings⟩
  have soundStore : m.store.Sound := sound.store
  have run := (Replacement.validate_eq_ok_iff.mp valid).1
  have same : m.config = config := settings
  rw [← same] at valid
  have prechecked : (Edit.replaceVersions object target replacements).precheck m.config =
      .ok () := valid
  have tiled : IsTiling ((m.store.lineage object).activeRecords.map Record.version) :=
    (soundStore.lineage_sound object).activeRecords_tiled
  have inside_iff := Plan.exists_layOut_iff run.ne_nil run.ascends target.start_lt_stop
  refine ⟨_, soundStore.activeSlice_of_contains known, fun aligned fits => ?_,
    fun misaligned => ?_, fun aligned outside => ?_⟩
  · rcases inside_iff.mpr fits with ⟨laid, made⟩
    exact exists_replaceVersions soundStore valid known room aligned made
  · rcases Plan.exactReplace_of_not_aligned tiled misaligned object replacements with
        ⟨cause, refused⟩
    exact ⟨cause, Edit.run_of_refused prechecked (Edit.draftOn_of_error soundStore known refused)⟩
  · rcases Plan.exactReplace_of_aligned tiled aligned with
        ⟨before, closed, after, split, spans, planned⟩
    cases made : Plan.layOut target.start target.stop replacements with
    | ok laid => exact absurd (inside_iff.mp ⟨laid, made⟩) outside
    | error fault =>
      rcases Plan.layOut_eq_error made with ⟨a, b, rfl⟩
      refine ⟨a, b, Edit.run_of_refused prechecked (Edit.draftOn_of_error soundStore known ?_)⟩
      rw [planned, made]
      rfl

/-- The loan of `loanScript` and its `lowering`. -/
def loweringScript : List (Instant × Request String) :=
  loanScript ⟨5, by decide⟩ ++ [(⟨6, by decide⟩, .edit (.splice loan lowering))]

/-- The lower steps are replaced by others, which start elsewhere and do not end. -/
theorem replaceVersions_exact_loweringScript :
    let m : Master (Store String) := (opened .default .epoch).after loweringScript
    let target : Interval := ⟨⟨10, by decide⟩, .finite ⟨30, by decide⟩, by decide⟩
    let other : List (Replacement String) :=
      [⟨"2500", ⟨12, by decide⟩, none⟩, ⟨"1500", ⟨22, by decide⟩, none⟩]
    m.store.contains loan = true ∧ m.store.latestCorrection loan = some ⟨6, by decide⟩ ∧
      Replacement.validate other Config.default.maxReplacements = .ok () ∧
      ∃ before closed after inserted m', Plan.Aligned (before ++ (closed ++ after)) target ∧
        (replaceVersions loan target other).run (m.withClock ⟨6, by decide⟩) = .ok inserted m' ∧
        m.store.Exchanged loan ⟨7, by decide⟩ before closed after inserted m'.store ∧
        LaidOver other target.start target.stop inserted := by
  intro m target other
  have known : m.store.contains loan = true := rfl
  have newest : m.store.latestCorrection loan = some ⟨6, by decide⟩ := rfl
  have valid : Replacement.validate other Config.default.maxReplacements = .ok () := by decide
  have room : ∀ latest, m.store.latestCorrection loan = some latest → latest < .last := by
    intro latest found
    cases newest.symm.trans found
    decide
  have aligned : ∃ slice, m.store.activeSlice loan = .ok slice ∧ Plan.Aligned slice target := by
    refine ⟨_, rfl, ?_⟩
    unfold Plan.Aligned
    decide
  rcases aligned with ⟨slice, current, aligned⟩
  rcases replaceVersions_exact known room valid target ⟨6, by decide⟩ with
      ⟨slice', read, accepted, -, -⟩
  cases current.symm.trans read
  rcases accepted aligned (by decide) with
      ⟨before, closed, after, inserted, m', run, rfl, exchanged, -, laid⟩
  exact ⟨known, newest, valid, before, closed, after, inserted, m', aligned, run, exchanged, laid⟩

/-- Whatever a master over the empty store was asked before, and by whatever clock: as long as
there is a new stamp, this is all that may happen when a record is replaced by acceptable
replacements.  The record may be unknown or superseded, or the replacements may start elsewhere or
not fit into it.

Otherwise at one stamp just that record is closed, and the replacements are laid over its version
interval. -/
theorem replaceVersion_exact {id : RecordId}
    (room : ∀ latest,
      ((opened config start : Master (Store α)).after script).store.latestCorrection id.object =
        some latest → latest < .last)
    (valid : Replacement.validate replacements config.maxReplacements = .ok ()) (now : Instant) :
    let m : Master (Store α) := ((opened config start).after script).withClock now
    ((∀ r ∈ (m.store.lineage id.object).records, r.id ≠ id) →
      m.Refuses (replaceVersion id replacements) (.notFound (.record id))) ∧
    ∀ r ∈ (m.store.lineage id.object).records, r.id = id → ∃ first ∈ replacements.head?,
      (∀ instant, r.supersededAt? = some instant →
        m.Refuses (replaceVersion id replacements) (.staleVersion id instant)) ∧
      (r.supersededAt? = none → first.start ≠ r.version.start →
        m.Refuses (replaceVersion id replacements)
          (.nonExactRange id.object (.startMismatch first.start id r.version.start))) ∧
      (r.supersededAt? = none → first.start = r.version.start → Plan.Misfits r replacements →
        ∃ actual, m.Refuses (replaceVersion id replacements)
          (.boundaryMismatch r.version.stop actual)) ∧
      (r.supersededAt? = none → first.start = r.version.start → ¬ Plan.Misfits r replacements →
        ∃ before after inserted m', (replaceVersion id replacements).run m = .ok inserted m' ∧
          m.store.Exchanged id.object (m.store.nextCorrection id.object now) before
            [r] after inserted m'.store ∧
          LaidOver replacements r.version.start r.version.stop inserted) := by
  intro m
  have sound₀ : (opened config start : Master (Store α)).Sound := .opened config start
  rcases sound₀.after script with ⟨sound, settings⟩
  have soundStore : m.store.Sound := sound.store
  have same : m.config = config := settings
  rw [← same] at valid
  have prechecked : (Edit.replaceVersion id replacements).precheck m.config = .ok () := valid
  refine ⟨fun unknown => ?_, fun r stored same => ?_⟩
  · exact Edit.run_of_refused prechecked
      (Edit.draftFor_of_unknown (soundStore.record_eq_notFound unknown))
  · subst same
    have found : m.store.record r.id = .ok r := soundStore.record_eq_ok_iff.mpr ⟨stored, rfl⟩
    have refuses {fault : Fault} (refused : Plan.singleReplace r replacements = .error fault) :
        m.Refuses (replaceVersion r.id replacements) fault :=
      Edit.run_of_refused prechecked (Edit.draftFor_of_error found refused)
    have head := List.head?_eq_some_head (Replacement.ne_nil_of_validate valid)
    refine ⟨_, head, fun instant superseded => ?_, fun current elsewhere => ?_,
      fun current starts misfits => ?_, fun current starts fits => ?_⟩
    · exact refuses (Plan.singleReplace_of_superseded superseded replacements)
    · exact refuses (Plan.singleReplace_of_start_ne current head elsewhere)
    · rcases Plan.singleReplace_of_misfits current head starts misfits with ⟨actual, refused⟩
      exact ⟨actual, refuses refused⟩
    · exact exists_replaceVersion soundStore valid room stored current head starts fits

/-- The first of the lower steps is cut in two. -/
theorem replaceVersion_exact_loweringScript :
    let m : Master (Store String) := (opened .default .epoch).after loweringScript
    let id : RecordId := loan.atVersion "2"
    let r : Record String :=
      ⟨id, ⟨⟨10, by decide⟩, .finite ⟨20, by decide⟩, by decide⟩, .openFrom ⟨6, by decide⟩,
        "3000"⟩
    let finer : List (Replacement String) :=
      [⟨"3200", ⟨10, by decide⟩, none⟩, ⟨"2800", ⟨15, by decide⟩, some ⟨20, by decide⟩⟩]
    m.store.latestCorrection id.object = some ⟨6, by decide⟩ ∧
      Replacement.validate finer Config.default.maxReplacements = .ok () ∧
      r ∈ (m.store.lineage id.object).records ∧ ¬ Plan.Misfits r finer ∧
      ∃ before after inserted m', (replaceVersion id finer).run (m.withClock ⟨9, by decide⟩) =
        .ok inserted m' ∧
        m.store.Exchanged id.object (m.store.nextCorrection id.object ⟨9, by decide⟩) before
          [r] after inserted m'.store ∧
        LaidOver finer r.version.start r.version.stop inserted := by
  intro m id r finer
  have newest : m.store.latestCorrection id.object = some ⟨6, by decide⟩ := by decide
  have valid : Replacement.validate finer Config.default.maxReplacements = .ok () := by decide
  have stored : r ∈ (m.store.lineage id.object).records := by decide
  have room : ∀ latest, m.store.latestCorrection id.object = some latest → latest < .last := by
    intro latest found
    cases newest.symm.trans found
    decide
  have fits : ¬ Plan.Misfits r finer := by
    intro misfits
    rcases misfits with ⟨s, member, beyond⟩ | ⟨last, stop, final, ends, other⟩
    · have inside : ∀ s ∈ finer, ¬ r.version.stop ≤ .finite s.start := by decide
      exact inside s member beyond
    · cases final
      cases ends
      exact other rfl
  rcases (replaceVersion_exact room valid ⟨9, by decide⟩).2 r stored rfl with
      ⟨first, head, -, -, -, accepted⟩
  cases head
  exact ⟨newest, valid, stored, fits, accepted rfl rfl fits⟩

end Master

end Bitemporal
