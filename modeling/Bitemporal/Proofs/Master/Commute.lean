import Bitemporal.Proofs.Master.Replace

/-!
# Splices in either order, and splices repeated

A splice that succeeds lays its replacements into the contents of the current slice
(`Master.map_content_of_splice`).  What they are laid into may be anything, so splices over
separate spans leave the same contents in either order.

What a splice has laid tiles the span of the replacements.  So when the same replacements are
spliced again, just these records are closed, nothing of them is left over, and the contents stay
as they are (`Master.exists_repeat`).
-/

namespace Bitemporal

variable {α : Type}

/-- Two stores hold the same payloads for an object now, on the same version intervals. -/
def Store.SameContents (s s' : Store α) (object : ObjectId) : Prop :=
  ∃ slice slice', s.activeSlice object = .ok slice ∧ s'.activeSlice object = .ok slice' ∧
    slice'.map Record.content = slice.map Record.content

namespace Master

section Runs

variable {m m' : Master (Store α)} {object : ObjectId} {replacements : List (Replacement α)}
    {shown : List (Record α)}
  {span : Interval} (sound : m.store.Sound)
  (run : (splice object replacements).run m = .ok shown m')

include sound run

/-- A splice that succeeds was acceptable, and exchanges what its span overlaps. -/
theorem exists_splices_of_run :
    Replacement.validate replacements m.config.maxReplacements = .ok () ∧ m'.config = m.config ∧
      ∃ (plan : Plan α) (span : Interval) (before closed after : List (Record α))
        (head laid tail : List (Pending α)),
        plan.Splices replacements span before closed after head laid tail ∧
        shown.map Record.content = plan.inserts ∧
        IsTiling ((before ++ (closed ++ after)).map Record.version) ∧
        m.store.Exchanged object
          (m.store.nextCorrection object m.now) before closed after shown m'.store := by
  rcases Edit.run_cases sound (.splice object replacements) with
    ⟨fault, m'', failed, -⟩ | ⟨plan, b, tl, shown', m'', run', commits⟩
  · cases failed.symm.trans run
  · cases run'.symm.trans run
    have tiled : IsTiling ((m.store.lineage object).activeRecords.map Record.version) :=
      (sound.lineage_sound object).activeRecords_tiled
    have isRun := (Replacement.validate_eq_ok_iff.mp commits.prechecked).1
    rcases Edit.draftOn_eq_ok sound commits.drafted with ⟨-, planned⟩
    rcases Plan.exists_splices isRun tiled with
      ⟨plan', span, before, closed, after, head, laid, tail, planned', split, splices⟩
    cases planned.symm.trans planned'
    rw [split] at tiled
    rcases splices.exchanges tiled with ⟨_, _, exchanges, -⟩
    cases commits.picked
    refine ⟨commits.prechecked, commits.config_eq, plan, span, before, closed, after, head, laid,
      tail, splices, ?_, tiled, ?_⟩
    · exact (Batch.additions_content _).trans commits.settles.inserts_eq
    · rw [commits.store_eq]
      exact commits.settles.exchanged sound
        (Edit.contains_of_draftOn commits.drafted) split exchanges

/-- A splice lays a run into the contents of the current slice, which follows from the
replacements alone. -/
theorem map_content_of_splice (covered : Plan.span replacements = .ok span) :
    ∃ laid slice slice', Plan.layOut span.start span.stop replacements = .ok laid ∧
      (∀ p ∈ laid, span.start ≤ p.version.start ∧ p.version.stop ≤ span.stop) ∧
      m.store.activeSlice object = .ok slice ∧ m'.store.activeSlice object = .ok slice' ∧
      slice'.map Record.content = laidInto span laid (slice.map Record.content) ∧
      m'.store.Sound := by
  rcases exists_splices_of_run sound run with
      ⟨-, -, plan, span', before, closed, after, head, laid, tail, splices,
    content, tiled, exchanged⟩
  cases covered.symm.trans splices.span_eq
  exact ⟨laid, _, _, splices.laid_eq, List.forall_mem_map.mp splices.laid_spans.within,
    exchanged.slice_eq, exchanged.slice_eq', splices.map_content_eq tiled content,
    exchanged.grows.sound⟩

/-- A splice that succeeds can be repeated as long as there is a new stamp.  Then what it laid is
closed, and the same is laid again. -/
theorem exists_repeat
    (room : ∀ latest, m'.store.latestCorrection object = some latest → latest < .last) :
    ∃ span before head laid tail after, Plan.span replacements = .ok span ∧
      shown = head ++ laid ++ tail ∧ LaidBetween replacements span head laid tail ∧
      m'.store.activeSlice object = .ok (before ++ (head ++ laid ++ tail ++ after)) ∧
      ∀ now, ∃ again m'', (splice object replacements).run (m'.withClock now) = .ok again m'' ∧
        m'.store.Exchanged object (m'.store.nextCorrection object now) (before ++ head) laid
          (tail ++ after) again m''.store ∧
        LaidOver replacements span.start span.stop again ∧
        again.map Record.content = laid.map Record.content := by
  rcases exists_splices_of_run sound run with
      ⟨valid, config, plan, span, before, closed, after, head, laid, tail,
    splices, content, -, exchanged⟩
  rcases splices.exists_laidBetween content with ⟨head', laid', tail', rfl, same, between⟩
  refine ⟨span, before, head', laid', tail', after, splices.span_eq, rfl, between,
    exchanged.slice_eq', fun now => ?_⟩
  have sound' : (m'.withClock now).store.Sound := exchanged.grows.sound
  have prechecked : (Edit.splice object replacements).precheck (m'.withClock now).config =
      .ok () := by
    change Replacement.validate replacements m'.config.maxReplacements = .ok ()
    rwa [config]
  have known : (m'.withClock now).store.contains object = true :=
    Store.contains_of_activeSlice exchanged.slice_eq'
  have split : ((m'.withClock now).store.lineage object).activeRecords =
      (before ++ head') ++ (laid' ++ (tail' ++ after)) := by
    rw [← sound'.activeSlice_eq_ok exchanged.slice_eq']
    simp only [List.append_assoc]
  have tiled : IsTiling (((before ++ head') ++ (laid' ++ (tail' ++ after))).map Record.version) :=
    split ▸ (sound'.lineage_sound object).activeRecords_tiled
  have drafted : (Edit.splice object replacements).draft (m'.withClock now) =
      .ok (((m'.withClock now).store.lineage object).activeRecords,
        ⟨laid'.map Record.id, laid⟩) := by
    refine Edit.draftOn_of_ok sound' known ?_
    rw [split, Plan.splice_of_spans between.laid.spans tiled splices.span_eq, splices.laid_eq]
    rfl
  rcases Edit.run_of_laidOver sound' prechecked drafted split between.laid.spans splices.ne_nil
    splices.laid_eq known room with
    ⟨again, shown', m'', run', picked, exchanged', content', laidOver⟩
  cases picked
  exact ⟨again, m'', run', exchanged', laidOver, content'.trans same.symm⟩

end Runs

/-- Whatever a master over the empty store was asked before, and by whatever clock: of two lists
of replacements whose spans do not overlap, either may be spliced first.  If both succeed in
either order, the same payloads are left on the same version intervals.

After a splice that succeeds, and as long as there is a new stamp, the same replacements can be
spliced again.  That closes just the records that were laid over the span, leaves no remnant, and
keeps all payloads on their intervals. -/
theorem splices_commute_and_repeat (config : Config) (start : Instant)
    (script : List (Instant × Request α)) (object : ObjectId) :
    let m : Master (Store α) := (opened config start).after script
    (∀ (first second : List (Replacement α)) (span span' : Interval), Plan.span first = .ok span →
      Plan.span second = .ok span' → span.overlaps span' = false →
      ∀ (t₁ t₂ t₃ t₄ : Instant) (shown₁ shown₂ shown₃ shown₄ : List (Record α))
        (m₁ m₂ m₃ m₄ : Master (Store α)), (splice object first).run
        (m.withClock t₁) = .ok shown₁ m₁ →
        (splice object second).run (m₁.withClock t₂) = .ok shown₂ m₂ →
        (splice object second).run (m.withClock t₃) = .ok shown₃ m₃ →
        (splice object first).run (m₃.withClock t₄) = .ok shown₄ m₄ →
        m₂.store.SameContents m₄.store object) ∧
    ∀ (replacements : List (Replacement α)) (now : Instant) (shown : List (Record α))
      (m₁ : Master (Store α)), (splice object replacements).run (m.withClock now) = .ok shown m₁ →
      (∀ latest, m₁.store.latestCorrection object = some latest → latest < .last) →
      ∃ span before head laid tail after, Plan.span replacements = .ok span ∧
        shown = head ++ laid ++ tail ∧ LaidBetween replacements span head laid tail ∧
        m₁.store.activeSlice object = .ok (before ++ (head ++ laid ++ tail ++ after)) ∧
        ∀ later, ∃ again m₂,
          (splice object replacements).run (m₁.withClock later) = .ok again m₂ ∧
          m₁.store.Exchanged object (m₁.store.nextCorrection object later) (before ++ head) laid
            (tail ++ after) again m₂.store ∧
          LaidOver replacements span.start span.stop again ∧
          m₁.store.SameContents m₂.store object := by
  intro m
  have sound₀ : (opened config start : Master (Store α)).Sound := .opened config start
  have sound : m.store.Sound := (sound₀.after script).1.store
  refine ⟨?_, ?_⟩
  · intro first second span span' covered covered' apart t₁ t₂ t₃ t₄ shown₁ shown₂ shown₃ shown₄
      m₁ m₂ m₃ m₄ run₁ run₂ run₃ run₄
    rcases map_content_of_splice (m := m.withClock t₁) sound run₁ covered with
      ⟨laid, slice, slice₁, made, within, read, read₁, content₁, sound₁⟩
    rcases map_content_of_splice (m := m₁.withClock t₂) sound₁ run₂ covered' with
      ⟨laid', slice₁', slice₂, made', within', read₁', read₂, content₂, -⟩
    rcases map_content_of_splice (m := m.withClock t₃) sound run₃ covered' with
      ⟨laid₃, slice', slice₃, made₃, -, read', read₃, content₃, sound₃⟩
    rcases map_content_of_splice (m := m₃.withClock t₄) sound₃ run₄ covered with
      ⟨laid₄, slice₃', slice₄, made₄, -, read₃', read₄, content₄, -⟩
    cases made'.symm.trans made₃
    cases made.symm.trans made₄
    cases read.symm.trans read'
    cases read₁.symm.trans read₁'
    cases read₃.symm.trans read₃'
    refine ⟨slice₂, slice₄, read₂, read₄, ?_⟩
    rw [content₄, content₃, content₂, content₁]
    rcases Interval.overlaps_eq_false_iff.mp apart with first' | second'
    · exact (laidInto_comm first' within within').symm
    · exact laidInto_comm second' within' within
  · intro replacements now shown m₁ run room
    rcases exists_repeat (m := m.withClock now) sound run room with
      ⟨span, before, head, laid, tail, after, covered, split, between, read, again⟩
    refine ⟨span, before, head, laid, tail, after, covered, split, between, read, fun later => ?_⟩
    rcases again later with ⟨again, m₂, run₂, exchanged, laidOver, content⟩
    refine ⟨again, m₂, run₂, exchanged, laidOver, _, _, exchanged.slice_eq,
      exchanged.slice_eq', ?_⟩
    simp only [List.map_append, content]

/-- The loan of `loanScript` is lowered twice, in spans that touch each other, and in either
order.  Lowering it the same way again replaces one record and changes no payload. -/
theorem splices_commute_and_repeat_loanScript :
    let m : Master (Store String) := (opened .default .epoch).after (loanScript ⟨5, by decide⟩)
    let lower : List (Replacement String) := [⟨"3000", ⟨10, by decide⟩, some ⟨20, by decide⟩⟩]
    let lowest : List (Replacement String) := [⟨"2000", ⟨20, by decide⟩, some ⟨30, by decide⟩⟩]
    let m₁ := Program.final (splice loan lower) (m.withClock ⟨6, by decide⟩)
    let m₂ := Program.final (splice loan lowest) (m₁.withClock ⟨7, by decide⟩)
    let m₃ := Program.final (splice loan lowest) (m.withClock ⟨6, by decide⟩)
    let m₄ := Program.final (splice loan lower) (m₃.withClock ⟨6, by decide⟩)
    (∃ shown, (splice loan lowest).run (m₁.withClock ⟨7, by decide⟩) = .ok shown m₂) ∧
      (∃ shown, (splice loan lower).run (m₃.withClock ⟨6, by decide⟩) = .ok shown m₄) ∧
      m₂.store.SameContents m₄.store loan ∧
      ∃ again m₅, (splice loan lower).run (m₁.withClock ⟨8, by decide⟩) = .ok again m₅ ∧
        LaidOver lower ⟨10, by decide⟩ (.finite ⟨20, by decide⟩) again ∧
        m₁.store.SameContents m₅.store loan := by
  intro m lower lowest m₁ m₂ m₃ m₄
  let span : Interval := ⟨⟨10, by decide⟩, .finite ⟨20, by decide⟩, by decide⟩
  let span' : Interval := ⟨⟨20, by decide⟩, .finite ⟨30, by decide⟩, by decide⟩
  have first : ∃ shown, (splice loan lower).run (m.withClock ⟨6, by decide⟩) = .ok shown m₁ :=
    Program.exists_run_of_toBool (by decide +kernel)
  have second : ∃ shown, (splice loan lowest).run (m₁.withClock ⟨7, by decide⟩) = .ok shown m₂ :=
    Program.exists_run_of_toBool (by decide +kernel)
  have first' : ∃ shown, (splice loan lowest).run (m.withClock ⟨6, by decide⟩) = .ok shown m₃ :=
    Program.exists_run_of_toBool (by decide +kernel)
  have second' : ∃ shown, (splice loan lower).run (m₃.withClock ⟨6, by decide⟩) = .ok shown m₄ :=
    Program.exists_run_of_toBool (by decide +kernel)
  refine ⟨second, second', ?_⟩
  rcases first with ⟨_, first⟩
  rcases second with ⟨_, second⟩
  rcases first' with ⟨_, first'⟩
  rcases second' with ⟨_, second'⟩
  obtain ⟨commute, repeats⟩ :=
    splices_commute_and_repeat .default .epoch (loanScript ⟨5, by decide⟩) loan
  refine ⟨commute lower lowest span span' rfl rfl (by decide) _ _ _ _ _ _ _ _ _ _ _ _ first second
    first' second', ?_⟩
  have newest : m₁.store.latestCorrection loan = some ⟨6, by decide⟩ := by decide +kernel
  have room : ∀ latest, m₁.store.latestCorrection loan = some latest → latest < .last := by
    intro latest found
    rw [newest] at found
    cases found
    decide
  obtain ⟨_, _, _, _, _, _, spans, -, -, -, again⟩ := repeats lower _ _ m₁ first room
  obtain ⟨shown, m₅, run, -, laidOver, same⟩ := again ⟨8, by decide⟩
  have spanned : Plan.span lower = .ok span := rfl
  cases spanned.symm.trans spans
  exact ⟨shown, m₅, run, laidOver, same⟩

end Master

end Bitemporal
