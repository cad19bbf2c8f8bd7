import Bitemporal.Proofs.Amend
import Bitemporal.Proofs.Master.Replace

/-!
# Updates, corrections and removals from end to end

Each of the three inserts one record that it was meant to insert, and returns it
(`Master.Amends`).  An update may leave a remnant besides, of the record that it starts in, but
that is not what it returns.  What is read changes on the interval of the new record, or for a
removal from its end on, and nowhere else (`ReadsAs`).

`Master.UpdateEnds`, `Master.CorrectionEnds` and `Master.RemovalEnds` list all that may happen,
and `Master.amendments_exact` says that nothing else does.
-/

namespace Bitemporal

variable {α : Type}

/-! ## What is read afterwards -/

/-- Where `on` holds a slice says `said`, and elsewhere it says what another slice does. -/
structure ReadsAs (on : Instant → Prop) (said : Option α) (slice slice' : List (Record α)) :
    Prop where
  inside : ∀ t, on t → (Timeline.covering? slice' t).map Record.payload = said
  outside : ∀ t, ¬ on t →
    (Timeline.covering? slice' t).map Record.payload =
    (Timeline.covering? slice t).map Record.payload

namespace ReadsAs

variable {on : Instant → Prop} {slice slice' : List (Record α)} {span : Interval} {stop : Instant}
    {payload : α}

/-- A fact that is laid into a slice is read just where it was laid. -/
theorem of_laidInto (on_iff : ∀ t, on t ↔ t ∈ span)
    (content : slice'.map Record.content = laidInto span [⟨span, payload⟩]
      (slice.map Record.content)) : ReadsAs on (some payload) slice slice' := by
  refine ⟨fun t inside => ?_, fun t outside => ?_⟩
  · rw [← payloadAt?_content, content]
    refine payloadAt?_laidInto_of_mem ((on_iff t).mp inside) ?_
    rw [payloadAt?_singleton, if_pos ((on_iff t).mp inside)]
  · rw [← payloadAt?_content, ← payloadAt?_content, content]
    refine payloadAt?_laidInto_of_not_mem (mt (on_iff t).mpr outside) ?_
    rw [payloadAt?_singleton, if_neg (mt (on_iff t).mpr outside)]

/-- After a slice is cut nothing is read from the cut on. -/
theorem of_clip (content : slice'.map Record.content = clip (.finite .epoch) (.finite stop)
    (slice.map Record.content)) : ReadsAs (stop ≤ ·) none slice slice' := by
  refine ⟨fun t late => ?_, fun t early => ?_⟩
  · rw [← payloadAt?_content, content, payloadAt?_clip]
    exact if_neg fun h => absurd (Boundary.finite_lt_finite.mp h.2) late.not_gt
  · rw [← payloadAt?_content, ← payloadAt?_content, content, payloadAt?_clip]
    exact if_pos ⟨Boundary.epoch_le _, Boundary.finite_lt_finite.mpr (not_le.mp early)⟩

end ReadsAs

/-! ## Programs that return one record -/

/-- A run commits one exchange for an object: it closes `closed`, and inserts what is left over of
that and then the record that it was meant to insert, which it returns.  Afterwards `said` is read
where `on` holds. -/
def Master.Amends (m : Master (Store α)) (program : MasterM (Store α) (Record α))
    (object : ObjectId) (closed : List (Record α)) (rest : List (Pending α)) (meant : Pending α)
    (on : Instant → Prop) (said : Option α) : Prop :=
  ∃ before after left r m', program.run m = .ok r m' ∧ r.content = meant ∧
    left.map Record.content = rest ∧
    m.store.Exchanged object (m.store.nextCorrection object m.now) before closed after
    (left ++ [r]) m'.store ∧
    ReadsAs on said (before ++ (closed ++ after)) (before ++ (left ++ [r] ++ after))

section Shapes

variable {m : Master (Store α)} {e : Edit α} {program : MasterM (Store α) (Record α)}
    {fault : Fault}
  (shape : e.run = program >>= fun r => pure [r])

include shape

theorem Master.Refuses.of_edit (refuses : m.Refuses e.run fault) : m.Refuses program fault := by
  rcases refuses with ⟨m', failed, store⟩
  rw [shape] at failed
  cases run : program.run m with
  | ok r m'' =>
    rw [Program.run_bind_pure_of_ok run] at failed
    cases failed
  | error fault' m'' =>
    rw [Program.run_bind_of_error run] at failed
    cases failed
    exact ⟨m', run, store⟩

/-- An edit whose plan exchanges a part of the slice, and ends with the record that is meant. -/
theorem Edit.amends {before closed after : List (Record α)} {plan : Plan α} {start : Instant}
    {stop : Boundary} {rest : List (Pending α)} {meant : Pending α} {on : Instant → Prop}
    {said : Option α} (sound : m.store.Sound) (prechecked : e.precheck m.config = .ok ())
    (drafted : e.draft m = .ok (before ++ (closed ++ after), plan))
    (split : (m.store.lineage (e.object m.config)).activeRecords = before ++ (closed ++ after))
    (exchanges : plan.Exchanges before closed after start stop)
    (fits : IsTiling (plan.exchanged before after))
    (known : m.store.contains (e.object m.config) = true)
    (room : ∀ latest, m.store.latestCorrection (e.object m.config) = some latest → latest < .last)
    (inserts : plan.inserts = rest ++ [meant])
    (picks : ∀ left r, left.map Record.content = rest → r.content = meant →
      e.pick m (left ++ [r]) = .ok [r])
    (reads : ∀ inserted : List (Record α), inserted.map Record.content = plan.inserts →
      ReadsAs on said (before ++ (closed ++ after)) (before ++ (inserted ++ after))) :
    m.Amends program (e.object m.config) closed rest meant on said := by
  rcases Edit.run_of_exchange sound prechecked drafted split exchanges fits known room with
    ⟨inserted, shown, m', run, picked, content, exchanged⟩
  have read := reads inserted content
  rw [inserts, List.map_eq_append_iff] at content
  rcases content with ⟨left, last, rfl, leftContent, lastContent⟩
  rcases List.map_eq_singleton_iff.mp lastContent with ⟨r, rfl, rContent⟩
  cases (picks left r leftContent rContent).symm.trans picked
  rw [shape] at run
  rcases Program.exists_of_run_bind_eq_ok run with ⟨r', m'', run, done⟩
  cases done
  exact ⟨before, after, left, r, m', run, rContent, leftContent, exchanged, read⟩

end Shapes

/-! ## What is planned and picked -/

namespace Edit

variable {init left inserted : List (Record α)} {latest r : Record α} {object : ObjectId}
    {t : Instant} {payload : α}

/-- An update that does not start after the last version is refused. -/
theorem planUpdate_of_early (early : t ≤ latest.version.start) :
    planUpdate object payload t (init ++ [latest]) =
      .error (.invalidInput (.updateTooEarly object t latest.version.start)) := by
  unfold planUpdate Master.checkUpdate
  rw [List.getLast?_concat]
  dsimp only
  rw [if_pos early]
  rfl

/-- An update that starts after the last version is a splice without an end. -/
theorem planUpdate_of_later (later : latest.version.start < t) :
    planUpdate object payload t (init ++ [latest]) = Plan.splice (init ++ [latest])
      [⟨payload, t, none⟩] := by
  unfold planUpdate Master.checkUpdate
  rw [List.getLast?_concat]
  dsimp only
  rw [if_neg later.not_ge]
  rfl

/-- A remnant starts before the update does, so it is not taken for the update. -/
theorem updated_concat (earlier : ∀ s ∈ left, s.version.start < t)
    (starts : r.version.start = t) : Master.updated object t (left ++ [r]) = .ok r := by
  have skipped : left.find? (fun s => s.version.start = t) = none :=
    List.find?_eq_none.mpr fun s member => by simpa using (earlier s member).ne
  have found : [r].find? (fun s => s.version.start = t) = some r :=
    List.find?_cons_of_pos (by simpa using starts)
  rw [Master.updated, List.find?_append, skipped, found]
  rfl

theorem lastInserted_concat (edit : String) :
    Master.lastInserted object edit (left ++ [r]) = .ok r := by
  rw [Master.lastInserted, List.getLast?_concat]

end Edit

namespace Master

/-! ## How the three edits end -/

/-- How an update ends of an object that is covered up to `stop`, and last by the record `latest`.
It must start after that record does, and not after it has ended. -/
structure UpdateEnds (m : Master (Store α)) (object : ObjectId) (latest : Record α)
    (stop : Boundary) (payload : α) (start : Option Instant) (t : Instant) : Prop where
  early : t ≤ latest.version.start →
    m.Refuses (update object payload start)
    (.invalidInput (.updateTooEarly object t latest.version.start))
  apart : stop < .finite t →
    ∃ i j, m.Refuses (update object payload start) (.nonExactRange object (.gap i j))
  meets : .finite t = stop →
    m.Amends (update object payload start) object [] [] ⟨.openFrom t, payload⟩ (t ≤ ·)
    (some payload)
  inside : ∀ later : latest.version.start < t, .finite t < stop →
    m.Amends (update object payload start) object [latest]
      [⟨⟨latest.version.start, .finite t, later⟩, latest.payload⟩] ⟨.openFrom t, payload⟩ (t ≤ ·)
      (some payload)

/-- How a correction ends of an object with the current slice `slice`. -/
structure CorrectionEnds (m : Master (Store α)) (slice : List (Record α)) (id : RecordId)
    (payload : α) : Prop where
  unknown : ∀ fault, m.store.record id = .error fault →
    m.Refuses (correct id payload) (.notFound (.record id))
  superseded : ∀ r instant, m.store.record id = .ok r → r.supersededAt? = some instant →
    r ∉ slice ∧ m.Refuses (correct id payload) (.staleVersion id instant)
  current : ∀ r, m.store.record id = .ok r → r.supersededAt? = none →
    r ∈ slice ∧ m.Amends (correct id payload) id.object [r] [] ⟨r.version, payload⟩
    (· ∈ r.version) (some payload)

/-- How a removal ends of an object that is covered up to `stop`, and last by the record `latest`.
Nothing may have ended the object before, and that record must start earlier than the removal. -/
structure RemovalEnds (m : Master (Store α)) (object : ObjectId) (latest : Record α)
    (stop : Boundary) (instant : Option Instant) (t : Instant) : Prop where
  ended : stop ≠ .unbounded →
    m.Refuses (remove object instant) (.invalidInput (.alreadyEnded object stop))
  early : stop = .unbounded → t ≤ latest.version.start →
    m.Refuses (remove object instant) (.invalidInput (.endTooEarly object t latest.version.start))
  inside : ∀ later : latest.version.start < t, stop = .unbounded →
    m.Amends (remove object instant) object [latest]
    [] ⟨⟨latest.version.start, .finite t, later⟩, latest.payload⟩
      (t ≤ ·) none

section Amendments

variable {m : Master (Store α)} {object : ObjectId} {init : List (Record α)} {latest : Record α}
    {start : Instant}
  {stop : Boundary} (sound : m.store.Sound)

include sound

/-- A current record is corrected on its own version interval. -/
theorem amends_correct {id : RecordId} {record : Record α}
    (found : m.store.record id = .ok record) (current : record.supersededAt? = none)
    (room : ∀ newest, m.store.latestCorrection id.object = some newest → newest < .last)
    (payload : α) :
    m.Amends (correct id payload) id.object [record] [] ⟨record.version, payload⟩
      (· ∈ record.version) (some payload) := by
  let replacements : List (Replacement α) := [⟨payload, record.version.start, none⟩]
  have fits : ¬ Plan.Misfits record replacements := by
    intro misfits
    rcases misfits with ⟨r, member, beyond⟩ | ⟨last, stop, final, ends, -⟩
    · cases List.mem_singleton.mp member
      exact absurd record.version.start_lt_stop beyond.not_gt
    · cases final
      cases ends
  rcases Plan.exists_singleReplace current (Plan.isRun_openFrom payload _) rfl rfl fits with
      ⟨laid, made, planned⟩
  rcases Plan.layOut_singleton_eq_ok_iff.mp made with ⟨extent, starts, stops, rfl⟩
  cases Interval.ext starts stops
  rcases List.append_of_mem ((sound.mem_activeRecords_of_record found).mpr current) with
      ⟨before, after, split⟩
  have tiled : IsTiling ((before ++ ([record] ++ after)).map Record.version) :=
    split ▸ (sound.lineage_sound id.object).activeRecords_tiled
  let plan : Plan α := ⟨[record.id], [⟨record.version, payload⟩]⟩
  have drafted : (Edit.correct id payload).draft m = .ok (before ++ ([record] ++ after), plan) :=
    split ▸ Edit.draftFor_of_ok sound found planned
  have new : Spans record.version.start record.version.stop (plan.inserts.map Pending.version) :=
    .single record.version
  rcases Plan.exchanges_of_spans tiled (.single record.version) new rfl with ⟨exchanges, tiles⟩
  have known : m.store.contains id.object = true :=
    Store.contains_of_mem (sound.record_eq_ok_iff.mp found).1
  refine Edit.amends rfl sound rfl drafted split exchanges tiles known room rfl
    (fun left r _ _ => ?_) fun inserted content => ?_
  · rw [Edit.pick, Edit.lastInserted_concat]
    rfl
  · refine .of_laidInto (fun _ => Iff.rfl) ?_
    rw [List.map_append, List.map_append, content]
    exact Plan.content_eq_of_correction tiled

/-- How a correction ends, for every record. -/
theorem correctionEnds (id : RecordId) (payload : α)
    (room : ∀ newest, m.store.latestCorrection id.object = some newest → newest < .last) :
    m.CorrectionEnds (m.store.lineage id.object).activeRecords id payload := by
  have shape : (Edit.correct id payload).run = (correct id payload : MasterM (Store α) _) >>=
      fun r => pure [r] := rfl
  refine ⟨fun fault failed => ?_, fun r instant found superseded => ?_, fun r found current => ?_⟩
  · cases Store.record_eq_error failed
    exact .of_edit shape (Edit.run_of_refused rfl (Edit.draftFor_of_unknown failed))
  · refine ⟨fun listed => ?_, ?_⟩
    · cases superseded.symm.trans ((sound.mem_activeRecords_of_record found).mp listed)
    · rcases sound.record_eq_ok_iff.mp found with ⟨-, rfl⟩
      refine .of_edit shape (Edit.run_of_refused rfl (Edit.draftFor_of_error found ?_))
      exact Plan.singleReplace_of_superseded superseded _
  · exact ⟨(sound.mem_activeRecords_of_record found).mpr current,
      amends_correct sound found current room payload⟩

variable (known : m.store.contains object = true)
  (active : (m.store.lineage object).activeRecords = init ++ [latest])
  (spans : Spans start stop ((init ++ [latest]).map Record.version))
  (room : ∀ newest, m.store.latestCorrection object = some newest → newest < .last)

include known active spans room

/-- An update is the splice of one replacement without an end, which leaves no remnant but that of
the last record. -/
theorem updateEnds_of_later {first : Option Instant}
    (later : latest.version.start < first.getD m.now) (payload : α) :
    m.UpdateEnds object latest stop payload first (first.getD m.now) := by
  have shape : (Edit.update object payload first).run =
      (update object payload first : MasterM (Store α) _) >>= fun r => pure [r] := rfl
  let t := first.getD m.now
  have tiled := spans.tiling
  have last := Plan.stop_of_spans spans
  rcases Plan.exists_splices (Plan.isRun_openFrom payload t) tiled with
    ⟨plan, span, before, closed, after, head, laid, tail, planned, split, splices⟩
  rcases splices.openFrom_eq with ⟨rfl, rfl, rfl, rfl⟩
  have ended := splices.closed_eq_nil_of_ended split tiled later
  have reaches := splices.closed_eq_singleton_of_reaches split tiled later
  have inserts : plan.inserts = head ++ [⟨.openFrom t, payload⟩] := by
    rw [splices.inserts_eq, List.append_nil]
  have drafted : (Edit.update object payload first).draft m =
      .ok (before ++ (closed ++ []), plan) := by
    rw [← split, ← active]
    refine Edit.draftOn_of_ok sound known ?_
    rw [active, Edit.planUpdate_of_later later]
    exact planned
  rw [split] at tiled active spans
  rcases splices.exchanges tiled with ⟨_, _, exchanges, -⟩
  have fits_iff := splices.fits_iff spans
  have committed (fits : .finite t ≤ stop) (earlier : ∀ p ∈ head, p.version.start < t) :
      m.Amends (update object payload first) object closed head ⟨.openFrom t, payload⟩ (t ≤ ·)
        (some payload) := by
    have tiles := fits_iff.mpr ⟨fits, Boundary.le_unbounded⟩
    refine Edit.amends shape sound rfl drafted active exchanges tiles known room inserts
      (fun left r leftContent rContent => ?_) fun inserted content => ?_
    · have earlier' : ∀ s ∈ left, s.version.start < t := fun s member =>
        earlier s.content (leftContent ▸ List.mem_map_of_mem member)
      have starts : r.version.start = t := congrArg (fun p => p.version.start) rContent
      rw [Edit.pick, Edit.updated_concat earlier' starts]
      rfl
    · exact .of_laidInto (fun _ => Interval.mem_openFrom.symm)
        (splices.map_content_eq tiled content)
  refine ⟨fun early => absurd later early.not_gt, fun apart => ?_, fun meets => ?_,
    fun _ inside => ?_⟩
  · have misfit := mt fits_iff.mp fun fits => absurd fits.1 apart.not_ge
    rcases Edit.run_of_gap sound rfl drafted active exchanges misfit with ⟨i, j, refuses⟩
    exact ⟨i, j, .of_edit shape refuses⟩
  · rcases ended (last ▸ meets.ge) with ⟨rfl, rfl⟩
    exact committed meets.le fun p member => absurd member List.not_mem_nil
  · rcases reaches (last ▸ inside) with ⟨rfl, rfl⟩
    refine committed inside.le fun p member => ?_
    cases List.mem_singleton.mp member
    exact later

/-- How an update of a known lineage ends, for every start. -/
theorem updateEnds (first : Option Instant) (payload : α) :
    m.UpdateEnds object latest stop payload first (first.getD m.now) := by
  rcases lt_or_ge latest.version.start (first.getD m.now) with later | early
  · exact updateEnds_of_later sound known active spans room later payload
  · have before : .finite (first.getD m.now) < stop :=
      (Boundary.finite_le_finite.mpr early).trans_lt
        (Plan.stop_of_spans spans ▸ latest.version.start_lt_stop)
    refine ⟨fun _ => ?_, fun apart => absurd apart before.not_gt,
      fun meets => absurd meets before.ne, fun later => absurd later early.not_gt⟩
    refine .of_edit (e := .update object payload first) rfl (Edit.run_of_refused rfl ?_)
    refine Edit.draftOn_of_error sound known ?_
    rw [active]
    exact Edit.planUpdate_of_early early

/-- A removal cuts off the last record, and what is before that instant stays. -/
theorem amends_remove {instant : Option Instant} (isOpen : latest.version.stop = .unbounded)
    (later : latest.version.start < instant.getD m.now) :
    m.Amends (remove object instant) object [latest] []
      ⟨⟨latest.version.start, .finite (instant.getD m.now), later⟩, latest.payload⟩
        (instant.getD m.now ≤ ·) none := by
  let cut : Interval := ⟨latest.version.start, .finite (instant.getD m.now), later⟩
  let plan : Plan α := ⟨[latest.id], [⟨cut, latest.payload⟩]⟩
  have tiled := spans.tiling
  have drafted : (Edit.remove object instant).draft m = .ok (init ++ ([latest] ++ []), plan) := by
    rw [List.append_nil, ← active]
    refine Edit.draftOn_of_ok sound known ?_
    rw [active]
    exact Plan.terminate_of_open isOpen later
  have new : Spans cut.start cut.stop (plan.inserts.map Pending.version) := .single cut
  have exchanges : plan.Exchanges init [latest] [] cut.start cut.stop :=
    ⟨rfl, new, Plan.before_last tiled, nofun⟩
  have fits : IsTiling (plan.exchanged init []) := by
    have old : Spans latest.version.start latest.version.stop ([latest].map Record.version) :=
      .single latest.version
    rw [← List.append_nil [latest], List.map_append, List.map_append] at tiled
    rcases old.tiling_between_iff.mp tiled with ⟨tiledInit, -, seam, -⟩
    exact new.tiling_between_iff.mpr ⟨tiledInit, List.isChain_nil, seam, nofun⟩
  refine Edit.amends rfl sound rfl drafted active exchanges fits known room rfl
    (fun left r _ _ => ?_) fun inserted content => ?_
  · rw [Edit.pick, Edit.lastInserted_concat]
    rfl
  · refine .of_clip ?_
    rw [List.map_append, List.append_nil, content]
    exact Plan.content_eq_of_terminate tiled isOpen later

/-- How a removal of a known lineage ends, for every end. -/
theorem removalEnds (instant : Option Instant) :
    m.RemovalEnds object latest stop instant (instant.getD m.now) := by
  have last := Plan.stop_of_spans spans
  have refuses {fault : Fault}
      (refused : Plan.terminate object (init ++ [latest]) (instant.getD m.now) = .error fault) :
      m.Refuses (remove object instant) fault := by
    refine .of_edit (e := .remove object instant) rfl (Edit.run_of_refused rfl ?_)
    exact Edit.draftOn_of_error sound known (active ▸ refused)
  refine ⟨fun ended => ?_, fun isOpen early => refuses ?_, fun later isOpen => ?_⟩
  · rw [← last] at ended ⊢
    exact refuses (Plan.terminate_of_ended ended _)
  · exact Plan.terminate_of_early (last.trans isOpen) early
  · exact amends_remove sound known active spans room (last.trans isOpen) later

end Amendments

/-! ## All that may happen -/

/-- Whatever a master over the empty store was asked before, and by whatever clock, an object that
exists covers some span of time up to `stop`, and its last current record is `latest`.  As long as
there is a new stamp, all updates, corrections and removals of the object end as is said there. -/
theorem amendments_exact {config : Config} {start₀ : Instant}
    {script : List (Instant × Request α)} {object : ObjectId}
    (known :
      ((opened config start₀ : Master (Store α)).after script).store.contains object = true)
    (room : ∀ newest,
      ((opened config start₀ : Master (Store α)).after script).store.latestCorrection object =
        some newest → newest < .last)
    (now : Instant) :
    let m : Master (Store α) := ((opened config start₀).after script).withClock now
    ∃ slice start stop latest, m.store.activeSlice object = .ok slice ∧
      Spans start stop (slice.map Record.version) ∧
      slice.getLast? = some latest ∧
      (∀ first payload, m.UpdateEnds object latest stop payload first (first.getD now)) ∧
      (∀ id payload, id.object = object → m.CorrectionEnds slice id payload) ∧
      ∀ instant, m.RemovalEnds object latest stop instant (instant.getD now) := by
  intro m
  have sound₀ : (opened config start₀ : Master (Store α)).Sound := .opened config start₀
  have populated : m.store.Populated := sound₀.populated_after .empty script
  have sound : m.store.Sound := (sound₀.after script).1.store
  have tiled : IsTiling ((m.store.lineage object).activeRecords.map Record.version) :=
    sound.held_tiled object
  have filled := populated object known
  rcases tiled.exists_spans filled with ⟨start, stop, spans⟩
  rcases (m.store.lineage object).activeRecords.eq_nil_or_concat' with
      none | ⟨init, latest, active⟩
  · exact absurd (congrArg (List.map Record.version) none) filled
  · have ending := spans
    rw [active] at ending
    refine ⟨_, start, stop, latest, sound.activeSlice_of_contains known, spans, ?_,
      fun first payload => ?_, fun id payload same => ?_, fun instant => ?_⟩
    · rw [active, List.getLast?_concat]
    · exact updateEnds sound known active ending room first payload
    · subst same
      exact correctionEnds sound id payload room
    · exact removalEnds sound known active ending room instant

/-- The loan goes on as it was before it was lowered.  From there on it can
be changed, or ended. -/
theorem amendments_exact_loweringScript :
    let m : Master (Store String) :=
      ((opened .default .epoch).after loweringScript).withClock ⟨40, by decide⟩
    let latest : Record String :=
      ⟨loan.atVersion "4", .openFrom ⟨30, by decide⟩, .openFrom ⟨6, by decide⟩, "4000"⟩
    let rest : Interval := ⟨⟨30, by decide⟩, .finite ⟨40, by decide⟩, by decide⟩
    m.store.contains loan = true ∧ m.store.latestCorrection loan = some ⟨6, by decide⟩ ∧
      m.Amends (update loan "5000" none) loan [latest] [⟨rest, "4000"⟩]
        ⟨.openFrom ⟨40, by decide⟩, "5000"⟩ (⟨40, by decide⟩ ≤ ·) (some "5000") ∧
      m.Amends (remove loan none) loan [latest] [] ⟨rest, "4000"⟩ (⟨40, by decide⟩ ≤ ·) none := by
  intro m latest rest
  have known : m.store.contains loan = true := rfl
  have newest : m.store.latestCorrection loan = some ⟨6, by decide⟩ := rfl
  have room : ∀ newest, m.store.latestCorrection loan = some newest → newest < .last := by
    intro instant found
    cases newest.symm.trans found
    decide
  have current : ∃ slice, m.store.activeSlice loan = .ok slice ∧ slice.getLast? = some latest :=
    ⟨_, rfl, rfl⟩
  rcases current with ⟨slice, current, last⟩
  rcases amendments_exact known room ⟨40, by decide⟩ with
      ⟨slice', start, stop, r, read, spans, final, updates, -, removes⟩
  cases current.symm.trans read
  cases last.symm.trans final
  rcases spans.exists_getLast with ⟨i, shape, rfl⟩
  rw [List.getLast?_map, last] at shape
  cases shape
  exact ⟨known, newest, (updates none "5000").inside (by decide) Boundary.finite_lt_unbounded,
    (removes none).inside (by decide) rfl⟩

end Master

end Bitemporal
