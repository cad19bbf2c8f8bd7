import Bitemporal.Proofs.Master.Commit
import Bitemporal.Proofs.Master.Request
import Bitemporal.Proofs.Replacement

/-!
# The shape of edits

Every edit has one shape (`Edit.run_eq_perform`): something is checked before the lock is taken
(`Edit.precheck`), a plan is drafted on what the store holds (`Edit.draft`) and committed, and of
the records that were inserted some are shown (`Edit.pick`).

On a sound store what is drafted suits the current slice (`Edit.draft_suits`), what is picked is
there (`Edit.exists_pick`), and all that may go wrong before the commit is the caller's fault.  So
an edit ends in one of two ways (`Edit.run_ends`): refused, with the store as it was, or
committed.
-/

namespace Bitemporal

variable {σ α : Type}

/-! ## Locked writes -/

namespace Master

variable {β γ : Type} {m : Master σ} {object : ObjectId} {write write' : Program σ β} {store : σ}

/-- The master after a write of an object that left `store`. -/
def settle (m : Master σ) (object : ObjectId) (store : σ) (succeeded : Bool) : Master σ :=
  { m with session := ⟨store, (m.session.coordinator.enter object).leave object succeeded⟩ }

/-- A write that succeeds is counted as committed, and its store is kept. -/
theorem run_locked_of_ok {b : β} (run : write.run m.store = .ok b store) :
    (locked object write).run m = .ok b (m.settle object store true) := by
  change write m.session.store = _ at run
  change locked object write m = _
  rw [locked, Session.execute, run]
  rfl

theorem run_locked_of_error {fault : Fault} (run : write.run m.store = .error fault store) :
    (locked object write).run m = .error fault (m.settle object store false) := by
  change write m.session.store = _ at run
  change locked object write m = _
  rw [locked, Session.execute, run]
  rfl

/-- Under the lock only what a write does to the store counts. -/
theorem run_locked_congr (same : write.run m.store = write'.run m.store) :
    (locked object write).run m = (locked object write').run m := by
  cases run : write.run m.store with
  | ok b store => rw [run_locked_of_ok run, run_locked_of_ok (same.symm.trans run)]
  | error fault store => rw [run_locked_of_error run, run_locked_of_error (same.symm.trans run)]

/-- What is made of the result under the lock may as well be made of it after. -/
theorem run_locked_bind_pure (write : Program σ β) (f : β → γ) :
    (locked object write >>= fun b => pure (f b)).run m =
      (locked object (write >>= fun b => pure (f b))).run m := by
  cases run : write.run m.store with
  | ok b store =>
    rw [Program.run_bind_pure_of_ok (run_locked_of_ok run),
      run_locked_of_ok (Program.run_bind_pure_of_ok run)]
  | error fault store =>
    rw [Program.run_bind_of_error (run_locked_of_error run),
      run_locked_of_error (Program.run_bind_of_error run)]

end Master

/-! ## The shape of edits -/

namespace Edit

/-- What is checked before the lock is taken. -/
def precheck (config : Config) : Edit α → Except Fault Unit
  | add _ _ start stop => discard (Interval.between start (.ofInstant? stop))
  | addWithId object _ _ => object.validate
  | replaceVersions _ _ replacements | replaceVersion _ replacements | splice _ replacements =>
    Replacement.validate replacements config.maxReplacements
  | update .. | correct .. | remove .. => .ok ()

/-- The plan for the first record of an object. -/
def draftFirst (s : Store α) (object : ObjectId) (payload : α) (version : Interval) :
    Except Fault (List (Record α) × Plan α) :=
  if s.contains object then .error (.invalidInput (.alreadyExists object))
  else .ok ([], ⟨[], [⟨version, payload⟩]⟩)

/-- A plan made on the current slice. -/
def draftOn (s : Store α) (object : ObjectId)
    (planner : List (Record α) → Except Fault (Plan α)) :
    Except Fault (List (Record α) × Plan α) := do
  let active ← s.activeSlice object
  return (active, ← planner active)

/-- A plan that replaces a record. -/
def draftFor (s : Store α) (id : RecordId) (replacements : Record α → List (Replacement α)) :
    Except Fault (List (Record α) × Plan α) := do
  let record ← s.record id
  let plan ← Plan.singleReplace record (replacements record)
  return (← s.activeSlice id.object, plan)

/-- The plan of an update, which must start after the last version. -/
def planUpdate (object : ObjectId) (payload : α) (start : Instant) (active : List (Record α)) :
    Except Fault (Plan α) := do
  Master.checkUpdate object start active
  Plan.splice active [⟨payload, start, none⟩]

/-- The slice on which an edit is planned, and its plan. -/
def draft (m : Master (Store α)) : Edit α → Except Fault (List (Record α) × Plan α)
  | add drawn payload start stop => do
    let version ← Interval.between start (.ofInstant? stop)
    draftFirst m.store (.generate m.config.scheme drawn) payload version
  | addWithId object payload version => draftFirst m.store object payload version
  | replaceVersions object target replacements =>
    draftOn m.store object fun active => Plan.exactReplace object active target replacements
  | replaceVersion id replacements => draftFor m.store id fun _ => replacements
  | splice object replacements =>
    draftOn m.store object fun active => Plan.splice active replacements
  | update object payload start =>
    draftOn m.store object (planUpdate object payload (start.getD m.now))
  | correct id payload =>
    draftFor m.store id fun record => [⟨payload, record.version.start, none⟩]
  | remove object stop =>
    draftOn m.store object fun active => Plan.terminate object active (stop.getD m.now)

/-- The records that an edit shows of those that it inserted. -/
def pick (m : Master (Store α)) (inserted : List (Record α)) :
    Edit α → Except Fault (List (Record α))
  | add drawn .. =>
    return [← Master.lastInserted (.generate m.config.scheme drawn) "creation" inserted]
  | addWithId object .. => return [← Master.lastInserted object "creation" inserted]
  | replaceVersions .. | replaceVersion .. | splice .. => return inserted
  | update object _ start => return [← Master.updated object (start.getD m.now) inserted]
  | correct id _ => return [← Master.lastInserted id.object "correction" inserted]
  | remove object _ => return [← Master.lastInserted object "termination" inserted]

/-- Drafts a plan, commits it and picks what is shown. -/
def write (m : Master (Store α)) (e : Edit α) : Program (Store α) (List (Record α)) := do
  let drafted ← Program.ofExcept (e.draft m)
  let inserted ← Master.commitPlan m (e.object m.config) drafted.1 drafted.2
  Program.ofExcept (e.pick m inserted)

/-- The shape of all edits. -/
def perform (e : Edit α) : MasterM (Store α) (List (Record α)) := do
  let m ← get
  Program.ofExcept (e.precheck m.config)
  Master.locked (e.object m.config) (e.write m)

/-- A first record is drafted, committed and picked like the records of other edits. -/
theorem run_create (m : Master (Store α)) (object : ObjectId) (payload : α) (version : Interval) :
    (Master.create object payload version >>= fun r => pure [r]).run m =
      (Master.locked object do
        let drafted ← Program.ofExcept (draftFirst m.store object payload version)
        let inserted ← Master.commitPlan m object drafted.1 drafted.2
        Program.ofExcept (return [← Master.lastInserted object "creation" inserted])).run m := by
  unfold Master.create
  rw [bind_assoc, EStateM.run_bind, EStateM.run_get]
  refine (Master.run_locked_bind_pure _ _).trans (Master.run_locked_congr ?_)
  change ((Program.read _ >>= _) >>= _).run _ = _
  rw [bind_assoc, Program.run_read_bind]
  unfold draftFirst
  cases m.store.contains object with
  | true => rfl
  | false =>
    rw [Program.run_bind_of_ok Program.run_ofExcept_ok, if_neg Bool.false_ne_true,
      if_neg Bool.false_ne_true, Program.run_bind_of_ok Program.run_ofExcept_ok, bind_assoc]
    simp only [Program.ofExcept_bind, Program.ofExcept_pure]

/-- Every edit in memory has the common shape. -/
theorem run_eq_perform (m : Master (Store α)) (e : Edit α) : e.run.run m = e.perform.run m := by
  unfold perform
  rw [EStateM.run_bind, EStateM.run_get]
  cases e with
  | add drawn payload start stop =>
    change (Master.add drawn payload start stop >>= fun r => pure [r]).run m = _
    unfold Master.add
    rw [bind_assoc, EStateM.run_bind, EStateM.run_get]
    have prechecked : precheck m.config (.add drawn payload start stop) =
        discard (Interval.between start (.ofInstant? stop)) := rfl
    have drafted : draft m (.add drawn payload start stop) =
        (Interval.between start (.ofInstant? stop) >>= fun version =>
          draftFirst m.store (.generate m.config.scheme drawn) payload version) := rfl
    dsimp only
    rw [prechecked]
    cases extent : Interval.between start (.ofInstant? stop) with
    | error fault => rfl
    | ok version =>
      refine (run_create m _ payload version).trans (Master.run_locked_congr ?_)
      rw [write, drafted, extent]
      rfl
  | addWithId object payload version =>
    change (Master.addWithId object payload version >>= fun r => pure [r]).run m = _
    unfold Master.addWithId
    rw [bind_assoc]
    exact Program.run_ofExcept_bind_congr fun _ => run_create m object payload version
  | replaceVersions object target replacements =>
    change (Master.replaceVersions object target replacements).run m = _
    unfold Master.replaceVersions
    rw [EStateM.run_bind, EStateM.run_get]
    refine Program.run_ofExcept_bind_congr fun _ => Master.run_locked_congr ?_
    change (Program.read _ >>= _).run _ = _
    simp only [write, draft, draftOn, pick, Program.run_read_bind, Program.ofExcept_bind,
      Program.ofExcept_pure, bind_assoc, pure_bind, bind_pure]
    rfl
  | replaceVersion id replacements =>
    change (Master.replaceVersion id replacements).run m = _
    unfold Master.replaceVersion
    rw [EStateM.run_bind, EStateM.run_get]
    refine Program.run_ofExcept_bind_congr fun _ => Master.run_locked_congr ?_
    change (Program.read _ >>= _).run _ = _
    simp only [write, draft, draftFor, pick, Program.run_read_bind, Program.ofExcept_bind,
      Program.ofExcept_pure, bind_assoc, pure_bind, bind_pure]
    refine Program.run_ofExcept_bind_congr fun record =>
      Program.run_ofExcept_bind_congr fun plan => ?_
    exact Program.run_read_bind _ _ _
  | splice object replacements =>
    change (Master.splice object replacements).run m = _
    unfold Master.splice
    rw [EStateM.run_bind, EStateM.run_get]
    refine Program.run_ofExcept_bind_congr fun _ => Master.run_locked_congr ?_
    change (Program.read _ >>= _).run _ = _
    simp only [write, draft, draftOn, pick, Program.run_read_bind, Program.ofExcept_bind,
      Program.ofExcept_pure, bind_assoc, pure_bind, bind_pure]
    rfl
  | update object payload start =>
    change (Master.update object payload start >>= fun r => pure [r]).run m = _
    unfold Master.update
    rw [bind_assoc, EStateM.run_bind, EStateM.run_get]
    refine (Master.run_locked_bind_pure _ _).trans (Master.run_locked_congr ?_)
    change ((Program.read _ >>= _) >>= _).run _ = _
    simp only [write, draft, draftOn, planUpdate, pick, Program.run_read_bind,
      Program.ofExcept_bind, Program.ofExcept_pure, bind_assoc, pure_bind]
    rfl
  | correct id payload =>
    change (Master.correct id payload >>= fun r => pure [r]).run m = _
    unfold Master.correct
    rw [bind_assoc, EStateM.run_bind, EStateM.run_get]
    refine (Master.run_locked_bind_pure _ _).trans (Master.run_locked_congr ?_)
    change ((Program.read _ >>= _) >>= _).run _ = _
    simp only [write, draft, draftFor, pick, Program.run_read_bind, Program.ofExcept_bind,
      Program.ofExcept_pure, bind_assoc, pure_bind]
    refine Program.run_ofExcept_bind_congr fun record =>
      Program.run_ofExcept_bind_congr fun plan => ?_
    exact Program.run_read_bind _ _ _
  | remove object stop =>
    change (Master.remove object stop >>= fun r => pure [r]).run m = _
    unfold Master.remove
    rw [bind_assoc, EStateM.run_bind, EStateM.run_get]
    refine (Master.run_locked_bind_pure _ _).trans (Master.run_locked_congr ?_)
    change ((Program.read _ >>= _) >>= _).run _ = _
    simp only [write, draft, draftOn, pick, Program.run_read_bind, Program.ofExcept_bind,
      Program.ofExcept_pure, bind_assoc, pure_bind]
    rfl

/-! ## What is checked and drafted -/

variable {m : Master (Store α)} {e : Edit α} {active : List (Record α)} {plan : Plan α}

theorem precheck_blamesCaller (config : Config) (e : Edit α) :
    Program.BlamesCaller (e.precheck config) := by
  cases e with
  | add drawn payload start stop => exact (Program.BlamesCaller.between _ _).bind fun _ _ => .ok
  | addWithId object payload version =>
    change Program.BlamesCaller object.validate
    unfold ObjectId.validate
    split
    · exact .ok
    · exact .error rfl
  | replaceVersions object target replacements =>
    exact Replacement.validate_blamesCaller replacements _
  | replaceVersion id replacements => exact Replacement.validate_blamesCaller replacements _
  | splice object replacements => exact Replacement.validate_blamesCaller replacements _
  | update object payload start => exact .ok
  | correct id payload => exact .ok
  | remove object stop => exact .ok

theorem draftFirst_blamesCaller (s : Store α) (object : ObjectId) (payload : α)
    (version : Interval) : Program.BlamesCaller (draftFirst s object payload version) := by
  unfold draftFirst
  split
  · exact .error rfl
  · exact .ok

theorem checkUpdate_blamesCaller (object : ObjectId) (start : Instant)
    (active : List (Record α)) :
    Program.BlamesCaller (Master.checkUpdate object start active) := by
  unfold Master.checkUpdate
  split
  · exact .error rfl
  · split
    · exact .error rfl
    · exact .ok

theorem draftOn_blamesCaller {s : Store α} (sound : s.Sound) (object : ObjectId)
    {planner : List (Record α) → Except Fault (Plan α)}
    (blames : ∀ active, Program.BlamesCaller (planner active)) :
    Program.BlamesCaller (draftOn s object planner) := by
  refine (sound.activeSlice_blamesCaller object).bind fun active _ => ?_
  exact (blames active).bind fun plan _ => .ok

theorem draftFor_blamesCaller {s : Store α} (sound : s.Sound) (id : RecordId)
    (replacements : Record α → List (Replacement α)) :
    Program.BlamesCaller (draftFor s id replacements) := by
  refine (Store.record_blamesCaller s id).bind fun record _ => ?_
  refine (Plan.singleReplace_blamesCaller _ _).bind fun plan _ => ?_
  exact (sound.activeSlice_blamesCaller _).bind fun active _ => .ok

/-- An edit that cannot be drafted on a sound store is the caller's fault. -/
theorem draft_blamesCaller (sound : m.store.Sound) (e : Edit α) :
    Program.BlamesCaller (e.draft m) := by
  cases e with
  | add drawn payload start stop =>
    exact (Program.BlamesCaller.between _ _).bind fun version _ => draftFirst_blamesCaller _ _ _ _
  | addWithId object payload version => exact draftFirst_blamesCaller _ _ _ _
  | replaceVersions object target replacements =>
    exact draftOn_blamesCaller sound object fun active => Plan.exactReplace_blamesCaller _ _ _ _
  | replaceVersion id replacements => exact draftFor_blamesCaller sound id _
  | splice object replacements =>
    exact draftOn_blamesCaller sound object fun active => Plan.splice_blamesCaller _ _
  | update object payload start =>
    refine draftOn_blamesCaller sound object fun active => ?_
    exact (checkUpdate_blamesCaller _ _ _).bind fun _ _ => Plan.splice_blamesCaller _ _
  | correct id payload => exact draftFor_blamesCaller sound id _
  | remove object stop =>
    exact draftOn_blamesCaller sound object fun active => Plan.terminate_blamesCaller _ _ _

/-- A first record is drafted only for an unknown object. -/
theorem draftFirst_eq_ok {s : Store α} {object : ObjectId} {payload : α} {version : Interval}
    (drafted : draftFirst s object payload version = .ok (active, plan)) :
    s.timeline? object = none ∧ active = [] ∧ plan = ⟨[], [⟨version, payload⟩]⟩ := by
  unfold draftFirst at drafted
  split at drafted
  · cases drafted
  · rename_i unknown
    cases drafted
    rw [Store.contains, Option.isSome_iff_ne_none, not_not] at unknown
    exact ⟨unknown, rfl, rfl⟩

theorem draftFirst_lays {s : Store α} {object : ObjectId} {payload : α} {version : Interval}
    (drafted : draftFirst s object payload version = .ok (active, plan)) :
    active = (s.lineage object).activeRecords ∧
      plan.Lays active [] version.start version.stop := by
  rcases draftFirst_eq_ok drafted with ⟨unknown, rfl, rfl⟩
  rw [Store.lineage_of_unknown unknown]
  exact ⟨rfl, Plan.create_lays ⟨version, payload⟩⟩

theorem draftOn_eq_ok {s : Store α} {object : ObjectId}
    {planner : List (Record α) → Except Fault (Plan α)} (sound : s.Sound)
    (drafted : draftOn s object planner = .ok (active, plan)) :
    active = (s.lineage object).activeRecords ∧ planner active = .ok plan := by
  rcases Program.exists_of_bind_eq_ok drafted with ⟨active', read, drafted⟩
  rcases Program.exists_of_bind_eq_ok drafted with ⟨plan', planned, done⟩
  cases done
  exact ⟨sound.activeSlice_eq_ok read, planned⟩

/-- What is planned on the current slice of an object is planned for an object that exists. -/
theorem contains_of_draftOn {s : Store α} {object : ObjectId}
    {planner : List (Record α) → Except Fault (Plan α)} {draft : List (Record α) × Plan α}
    (drafted : draftOn s object planner = .ok draft) : s.contains object = true := by
  rcases Program.exists_of_bind_eq_ok drafted with ⟨active, read, -⟩
  exact Store.contains_of_activeSlice read

/-- The record that is replaced is on the current slice, for it was never superseded. -/
theorem draftFor_eq_ok {s : Store α} {id : RecordId}
    {replacements : Record α → List (Replacement α)} (sound : s.Sound)
    (drafted : draftFor s id replacements = .ok (active, plan)) :
    active = (s.lineage id.object).activeRecords ∧
      ∃ record ∈ active, Plan.singleReplace record (replacements record) = .ok plan := by
  rcases Program.exists_of_bind_eq_ok drafted with ⟨record, found, drafted⟩
  rcases Program.exists_of_bind_eq_ok drafted with ⟨plan', planned, drafted⟩
  rcases Program.exists_of_bind_eq_ok drafted with ⟨active', read, done⟩
  cases done
  cases sound.activeSlice_eq_ok read
  exact ⟨rfl, record,
    (sound.mem_activeRecords_of_record found).mpr (Plan.singleReplace_eq_ok planned).1, planned⟩

theorem planUpdate_eq_ok {object : ObjectId} {payload : α} {start : Instant}
    (planned : planUpdate object payload start active = .ok plan) :
    Plan.splice active [⟨payload, start, none⟩] = .ok plan := by
  rcases Program.exists_of_bind_eq_ok planned with ⟨⟨⟩, -, planned⟩
  exact planned

/-- An edit is planned on the current slice of its object.  It lays a run over a span, which holds
all records that it closes unless it is a removal. -/
theorem draft_lays (sound : m.store.Sound) (prechecked : e.precheck m.config = .ok ())
    (drafted : e.draft m = .ok (active, plan)) :
    active = (m.store.lineage (e.object m.config)).activeRecords ∧
      ∃ closed start stop, plan.Lays active closed start stop ∧
        ((∀ object stop, e ≠ .remove object stop) →
          ∀ r ∈ closed, start ≤ r.version.start ∧ r.version.stop ≤ stop) := by
  have tiled (object : ObjectId) :
      IsTiling ((m.store.lineage object).activeRecords.map Record.version) :=
    (sound.lineage_sound object).activeRecords_tiled
  have single {record : Record α} : ∀ r ∈ [record], record.version.start ≤ r.version.start ∧
      r.version.stop ≤ record.version.stop := by
    intro r member
    rw [List.mem_singleton.mp member]
    exact ⟨le_rfl, le_rfl⟩
  cases e with
  | add drawn payload start stop =>
    rcases Program.exists_of_bind_eq_ok drafted with ⟨version, -, drafted⟩
    rcases draftFirst_lays drafted with ⟨rfl, lays⟩
    exact ⟨rfl, _, _, _, lays, nofun⟩
  | addWithId object payload version =>
    rcases draftFirst_lays drafted with ⟨rfl, lays⟩
    exact ⟨rfl, _, _, _, lays, nofun⟩
  | replaceVersions object target replacements =>
    rcases draftOn_eq_ok sound drafted with ⟨rfl, planned⟩
    rcases Plan.exactReplace_lays (Replacement.ne_nil_of_validate prechecked)
      (tiled object) planned with
      ⟨closed, lays, run⟩
    exact ⟨rfl, closed, _, _, lays,
      fun _ r member => run.within r.version (List.mem_map_of_mem member)⟩
  | replaceVersion id replacements =>
    rcases draftFor_eq_ok sound drafted with ⟨rfl, record, listed, planned⟩
    exact ⟨rfl, [record], _, _, Plan.singleReplace_lays (tiled id.object) listed planned,
      fun _ => single⟩
  | splice object replacements =>
    rcases draftOn_eq_ok sound drafted with ⟨rfl, planned⟩
    rcases Plan.splice_lays (tiled object) planned with ⟨closed, start, stop, lays, within⟩
    exact ⟨rfl, closed, start, stop, lays, fun _ => within⟩
  | update object payload start =>
    rcases draftOn_eq_ok sound drafted with ⟨rfl, planned⟩
    rcases Plan.splice_lays (tiled object) (planUpdate_eq_ok planned) with
        ⟨closed, start, stop, lays, within⟩
    exact ⟨rfl, closed, start, stop, lays, fun _ => within⟩
  | correct id payload =>
    rcases draftFor_eq_ok sound drafted with ⟨rfl, record, listed, planned⟩
    exact ⟨rfl, [record], _, _, Plan.singleReplace_lays (tiled id.object) listed planned,
      fun _ => single⟩
  | remove object stop =>
    rcases draftOn_eq_ok sound drafted with ⟨rfl, planned⟩
    rcases Plan.terminate_lays (tiled object) planned with ⟨latest, -, -, lays⟩
    exact ⟨rfl, [latest], _, _, lays, fun other => absurd rfl (other object stop)⟩

theorem draft_suits (sound : m.store.Sound) (prechecked : e.precheck m.config = .ok ())
    (drafted : e.draft m = .ok (active, plan)) :
    active = (m.store.lineage (e.object m.config)).activeRecords ∧ plan.Suits active := by
  rcases draft_lays sound prechecked drafted with ⟨rfl, closed, start, stop, lays, -⟩
  exact ⟨rfl, lays.suits (sound.lineage_sound _).activeRecords_tiled⟩

/-! ## What is picked -/

theorem exists_lastInserted {inserted : List (Record α)} (nonempty : inserted ≠ [])
    (object : ObjectId) (edit : String) :
    ∃ r ∈ inserted, Master.lastInserted object edit inserted = .ok r := by
  refine ⟨inserted.getLast nonempty, List.getLast_mem nonempty, ?_⟩
  rw [Master.lastInserted, List.getLast?_eq_some_getLast nonempty]

theorem exists_updated {inserted : List (Record α)} {start : Instant}
    (there : ∃ r ∈ inserted, r.version.start = start) (object : ObjectId) :
    ∃ r ∈ inserted, Master.updated object start inserted = .ok r := by
  unfold Master.updated
  cases found : inserted.find? (fun r => r.version.start = start) with
  | some r => exact ⟨r, List.mem_of_find?_eq_some found, rfl⟩
  | none =>
    rcases there with ⟨r, member, starts⟩
    have missing := List.find?_eq_none.mp found r member
    simp [starts] at missing

/-- What an edit shows was inserted.  The faults for edits that inserted
nothing are never raised. -/
theorem exists_pick {inserted : List (Record α)} (drafted : e.draft m = .ok (active, plan))
    (suits : plan.Suits active)
    (committed : inserted.map Record.version = plan.inserts.map Pending.version) :
    ∃ shown, e.pick m inserted = .ok shown ∧ shown ≠ [] ∧ ∀ r ∈ shown, r ∈ inserted := by
  have nonempty : inserted ≠ [] := by
    intro empty
    rw [empty, List.map_nil, eq_comm, List.map_eq_nil_iff] at committed
    exact suits.inserts_ne_nil committed
  have single : ∀ pick : Except Fault (Record α), (∃ r ∈ inserted, pick = .ok r) →
      ∃ shown, (pick >>= fun r => pure [r]) = .ok shown ∧ shown ≠ [] ∧
        ∀ r ∈ shown, r ∈ inserted := by
    intro pick found
    rcases found with ⟨r, member, rfl⟩
    refine ⟨[r], rfl, List.cons_ne_nil r [], fun r' shown => ?_⟩
    rw [List.mem_singleton.mp shown]
    exact member
  cases e with
  | add drawn payload start stop => exact single _ (exists_lastInserted nonempty _ _)
  | addWithId object payload version => exact single _ (exists_lastInserted nonempty _ _)
  | replaceVersions object target replacements =>
    exact ⟨inserted, rfl, nonempty, fun r member => member⟩
  | replaceVersion id replacements => exact ⟨inserted, rfl, nonempty, fun r member => member⟩
  | splice object replacements => exact ⟨inserted, rfl, nonempty, fun r member => member⟩
  | update object payload start =>
    refine single _ (exists_updated ?_ object)
    rcases Program.exists_of_bind_eq_ok drafted with ⟨active', -, drafted⟩
    rcases Program.exists_of_bind_eq_ok drafted with ⟨plan', planned, done⟩
    cases done
    rcases Plan.exists_start_of_splice (planUpdate_eq_ok planned) with ⟨p, listed, starts⟩
    have member : p.version ∈ inserted.map Record.version :=
      committed ▸ List.mem_map_of_mem listed
    rcases List.mem_map.mp member with ⟨r, inserted', same⟩
    exact ⟨r, inserted', same ▸ starts⟩
  | correct id payload => exact single _ (exists_lastInserted nonempty _ _)
  | remove object stop => exact single _ (exists_lastInserted nonempty _ _)

/-! ## How edits end -/

/-- Whatever an edit is refused with is the caller's fault, or a conflict because correction time
is used up. -/
def Excuses (m : Master (Store α)) (object : ObjectId) (fault : Fault) : Prop :=
  fault.isCallerError = true ∨
    ∃ cause, fault = .conflict object cause ∧ m.store.latestCorrection object = some .last

/-- How an edit of an object ends: it is refused and leaves the store as it was, or it is
committed. -/
inductive Ends (m : Master (Store α)) (object : ObjectId) :
    EStateM.Result Fault (Master (Store α)) (List (Record α)) → Prop
  | refused {fault : Fault} {m' : Master (Store α)} :
    m'.config = m.config → m'.store = m.store → m'.metrics.committed = m.metrics.committed →
      Excuses m object fault →
    Ends m object (.error fault m')
  | committed {shown : List (Record α)} {m' : Master (Store α)} :
    m'.config = m.config → m.store.Grows object shown m'.store →
    m'.metrics.committed = m.metrics.committed + 1 → shown ≠ [] → Ends m object (.ok shown m')

/-- An edit that is committed, taken apart: the plan that it drafts on the current slice, the
batch that the plan becomes, the timeline that the batch leaves, and what is shown. -/
structure Commits (m : Master (Store α)) (e : Edit α) (plan : Plan α) (b : Batch α)
    (tl : Timeline α) (shown : List (Record α)) (m' : Master (Store α)) : Prop where
  prechecked : e.precheck m.config = .ok ()
  drafted : e.draft m = .ok ((m.store.lineage (e.object m.config)).activeRecords, plan)
  room : m.store.latestCorrection (e.object m.config) ≠ some .last
  settles : plan.Settles m.store (e.object m.config) m.now b tl
  picked : e.pick m (b.additions (m.store.lineage (e.object m.config)).records.length) = .ok shown
  store_eq : m'.store = m.store.committed (e.object m.config) tl
  config_eq : m'.config = m.config
  counted : m'.metrics.committed = m.metrics.committed + 1

namespace Commits

variable {b : Batch α} {tl : Timeline α} {shown : List (Record α)} {m' : Master (Store α)}

theorem shown_additions (commits : Commits m e plan b tl shown m') (sound : m.store.Sound) :
    shown ≠ [] ∧ ∀ r ∈ shown,
      r ∈ b.additions (m.store.lineage (e.object m.config)).records.length := by
  rcases draft_suits sound commits.prechecked commits.drafted with ⟨-, suits⟩
  have versions : (b.additions (m.store.lineage (e.object m.config)).records.length).map
      Record.version = plan.inserts.map Pending.version := by
    rw [Batch.additions_version, commits.settles.inserts_eq]
  rcases exists_pick commits.drafted suits versions with ⟨shown', picked, nonempty, subset⟩
  cases commits.picked.symm.trans picked
  exact ⟨nonempty, subset⟩

theorem grows (commits : Commits m e plan b tl shown m') (sound : m.store.Sound) :
    m.store.Grows (e.object m.config) shown m'.store := by
  rw [commits.store_eq]
  exact (commits.settles.grows sound).of_subset (commits.shown_additions sound).2

end Commits

/-- A write that fails and leaves the store alone refuses the edit. -/
theorem run_of_write_error {fault : Fault} (prechecked : e.precheck m.config = .ok ())
    (failed : (e.write m).run m.store = .error fault m.store) :
    ∃ m', e.run.run m = .error fault m' ∧ m'.config = m.config ∧ m'.store = m.store ∧
      m'.metrics.committed = m.metrics.committed := by
  refine ⟨m.settle (e.object m.config) m.store false, ?_, rfl, rfl, rfl⟩
  rw [run_eq_perform, perform, EStateM.run_bind, EStateM.run_get]
  dsimp only
  rw [prechecked, Program.run_bind_of_ok Program.run_ofExcept_ok]
  exact Master.run_locked_of_error failed

theorem run_write_of_refused {fault : Fault} (refused : e.draft m = .error fault) :
    (e.write m).run m.store = .error fault m.store := by
  unfold write
  rw [refused, Program.run_bind_of_error Program.run_ofExcept_error]

theorem run_write_of_drafted (drafted : e.draft m = .ok (active, plan)) :
    (e.write m).run m.store =
      (Master.commitPlan m (e.object m.config) active plan >>= fun inserted =>
        Program.ofExcept (e.pick m inserted)).run m.store := by
  unfold write
  rw [drafted, Program.run_bind_of_ok Program.run_ofExcept_ok]

/-- An edit whose plan is committed shows what it picks. -/
theorem run_of_committed {b : Batch α} {tl : Timeline α}
    (prechecked : e.precheck m.config = .ok ())
    (drafted : e.draft m = .ok ((m.store.lineage (e.object m.config)).activeRecords, plan))
    (suits : plan.Suits (m.store.lineage (e.object m.config)).activeRecords)
    (room : m.store.latestCorrection (e.object m.config) ≠ some .last)
    (settles : plan.Settles m.store (e.object m.config) m.now b tl)
    (run : (Master.commitPlan m (e.object m.config)
      (m.store.lineage (e.object m.config)).activeRecords plan).run
        m.store = .ok (b.additions (m.store.lineage (e.object m.config)).records.length)
          (m.store.committed (e.object m.config) tl)) :
    ∃ shown m', e.run.run m = .ok shown m' ∧ Commits m e plan b tl shown m' := by
  have versions : (b.additions (m.store.lineage (e.object m.config)).records.length).map
      Record.version = plan.inserts.map Pending.version := by
    rw [Batch.additions_version, settles.inserts_eq]
  rcases exists_pick drafted suits versions with ⟨shown, picked, -, -⟩
  have written := run_write_of_drafted drafted
  rw [Program.run_bind_of_ok run, picked] at written
  refine ⟨shown, m.settle (e.object m.config) (m.store.committed (e.object m.config) tl) true, ?_,
    ⟨prechecked, drafted, room, settles, picked, rfl, rfl, rfl⟩⟩
  rw [run_eq_perform, perform, EStateM.run_bind, EStateM.run_get]
  dsimp only
  rw [prechecked, Program.run_bind_of_ok Program.run_ofExcept_ok]
  exact Master.run_locked_of_ok written

/-- An edit is refused and leaves the store as it was, or it is committed. -/
theorem run_cases (sound : m.store.Sound) (e : Edit α) :
    (∃ fault m', e.run.run m = .error fault m' ∧ m'.config = m.config ∧ m'.store = m.store ∧
      m'.metrics.committed = m.metrics.committed ∧ Excuses m (e.object m.config) fault) ∨
    ∃ plan b tl shown m', e.run.run m = .ok shown m' ∧ Commits m e plan b tl shown m' := by
  cases prechecked : e.precheck m.config with
  | error fault =>
    refine .inl ⟨fault, m, ?_, rfl, rfl, rfl,
      .inl (precheck_blamesCaller m.config e fault prechecked)⟩
    rw [run_eq_perform, perform, EStateM.run_bind, EStateM.run_get]
    dsimp only
    rw [prechecked, Program.run_bind_of_error Program.run_ofExcept_error]
  | ok =>
    have refused {fault : Fault} (failed : (e.write m).run m.store = .error fault m.store)
        (excuse : Excuses m (e.object m.config) fault) :
        ∃ fault m', e.run.run m = .error fault m' ∧ m'.config = m.config ∧ m'.store = m.store ∧
          m'.metrics.committed = m.metrics.committed ∧ Excuses m (e.object m.config) fault := by
      rcases run_of_write_error prechecked failed with ⟨m', run, config, store, committed⟩
      exact ⟨fault, m', run, config, store, committed, excuse⟩
    cases drafted : e.draft m with
    | error fault =>
      exact .inl (refused (run_write_of_refused drafted)
        (.inl (draft_blamesCaller sound e fault drafted)))
    | ok draft =>
      rcases draft with ⟨active, plan⟩
      rcases draft_suits sound prechecked drafted with ⟨rfl, suits⟩
      have written := run_write_of_drafted drafted
      rcases Master.run_commitPlan_cases (m := m) sound suits with
        ⟨i, j, run⟩ | ⟨cause, usedUp, run⟩ | ⟨b, tl, room, settles, run⟩
      · exact .inl (refused (written.trans (Program.run_bind_of_error run)) (.inl rfl))
      · exact .inl (refused (written.trans (Program.run_bind_of_error run))
          (.inr ⟨cause, rfl, usedUp⟩))
      · exact .inr ⟨plan, b, tl, run_of_committed prechecked drafted suits room settles run⟩

theorem run_ends (sound : m.store.Sound) (e : Edit α) :
    Ends m (e.object m.config) (e.run.run m) := by
  rcases run_cases sound e with
    ⟨fault, m', run, config, store, committed, excuse⟩ | ⟨plan, b, tl, shown, m', run, commits⟩
  · rw [run]
    exact .refused config store committed excuse
  · rw [run]
    exact .committed commits.config_eq (commits.grows sound) commits.counted
      (commits.shown_additions sound).1

end Edit

end Bitemporal
