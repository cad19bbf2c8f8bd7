import Bitemporal.Proofs.Timeline.Slices
import Bitemporal.Store

/-!
# Sound stores

A store is sound if each of its timelines is the sound timeline of its object (`Store.Sound`).  A
commit keeps it so, whatever the batch (`Store.Sound.final_commit`): a batch that fits the
timeline of its object changes that timeline only (`Store.Sound.run_commit_of_fits`), and any
other batch changes nothing at all (`Store.Sound.run_commit_of_not_fits`).

`Store.lineage` is the timeline of an object, and of an unknown one the empty timeline.
-/

namespace Bitemporal.Store

variable {α : Type} {s : Store α} {object other : ObjectId} {tl : Timeline α} {r : Record α}
    {id : RecordId}
  {b : Batch α}

/-- Every timeline is the sound timeline of its object. -/
def Sound (s : Store α) : Prop :=
  ∀ object tl, s.timeline? object = some tl → tl.object = object ∧ tl.Sound

/-- The timeline of an object, which is empty if the object is unknown. -/
def lineage (s : Store α) (object : ObjectId) : Timeline α :=
  (s.timeline? object).getD (.empty object)

theorem Sound.empty : (Store.empty : Store α).Sound := by
  intro object tl found
  simp [Store.empty, timeline?] at found

theorem lineage_of_known (known : s.timeline? object = some tl) : s.lineage object = tl := by
  rw [lineage, known, Option.getD_some]

theorem lineage_of_unknown (unknown : s.timeline? object = none) :
    s.lineage object = .empty object := by
  rw [lineage, unknown, Option.getD_none]

theorem timeline?_of_unknown (unknown : s.contains object = false) :
    s.timeline? object = none := by
  simpa [contains] using unknown

theorem contains_of_mem (stored : r ∈ (s.lineage object).records) : s.contains object = true := by
  cases found : s.timeline? object with
  | none =>
    rw [lineage_of_unknown found] at stored
    cases stored
  | some tl =>
    rw [contains, found]
    rfl

namespace Sound

theorem lineage_object (sound : s.Sound) (object : ObjectId) :
    (s.lineage object).object = object := by
  cases found : s.timeline? object with
  | none =>
    rw [lineage_of_unknown found]
    rfl
  | some tl =>
    rw [lineage_of_known found]
    exact (sound object tl found).1

/-- Every lineage is sound, that of an unknown object included. -/
theorem lineage_sound (sound : s.Sound) (object : ObjectId) : (s.lineage object).Sound := by
  cases found : s.timeline? object with
  | none =>
    rw [lineage_of_unknown found]
    exact .empty object
  | some tl =>
    rw [lineage_of_known found]
    exact (sound object tl found).2

end Sound

/-! ## Reads -/

theorem latestCorrection_eq : s.latestCorrection object = (s.lineage object).latest := by
  unfold latestCorrection
  cases found : s.timeline? object with
  | none =>
    rw [lineage_of_unknown found]
    rfl
  | some tl =>
    rw [lineage_of_known found]
    rfl

theorem nextCorrection_eq (now : Instant) :
    s.nextCorrection object now = (s.lineage object).nextCorrection now := by
  unfold nextCorrection
  cases found : s.timeline? object with
  | none =>
    rw [lineage_of_unknown found]
    rfl
  | some tl => rw [lineage_of_known found]

theorem contains_of_activeSlice {active : List (Record α)}
    (read : s.activeSlice object = .ok active) : s.contains object = true := by
  unfold activeSlice timeline at read
  rw [contains]
  cases found : s.timeline? object with
  | some tl => rfl
  | none =>
    rw [found] at read
    cases read

theorem record_eq_error {fault : Fault} (failed : s.record id = .error fault) :
    fault = .notFound (.record id) := by
  unfold record at failed
  split at failed
  · cases failed
  · exact (Except.error.inj failed).symm

namespace Sound

/-- The current slice that is read is the one that the index of current records leads to. -/
theorem activeSlice_eq_ok (sound : s.Sound) {active : List (Record α)}
    (read : s.activeSlice object = .ok active) : active = (s.lineage object).activeRecords := by
  unfold activeSlice timeline at read
  split at read
  · rename_i tl found
    rw [lineage_of_known found]
    change tl.activeSlice = _ at read
    rw [(sound object tl found).2.activeSlice_eq] at read
    exact (Except.ok.inj read).symm
  · cases read

theorem activeSlice_of_contains (sound : s.Sound) (known : s.contains object = true) :
    s.activeSlice object = .ok (s.lineage object).activeRecords := by
  rcases Option.isSome_iff_exists.mp known with ⟨tl, found⟩
  unfold activeSlice timeline
  rw [found, lineage_of_known found]
  exact (sound object tl found).2.activeSlice_eq

/-- The current slice is read of a known object, and an unknown one has no current records. -/
theorem activeSlice_cases (sound : s.Sound) (object : ObjectId) :
    s.activeSlice object = .ok (s.lineage object).activeRecords ∨
      s.contains object = false ∧ (s.lineage object).activeRecords = [] := by
  cases known : s.contains object with
  | true => exact .inl (sound.activeSlice_of_contains known)
  | false =>
    rw [lineage_of_unknown (timeline?_of_unknown known)]
    exact .inr ⟨rfl, rfl⟩

/-- A record is read exactly if it is stored. -/
theorem record_eq_ok_iff (sound : s.Sound) :
    s.record id = .ok r ↔ r ∈ (s.lineage id.object).records ∧ r.id = id := by
  rw [← (sound.lineage_sound id.object).record?_eq_some_iff]
  unfold record
  cases found : s.timeline? id.object with
  | none =>
    rw [lineage_of_unknown found, Option.bind_none]
    constructor
    · intro read
      cases read
    · intro read
      simp [Timeline.record?, Timeline.empty] at read
  | some tl =>
    rw [lineage_of_known found, Option.bind_some]
    cases tl.record? id with
    | none => simp
    | some r => simp

/-- A record is in the current slice exactly if it was never superseded. -/
theorem mem_activeRecords_of_record (sound : s.Sound) (found : s.record id = .ok r) :
    r ∈ (s.lineage id.object).activeRecords ↔ r.supersededAt? = none := by
  rw [(sound.lineage_sound id.object).toIndexed.mem_activeRecords,
    Record.supersededAt?_eq_none_iff]
  exact and_iff_right (sound.record_eq_ok_iff.mp found).1

theorem record_eq_notFound (sound : s.Sound)
    (unknown : ∀ r ∈ (s.lineage id.object).records, r.id ≠ id) :
    s.record id = .error (.notFound (.record id)) := by
  cases found : s.record id with
  | ok r =>
    rcases sound.record_eq_ok_iff.mp found with ⟨stored, same⟩
    exact absurd same (unknown r stored)
  | error fault => rw [record_eq_error found]

/-! No read finds a fault but the caller's. -/

/-- What blames the caller on a sound timeline blames the caller on a store. -/
theorem timeline_blamesCaller {β : Type} (sound : s.Sound) (object : ObjectId)
    {f : Timeline α → Except Fault β}
    (blames : ∀ tl : Timeline α, tl.Sound → Program.BlamesCaller (f tl)) :
    Program.BlamesCaller (s.timeline object >>= f) := by
  unfold timeline
  cases found : s.timeline? object with
  | none => exact .error rfl
  | some tl => exact blames tl (sound object tl found).2

theorem activeSlice_blamesCaller (sound : s.Sound) (object : ObjectId) :
    Program.BlamesCaller (s.activeSlice object) := by
  refine sound.timeline_blamesCaller object fun tl sound' => ?_
  rw [sound'.activeSlice_eq]
  exact .ok

theorem sliceAt_blamesCaller (sound : s.Sound) (object : ObjectId) (correction : Instant) :
    Program.BlamesCaller (s.sliceAt object correction) := by
  refine sound.timeline_blamesCaller object fun tl sound' => ?_
  rw [sound'.sliceAt_eq]
  exact .ok

theorem recordAt_blamesCaller (sound : s.Sound) (object : ObjectId) (version : Instant)
    (correction : Option Instant) :
    Program.BlamesCaller (s.recordAt object version correction) := by
  refine sound.timeline_blamesCaller object fun tl sound' => ?_
  have slice : Program.BlamesCaller (tl.slice correction) := by
    cases correction with
    | none =>
      rw [Timeline.slice, sound'.activeSlice_eq]
      exact .ok
    | some c =>
      rw [Timeline.slice, sound'.sliceAt_eq]
      exact .ok
  refine slice.bind fun records _ => ?_
  split
  · split
    · exact .ok
    · exact .error rfl
  · exact .error rfl

theorem history_blamesCaller (sound : s.Sound) (object : ObjectId)
    (versions corrections : Option Interval) :
    Program.BlamesCaller (s.history object versions corrections) :=
  sound.timeline_blamesCaller object fun _ _ => .ok

end Sound

theorem record_blamesCaller (s : Store α) (id : RecordId) :
    Program.BlamesCaller (s.record id) := by
  unfold record
  split
  · exact .ok
  · exact .error rfl

/-! ## Commits -/

/-- A commit puts one timeline in its place and leaves the others alone. -/
@[simp]
theorem timeline?_committed :
    (s.committed object tl).timeline? other = if object = other then some tl
      else s.timeline? other := by
  unfold timeline? committed
  rw [Std.ExtTreeMap.getElem?_insert]
  simp only [Std.compare_eq_iff_eq]

theorem lineage_committed : (s.committed object tl).lineage object = tl := by
  refine lineage_of_known ?_
  rw [timeline?_committed, if_pos rfl]

theorem lineage_committed_of_ne (distinct : object ≠ other) :
    (s.committed object tl).lineage other = s.lineage other := by
  rw [lineage, timeline?_committed, if_neg distinct, lineage]

/-- After a commit its object is known, and what was known before. -/
theorem contains_committed :
    (s.committed object tl).contains other = true ↔ other = object ∨ s.contains other = true := by
  unfold contains
  rw [timeline?_committed]
  split
  · rename_i same
    simp [same]
  · rename_i distinct
    simp [Ne.symm distinct]

/-- Putting a timeline back where it is changes nothing. -/
theorem insert_timeline_self (known : s.timeline? object = some tl) :
    s.timelines.insert object tl = s.timelines := by
  refine Std.ExtTreeMap.ext_getElem? fun other => ?_
  rw [Std.ExtTreeMap.getElem?_insert]
  split
  · rename_i same
    rw [← Std.LawfulEqOrd.eq_of_compare same]
    exact known.symm
  · rfl

namespace Sound

/-- A sound timeline in the place of another keeps a store sound. -/
theorem committed (sound : s.Sound) (own : tl.object = object) (sound' : tl.Sound) :
    (s.committed object tl).Sound := by
  intro other tl' found
  rw [timeline?_committed] at found
  split at found
  · rename_i same
    cases found
    exact ⟨own.trans same, sound'⟩
  · exact sound other tl' found

/-- A batch that fits the timeline of its object is committed, and changes that timeline only. -/
theorem run_commit_of_fits (sound : s.Sound) (fits : b.Fits (s.lineage b.object)) :
    ∃ tl, b.Applied (s.lineage b.object) tl ∧ tl.Sound ∧
      (commit b).run s = .ok (b.additions (s.lineage b.object).records.length)
        (s.committed b.object tl) := by
  have soundLineage := sound.lineage_sound b.object
  rcases soundLineage.apply_cases b with ⟨tl, -, applied, sound', run⟩ | ⟨fault, misfit, -⟩
  · refine ⟨tl, applied, sound', ?_⟩
    change commit b s = _
    unfold commit
    change Timeline.apply b (s.lineage b.object) = _ at run
    cases found : s.timeline? b.object with
    | some known =>
      rw [lineage_of_known found] at run ⊢
      dsimp only
      rw [run]
    | none =>
      rw [lineage_of_unknown found] at run fits ⊢
      -- There is nothing to close, so the batch creates the timeline.
      have creates : b.isCreation = true := by
        unfold Batch.isCreation
        rw [List.isEmpty_iff, List.eq_nil_iff_forall_not_mem]
        intro id member
        rcases fits.closes_current id member with ⟨r, stored, -, -⟩
        cases stored
      dsimp only
      rw [creates, run]
      rfl
  · exact absurd fits misfit

/-- A batch that the timeline of its object refuses changes nothing. -/
theorem run_commit_of_refused {fault : Fault} (known : s.timeline? b.object = some tl)
    (refused : (Timeline.apply b).run tl = .error fault tl) :
    (commit b).run s = .error fault s := by
  change Timeline.apply b tl = _ at refused
  change commit b s = _
  unfold commit
  rw [known]
  dsimp only
  rw [refused]
  dsimp only
  rw [insert_timeline_self known]

/-- The same holds of an unknown object, if the batch may create its timeline. -/
theorem run_commit_of_lineage_refused {fault : Fault}
    (creates : s.contains b.object = false → b.isCreation = true)
    (refused : (Timeline.apply b).run (s.lineage b.object) = .error fault (s.lineage b.object)) :
    (commit b).run s = .error fault s := by
  cases found : s.timeline? b.object with
  | some tl =>
    rw [lineage_of_known found] at refused
    exact run_commit_of_refused found refused
  | none =>
    have unknown : s.contains b.object = false := by rw [contains, found, Option.isSome_none]
    rw [lineage_of_unknown found] at refused
    change Timeline.apply b (.empty b.object) = _ at refused
    change commit b s = _
    unfold commit
    rw [found, creates unknown]
    dsimp only
    rw [refused]
    rfl

/-- Nothing is closed of an unknown object. -/
theorem run_commit_of_unknown (unknown : s.contains b.object = false)
    (closes : ¬ b.isCreation = true) :
    (commit b).run s = .error (.conflict b.object .unknownObject) s := by
  change commit b s = _
  unfold commit
  rw [timeline?_of_unknown unknown]
  exact if_neg closes

/-- Any other batch is refused, and changes nothing. -/
theorem run_commit_of_not_fits (sound : s.Sound) (misfit : ¬ b.Fits (s.lineage b.object)) :
    ∃ fault, (commit b).run s = .error fault s := by
  rcases (sound.lineage_sound b.object).apply_cases b with ⟨tl, fits, -⟩ | ⟨fault, -, refused⟩
  · exact absurd fits misfit
  · by_cases creates : s.contains b.object = false → b.isCreation = true
    · exact ⟨fault, run_commit_of_lineage_refused creates refused⟩
    · obtain ⟨unknown, closes⟩ := Classical.not_imp.mp creates
      exact ⟨_, run_commit_of_unknown unknown closes⟩

/-- A commit either applies its batch to the timeline of the object, or is refused
and changes nothing. -/
theorem commit_cases (sound : s.Sound) (b : Batch α) :
    (∃ tl, b.Fits (s.lineage b.object) ∧ b.Applied (s.lineage b.object) tl ∧ tl.Sound ∧
        (commit b).run s = .ok (b.additions (s.lineage b.object).records.length)
          (s.committed b.object tl)) ∨
      ∃ fault, (commit b).run s = .error fault s := by
  by_cases fits : b.Fits (s.lineage b.object)
  · rcases sound.run_commit_of_fits fits with ⟨tl, applied, sound', run⟩
    exact .inl ⟨tl, fits, applied, sound', run⟩
  · exact .inr (sound.run_commit_of_not_fits fits)

/-- Just the batches that fit the lineage of their object are committed. -/
theorem run_commit_eq_ok_iff (sound : s.Sound) :
    (∃ inserted s', (commit b).run s = .ok inserted s') ↔ b.Fits (s.lineage b.object) := by
  constructor
  · rintro ⟨inserted, s', accepted⟩
    by_contra misfit
    obtain ⟨fault, refused⟩ := sound.run_commit_of_not_fits misfit
    rw [accepted] at refused
    cases refused
  · intro fits
    obtain ⟨tl, -, -, run⟩ := sound.run_commit_of_fits fits
    exact ⟨_, _, run⟩

/-- A commit returns the inserts of its batch, numbered on from the records that there were. -/
theorem inserted_eq_of_run_commit_eq_ok (sound : s.Sound) {s' : Store α}
    {inserted : List (Record α)} (committed : (commit b).run s = .ok inserted s') :
    inserted = b.additions (s.lineage b.object).records.length := by
  rcases sound.commit_cases b with ⟨tl, -, -, -, run⟩ | ⟨fault, run⟩
  · rw [run] at committed
    cases committed
    rfl
  · rw [run] at committed
    cases committed

/-- A commit that fails leaves the store as it was. -/
theorem eq_of_run_commit_eq_error (sound : s.Sound) {s' : Store α} {fault : Fault}
    (failed : (commit b).run s = .error fault s') : s' = s := by
  rcases sound.commit_cases b with
      ⟨tl, -, -, -, run⟩ | ⟨fault', run⟩ <;> rw [run] at failed <;> cases failed
  rfl

/-- A batch with an old stamp conflicts, whatever it would do, and changes nothing. -/
theorem run_commit_of_stale (sound : s.Sound) {latest : Instant} (filled : b.isEmpty = false)
    (newest : s.latestCorrection b.object = some latest) (stale : b.stamp ≤ latest) :
    (commit b).run s = .error (.conflict b.object (.staleStamp b.stamp latest)) s := by
  cases found : s.timeline? b.object with
  | none =>
    unfold latestCorrection at newest
    rw [found] at newest
    cases newest
  | some tl =>
    rcases sound b.object tl found with ⟨own, -⟩
    rw [latestCorrection_eq, lineage_of_known found] at newest
    have run := Timeline.run_apply_of_stale own.symm filled newest stale
    rw [own] at run
    exact run_commit_of_refused found run

/-- A batch that closes a superseded record conflicts, whatever else it would do,
and changes nothing. -/
theorem run_commit_of_superseded (sound : s.Sound) (stored : r ∈ (s.lineage b.object).records)
    (superseded : r.isCurrent = false) (closes : r.id ∈ b.closes) :
    ∃ cause, (commit b).run s = .error (.conflict b.object cause) s := by
  cases found : s.timeline? b.object with
  | none =>
    rw [lineage_of_unknown found] at stored
    cases stored
  | some tl =>
    rcases sound b.object tl found with ⟨own, sound'⟩
    rw [lineage_of_known found] at stored
    rcases sound'.toIndexed.run_apply_of_superseded own.symm stored superseded closes with
        ⟨cause, run⟩
    rw [own] at run
    exact ⟨cause, run_commit_of_refused found run⟩

/-- A commit keeps a store sound, whether the batch is accepted or not. -/
theorem final_commit (sound : s.Sound) (b : Batch α) : (Program.final (commit b) s).Sound := by
  rcases sound.commit_cases b with ⟨tl, -, applied, sound', run⟩ | ⟨fault, run⟩
  · rw [Program.final_of_ok run]
    exact sound.committed (applied.object_eq.trans (sound.lineage_object b.object)) sound'
  · rwa [Program.final_of_error run]

end Sound

/-- The store after batches are committed one after the other, whether each is
accepted or rejected. -/
def commitEach (s : Store α) (batches : List (Batch α)) : Store α :=
  batches.foldl (fun s b => Program.final (commit b) s) s

theorem Sound.commitEach (sound : s.Sound) (batches : List (Batch α)) :
    (s.commitEach batches).Sound := by
  induction batches generalizing s with
  | nil => exact sound
  | cons b rest ih => exact ih (sound.final_commit b)

/-- What every batch that fits preserves, every run of commits preserves. -/
theorem Sound.commitEach_induction {P : Store α → Prop} (sound : s.Sound) (start : P s)
    (step : ∀ {s : Store α} {b : Batch α} {tl : Timeline α}, s.Sound → P s →
      b.Fits (s.lineage b.object) →
      b.Applied (s.lineage b.object) tl → P (s.committed b.object tl))
    (batches : List (Batch α)) : P (s.commitEach batches) := by
  induction batches generalizing s with
  | nil => exact start
  | cons b rest ih =>
    have kept : P (Program.final (commit b) s) := by
      rcases sound.commit_cases b with ⟨tl, fits, applied, -, run⟩ | ⟨fault, run⟩
      · rw [Program.final_of_ok run]
        exact step sound start fits applied
      · rwa [Program.final_of_error run]
    exact ih (sound.final_commit b) kept

end Bitemporal.Store
