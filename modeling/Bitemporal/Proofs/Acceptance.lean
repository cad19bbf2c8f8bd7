import Bitemporal.Proofs.Master.Exchange
import Bitemporal.Proofs.Projection

/-!
# Which batches a store accepts

A store looks for reasons to refuse a batch in a fixed order, and the first one that it finds is
the fault that it reports: `Store.Rejects` lists them.  A batch for which it finds none is
accepted (`Store.Accepts`), and no step of the commit can fail any more (`Store.commit_exact`).

What is accepted takes effect as a whole (`Store.Accepted`).  A record that the batch closes can
always be closed, since every record was recorded before the stamp.  Afterwards each instant of
version time belongs to the record that the batch inserted there, or else to the record that it
belonged to before, unless the batch closed that.
-/

namespace Bitemporal

variable {α : Type}

/-! ## Batches against a slice -/

namespace Batch

/-- The stamp of a batch is after the newest one of its object. -/
def IsFresh (b : Batch α) (s : Store α) : Prop :=
  ∀ latest, s.latestCorrection b.object = some latest → latest < b.stamp

/-- The first record that a batch would close, but that the slice does not hold. -/
def FirstAbsent (b : Batch α) (slice : List (Record α)) (id : RecordId) : Prop :=
  ∃ before after, b.closes = before ++ id :: after ∧
    (∀ other ∈ before, ∃ r ∈ slice, r.id = other) ∧
    ∀ r ∈ slice, r.id ≠ id

/-- The version intervals that a batch would leave of a slice, in ascending order. -/
def result (b : Batch α) (slice : List (Record α)) : List Interval :=
  stableSort Interval.startsBy
    ((slice.filter fun r => !b.closes.contains r.id).map Record.version ++
      b.inserts.map Pending.version)

variable {b : Batch α} {slice : List (Record α)}

theorem isEmpty_eq_true_iff : b.isEmpty = true ↔ b.closes = [] ∧ b.inserts = [] := by
  rw [isEmpty, Bool.and_eq_true, List.isEmpty_iff, List.isEmpty_iff]

theorem isEmpty_eq_false_iff : b.isEmpty = false ↔ b.closes ≠ [] ∨ b.inserts ≠ [] := by
  rw [isEmpty, Bool.and_eq_false_iff, List.isEmpty_eq_false_iff, List.isEmpty_eq_false_iff]

theorem FirstAbsent.mem {id : RecordId} (first : b.FirstAbsent slice id) : id ∈ b.closes := by
  rcases first with ⟨before, after, shape, -⟩
  rw [shape]
  exact List.mem_append_right before List.mem_cons_self

/-- Either a slice holds every record that a batch would close, or there is a first one that it
does not hold. -/
theorem exists_firstAbsent (missing : ¬ ∀ id ∈ b.closes, ∃ r ∈ slice, r.id = id) :
    ∃ id, b.FirstAbsent slice id := by
  classical
  cases found : b.closes.find? fun id => decide (¬ ∃ r ∈ slice, r.id = id) with
  | none =>
    refine absurd (fun id member => ?_) missing
    exact not_not.mp (by simpa using List.find?_eq_none.mp found id member)
  | some id =>
    rcases List.find?_eq_some_iff_append.mp found with ⟨absent, before, after, shape, passed⟩
    refine ⟨id, before, after, shape, fun other member => ?_, fun r listed same => ?_⟩
    · exact not_not.mp (by simpa using passed other member)
    · exact of_decide_eq_true absent ⟨r, listed, same⟩

/-- After a batch an instant belongs to the record that was inserted there, or else to the one
that was there before, unless that was closed. -/
theorem Applied.covering?_eq {tl tl' : Timeline α} (applied : b.Applied tl tl') (sound : tl.Sound)
    (fits : b.Fits tl) (t : Instant) : Timeline.covering? tl'.activeRecords t =
      (Timeline.covering? (b.additions tl.records.length) t).or
        ((Timeline.covering? tl.activeRecords t).filter fun r => !b.closes.contains r.id) := by
  have tiled := (applied.sound sound fits).activeRecords_tiled
  have listed (r : Record α) := applied.mem_activeRecords_iff (r := r) sound fits
  cases scanned : Timeline.covering? (b.additions tl.records.length) t with
  | some r =>
    rcases Timeline.mem_of_covering? scanned with ⟨added, covers⟩
    exact (Timeline.covering?_eq_some_iff tiled).mpr ⟨(listed r).mpr (.inr added), covers⟩
  | none =>
    refine Option.ext fun r => ?_
    rw [Option.none_or, Option.filter_eq_some_iff, Timeline.covering?_eq_some_iff tiled,
      Timeline.covering?_eq_some_iff sound.activeRecords_tiled, listed r, Bool.not_eq_true',
      List.contains_eq_mem, decide_eq_false_iff_not, and_right_comm]
    refine and_congr_left fun covers => or_iff_left fun added => ?_
    exact Timeline.not_mem_of_covering? scanned added covers

end Batch

/-! ## Reasons to accept and to refuse -/

namespace Store

/-- A batch can be committed: it does something, names no unknown object unless it creates
it, has a new stamp and closes current records only, and what it leaves of the current slice
tiles version time. -/
structure Accepts (s : Store α) (slice : List (Record α)) (b : Batch α) : Prop where
  not_empty : b.closes ≠ [] ∨ b.inserts ≠ []
  creates : s.contains b.object = true ∨ b.closes = []
  fresh : b.IsFresh s
  closes_current : ∀ id ∈ b.closes, ∃ r ∈ slice, r.id = id
  tiles : IsTiling (b.result slice)

/-- The faults for which a store refuses a batch.  Of several reasons the first one counts. -/
inductive Rejects (s : Store α) (slice : List (Record α)) (b : Batch α) : Fault → Prop where
  /-- The batch does nothing. -/
  | empty : b.closes = [] → b.inserts = [] → Rejects s slice b (.invalidInput .emptyBatch)
  /-- The batch closes records of an unknown object. -/
  | unknown : b.closes ≠ [] → s.contains b.object = false →
    Rejects s slice b (.conflict b.object .unknownObject)
  /-- The stamp is not after the newest one. -/
  | stale {latest : Instant} : b.closes ≠ [] ∨ b.inserts ≠ [] →
    s.latestCorrection b.object = some latest →
      b.stamp ≤ latest → Rejects s slice b (.conflict b.object (.staleStamp b.stamp latest))
  /-- The first record to close that is not current is superseded. -/
  | superseded {r : Record α} {id : RecordId} : b.IsFresh s → b.FirstAbsent slice id →
    s.record id = .ok r →
      Rejects s slice b (.conflict b.object (.superseded id))
  /-- The first record to close that is not current was never stored. -/
  | missing {id : RecordId} : s.contains b.object = true → b.IsFresh s → b.FirstAbsent slice id →
      s.record id = .error (.notFound (.record id)) →
      Rejects s slice b (.conflict b.object (.unknownRecord id))
  /-- What is left is no tiling, and `i` and `j` are the first neighbours in
  it that do not meet. -/
  | misfit {before after : List Interval} {i j : Interval} : b.closes ≠ [] ∨ b.inserts ≠ [] →
      s.contains b.object = true ∨ b.closes = [] → b.IsFresh s →
      (∀ id ∈ b.closes, ∃ r ∈ slice, r.id = id) →
      b.result slice = before ++ i :: j :: after → IsTiling (before ++ [i]) → ¬ i.Meets j →
      Rejects s slice b (.corruptTimeline b.object
        (.misfit (if i.stop < .finite j.start then .gap else .overlap) ⟨none, i⟩ ⟨none, j⟩))

/-- The store `s'` is `s` after a batch was committed.  The records that the batch
closes are superseded where they stand, and the ones that it inserts are numbered on,
in order and current. -/
structure Accepted (s : Store α) (slice : List (Record α)) (b : Batch α)
    (inserted : List (Record α)) (s' : Store α) : Prop where
  inserted_eq : inserted = b.additions (s.lineage b.object).size
  records_eq :
    (s'.lineage b.object).records = (s.lineage b.object).records.map b.revise ++ inserted
  closed_at : ∀ r ∈ slice, r.id ∈ b.closes →
    ∃ r', r.close b.stamp = .ok r' ∧ s'.record r.id = .ok r'
  reads : ∃ slice', s'.activeSlice b.object = .ok slice' ∧ ∀ t, Timeline.covering? slice' t =
    (Timeline.covering? inserted t).or
    ((Timeline.covering? slice t).filter fun r => !b.closes.contains r.id)
  latest_eq : s'.latestCorrection b.object = some b.stamp
  grows : s.Grows b.object inserted s'

variable {s : Store α} {slice : List (Record α)} {b : Batch α} {fault : Fault}

/-- A new stamp is after the newest one of the lineage. -/
theorem lt_stamp_of_isFresh (fresh : b.IsFresh s) :
    ∀ latest, (s.lineage b.object).latest = some latest → latest < b.stamp := by
  rw [← latestCorrection_eq]
  exact fresh

/-- A batch is accepted, or there is a reason to refuse it. -/
theorem accepts_or_rejects (s : Store α) (slice : List (Record α)) (b : Batch α) :
    s.Accepts slice b ∨ ∃ fault, s.Rejects slice b fault := by
  rcases Bool.eq_false_or_eq_true b.isEmpty with empty | filled
  · rcases Batch.isEmpty_eq_true_iff.mp empty with ⟨closes, inserts⟩
    exact .inr ⟨_, .empty closes inserts⟩
  rw [Batch.isEmpty_eq_false_iff] at filled
  by_cases creates : s.contains b.object = true ∨ b.closes = []
  case neg =>
    rw [not_or, Bool.not_eq_true] at creates
    exact .inr ⟨_, .unknown creates.2 creates.1⟩
  by_cases fresh : b.IsFresh s
  case neg =>
    unfold Batch.IsFresh at fresh
    push Not at fresh
    rcases fresh with ⟨latest, newest, old⟩
    exact .inr ⟨_, .stale filled newest old⟩
  by_cases current : ∀ id ∈ b.closes, ∃ r ∈ slice, r.id = id
  case neg =>
    rcases Batch.exists_firstAbsent current with ⟨id, first⟩
    have known : s.contains b.object = true := by
      rcases creates with known | none
      · exact known
      · rw [none] at current
        exact absurd nofun current
    cases found : s.record id with
    | ok r => exact .inr ⟨_, .superseded fresh first found⟩
    | error fault =>
      rw [record_eq_error found] at found
      exact .inr ⟨_, .missing known fresh first found⟩
  cases found : Misfit.first? id (b.result slice) with
  | none => exact .inl ⟨filled, creates, fresh, current, Misfit.first?_id_eq_none_iff.mp found⟩
  | some first =>
    rcases first with ⟨misfit, i, j⟩
    rcases Misfit.first?_id_eq_some_iff.mp found with ⟨before, after, shape, tiled, apart⟩
    refine .inr ⟨_, .misfit filled creates fresh current shape tiled fun meets => ?_⟩
    rw [Misfit.between?_eq_none_iff.mpr meets] at apart
    cases apart

section Runs

variable (sound : s.Sound) (slice_eq : slice = (s.lineage b.object).activeRecords)

include sound slice_eq

theorem mem_slice_iff {r : Record α} :
    r ∈ slice ↔ r ∈ (s.lineage b.object).records ∧ r.isCurrent = true := by
  rw [slice_eq]
  exact (sound.lineage_sound b.object).toIndexed.mem_activeRecords

theorem exists_mem_slice_iff {id : RecordId} :
    (∃ r ∈ slice, r.id = id) ↔
      ∃ r ∈ (s.lineage b.object).records, r.id = id ∧ r.isCurrent = true := by
  simp only [mem_slice_iff sound slice_eq, and_assoc, and_comm]

/-- The first close that does not name a current record decides how the batch is refused. -/
theorem run_commit_of_firstAbsent {id : RecordId} (known : s.contains b.object = true)
    (fresh : b.IsFresh s) (first : b.FirstAbsent slice id)
    (refused : (s.lineage b.object).closable id = .error fault) :
    (commit b).run s = .error fault s := by
  have own : b.object = (s.lineage b.object).object := (sound.lineage_object b.object).symm
  have filled : b.isEmpty = false :=
    Batch.isEmpty_eq_false_iff.mpr (.inl (List.ne_nil_of_mem first.mem))
  refine Sound.run_commit_of_lineage_refused
    (fun unknown => absurd (known.symm.trans unknown) Bool.noConfusion) ?_
  refine Timeline.run_apply_of_closing own filled (lt_stamp_of_isFresh fresh) ?_
  rcases first with ⟨before, after, shape, current, -⟩
  rw [shape]
  refine Program.mapM_eq_error_of_first (fun other member => ?_) refused
  rcases (exists_mem_slice_iff sound slice_eq).mp (current other member) with
      ⟨r, stored, same, isCurrent⟩
  rcases List.mem_iff_getElem?.mp stored with ⟨p, found⟩
  exact ⟨p, (sound.lineage_sound b.object).toIndexed.closable_eq_ok_iff.mpr
    ⟨r, found, same, isCurrent⟩⟩

/-- A store refuses a batch with the first reason to do so, and stays as it is. -/
theorem Rejects.run_commit (rejects : s.Rejects slice b fault) :
    (commit b).run s = .error fault s := by
  have indexed := (sound.lineage_sound b.object).toIndexed
  have own : (s.lineage b.object).object = b.object := sound.lineage_object b.object
  cases rejects with
  | empty closes inserts =>
    refine Sound.run_commit_of_lineage_refused (fun _ => List.isEmpty_iff.mpr closes) ?_
    exact Timeline.run_apply_of_empty own.symm (Batch.isEmpty_eq_true_iff.mpr ⟨closes, inserts⟩)
  | unknown closes unknown =>
    exact Sound.run_commit_of_unknown unknown (mt List.isEmpty_iff.mp closes)
  | stale filled newest old =>
    exact sound.run_commit_of_stale (Batch.isEmpty_eq_false_iff.mpr filled) newest old
  | @superseded r id fresh first found =>
    rcases sound.record_eq_ok_iff.mp found with ⟨stored, rfl⟩
    rw [b.closes_object _ first.mem] at stored
    have gone : r.isCurrent = false := by
      rcases first with ⟨-, -, -, -, absent⟩
      rw [Bool.eq_false_iff]
      exact fun current => absent r ((mem_slice_iff sound slice_eq).mpr ⟨stored, current⟩) rfl
    have refused := indexed.closable_of_superseded stored gone
    rw [own] at refused
    exact run_commit_of_firstAbsent sound slice_eq (contains_of_mem stored) fresh first refused
  | @missing id known fresh first missing =>
    have absent : ∀ r ∈ (s.lineage b.object).records, r.id ≠ id := by
      intro r stored same
      rw [← b.closes_object _ first.mem] at stored
      rw [sound.record_eq_ok_iff.mpr ⟨stored, same⟩] at missing
      cases missing
    have refused := indexed.closable_of_unknown absent
    rw [own] at refused
    exact run_commit_of_firstAbsent sound slice_eq known fresh first refused
  | @misfit before after i j filled creates fresh current shape tiled apart =>
    have found : Misfit.first? id (b.result slice) =
        some (if i.stop < .finite j.start then .gap else .overlap, i, j) :=
      Misfit.first?_id_eq_some_iff.mpr
        ⟨before, after, shape, tiled, Misfit.between?_of_not_meets apart⟩
    refine Sound.run_commit_of_lineage_refused (fun unknown => ?_) ?_
    · rw [unknown] at creates
      exact List.isEmpty_iff.mpr (creates.resolve_left Bool.noConfusion)
    refine indexed.run_apply_of_misfit own.symm (Batch.isEmpty_eq_false_iff.mpr filled)
      (lt_stamp_of_isFresh fresh)
      (fun id member => (exists_mem_slice_iff sound slice_eq).mp (current id member)) ?_
    rw [← slice_eq, own]
    change checkTiling b.object (b.result slice) = _
    rw [checkTiling, found]

/-- A batch that there is no reason to refuse fits the lineage of its object. -/
theorem Accepts.fits (accepts : s.Accepts slice b) : b.Fits (s.lineage b.object) where
  object_eq := (sound.lineage_object b.object).symm
  not_empty := Batch.isEmpty_eq_false_iff.mpr accepts.not_empty
  fresh := lt_stamp_of_isFresh accepts.fresh
  closes_current id member :=
    (exists_mem_slice_iff sound slice_eq).mp (accepts.closes_current id member)
  tiles := by
    have perm := (sound.lineage_sound b.object).toIndexed.outlook_perm b
    rw [← slice_eq] at perm
    rw [accepts.tiles.stableSort_congr perm]
    exact accepts.tiles

/-- A store accepts a batch if there is no reason to refuse it, and the batch
takes effect as a whole. -/
theorem Accepts.run_commit (accepts : s.Accepts slice b) :
    ∃ inserted s', (commit b).run s = .ok inserted s' ∧ s.Accepted slice b inserted s' := by
  have soundLineage := sound.lineage_sound b.object
  have fits := accepts.fits sound slice_eq
  rcases sound.run_commit_of_fits fits with ⟨tl, applied, sound', run⟩
  refine ⟨_, _, run, rfl, ?_, fun r listed closes => ?_, ⟨tl.activeRecords, ?_, fun t => ?_⟩, ?_,
    applied.grows sound sound'⟩
  · rw [lineage_committed]
    exact applied.records_eq
  · have stored := ((mem_slice_iff sound slice_eq).mp listed).1
    rcases applied.exists_closed soundLineage fits stored closes with ⟨r', stored', shut, same⟩
    refine ⟨r', shut, ?_⟩
    rw [(applied.grows sound sound').sound.record_eq_ok_iff, b.closes_object _ closes,
      lineage_committed]
    exact ⟨stored', same⟩
  · have known : (s.committed b.object tl).contains b.object = true :=
      contains_committed.mpr (.inl rfl)
    rw [(applied.grows sound sound').sound.activeSlice_of_contains known, lineage_committed]
  · rw [slice_eq]
    exact applied.covering?_eq soundLineage fits t
  · rw [latestCorrection_eq, lineage_committed]
    exact applied.latest_eq

end Runs

/-- A commit fails and changes nothing, or else it takes effect as a whole. -/
theorem Sound.commit_accepted_or_fails (sound : s.Sound) (b : Batch α) :
    (∃ fault, (commit b).run s = .error fault s) ∨
      ∃ inserted s', (commit b).run s = .ok inserted s' ∧
        s.Accepted (s.lineage b.object).activeRecords b inserted s' := by
  rcases s.accepts_or_rejects (s.lineage b.object).activeRecords b with accepts | ⟨fault, rejects⟩
  · exact .inr (accepts.run_commit sound rfl)
  · exact .inl ⟨fault, rejects.run_commit sound rfl⟩

/-- A commit to a known object ends as the batch does on its timeline. -/
theorem Sound.run_apply_eq (sound : s.Sound) {tl : Timeline α}
    (known : s.timeline? b.object = some tl) :
    (∀ inserted s', (commit b).run s = .ok inserted s' →
      ∃ tl', s'.timeline? b.object = some tl' ∧ (Timeline.apply b).run tl = .ok inserted tl') ∧
    ∀ fault s', (commit b).run s = .error fault s' →
      (Timeline.apply b).run tl = .error fault tl := by
  rcases (sound b.object tl known).2.apply_cases b with
      ⟨tl', -, -, -, applied⟩ | ⟨fault, -, refused⟩
  · have run : (commit b).run s = .ok (b.additions tl.records.length)
        (s.committed b.object tl') := by
      change Timeline.apply b tl = _ at applied
      change commit b s = _
      unfold commit
      rw [known]
      dsimp only
      rw [applied]
    rw [run]
    refine ⟨fun inserted s' committed => ?_, nofun⟩
    cases committed
    exact ⟨tl', by rw [timeline?_committed, if_pos rfl], applied⟩
  · rw [Sound.run_commit_of_refused known refused]
    refine ⟨nofun, fun fault' s' failed => ?_⟩
    cases failed
    exact refused

/-- Whatever batches were committed to an empty store before: a batch is committed exactly if the
store accepts it, and takes effect as a whole.  Otherwise the store reports the first reason to
refuse it, which is never an empty interval, and stays as it is.  A batch for a known object ends
in the same way on the timeline of the object. -/
theorem commit_exact (batches : List (Batch α)) (b : Batch α) :
    let s : Store α := Store.empty.commitEach batches
    ∃ slice, (s.activeSlice b.object = .ok slice ∨ s.contains b.object = false ∧ slice = []) ∧
      ((∃ inserted s', (commit b).run s = .ok inserted s') ↔ s.Accepts slice b) ∧
      (∀ inserted s', (commit b).run s = .ok inserted s' → s.Accepted slice b inserted s') ∧
      (∀ fault s', (commit b).run s = .error fault s' ↔ s.Rejects slice b fault ∧ s' = s) ∧
      (∀ start stop, ¬ s.Rejects slice b (.invalidInterval start stop)) ∧
      ∀ tl, s.timeline? b.object = some tl →
        (∀ inserted s', (commit b).run s = .ok inserted s' →
          ∃ tl', s'.timeline? b.object = some tl' ∧
            (Timeline.apply b).run tl = .ok inserted tl') ∧
        ∀ fault s', (commit b).run s = .error fault s' →
          (Timeline.apply b).run tl = .error fault tl := by
  intro s
  have sound : s.Sound := Sound.empty.commitEach batches
  refine ⟨_, sound.activeSlice_cases b.object, ?_⟩
  rcases s.accepts_or_rejects (s.lineage b.object).activeRecords b with accepts | ⟨fault, rejects⟩
  · rcases accepts.run_commit sound rfl with ⟨inserted, s', run, accepted⟩
    refine ⟨iff_of_true ⟨inserted, s', run⟩ accepts, fun inserted' s'' committed => ?_,
      fun fault s'' => ?_, nofun, fun tl known => sound.run_apply_eq known⟩
    · cases run.symm.trans committed
      exact accepted
    · refine iff_of_false (fun failed => ?_) fun h => ?_
      · cases run.symm.trans failed
      · cases run.symm.trans (h.1.run_commit sound rfl)
  · have run := rejects.run_commit sound rfl
    refine ⟨iff_of_false (fun h => ?_) fun accepts => ?_, fun inserted s' committed => ?_,
      fun fault' s' => ⟨fun failed => ?_, fun h => ?_⟩, nofun,
      fun tl known => sound.run_apply_eq known⟩
    · rcases h with ⟨inserted, s', committed⟩
      cases run.symm.trans committed
    · rcases accepts.run_commit sound rfl with ⟨inserted, s', committed, -⟩
      cases run.symm.trans committed
    · cases run.symm.trans committed
    · cases run.symm.trans failed
      exact ⟨rejects, rfl⟩
    · rcases h with ⟨rejects', rfl⟩
      exact rejects'.run_commit sound rfl

end Store

end Bitemporal
