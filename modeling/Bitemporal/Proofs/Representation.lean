import Bitemporal.Proofs.Store
import Bitemporal.Proofs.Timeline.Dates
import Bitemporal.Proofs.Timeline.Replay
import Mathlib.Algebra.BigOperators.Group.Finset.Piecewise

/-!
# What a store holds

A store says most things twice: a timeline has two indexes, a counter and a newest stamp beside
its records, and the store counts its commits.  `Timeline.Coherent` says that the parts of a
timeline agree, and `Store.Audited` that the counters of a store agree with its timelines.
`Store.commitEach_coherent` draws the conclusion for every run of commits.

The commits themselves are counted by dates.  Each adds one new date to one timeline
(`Batch.Applied.card_dates`), whether it closes records, adds some, or both.
-/

namespace Bitemporal

variable {α : Type}

/-- A record as it was when it was recorded. -/
def Record.asRecorded (r : Record α) : Record α :=
  { r with correction := .openFrom r.correction.start }

namespace Batch

variable {b : Batch α} {tl tl' : Timeline α} {r : Record α} {n : Nat}

/-- A batch does not change as what a record was recorded. -/
@[simp]
theorem asRecorded_revise : (b.revise r).asRecorded = r.asRecorded := by
  simp [Record.asRecorded, revise_id, revise_version, revise_payload, revise_start]

theorem map_asRecorded_additions : (b.additions n).map Record.asRecorded = b.additions n := by
  refine (List.map_congr_left fun r added => ?_).trans (List.map_id _)
  have recorded := mem_additions_correction added
  ext1 <;> simp [Record.asRecorded, recorded, Interval.openFrom]

/-- A batch adds records after all others, and does not change as what the
others were recorded. -/
theorem Applied.map_asRecorded (applied : b.Applied tl tl') :
    tl'.records.map Record.asRecorded = tl.records.map Record.asRecorded ++
      b.additions tl.records.length := by
  rw [applied.records_eq, List.map_append, map_asRecorded_additions, List.map_map]
  congr 1
  exact List.map_congr_left fun r _ => asRecorded_revise

/-- The stamp of a batch that fits is the newest date. -/
theorem Applied.latest_mem_dates (applied : b.Applied tl tl') (sound : tl.Sound)
    (fits : b.Fits tl) : ∃ latest, tl'.latest = some latest ∧ latest ∈ tl'.dates :=
  ⟨b.stamp, applied.latest_eq, (applied.mem_dates_iff sound fits).mpr (.inr rfl)⟩

end Batch

/-! ## One timeline -/

/-- The parts of the timeline of an object agree: there is a record, the records are numbered in
commit order, both indexes lead to them and to nothing else, and the newest stamp is the greatest
of their dates. -/
structure Timeline.Coherent (tl : Timeline α) (object : ObjectId) : Prop where
  object_eq : tl.object = object
  nonempty : tl.records ≠ []
  id_eq : ∀ i r, tl.records[i]? = some r → r.id = object.atVersion (Nat.repr i)
  ids_nodup : (tl.records.map Record.id).Nodup
  nextVersion_eq : tl.nextVersion = tl.records.length
  positions_iff : ∀ id i, tl.positions[id]? = some i ↔
    i < tl.records.length ∧ id = object.atVersion (Nat.repr i)
  active_iff : ∀ start i, tl.active[start]? = some i ↔
    ∃ r : Record α, tl.records[i]? = some r ∧ r.correction.stop = .unbounded ∧
      r.version.start = start
  latest_eq : ∃ latest, tl.latest = some latest ∧ latest ∈ tl.dates ∧ ∀ t ∈ tl.dates, t ≤ latest

/-- The parts of a sound timeline agree if its newest stamp is the date of a record. -/
theorem Timeline.Sound.coherent {tl : Timeline α} (sound : tl.Sound)
    (newest : ∃ latest, tl.latest = some latest ∧ latest ∈ tl.dates) : tl.Coherent tl.object where
  object_eq := rfl
  nonempty := by
    rcases newest with ⟨latest, -, dating⟩
    rcases mem_dates_iff.mp dating with ⟨r, stored, -⟩
    exact List.ne_nil_of_mem stored
  id_eq _ _ := sound.id_eq
  ids_nodup := sound.toIndexed.nodup_ids
  nextVersion_eq := sound.nextVersion_eq
  positions_iff id i := by
    rw [sound.positions_iff]
    constructor
    · intro h
      rcases h with ⟨r, found, rfl⟩
      exact ⟨(List.getElem?_eq_some_iff.mp found).1, sound.id_eq found⟩
    · intro h
      rcases h with ⟨inside, rfl⟩
      exact ⟨_, List.getElem?_eq_getElem inside, sound.id_eq (List.getElem?_eq_getElem inside)⟩
  active_iff start i := by
    simp only [sound.active_iff, Record.isCurrent_iff]
  latest_eq := by
    rcases newest with ⟨latest, found, dating⟩
    refine ⟨latest, found, dating, fun t earlier => ?_⟩
    rcases sound.dated.exists_latest earlier with ⟨latest', found', early⟩
    rw [found] at found'
    cases found'
    exact early

/-! ## The whole store -/

namespace Store

variable {s : Store α} {object other : ObjectId} {tl : Timeline α} {b : Batch α}

/-- The objects that a store knows. -/
def objects (s : Store α) : Finset ObjectId := s.timelines.keys.toFinset

theorem mem_objects : object ∈ s.objects ↔ s.contains object = true := by
  rw [objects, List.mem_toFinset, Std.ExtTreeMap.mem_keys, contains, timeline?,
    Std.ExtTreeMap.isSome_getElem?_iff_mem]

theorem keys_nodup (s : Store α) : s.timelines.keys.Nodup := by
  rw [List.nodup_iff_pairwise_ne]
  simpa using s.timelines.distinct_keys

/-- A commit adds at most its object to those that are known. -/
theorem objects_committed : (s.committed object tl).objects = insert object s.objects := by
  ext other
  rw [mem_objects, contains_committed, Finset.mem_insert, mem_objects]

theorem objectCount_eq (s : Store α) : s.objectCount = s.objects.card := by
  rw [objects, List.toFinset_card_of_nodup s.keys_nodup, Std.ExtTreeMap.length_keys, objectCount]

/-- The records are counted timeline by timeline. -/
theorem recordCount_eq (s : Store α) :
    s.recordCount = ∑ object ∈ s.objects, (s.lineage object).records.length := by
  have listed : ∀ entry ∈ s.timelines.toList,
      entry.2.size = (s.lineage entry.1).records.length := by
    intro entry member
    have known : s.timeline? entry.1 = some entry.2 :=
      Std.ExtTreeMap.mem_toList_iff_getElem?_eq_some.mp member
    rw [lineage_of_known known, Timeline.size]
  have folded (entries : List (ObjectId × Timeline α)) :
      entries.foldr (fun entry count => entry.2.size + count) 0 =
        (entries.map fun entry => entry.2.size).sum := by
    induction entries with
    | nil => rfl
    | cons entry rest ih => simp [ih]
  rw [recordCount, folded, objects, List.sum_toFinset _ s.keys_nodup,
    ← Std.ExtTreeMap.map_fst_toList_eq_keys, List.map_map]
  exact congrArg List.sum (List.map_congr_left listed)

/-- Each timeline has a date that is its newest stamp, and there were as many commits as the
timelines have dates. -/
structure Audited (s : Store α) : Prop where
  newest : ∀ object tl, s.timeline? object = some tl →
    ∃ latest, tl.latest = some latest ∧ latest ∈ tl.dates
  counted : s.commitCount = ∑ object ∈ s.objects, (s.lineage object).dates.toFinset.card

theorem Audited.empty : (Store.empty : Store α).Audited where
  newest object tl found := by simp [Store.empty, timeline?] at found
  counted := rfl

/-- A commit keeps the counters of a store in agreement with its timelines. -/
theorem Audited.committed (audited : s.Audited) (sound : s.Sound)
    (fits : b.Fits (s.lineage b.object)) (applied : b.Applied (s.lineage b.object) tl) :
    (s.committed b.object tl).Audited where
  newest object tl' found := by
    rw [timeline?_committed] at found
    split at found
    · cases found
      exact applied.latest_mem_dates (sound.lineage_sound b.object) fits
    · exact audited.newest object tl' found
  counted := by
    have grown : ∀ object, ((s.committed b.object tl).lineage object).dates.toFinset.card =
        (s.lineage object).dates.toFinset.card + if object = b.object then 1 else 0 := by
      intro object
      split
      · rename_i own
        rw [own, lineage_committed, applied.card_dates (sound.lineage_sound b.object) fits]
      · rename_i distinct
        rw [lineage_committed_of_ne (Ne.symm distinct), Nat.add_zero]
    -- An unknown object has no dates yet.
    have fresh : b.object ∉ s.objects → (s.lineage b.object).dates.toFinset.card = 0 := by
      intro unknown
      rw [mem_objects, Bool.not_eq_true] at unknown
      rw [lineage_of_unknown (timeline?_of_unknown unknown)]
      rfl
    rw [objects_committed, Finset.sum_congr rfl fun object _ => grown object,
      Finset.sum_add_distrib, Finset.sum_insert_of_eq_zero_if_notMem fresh, Finset.sum_ite_eq',
      if_pos (Finset.mem_insert_self _ _), ← audited.counted]
    rfl

/-! ## Runs of commits -/

/-- The records of an object that commits return, in order. -/
def created (object : ObjectId) (s : Store α) : List (Batch α) → List (Record α)
  | [] => []
  | b :: rest =>
    let later := created object (Program.final (commit b) s) rest
    match Program.outcome (commit b) s with
    | .ok inserted => if b.object = object then inserted ++ later else later
    | .error _ => later

/-- A timeline holds the records that commits returned, in that order and nothing else. -/
theorem Sound.map_asRecorded_commitEach (sound : s.Sound) (object : ObjectId)
    (batches : List (Batch α)) :
    ((s.commitEach batches).lineage object).records.map Record.asRecorded =
      (s.lineage object).records.map Record.asRecorded ++ s.created object batches := by
  induction batches generalizing s with
  | nil => exact (List.append_nil _).symm
  | cons b rest ih =>
    have later := ih (sound.final_commit b)
    change (((Program.final (commit b) s).commitEach rest).lineage object).records.map
      Record.asRecorded = _
    rw [later, created]
    rcases sound.commit_cases b with ⟨tl, -, applied, -, run⟩ | ⟨fault, run⟩
    · rw [Program.final_of_ok run, Program.outcome_of_ok run]
      dsimp only
      split
      · rename_i own
        subst own
        rw [lineage_committed, applied.map_asRecorded, List.append_assoc]
      · rename_i distinct
        rw [lineage_committed_of_ne distinct]
    · rw [Program.final_of_error run, Program.outcome_of_error run]

/-- Whatever batches are committed to an empty store, in whatever order and whether each is
accepted or not: the parts of every timeline agree, its records are those that the commits
returned, and the counters of the store agree with its timelines.  There were as many commits as
the timelines have dates.  The next batch is accepted exactly if it fits the timeline of its
object.  Then its inserts are returned, numbered on from the records that there were, and
otherwise nothing changes. -/
theorem commitEach_coherent (batches : List (Batch α)) :
    let s : Store α := Store.empty.commitEach batches
    (∀ object tl, s.timeline? object = some tl → tl.Coherent object) ∧
    (∀ object, (s.lineage object).records.map Record.asRecorded =
      Store.empty.created object batches) ∧
    (∀ object, s.contains object = true ↔ (s.lineage object).records ≠ []) ∧
    (∀ object, object ∈ s.objects ↔ s.contains object = true) ∧
    s.objectCount = s.objects.card ∧
    s.recordCount = ∑ object ∈ s.objects, (s.lineage object).records.length ∧
    s.commitCount = ∑ object ∈ s.objects, (s.lineage object).dates.toFinset.card ∧
    (∀ b, (∃ inserted s', (commit b).run s = .ok inserted s') ↔ b.Fits (s.lineage b.object)) ∧
    (∀ b inserted s', (commit b).run s = .ok inserted s' →
      inserted = b.additions (s.lineage b.object).records.length) ∧
    ∀ b fault s', (commit b).run s = .error fault s' → s' = s := by
  intro s
  have sound : s.Sound := Sound.empty.commitEach batches
  have audited : s.Audited :=
    Sound.empty.commitEach_induction Audited.empty
      (fun sound audited fits applied => audited.committed sound fits applied) batches
  have coherent : ∀ object tl, s.timeline? object = some tl → tl.Coherent object := by
    intro object tl found
    rcases sound object tl found with ⟨rfl, sound'⟩
    exact sound'.coherent (audited.newest _ tl found)
  refine ⟨coherent, fun object => Sound.empty.map_asRecorded_commitEach object batches,
    fun object => ⟨fun known => ?_, fun recorded => ?_⟩, fun object => mem_objects,
    s.objectCount_eq, s.recordCount_eq, audited.counted, fun b => sound.run_commit_eq_ok_iff,
    fun b inserted s' => sound.inserted_eq_of_run_commit_eq_ok,
    fun b fault s' => sound.eq_of_run_commit_eq_error⟩
  · rcases Option.isSome_iff_exists.mp known with ⟨tl, found⟩
    rw [lineage_of_known found]
    exact (coherent object tl found).nonempty
  · rcases List.exists_mem_of_ne_nil _ recorded with ⟨r, stored⟩
    exact contains_of_mem stored

/-- The rent of a lease, which a last batch ends without recording another. -/
def leaseEnded : List (Batch String) :=
  Timeline.leaseBatches ++ [⟨Timeline.lease, .saturating 12, [Timeline.lease.atVersion "1"], [],
    fun _ member => congrArg RecordId.object (List.mem_singleton.mp member),
    List.nodup_singleton _⟩]

/-- A batch that only closes is a commit with a date of its own, though no
record is recorded then. -/
theorem commitEach_coherent_leaseEnded :
    let s : Store String := Store.empty.commitEach leaseEnded
    ∃ tl, s.timeline? Timeline.lease = some tl ∧ tl.Coherent Timeline.lease ∧
      (s.lineage Timeline.lease).records.map Record.asRecorded =
        Store.empty.created Timeline.lease leaseEnded ∧
      (Store.empty.created Timeline.lease leaseEnded).map Record.payload = ["100", "120"] ∧
      s.commitCount = 3 ∧
      s.commitCount = ∑ object ∈ s.objects, (s.lineage object).dates.toFinset.card := by
  intro s
  obtain ⟨coherent, created, -, -, -, -, counted, -⟩ := commitEach_coherent leaseEnded
  have known : s.contains Timeline.lease = true := by decide
  obtain ⟨tl, found⟩ := Option.isSome_iff_exists.mp known
  exact ⟨tl, found, coherent _ tl found, created _, by decide, by decide, counted⟩

end Store

end Bitemporal
