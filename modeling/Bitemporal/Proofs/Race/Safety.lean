import Bitemporal.Proofs.Acceptance
import Bitemporal.Proofs.Race.Basic
import Bitemporal.Proofs.Representation

/-!
# Stale plans are safe

However the moves of writers interleave, a plan that has gone stale does no harm.  What a writer
has read stays true in one respect (`Timeline.Recalls`): each record of it is stored still, as it
was read or superseded since.  So a commit that is accepted closes records as its writer read them
(`Timeline.Recalls.mem_activeRecords`), and a record that another writer has superseded is a
conflict (`Store.Sound.run_commit_of_superseded`).

Each move keeps this up, and with it that every commit stored what its writer had planned, that
nothing stored is lost, and that every instant of version time is held by the newest commit that
touched it (`Race.Follows.step`).  `Race.stale_plans_safe` draws the conclusion for all races.
-/

namespace Bitemporal

variable {ι α : Type}

/-! ## What writers know -/

/-- A slice that was read from a timeline, at some time: a tiling of records that were current
then, each of which is stored still, as it was or superseded. -/
structure Timeline.Recalls (tl : Timeline α) (slice : List (Record α)) : Prop where
  tiled : IsTiling (slice.map Record.version)
  stored : ∀ r ∈ slice, ∃ r' ∈ tl.records, r'.id = r.id ∧ (r' = r ∨ r'.isCurrent = false)

namespace Timeline.Recalls

variable {tl tl' : Timeline α} {slice : List (Record α)} {b : Batch α} {r : Record α}

/-- What is current is true to the timeline. -/
theorem of_activeRecords (sound : tl.Sound) : tl.Recalls tl.activeRecords where
  tiled := sound.activeRecords_tiled
  stored r listed := ⟨r, (sound.toIndexed.mem_activeRecords.mp listed).1, rfl, .inl rfl⟩

/-- A batch at most supersedes what was read. -/
theorem applied (recalls : tl.Recalls slice) (applied : b.Applied tl tl') (sound : tl.Sound)
    (fits : b.Fits tl) : tl'.Recalls slice where
  tiled := recalls.tiled
  stored := by
    intro r listed
    rcases recalls.stored r listed with ⟨r', stored, same, unchanged⟩
    have recorded : r'.correction.start < b.stamp := sound.dated.recorded fits.fresh r' stored
    refine ⟨b.revise r', applied.revise_mem stored, Batch.revise_id.trans same, ?_⟩
    by_cases spared : b.spares r' = true
    · rwa [Batch.revise_of_spares spared]
    · rw [Batch.revise_isCurrent recorded]
      exact .inr (Bool.not_eq_true _ ▸ spared)

/-- A record that was read and is to be closed by a batch that fits is current, as it was read. -/
theorem mem_activeRecords (recalls : tl.Recalls slice) (indexed : tl.Indexed) (fits : b.Fits tl)
    (listed : r ∈ slice) (closes : r.id ∈ b.closes) : r ∈ tl.activeRecords := by
  rcases recalls.stored r listed with ⟨r', stored, same, unchanged⟩
  have current : r'.isCurrent = true := fits.closed_isCurrent indexed stored (same ▸ closes)
  rcases unchanged with rfl | superseded
  · exact indexed.mem_activeRecords.mpr ⟨stored, current⟩
  · rw [superseded] at current
    cases current

end Timeline.Recalls

/-- What a writer has read was read from a timeline, and what it has planned
was planned on that. -/
structure Writer.Recalls (object : ObjectId) (tl : Timeline α) (writer : Writer α) : Prop where
  slice : ∀ slice, writer.slice? = some slice → tl.Recalls slice
  draft : ∀ slice plan, writer.draft? = some (slice, plan) →
    tl.Recalls slice ∧ ∃ planner : Planner α, planner.draft object slice = .ok plan

namespace Writer.Recalls

variable {object : ObjectId} {tl tl' : Timeline α} {b : Batch α} {writer : Writer α}

theorem idle (object : ObjectId) (tl : Timeline α) : Recalls object tl .idle := ⟨nofun, nofun⟩

/-- Whatever is committed, writers recall what they have read. -/
theorem applied (recalls : writer.Recalls object tl) (applied : b.Applied tl tl')
    (sound : tl.Sound) (fits : b.Fits tl) : writer.Recalls object tl' where
  slice slice held := (recalls.slice slice held).applied applied sound fits
  draft slice plan held := by
    rcases recalls.draft slice plan held with ⟨known, drafted⟩
    exact ⟨known.applied applied sound fits, drafted⟩

end Writer.Recalls

/-- A commit closes records that its writer had read. -/
theorem Committed.AsPlanned.closes_slice {c : Committed α} {object : ObjectId}
    (planned : c.AsPlanned object) (tiled : IsTiling (c.slice.map Record.version)) :
    ∀ id ∈ c.batch.closes, ∃ r ∈ c.slice, r.id = id := by
  rcases planned.drafted with ⟨planner, drafted⟩
  intro id closed
  exact Planner.closes_of_draft tiled drafted id ((planned.stamps.mem_closes_iff id).mp closed)

namespace Race

/-! ## Commits -/

section Commits

variable {s : Store α} {object : ObjectId} {c : Committed α} {r : Record α}

/-- The records that a commit closes of those that were read are the records that it closes. -/
theorem mem_closed_iff (sound : s.Sound) (recalls : (s.lineage object).Recalls c.slice)
    (closes : ∀ id ∈ c.batch.closes, ∃ r ∈ c.slice, r.id = id)
    (fits : c.batch.Fits (s.lineage object)) :
    r ∈ c.closed ↔ r ∈ (s.lineage object).activeRecords ∧ r.id ∈ c.batch.closes := by
  have indexed := (sound.lineage_sound object).toIndexed
  rw [Committed.closed, List.mem_filter, List.contains_eq_mem, decide_eq_true_iff]
  constructor
  · intro h
    exact ⟨recalls.mem_activeRecords indexed fits h.1 h.2, h.2⟩
  · intro h
    rcases closes r.id h.2 with ⟨r', listed, same⟩
    have active := recalls.mem_activeRecords indexed fits listed (same ▸ h.2)
    have stored := (indexed.mem_activeRecords.mp active).1
    rw [indexed.eq_of_id_eq (indexed.mem_activeRecords.mp h.1).1 stored same.symm]
    exact ⟨listed, same ▸ h.2⟩

end Commits

/-! ## Races -/

/-- How a race from `s` stands.  Its store is sound, its writers recall what they have read, each
commit took effect as planned and is stored, what was closed is superseded and was closed by one
commit, and each instant is held by the newest commit that touched it. -/
structure Follows (s : Store α) (object : ObjectId) (race : Race ι α) : Prop where
  sound : race.store.Sound
  known : s.contains object = true → race.store.contains object = true
  writers : ∀ w, (race.writers w).Recalls object (race.store.lineage object)
  planned : ∀ c ∈ race.commits, c.AsPlanned object
  stored : (race.store.lineage object).records.map Record.asRecorded =
    (s.lineage object).records.map Record.asRecorded ++
      race.commits.reverse.flatMap Committed.inserted
  superseded : ∀ c ∈ race.commits, ∀ id ∈ c.batch.closes,
    ∃ r ∈ (race.store.lineage object).records, r.id = id ∧ r.isCurrent = false
  disjoint : race.commits.Pairwise fun later earlier =>
    ∀ id ∈ later.batch.closes, id ∉ earlier.batch.closes
  held : ∀ t, Timeline.covering? (race.store.lineage object).activeRecords t =
    holder? (s.lineage object).activeRecords race.commits t

namespace Follows

variable {s : Store α} {object : ObjectId} {race : Race ι α}

theorem opened (sound : s.Sound) (object : ObjectId) :
    Follows s object (opened s : Race ι α) where
  sound := sound
  known known := known
  writers _ := .idle object _
  planned := nofun
  stored := (List.append_nil _).symm
  superseded := nofun
  disjoint := .nil
  held _ := rfl

/-- A commit that succeeds. -/
theorem committed (follows : race.Follows s object) {c : Committed α} {tl : Timeline α}
    (recalls : (race.store.lineage object).Recalls c.slice) (planned : c.AsPlanned object)
    (inserted : c.inserted = c.batch.additions (race.store.lineage object).records.length)
    (fits : c.batch.Fits (race.store.lineage object))
    (applied : c.batch.Applied (race.store.lineage object) tl) (sound' : tl.Sound) :
    Follows s object { race with
      store := race.store.committed object tl
      commits := c :: race.commits } where
  sound := follows.sound.committed (applied.object_eq.trans (follows.sound.lineage_object object))
    sound'
  known _ := Store.contains_committed.mpr (.inl rfl)
  writers w := by
    rw [Store.lineage_committed]
    exact (follows.writers w).applied applied (follows.sound.lineage_sound object) fits
  planned := List.forall_mem_cons.mpr ⟨planned, follows.planned⟩
  stored := by
    rw [Store.lineage_committed, applied.map_asRecorded, follows.stored, List.reverse_cons,
      List.flatMap_append, List.flatMap_singleton, inserted, List.append_assoc]
  superseded := by
    rw [Store.lineage_committed]
    intro other member id closed
    refine applied.exists_superseded (follows.sound.lineage_sound object) fits ?_
    rcases List.mem_cons.mp member with rfl | earlier
    · exact .inl closed
    · exact .inr (follows.superseded other earlier id closed)
  disjoint := by
    -- What an earlier commit closed is superseded by now, and this batch closes only current
    -- records.
    have indexed := (follows.sound.lineage_sound object).toIndexed
    refine List.pairwise_cons.mpr ⟨fun other earlier id closed closed' => ?_, follows.disjoint⟩
    rcases fits.closes_current id closed with ⟨r, stored, same, current⟩
    rcases follows.superseded other earlier id closed' with ⟨r', stored', same', old⟩
    rw [indexed.eq_of_id_eq stored stored' (same.trans same'.symm), old] at current
    cases current
  held t := by
    have soundLineage := follows.sound.lineage_sound object
    have closes := planned.closes_slice recalls.tiled
    have touches : c.touches t = true ↔
        ∃ r, (r ∈ (race.store.lineage object).activeRecords ∧ r.id ∈ c.batch.closes ∨
          r ∈ c.batch.additions (race.store.lineage object).records.length) ∧ t ∈ r.version := by
      rw [Committed.touches_iff, inserted]
      simp only [mem_closed_iff follows.sound recalls closes fits]
    rw [Store.lineage_committed, holder?_cons, inserted]
    split
    · rename_i touched
      exact applied.covering?_of_touched soundLineage fits (touches.mp touched)
    · rename_i untouched
      rw [applied.covering?_of_untouched soundLineage fits (touches.not.mp untouched)]
      exact follows.held t

/-- What a writer has planned can be stamped. -/
theorem exists_stamps (follows : race.Follows s object) {w : ι} {slice : List (Record α)}
    {plan : Plan α} (held : (race.writers w).draft? = some (slice, plan)) (stamp : Instant) :
    ∃ b, plan.Stamps object stamp b := by
  rcases (follows.writers w).draft slice plan held with ⟨recalls, planner, drafted⟩
  refine Plan.exists_stamps (fun id member => ?_) stamp
  rcases Planner.closes_of_draft recalls.tiled drafted id member with ⟨r, listed, rfl⟩
  rcases recalls.stored r listed with ⟨r', stored, same, -⟩
  rw [← same, (follows.sound.lineage_sound object).toIndexed.object_eq stored,
    follows.sound.lineage_object object]

/-- What a writer commits closes current records, as the writer had read them. -/
theorem commit_draft (follows : race.Follows s object) {w : ι} {slice : List (Record α)}
    {plan : Plan α} (held : (race.writers w).draft? = some (slice, plan)) (stamp : Instant) :
    ∃ b, plan.Stamps object stamp b ∧
      ((∃ fault, (Store.commit b).run race.store = .error fault race.store) ∨
        ∃ inserted store, (Store.commit b).run race.store = .ok inserted store ∧
          ∀ id ∈ b.closes, ∃ r ∈ slice, r.id = id ∧
            ∃ active, race.store.activeSlice object = .ok active ∧ r ∈ active) := by
  rcases (follows.writers w).draft slice plan held with ⟨recalls, planner, drafted⟩
  rcases follows.exists_stamps held stamp with ⟨b, stamps⟩
  rcases stamps.object_eq with rfl
  refine ⟨b, stamps, ?_⟩
  by_cases fits : b.Fits (race.store.lineage b.object)
  · rcases follows.sound.run_commit_of_fits fits with ⟨tl, -, -, run⟩
    refine .inr ⟨_, _, run, fun id member => ?_⟩
    have closed := (stamps.mem_closes_iff id).mp member
    rcases Planner.closes_of_draft recalls.tiled drafted id closed with ⟨r, listed, rfl⟩
    have indexed := (follows.sound.lineage_sound b.object).toIndexed
    have active := recalls.mem_activeRecords indexed fits listed member
    have known := Store.contains_of_mem (indexed.mem_activeRecords.mp active).1
    exact ⟨r, listed, rfl, _, follows.sound.activeSlice_of_contains known, active⟩
  · exact .inl (follows.sound.run_commit_of_not_fits fits)

variable [DecidableEq ι]

/-- A writer may take up whatever is true to the timeline. -/
theorem hand (follows : race.Follows s object) (w : ι) {writer : Writer α}
    (recalls : writer.Recalls object (race.store.lineage object)) :
    (race.hand w writer).Follows s object :=
  { follows with
    writers := by
      intro w'
      unfold Race.hand
      dsimp only
      by_cases same : w' = w
      · rw [same, Function.update_self]
        exact recalls
      · rw [Function.update_of_ne same]
        exact follows.writers w' }

/-- Whatever a writer does next, the race goes on as it should. -/
theorem step (follows : race.Follows s object) (move : ι × Move α) :
    (race.step object move).Follows s object := by
  rcases move with ⟨w, move⟩
  have recalls := follows.writers w
  cases move with
  | read =>
    unfold Race.step
    dsimp only
    split
    · rename_i slice read
      refine follows.hand w ⟨fun slice' held => ?_, recalls.draft⟩
      cases held
      rw [follows.sound.activeSlice_eq_ok read]
      exact .of_activeRecords (follows.sound.lineage_sound object)
    · exact follows
  | plan planner =>
    unfold Race.step
    dsimp only
    split
    · rename_i slice read
      split
      · rename_i plan drafted
        refine follows.hand w ⟨recalls.slice, fun slice' plan' held => ?_⟩
        cases held
        exact ⟨recalls.slice slice read, planner, drafted⟩
      · exact follows
    · exact follows
  | stamp now => exact follows.hand w ⟨recalls.slice, recalls.draft⟩
  | commit =>
    unfold Race.step
    dsimp only
    split
    · rename_i slice plan stamp held _
      -- The plan may be stale by now.  Whether the batch fits decides, as for any other batch.
      rcases recalls.draft slice plan held with ⟨known, planner, drafted⟩
      rcases follows.exists_stamps held stamp with ⟨b, stamps⟩
      rcases stamps.object_eq with rfl
      rcases stamps.stamp_eq with rfl
      rw [stamps.toBatch_eq]
      dsimp only
      rcases follows.sound.commit_cases b with ⟨tl, fits, applied, sound', run⟩ | ⟨fault, run⟩
      · rw [run]
        exact follows.committed known ⟨⟨planner, drafted⟩, stamps, _, rfl⟩ rfl fits applied sound'
      · rw [run]
        exact follows
    · exact follows

/-- However the moves interleave, a race goes on as it should. -/
theorem run (follows : race.Follows s object) (moves : List (ι × Move α)) :
    (race.run object moves).Follows s object := by
  induction moves generalizing race with
  | nil => exact follows
  | cons move rest ih => exact ih (follows.step move)

end Follows

/-- However many writers race on an object of a store, and however their moves interleave.
Whatever a writer has planned and whenever it commits that, the commit fails and changes nothing,
or else each record that it closes is current and is what the writer had read.  A batch that is
committed takes effect as a whole, and one that closes a superseded record conflicts, so no two
commits that succeed close one record.

Every commit that succeeded is what its writer had planned, and the lineage holds the records that
it inserted: after the records at the beginning come those of the commits, in order, and none is
lost.  The current slice is a partition of version time, and at each instant its record is the one
that the newest commit inserted of those that closed or inserted a record there. -/
theorem stale_plans_safe [DecidableEq ι] (batches : List (Batch α)) (object : ObjectId)
    (moves : List (ι × Move α)) :
    let s : Store α := Store.empty.commitEach batches
    let race : Race ι α := (opened s).run object moves
    (∀ (w : ι) (slice : List (Record α)) (plan : Plan α),
      (race.writers w).draft? = some (slice, plan) → ∀ stamp, ∃ b, plan.Stamps object stamp b ∧
        ((∃ fault, (Store.commit b).run race.store = .error fault race.store) ∨
          ∃ inserted store, (Store.commit b).run race.store = .ok inserted store ∧
            ∀ id ∈ b.closes, ∃ r ∈ slice, r.id = id ∧
              ∃ active, race.store.activeSlice object = .ok active ∧ r ∈ active)) ∧
    (∃ active, (race.store.activeSlice object = .ok active ∨
        race.store.contains object = false ∧ active = []) ∧
      ∀ b : Batch α, b.object = object →
        (∃ fault, (Store.commit b).run race.store = .error fault race.store) ∨
        ∃ inserted store, (Store.commit b).run race.store = .ok inserted store ∧
          race.store.Accepted active b inserted store) ∧
    (∀ (b : Batch α) (r : Record α), b.object = object → race.store.record r.id = .ok r →
      r.isCurrent = false → r.id ∈ b.closes →
      ∃ cause, (Store.commit b).run race.store = .error (.conflict object cause) race.store) ∧
    race.commits.Pairwise (fun later earlier =>
      ∀ id ∈ later.batch.closes, id ∉ earlier.batch.closes) ∧
    (∀ c ∈ race.commits, c.AsPlanned object) ∧
    (race.store.lineage object).records.map Record.asRecorded =
      (s.lineage object).records.map Record.asRecorded ++
        race.commits.reverse.flatMap Committed.inserted ∧
    (s.contains object = true →
      ∃ first active, s.activeSlice object = .ok first ∧
        race.store.activeSlice object = .ok active ∧ Timeline.IsPartition active ∧
        ∀ t, Timeline.covering? active t = holder? first race.commits t) := by
  intro s race
  have sound₀ : s.Sound := Store.Sound.empty.commitEach batches
  have follows : race.Follows s object := (Follows.opened sound₀ object).run moves
  have sound := follows.sound
  refine ⟨fun w slice plan held stamp => follows.commit_draft held stamp,
    ⟨_, sound.activeSlice_cases object, fun b own => ?_⟩,
    fun b r own read superseded closes => ?_, follows.disjoint, follows.planned, follows.stored,
    fun known => ?_⟩
  · subst own
    exact sound.commit_accepted_or_fails b
  · subst own
    rcases sound.record_eq_ok_iff.mp read with ⟨stored, -⟩
    rw [b.closes_object r.id closes] at stored
    exact sound.run_commit_of_superseded stored superseded closes
  · have tiled := (sound.lineage_sound object).activeRecords_tiled
    exact ⟨_, _, sound₀.activeSlice_of_contains known,
      sound.activeSlice_of_contains (follows.known known), Timeline.isPartition_of_tiling tiled,
      follows.held⟩

/-- Two writers plan on one slice of a lease.  One ends it at 30, the other sets a rent from 10 to
20.  The second to commit has the newer stamp, but its record is superseded, so it reads, plans
and commits again. -/
def leaseMoves : List (Bool × Move String) :=
  let rent : Move String := .plan (.splice [⟨"130", .saturating 10, some (.saturating 20)⟩])
  [(true, .read), (false, .read), (true, .plan (.terminate (.saturating 30))), (false, rent),
    (true, .stamp (.saturating 20)), (true, .commit), (false, .stamp (.saturating 25)),
    (false, .commit), (false, .read), (false, rent), (false, .commit)]

/-- Both writers succeed once, with what they had planned on what they had read by then.  The rent
takes effect beside the end. -/
theorem stale_plans_safe_leaseMoves :
    let s : Store String := Store.empty.commitEach Timeline.leaseBatches
    let race : Race Bool String := (opened s).run Timeline.lease leaseMoves
    race.commits.map (fun c => (c.batch.stamp, c.inserted.map Record.payload)) =
        [(.saturating 25, ["120", "130", "120"]), (.saturating 20, ["120"])] ∧
      (∀ c ∈ race.commits, c.AsPlanned Timeline.lease) ∧
      (race.store.lineage Timeline.lease).records.map Record.asRecorded =
        (s.lineage Timeline.lease).records.map Record.asRecorded ++
          race.commits.reverse.flatMap Committed.inserted ∧
      ∃ first active, s.activeSlice Timeline.lease = .ok first ∧
        race.store.activeSlice Timeline.lease = .ok active ∧
        active.map (fun r => (r.version.start, r.version.stop, r.payload)) =
          [(.epoch, .finite (.saturating 10), "120"),
            (.saturating 10, .finite (.saturating 20), "130"),
            (.saturating 20, .finite (.saturating 30), "120")] ∧
        ∀ t, Timeline.covering? active t = holder? first race.commits t := by
  intro s race
  obtain ⟨-, -, -, -, planned, stored, sliced⟩ :=
    stale_plans_safe Timeline.leaseBatches Timeline.lease leaseMoves
  obtain ⟨first, active, read₀, read, -, held⟩ := sliced (by decide)
  have shown : (race.store.activeSlice Timeline.lease).toOption.map
      (·.map fun r => (r.version.start, r.version.stop, r.payload)) =
        some [(.epoch, .finite (.saturating 10), "120"),
          (.saturating 10, .finite (.saturating 20), "130"),
          (.saturating 20, .finite (.saturating 30), "120")] := by
    decide +kernel
  rw [read] at shown
  exact ⟨by decide +kernel, planned, stored, first, active, read₀, read, Option.some.inj shown,
    held⟩

end Race

end Bitemporal
