import Bitemporal.Proofs.Plan
import Bitemporal.Proofs.Store
import Bitemporal.Proofs.Timeline.Replay

/-!
# The check of a plan foretells the commit

A plan is checked on the slice that was read, a batch on the timeline that it changes.  Both look
at what would be left of the slice, and both look at the same run of intervals: a timeline
projects what the plan's result is (`Timeline.Indexed.projected_eq`).  So the check of a plan
passes exactly if the commit of its batch does (`Plan.checks_agree`), and a pair of intervals that
the one blames the other blames too.

Closing a record twice is closing it once.  A timeline is known by its object, its records and its
newest stamp (`Timeline.Indexed.ext`), and none of these depends on the order in which a batch
lists its closes.
-/

namespace Bitemporal

variable {α : Type}

/-! ## Batches that differ in the order of closes -/

namespace Timeline.Indexed

variable {tl tl' : Timeline α}

/-- The indexes of a timeline follow from its records. -/
theorem ext (indexed : tl.Indexed) (indexed' : tl'.Indexed) (object : tl.object = tl'.object)
    (records : tl.records = tl'.records) (latest : tl.latest = tl'.latest) : tl = tl' := by
  have positions : tl.positions = tl'.positions := by
    refine Std.ExtTreeMap.ext_getElem? fun id => Option.ext fun p => ?_
    rw [indexed.positions_iff, indexed'.positions_iff, records]
  have active : tl.active = tl'.active := by
    refine Std.ExtTreeMap.ext_getElem? fun start => Option.ext fun p => ?_
    rw [indexed.active_iff, indexed'.active_iff, records]
  have next : tl.nextVersion = tl'.nextVersion := by
    rw [indexed.nextVersion_eq, indexed'.nextVersion_eq, records]
  cases tl
  cases tl'
  simp_all only

end Timeline.Indexed

namespace Batch

/-- Two batches do the same, but may list their closes in different orders. -/
structure Alike (b b' : Batch α) : Prop where
  object_eq : b'.object = b.object
  stamp_eq : b'.stamp = b.stamp
  inserts_eq : b'.inserts = b.inserts
  mem_closes_iff : ∀ id, id ∈ b'.closes ↔ id ∈ b.closes

variable {b b' : Batch α} {tl left right : Timeline α}

theorem Alike.revise_eq (alike : b.Alike b') : b'.revise = b.revise := by
  funext r
  simp only [revise, alike.mem_closes_iff, alike.stamp_eq]

theorem Alike.additions_eq (alike : b.Alike b') (n : Nat) : b'.additions n = b.additions n := by
  rw [additions, additions, alike.inserts_eq, alike.object_eq, alike.stamp_eq]

/-- Batches that do the same leave the same. -/
theorem Alike.applied_eq (alike : b.Alike b') (applied : b.Applied tl left)
    (applied' : b'.Applied tl right) : right = left := by
  refine applied'.indexed.ext applied.indexed
    (applied'.object_eq.trans applied.object_eq.symm) ?_ ?_
  · rw [applied'.records_eq, applied.records_eq, alike.revise_eq, alike.additions_eq]
  · rw [applied'.latest_eq, applied.latest_eq, alike.stamp_eq]

/-- Closes that are listed already are not listed again. -/
theorem closeAll_closes {ids : List RecordId} (closed : b.closeAll ids = .ok b') :
    b'.closes = b.closes ++ (ids.filter fun id => !b.closes.contains id).eraseDups := by
  induction ids generalizing b with
  | nil =>
    cases closed
    simp
  | cons id rest ih =>
    rcases Program.exists_of_bind_eq_ok closed with ⟨mid, first, others⟩
    rw [ih others]
    unfold close at first
    split at first
    · split at first
      · rename_i listed
        cases first
        simp [listed]
      · rename_i new
        cases first
        -- What is new to the longer list is what is new to the shorter one, and not `id`.
        have later : (rest.filter fun other => !(b.closes ++ [id]).contains other) =
            (rest.filter fun other => !b.closes.contains other).filter fun other =>
              !other == id := by
          rw [List.filter_filter]
          refine List.filter_congr fun other _ => ?_
          rw [Bool.eq_iff_iff]
          simp [and_comm]
        rw [later, List.filter_cons_of_pos (by simpa using new), List.eraseDups_cons,
          List.append_assoc]
        rfl
    · cases first

end Batch

/-! ## Batches that are refused for what they would leave -/

namespace Timeline.Indexed

variable {tl : Timeline α} {b : Batch α} {fault : Fault}

/-- A batch that passes all other checks is refused with the misfit in what it would leave. -/
theorem run_apply_of_misfit (indexed : tl.Indexed) (own : b.object = tl.object)
    (filled : b.isEmpty = false) (fresh : ∀ latest, tl.latest = some latest → latest < b.stamp)
    (current : ∀ id ∈ b.closes, ∃ r ∈ tl.records, r.id = id ∧ r.isCurrent = true)
    (misfit : checkTiling tl.object (stableSort Interval.startsBy
      ((tl.activeRecords.filter fun r => !b.closes.contains r.id).map Record.version ++
        b.inserts.map Pending.version)) = .error fault) :
    (apply b).run tl = .error fault tl := by
  have checked : tl.checkBatch b = .ok () := checkBatch_eq_ok_iff.mpr ⟨own, filled, fresh⟩
  rcases indexed.exists_closing_iff.mpr current with ⟨ps, closing⟩
  rw [← indexed.projected_eq closing] at misfit
  rw [apply, EStateM.run_bind, EStateM.run_get]
  dsimp only
  rw [checked, Program.run_bind_of_ok Program.run_ofExcept_ok, closing,
    Program.run_bind_of_ok Program.run_ofExcept_ok, misfit,
    Program.run_bind_of_error Program.run_ofExcept_error]

end Timeline.Indexed

/-! ## Plans for a slice -/

namespace Plan

variable {s : Store α} {object : ObjectId} {active : List (Record α)} {stamp : Instant}
    {plan plan' : Plan α}
  {b b' : Batch α}

/-- A plan is one for the current slice of an object, and its stamp is new: it does something and
closes records of the slice only.  The slice of an unknown object is empty. -/
structure Targets (plan : Plan α) (s : Store α) (object : ObjectId) (active : List (Record α))
    (stamp : Instant) : Prop where
  read : s.activeSlice object = .ok active ∨ s.contains object = false ∧ active = []
  not_empty : plan.closes ≠ [] ∨ plan.inserts ≠ []
  closes_active : ∀ id ∈ plan.closes, ∃ r ∈ active, r.id = id
  fresh : ∀ latest, s.latestCorrection object = some latest → latest < stamp

/-- A batch is a plan with a stamp. -/
structure Stamps (plan : Plan α) (object : ObjectId) (stamp : Instant) (b : Batch α) : Prop where
  toBatch_eq : plan.toBatch object stamp = .ok b
  object_eq : b.object = object
  stamp_eq : b.stamp = stamp
  inserts_eq : b.inserts = plan.inserts
  closes_eq : b.closes = plan.closes.eraseDups

/-- A plan that closes records of the object only has a batch at any stamp. -/
theorem exists_stamps (own : ∀ id ∈ plan.closes, id.object = object) (stamp : Instant) :
    ∃ b, plan.Stamps object stamp b := by
  rcases toBatch_eq_ok own stamp with ⟨b, stamped, object', stamp', inserts, -⟩
  refine ⟨b, stamped, object', stamp', inserts, ?_⟩
  rcases Program.exists_of_bind_eq_ok stamped with ⟨closed, closing, done⟩
  cases done
  change closed.closes = plan.closes.eraseDups
  simpa [Batch.empty] using Batch.closeAll_closes closing

/-- A batch closes what its plan closes. -/
theorem Stamps.mem_closes_iff (stamps : plan.Stamps object stamp b) (id : RecordId) :
    id ∈ b.closes ↔ id ∈ plan.closes := by
  rw [stamps.closes_eq, List.mem_eraseDups]

/-- Batches of plans that do the same do the same. -/
theorem Stamps.alike (stamps : plan.Stamps object stamp b)
    (stamps' : plan'.Stamps object stamp b') (inserts : plan'.inserts = plan.inserts)
    (closes : ∀ id, id ∈ plan'.closes ↔ id ∈ plan.closes) : b.Alike b' where
  object_eq := stamps'.object_eq.trans stamps.object_eq.symm
  stamp_eq := stamps'.stamp_eq.trans stamps.stamp_eq.symm
  inserts_eq := by rw [stamps'.inserts_eq, inserts, stamps.inserts_eq]
  mem_closes_iff id := by rw [stamps'.mem_closes_iff, closes, stamps.mem_closes_iff]

/-- Which records a plan keeps does not depend on the order of its closes. -/
theorem result_congr (inserts : plan'.inserts = plan.inserts)
    (closes : ∀ id, id ∈ plan'.closes ↔ id ∈ plan.closes) :
    plan'.result active = plan.result active := by
  simp only [result, List.contains_eq_mem, closes, inserts]

/-- A batch would leave of a slice what its plan would. -/
theorem Stamps.result_eq (stamps : plan.Stamps object stamp b) :
    stableSort Interval.startsBy
      ((active.filter fun r => !b.closes.contains r.id).map Record.version ++
        b.inserts.map Pending.version) = plan.result active := by
  simp only [result, List.contains_eq_mem, stamps.mem_closes_iff, stamps.inserts_eq]

namespace Targets

theorem active_eq (targets : plan.Targets s object active stamp) (sound : s.Sound) :
    active = (s.lineage object).activeRecords := by
  rcases targets.read with read | ⟨unknown, rfl⟩
  · exact sound.activeSlice_eq_ok read
  · rw [Store.lineage_of_unknown (Store.timeline?_of_unknown unknown)]
    rfl

/-- A plan closes current records only. -/
theorem exists_current (targets : plan.Targets s object active stamp) (sound : s.Sound)
    {id : RecordId} (closes : id ∈ plan.closes) :
    ∃ r ∈ (s.lineage object).records, r.id = id ∧ r.isCurrent = true := by
  rcases targets.closes_active id closes with ⟨r, listed, same⟩
  rw [targets.active_eq sound, (sound.lineage_sound object).toIndexed.mem_activeRecords] at listed
  exact ⟨r, listed.1, same, listed.2⟩

/-- A plan for the current slice has a batch. -/
theorem exists_batch (targets : plan.Targets s object active stamp) (sound : s.Sound) :
    ∃ b, plan.Stamps object stamp b := by
  refine exists_stamps (fun id closes => ?_) stamp
  rcases targets.exists_current sound closes with ⟨r, stored, rfl, -⟩
  rw [(sound.lineage_sound object).toIndexed.object_eq stored, sound.lineage_object]

theorem lt_stamp (targets : plan.Targets s object active stamp)
    (stamps : plan.Stamps object stamp b) :
    ∀ latest, (s.lineage object).latest = some latest → latest < b.stamp := by
  intro latest newest
  rw [← Store.latestCorrection_eq] at newest
  rw [stamps.stamp_eq]
  exact targets.fresh latest newest

theorem isEmpty_eq (targets : plan.Targets s object active stamp)
    (stamps : plan.Stamps object stamp b) :
    b.isEmpty = false := by
  rw [Batch.isEmpty, stamps.inserts_eq, Bool.and_eq_false_iff]
  refine targets.not_empty.imp (fun closes => ?_) List.isEmpty_eq_false_iff.mpr
  rcases List.exists_mem_of_ne_nil _ closes with ⟨id, member⟩
  exact List.isEmpty_eq_false_iff.mpr (List.ne_nil_of_mem ((stamps.mem_closes_iff id).mpr member))

/-- Nothing is closed of an unknown object. -/
theorem isCreation_eq (targets : plan.Targets s object active stamp)
    (stamps : plan.Stamps object stamp b) (unknown : s.contains object = false) :
    b.isCreation = true := by
  rw [Batch.isCreation, List.isEmpty_iff, List.eq_nil_iff_forall_not_mem]
  intro id closes
  rcases targets.closes_active id ((stamps.mem_closes_iff id).mp closes) with ⟨r, listed, -⟩
  rcases targets.read with read | ⟨-, rfl⟩
  · rw [Store.activeSlice, Store.timeline, Store.timeline?_of_unknown unknown] at read
    cases read
  · cases listed

/-- A batch fits the lineage exactly if the result of its plan is a tiling. -/
theorem fits_iff (targets : plan.Targets s object active stamp) (sound : s.Sound)
    (stamps : plan.Stamps object stamp b) :
    b.Fits (s.lineage object) ↔ IsTiling (plan.result active) := by
  have perm : ((active.filter fun r => !b.closes.contains r.id).map Record.version ++
      b.inserts.map Pending.version).Perm (b.outlook (s.lineage object).records) := by
    rw [targets.active_eq sound]
    exact (sound.lineage_sound object).toIndexed.outlook_perm b
  rw [← stamps.result_eq]
  constructor
  · intro fits
    rw [fits.tiles.stableSort_congr perm.symm]
    exact fits.tiles
  · intro tiles
    refine ⟨?_, targets.isEmpty_eq stamps, targets.lt_stamp stamps, fun id closes => ?_, ?_⟩
    · rw [stamps.object_eq, sound.lineage_object]
    · exact targets.exists_current sound ((stamps.mem_closes_iff id).mp closes)
    · rwa [tiles.stableSort_congr perm]

/-- A plan whose result has no misfit is committed, and any other is refused with the first misfit
of its result. -/
theorem commit_cases (targets : plan.Targets s object active stamp) (sound : s.Sound)
    (stamps : plan.Stamps object stamp b) :
    (Misfit.first? id (plan.result active) = none ∧ ∃ tl, b.Applied (s.lineage object) tl ∧
      (Store.commit b).run s = .ok (b.additions (s.lineage object).records.length)
        (s.committed object tl)) ∨
    ∃ misfit i j, Misfit.first? id (plan.result active) = some (misfit, i, j) ∧
      (Store.commit b).run s =
        .error (.corruptTimeline object (.misfit misfit ⟨none, i⟩ ⟨none, j⟩)) s := by
  have own := stamps.object_eq
  subst own
  cases found : Misfit.first? id (plan.result active) with
  | none =>
    have fits := (targets.fits_iff sound stamps).mpr (Misfit.first?_id_eq_none_iff.mp found)
    rcases sound.run_commit_of_fits fits with ⟨tl, applied, -, run⟩
    exact .inl ⟨rfl, tl, applied, run⟩
  | some first =>
    rcases first with ⟨misfit, i, j⟩
    refine .inr ⟨misfit, i, j, rfl, ?_⟩
    have own := sound.lineage_object b.object
    refine Store.Sound.run_commit_of_lineage_refused (targets.isCreation_eq stamps) ?_
    refine (sound.lineage_sound b.object).toIndexed.run_apply_of_misfit own.symm
      (targets.isEmpty_eq stamps) (targets.lt_stamp stamps)
      (fun id closes => targets.exists_current sound ((stamps.mem_closes_iff id).mp closes)) ?_
    rw [← targets.active_eq sound, stamps.result_eq, own, checkTiling, found]

/-- A plan passes its check exactly if its batch is committed. -/
theorem check_eq_ok_iff (targets : plan.Targets s object active stamp) (sound : s.Sound)
    (stamps : plan.Stamps object stamp b) :
    plan.check object active = .ok () ↔
      ∃ inserted s', (Store.commit b).run s = .ok inserted s' := by
  rcases targets.commit_cases sound stamps with ⟨clean, tl, -, run⟩ | ⟨misfit, i, j, found, run⟩
  · simp [check, clean, run]
  · cases misfit <;> simp [check, found, run]

/-- A fault that the check finds is a gap or an overlap, which the commit
finds in the same place. -/
theorem exists_of_check_eq_error (targets : plan.Targets s object active stamp) (sound : s.Sound)
    (stamps : plan.Stamps object stamp b) {fault : Fault}
    (failed : plan.check object active = .error fault) :
    ∃ misfit i j,
      (misfit = .gap ∧ fault = .nonExactRange object (.gap i j) ∨
        misfit = .overlap ∧ fault = .corruptTimeline object (.plannedOverlap i j)) ∧
      (Store.commit b).run s =
        .error (.corruptTimeline object (.misfit misfit ⟨none, i⟩ ⟨none, j⟩)) s := by
  rcases targets.commit_cases sound stamps with ⟨clean, -⟩ | ⟨misfit, i, j, found, run⟩
  · simp [check, clean] at failed
  · refine ⟨misfit, i, j, ?_, run⟩
    cases misfit <;> simpa [check, found, eq_comm] using failed

/-- Plans that close the same records and insert the same do the same. -/
theorem run_commit_congr (targets : plan.Targets s object active stamp) (sound : s.Sound)
    (targets' : plan'.Targets s object active stamp) (stamps : plan.Stamps object stamp b)
    (stamps' : plan'.Stamps object stamp b') (inserts : plan'.inserts = plan.inserts)
    (closes : ∀ id, id ∈ plan'.closes ↔ id ∈ plan.closes) :
    (Store.commit b').run s = (Store.commit b).run s := by
  have alike := stamps.alike stamps' inserts closes
  have same : plan'.result active = plan.result active := result_congr inserts closes
  rcases targets.commit_cases sound stamps with
      ⟨clean, tl, applied, run⟩ | ⟨misfit, i, j, found, run⟩
  · rcases targets'.commit_cases sound stamps' with
        ⟨-, tl', applied', run'⟩ | ⟨misfit', i', j', found', -⟩
    · rw [run, run', alike.additions_eq, alike.applied_eq applied applied']
    · rw [same, clean] at found'
      cases found'
  · rcases targets'.commit_cases sound stamps' with ⟨clean, -⟩ | ⟨misfit', i', j', found', run'⟩
    · rw [same, found] at clean
      cases clean
    · rw [same, found] at found'
      cases found'
      rw [run, run']

theorem congr (targets : plan.Targets s object active stamp)
    (inserts : plan'.inserts = plan.inserts)
    (closes : ∀ id, id ∈ plan'.closes ↔ id ∈ plan.closes) :
    plan'.Targets s object active stamp where
  read := targets.read
  not_empty := by
    refine targets.not_empty.imp (fun closing => ?_) (fun filled => by rwa [inserts])
    obtain ⟨id, member⟩ := List.exists_mem_of_ne_nil _ closing
    exact List.ne_nil_of_mem ((closes id).mpr member)
  closes_active id member := targets.closes_active id ((closes id).mp member)
  fresh := targets.fresh

end Targets

/-- Whatever batches were committed to an empty store before: a plan for the current slice of an
object can be stamped, with its inserts in order and each of its closes once.  It passes its check
exactly if the batch is committed.  A gap or an overlap that the check finds is one that the
commit finds in the same place, which leaves the store as it was.  Only which records are closed
matters, not how often or in which order. -/
theorem checks_agree (batches : List (Batch α)) (object : ObjectId) (active : List (Record α))
    (plan : Plan α) (stamp : Instant)
    (targets : plan.Targets (Store.empty.commitEach batches) object active stamp) :
    let s : Store α := Store.empty.commitEach batches
    ∃ b, plan.Stamps object stamp b ∧
      (plan.check object active = .ok () ↔
        ∃ inserted s', (Store.commit b).run s = .ok inserted s') ∧
      (∀ fault, plan.check object active = .error fault → ∃ misfit i j,
        (misfit = .gap ∧ fault = .nonExactRange object (.gap i j) ∨
          misfit = .overlap ∧ fault = .corruptTimeline object (.plannedOverlap i j)) ∧
        (Store.commit b).run s =
          .error (.corruptTimeline object (.misfit misfit ⟨none, i⟩ ⟨none, j⟩)) s) ∧
      ∀ plan' : Plan α, plan'.inserts = plan.inserts →
        (∀ id, id ∈ plan'.closes ↔ id ∈ plan.closes) →
        plan'.check object active = plan.check object active ∧
        ∃ b', plan'.Stamps object stamp b' ∧
          (Store.commit b').run s = (Store.commit b).run s := by
  intro s
  have sound : s.Sound := Store.Sound.empty.commitEach batches
  obtain ⟨b, stamps⟩ := targets.exists_batch sound
  refine ⟨b, stamps, targets.check_eq_ok_iff sound stamps,
    fun fault => targets.exists_of_check_eq_error sound stamps,
    fun plan' inserts closes => ⟨?_, ?_⟩⟩
  · rw [check, check, result_congr inserts closes]
  · have targets' : plan'.Targets s object active stamp := targets.congr inserts closes
    obtain ⟨b', stamps'⟩ := targets'.exists_batch sound
    exact ⟨b', stamps', targets.run_commit_congr sound targets' stamps stamps' inserts closes⟩

/-- The rent of a lease is split in two by a plan that names the record twice and lists the later
part first. -/
theorem checks_agree_lease :
    let s : Store String := Store.empty.commitEach Timeline.leaseBatches
    let active : List (Record String) :=
      [⟨Timeline.lease.atVersion "1", .openFrom .epoch, .openFrom (.saturating 9), "120"⟩]
    let plan : Plan String :=
      ⟨[Timeline.lease.atVersion "1", Timeline.lease.atVersion "1"],
        [⟨.openFrom (.saturating 20), "140"⟩,
          ⟨⟨.epoch, .finite (.saturating 20), by decide⟩, "130"⟩]⟩
    plan.Targets s Timeline.lease active (.saturating 12) ∧
      ∃ b, plan.Stamps Timeline.lease (.saturating 12) b ∧
        b.closes = [Timeline.lease.atVersion "1"] ∧
        ∃ inserted s', (Store.commit b).run s = .ok inserted s' := by
  intro s active plan
  have newest : s.latestCorrection Timeline.lease = some (.saturating 9) := by decide
  have targets : plan.Targets s Timeline.lease active (.saturating 12) :=
    { read := .inl (by decide)
      not_empty := by decide
      closes_active := by decide
      fresh := by
        intro latest found
        rw [newest] at found
        cases found
        decide }
  obtain ⟨b, stamps, agree, -⟩ :=
    checks_agree Timeline.leaseBatches Timeline.lease active plan _ targets
  exact ⟨targets, b, stamps, stamps.closes_eq.trans (by decide), agree.mp (by decide)⟩

end Plan

end Bitemporal
