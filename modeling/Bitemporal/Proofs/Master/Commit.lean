import Bitemporal.Master.Edit
import Bitemporal.Proofs.Plan
import Bitemporal.Proofs.Store

/-!
# Committed plans

What `Master.commitPlan` does on a sound store with a plan that suits the current
slice of the object.

* The check after the commit passes, so the run is the same with it and without it
  (`Master.run_commitPlan_of_check`).
* A plan that leaves a gap is refused before anything is touched
  (`Master.run_commitPlan_of_gap`).
* Any other plan is committed as a whole (`Master.run_commitPlan_of_fresh`), unless correction
  time is used up (`Master.run_commitPlan_of_last`).
-/

namespace Bitemporal

variable {α : Type} {object : ObjectId} {plan : Plan α} {b : Batch α} {tl : Timeline α}

/-! ## Stamps -/

theorem Instant.micros_next {a : Instant} (room : a < .last) : a.next.micros = a.micros + 1 := by
  have bound : a.micros < maxMicros := room
  have next : a.next.micros = min (a.micros + 1) maxMicros := rfl
  omega

/-- Every instant but the last has one after it. -/
theorem Instant.lt_next {a : Instant} (room : a < .last) : a < a.next := by
  rw [Instant.lt_iff, micros_next room]
  omega

/-- The next stamp is new, unless the newest one is the last instant. -/
theorem Timeline.lt_nextCorrection {latest : Instant} (now : Instant)
    (newest : tl.latest = some latest) (room : latest < .last) :
    latest < tl.nextCorrection now := by
  unfold nextCorrection
  rw [newest]
  dsimp only
  split
  · exact Instant.lt_next room
  · rename_i later
    exact not_le.mp later

/-! ## Batches of plans -/

/-- The batch of a plan that suits the slice does something. -/
theorem Plan.Suits.isEmpty_eq_false {active : List (Record α)} (suits : plan.Suits active)
    (inserts : b.inserts = plan.inserts) : b.isEmpty = false := by
  have nonempty : b.inserts.isEmpty = false := by
    rw [inserts, List.isEmpty_eq_false_iff]
    exact suits.inserts_ne_nil
  rw [Batch.isEmpty, nonempty, Bool.and_false]

/-- A plan and the batch made of it leave the same intervals. -/
theorem Plan.outlook_perm (indexed : tl.Indexed) (inserts : b.inserts = plan.inserts)
    (closes : ∀ id, id ∈ b.closes ↔ id ∈ plan.closes) :
    (plan.outlook tl.activeRecords).Perm (b.outlook tl.records) := by
  have same : (fun r : Record α => !plan.closes.contains r.id) =
      fun r => !b.closes.contains r.id := by
    funext r
    simp only [List.contains_eq_mem, closes]
  rw [Plan.outlook, same, ← inserts]
  exact indexed.outlook_perm b

/-- A plan that suits the current slice and leaves a tiling makes a batch
that fits the timeline. -/
theorem Plan.Suits.fits (suits : plan.Suits tl.activeRecords) (indexed : tl.Indexed)
    (tiling : IsTiling (plan.result tl.activeRecords)) (own : b.object = tl.object)
    (inserts : b.inserts = plan.inserts) (closes : ∀ id, id ∈ b.closes ↔ id ∈ plan.closes)
    (fresh : ∀ latest, tl.latest = some latest → latest < b.stamp) : b.Fits tl where
  object_eq := own
  not_empty := suits.isEmpty_eq_false inserts
  fresh := fresh
  closes_current := by
    intro id member
    rcases suits.closes_active id ((closes id).mp member) with ⟨r, listed, same⟩
    rcases indexed.mem_activeRecords.mp listed with ⟨stored, current⟩
    exact ⟨r, stored, same, current⟩
  tiles := by
    rw [IsTiling.stableSort_congr tiling (Plan.outlook_perm indexed inserts closes)]
    exact tiling

/-- The batch `b` is what a plan made on the current slice of an object becomes at a reading of
the clock, and it leaves the timeline `tl`. -/
structure Plan.Settles (plan : Plan α) (s : Store α) (object : ObjectId) (now : Instant)
    (b : Batch α) (tl : Timeline α) : Prop where
  object_eq : b.object = object
  stamp_eq : b.stamp = s.nextCorrection object now
  inserts_eq : b.inserts = plan.inserts
  closes_iff : ∀ id, id ∈ b.closes ↔ id ∈ plan.closes
  fits : b.Fits (s.lineage object)
  applied : b.Applied (s.lineage object) tl
  sound : tl.Sound

/-- What was planned is what is current. -/
theorem Plan.Settles.versions_perm {s : Store α} {now : Instant}
    (settles : plan.Settles s object now b tl) (sound : s.Sound) :
    (tl.activeRecords.map Record.version).Perm
      (plan.outlook (s.lineage object).activeRecords) := by
  have soundLineage := sound.lineage_sound object
  have planned := Plan.outlook_perm soundLineage.toIndexed settles.inserts_eq settles.closes_iff
  exact (settles.applied.versions_perm soundLineage settles.fits).trans planned.symm

/-! ## Stores after a commit -/

/-- The store `s'` is `s` after one commit for an object, which stored the records of
`inserted`. -/
structure Store.Grows (s : Store α) (object : ObjectId) (inserted : List (Record α))
    (s' : Store α) : Prop where
  sound : s'.Sound
  count : s'.commitCount = s.commitCount + 1
  others : ∀ other, other ≠ object → s'.timeline? other = s.timeline? other
  stored : ∀ r ∈ inserted, s'.record r.id = .ok r

theorem Store.Grows.of_subset {s s' : Store α} {inserted shown : List (Record α)}
    (grows : s.Grows object inserted s') (subset : ∀ r ∈ shown, r ∈ inserted) :
    s.Grows object shown s' where
  sound := grows.sound
  count := grows.count
  others := grows.others
  stored r member := grows.stored r (subset r member)

/-- What a batch inserts is stored, and other lineages stay as they are. -/
theorem Batch.Applied.grows {s : Store α} (applied : b.Applied (s.lineage b.object) tl)
    (sound : s.Sound) (sound' : tl.Sound) :
    s.Grows b.object (b.additions (s.lineage b.object).records.length)
      (s.committed b.object tl) := by
  have own : tl.object = b.object := applied.object_eq.trans (sound.lineage_object b.object)
  have soundStore := sound.committed own sound'
  refine ⟨soundStore, rfl, fun other distinct => ?_, fun r added => ?_⟩
  · rw [Store.timeline?_committed, if_neg distinct.symm]
  · have stored : r ∈ tl.records := by
      rw [applied.records_eq]
      exact List.mem_append_right _ added
    have lineage : r.id.object = b.object := (sound'.toIndexed.object_eq stored).trans own
    rw [soundStore.record_eq_ok_iff, lineage, Store.lineage_committed]
    exact ⟨stored, rfl⟩

/-- A plan that is settled stores what it inserts, and leaves other lineages as they are. -/
theorem Plan.Settles.grows {s : Store α} {now : Instant}
    (settles : plan.Settles s object now b tl) (sound : s.Sound) :
    s.Grows object (b.additions (s.lineage object).records.length) (s.committed object tl) := by
  have applied := settles.applied
  rw [← settles.object_eq] at applied ⊢
  exact applied.grows sound settles.sound

namespace Master

variable {m : Master (Store α)} {s : Store α} {active : List (Record α)}

/-! ## Runs of commits -/

/-- A plan that fails its check is not committed. -/
theorem run_commitPlan_of_gap {fault : Fault} (gap : plan.check object active = .error fault) :
    (commitPlan m object active plan).run s = .error fault s := by
  unfold commitPlan
  rw [gap, Program.run_bind_of_error Program.run_ofExcept_error]

/-- The check after the commit of a batch finds nothing. -/
theorem run_commitPlan_of_check (sound : s.Sound) (checked : plan.check object active = .ok ())
    (stamped : plan.toBatch object (s.nextCorrection object m.now) = .ok b)
    (own : b.object = object) :
    (commitPlan m object active plan).run s = (Store.commit b).run s := by
  have stamp : (DocumentStore.nextCorrection object m.now : Program (Store α) Instant).run s =
      .ok (s.nextCorrection object m.now) s := rfl
  unfold commitPlan
  rw [checked, Program.run_bind_of_ok Program.run_ofExcept_ok, Program.run_bind_of_ok stamp,
    stamped, Program.run_bind_of_ok Program.run_ofExcept_ok]
  change _ = (DocumentStore.commit b : Program (Store α) (List (Record α))).run s
  rcases sound.commit_cases b with ⟨tl, -, -, sound', run⟩ | ⟨fault, run⟩
  · change (DocumentStore.commit b : Program (Store α) (List (Record α))).run s = _ at run
    rw [run, Program.run_bind_of_ok run]
    have read : (DocumentStore.activeSlice object : Program (Store α) (List (Record α))).run
        (s.committed b.object tl) = .ok tl.activeRecords (s.committed b.object tl) := by
      refine Program.run_read_of_ok ?_
      unfold Store.activeSlice Store.timeline
      rw [Store.timeline?_committed, if_pos own]
      exact sound'.activeSlice_eq
    have tiled : checkPartition object tl.activeRecords = .ok () :=
      checkPartition_eq_ok_iff.mpr sound'.activeRecords_tiled
    split
    · rw [Program.run_bind_of_ok read, tiled, Program.run_bind_of_ok Program.run_ofExcept_ok]
      rfl
    · rfl
  · change (DocumentStore.commit b : Program (Store α) (List (Record α))).run s = _ at run
    rw [run, Program.run_bind_of_error run]

/-- A plan that suits the current slice can be stamped. -/
theorem exists_stamped (sound : s.Sound) (suits : plan.Suits (s.lineage object).activeRecords)
    (stamp : Instant) :
    ∃ b, plan.toBatch object stamp = .ok b ∧ b.object = object ∧ b.stamp = stamp ∧
      b.inserts = plan.inserts ∧ ∀ id, id ∈ b.closes ↔ id ∈ plan.closes := by
  refine Plan.toBatch_eq_ok (fun id member => ?_) stamp
  have indexed := (sound.lineage_sound object).toIndexed
  rcases suits.closes_active id member with ⟨r, listed, rfl⟩
  rw [indexed.object_eq (indexed.mem_activeRecords.mp listed).1, sound.lineage_object object]

/-- A plan that leaves a tiling is committed as a whole, at a stamp that is new. -/
theorem run_commitPlan_of_fresh (sound : s.Sound)
    (suits : plan.Suits (s.lineage object).activeRecords)
    (checked : plan.check object (s.lineage object).activeRecords = .ok ())
    (tiling : IsTiling (plan.result (s.lineage object).activeRecords))
    (fresh : ∀ latest, s.latestCorrection object = some latest →
      latest < s.nextCorrection object m.now) :
    ∃ b tl, plan.Settles s object m.now b tl ∧
      (commitPlan m object (s.lineage object).activeRecords plan).run s =
        .ok (b.additions (s.lineage object).records.length) (s.committed object tl) := by
  rcases exists_stamped sound suits (s.nextCorrection object m.now) with
      ⟨b, stamped, own, stamp, inserts, closes⟩
  have indexed := (sound.lineage_sound object).toIndexed
  have fits : b.Fits (s.lineage object) := by
    have own' : b.object = (s.lineage object).object :=
      own.trans (sound.lineage_object object).symm
    refine suits.fits indexed tiling own' inserts closes fun latest newest => ?_
    rw [← Store.latestCorrection_eq] at newest
    rw [stamp]
    exact fresh latest newest
  have committed := run_commitPlan_of_check sound checked stamped own
  subst own
  rcases sound.run_commit_of_fits fits with ⟨tl, applied, sound', run⟩
  exact ⟨b, tl, ⟨rfl, stamp, inserts, closes, fits, applied, sound'⟩, committed.trans run⟩

/-- After the last instant nothing is committed: the stamp is not new. -/
theorem run_commitPlan_of_last (sound : s.Sound)
    (suits : plan.Suits (s.lineage object).activeRecords)
    (checked : plan.check object (s.lineage object).activeRecords = .ok ())
    (usedUp : s.latestCorrection object = some .last) :
    ∃ cause, (commitPlan m object (s.lineage object).activeRecords plan).run s =
      .error (.conflict object cause) s := by
  rcases exists_stamped sound suits (s.nextCorrection object m.now) with
      ⟨b, stamped, own, -, inserts, -⟩
  refine ⟨.staleStamp b.stamp .last, ?_⟩
  rw [run_commitPlan_of_check sound checked stamped own, ← own]
  rw [← own] at usedUp
  exact sound.run_commit_of_stale (suits.isEmpty_eq_false inserts) usedUp b.stamp.le_last

/-- A plan that suits the current slice leaves a gap, or finds correction time used up, or is
committed as a whole. -/
theorem run_commitPlan_cases (sound : s.Sound)
    (suits : plan.Suits (s.lineage object).activeRecords) :
    (∃ i j, (commitPlan m object (s.lineage object).activeRecords plan).run s =
      .error (.nonExactRange object (.gap i j)) s) ∨
    (∃ cause, s.latestCorrection object = some .last ∧
      (commitPlan m object (s.lineage object).activeRecords plan).run s =
        .error (.conflict object cause) s) ∨
    ∃ b tl, s.latestCorrection object ≠ some .last ∧ plan.Settles s object m.now b tl ∧
      (commitPlan m object (s.lineage object).activeRecords plan).run s =
        .ok (b.additions (s.lineage object).records.length) (s.committed object tl) := by
  rcases suits.check_cases object with ⟨checked, tiling⟩ | ⟨i, j, gap⟩
  · by_cases usedUp : s.latestCorrection object = some .last
    · rcases run_commitPlan_of_last (m := m) sound suits checked usedUp with ⟨cause, run⟩
      exact .inr (.inl ⟨cause, usedUp, run⟩)
    · have fresh : ∀ latest, s.latestCorrection object = some latest →
          latest < s.nextCorrection object m.now := by
        intro latest newest
        have room : latest < .last :=
          lt_of_le_of_ne latest.le_last fun last => usedUp (last ▸ newest)
        rw [Store.latestCorrection_eq] at newest
        rw [Store.nextCorrection_eq]
        exact Timeline.lt_nextCorrection m.now newest room
      rcases run_commitPlan_of_fresh sound suits checked tiling fresh with ⟨b, tl, settles, run⟩
      exact .inr (.inr ⟨b, tl, usedUp, settles, run⟩)
  · exact .inl ⟨i, j, run_commitPlan_of_gap gap⟩

/-- How a commit ends does not depend on the settings, and in particular not on
whether it is checked. -/
theorem run_commitPlan_congr (m m' : Master (Store α)) (clock : m.now = m'.now) (sound : s.Sound)
    (suits : plan.Suits (s.lineage object).activeRecords) :
    (commitPlan m object (s.lineage object).activeRecords plan).run s =
      (commitPlan m' object (s.lineage object).activeRecords plan).run s := by
  rcases suits.check_cases object with ⟨checked, -⟩ | ⟨i, j, gap⟩
  · rcases exists_stamped sound suits (s.nextCorrection object m.now) with ⟨b, stamped, own, -⟩
    rw [run_commitPlan_of_check sound checked stamped own]
    rw [clock] at stamped
    rw [run_commitPlan_of_check sound checked stamped own]
  · rw [run_commitPlan_of_gap gap, run_commitPlan_of_gap gap]

end Master

end Bitemporal
