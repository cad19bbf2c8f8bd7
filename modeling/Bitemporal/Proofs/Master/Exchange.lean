import Bitemporal.Proofs.Exchange
import Bitemporal.Proofs.Master.Edit

/-!
# Committed exchanges

An edit whose plan exchanges a part of the current slice, and whose run fits in there, is
committed as long as there is a new stamp (`Edit.run_of_exchange`).  All that the commit
does then is on record in `Store.Exchanged`: at one stamp the records in the middle of the
slice are superseded and those of the run take their place, and the records on both sides
are the same as before.

An edit that is not planned, or whose run does not fit in, is refused and leaves the store as it
was (`Edit.run_of_refused`, `Edit.run_of_gap`).
-/

namespace Bitemporal

variable {α : Type} {before closed after : List (Record α)} {start : Instant} {stop : Boundary}
    {plan : Plan α}
  {object : ObjectId}

/-- The store `s'` is `s` after one commit, which took `closed` out of the current slice of an
object and put `inserted` in its place, both at the same new stamp. -/
structure Store.Exchanged (s : Store α) (object : ObjectId) (stamp : Instant)
    (before closed after : List (Record α)) (inserted : List (Record α)) (s' : Store α) :
    Prop where
  slice_eq : s.activeSlice object = .ok (before ++ (closed ++ after))
  slice_eq' : s'.activeSlice object = .ok (before ++ (inserted ++ after))
  closed_at : ∀ r ∈ closed, ∃ r', r.close stamp = .ok r' ∧ s'.record r.id = .ok r'
  inserted_at : ∀ r ∈ inserted, r.correction = .openFrom stamp
  fresh : ∀ latest, s.latestCorrection object = some latest → latest < stamp
  latest_eq : s'.latestCorrection object = some stamp
  grows : s.Grows object inserted s'

/-- A run fails with a fault and leaves the store as it was. -/
def Master.Refuses {β : Type} (m : Master (Store α)) (program : MasterM (Store α) β)
    (fault : Fault) : Prop :=
  ∃ m', program.run m = .error fault m' ∧ m'.store = m.store

/-! ## What a batch adds and closes -/

namespace Batch

variable {b : Batch α} {tl tl' : Timeline α} {r : Record α}

/-- What a batch adds says what its inserts say. -/
theorem additions_content (n : Nat) : (b.additions n).map Record.content = b.inserts := by
  have numbers : (b.inserts.zipIdx n).map Prod.fst = b.inserts := List.zipIdx_map_fst n b.inserts
  rw [additions, List.map_map]
  exact numbers

/-- A record that a batch closes is stored as superseded at the stamp. -/
theorem Applied.exists_closed (applied : b.Applied tl tl') (sound : tl.Sound) (fits : b.Fits tl)
    (stored : r ∈ tl.records) (closes : r.id ∈ b.closes) :
    ∃ r' ∈ tl'.records, r.close b.stamp = .ok r' ∧ r'.id = r.id := by
  have recorded := sound.dated.recorded fits.fresh r stored
  have revised : b.revise r = r.supersede b.stamp := if_pos closes
  exact ⟨b.revise r, applied.revise_mem stored, revised ▸ Record.close_eq_ok recorded, revise_id⟩

/-- Batches of an exchange leave the run in the place of what they close. -/
theorem Applied.activeRecords_eq (applied : b.Applied tl tl') (sound : tl.Sound)
    (fits : b.Fits tl) (split : tl.activeRecords = before ++ (closed ++ after))
    (exchanges : plan.Exchanges before closed after start stop)
    (inserts : b.inserts = plan.inserts) (closes : ∀ id, id ∈ b.closes ↔ id ∈ plan.closes) :
    tl'.activeRecords = before ++ (b.additions tl.records.length ++ after) := by
  have distinct : ((before ++ (closed ++ after)).map Record.id).Nodup :=
    split ▸ sound.activeRecords_nodup_ids
  have same : (fun r : Record α => !b.closes.contains r.id) =
      fun r => !plan.closes.contains r.id := by
    funext r
    simp only [List.contains_eq_mem, closes]
  have spared := sound.toIndexed.spared_perm b
  rw [split, same, exchanges.kept_eq distinct] at spared
  have perm : tl'.activeRecords.Perm (before ++ (b.additions tl.records.length ++ after)) := by
    refine (applied.activeRecords_perm sound fits).trans ((spared.symm.append_right _).trans ?_)
    rw [List.append_assoc]
    exact List.Perm.append_left _ List.perm_append_comm
  have tiled : IsTiling ((before ++ (closed ++ after)).map Record.version) :=
    split ▸ sound.activeRecords_tiled
  have ascends : (before ++ (b.additions tl.records.length ++ after)).Pairwise
      (fun r s => r.version.start < s.version.start) := by
    have ordered : (plan.exchanged before after).Pairwise (fun i j => i.start < j.start) :=
      (exchanges.ordered tiled).imp Interval.Before.start_lt
    have versions : plan.exchanged before after =
        (before ++ (b.additions tl.records.length ++ after)).map Record.version := by
      rw [Plan.exchanged, ← inserts, ← additions_version (n := tl.records.length),
        List.map_append, List.map_append]
    rwa [versions, List.pairwise_map] at ordered
  calc tl'.activeRecords
      = stableSort (fun r s => r.version.startsBy s.version) tl'.activeRecords :=
        (stableSort_eq_of_perm Record.version (.refl _) applied.indexed.activeRecords_ascend).symm
    _ = before ++ (b.additions tl.records.length ++ after) :=
    stableSort_eq_of_perm Record.version perm ascends

end Batch

/-- A settled exchange. -/
theorem Plan.Settles.exchanged {s : Store α} {now : Instant} {b : Batch α} {tl : Timeline α}
    (settles : plan.Settles s object now b tl) (sound : s.Sound)
    (known : s.contains object = true)
    (split : (s.lineage object).activeRecords = before ++ (closed ++ after))
    (exchanges : plan.Exchanges before closed after start stop) :
    s.Exchanged object (s.nextCorrection object now) before closed after
      (b.additions (s.lineage object).records.length) (s.committed object tl) := by
  have soundLineage := sound.lineage_sound object
  have own : tl.object = object := settles.applied.object_eq.trans (sound.lineage_object object)
  have soundStore : (s.committed object tl).Sound := sound.committed own settles.sound
  have after :=
    settles.applied.activeRecords_eq soundLineage settles.fits split exchanges settles.inserts_eq
    settles.closes_iff
  rw [← settles.stamp_eq]
  refine ⟨?_, ?_, fun r member => ?_, fun r added => Batch.mem_additions_correction added, ?_, ?_,
    settles.grows sound⟩
  · rw [sound.activeSlice_of_contains known, split]
  · rw [soundStore.activeSlice_of_contains (Store.contains_committed.mpr (.inl rfl)),
      Store.lineage_committed, after]
  · have listed : r ∈ (s.lineage object).activeRecords := by
      rw [split]
      exact List.mem_append_right _ (List.mem_append_left _ member)
    have stored := (soundLineage.toIndexed.mem_activeRecords.mp listed).1
    have closes : r.id ∈ b.closes := by
      rw [settles.closes_iff, exchanges.closes_eq]
      exact List.mem_map_of_mem member
    rcases settles.applied.exists_closed soundLineage settles.fits stored closes with
        ⟨r', stored', shut, same⟩
    refine ⟨r', shut, ?_⟩
    rw [soundStore.record_eq_ok_iff, soundLineage.toIndexed.object_eq stored,
      sound.lineage_object, Store.lineage_committed]
    exact ⟨stored', same⟩
  · intro latest newest
    rw [Store.latestCorrection_eq] at newest
    exact settles.fits.fresh latest newest
  · rw [Store.latestCorrection_eq, Store.lineage_committed]
    exact settles.applied.latest_eq

/-! ## Runs of edits -/

namespace Edit

variable {m : Master (Store α)} {e : Edit α} {fault : Fault}

section Drafts

variable {s : Store α} {planner : List (Record α) → Except Fault (Plan α)} (sound : s.Sound)
  (known : s.contains object = true)

include sound known

theorem draftOn_of_ok (planned : planner (s.lineage object).activeRecords = .ok plan) :
    draftOn s object planner = .ok ((s.lineage object).activeRecords, plan) := by
  rw [draftOn, sound.activeSlice_of_contains known]
  change (planner (s.lineage object).activeRecords >>= fun plan => _) = _
  rw [planned]
  rfl

theorem draftOn_of_error (refused : planner (s.lineage object).activeRecords = .error fault) :
    draftOn s object planner = .error fault := by
  rw [draftOn, sound.activeSlice_of_contains known]
  change (planner (s.lineage object).activeRecords >>= fun plan => _) = _
  rw [refused]
  rfl

end Drafts

section DraftsFor

variable {s : Store α} {id : RecordId} {record : Record α}
    {replacements : Record α → List (Replacement α)}

theorem draftFor_of_unknown (unknown : s.record id = .error fault) :
    draftFor s id replacements = .error fault := by
  rw [draftFor, unknown]
  rfl

theorem draftFor_of_error (found : s.record id = .ok record)
    (refused : Plan.singleReplace record (replacements record) = .error fault) :
    draftFor s id replacements = .error fault := by
  rw [draftFor, found]
  change (Plan.singleReplace record (replacements record) >>= fun plan => _) = _
  rw [refused]
  rfl

theorem draftFor_of_ok (sound : s.Sound) (found : s.record id = .ok record)
    (planned : Plan.singleReplace record (replacements record) = .ok plan) :
    draftFor s id replacements = .ok ((s.lineage id.object).activeRecords, plan) := by
  have known : s.contains id.object = true :=
    Store.contains_of_mem (sound.record_eq_ok_iff.mp found).1
  rw [draftFor, found]
  change (Plan.singleReplace record (replacements record) >>= fun plan => _) = _
  rw [planned]
  change (s.activeSlice id.object >>= fun active => _) = _
  rw [sound.activeSlice_of_contains known]
  rfl

end DraftsFor

/-- An edit that cannot be planned is refused. -/
theorem run_of_refused (prechecked : e.precheck m.config = .ok ())
    (refused : e.draft m = .error fault) : m.Refuses e.run fault := by
  rcases run_of_write_error prechecked (run_write_of_refused refused) with ⟨m', run, -, store, -⟩
  exact ⟨m', run, store⟩

section Drafted

variable (sound : m.store.Sound) (prechecked : e.precheck m.config = .ok ())
  (drafted : e.draft m = .ok (before ++ (closed ++ after), plan))
  (split : (m.store.lineage (e.object m.config)).activeRecords = before ++ (closed ++ after))
  (exchanges : plan.Exchanges before closed after start stop)

include sound prechecked drafted split exchanges

/-- An exchange that does not fit in is refused. -/
theorem run_of_gap (misfit : ¬ IsTiling (plan.exchanged before after)) :
    ∃ i j, m.Refuses e.run (.nonExactRange (e.object m.config) (.gap i j)) := by
  have soundLineage := sound.lineage_sound (e.object m.config)
  rcases exchanges.exists_gap (split ▸ soundLineage.activeRecords_nodup_ids)
    (split ▸ soundLineage.activeRecords_tiled) (e.object m.config) misfit with ⟨i, j, gap⟩
  have failed := (run_write_of_drafted drafted).trans
    (Program.run_bind_of_error (Master.run_commitPlan_of_gap gap))
  rcases run_of_write_error prechecked failed with ⟨m', run, -, store, -⟩
  exact ⟨i, j, m', run, store⟩

/-- An exchange that fits in is committed. -/
theorem run_of_exchange (fits : IsTiling (plan.exchanged before after))
    (known : m.store.contains (e.object m.config) = true)
    (room : ∀ latest, m.store.latestCorrection (e.object m.config) = some latest →
      latest < .last) :
    ∃ inserted shown m', e.run.run m = .ok shown m' ∧ e.pick m inserted = .ok shown ∧
      inserted.map Record.content = plan.inserts ∧
      m.store.Exchanged (e.object m.config)
        (m.store.nextCorrection (e.object m.config) m.now) before closed after inserted
          m'.store := by
  have soundLineage := sound.lineage_sound (e.object m.config)
  have distinct : ((before ++ (closed ++ after)).map Record.id).Nodup :=
    split ▸ soundLineage.activeRecords_nodup_ids
  have tiled : IsTiling ((before ++ (closed ++ after)).map Record.version) :=
    split ▸ soundLineage.activeRecords_tiled
  have checked := exchanges.check_eq_ok distinct tiled (e.object m.config) fits
  have suits := exchanges.lays.suits tiled
  have tiles : IsTiling (plan.result (before ++ (closed ++ after))) := by
    rw [exchanges.result_eq distinct tiled]
    exact fits
  rw [← split] at checked suits tiles drafted
  have fresh : ∀ latest, m.store.latestCorrection (e.object m.config) = some latest →
      latest < m.store.nextCorrection (e.object m.config) m.now := by
    intro latest newest
    have early := room latest newest
    rw [Store.latestCorrection_eq] at newest
    rw [Store.nextCorrection_eq]
    exact Timeline.lt_nextCorrection m.now newest early
  rcases Master.run_commitPlan_of_fresh sound suits checked tiles fresh with
      ⟨b, tl, settles, committed⟩
  have unused : m.store.latestCorrection (e.object m.config) ≠ some .last :=
    fun last => lt_irrefl _ (room .last last)
  rcases run_of_committed prechecked drafted suits unused settles committed with
      ⟨shown, m', run, commits⟩
  refine ⟨_, shown, m', run, commits.picked, ?_, ?_⟩
  · rw [Batch.additions_content, settles.inserts_eq]
  · rw [commits.store_eq]
    exact settles.exchanged sound known split exchanges

end Drafted

end Edit

end Bitemporal
