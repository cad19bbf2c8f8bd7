import Bitemporal.Proofs.Timeline.Slices
import Mathlib.Data.List.Forall2
import Mathlib.Data.List.Induction

/-!
# Past slices are replays

A timeline is edited in place, yet the past can be read off it: what it says was believed at a
correction instant `c` is what was current after the batches stamped up to `c`
(`Timeline.exists_replay`).  Later batches do not change that.  All that one of them may do to a
record is to end the belief in it, once, after `c` and at its own stamp (`Record.Continues`).

`Timeline.slices_replay` states both for every run of accepted batches.
-/

namespace Bitemporal

variable {α : Type}

namespace Record

/-- What a record says, without when it stops being believed. -/
def belief (r : Record α) : RecordId × Interval × Instant × α :=
  (r.id, r.version, r.correction.start, r.payload)

/-- The record `r'` is `r`, or `r` as superseded after `c` by one of the
batches, which closes it. -/
structure Continues (c : Instant) (batches : List (Batch α)) (r r' : Record α) : Prop where
  id_eq : r'.id = r.id
  version_eq : r'.version = r.version
  payload_eq : r'.payload = r.payload
  start_eq : r'.correction.start = r.correction.start
  stop_eq : r'.correction.stop = r.correction.stop ∨
    r.correction.stop = .unbounded ∧ ∃ b ∈ batches, r.id ∈ b.closes ∧ c < b.stamp ∧
      r'.correction.stop = .finite b.stamp

variable {c : Instant} {batches later : List (Batch α)} {r r' r'' : Record α}

theorem Continues.refl (c : Instant) (batches : List (Batch α)) (r : Record α) :
    r.Continues c batches r :=
  ⟨rfl, rfl, rfl, rfl, .inl rfl⟩

/-- A record that continues twice continues, and at most one of the two ends the belief in it. -/
theorem Continues.trans (first : r.Continues c batches r') (second : r'.Continues c later r'') :
    r.Continues c (batches ++ later) r'' where
  id_eq := second.id_eq.trans first.id_eq
  version_eq := second.version_eq.trans first.version_eq
  payload_eq := second.payload_eq.trans first.payload_eq
  start_eq := second.start_eq.trans first.start_eq
  stop_eq := by
    -- A record that is superseded is current no more, so at most one of the two supersedes it.
    rcases first.stop_eq with same | ⟨wasOpen, b, listed, closed, after, ended⟩
    · rcases second.stop_eq with same' | ⟨stillOpen, b, listed, closed, after, ended⟩
      · exact .inl (same'.trans same)
      · rw [first.id_eq] at closed
        exact .inr ⟨same ▸ stillOpen, b, List.mem_append_right batches listed, closed, after,
          ended⟩
    · rcases second.stop_eq with same' | ⟨stillOpen, -⟩
      · exact .inr ⟨wasOpen, b, List.mem_append_left later listed, closed, after,
          same'.trans ended⟩
      · rw [ended] at stillOpen
        cases stillOpen

end Record

namespace Batch

variable {b : Batch α} {r : Record α} {c : Instant}

/-- A batch changes nothing of what a record says. -/
theorem belief_revise : (b.revise r).belief = r.belief := by
  rw [Record.belief, revise_id, revise_version, revise_start, revise_payload, Record.belief]

/-- A batch lets each record continue, as of any instant before its stamp. -/
theorem revise_continues (recorded : r.correction.start < b.stamp)
    (closesCurrent : r.id ∈ b.closes → r.isCurrent = true) (early : c < b.stamp) :
    r.Continues c [b] (b.revise r) where
  id_eq := revise_id
  version_eq := revise_version
  payload_eq := revise_payload
  start_eq := revise_start
  stop_eq := by
    unfold revise
    split
    · rename_i closed
      exact .inr ⟨Record.isCurrent_iff.mp (closesCurrent closed), b, List.mem_singleton_self b,
        closed, early, Record.supersede_stop recorded⟩
    · exact .inl rfl

end Batch

namespace Timeline

variable {tl tl' : Timeline α} {b : Batch α} {batches later : List (Batch α)} {c : Instant}

/-! ## Later batches -/

theorem forall₂_continues_trans {l l' l'' : List (Record α)}
    (first : List.Forall₂ (Record.Continues c batches) l l')
    (second : List.Forall₂ (Record.Continues c later) l' l'') :
    List.Forall₂ (Record.Continues c (batches ++ later)) l l'' := by
  induction first generalizing l'' with
  | nil =>
    cases second
    exact .nil
  | cons left _ ih =>
    cases second with
    | cons right rest => exact .cons (left.trans right) (ih rest)

/-- `tl'` continues `tl` as of `c` with some batches: no record is lost, and none is
changed but for when it stops being believed, which one of the batches ends.  The same
holds of the slice at `c`. -/
structure Extends (c : Instant) (batches : List (Batch α)) (tl tl' : Timeline α) : Prop where
  latest : ∃ latest, tl'.latest = some latest ∧ c ≤ latest
  slice : List.Forall₂ (Record.Continues c batches) (tl.visibleAt c) (tl'.visibleAt c)
  records : ∃ kept added, tl'.records = kept ++ added ∧
    List.Forall₂ (Record.Continues c batches) tl.records kept

theorem Extends.refl (late : ∃ latest, tl.latest = some latest ∧ c ≤ latest)
    (batches : List (Batch α)) : tl.Extends c batches tl :=
  ⟨late, List.forall₂_same.mpr fun r _ => .refl c batches r, tl.records, [],
    (List.append_nil _).symm, List.forall₂_same.mpr fun r _ => .refl c batches r⟩

/-- A timeline that is extended twice is extended by all the batches. -/
theorem Extends.trans {tl'' : Timeline α} (first : tl.Extends c batches tl')
    (second : tl'.Extends c later tl'') : tl.Extends c (batches ++ later) tl'' where
  latest := second.latest
  slice := forall₂_continues_trans first.slice second.slice
  records := by
    obtain ⟨kept, added, shape, kept_continues⟩ := first.records
    obtain ⟨kept', added', shape', kept_continues'⟩ := second.records
    rw [shape] at kept_continues'
    -- The records of `tl` come first in `tl'`, and so their continuations come first in `tl''`.
    refine ⟨kept'.take kept.length, kept'.drop kept.length ++ added', ?_, ?_⟩
    · rw [← List.append_assoc, List.take_append_drop, shape']
    · exact forall₂_continues_trans kept_continues
        (List.forall₂_take_append _ _ _ kept_continues'.flip).flip

/-- A batch that is applied after `c` extends the timeline as of `c`. -/
theorem Sound.extends_of_applied (sound : tl.Sound) (fits : b.Fits tl)
    (applied : b.Applied tl tl') (late : ∃ latest, tl.latest = some latest ∧ c ≤ latest) :
    tl.Extends c [b] tl' := by
  obtain ⟨latest, newest, reached⟩ := late
  have early : c < b.stamp := reached.trans_lt (fits.fresh latest newest)
  have continues : ∀ r ∈ tl.records, r.Continues c [b] (b.revise r) := fun r stored =>
    Batch.revise_continues (sound.dated.recorded fits.fresh r stored)
      (fits.closed_isCurrent sound.toIndexed stored) early
  refine ⟨⟨b.stamp, applied.latest_eq, early.le⟩, ?_, tl.records.map b.revise, _,
    applied.records_eq, ?_⟩
  · rw [applied.visibleAt_of_lt sound fits early, List.forall₂_map_right_iff, List.forall₂_same]
    intro r member
    rw [visibleAt, mem_stableSort] at member
    exact continues r (List.mem_of_mem_filter member)
  · rw [List.forall₂_map_right_iff, List.forall₂_same]
    exact continues

/-- Whatever is applied after `c`, and whether it is accepted or not, extends the
timeline as of `c`. -/
theorem Sound.extends_applyEach (sound : tl.Sound)
    (late : ∃ latest, tl.latest = some latest ∧ c ≤ latest) (later : List (Batch α)) :
    tl.Extends c later (tl.applyEach later) := by
  induction later generalizing tl with
  | nil => exact .refl late []
  | cons b rest ih =>
    have step : tl.Extends c [b] (Program.final (apply b) tl) := by
      rcases sound.apply_cases b with ⟨tl', fits, applied, -, run⟩ | ⟨fault, -, run⟩
      · rw [Program.final_of_ok run]
        exact sound.extends_of_applied fits applied late
      · rw [Program.final_of_error run]
        exact .refl late [b]
    exact step.trans (ih (sound.final b) step.latest)

/-! ## Replays -/

/-- Applies batches one after the other, all of which must be accepted. -/
def applyAll : List (Batch α) → Program (Timeline α) Unit
  | [] => pure ()
  | b :: rest => do
    let _ ← apply b
    applyAll rest

/-- All batches are accepted exactly if those before the last one are, and then the last one. -/
theorem run_applyAll_append {batches : List (Batch α)} :
    (applyAll (batches ++ [b])).run tl = .ok () tl' ↔
      ∃ mid inserted, (applyAll batches).run tl = .ok () mid ∧
        (apply b).run mid = .ok inserted tl' := by
  induction batches generalizing tl with
  | nil =>
    constructor
    · intro run
      obtain ⟨inserted, mid, first, rest⟩ := Program.exists_of_run_bind_eq_ok run
      cases rest
      exact ⟨tl, inserted, rfl, first⟩
    · intro h
      rcases h with ⟨mid, inserted, run, last⟩
      cases run
      exact Program.run_bind_of_ok last
  | cons b' rest ih =>
    constructor
    · intro run
      obtain ⟨inserted', next, first, others⟩ := Program.exists_of_run_bind_eq_ok run
      obtain ⟨mid, inserted, run, last⟩ := ih.mp others
      exact ⟨mid, inserted, (Program.run_bind_of_ok first).trans run, last⟩
    · intro h
      rcases h with ⟨mid, inserted, run, last⟩
      obtain ⟨inserted', next, first, others⟩ := Program.exists_of_run_bind_eq_ok run
      exact (Program.run_bind_of_ok first).trans (ih.mpr ⟨mid, inserted, others, last⟩)

/-- What was accepted fits. -/
theorem Sound.applied_of_run (sound : tl.Sound) {inserted : List (Record α)}
    (run : (apply b).run tl = .ok inserted tl') :
    b.Fits tl ∧ b.Applied tl tl' ∧ tl'.Sound ∧ inserted = b.additions tl.records.length := by
  rcases sound.apply_cases b with ⟨grown, fits, applied, sound', run'⟩ | ⟨fault, -, run'⟩
  · rw [run'] at run
    cases run
    exact ⟨fits, applied, sound', rfl⟩
  · rw [run'] at run
    cases run

/-- After accepted batches, what is read at `c` is what was current after
those stamped up to `c`. -/
theorem exists_replay {object : ObjectId} {batches : List (Batch α)}
    (accepted : (applyAll batches).run (Timeline.empty object) = .ok () tl) :
    tl.Sound ∧ (∀ b ∈ batches, ∃ latest, tl.latest = some latest ∧ b.stamp ≤ latest) ∧
      ∀ c, ∃ past,
        (applyAll (batches.filter fun b => b.stamp ≤ c)).run (Timeline.empty object) =
          .ok () past ∧
        past.Sound ∧
        (tl.visibleAt c).map Record.belief = past.activeRecords.map Record.belief := by
  -- The stamps ascend, so the batches up to `c` are a prefix: all of them, or those before the
  -- last one.
  induction batches using List.reverseRecOn generalizing tl with
  | nil =>
    cases accepted
    exact ⟨.empty object, by simp, fun c => ⟨_, rfl, .empty object, rfl⟩⟩
  | append_singleton batches b ih =>
    obtain ⟨mid, inserted, run, last⟩ := run_applyAll_append.mp accepted
    obtain ⟨soundMid, stamps, replays⟩ := ih run
    obtain ⟨fits, applied, sound, -⟩ := soundMid.applied_of_run last
    have newest : ∀ b' ∈ batches ++ [b], b'.stamp ≤ b.stamp := by
      intro b' member
      rcases List.mem_append.mp member with older | this
      · obtain ⟨latest, newest, before⟩ := stamps b' older
        exact before.trans (fits.fresh latest newest).le
      · rw [List.mem_singleton.mp this]
    refine ⟨sound, fun b' member => ⟨b.stamp, applied.latest_eq, newest b' member⟩, fun c => ?_⟩
    rcases lt_or_ge c b.stamp with early | late
    · obtain ⟨past, pastRun, pastSound, same⟩ := replays c
      refine ⟨past, ?_, pastSound, ?_⟩
      · rw [List.filter_append, List.filter_singleton, decide_eq_false (not_le.mpr early),
          cond_false, List.append_nil]
        exact pastRun
      · rw [applied.visibleAt_of_lt soundMid fits early, List.map_map, ← same]
        exact List.map_congr_left fun r _ => Batch.belief_revise
    · refine ⟨tl, ?_, sound, ?_⟩
      · have all : (batches ++ [b]).filter (fun b => b.stamp ≤ c) = batches ++ [b] :=
          List.filter_eq_self.mpr fun b' member => decide_eq_true ((newest b' member).trans late)
        rw [all]
        exact accepted
      · rw [sound.activeRecords_eq_visibleAt (c := c)]
        intro latest found
        rw [applied.latest_eq] at found
        cases found
        exact late

/-- After accepted batches, the slice at any correction instant is, record by record and but for
when the records stop being believed, what was current after only the batches stamped up to then.
Once that instant is past, no batch changes the slice, or any record, but for ending the belief in
a record once: at its stamp, if it closes the record. -/
theorem slices_replay {object : ObjectId} {batches : List (Batch α)} {tl : Timeline α}
    (accepted : (applyAll batches).run (Timeline.empty object) = .ok () tl) :
    (∀ c, ∃ past slice current,
      (applyAll (batches.filter fun b => b.stamp ≤ c)).run (Timeline.empty object) = .ok () past ∧
      tl.sliceAt c = .ok slice ∧ past.activeSlice = .ok current ∧
      slice.map Record.belief = current.map Record.belief) ∧
    ∀ (sooner later : List (Batch α)) (c latest : Instant),
      (tl.applyEach sooner).latest = some latest → c ≤ latest →
      (∃ slice slice', (tl.applyEach sooner).sliceAt c = .ok slice ∧
        ((tl.applyEach sooner).applyEach later).sliceAt c = .ok slice' ∧
        List.Forall₂ (Record.Continues c later) slice slice') ∧
      ∃ kept added, ((tl.applyEach sooner).applyEach later).records = kept ++ added ∧
        List.Forall₂ (Record.Continues latest later) (tl.applyEach sooner).records kept := by
  obtain ⟨sound, -, replays⟩ := exists_replay accepted
  constructor
  · intro c
    obtain ⟨past, pastRun, pastSound, same⟩ := replays c
    exact ⟨past, _, _, pastRun, sound.sliceAt_eq c, pastSound.activeSlice_eq, same⟩
  · intro sooner later c latest newest reached
    have soundSooner := sound.applyEach sooner
    have soundLater := soundSooner.applyEach later
    have extended := soundSooner.extends_applyEach ⟨latest, newest, reached⟩ later
    exact ⟨⟨_, _, soundSooner.sliceAt_eq c, soundLater.sliceAt_eq c, extended.slice⟩,
      (soundSooner.extends_applyEach ⟨latest, newest, le_rfl⟩ later).records⟩

/-- The object of `leaseBatches`. -/
def lease : ObjectId := ⟨"lease", "1"⟩

/-- The rent of a lease, recorded at 5 and corrected at 9. -/
def leaseBatches : List (Batch String) :=
  [(Batch.empty lease (.saturating 5)).insert ⟨.openFrom .epoch, "100"⟩,
    ⟨lease, .saturating 9, [lease.atVersion "0"], [⟨.openFrom .epoch, "120"⟩],
      fun _ member => congrArg RecordId.object (List.mem_singleton.mp member),
      List.nodup_singleton _⟩]

/-- The rent of a lease, with the slices before and after it was corrected. -/
theorem slices_replay_leaseBatches :
    let tl := Program.final (applyAll leaseBatches) (Timeline.empty lease)
    (applyAll leaseBatches).run (Timeline.empty lease) = .ok () tl ∧ tl.records.length = 2 ∧
      ∀ c, ∃ past slice current,
        (applyAll (leaseBatches.filter fun b => b.stamp ≤ c)).run (Timeline.empty lease) =
          .ok () past ∧
        tl.sliceAt c = .ok slice ∧ past.activeSlice = .ok current ∧
        slice.map Record.belief = current.map Record.belief := by
  intro tl
  have accepted : (applyAll leaseBatches).run (Timeline.empty lease) = .ok () tl := rfl
  exact ⟨accepted, by decide, (slices_replay accepted).1⟩

end Timeline

end Bitemporal
