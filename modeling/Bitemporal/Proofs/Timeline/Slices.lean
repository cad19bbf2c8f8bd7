import Bitemporal.Proofs.Timeline.Apply

/-!
# Slices are partitions of version time

`Timeline.apply` checks only the slice that a batch would leave current.  That is enough for all
slices, past ones included: `Timeline.Sound` says that each slice is a tiling, and a batch that
fits keeps it so.

* Before its stamp the batch changes no slice, apart from when records stop being believed
  (`Batch.Applied.visibleAt_of_lt`).
* From its stamp on, the slice is what the batch leaves current (`Batch.Applied.visible_of_le`),
  which was checked.

`Timeline.slices_partition` draws the conclusion for every run of batches, accepted or rejected.
-/

namespace Bitemporal

variable {α : Type}

namespace Timeline

/-- No record has a date after the newest stamp. -/
def Dated (tl : Timeline α) : Prop :=
  ∀ r ∈ tl.records, ∃ latest, tl.latest = some latest ∧ r.correction.start ≤ latest ∧
    ∀ stop, r.correction.stop = .finite stop → stop ≤ latest

/-- Records and indexes agree, no record has a date after the newest stamp, and
every slice is a tiling. -/
structure Sound (tl : Timeline α) : Prop extends tl.Indexed where
  dated : tl.Dated
  tiled : ∀ c, IsTiling ((tl.visibleAt c).map Record.version)

theorem Sound.empty (object : ObjectId) : (Timeline.empty object : Timeline α).Sound where
  toIndexed := .empty object
  dated r stored := by simp [Timeline.empty] at stored
  tiled _ := .nil

variable {tl : Timeline α} {c stamp : Instant}

/-- Every record was recorded before a new stamp. -/
theorem Dated.recorded (dated : tl.Dated)
    (fresh : ∀ latest, tl.latest = some latest → latest < stamp) :
    ∀ r ∈ tl.records, r.correction.start < stamp := by
  intro r stored
  obtain ⟨latest, newest, start, -⟩ := dated r stored
  exact start.trans_lt (fresh latest newest)

/-- From the newest stamp on, the current records are the ones that are believed. -/
theorem Dated.contains_eq_isCurrent (dated : tl.Dated)
    (late : ∀ latest, tl.latest = some latest → latest ≤ c) {r : Record α}
    (stored : r ∈ tl.records) : r.correction.contains c = r.isCurrent := by
  obtain ⟨latest, newest, start, stops⟩ := dated r stored
  rw [Bool.eq_iff_iff, Interval.contains_iff, Record.isCurrent_iff, Interval.mem_iff]
  constructor
  · intro h
    rcases h with ⟨-, believed⟩
    cases stop : r.correction.stop with
    | unbounded => rfl
    | finite ended =>
      rw [stop] at believed
      exact absurd ((stops ended stop).trans (late latest newest)) (not_le.mpr believed)
  · intro current
    rw [current]
    exact ⟨start.trans (late latest newest), trivial⟩

/-- From the newest stamp on, the slice is what the index of current records leads to. -/
theorem Sound.activeRecords_eq_visibleAt (sound : tl.Sound)
    (late : ∀ latest, tl.latest = some latest → latest ≤ c) :
    tl.activeRecords = tl.visibleAt c := by
  have current : tl.records.filter (·.correction.contains c) =
      tl.records.filter Record.isCurrent :=
    List.filter_congr fun r stored => sound.dated.contains_eq_isCurrent late stored
  rw [visibleAt, current]
  exact (stableSort_eq_of_perm Record.version sound.activeRecords_perm.symm
    sound.activeRecords_ascend).symm

/-- The current records tile version time. -/
theorem Sound.activeRecords_tiled (sound : tl.Sound) :
    IsTiling (tl.activeRecords.map Record.version) := by
  rw [sound.activeRecords_eq_visibleAt (c := .last) fun latest _ => latest.le_last]
  exact sound.tiled .last

theorem Sound.activeRecords_nodup_ids (sound : tl.Sound) :
    (tl.activeRecords.map Record.id).Nodup :=
  (sound.activeRecords_perm.map Record.id).nodup_iff.mpr
    (sound.nodup_ids.sublist (List.filter_sublist.map Record.id))

end Timeline

/-! ## What is believed after a batch -/

namespace Batch

variable {b : Batch α} {tl tl' : Timeline α} {c : Instant} {r : Record α}

theorem Fits.closed_isCurrent (fits : b.Fits tl) (indexed : tl.Indexed) (stored : r ∈ tl.records)
    (closed : r.id ∈ b.closes) : r.isCurrent = true := by
  obtain ⟨s, stored', same, current⟩ := fits.closes_current r.id closed
  rwa [indexed.eq_of_id_eq stored stored' same.symm]

/-- A batch does not change what was believed before its stamp. -/
theorem contains_revise (recorded : r.correction.start < b.stamp)
    (closesCurrent : r.id ∈ b.closes → r.isCurrent = true) (early : c < b.stamp) :
    (b.revise r).correction.contains c = r.correction.contains c := by
  unfold revise
  split
  · rename_i closed
    have current := Record.isCurrent_iff.mp (closesCurrent closed)
    rw [Bool.eq_iff_iff, Interval.contains_iff, Interval.contains_iff, Interval.mem_iff,
      Interval.mem_iff, current, Record.supersede_stop recorded, Record.supersede_start]
    simp [early]
  · rfl

namespace Applied

theorem dated (applied : b.Applied tl tl') (old : tl.Dated) (fits : b.Fits tl) : tl'.Dated := by
  intro r stored
  refine ⟨b.stamp, applied.latest_eq, ?_⟩
  rw [applied.records_eq, List.mem_append, List.mem_map] at stored
  rcases stored with ⟨s, stored, rfl⟩ | added
  · obtain ⟨latest, newest, start, stops⟩ := old s stored
    have fresh := fits.fresh latest newest
    refine ⟨by rw [revise_start]; exact start.trans fresh.le, fun stop ended => ?_⟩
    unfold revise at ended
    split at ended
    · rw [Record.supersede_stop (start.trans_lt fresh)] at ended
      cases ended
      exact le_rfl
    · exact (stops stop ended).trans fresh.le
  · rw [mem_additions_correction added]
    refine ⟨le_rfl, fun stop ended => ?_⟩
    cases ended

/-- Before its stamp a batch adds no belief and takes none away. -/
theorem visible_of_lt (applied : b.Applied tl tl') (sound : tl.Sound) (fits : b.Fits tl)
    (early : c < b.stamp) :
    tl'.records.filter (·.correction.contains c) =
      (tl.records.filter (·.correction.contains c)).map b.revise := by
  have recorded := sound.dated.recorded fits.fresh
  have added : (b.additions tl.records.length).filter (·.correction.contains c) = [] := by
    rw [List.filter_eq_nil_iff]
    intro r member believed
    rw [mem_additions_correction member, Interval.contains_iff] at believed
    exact absurd believed.1 (not_le.mpr early)
  have revised : tl.records.filter ((·.correction.contains c) ∘ b.revise) =
      tl.records.filter (·.correction.contains c) :=
    List.filter_congr fun r stored =>
      contains_revise (recorded r stored) (fits.closed_isCurrent sound.toIndexed stored) early
  rw [applied.records_eq, List.filter_append, added, List.append_nil, List.filter_map, revised]

/-- From its stamp on, what a batch spares and what it adds is believed. -/
theorem visible_of_le (applied : b.Applied tl tl') (sound : tl.Sound) (fits : b.Fits tl)
    (late : b.stamp ≤ c) :
    tl'.records.filter (·.correction.contains c) =
      tl.records.filter b.spares ++ b.additions tl.records.length := by
  have newest : ∀ latest, tl'.latest = some latest → latest ≤ c := by
    intro latest found
    rw [applied.latest_eq] at found
    cases found
    exact late
  have current : tl'.records.filter (·.correction.contains c) =
      tl'.records.filter Record.isCurrent :=
    List.filter_congr fun r stored =>
      (applied.dated sound.dated fits).contains_eq_isCurrent newest stored
  have added : (b.additions tl.records.length).filter Record.isCurrent =
      b.additions tl.records.length := by
    rw [List.filter_eq_self]
    intro r member
    rw [Record.isCurrent, mem_additions_correction member]
    rfl
  rw [current, applied.records_eq, List.filter_append, added,
    filter_isCurrent_map_revise (sound.dated.recorded fits.fresh)]

/-- Before its stamp a batch changes a slice only in when the records of the slice
stop being believed. -/
theorem visibleAt_of_lt (applied : b.Applied tl tl') (sound : tl.Sound) (fits : b.Fits tl)
    (early : c < b.stamp) : tl'.visibleAt c = (tl.visibleAt c).map b.revise := by
  rw [Timeline.visibleAt, applied.visible_of_lt sound fits early, Timeline.visibleAt]
  exact (map_stableSort b.revise (fun r s => by rw [revise_version, revise_version]) _).symm

/-- A batch that fits keeps every slice a tiling. -/
theorem sound (applied : b.Applied tl tl') (sound : tl.Sound) (fits : b.Fits tl) : tl'.Sound where
  toIndexed := applied.indexed
  dated := applied.dated sound.dated fits
  tiled c := by
    rcases lt_or_ge c b.stamp with early | late
    · rw [applied.visibleAt_of_lt sound fits early, List.map_map]
      have same : Record.version ∘ b.revise = Record.version := funext fun r => revise_version
      rw [same]
      exact sound.tiled c
    · rw [Timeline.visibleAt, applied.visible_of_le sound fits late,
        map_extent_stableSort Record.version, List.map_append, additions_version]
      exact fits.tiles

/-- Every record stays, as the batch revises it. -/
theorem revise_mem (applied : b.Applied tl tl') (stored : r ∈ tl.records) :
    b.revise r ∈ tl'.records := by
  rw [applied.records_eq]
  exact List.mem_append_left _ (List.mem_map_of_mem stored)

/-- What a batch closes is superseded, and what was superseded stays so. -/
theorem exists_superseded (applied : b.Applied tl tl') (sound : tl.Sound) (fits : b.Fits tl)
    {id : RecordId} (gone : id ∈ b.closes ∨ ∃ r ∈ tl.records, r.id = id ∧ r.isCurrent = false) :
    ∃ r ∈ tl'.records, r.id = id ∧ r.isCurrent = false := by
  have revised (r : Record α) (stored : r ∈ tl.records) (same : r.id = id)
      (unspared : b.spares r = false) :
      ∃ r ∈ tl'.records, r.id = id ∧ r.isCurrent = false := by
    refine ⟨b.revise r, applied.revise_mem stored, revise_id.trans same, ?_⟩
    rw [revise_isCurrent (sound.dated.recorded fits.fresh r stored), unspared]
  rcases gone with closed | ⟨r, stored, same, old⟩
  · rcases fits.closes_current id closed with ⟨r, stored, rfl, -⟩
    exact revised r stored rfl (by simp [spares, closed])
  · exact revised r stored same (by simp [spares, old])

/-- After a batch, what it spares and what it adds is current. -/
theorem activeRecords_perm (applied : b.Applied tl tl') (sound : tl.Sound) (fits : b.Fits tl) :
    tl'.activeRecords.Perm (tl.records.filter b.spares ++ b.additions tl.records.length) := by
  have newest : ∀ latest, tl'.latest = some latest → latest ≤ b.stamp := by
    intro latest found
    rw [applied.latest_eq] at found
    cases found
    exact le_rfl
  rw [(applied.sound sound fits).activeRecords_eq_visibleAt newest, Timeline.visibleAt,
    applied.visible_of_le sound fits le_rfl]
  exact stableSort_perm _ _

/-- After a batch the current records are those that it does not close, and its own. -/
theorem mem_activeRecords_iff (applied : b.Applied tl tl') (sound : tl.Sound) (fits : b.Fits tl) :
    r ∈ tl'.activeRecords ↔ r ∈ tl.activeRecords ∧ r.id ∉ b.closes ∨
      r ∈ b.additions tl.records.length := by
  have spared := (sound.toIndexed.spared_perm b).mem_iff (a := r)
  rw [(applied.activeRecords_perm sound fits).mem_iff, List.mem_append, ← spared, List.mem_filter,
    Bool.not_eq_true', List.contains_eq_mem, decide_eq_false_iff_not]

/-- What is current after a batch is what the batch was checked to leave. -/
theorem versions_perm (applied : b.Applied tl tl') (sound : tl.Sound) (fits : b.Fits tl) :
    (tl'.activeRecords.map Record.version).Perm (b.outlook tl.records) := by
  have perm := (applied.activeRecords_perm sound fits).map Record.version
  rwa [List.map_append, additions_version] at perm

end Applied

end Batch

/-! ## Runs of batches -/

namespace Timeline

/-- The timeline after batches are applied one after the other, whether each is
accepted or rejected. -/
def applyEach (tl : Timeline α) (batches : List (Batch α)) : Timeline α :=
  batches.foldl (fun tl b => Program.final (apply b) tl) tl

variable {tl : Timeline α} {b : Batch α}

/-- A batch either fits, and is applied as a whole, or is rejected and leaves the
timeline as it was. -/
theorem Sound.apply_cases (sound : tl.Sound) (b : Batch α) :
    (∃ tl', b.Fits tl ∧ b.Applied tl tl' ∧ tl'.Sound ∧
        (apply b).run tl = .ok (b.additions tl.records.length) tl') ∨
      ∃ fault, ¬ b.Fits tl ∧ (apply b).run tl = .error fault tl := by
  by_cases fits : b.Fits tl
  · obtain ⟨tl', run, applied⟩ :=
      sound.toIndexed.run_apply_of_fits (sound.dated.recorded fits.fresh) fits
    exact .inl ⟨tl', fits, applied, applied.sound sound fits, run⟩
  · obtain ⟨fault, run⟩ := sound.toIndexed.run_apply_of_not_fits fits
    exact .inr ⟨fault, fits, run⟩

theorem Sound.final (sound : tl.Sound) (b : Batch α) : (Program.final (apply b) tl).Sound := by
  rcases sound.apply_cases b with ⟨tl', -, -, sound', run⟩ | ⟨fault, -, run⟩
  · rwa [Program.final_of_ok run]
  · rwa [Program.final_of_error run]

theorem Sound.applyEach (sound : tl.Sound) (batches : List (Batch α)) :
    (tl.applyEach batches).Sound := by
  induction batches generalizing tl with
  | nil => exact sound
  | cons b rest ih => exact ih (sound.final b)

/-! ## Partitions -/

/-- A slice is a partition of version time: it ascends by start, and each record ends where the
next one starts. -/
def IsPartition (slice : List (Record α)) : Prop :=
  slice.Pairwise (fun r s => r.version.start < s.version.start) ∧
    slice.IsChain (fun r s => r.version.stop = .finite s.version.start)

/-- A tiling is a partition: neighbours meet, so starts ascend. -/
theorem isPartition_of_tiling {slice : List (Record α)}
    (tiling : IsTiling (slice.map Record.version)) : IsPartition slice := by
  have ascends := List.pairwise_map.mp tiling.starts_ascend
  exact ⟨ascends, (List.isChain_map _).mp tiling⟩

/-- The slice at any correction instant passes its check. -/
theorem Sound.sliceAt_eq (sound : tl.Sound) (c : Instant) :
    tl.sliceAt c = .ok (tl.visibleAt c) := by
  rw [sliceAt, checkPartition_eq_ok_iff.mpr (sound.tiled c)]
  rfl

theorem Sound.activeSlice_eq (sound : tl.Sound) : tl.activeSlice = .ok tl.activeRecords := by
  rw [activeSlice, checkPartition_eq_ok_iff.mpr sound.activeRecords_tiled]
  rfl

/-- A sound timeline passes the check of all its slices. -/
theorem Sound.verify_eq (sound : tl.Sound) : tl.verify = .ok () := by
  refine Program.forM_eq_ok fun r _ => ?_
  rw [if_neg (not_le.mpr r.correction.start_lt_stop), sound.sliceAt_eq]
  rfl

/-- Two records that are believed together hold at different times: at the later of their
correction starts both are in one slice. -/
theorem Sound.apart (sound : tl.Sound) :
    tl.records.Pairwise (fun r s =>
      ¬ (r.version.overlaps s.version = true ∧ r.correction.overlaps s.correction = true)) := by
  refine List.pairwise_of_forall_sublist fun {r s} sublist ⟨versions, corrections⟩ => ?_
  obtain ⟨c, left, right⟩ := Interval.overlaps_iff_exists_mem.mp corrections
  have separate : (tl.records.filter (·.correction.contains c)).Pairwise
      (fun r s => r.version.overlaps s.version = false) := by
    have tiled := List.pairwise_map.mp (sound.tiled c).not_overlaps
    refine ((stableSort_perm _ _).pairwise_iff fun h => ?_).mp tiled
    rw [Interval.overlaps_comm]
    exact h
  have together : [r, s].Sublist (tl.records.filter (·.correction.contains c)) := by
    have believed : [r, s].filter (·.correction.contains c) = [r, s] := by
      simp [Interval.contains_iff.mpr left, Interval.contains_iff.mpr right]
    rw [← believed]
    exact sublist.filter _
  have apart := separate.forall_sublist together
  rw [apart] at versions
  cases versions

/-- Every point of version and correction time is covered by at most one record. -/
theorem Sound.position_eq_of_visible (sound : tl.Sound) {v c : Instant} {p q : Nat}
    {r s : Record α} (left : tl.records[p]? = some r) (right : tl.records[q]? = some s)
    (leftVisible : r.isVisibleAt v c = true)
    (rightVisible : s.isVisibleAt v c = true) : p = q := by
  rw [Record.isVisibleAt, Bool.and_eq_true, Interval.contains_iff, Interval.contains_iff]
    at leftVisible rightVisible
  have versions := Interval.overlaps_of_mem leftVisible.1 rightVisible.1
  have corrections := Interval.overlaps_of_mem leftVisible.2 rightVisible.2
  have apart := List.pairwise_iff_getElem.mp sound.apart
  obtain ⟨hp, rfl⟩ := List.getElem?_eq_some_iff.mp left
  obtain ⟨hq, rfl⟩ := List.getElem?_eq_some_iff.mp right
  rcases lt_trichotomy p q with before | same | after
  · exact absurd ⟨versions, corrections⟩ (apart p q hp hq before)
  · exact same
  · rw [Interval.overlaps_comm] at versions corrections
    exact absurd ⟨versions, corrections⟩ (apart q p hq hp after)

/-- Whatever batches are applied to an empty timeline, in whatever order and whether each is
accepted or not: the slice at every correction instant and the current slice are read without
fault, hold exactly the records that are believed then, and are partitions of version time.  No
two records overlap on both axes. -/
theorem slices_partition (object : ObjectId) (batches : List (Batch α)) :
    let tl := (Timeline.empty object).applyEach batches
    (∀ c, ∃ slice, tl.sliceAt c = .ok slice ∧
      slice.Perm (tl.records.filter fun r => r.correction.contains c) ∧ IsPartition slice) ∧
    (∃ slice, tl.activeSlice = .ok slice ∧
      slice.Perm (tl.records.filter fun r => r.correction.isOpen) ∧ IsPartition slice) ∧
    tl.verify = .ok () ∧
    tl.records.Pairwise
      (fun r s => ¬ (r.version.overlaps s.version ∧ r.correction.overlaps s.correction)) ∧
    ∀ (v c : Instant) (p q : Nat) (r s : Record α), tl.records[p]? = some r →
      tl.records[q]? = some s → r.isVisibleAt v c → s.isVisibleAt v c → p = q := by
  intro tl
  have sound : tl.Sound := (Sound.empty object).applyEach batches
  refine ⟨fun c => ?_, ?_, sound.verify_eq, sound.apart,
    fun v c p q r s => sound.position_eq_of_visible⟩
  · exact ⟨tl.visibleAt c, sound.sliceAt_eq c, stableSort_perm _ _,
      isPartition_of_tiling (sound.tiled c)⟩
  · exact ⟨tl.activeRecords, sound.activeSlice_eq, sound.activeRecords_perm,
      isPartition_of_tiling sound.activeRecords_tiled⟩

end Timeline

end Bitemporal
