import Bitemporal.Proofs.Tiling
import Bitemporal.Proofs.Timeline.Index

/-!
# What one batch does to a timeline

`Batch.Fits` says which batches a timeline accepts, and `Batch.Applied` what an accepted one
leaves: the records that it closes are superseded where they stand (`Batch.revise`), and the ones
that it inserts follow all others (`Batch.additions`).  `Timeline.Indexed.run_apply_of_fits` and
`Timeline.Indexed.run_apply_of_not_fits` say that `Timeline.apply` does just that: it accepts
exactly the batches that fit, and a batch that it rejects leaves the timeline as it was.  In
particular no record that the checks let a batch close can refuse to be closed later on.
-/

namespace Bitemporal

variable {α : Type}

/-! ## The effect of a batch on records -/

/-- The record that a pending one becomes as number `n` of an object. -/
def Pending.numbered (pending : Pending α) (object : ObjectId) (stamp : Instant) (n : Nat) :
    Record α where
  id := object.atVersion (Nat.repr n)
  version := pending.version
  correction := .openFrom stamp
  payload := pending.payload

namespace Batch

/-- What a batch makes of a stored record. -/
def revise (b : Batch α) (r : Record α) : Record α :=
  if r.id ∈ b.closes then r.supersede b.stamp else r

/-- The records that a batch adds to `n` others. -/
def additions (b : Batch α) (n : Nat) : List (Record α) :=
  (b.inserts.zipIdx n).map fun entry => entry.1.numbered b.object b.stamp entry.2

/-- Whether a batch leaves a record current. -/
def spares (b : Batch α) (r : Record α) : Bool := r.isCurrent && !b.closes.contains r.id

/-- The version intervals that a batch would leave current, in no particular order. -/
def outlook (b : Batch α) (records : List (Record α)) : List Interval :=
  (records.filter b.spares).map Record.version ++ b.inserts.map Pending.version

/-- A timeline accepts a batch: it is for the object, does something, has a new stamp, closes
current records only, and what it leaves current is a tiling. -/
structure Fits (b : Batch α) (tl : Timeline α) : Prop where
  object_eq : b.object = tl.object
  not_empty : b.isEmpty = false
  fresh : ∀ latest, tl.latest = some latest → latest < b.stamp
  closes_current : ∀ id ∈ b.closes, ∃ r ∈ tl.records, r.id = id ∧ r.isCurrent = true
  tiles : IsTiling (stableSort Interval.startsBy (b.outlook tl.records))

/-- What a batch that fits a timeline leaves. -/
structure Applied (b : Batch α) (tl tl' : Timeline α) : Prop where
  object_eq : tl'.object = tl.object
  latest_eq : tl'.latest = some b.stamp
  records_eq : tl'.records = tl.records.map b.revise ++ b.additions tl.records.length
  indexed : tl'.Indexed

variable {b : Batch α} {tl : Timeline α} {r : Record α} {n : Nat}

@[simp]
theorem revise_id : (b.revise r).id = r.id := by
  unfold revise
  split <;> simp

@[simp]
theorem revise_version : (b.revise r).version = r.version := by
  unfold revise
  split <;> simp

@[simp]
theorem revise_payload : (b.revise r).payload = r.payload := by
  unfold revise
  split <;> simp

@[simp]
theorem revise_start : (b.revise r).correction.start = r.correction.start := by
  unfold revise
  split <;> simp

theorem revise_of_spares (spared : b.spares r = true) : b.revise r = r := by
  rw [spares, Bool.and_eq_true, Bool.not_eq_true', List.contains_eq_mem, decide_eq_false_iff_not]
    at spared
  rw [revise, if_neg spared.2]

theorem filter_spares (records : List (Record α)) :
    records.filter b.spares =
      (records.filter Record.isCurrent).filter fun r => !b.closes.contains r.id := by
  rw [List.filter_filter]
  exact List.filter_congr fun r _ => Bool.and_comm _ _

/-- After a batch a record is current exactly if it was spared. -/
theorem revise_isCurrent (recorded : r.correction.start < b.stamp) :
    (b.revise r).isCurrent = b.spares r := by
  rw [revise, spares]
  split
  · rename_i closed
    rw [Record.supersede_not_current recorded]
    simp [closed]
  · rename_i kept
    simp [kept]

/-- The records that are current after the closes of a batch are those that it
spares, as they were. -/
theorem filter_isCurrent_map_revise {records : List (Record α)}
    (recorded : ∀ r ∈ records, r.correction.start < b.stamp) :
    (records.map b.revise).filter Record.isCurrent = records.filter b.spares := by
  have kept : records.filter (Record.isCurrent ∘ b.revise) = records.filter b.spares :=
    List.filter_congr fun r stored => revise_isCurrent (recorded r stored)
  rw [List.filter_map, kept]
  refine (List.map_congr_left fun r member => ?_).trans (List.map_id _)
  exact revise_of_spares (List.mem_filter.mp member).2

@[simp]
theorem additions_version :
    (b.additions n).map Record.version = b.inserts.map Pending.version := by
  have numbers : (b.inserts.zipIdx n).map Prod.fst = b.inserts := List.zipIdx_map_fst n b.inserts
  rw [additions, List.map_map]
  conv_rhs => rw [← numbers, List.map_map]
  rfl

theorem mem_additions_correction (added : r ∈ b.additions n) :
    r.correction = .openFrom b.stamp := by
  obtain ⟨entry, -, rfl⟩ := List.mem_map.mp added
  rfl

end Batch

/-! ## Closing and writing in sequence -/

namespace Timeline.Indexed

variable {tl : Timeline α} {stamp : Instant}

/-- Closing current records one after the other never fails, and supersedes each in its place. -/
theorem run_closeAll (indexed : tl.Indexed) {ps : List Nat} (distinct : ps.Nodup)
    (closable : ∀ p ∈ ps,
      ∃ r, tl.records[p]? = some r ∧ r.isCurrent = true ∧ r.correction.start < stamp) :
    ∃ tl', (ps.forM (closeAt stamp)).run tl = .ok () tl' ∧ tl'.Indexed ∧ tl'.object = tl.object ∧
      tl'.latest = tl.latest ∧ ∀ q : Nat, tl'.records[q]? =
        if q ∈ ps then tl.records[q]?.map (Record.supersede stamp) else tl.records[q]? := by
  induction ps generalizing tl with
  | nil => exact ⟨tl, rfl, indexed, rfl, rfl, fun q => by simp⟩
  | cons p ps ih =>
    obtain ⟨new, distinct⟩ := List.nodup_cons.mp distinct
    obtain ⟨r, found, current, recorded⟩ := closable p List.mem_cons_self
    have others (q : Nat) (other : q ≠ p) : (closed tl stamp p r).records[q]? = tl.records[q]? :=
      List.getElem?_set_ne other.symm
    have later : ∀ q ∈ ps, ∃ s, (closed tl stamp p r).records[q]? = some s ∧ s.isCurrent = true ∧
        s.correction.start < stamp := by
      intro q member
      rw [others q fun same => new (same ▸ member)]
      exact closable q (List.mem_cons_of_mem p member)
    obtain ⟨tl', run, indexed', object, latest, records⟩ :=
      ih (indexed.closed_indexed found current recorded) distinct later
    refine ⟨tl', ?_, indexed', object, latest, fun q => ?_⟩
    · change (closeAt stamp p >>= fun _ => ps.forM (closeAt stamp)).run tl = .ok () tl'
      rw [Program.run_bind_of_ok (closeAt_eq_ok found recorded)]
      exact run
    · rw [records q]
      by_cases here : q = p
      · subst here
        have inside := (List.getElem?_eq_some_iff.mp found).1
        rw [if_neg new, if_pos List.mem_cons_self, found]
        exact List.getElem?_set_self inside
      · simp only [others q here, List.mem_cons, here, false_or]

/-- Writing pending records one after the other adds them in order, if they and the current
records all start at different instants. -/
theorem run_writeAll (indexed : tl.Indexed) (stamp : Instant) {pendings : List (Pending α)}
    (starts : ((tl.records.filter Record.isCurrent).map (·.version.start) ++
      pendings.map (·.version.start)).Nodup) :
    ∃ tl', (pendings.mapM (write stamp)).run tl =
        .ok ((pendings.zipIdx tl.records.length).map fun entry =>
          entry.1.numbered tl.object stamp entry.2) tl' ∧
      tl'.Indexed ∧ tl'.object = tl.object ∧ tl'.records = tl.records ++
        (pendings.zipIdx tl.records.length).map fun entry =>
          entry.1.numbered tl.object stamp entry.2 := by
  induction pendings generalizing tl with
  | nil => exact ⟨tl, rfl, indexed, rfl, by simp⟩
  | cons pending rest ih =>
    have numbered : tl.stamped stamp pending =
        pending.numbered tl.object stamp tl.records.length := by
      rw [stamped, indexed.nextVersion_eq]
      rfl
    have free : ∀ r ∈ tl.records, r.isCurrent = true →
        r.version.start ≠ pending.version.start := by
      intro r stored current same
      have apart := (List.nodup_append.mp starts).2.2
      exact apart _ (List.mem_map.mpr ⟨r, List.mem_filter.mpr ⟨stored, current⟩, rfl⟩)
        _ List.mem_cons_self same
    have starts' : (((tl.append (tl.stamped stamp pending)).records.filter Record.isCurrent).map
        (·.version.start) ++ rest.map (·.version.start)).Nodup := by
      have current : (tl.stamped stamp pending).isCurrent = true := rfl
      rw [append, List.filter_append, List.filter_singleton, current, cond_true, List.map_append,
        List.append_assoc]
      exact starts
    obtain ⟨tl', run, indexed', object, records⟩ := ih (indexed.append_indexed free) starts'
    have length : (tl.append (tl.stamped stamp pending)).records.length = tl.records.length + 1 :=
      List.length_append
    rw [length] at run records
    refine ⟨tl', ?_, indexed', object, ?_⟩
    · rw [List.mapM_cons, Program.run_bind_of_ok write_eq_ok, Program.run_bind_of_ok run,
        numbered]
      rfl
    · rw [records, append, List.append_assoc, numbered]
      rfl

end Timeline.Indexed

/-! ## The checks of a batch -/

/-- The check of a run passes exactly if the run is a tiling. -/
theorem checkTiling_eq_ok_iff {object : ObjectId} {run : List Interval} :
    checkTiling object run = .ok () ↔ IsTiling run := by
  rw [← Misfit.first?_id_eq_none_iff, checkTiling]
  cases Misfit.first? id run <;> simp

/-- The check of a slice passes exactly if its version intervals are a tiling. -/
theorem checkPartition_eq_ok_iff {object : ObjectId} {slice : List (Record α)} :
    checkPartition object slice = .ok () ↔ IsTiling (slice.map Record.version) := by
  rw [← Misfit.first?_eq_none_iff, checkPartition]
  cases Misfit.first? Record.version slice <;> simp

namespace Timeline

variable {tl : Timeline α} {b : Batch α} {ps : List Nat}

/-- What is checked of a batch before its records are looked up. -/
theorem checkBatch_eq_ok_iff :
    tl.checkBatch b = .ok () ↔
      b.object = tl.object ∧ b.isEmpty = false ∧
      ∀ latest, tl.latest = some latest → latest < b.stamp := by
  unfold checkBatch
  by_cases own : b.object = tl.object
  · by_cases empty : b.isEmpty = true
    · simp [own, empty, bind, Except.bind, throw, throwThe, MonadExceptOf.throw]
    · cases newest : tl.latest with
      | none => simp [own, empty, pure, Except.pure]
      | some latest =>
        by_cases stale : b.stamp ≤ latest
        · simp [own, empty, stale, throw, throwThe, MonadExceptOf.throw]
        · simp [own, empty, stale, pure, Except.pure, lt_of_not_ge stale]
  · simp [own, bind, Except.bind, throw, throwThe, MonadExceptOf.throw]

/-- A batch that the first check refuses leaves the timeline as it was. -/
theorem run_apply_of_checkBatch {fault : Fault} (refused : tl.checkBatch b = .error fault) :
    (apply b).run tl = .error fault tl := by
  rw [apply, EStateM.run_bind, EStateM.run_get]
  dsimp only
  rw [refused, Program.run_bind_of_error Program.run_ofExcept_error]

/-- A batch that does nothing is refused, whatever its stamp. -/
theorem run_apply_of_empty (own : b.object = tl.object) (empty : b.isEmpty = true) :
    (apply b).run tl = .error (.invalidInput .emptyBatch) tl := by
  refine run_apply_of_checkBatch ?_
  unfold checkBatch
  simp [own, empty, bind, Except.bind, throw, throwThe, MonadExceptOf.throw]

/-- A batch with an old stamp conflicts, whatever it would do, and leaves the
timeline as it was. -/
theorem run_apply_of_stale {latest : Instant} (own : b.object = tl.object)
    (filled : b.isEmpty = false) (newest : tl.latest = some latest) (stale : b.stamp ≤ latest) :
    (apply b).run tl = .error (.conflict tl.object (.staleStamp b.stamp latest)) tl := by
  refine run_apply_of_checkBatch ?_
  unfold checkBatch
  rw [newest, own, filled]
  simp [stale, throw, throwThe, MonadExceptOf.throw]

/-- A batch that names what it may not close is refused for it, if its stamp is new. -/
theorem run_apply_of_closing {fault : Fault} (own : b.object = tl.object)
    (filled : b.isEmpty = false) (fresh : ∀ latest, tl.latest = some latest → latest < b.stamp)
    (refused : b.closes.mapM tl.closable = .error fault) :
    (apply b).run tl = .error fault tl := by
  have checked : tl.checkBatch b = .ok () := checkBatch_eq_ok_iff.mpr ⟨own, filled, fresh⟩
  rw [apply, EStateM.run_bind, EStateM.run_get]
  dsimp only
  rw [checked, Program.run_bind_of_ok Program.run_ofExcept_ok, refused,
    Program.run_bind_of_error Program.run_ofExcept_error]

theorem closable_eq_error {id : RecordId} {fault : Fault}
    (refused : tl.closable id = .error fault) : ∃ cause, fault = .conflict tl.object cause := by
  unfold closable at refused
  split at refused
  · split at refused
    · split at refused
      · cases refused
      · cases refused
        exact ⟨_, rfl⟩
    · cases refused
      exact ⟨_, rfl⟩
  · cases refused
    exact ⟨_, rfl⟩

namespace Indexed

/-- Every close of a batch passes the check exactly if it names a current record. -/
theorem exists_closing_iff (indexed : tl.Indexed) :
    (∃ ps, b.closes.mapM tl.closable = .ok ps) ↔
      ∀ id ∈ b.closes, ∃ r ∈ tl.records, r.id = id ∧ r.isCurrent = true := by
  constructor
  · intro h id member
    rcases h with ⟨ps, closing⟩
    have shape := Program.mapM_eq_ok_iff.mp closing
    have listed : tl.closable id ∈ b.closes.map tl.closable := List.mem_map_of_mem member
    rw [shape, List.mem_map] at listed
    obtain ⟨p, -, accepted⟩ := listed
    obtain ⟨r, found, same, current⟩ := indexed.closable_eq_ok_iff.mp accepted.symm
    exact ⟨r, List.mem_of_getElem? found, same, current⟩
  · intro current
    cases closing : b.closes.mapM tl.closable with
    | ok ps => exact ⟨ps, rfl⟩
    | error fault =>
      obtain ⟨id, member, refused⟩ := Program.exists_of_mapM_eq_error closing
      obtain ⟨r, stored, same, current⟩ := current id member
      obtain ⟨p, found⟩ := List.mem_iff_getElem?.mp stored
      rw [indexed.closable_eq_ok_iff.mpr ⟨r, found, same, current⟩] at refused
      cases refused

/-- A batch that closes a superseded record conflicts, whatever else it would do, and leaves the
timeline as it was. -/
theorem run_apply_of_superseded {r : Record α} (indexed : tl.Indexed) (own : b.object = tl.object)
    (stored : r ∈ tl.records) (superseded : r.isCurrent = false) (closes : r.id ∈ b.closes) :
    ∃ cause, (apply b).run tl = .error (.conflict tl.object cause) tl := by
  have filled : b.isEmpty = false := by
    rw [Batch.isEmpty, List.isEmpty_eq_false_iff.mpr (List.ne_nil_of_mem closes), Bool.false_and]
  by_cases fresh : ∀ latest, tl.latest = some latest → latest < b.stamp
  · cases closing : b.closes.mapM tl.closable with
    | ok ps =>
      rcases indexed.exists_closing_iff.mp ⟨ps, closing⟩ r.id closes with
          ⟨s, stored', same, current⟩
      rw [indexed.eq_of_id_eq stored' stored same, superseded] at current
      cases current
    | error fault =>
      rcases Program.exists_of_mapM_eq_error closing with ⟨id, -, refused⟩
      rcases closable_eq_error refused with ⟨cause, rfl⟩
      exact ⟨cause, run_apply_of_closing own filled fresh closing⟩
  · push Not at fresh
    rcases fresh with ⟨latest, newest, stale⟩
    exact ⟨_, run_apply_of_stale own filled newest stale⟩

/-- The records that a batch closes are at the positions that the check of its closes finds. -/
theorem mem_closing (indexed : tl.Indexed) (closing : b.closes.mapM tl.closable = .ok ps)
    {p : Nat} {r : Record α} (found : tl.records[p]? = some r) : p ∈ ps ↔ r.id ∈ b.closes := by
  rw [Program.mem_of_mapM_eq_ok closing]
  constructor
  · intro h
    rcases h with ⟨id, member, accepted⟩
    obtain ⟨s, there, rfl, -⟩ := indexed.closable_eq_ok_iff.mp accepted
    rw [found] at there
    cases there
    exact member
  · intro member
    obtain ⟨s, stored, same, current⟩ := indexed.exists_closing_iff.mp ⟨ps, closing⟩ r.id member
    cases indexed.eq_of_id_eq stored (List.mem_of_getElem? found) same
    exact ⟨r.id, member, indexed.closable_eq_ok_iff.mpr ⟨r, found, rfl, current⟩⟩

/-- Records that are closed by one batch have different positions. -/
theorem closing_nodup (indexed : tl.Indexed) (closing : b.closes.mapM tl.closable = .ok ps) :
    ps.Nodup := by
  have shape := Program.mapM_eq_ok_iff.mp closing
  have distinct : (b.closes.map tl.closable).Nodup := by
    refine List.Nodup.map_on ?_ b.closes_nodup
    intro id _ id' _ same
    obtain ⟨p, position⟩ : ∃ p, tl.closable id = .ok p := by
      have member : tl.closable id ∈ b.closes.map tl.closable := List.mem_map_of_mem ‹_›
      rw [shape, List.mem_map] at member
      obtain ⟨p, -, found⟩ := member
      exact ⟨p, found.symm⟩
    obtain ⟨r, found, rfl, -⟩ := indexed.closable_eq_ok_iff.mp position
    obtain ⟨s, there, rfl, -⟩ := indexed.closable_eq_ok_iff.mp (same.symm.trans position)
    rw [found] at there
    cases there
    rfl
  rw [shape] at distinct
  exact distinct.of_map _

/-- Of the current records, those that a batch does not close are those that it spares. -/
theorem spared_perm (indexed : tl.Indexed) (b : Batch α) :
    (tl.activeRecords.filter fun r => !b.closes.contains r.id).Perm
      (tl.records.filter b.spares) := by
  rw [Batch.filter_spares]
  exact indexed.activeRecords_perm.filter _

/-- What a batch leaves current is what it keeps of the current records, and what it inserts. -/
theorem outlook_perm (indexed : tl.Indexed) (b : Batch α) :
    ((tl.activeRecords.filter fun r => !b.closes.contains r.id).map Record.version ++
      b.inserts.map Pending.version).Perm (b.outlook tl.records) :=
  ((indexed.spared_perm b).map _).append_right _

/-- The projection sorts the current records that the batch does not close,
and what it inserts. -/
theorem projected_eq (indexed : tl.Indexed) (closing : b.closes.mapM tl.closable = .ok ps) :
    tl.projected ps b.inserts = stableSort Interval.startsBy
      ((tl.activeRecords.filter fun r => !b.closes.contains r.id).map Record.version ++
        b.inserts.map Pending.version) := by
  have kept : (tl.active.toList.filter fun entry => !ps.contains entry.2).filterMap
      (fun entry => tl.records[entry.2]?) =
      tl.activeRecords.filter fun r => !b.closes.contains r.id := by
    rw [activeRecords, List.filterMap_filter, List.filter_filterMap]
    refine List.filterMap_congr fun entry listed => ?_
    obtain ⟨r, found, -⟩ := indexed.mem_active_toList.mp listed
    have same := indexed.mem_closing closing found
    simp only [found, Option.filter_some, List.contains_eq_mem, same]
  rw [projected, ← List.map_filterMap, kept]

/-- The projection is a tiling exactly if what the batch leaves current is one. -/
theorem projected_tiles_iff (indexed : tl.Indexed)
    (closing : b.closes.mapM tl.closable = .ok ps) :
    IsTiling (tl.projected ps b.inserts) ↔
      IsTiling (stableSort Interval.startsBy (b.outlook tl.records)) := by
  rw [indexed.projected_eq closing]
  constructor
  · intro tiles
    rwa [tiles.stableSort_congr (indexed.outlook_perm b)]
  · intro tiles
    rwa [tiles.stableSort_congr (indexed.outlook_perm b).symm]

/-! ## The whole batch -/

/-- Of a batch that leaves a tiling, the records left current and the inserted ones start at
different instants. -/
theorem starts_nodup (tiles : IsTiling (stableSort Interval.startsBy (b.outlook tl.records))) :
    ((tl.records.filter b.spares).map (·.version.start) ++
      b.inserts.map (·.version.start)).Nodup := by
  have sorted :
      ((stableSort Interval.startsBy (b.outlook tl.records)).map Interval.start).Nodup :=
    (List.pairwise_map.mpr (tiles.starts_ascend.imp fun order => order)).imp ne_of_lt
  have shape : (tl.records.filter b.spares).map (·.version.start) ++
      b.inserts.map (·.version.start) = (b.outlook tl.records).map Interval.start := by
    rw [Batch.outlook, List.map_append, List.map_map, List.map_map]
    rfl
  rw [shape]
  exact ((stableSort_perm _ _).map _).nodup_iff.mp sorted

/-- Closing the records of a batch where they stand is revising all records. -/
theorem eq_map_revise (indexed : tl.Indexed) (closing : b.closes.mapM tl.closable = .ok ps)
    {closed : List (Record α)} (inPlace : ∀ q : Nat, closed[q]? =
      if q ∈ ps then tl.records[q]?.map (Record.supersede b.stamp) else tl.records[q]?) :
    closed = tl.records.map b.revise := by
  refine List.ext_getElem? fun q => ?_
  rw [inPlace q, List.getElem?_map]
  cases found : tl.records[q]? with
  | none => simp
  | some r =>
    simp only [indexed.mem_closing closing found, Option.map_some, Batch.revise]
    split <;> rfl

/-- A batch that fits is accepted. -/
theorem run_apply_of_fits (indexed : tl.Indexed)
    (recorded : ∀ r ∈ tl.records, r.correction.start < b.stamp) (fits : b.Fits tl) :
    ∃ tl', (apply b).run tl = .ok (b.additions tl.records.length) tl' ∧ b.Applied tl tl' := by
  obtain ⟨ps, closing⟩ := indexed.exists_closing_iff.mpr fits.closes_current
  have checked : tl.checkBatch b = .ok () :=
    checkBatch_eq_ok_iff.mpr ⟨fits.object_eq, fits.not_empty, fits.fresh⟩
  have tiled : checkTiling tl.object (tl.projected ps b.inserts) = .ok () := by
    rw [checkTiling_eq_ok_iff, indexed.projected_tiles_iff closing]
    exact fits.tiles
  have closable : ∀ p ∈ ps,
      ∃ r, tl.records[p]? = some r ∧ r.isCurrent = true ∧ r.correction.start < b.stamp := by
    intro p member
    obtain ⟨id, -, accepted⟩ := (Program.mem_of_mapM_eq_ok closing).mp member
    obtain ⟨r, found, -, current⟩ := indexed.closable_eq_ok_iff.mp accepted
    exact ⟨r, found, current, recorded r (List.mem_of_getElem? found)⟩
  obtain ⟨closed, closeRun, closedIndexed, closedObject, -, closedRecords⟩ :=
    indexed.run_closeAll (indexed.closing_nodup closing) closable
  have revised := indexed.eq_map_revise closing closedRecords
  have starts : ((closed.records.filter Record.isCurrent).map (·.version.start) ++
      b.inserts.map (·.version.start)).Nodup := by
    rw [revised, Batch.filter_isCurrent_map_revise recorded]
    exact starts_nodup fits.tiles
  obtain ⟨grown, writeRun, grownIndexed, grownObject, grownRecords⟩ :=
    closedIndexed.run_writeAll b.stamp starts
  have length : closed.records.length = tl.records.length := by rw [revised, List.length_map]
  rw [length, closedObject, ← fits.object_eq] at writeRun grownRecords
  refine ⟨{ grown with latest := some b.stamp }, ?_, ?_⟩
  · rw [apply, EStateM.run_bind, EStateM.run_get]
    dsimp only
    rw [checked, Program.run_bind_of_ok Program.run_ofExcept_ok, closing,
      Program.run_bind_of_ok Program.run_ofExcept_ok, tiled,
      Program.run_bind_of_ok Program.run_ofExcept_ok,
      Program.run_bind_of_ok closeRun, Program.run_bind_of_ok writeRun]
    rfl
  · exact
      { object_eq := grownObject.trans closedObject
        latest_eq := rfl
        records_eq := by
          rw [← revised]
          exact grownRecords
        indexed := ⟨grownIndexed.id_eq, grownIndexed.nextVersion_eq, grownIndexed.positions_iff,
          grownIndexed.active_iff⟩ }

/-- A batch that does not fit is rejected, and leaves the timeline as it was. -/
theorem run_apply_of_not_fits (indexed : tl.Indexed) (misfit : ¬ b.Fits tl) :
    ∃ fault, (apply b).run tl = .error fault tl := by
  rw [apply, EStateM.run_bind, EStateM.run_get]
  dsimp only
  cases checked : tl.checkBatch b with
  | error fault => exact ⟨fault, rfl⟩
  | ok =>
    rw [Program.run_bind_of_ok Program.run_ofExcept_ok]
    cases closing : b.closes.mapM tl.closable with
    | error fault => exact ⟨fault, rfl⟩
    | ok ps =>
      rw [Program.run_bind_of_ok Program.run_ofExcept_ok]
      cases tiled : checkTiling tl.object (tl.projected ps b.inserts) with
      | error fault => exact ⟨fault, rfl⟩
      | ok =>
        obtain ⟨own, filled, fresh⟩ := checkBatch_eq_ok_iff.mp checked
        have tiles := (indexed.projected_tiles_iff closing).mp (checkTiling_eq_ok_iff.mp tiled)
        exact absurd ⟨own, filled, fresh, indexed.exists_closing_iff.mp ⟨ps, closing⟩, tiles⟩
          misfit

end Indexed

end Timeline

end Bitemporal
