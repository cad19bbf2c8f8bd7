import Bitemporal.Proofs.Timeline.Slices
import Mathlib.Data.Finset.Card
import Mathlib.Data.List.Forall2

/-!
# The dates of a timeline

A record has one date on the correction axis, the instant at which it was recorded, and a second
one once it is superseded.  `Timeline.dates` collects them.  A batch that fits a timeline adds
exactly one new date, its stamp, which is later than all others (`Batch.Applied.mem_dates_iff`,
`Timeline.Dated.lt_of_mem_dates`).  So the dates of a timeline count the batches that made it.
-/

namespace Bitemporal

variable {α : Type}

namespace Record

variable {r r' : Record α} {t stamp : Instant}

/-- When a record was recorded, and when it was superseded if it was. -/
def dates (r : Record α) : List Instant := r.correction.start :: r.correction.stop.instant?.toList

/-- What an event at `stamp` leaves of a record: the record as it was, or a current one as closed
at `stamp`. -/
def Passes (stamp : Instant) (r r' : Record α) : Prop :=
  r' = r ∨ r.isCurrent = true ∧ r.close stamp = .ok r'

/-- A record has the date at which it was recorded, and the one at which it was superseded. -/
theorem mem_dates_iff : t ∈ r.dates ↔ t = r.correction.start ∨ r.correction.stop = .finite t := by
  rw [dates, List.mem_cons]
  cases r.correction.stop <;> simp [Boundary.instant?, eq_comm]

theorem stop_of_close (closed : r.close stamp = .ok r') : r'.correction.stop = .finite stamp := by
  rcases Program.exists_of_bind_eq_ok closed with ⟨window, cut, done⟩
  cases done
  exact (Interval.between_eq_ok_iff.mp cut).2

end Record

namespace Timeline

variable {tl : Timeline α} {latest stamp t : Instant}

/-- The dates of all records. -/
def dates (tl : Timeline α) : List Instant := tl.records.flatMap Record.dates

theorem mem_dates_iff : t ∈ tl.dates ↔ ∃ r ∈ tl.records, t ∈ r.dates := List.mem_flatMap

/-- No date is after the newest stamp. -/
theorem Dated.exists_latest (dated : tl.Dated) (dating : t ∈ tl.dates) :
    ∃ latest, tl.latest = some latest ∧ t ≤ latest := by
  rcases mem_dates_iff.mp dating with ⟨r, stored, dating⟩
  rcases dated r stored with ⟨latest, newest, start, stops⟩
  refine ⟨latest, newest, ?_⟩
  rcases Record.mem_dates_iff.mp dating with rfl | ended
  · exact start
  · exact stops t ended

theorem Dated.lt_of_mem_dates (dated : tl.Dated)
    (fresh : ∀ latest, tl.latest = some latest → latest < stamp) (dating : t ∈ tl.dates) :
    t < stamp := by
  rcases dated.exists_latest dating with ⟨latest, newest, early⟩
  exact early.trans_lt (fresh latest newest)

end Timeline

/-! ## The date of a batch -/

namespace Batch

variable {b : Batch α} {tl tl' : Timeline α} {r : Record α} {t stop : Instant}

/-- A batch that fits leaves a record as it is, or closes it at its stamp. -/
theorem Fits.revise_cases (fits : b.Fits tl) (sound : tl.Sound) (stored : r ∈ tl.records) :
    r.id ∉ b.closes ∧ b.revise r = r ∨
      r.id ∈ b.closes ∧ r.isCurrent = true ∧ r.close b.stamp = .ok (b.revise r) := by
  by_cases closed : r.id ∈ b.closes
  · refine .inr ⟨closed, fits.closed_isCurrent sound.toIndexed stored closed, ?_⟩
    rw [revise, if_pos closed]
    exact Record.close_eq_ok (sound.dated.recorded fits.fresh r stored)
  · exact .inl ⟨closed, if_neg closed⟩

/-- A batch passes each record on, closed or as it was. -/
theorem Fits.revise_passes (fits : b.Fits tl) (sound : tl.Sound) (stored : r ∈ tl.records) :
    r.Passes b.stamp (b.revise r) := by
  rcases fits.revise_cases sound stored with ⟨-, same⟩ | ⟨-, current, closed⟩
  · exact .inl same
  · exact .inr ⟨current, closed⟩

/-- The records that a batch adds have one date, its stamp. -/
theorem mem_dates_of_mem_additions {n : Nat} (added : r ∈ b.additions n) :
    t ∈ r.dates ↔ t = b.stamp := by
  rw [Record.mem_dates_iff, mem_additions_correction added]
  simp [Interval.openFrom]

theorem additions_ne_nil (filled : b.inserts ≠ []) (n : Nat) : b.additions n ≠ [] := by
  intro empty
  have versions : (b.additions n).map Record.version = b.inserts.map Pending.version :=
    additions_version
  rw [empty, List.map_nil, eq_comm, List.map_eq_nil_iff] at versions
  exact filled versions

/-- A batch that fits closes a current record or adds one. -/
theorem Fits.closes_or_inserts (fits : b.Fits tl) :
    (∃ r ∈ tl.records, r.id ∈ b.closes) ∨ b.inserts ≠ [] := by
  by_cases filled : b.inserts = []
  · have closing : b.closes ≠ [] := by
      intro idle
      have empty := fits.not_empty
      rw [isEmpty, idle, filled] at empty
      cases empty
    rcases List.exists_mem_of_ne_nil _ closing with ⟨id, member⟩
    rcases fits.closes_current id member with ⟨r, stored, rfl, -⟩
    exact .inl ⟨r, stored, member⟩
  · exact .inr filled

namespace Applied

theorem mem_records_iff (applied : b.Applied tl tl') :
    r ∈ tl'.records ↔ (∃ s ∈ tl.records, b.revise s = r) ∨ r ∈ b.additions tl.records.length := by
  rw [applied.records_eq, List.mem_append, List.mem_map]

/-- A batch that fits adds its stamp to the dates, and takes none away. -/
theorem mem_dates_iff (applied : b.Applied tl tl') (sound : tl.Sound) (fits : b.Fits tl) :
    t ∈ tl'.dates ↔ t ∈ tl.dates ∨ t = b.stamp := by
  constructor
  · intro dating
    rcases Timeline.mem_dates_iff.mp dating with ⟨r, stored, dating⟩
    rcases applied.mem_records_iff.mp stored with ⟨s, known, rfl⟩ | added
    · rw [Record.mem_dates_iff, revise_start] at dating
      rcases fits.revise_cases sound known with ⟨-, same⟩ | ⟨-, -, closed⟩
      · rw [same, ← Record.mem_dates_iff] at dating
        exact .inl (Timeline.mem_dates_iff.mpr ⟨s, known, dating⟩)
      · rw [Record.stop_of_close closed, Boundary.finite.injEq] at dating
        rcases dating with rfl | rfl
        · exact .inl (Timeline.mem_dates_iff.mpr ⟨s, known, Record.mem_dates_iff.mpr (.inl rfl)⟩)
        · exact .inr rfl
    · exact .inr ((mem_dates_of_mem_additions added).mp dating)
  · intro h
    rw [Timeline.mem_dates_iff]
    rcases h with dating | rfl
    · rcases Timeline.mem_dates_iff.mp dating with ⟨s, stored, dating⟩
      refine ⟨b.revise s, applied.revise_mem stored, ?_⟩
      rw [Record.mem_dates_iff] at dating ⊢
      rw [revise_start]
      rcases fits.revise_cases sound stored with ⟨-, same⟩ | ⟨-, current, -⟩
      · rwa [same]
      · -- A current record has no second date to lose.
        rw [Record.isCurrent_iff.mp current] at dating
        exact .inl (dating.resolve_right Boundary.noConfusion)
    · rcases fits.closes_or_inserts with ⟨s, stored, closes⟩ | filled
      · refine ⟨b.revise s, applied.revise_mem stored, Record.mem_dates_iff.mpr (.inr ?_)⟩
        rcases fits.revise_cases sound stored with ⟨kept, -⟩ | ⟨-, -, closed⟩
        · exact absurd closes kept
        · exact Record.stop_of_close closed
      · rcases List.exists_mem_of_ne_nil _ (additions_ne_nil filled tl.records.length) with
            ⟨r, added⟩
        exact ⟨r, applied.mem_records_iff.mpr (.inr added),
          (mem_dates_of_mem_additions added).mpr rfl⟩

/-- A batch adds one date. -/
theorem card_dates (applied : b.Applied tl tl') (sound : tl.Sound) (fits : b.Fits tl) :
    tl'.dates.toFinset.card = tl.dates.toFinset.card + 1 := by
  have grown : tl'.dates.toFinset = Insert.insert b.stamp tl.dates.toFinset := by
    ext t
    simp [applied.mem_dates_iff sound fits, or_comm]
  have fresh : b.stamp ∉ tl.dates.toFinset := by
    rw [List.mem_toFinset]
    exact fun dating => lt_irrefl _ (sound.dated.lt_of_mem_dates fits.fresh dating)
  rw [grown, Finset.card_insert_of_notMem fresh]

/-- A batch that adds records adds its stamp to the instants at which records were recorded. -/
theorem mem_starts_iff (applied : b.Applied tl tl') (filled : b.inserts ≠ []) :
    t ∈ tl'.records.map (·.correction.start) ↔ t ∈ tl.records.map (·.correction.start) ∨
      t = b.stamp := by
  have old : (tl.records.map b.revise).map (·.correction.start) =
      tl.records.map (·.correction.start) := by
    rw [List.map_map]
    exact List.map_congr_left fun r _ => revise_start
  have new : t ∈ (b.additions tl.records.length).map (·.correction.start) ↔ t = b.stamp := by
    constructor
    · intro member
      rcases List.mem_map.mp member with ⟨r, added, rfl⟩
      rw [mem_additions_correction added]
      rfl
    · rintro rfl
      rcases List.exists_mem_of_ne_nil _ (additions_ne_nil filled tl.records.length) with
          ⟨r, added⟩
      exact List.mem_map.mpr ⟨r, added, by rw [mem_additions_correction added]; rfl⟩
  rw [applied.records_eq, List.map_append, List.mem_append, old, new]

/-- A superseded record was superseded before, or is one that the batch closes. -/
theorem closed_or_old (applied : b.Applied tl tl') (sound : tl.Sound) (fits : b.Fits tl)
    (stored : r ∈ tl'.records) (ended : r.correction.stop = .finite stop) :
    r ∈ tl.records ∨ stop = b.stamp ∧
      ∃ s ∈ tl.records, s.isCurrent = true ∧ s.close stop = .ok r := by
  rcases applied.mem_records_iff.mp stored with ⟨s, known, rfl⟩ | added
  · rcases fits.revise_cases sound known with ⟨-, same⟩ | ⟨-, current, closed⟩
    · rw [same]
      exact .inl known
    · have same : stop = b.stamp :=
        Boundary.finite.inj (ended.symm.trans (Record.stop_of_close closed))
      rw [same]
      exact .inr ⟨rfl, s, known, current, closed⟩
  · rw [mem_additions_correction added] at ended
    cases ended

end Applied

end Batch

end Bitemporal
