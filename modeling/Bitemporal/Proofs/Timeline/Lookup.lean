import Bitemporal.Proofs.Timeline.Slices

/-!
# Point reads

`Timeline.recordAt` takes the last record of a slice that starts early enough, and only then asks
whether that record reaches the instant.  In a tiling this finds the one record that covers the
instant (`Timeline.candidate?_of_mem`), so a point read is a plain scan of the slice
(`Timeline.recordAt_of_slice`), and with a fixed correction instant a scan of all records on both
axes (`Timeline.Sound.recordAt_eq_ok_iff`).

The current slice is read through an index, past slices are filtered.  From the newest stamp on
both are the same slice (`Timeline.Sound.recordAt_none_agrees`).
-/

namespace Bitemporal

variable {α : Type}

/-- Two reads find the same record, or neither finds one. -/
def SameFinding (left right : Except Fault (Record α)) : Prop :=
  (∃ r, left = .ok r ∧ right = .ok r) ∨
    ∃ what what', left = .error (.notFound what) ∧ right = .error (.notFound what')

namespace Timeline

variable {tl : Timeline α} {slice : List (Record α)} {r : Record α} {v c : Instant}
    {correction : Option Instant}

/-- The record of a slice that covers `version`, found by a plain scan. -/
def covering? (slice : List (Record α)) (version : Instant) : Option (Record α) :=
  slice.find? fun r => r.version.contains version

theorem mem_of_covering? (scanned : covering? slice v = some r) : r ∈ slice ∧ v ∈ r.version := by
  unfold covering? at scanned
  have covers := List.find?_some scanned
  exact ⟨List.mem_of_find?_eq_some scanned, Interval.contains_iff.mp covers⟩

theorem not_mem_of_covering? (scanned : covering? slice v = none) (listed : r ∈ slice) :
    v ∉ r.version := by
  unfold covering? at scanned
  intro covers
  exact List.find?_eq_none.mp scanned r listed (Interval.contains_iff.mpr covers)

theorem mem_of_candidate? (found : candidate? slice v = some r) : r ∈ slice := by
  have taken : r ∈ slice.takeWhile fun r => r.version.start ≤ v := List.mem_of_getLast? found
  exact (List.takeWhile_sublist _).subset taken

/-- The record of a tiling that covers an instant is the last one that starts no later. -/
theorem candidate?_of_mem (tiled : IsTiling (slice.map Record.version)) (listed : r ∈ slice)
    (covers : v ∈ r.version) : candidate? slice v = some r := by
  obtain ⟨before, after, rfl⟩ := List.append_of_mem listed
  have ordered := List.pairwise_append.mp (List.pairwise_map.mp tiled.pairwise)
  have early : ∀ s ∈ before, decide (s.version.start ≤ v) = true := by
    intro s member
    have first : s.version.Before r.version := ordered.2.2 s member r List.mem_cons_self
    exact decide_eq_true (first.start_lt.le.trans covers.1)
  have late : after.takeWhile (fun s => decide (s.version.start ≤ v)) = [] := by
    cases after with
    | nil => rfl
    | cons s rest =>
      have next : r.version.Before s.version :=
        List.rel_of_pairwise_cons ordered.2.1 List.mem_cons_self
      have beyond : v < s.version.start := Boundary.finite_lt_finite.mp (covers.2.trans_le next)
      exact List.takeWhile_cons_of_neg (by simpa using beyond)
  have taken : (before ++ r :: after).takeWhile (fun s => decide (s.version.start ≤ v)) =
      before ++ [r] := by
    rw [List.takeWhile_append_of_pos early, List.takeWhile_cons, decide_eq_true covers.1, late]
    rfl
  rw [candidate?, taken, List.getLast?_concat]

/-- One record of a tiling at most covers an instant. -/
theorem eq_of_covers (tiled : IsTiling (slice.map Record.version)) {s : Record α}
    (left : r ∈ slice) (right : s ∈ slice) (leftCovers : v ∈ r.version)
    (rightCovers : v ∈ s.version) : r = s := by
  have found := candidate?_of_mem tiled left leftCovers
  rw [candidate?_of_mem tiled right rightCovers] at found
  exact (Option.some.inj found).symm

/-- Among records of a tiling a scan finds the one that covers an instant. -/
theorem covering?_eq_some_iff_of_subset (tiled : IsTiling (slice.map Record.version))
    {l : List (Record α)} (subset : ∀ r ∈ l, r ∈ slice) :
    covering? l v = some r ↔ r ∈ l ∧ v ∈ r.version := by
  constructor
  · exact mem_of_covering?
  · intro h
    rcases h with ⟨listed, covers⟩
    cases scanned : covering? l v with
    | none => exact absurd covers (not_mem_of_covering? scanned listed)
    | some s =>
      obtain ⟨listed', covers'⟩ := mem_of_covering? scanned
      rw [eq_of_covers tiled (subset s listed') (subset r listed) covers' covers]

/-- In a tiling the record that holds an instant is the one that covers it. -/
theorem covering?_eq_some_iff (tiled : IsTiling (slice.map Record.version)) :
    covering? slice v = some r ↔ r ∈ slice ∧ v ∈ r.version :=
  covering?_eq_some_iff_of_subset tiled fun _ listed => listed

/-- A point read is a scan of the slice. -/
theorem recordAt_of_slice (read : tl.slice correction = .ok slice)
    (tiled : IsTiling (slice.map Record.version)) :
    tl.recordAt v correction =
      match covering? slice v with
      | some r => .ok r
      | none => .error (.notFound (.point tl.object v correction)) := by
  rw [recordAt, read]
  change (match candidate? slice v with
    | some r => if r.version.contains v then pure r else throw _
    | none => throw _) = _
  cases scanned : covering? slice v with
  | some r =>
    obtain ⟨listed, covers⟩ := mem_of_covering? scanned
    rw [candidate?_of_mem tiled listed covers]
    exact if_pos (Interval.contains_iff.mpr covers)
  | none =>
    cases found : candidate? slice v with
    | none => rfl
    | some r =>
      have uncovered : v ∉ r.version := not_mem_of_covering? scanned (mem_of_candidate? found)
      exact if_neg fun covers => uncovered (Interval.contains_iff.mp covers)

namespace Sound

theorem slice_eq (sound : tl.Sound) (correction : Option Instant) :
    ∃ slice, tl.slice correction = .ok slice ∧ IsTiling (slice.map Record.version) := by
  cases correction with
  | none => exact ⟨tl.activeRecords, sound.activeSlice_eq, sound.activeRecords_tiled⟩
  | some c => exact ⟨tl.visibleAt c, sound.sliceAt_eq c, sound.tiled c⟩

/-- A point read at a fixed correction instant finds the stored record that is visible there. -/
theorem recordAt_eq_ok_iff (sound : tl.Sound) :
    tl.recordAt v (some c) = .ok r ↔ r ∈ tl.records ∧ r.isVisibleAt v c = true := by
  have listed : r ∈ tl.visibleAt c ↔ r ∈ tl.records ∧ r.correction.contains c = true := by
    rw [visibleAt, mem_stableSort, List.mem_filter]
  have visible : r ∈ tl.records ∧ r.isVisibleAt v c = true ↔
      covering? (tl.visibleAt c) v = some r := by
    rw [covering?_eq_some_iff (sound.tiled c), listed, Record.isVisibleAt, Bool.and_eq_true,
      Interval.contains_iff, and_assoc, and_comm (a := v ∈ r.version)]
  have past : tl.slice (some c) = .ok (tl.visibleAt c) := sound.sliceAt_eq c
  rw [visible, recordAt_of_slice past (sound.tiled c)]
  cases covering? (tl.visibleAt c) v <;> simp

/-- A point read that finds no record says so. -/
theorem recordAt_cases (sound : tl.Sound) (v : Instant) (correction : Option Instant) :
    (∃ r, tl.recordAt v correction = .ok r) ∨
      tl.recordAt v correction = .error (.notFound (.point tl.object v correction)) := by
  obtain ⟨slice, read, tiled⟩ := sound.slice_eq correction
  rw [recordAt_of_slice read tiled]
  cases covering? slice v with
  | some r => exact .inl ⟨r, rfl⟩
  | none => exact .inr rfl

theorem recordAt_eq_notFound (sound : tl.Sound)
    (invisible : ∀ r ∈ tl.records, r.isVisibleAt v c = false) :
    tl.recordAt v (some c) = .error (.notFound (.point tl.object v (some c))) := by
  rcases sound.recordAt_cases v (some c) with ⟨r, found⟩ | missing
  · obtain ⟨stored, visible⟩ := sound.recordAt_eq_ok_iff.mp found
    rw [invisible r stored] at visible
    cases visible
  · exact missing

/-- From the newest stamp on, the latest correction and a fixed one read alike. -/
theorem recordAt_none_agrees (sound : tl.Sound)
    (late : ∀ latest, tl.latest = some latest → latest ≤ c) :
    SameFinding (tl.recordAt v none) (tl.recordAt v (some c)) := by
  have current : tl.slice none = .ok tl.activeRecords := sound.activeSlice_eq
  have past : tl.slice (some c) = .ok (tl.visibleAt c) := sound.sliceAt_eq c
  rw [recordAt_of_slice current sound.activeRecords_tiled, recordAt_of_slice past (sound.tiled c),
    sound.activeRecords_eq_visibleAt late]
  cases covering? (tl.visibleAt c) v with
  | some r => exact .inl ⟨r, rfl, rfl⟩
  | none => exact .inr ⟨_, _, rfl, rfl⟩

end Sound

end Timeline

/-! ## After a batch -/

namespace Batch.Applied

open Timeline

variable {b : Batch α} {tl tl' : Timeline α} {t : Instant}

/-- Where a batch closes or inserts, a record is current only if the batch inserted it. -/
theorem covering?_of_touched (applied : b.Applied tl tl') (sound : tl.Sound) (fits : b.Fits tl)
    (touched : ∃ r, (r ∈ tl.activeRecords ∧ r.id ∈ b.closes ∨ r ∈ b.additions tl.records.length) ∧
      t ∈ r.version) :
    covering? tl'.activeRecords t = covering? (b.additions tl.records.length) t := by
  have tiled := (applied.sound sound fits).activeRecords_tiled
  have listed (r : Record α) := applied.mem_activeRecords_iff (r := r) sound fits
  rcases touched with ⟨s, touch, covers'⟩
  refine Option.ext fun r => ?_
  rw [covering?_eq_some_iff tiled,
    covering?_eq_some_iff_of_subset tiled fun r added => (listed r).mpr (.inr added)]
  refine and_congr_left fun covers =>
    ⟨fun current => ?_, fun added => (listed r).mpr (.inr added)⟩
  rcases (listed r).mp current with ⟨active, kept⟩ | added
  · rcases touch with ⟨active', closed⟩ | added'
    · rw [eq_of_covers sound.activeRecords_tiled active active' covers covers'] at kept
      exact absurd closed kept
    · rw [eq_of_covers tiled current ((listed s).mpr (.inr added')) covers covers']
      exact added'
  · exact added

/-- Anywhere else what is current stays so. -/
theorem covering?_of_untouched (applied : b.Applied tl tl') (sound : tl.Sound) (fits : b.Fits tl)
    (untouched : ¬ ∃ r,
      (r ∈ tl.activeRecords ∧ r.id ∈ b.closes ∨ r ∈ b.additions tl.records.length) ∧
      t ∈ r.version) : covering? tl'.activeRecords t = covering? tl.activeRecords t := by
  have tiled := (applied.sound sound fits).activeRecords_tiled
  refine Option.ext fun r => ?_
  rw [covering?_eq_some_iff tiled, covering?_eq_some_iff sound.activeRecords_tiled,
    applied.mem_activeRecords_iff sound fits]
  refine and_congr_left fun covers =>
    ⟨fun current => ?_, fun active => .inl ⟨active, fun closed => ?_⟩⟩
  · rcases current with ⟨active, -⟩ | added
    · exact active
    · exact absurd ⟨r, .inr added, covers⟩ untouched
  · exact untouched ⟨r, .inl ⟨active, closed⟩, covers⟩

end Batch.Applied

end Bitemporal
