import Bitemporal.Proofs.Master.Query
import Bitemporal.Proofs.Timeline.Lookup
import Bitemporal.Proofs.Timeline.Replay

/-!
# Lookups

Whatever was committed, reading a store at a point of both axes is scanning the records of the
object for the one that is visible there.  A lookup that leaves an axis at the latest is the
lookup with the clock's reading in its place, as long as the clock has reached the newest stamp of
the object.
-/

namespace Bitemporal

variable {α : Type} {s : Store α} {object : ObjectId} {tl : Timeline α} {v c : Instant}

namespace Store

theorem recordAt_of_known (known : s.timeline? object = some tl) (v : Instant)
    (correction : Option Instant) :
    s.recordAt object v correction = tl.recordAt v correction := by
  rw [recordAt, timeline, known]
  rfl

theorem recordAt_of_unknown (unknown : s.timeline? object = none) (v : Instant)
    (correction : Option Instant) :
    s.recordAt object v correction = .error (.notFound (.object object)) := by
  rw [recordAt, timeline, unknown]
  rfl

namespace Sound

/-- A point read agrees with itself: it finds a record, or else nothing. -/
theorem recordAt_agrees (sound : s.Sound) (object : ObjectId) (v : Instant)
    (correction : Option Instant) :
    SameFinding (s.recordAt object v correction) (s.recordAt object v correction) := by
  cases known : s.timeline? object with
  | none =>
    rw [recordAt_of_unknown known]
    exact .inr ⟨_, _, rfl, rfl⟩
  | some tl =>
    rw [recordAt_of_known known]
    rcases (sound object tl known).2.recordAt_cases v correction with ⟨r, found⟩ | missing
    · exact .inl ⟨r, found, found⟩
    · exact .inr ⟨_, _, missing, missing⟩

/-- From the newest stamp on, the latest correction reads like a fixed one. -/
theorem recordAt_none_agrees (sound : s.Sound)
    (late : ∀ latest, s.latestCorrection object = some latest → latest ≤ c) :
    SameFinding (s.recordAt object v none) (s.recordAt object v (some c)) := by
  cases known : s.timeline? object with
  | none =>
    rw [recordAt_of_unknown known, recordAt_of_unknown known]
    exact .inr ⟨_, _, rfl, rfl⟩
  | some tl =>
    rw [recordAt_of_known known, recordAt_of_known known]
    rw [latestCorrection_eq, lineage_of_known known] at late
    exact (sound object tl known).2.recordAt_none_agrees late

end Sound

end Store

namespace Master

theorem outcome_lookup (m : Master (Store α)) (object : ObjectId) (coordinate : Coordinate) :
    Program.outcome (lookup object coordinate) m =
      m.store.recordAt object (coordinate.version.getD m.now) coordinate.correction := by
  have run : (lookup object coordinate).run m = (Program.ofExcept
      (m.store.recordAt object (coordinate.version.getD m.now) coordinate.correction)).run m := by
    unfold lookup
    rw [EStateM.run_bind, EStateM.run_get]
    exact run_onStore_read (fun s : Store α => s.recordAt object _ _) m
  rw [Program.outcome, run]
  cases m.store.recordAt object (coordinate.version.getD m.now) coordinate.correction <;> rfl

/-- Fixing the latest of both axes at the clock's reading changes no lookup, once the clock has
reached the newest stamp. -/
theorem lookup_fixLatest_agrees {m : Master (Store α)} (sound : m.store.Sound)
    (late : ∀ latest, m.store.latestCorrection object = some latest → latest ≤ m.now)
    (coordinate : Coordinate) :
    SameFinding (Program.outcome (lookup object coordinate) m)
      (Program.outcome (lookup object (coordinate.fixLatest m.now)) m) := by
  rw [outcome_lookup, outcome_lookup]
  have version : (coordinate.fixLatest m.now).version.getD m.now =
      coordinate.version.getD m.now := rfl
  have correction : (coordinate.fixLatest m.now).correction =
      some (coordinate.correction.getD m.now) := rfl
  rw [version, correction]
  cases coordinate.correction with
  | none => exact sound.recordAt_none_agrees late
  | some c => exact sound.recordAt_agrees object _ (some c)

/-- Whatever batches were committed, accepted or not: at a fixed correction instant a point read
of a known object returns the one stored record that is visible there, and finds nothing if there
is none; from the newest stamp on, the latest correction reads like a fixed one.  A master looks
up a coordinate by a point read, with the clock's reading for the latest version.  So it finds the
same with the clock's reading in place of the latest of both axes, once the clock has reached the
newest stamp. -/
theorem pointReads_exact (batches : List (Batch α)) (object : ObjectId) :
    let s := (Store.empty : Store α).commitEach batches
    (∀ tl, s.timeline? object = some tl →
      (∀ (v c : Instant) (r : Record α),
        s.recordAt object v (some c) = .ok r ↔ r ∈ tl.records ∧ r.isVisibleAt v c = true) ∧
      (∀ (v c : Instant), (∀ r ∈ tl.records, r.isVisibleAt v c = false) →
        s.recordAt object v (some c) = .error (.notFound (.point object v (some c)))) ∧
      (∀ (v c : Instant) (p q : Nat) (r r' : Record α), tl.records[p]? = some r →
        tl.records[q]? = some r' → r.isVisibleAt v c = true → r'.isVisibleAt v c = true → p = q) ∧
      ∀ (v c : Instant), (∀ latest, s.latestCorrection object = some latest → latest ≤ c) →
        SameFinding (s.recordAt object v none) (s.recordAt object v (some c))) ∧
    ∀ (config : Config) (now : Instant) (writes : Coordinator) (coordinate : Coordinate),
      let m : Master (Store α) := ⟨config, now, ⟨s, writes⟩⟩
      Program.outcome (lookup object coordinate) m =
        s.recordAt object (coordinate.version.getD now) coordinate.correction ∧
      ((∀ latest, s.latestCorrection object = some latest → latest ≤ now) →
        SameFinding (Program.outcome (lookup object coordinate) m)
          (Program.outcome (lookup object (coordinate.fixLatest now)) m)) := by
  intro s
  have sound : s.Sound := Store.Sound.empty.commitEach batches
  constructor
  · intro tl known
    obtain ⟨own, soundTimeline⟩ := sound object tl known
    refine ⟨fun v c r => ?_, fun v c invisible => ?_,
      fun v c p q r r' => soundTimeline.position_eq_of_visible,
      fun v c late => sound.recordAt_none_agrees late⟩
    · rw [Store.recordAt_of_known known]
      exact soundTimeline.recordAt_eq_ok_iff
    · rw [Store.recordAt_of_known known, soundTimeline.recordAt_eq_notFound invisible, own]
  · intro config now writes coordinate m
    exact ⟨outcome_lookup m object coordinate,
      fun late => lookup_fixLatest_agrees (m := m) sound late coordinate⟩

/-- The rent as it was believed before and after it was corrected. -/
example :
    let s := (Store.empty : Store String).commitEach Timeline.leaseBatches
    (s.recordAt Timeline.lease .epoch (some (.saturating 8))).map Record.payload = .ok "100" ∧
      (s.recordAt Timeline.lease .epoch none).map Record.payload = .ok "120" := by
  decide

end Master

end Bitemporal
