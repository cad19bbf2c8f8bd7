import Bitemporal.Proofs.Master.Faults
import Bitemporal.Proofs.Master.Step

/-!
# Stamps and the end of correction time

Edits that are made one after the other should never conflict, for each is stamped after the
newest stamp of its object.  That holds for as long as there is a later instant.  The last instant
is its own successor: an object that was stamped with it gets the same stamp again, and every edit
of it that is planned well conflicts from then on.
-/

namespace Bitemporal

variable {α : Type}

/-- The next stamp is the clock's reading, unless the clock has not passed the newest stamp. -/
theorem Store.nextCorrection_of_newest {s : Store α} {object : ObjectId} {latest : Instant}
    (newest : s.latestCorrection object = some latest) (now : Instant) :
    s.nextCorrection object now = if now ≤ latest then latest.next else now := by
  rw [latestCorrection_eq] at newest
  rw [nextCorrection_eq, Timeline.nextCorrection, newest]

/-- The next stamp is new exactly if the newest one is before the last instant. -/
theorem Store.lt_nextCorrection_iff {s : Store α} {object : ObjectId} {latest : Instant}
    (newest : s.latestCorrection object = some latest) (now : Instant) :
    latest < s.nextCorrection object now ↔ latest < .last := by
  constructor
  · intro new
    exact new.trans_le (Instant.le_last _)
  · intro room
    rw [latestCorrection_eq] at newest
    rw [nextCorrection_eq]
    exact Timeline.lt_nextCorrection now newest room

namespace Master

/-- A request conflicts only if the newest stamp of its object is the last instant. -/
theorem Sound.of_conflict {m : Master (Store α)} {request : Request α} {object : ObjectId}
    {cause : ConflictCause} (sound : m.Sound)
    (conflicts : Program.outcome request.run m = .error (.conflict object cause)) :
    object = request.object m.config ∧ m.store.latestCorrection object = some .last := by
  rcases sound.excuses conflicts with caller | ⟨cause', same, usedUp⟩
  · cases caller
  · cases same
    exact ⟨rfl, usedUp⟩

/-- Once the newest stamp of an object is the last instant, no edit of it is committed. -/
theorem Sound.refused_of_last {m : Master (Store α)} {e : Edit α} (sound : m.Sound)
    (usedUp : m.store.latestCorrection (e.object m.config) = some .last) :
    ∃ fault, Program.outcome e.run m = .error fault := by
  rcases Edit.run_cases sound.store e with
      ⟨fault, m', run, -⟩ | ⟨plan, b, tl, shown, m', -, commits⟩
  · exact ⟨fault, Program.outcome_of_error run⟩
  · exact absurd usedUp commits.room

/-- Whatever a master over the empty store was asked before, and by whatever clock: the next stamp
of an object is the clock's reading if that is after the newest stamp, and otherwise one
microsecond after the newest stamp if there is such an instant.  It is new exactly if the newest
stamp is before the last instant.  Until then no request of the object conflicts, and from then on
no edit of it is committed. -/
theorem stamps_new_until_last (config : Config) (start : Instant)
    (script : List (Instant × Request α)) :
    let m : Master (Store α) := (opened config start).after script
    (∀ (object : ObjectId) (latest now : Instant), m.store.latestCorrection object = some latest →
      (latest < now → m.store.nextCorrection object now = now) ∧
      (now ≤ latest → latest < .last →
        (m.store.nextCorrection object now).micros = latest.micros + 1) ∧
      (latest < m.store.nextCorrection object now ↔ latest < .last)) ∧
    (∀ (now : Instant) (request : Request α) (object : ObjectId) (cause : ConflictCause),
      Program.outcome request.run (m.withClock now) = .error (.conflict object cause) →
      object = request.object config ∧ m.store.latestCorrection object = some .last) ∧
    ∀ (now : Instant) (e : Edit α), m.store.latestCorrection (e.object config) = some .last →
      ∃ fault, Program.outcome e.run (m.withClock now) = .error fault := by
  intro m
  have sound₀ : (opened config start : Master (Store α)).Sound := .opened config start
  rcases sound₀.after script with ⟨sound, settings⟩
  refine ⟨fun object latest now newest => ?_, fun now request object cause conflicts => ?_,
    fun now e usedUp => ?_⟩
  · refine ⟨fun later => ?_, fun early room => ?_, Store.lt_nextCorrection_iff newest now⟩
    · rw [Store.nextCorrection_of_newest newest, if_neg later.not_ge]
    · rw [Store.nextCorrection_of_newest newest, if_pos early, Instant.micros_next room]
  · rcases (sound.withClock now).of_conflict conflicts with ⟨rfl, usedUp⟩
    exact ⟨congrArg (fun c => request.object c) settings, usedUp⟩
  · refine (sound.withClock now).refused_of_last ?_
    have object : e.object (m.withClock now).config = e.object config :=
      congrArg (fun c => e.object c) settings
    rw [object]
    exact usedUp

/-- A loan that is recorded at the last instant is stamped with that instant again, so it cannot
be ended any more. -/
theorem stamps_used_up_loanScript :
    let m : Master (Store String) := (opened .default .epoch).after (loanScript .last)
    m.store.latestCorrection loan = some .last ∧
    ¬ Instant.last < m.store.nextCorrection loan .last ∧
      (m.store.nextCorrection loan .last).micros ≠ Instant.last.micros + 1 ∧
      Program.outcome (Request.edit (.remove loan (some ⟨9, by decide⟩))).run
        (m.withClock .last) = .error (.conflict loan (.staleStamp .last .last)) := by
  have conflicts : Program.outcome (Request.edit (.remove loan (some ⟨9, by decide⟩))).run
      (((opened .default .epoch : Master (Store String)).after (loanScript .last)).withClock
        .last) =
      .error (.conflict loan (.staleStamp .last .last)) := by
    rfl
  intro m
  have next : m.store.nextCorrection loan .last = .last := rfl
  rw [next]
  exact ⟨rfl, lt_irrefl _, by decide, conflicts⟩

end Master

end Bitemporal
