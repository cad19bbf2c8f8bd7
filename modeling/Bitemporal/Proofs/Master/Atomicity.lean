import Bitemporal.Proofs.Master.Edit
import Bitemporal.Proofs.Master.Query

/-!
# Edits are atomic

A master that is only used through its edits and queries is sound in every state that it reaches
(`Master.Sound.after`): its store is sound, and its counter of successful writes agrees with the
number of commits of the store.  So no edit that fails leaves a trace in the store, also where the
source of the fault is a close or the check after a commit, and an edit that succeeds is one
commit for one object.

Whether commits are checked makes no difference to any run (`Master.Sound.answers_verifying`).
-/

namespace Bitemporal

variable {α : Type} {m : Master (Store α)} {request : Request α} {now : Instant}
    {script : List (Instant × Request α)}

namespace Master

/-- The store is sound, and the counter of successful writes counts its commits. -/
structure Sound (m : Master (Store α)) : Prop where
  store : m.store.Sound
  committed : m.metrics.committed = m.store.commitCount

theorem Sound.opened (config : Config) (now : Instant) :
    (opened config now : Master (Store α)).Sound := ⟨.empty, rfl⟩

theorem Sound.withClock (sound : m.Sound) (now : Instant) : (m.withClock now).Sound :=
  ⟨sound.store, sound.committed⟩

/-! ## Steps -/

/-- An edit answers with the records that it shows. -/
theorem outcome_edit (m : Master (Store α)) (e : Edit α) :
    Program.outcome (Request.edit e).run m = (Program.outcome e.run m).map .records :=
  Program.outcome_bind_pure e.run Answer.records m

theorem final_edit (m : Master (Store α)) (e : Edit α) :
    Program.final (Request.edit e).run m = Program.final e.run m :=
  Program.final_bind_pure e.run Answer.records m

theorem final_query (m : Master (Store α)) (q : Query) :
    Program.final (Request.query q).run m = m := by
  change Program.final q.run m = m
  unfold Program.final
  rw [q.run_eq_reply m]
  cases q.reply m <;> rfl

/-- A request keeps a master sound, and its settings. -/
theorem Sound.final (sound : m.Sound) (request : Request α) :
    (Program.final request.run m).Sound ∧ (Program.final request.run m).config = m.config := by
  cases request with
  | query q =>
    rw [final_query]
    exact ⟨sound, rfl⟩
  | edit e =>
    rw [final_edit]
    have ends := Edit.run_ends sound.store e
    cases run : e.run.run m with
    | error fault m' =>
      rw [run] at ends
      rw [Program.final_of_error run]
      rcases ends with ⟨config, store, committed, -⟩
      refine ⟨⟨?_, ?_⟩, config⟩
      · rw [store]
        exact sound.store
      · rw [committed, store]
        exact sound.committed
    | ok shown m' =>
      rw [run] at ends
      rw [Program.final_of_ok run]
      rcases ends with - | ⟨config, grows, committed, -⟩
      refine ⟨⟨grows.sound, ?_⟩, config⟩
      rw [committed, grows.count, sound.committed]

/-- Whatever is asked, and whenever, a master stays sound and keeps its settings. -/
theorem Sound.after (sound : m.Sound) (script : List (Instant × Request α)) :
    (m.after script).Sound ∧ (m.after script).config = m.config := by
  induction script generalizing m with
  | nil => exact ⟨sound, rfl⟩
  | cons entry rest ih =>
    rcases (sound.withClock entry.1).final entry.2 with ⟨step, config⟩
    rcases ih step with ⟨sound', config'⟩
    exact ⟨sound', config'.trans config⟩

/-! ## Checked and unchecked commits -/

/-- The same master with commits checked or not. -/
def verifying (m : Master (Store α)) (verify : Bool) : Master (Store α) :=
  { m with config := { m.config with verifyCommits := verify } }

variable (verify : Bool)

theorem object_verifying (e : Edit α) :
    e.object (m.verifying verify).config = e.object m.config := by
  cases e <;> rfl

theorem precheck_verifying (e : Edit α) :
    e.precheck (m.verifying verify).config = e.precheck m.config := by
  cases e <;> rfl

/-- What is drafted does not depend on whether commits are checked. -/
theorem draft_verifying (e : Edit α) : e.draft (m.verifying verify) = e.draft m := by
  cases e <;> rfl

theorem pick_verifying (e : Edit α) (inserted : List (Record α)) :
    e.pick (m.verifying verify) inserted = e.pick m inserted := by
  cases e <;> rfl

/-- Under the lock the settings play no part, for the check after a commit passes. -/
theorem run_write_verifying {e : Edit α} (sound : m.store.Sound)
    (prechecked : e.precheck m.config = .ok ()) :
    (e.write (m.verifying verify)).run (m.verifying verify).store = (e.write m).run m.store := by
  change (e.write (m.verifying verify)).run m.store = _
  unfold Edit.write
  rw [draft_verifying, object_verifying]
  simp only [pick_verifying]
  cases drafted : e.draft m with
  | error fault => rfl
  | ok draft =>
    rcases draft with ⟨active, plan⟩
    rcases Edit.draft_suits sound prechecked drafted with ⟨rfl, suits⟩
    rw [Program.run_bind_of_ok Program.run_ofExcept_ok,
      Program.run_bind_of_ok Program.run_ofExcept_ok, EStateM.run_bind, EStateM.run_bind,
      run_commitPlan_congr (m.verifying verify) m rfl sound suits]

/-- Whether commits are checked changes neither how an edit ends nor what it leaves. -/
theorem edit_verifying (sound : m.store.Sound) (e : Edit α) :
    Program.outcome e.run (m.verifying verify) = Program.outcome e.run m ∧
      Program.final e.run (m.verifying verify) = (Program.final e.run m).verifying verify := by
  unfold Program.outcome Program.final
  rw [e.run_eq_perform, e.run_eq_perform]
  unfold Edit.perform
  rw [EStateM.run_bind, EStateM.run_get, EStateM.run_bind, EStateM.run_get]
  dsimp only
  rw [precheck_verifying, object_verifying]
  cases prechecked : e.precheck m.config with
  | error fault => exact ⟨rfl, rfl⟩
  | ok =>
    rw [Program.run_bind_of_ok Program.run_ofExcept_ok,
      Program.run_bind_of_ok Program.run_ofExcept_ok]
    have same := run_write_verifying verify sound prechecked
    cases run : (e.write m).run m.store with
    | ok shown store =>
      rw [run_locked_of_ok run, run_locked_of_ok (same.trans run)]
      exact ⟨rfl, rfl⟩
    | error fault store =>
      rw [run_locked_of_error run, run_locked_of_error (same.trans run)]
      exact ⟨rfl, rfl⟩

/-- Whether commits are checked changes neither how a request ends nor what it leaves. -/
theorem request_verifying (sound : m.store.Sound) (request : Request α) :
    Program.outcome request.run (m.verifying verify) = Program.outcome request.run m ∧
      Program.final request.run (m.verifying verify) =
        (Program.final request.run m).verifying verify := by
  cases request with
  | query q =>
    rw [final_query, final_query]
    have reply : q.reply (m.verifying verify) = q.reply m := by
      cases q with
      | slice object correction => cases correction <;> rfl
      | _ => rfl
    change Program.outcome q.run _ = Program.outcome q.run _ ∧ _
    unfold Program.outcome
    rw [q.run_eq_reply, q.run_eq_reply, reply]
    cases q.reply m <;> exact ⟨rfl, rfl⟩
  | edit e =>
    rcases edit_verifying verify sound e with ⟨outcome, final⟩
    rw [outcome_edit, outcome_edit, final_edit, final_edit, outcome]
    exact ⟨rfl, final⟩

/-- Whether commits are checked changes neither what is answered nor what a master becomes. -/
theorem Sound.script_verifying (sound : m.Sound) (script : List (Instant × Request α)) :
    (m.verifying verify).answers script = m.answers script ∧
      (m.verifying verify).after script = (m.after script).verifying verify := by
  induction script generalizing m with
  | nil => exact ⟨rfl, rfl⟩
  | cons entry rest ih =>
    rcases entry with ⟨now, request⟩
    have sound' := sound.withClock now
    rcases request_verifying verify sound'.store request with ⟨outcome, final⟩
    rcases ih (sound'.final request).1 with ⟨later, last⟩
    have first : (m.verifying verify).withClock now = (m.withClock now).verifying verify := rfl
    constructor
    · rw [answers, answers, first, outcome, final, later]
    · change (Program.final request.run ((m.verifying verify).withClock now)).after rest = _
      rw [first, final, last]
      rfl

/-! ## Atomic edits -/

/-- Whatever a master over the empty store was asked before, and by whatever clock: an edit that
fails leaves the store as it was, and one that succeeds is one commit, which changes the timeline
of its object only and stores all the records that it returns.  The counter of successful writes
counts the commits.  Whether commits are checked changes no answer and no state. -/
theorem edits_atomic (config : Config) (start : Instant) (script : List (Instant × Request α)) :
    let m : Master (Store α) := (opened config start).after script
    m.metrics.committed = m.store.commitCount ∧
    (∀ (now : Instant) (e : Edit α),
      match e.run.run (m.withClock now) with
      | .error _ m' => m'.store = m.store
      | .ok shown m' =>
        m'.store.commitCount = m.store.commitCount + 1 ∧
        (∀ other, other ≠ e.object config → m'.store.timeline? other = m.store.timeline? other) ∧
        shown ≠ [] ∧ ∀ r ∈ shown, Program.outcome (record r.id) m' = .ok r) ∧
    ∀ verify, ((opened config start).verifying verify).answers script =
      (opened config start).answers script ∧
      (((opened config start).verifying verify).after script).session = m.session := by
  intro m
  have sound₀ : (opened config start : Master (Store α)).Sound := .opened config start
  rcases sound₀.after script with ⟨sound, settings⟩
  refine ⟨sound.committed, fun now e => ?_, fun verify => ?_⟩
  · have ends := Edit.run_ends (sound.withClock now).store e
    have object : e.object (m.withClock now).config = e.object config :=
      congrArg (fun c => e.object c) settings
    rw [object] at ends
    cases run : e.run.run (m.withClock now) with
    | error fault m' =>
      rw [run] at ends
      rcases ends with ⟨-, store, -, -⟩
      exact store
    | ok shown m' =>
      rw [run] at ends
      rcases ends with - | ⟨-, grows, -, nonempty⟩
      refine ⟨grows.count, grows.others, nonempty, fun r member => ?_⟩
      have read := run_onStore_read (fun s : Store α => s.record r.id) m'
      rw [grows.stored r member] at read
      exact Program.outcome_of_ok read
  · rcases sound₀.script_verifying verify script with ⟨answers, after⟩
    refine ⟨answers, ?_⟩
    rw [after]
    rfl

/-- The object of `loanScript`. -/
def loan : ObjectId := ⟨"loan", "7"⟩

/-- At `now` it is recorded that a loan runs from the epoch on. -/
def loanScript (now : Instant) : List (Instant × Request String) :=
  [(now, .edit (.addWithId loan "4000" (.openFrom .epoch)))]

/-- The update of a loan that is recorded already: one more commit, and what it
returns is read back. -/
theorem edits_atomic_loanScript :
    let m : Master (Store String) := (opened .default .epoch).after (loanScript ⟨5, by decide⟩)
    let e : Edit String := .update loan "3000" (some ⟨9, by decide⟩)
    ∃ shown m', e.run.run (m.withClock ⟨7, by decide⟩) = .ok shown m' ∧
      m'.store.commitCount = m.store.commitCount + 1 ∧
      (∀ other, other ≠ loan → m'.store.timeline? other = m.store.timeline? other) ∧
      shown ≠ [] ∧ ∀ r ∈ shown, Program.outcome (record r.id) m' = .ok r := by
  intro m e
  have succeeds : ∃ shown, e.run.run (m.withClock ⟨7, by decide⟩) = .ok shown
      (Program.final e.run (m.withClock ⟨7, by decide⟩)) :=
    Program.exists_run_of_toBool (by decide)
  obtain ⟨shown, run⟩ := succeeds
  have ends := (edits_atomic .default .epoch (loanScript ⟨5, by decide⟩)).2.1 ⟨7, by decide⟩ e
  simp only [m, run] at ends
  exact ⟨shown, _, run, ends⟩

end Master

end Bitemporal
