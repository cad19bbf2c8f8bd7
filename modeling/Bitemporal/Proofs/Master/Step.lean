import Bitemporal.Proofs.Master.Atomicity

/-!
# Steps of a master

A request leaves the store of a sound master alone, unless it is an edit that is committed
(`Master.Sound.step_cases`). So what a query or a refused edit does to the store needs no proof of
its own, and what a master keeps from step to step is a matter of committed edits
(`Master.Sound.after_induction`).
-/

namespace Bitemporal.Master

variable {α : Type} {m : Master (Store α)}

/-- The store is as it was, with the request refused if it is an edit, or else the request is an
edit that is committed. -/
theorem Sound.step_cases (sound : m.Sound) (request : Request α) :
    ((Program.final request.run m).store = m.store ∧
      ∀ e, request = .edit e → ∃ fault, Program.outcome request.run m = .error fault) ∨
    ∃ e plan b tl shown, request = .edit e ∧
      Program.outcome request.run m = .ok (.records shown) ∧
      Edit.Commits m e plan b tl shown (Program.final request.run m) := by
  cases request with
  | query q =>
    rw [final_query]
    exact .inl ⟨rfl, nofun⟩
  | edit e =>
    rw [final_edit, outcome_edit]
    rcases Edit.run_cases sound.store e with
        ⟨fault, m', run, -, store, -⟩ | ⟨plan, b, tl, shown, m', run, commits⟩
    · rw [Program.final_of_error run, Program.outcome_of_error run]
      exact .inl ⟨store, fun _ _ => ⟨fault, rfl⟩⟩
    · rw [Program.final_of_ok run, Program.outcome_of_ok run]
      exact .inr ⟨e, plan, b, tl, shown, rfl, rfl, commits⟩

/-- What a commit keeps, a run keeps: a property of stores that edits preserve which are committed
under the settings of the master holds throughout. -/
theorem Sound.after_induction_of_config {config : Config} {P : Store α → Prop} (sound : m.Sound)
    (settings : m.config = config) (base : P m.store)
    (step : ∀ {m m' : Master (Store α)} {e plan b tl shown}, m.Sound → m.config = config →
      P m.store → Edit.Commits m e plan b tl shown m' → P m'.store)
    (script : List (Instant × Request α)) : P (m.after script).store := by
  induction script generalizing m with
  | nil => exact base
  | cons entry rest ih =>
    have ticked : (m.withClock entry.1).Sound := sound.withClock entry.1
    have next : P (Program.final entry.2.run (m.withClock entry.1)).store := by
      rcases ticked.step_cases entry.2 with
          ⟨unchanged, -⟩ | ⟨e, plan, b, tl, shown, -, -, commits⟩
      · rw [unchanged]
        exact base
      · exact step ticked settings base commits
    obtain ⟨kept, same⟩ := ticked.final entry.2
    exact ih kept (same.trans settings) next

/-- A property of stores that committed edits preserve under any settings holds throughout. -/
theorem Sound.after_induction {P : Store α → Prop} (sound : m.Sound) (base : P m.store)
    (step : ∀ {m m' : Master (Store α)} {e plan b tl shown}, m.Sound → P m.store →
      Edit.Commits m e plan b tl shown m' → P m'.store)
    (script : List (Instant × Request α)) : P (m.after script).store :=
  sound.after_induction_of_config rfl base (fun sound _ => step sound) script

end Bitemporal.Master
