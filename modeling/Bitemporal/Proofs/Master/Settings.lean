import Bitemporal.Proofs.Master.Request

/-!
# Masters keep their settings

Nothing that a master is asked changes its settings, whatever its store does
(`Request.keepsSettings`): a program on the store runs with and without the lock of an object
beside the settings, and nothing else of a master is written. So a master works with the settings
that it was opened with (`config_served`).
-/

namespace Bitemporal

namespace Master

variable {σ α β γ : Type} {p : MasterM σ β} {next : β → MasterM σ γ}

/-- A program leaves the settings of every master as they are, whether it returns or fails. -/
def KeepsSettings (p : MasterM σ β) : Prop := ∀ m, (Program.final p m).config = m.config

namespace KeepsSettings

theorem pure (b : β) : KeepsSettings (Pure.pure b : MasterM σ β) := fun _ => rfl

theorem get : KeepsSettings (MonadState.get : MasterM σ (Master σ)) := fun _ => rfl

theorem throw (fault : Fault) : KeepsSettings (MonadExcept.throw fault : MasterM σ β) :=
  fun _ => rfl

theorem ofExcept (check : Except Fault β) :
    KeepsSettings (Program.ofExcept check : MasterM σ β) := by
  cases check with
  | ok b => exact pure b
  | error fault => exact throw fault

theorem bind (first : KeepsSettings p) (second : ∀ b, KeepsSettings (next b)) :
    KeepsSettings (p >>= next) := by
  intro m
  have kept := first m
  unfold Program.final at kept ⊢
  cases run : p.run m with
  | ok b m' =>
    rw [run] at kept
    rw [Program.run_bind_of_ok run]
    exact (second b m').trans kept
  | error fault m' =>
    rw [run] at kept
    rw [Program.run_bind_of_error run]
    exact kept

theorem onStore (program : Program σ β) : KeepsSettings (Master.onStore program) := by
  intro m
  unfold Program.final EStateM.run Master.onStore
  cases program m.session.store <;> rfl

theorem locked (object : ObjectId) (write : Program σ β) :
    KeepsSettings (Master.locked object write) := by
  intro m
  unfold Program.final EStateM.run Master.locked
  cases Session.execute object write m.session <;> rfl

end KeepsSettings

variable [DocumentStore σ α]

theorem keepsSettings_create (object : ObjectId) (payload : α) (version : Interval) :
    KeepsSettings (create object payload version : MasterM σ (Record α)) :=
  KeepsSettings.get.bind fun _ => .locked object _

end Master

open Master

variable {σ α : Type} [DocumentStore σ α]

/-- Whatever an edit does to the store, it does beside the settings. -/
theorem Edit.keepsSettings (e : Edit α) :
    KeepsSettings (e.run : MasterM σ (List (Record α))) := by
  cases e with
  | add drawn payload start stop =>
    exact (KeepsSettings.get.bind fun _ =>
      (KeepsSettings.ofExcept _).bind fun _ => keepsSettings_create _ _ _).bind
      fun _ => .pure _
  | addWithId object payload version =>
    exact ((KeepsSettings.ofExcept _).bind fun _ => keepsSettings_create _ _ _).bind
      fun _ => .pure _
  | replaceVersions object target replacements =>
    exact KeepsSettings.get.bind fun _ =>
      (KeepsSettings.ofExcept _).bind fun _ => .locked object _
  | replaceVersion id replacements =>
    exact KeepsSettings.get.bind fun _ =>
      (KeepsSettings.ofExcept _).bind fun _ => .locked id.object _
  | splice object replacements =>
    exact KeepsSettings.get.bind fun _ =>
      (KeepsSettings.ofExcept _).bind fun _ => .locked object _
  | update object payload start =>
    exact (KeepsSettings.get.bind fun _ => .locked object _).bind fun _ => .pure _
  | correct id payload =>
    exact (KeepsSettings.get.bind fun _ => .locked id.object _).bind fun _ => .pure _
  | remove object stop =>
    exact (KeepsSettings.get.bind fun _ => .locked object _).bind fun _ => .pure _

theorem Query.keepsSettings (q : Query) : KeepsSettings (q.run : MasterM σ (Answer α)) := by
  cases q with
  | lookup object coordinate =>
    exact (KeepsSettings.get.bind fun _ => .onStore _).bind fun _ => .pure _
  | record id => exact (KeepsSettings.onStore _).bind fun _ => .pure _
  | slice object correction =>
    cases correction with
    | none => exact (KeepsSettings.onStore _).bind fun _ => .pure _
    | some instant => exact (KeepsSettings.onStore _).bind fun _ => .pure _
  | history request =>
    refine (KeepsSettings.get.bind fun m => ?_).bind fun _ => .pure _
    dsimp only
    split
    · exact (KeepsSettings.throw _).bind fun _ => (KeepsSettings.onStore _).bind fun _ => .pure _
    · exact (KeepsSettings.onStore _).bind fun _ => .pure _

/-- Nothing that a master is asked changes its settings. -/
theorem Request.keepsSettings (request : Request α) :
    KeepsSettings (request.run : MasterM σ (Answer α)) := by
  cases request with
  | edit e => exact e.keepsSettings.bind fun _ => .pure _
  | query q => exact q.keepsSettings

namespace Master

/-- The master over any store after requests, each at its own reading of the clock. -/
def served (m : Master σ) (script : List (Instant × Request α)) : Master σ :=
  script.foldl (fun m entry => Program.final entry.2.run (m.withClock entry.1)) m

/-- No run changes the settings. -/
theorem config_served (m : Master σ) (script : List (Instant × Request α)) :
    (m.served script).config = m.config := by
  induction script generalizing m with
  | nil => rfl
  | cons entry rest ih =>
    have step := entry.2.keepsSettings (m.withClock entry.1)
    exact (ih _).trans step

end Master

end Bitemporal
