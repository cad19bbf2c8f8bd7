import Bitemporal.Proofs.Master.Atomicity

/-!
# No system fault from any request

A master over the empty store never finds a corrupt timeline, whatever it is asked: every slice
that it reads is a tiling, and every plan that it makes leaves no overlap and inserts something.
It conflicts only when the newest stamp of the object is the last instant, after which there is no
new one.  All other faults are the caller's.
-/

namespace Bitemporal.Master

variable {α : Type}

/-- A sound master refuses a request through the caller's fault, or because
correction time is used up. -/
theorem Sound.excuses {m : Master (Store α)} {request : Request α} {fault : Fault}
    (sound : m.Sound) (failed : Program.outcome request.run m = .error fault) :
    Edit.Excuses m (request.object m.config) fault := by
  cases request with
  | query q =>
    change Program.outcome q.run m = .error fault at failed
    unfold Program.outcome at failed
    rw [q.run_eq_reply] at failed
    cases reply : q.reply m with
    | ok answer =>
      rw [reply] at failed
      cases failed
    | error fault' =>
      rw [reply] at failed
      cases failed
      exact .inl (Query.reply_blamesCaller sound.store q fault reply)
  | edit e =>
    rw [outcome_edit] at failed
    have ends := Edit.run_ends sound.store e
    cases run : e.run.run m with
    | ok shown m' =>
      rw [Program.outcome_of_ok run] at failed
      cases failed
    | error fault' m' =>
      rw [Program.outcome_of_error run] at failed
      cases failed
      rw [run] at ends
      rcases ends with ⟨-, -, -, excuse⟩
      exact excuse

/-- Whatever a master over the empty store was asked before, and by whatever clock: no request is
refused because a timeline is corrupt, and as long as the newest stamp of its object is before the
last instant, every request that is refused is at fault itself. -/
theorem faults_blame_caller {config : Config} {start now : Instant}
    {script : List (Instant × Request α)} {request : Request α} {fault : Fault}
    (failed : Program.outcome request.run (((opened config start).after script).withClock now) =
      .error fault) :
    (∀ object defect, fault ≠ .corruptTimeline object defect) ∧
    ((∀ latest, ((opened config start).after script).store.latestCorrection
      (request.object config) = some latest →
        latest < .last) →
      fault.isCallerError = true) := by
  have sound₀ : (opened config start : Master (Store α)).Sound := .opened config start
  rcases sound₀.after script with ⟨sound, settings⟩
  have excuse := (sound.withClock now).excuses failed
  have object : request.object (((opened config start).after script).withClock now).config =
      request.object config :=
    congrArg (fun c => request.object c) settings
  rw [object] at excuse
  rcases excuse with caller | ⟨cause, rfl, usedUp⟩
  · refine ⟨fun object defect corrupt => ?_, fun _ => caller⟩
    rw [corrupt] at caller
    cases caller
  · refine ⟨fun object defect => Fault.noConfusion, fun early => ?_⟩
    exact absurd (early .last usedUp) (lt_irrefl _)

/-- An update at the start of a loan is refused, and the caller is to blame. -/
theorem faults_blame_caller_loanScript :
    let m : Master (Store String) := (opened .default .epoch).after (loanScript ⟨5, by decide⟩)
    let fault : Fault := .invalidInput (.updateTooEarly loan .epoch .epoch)
    Program.outcome (Request.edit (.update loan "3000" (some .epoch))).run
      (m.withClock ⟨3, by decide⟩) = .error fault ∧
      m.store.latestCorrection loan = some ⟨5, by decide⟩ ∧ fault.isCallerError = true := by
  intro m fault
  have failed : Program.outcome (Request.edit (.update loan "3000" (some .epoch))).run
      (m.withClock ⟨3, by decide⟩) = .error fault := rfl
  have newest : m.store.latestCorrection loan = some ⟨5, by decide⟩ := rfl
  refine ⟨failed, newest, (faults_blame_caller failed).2 fun latest found => ?_⟩
  cases newest.symm.trans found
  decide

/-- After the last instant even a sensible request conflicts. -/
example :
    Program.outcome (Request.edit (.remove loan (some ⟨9, by decide⟩))).run
        ((opened .default .epoch : Master (Store String)).after (loanScript .last)) =
      .error (.conflict loan (.staleStamp .last .last)) := by
  rfl

end Bitemporal.Master
