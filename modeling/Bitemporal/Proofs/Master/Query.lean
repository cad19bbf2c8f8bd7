import Bitemporal.Proofs.Master.Request
import Bitemporal.Proofs.Store

/-!
# Queries

A query in memory is answered from the store and leaves the master as it was
(`Query.run_eq_reply`).  On a sound store it is refused only through a fault of the caller's
(`Query.reply_blamesCaller`).
-/

namespace Bitemporal

variable {σ α β γ : Type}

theorem Master.run_onStore_read (f : σ → Except Fault β) (m : Master σ) :
    (Master.onStore (Program.read f)).run m = (Program.ofExcept (f m.store)).run m := by
  change Master.onStore (Program.read f) m = _
  cases found : f m.store with
  | ok b =>
    have read : Program.read f m.session.store = .ok b m.session.store :=
      Program.run_read_of_ok found
    rw [Master.onStore, read]
    rfl
  | error fault =>
    have read : Program.read f m.session.store = .error fault m.session.store :=
      Program.run_read_of_error found
    rw [Master.onStore, read]
    rfl

theorem Master.run_onStore_read_bind (f : σ → Except Fault β) (next : β → MasterM σ γ)
    (m : Master σ) :
    (Master.onStore (Program.read f) >>= next).run m =
      (Program.ofExcept (f m.store) >>= next).run m := by
  rw [EStateM.run_bind, EStateM.run_bind, Master.run_onStore_read]

namespace Query

/-- What a query is answered with. -/
def reply (m : Master (Store α)) : Query → Except Fault (Answer α)
  | lookup object coordinate =>
    return .records [← m.store.recordAt object
      (coordinate.version.getD m.now) coordinate.correction]
  | record id => return .records [← m.store.record id]
  | slice object (some correction) => return .records (← m.store.sliceAt object correction)
  | slice object none => return .records (← m.store.activeSlice object)
  | history request =>
    let pageSize := request.pageSize.getD m.config.historyPageSize
    if pageSize = 0 then .error (.invalidInput .emptyPage)
    else
      return .page (.cut
        (← m.store.history request.object request.versions request.corrections) request.firstItem
        pageSize)

theorem run_eq_reply (m : Master (Store α)) (q : Query) :
    q.run.run m = (Program.ofExcept (q.reply m)).run m := by
  cases q with
  | lookup object coordinate =>
    change (Master.lookup object coordinate >>= fun r => pure (Answer.records [r])).run m = _
    unfold Master.lookup
    rw [bind_assoc, EStateM.run_bind, EStateM.run_get]
    refine (Master.run_onStore_read_bind _ _ m).trans ?_
    rw [reply, Program.ofExcept_bind]
    rfl
  | record id =>
    refine (Master.run_onStore_read_bind _ _ m).trans ?_
    rw [reply, Program.ofExcept_bind]
    rfl
  | slice object correction =>
    cases correction with
    | some instant =>
      refine (Master.run_onStore_read_bind _ _ m).trans ?_
      rw [reply, Program.ofExcept_bind]
      rfl
    | none =>
      refine (Master.run_onStore_read_bind _ _ m).trans ?_
      rw [reply, Program.ofExcept_bind]
      rfl
  | history request =>
    change (Master.history request >>= fun page => pure (Answer.page page)).run m = _
    unfold Master.history reply
    rw [bind_assoc, EStateM.run_bind, EStateM.run_get]
    dsimp only
    by_cases empty : request.pageSize.getD m.config.historyPageSize = 0
    · rw [if_pos empty, if_pos empty]
      rfl
    · rw [if_neg empty, if_neg empty, bind_assoc]
      refine (Master.run_onStore_read_bind _ _ m).trans ?_
      rw [Program.ofExcept_bind]
      rfl

theorem reply_blamesCaller {m : Master (Store α)} (sound : m.store.Sound) (q : Query) :
    Program.BlamesCaller (q.reply m) := by
  cases q with
  | lookup object coordinate => exact (sound.recordAt_blamesCaller _ _ _).bind fun r _ => .ok
  | record id => exact (Store.record_blamesCaller _ _).bind fun r _ => .ok
  | slice object correction =>
    cases correction with
    | some instant => exact (sound.sliceAt_blamesCaller _ _).bind fun slice _ => .ok
    | none => exact (sound.activeSlice_blamesCaller _).bind fun slice _ => .ok
  | history request =>
    unfold reply
    dsimp only
    split
    · exact .error rfl
    · exact (sound.history_blamesCaller _ _ _).bind fun result _ => .ok

end Query

end Bitemporal
