import Bitemporal.Program
import Mathlib.Data.List.Basic

/-!
# Runs of programs

A run of a program on a state has an outcome (`Program.outcome`) and a state that it leaves
(`Program.final`), whether it returns or fails.  The equations for sequencing follow a run step by
step.
-/

namespace Bitemporal.Program

variable {σ β γ : Type} {p : Program σ β} {next : β → Program σ γ} {s s' s'' : σ} {b : β} {c : γ}
    {fault : Fault}

/-- What a run says. -/
def outcome (p : Program σ β) (s : σ) : Except Fault β :=
  match p.run s with
  | .ok b _ => .ok b
  | .error fault _ => .error fault

/-- The state that a run leaves, however it ends. -/
def final (p : Program σ β) (s : σ) : σ :=
  match p.run s with
  | .ok _ s' => s'
  | .error _ s' => s'

theorem outcome_of_ok (run : p.run s = .ok b s') : outcome p s = .ok b := by rw [outcome, run]

theorem outcome_of_error (run : p.run s = .error fault s') :
    outcome p s = .error fault := by rw [outcome, run]

theorem final_of_ok (run : p.run s = .ok b s') : final p s = s' := by rw [final, run]

theorem final_of_error (run : p.run s = .error fault s') : final p s = s' := by rw [final, run]

/-- A run that does not fail returns something. -/
theorem exists_run_of_toBool (succeeds : (outcome p s).toBool = true) :
    ∃ b, p.run s = .ok b (final p s) := by
  unfold outcome at succeeds
  unfold final
  cases run : p.run s with
  | ok b s' => exact ⟨b, rfl⟩
  | error fault s' =>
    rw [run] at succeeds
    cases succeeds

/-! ## Sequencing -/

/-- A program goes on from the state that its first part leaves. -/
theorem run_bind_of_ok (run : p.run s = .ok b s') : (p >>= next).run s = (next b).run s' := by
  rw [EStateM.run_bind, run]

/-- A program ends where its first part fails. -/
theorem run_bind_of_error (run : p.run s = .error fault s') :
    (p >>= next).run s = .error fault s' := by
  rw [EStateM.run_bind, run]

/-- A sequence that returns has two parts that return, one after the other. -/
theorem exists_of_run_bind_eq_ok (run : (p >>= next).run s = .ok c s'') :
    ∃ b s', p.run s = .ok b s' ∧ (next b).run s' = .ok c s'' := by
  cases first : p.run s with
  | ok b s' => exact ⟨b, s', rfl, (run_bind_of_ok first).symm.trans run⟩
  | error fault s' =>
    rw [run_bind_of_error first] at run
    cases run

theorem run_bind_pure_of_ok {f : β → γ} (run : p.run s = .ok b s') :
    (p >>= fun b => pure (f b)).run s = .ok (f b) s' := run_bind_of_ok run

/-- What is made of a result does not decide whether there is one. -/
theorem outcome_bind_pure (p : Program σ β) (f : β → γ) (s : σ) :
    outcome (p >>= fun b => pure (f b)) s = (outcome p s).map f := by
  cases run : p.run s with
  | ok b s' => rw [outcome_of_ok (run_bind_pure_of_ok run), outcome_of_ok run, Except.map]
  | error fault s' =>
    rw [outcome_of_error (run_bind_of_error run), outcome_of_error run, Except.map]

/-- What is made of a result does not change the state. -/
theorem final_bind_pure (p : Program σ β) (f : β → γ) (s : σ) :
    final (p >>= fun b => pure (f b)) s = final p s := by
  cases run : p.run s with
  | ok b s' => rw [final_of_ok (run_bind_pure_of_ok run), final_of_ok run]
  | error fault s' => rw [final_of_error (run_bind_of_error run), final_of_error run]

/-! ## Programs that leave the state alone -/

@[simp]
theorem run_ofExcept_ok : (ofExcept (.ok b) : Program σ β).run s = .ok b s := rfl

@[simp]
theorem run_ofExcept_error : (ofExcept (.error fault) : Program σ β).run s = .error fault s := rfl

theorem run_read_of_ok {f : σ → Except Fault β} (found : f s = .ok b) :
    (read f).run s = .ok b s := by
  rw [EStateM.run, read, found]

theorem run_read_of_error {f : σ → Except Fault β} (missing : f s = .error fault) :
    (read f).run s = .error fault s := by
  rw [EStateM.run, read, missing]

theorem eq_of_run_ofExcept_eq_ok {check : Except Fault β}
    (run : (ofExcept check : Program σ β).run s = .ok b s') : check = .ok b ∧ s' = s := by
  cases check with
  | ok b' =>
    cases run
    exact ⟨rfl, rfl⟩
  | error fault => cases run

theorem eq_of_run_read_eq_ok {f : σ → Except Fault β} (run : (read f).run s = .ok b s') :
    f s = .ok b ∧ s' = s := by
  cases found : f s with
  | ok b' =>
    rw [run_read_of_ok found] at run
    cases run
    exact ⟨rfl, rfl⟩
  | error fault =>
    rw [run_read_of_error found] at run
    cases run

/-- A read leads on as the check of what is read does. -/
theorem run_read_bind (f : σ → Except Fault β) (next : β → Program σ γ) (s : σ) :
    (read f >>= next).run s = (ofExcept (f s) >>= next).run s := by
  cases found : f s with
  | ok b => rw [run_bind_of_ok (run_read_of_ok found), run_bind_of_ok run_ofExcept_ok]
  | error fault =>
    rw [run_bind_of_error (run_read_of_error found), run_bind_of_error run_ofExcept_error]

theorem ofExcept_pure (b : β) : (ofExcept (pure b) : Program σ β) = pure b := rfl

/-- Checks in sequence are a program in sequence. -/
theorem ofExcept_bind (check : Except Fault β) (rest : β → Except Fault γ) :
    (ofExcept (check >>= rest) : Program σ γ) = ofExcept check >>=
      fun b => ofExcept (rest b) := by
  cases check with
  | ok b => rfl
  | error fault => rfl

/-- What follows a check may be exchanged for what does the same. -/
theorem run_ofExcept_bind_congr {check : Except Fault β} {next' : β → Program σ γ}
    (same : ∀ b, (next b).run s = (next' b).run s) :
    (ofExcept check >>= next).run s = (ofExcept check >>= next').run s := by
  cases check with
  | ok b => exact same b
  | error fault => rfl

/-! ## Checks that only callers fail -/

/-- Whatever fault a check finds is the caller's. -/
def BlamesCaller (check : Except Fault β) : Prop :=
  ∀ fault, check = .error fault → fault.isCallerError = true

namespace BlamesCaller

theorem ok : BlamesCaller (.ok b) := by
  intro fault failed
  cases failed

theorem error (caller : fault.isCallerError = true) :
    BlamesCaller (.error fault : Except Fault β) := by
  intro fault' failed
  cases failed
  exact caller

theorem bind {check : Except Fault β} {next : β → Except Fault γ} (first : BlamesCaller check)
    (rest : ∀ b, check = .ok b → BlamesCaller (next b)) : BlamesCaller (check >>= next) := by
  cases found : check with
  | ok b => exact rest b found
  | error fault => exact .error (first fault found)

theorem between (start : Instant) (stop : Boundary) :
    BlamesCaller (Interval.between start stop) := by
  unfold Interval.between
  split
  · exact .ok
  · exact .error rfl

end BlamesCaller

/-! ## Checks in sequence -/

/-- Checks that pass in sequence each pass. -/
theorem exists_of_bind_eq_ok {check : Except Fault β} {rest : β → Except Fault γ}
    (passed : check >>= rest = .ok c) : ∃ b, check = .ok b ∧ rest b = .ok c := by
  cases found : check with
  | ok b =>
    rw [found] at passed
    exact ⟨b, rfl, passed⟩
  | error fault =>
    rw [found] at passed
    cases passed

/-- Of checks in sequence that fail one is the first to fail. -/
theorem error_of_bind_eq_error {check : Except Fault β} {rest : β → Except Fault γ}
    (failed : check >>= rest = .error fault) :
    check = .error fault ∨ ∃ b, check = .ok b ∧ rest b = .error fault := by
  cases found : check with
  | ok b =>
    rw [found] at failed
    exact .inr ⟨b, rfl, failed⟩
  | error fault' =>
    rw [found] at failed
    cases failed
    exact .inl rfl

section Checks

variable {check : β → Except Fault γ} {l : List β} {results : List γ}

/-- A list of checks passes exactly if each check does. -/
theorem mapM_eq_ok_iff : l.mapM check = .ok results ↔ l.map check = results.map .ok := by
  induction l generalizing results with
  | nil =>
    rw [List.mapM_nil, List.map_nil, eq_comm (a := []), List.map_eq_nil_iff]
    exact ⟨fun passed => (Except.ok.inj passed).symm, fun empty => congrArg Except.ok empty.symm⟩
  | cons a rest ih =>
    rw [List.mapM_cons]
    constructor
    · intro passed
      rcases exists_of_bind_eq_ok passed with ⟨c, first, passed⟩
      rcases exists_of_bind_eq_ok passed with ⟨cs, others, done⟩
      cases done
      rw [List.map_cons, first, ih.mp others, List.map_cons]
    · intro shape
      cases results with
      | nil => cases shape
      | cons c cs =>
        rw [List.map_cons, List.map_cons] at shape
        rcases List.cons.inj shape with ⟨first, others⟩
        rw [first, ih.mpr others]
        rfl

theorem mem_of_mapM_eq_ok (passed : l.mapM check = .ok results) {c : γ} :
    c ∈ results ↔ ∃ a ∈ l, check a = .ok c := by
  have shape := mapM_eq_ok_iff.mp passed
  have member : (.ok c : Except Fault γ) ∈ results.map .ok ↔ c ∈ results :=
    List.mem_map_of_injective fun _ _ => Except.ok.inj
  rw [← member, ← shape, List.mem_map]

/-- A list of checks fails with the fault of one of them. -/
theorem exists_of_mapM_eq_error (failed : l.mapM check = .error fault) :
    ∃ a ∈ l, check a = .error fault := by
  induction l with
  | nil => cases failed
  | cons a rest ih =>
    rw [List.mapM_cons] at failed
    cases first : check a with
    | error fault' =>
      rw [first] at failed
      cases failed
      exact ⟨a, List.mem_cons_self, first⟩
    | ok c =>
      rw [first] at failed
      cases others : rest.mapM check with
      | error fault' =>
        rw [others] at failed
        cases failed
        obtain ⟨a', member, found⟩ := ih others
        exact ⟨a', List.mem_cons_of_mem a member, found⟩
      | ok cs =>
        rw [others] at failed
        cases failed

/-- The first check of a list that fails decides how the list fails. -/
theorem mapM_eq_error_of_first {before after : List β} {a : β}
    (passed : ∀ a ∈ before, ∃ c, check a = .ok c) (failed : check a = .error fault) :
    (before ++ a :: after).mapM check = .error fault := by
  induction before with
  | nil =>
    rw [List.nil_append, List.mapM_cons, failed]
    rfl
  | cons a' before ih =>
    rcases passed a' List.mem_cons_self with ⟨c, first⟩
    rw [List.cons_append, List.mapM_cons, first,
      ih fun a member => passed a (List.mem_cons_of_mem a' member)]
    rfl

/-- A sequence of checks passes if each check does. -/
theorem forM_eq_ok {check : β → Except Fault Unit} (passed : ∀ a ∈ l, check a = .ok ()) :
    l.forM check = .ok () := by
  induction l with
  | nil => rfl
  | cons a rest ih =>
    change (check a >>= fun _ => rest.forM check) = .ok ()
    rw [passed a List.mem_cons_self]
    exact ih fun a' member => passed a' (List.mem_cons_of_mem a member)

end Checks

end Bitemporal.Program
