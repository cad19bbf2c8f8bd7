import Bitemporal.Proofs.Order
import Bitemporal.Proofs.Program
import Bitemporal.Replacement
import Mathlib.Data.List.Chain

/-!
# Valid lists of replacements

Whatever `Replacement.validate` refuses is the caller's fault.  What it accepts is one contiguous
run that is not too long (`Replacement.validate_eq_ok_iff`): the starts ascend, an end in the
middle is the next start, and the last replacement is not empty.  So the run has a first start and
a boundary after it, and every later start lies strictly between
(`Replacement.IsRun.exists_extent`).
-/

namespace Bitemporal.Replacement

variable {α : Type} {replacements : List (Replacement α)} {fault : Fault}

theorem pairDefect?_isCallerError {index : Nat} {r next : Replacement α}
    (found : pairDefect? index r next = some fault) : fault.isCallerError = true := by
  unfold pairDefect? at found
  split at found
  · cases found
    rfl
  · split at found
    · split at found
      · cases found
      · cases found
        rfl
    · cases found

/-- A defect in a list of replacements is the caller's fault. -/
theorem defect?_isCallerError {index : Nat} (found : defect? index replacements = some fault) :
    fault.isCallerError = true := by
  induction replacements generalizing index with
  | nil => cases found
  | cons r rest ih =>
    cases rest with
    | nil =>
      unfold defect? at found
      split at found
      · split at found
        · cases found
          rfl
        · cases found
      · cases found
    | cons next rest =>
      unfold defect? at found
      split at found
      · rename_i here
        cases found
        exact pairDefect?_isCallerError here
      · exact ih found

theorem validate_blamesCaller (replacements : List (Replacement α)) (limit : Nat) :
    Program.BlamesCaller (validate replacements limit) := by
  unfold validate
  split
  · exact .error rfl
  · split
    · exact .error rfl
    · split
      · rename_i found
        exact .error (defect?_isCallerError found)
      · exact .ok

theorem ne_nil_of_validate {limit : Nat} (valid : validate replacements limit = .ok ()) :
    replacements ≠ [] := by
  intro empty
  rw [empty] at valid
  cases valid

/-! ## Contiguous runs -/

/-- A replacement starts after another one, which ends there if it says where. -/
def Leads (r next : Replacement α) : Prop :=
  r.start < next.start ∧ ∀ stop, r.stop = some stop → stop = next.start

/-- A list of replacements is one contiguous run of version time. -/
structure IsRun (replacements : List (Replacement α)) : Prop where
  ne_nil : replacements ≠ []
  chain : replacements.IsChain Leads
  last_nonempty : ∀ last, replacements.getLast? = some last → .finite last.start < last.boundary

/-- A pair of neighbours has no defect exactly if the first leads to the second. -/
theorem pairDefect?_eq_none_iff {index : Nat} {r next : Replacement α} :
    pairDefect? index r next = none ↔ r.Leads next := by
  unfold pairDefect? Leads
  split
  · rename_i early
    simp [early.not_gt]
  · rename_i late
    rw [not_le] at late
    cases r.stop with
    | none => simp [late]
    | some stop => by_cases meets : stop = next.start <;> simp [late, meets]

theorem finite_start_lt_boundary_iff {r : Replacement α} :
    Boundary.finite r.start < r.boundary ↔ ∀ stop, r.stop = some stop → r.start < stop := by
  unfold boundary Boundary.ofInstant?
  cases r.stop <;> simp

/-- A list has no defect exactly if each replacement leads to the next and the
last has an extent. -/
theorem defect?_eq_none_iff {index : Nat} :
    defect? index replacements = none ↔
      replacements.IsChain Leads ∧
        ∀ last, replacements.getLast? = some last → .finite last.start < last.boundary := by
  induction replacements generalizing index with
  | nil => simp [defect?]
  | cons r rest ih =>
    cases rest with
    | nil =>
      unfold defect?
      simp only [List.isChain_singleton, true_and, List.getLast?_singleton, Option.some.injEq,
        forall_eq', finite_start_lt_boundary_iff]
      cases r.stop <;> simp
    | cons next rest =>
      rw [List.isChain_cons_cons, List.getLast?_cons_cons, ← @pairDefect?_eq_none_iff _ index]
      unfold defect?
      cases pairDefect? index r next with
      | none => simpa using ih
      | some fault => simp

/-- Just the contiguous runs that are not too long are accepted. -/
theorem validate_eq_ok_iff {limit : Nat} :
    validate replacements limit = .ok () ↔ IsRun replacements ∧ replacements.length ≤ limit := by
  have run_iff : IsRun replacements ↔ replacements ≠ [] ∧ defect? 0 replacements = none := by
    rw [defect?_eq_none_iff]
    exact ⟨fun run => ⟨run.ne_nil, run.chain, run.last_nonempty⟩, fun h => ⟨h.1, h.2.1, h.2.2⟩⟩
  rw [run_iff]
  unfold validate
  by_cases empty : replacements = []
  · simp [empty]
  · by_cases long : replacements.length > limit
    · simp [empty, long]
    · cases defect? 0 replacements <;> simp [empty, long, Nat.le_of_not_gt long]

namespace IsRun

/-- The starts of a run ascend. -/
theorem ascends (run : IsRun replacements) : replacements.Pairwise (·.start < ·.start) := by
  have starts : (replacements.map Replacement.start).IsChain (· < ·) :=
    (List.isChain_map _).mpr (run.chain.imp fun _ _ => And.left)
  exact List.pairwise_map.mp starts.pairwise

theorem start_lt_boundary (run : IsRun replacements) {last : Replacement α}
    (found : replacements.getLast? = some last) :
    ∀ r ∈ replacements, .finite r.start < last.boundary := by
  rcases List.getLast?_eq_some_iff.mp found with ⟨init, split⟩
  have ascends := run.ascends
  intro r member
  rw [split] at member ascends
  rcases List.mem_append.mp member with earlier | here
  · have before := (List.pairwise_append.mp ascends).2.2 r earlier last
      (List.mem_singleton_self last)
    exact (Boundary.finite_lt_finite.mpr before).trans (run.last_nonempty last found)
  · rw [List.mem_singleton.mp here]
    exact run.last_nonempty last found

/-- A run reaches from its first start to the boundary of its last member, and all other starts
lie between. -/
theorem exists_extent (run : IsRun replacements) :
    ∃ first rest last, replacements = first :: rest ∧ replacements.getLast? = some last ∧
      .finite first.start < last.boundary ∧
      ∀ r ∈ rest, first.start < r.start ∧ .finite r.start < last.boundary := by
  rcases List.exists_cons_of_ne_nil run.ne_nil with ⟨first, rest, shape⟩
  have found := List.getLast?_eq_some_getLast run.ne_nil
  have inside := run.start_lt_boundary found
  have ascends := run.ascends
  refine ⟨first, rest, _, shape, found, ?_⟩
  rw [shape] at ascends
  refine ⟨inside first (shape ▸ List.mem_cons_self),
    fun r member => ⟨List.rel_of_pairwise_cons ascends member, ?_⟩⟩
  exact inside r (shape ▸ List.mem_cons_of_mem first member)

end IsRun

/-! ## The replacement in force -/

/-- The last replacement that starts at an instant or before. -/
def inForce? (replacements : List (Replacement α)) (t : Instant) : Option (Replacement α) :=
  (replacements.filter fun r => r.start ≤ t).getLast?

/-- A later replacement that is in force is in force with others in front. -/
theorem inForce?_cons_of_some {first r : Replacement α} {t : Instant}
    (found : inForce? replacements t = some r) : inForce? (first :: replacements) t = some r := by
  unfold inForce? at found ⊢
  rw [List.filter_cons]
  split
  · rw [List.getLast?_cons, found, Option.getD_some]
  · exact found

/-- The first replacement is in force until another one starts. -/
theorem inForce?_cons_of_lt {first : Replacement α} {t : Instant} (started : first.start ≤ t)
    (later : ∀ r ∈ replacements, t < r.start) :
    inForce? (first :: replacements) t = some first := by
  have others : replacements.filter (fun r => r.start ≤ t) = [] :=
    List.filter_eq_nil_iff.mpr fun r member => by simpa using later r member
  rw [inForce?, List.filter_cons_of_pos (by simpa using started), others, List.getLast?_singleton]

end Bitemporal.Replacement
