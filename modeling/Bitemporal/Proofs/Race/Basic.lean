import Bitemporal.Proofs.Projection
import Bitemporal.Proofs.Timeline.Lookup
import Mathlib.Logic.Function.Basic

/-!
# Races of writers

Writers of one object that take no lock.  Each reads the current slice, plans on what it read,
asks for a stamp and commits, and other writers may move in between.  A writer may make any of the
four moves at any time, so it may also plan twice on one slice, ask for a stamp before it plans,
or commit one plan again and again.

`Race.run` plays a list of moves.  Of every commit that succeeds it notes what the writer had
read, what it planned and committed, and what was inserted.  So `Committed.AsPlanned` can say that
a plan took effect, and `Race.holder?` whose record should hold at an instant.
-/

namespace Bitemporal

variable {ι α : Type}

/-! ## Planners -/

/-- One of the four planners, with its arguments. -/
inductive Planner (α : Type) where
  | exactReplace (target : Interval) (replacements : List (Replacement α))
  | singleReplace (id : RecordId) (replacements : List (Replacement α))
  | splice (replacements : List (Replacement α))
  | terminate (stop : Instant)

namespace Planner

/-- Plans on a slice.  A record that is replaced alone is taken from the slice. -/
def plan (object : ObjectId) (slice : List (Record α)) : Planner α → Except Fault (Plan α)
  | exactReplace target replacements => Plan.exactReplace object slice target replacements
  | singleReplace id replacements =>
    match slice.find? (fun r => r.id = id) with
    | some record => Plan.singleReplace record replacements
    | none => .error (.notFound (.record id))
  | splice replacements => Plan.splice slice replacements
  | terminate stop => Plan.terminate object slice stop

/-- Plans on a slice, and checks what the plan would leave of it. -/
def draft (object : ObjectId) (slice : List (Record α)) (planner : Planner α) :
    Except Fault (Plan α) := do
  let plan ← planner.plan object slice
  plan.check object slice
  return plan

variable {object : ObjectId} {slice : List (Record α)} {planner : Planner α} {plan : Plan α}

/-- Whatever is planned closes records of the slice only. -/
theorem closes_of_plan (tiled : IsTiling (slice.map Record.version))
    (planned : planner.plan object slice = .ok plan) :
    ∀ id ∈ plan.closes, ∃ r ∈ slice, r.id = id := by
  cases planner with
  | exactReplace target replacements =>
    rcases Plan.exactReplace_eq_ok tiled planned with ⟨before, closed, after, rfl, -, closes, -⟩
    rw [closes]
    intro id member
    rcases List.mem_map.mp member with ⟨r, listed, same⟩
    exact ⟨r, List.mem_append_right before (List.mem_append_left after listed), same⟩
  | singleReplace id replacements =>
    rw [Planner.plan] at planned
    split at planned
    · rename_i record found
      rcases Plan.singleReplace_eq_ok planned with ⟨-, -, closes, -⟩
      rw [closes]
      intro other member
      exact ⟨record, List.mem_of_find?_eq_some found, (List.mem_singleton.mp member).symm⟩
    · cases planned
  | splice replacements =>
    rcases Plan.splice_eq_ok planned with ⟨span, before, laid, after, -, -, -, -, closes, -⟩
    rw [closes]
    intro id member
    rcases List.mem_map.mp member with ⟨r, listed, same⟩
    exact ⟨r, List.mem_of_mem_filter listed, same⟩
  | terminate stop =>
    rcases Plan.terminate_eq_ok planned with ⟨latest, extent, last, -, -, rfl⟩
    intro id member
    exact ⟨latest, List.mem_of_getLast? last, (List.mem_singleton.mp member).symm⟩

/-- Whatever is drafted closes records of the slice only. -/
theorem closes_of_draft (tiled : IsTiling (slice.map Record.version))
    (drafted : planner.draft object slice = .ok plan) :
    ∀ id ∈ plan.closes, ∃ r ∈ slice, r.id = id := by
  rcases Program.exists_of_bind_eq_ok drafted with ⟨plan', planned, drafted⟩
  rcases Program.exists_of_bind_eq_ok drafted with ⟨⟨⟩, -, done⟩
  cases done
  exact closes_of_plan tiled planned

end Planner

/-! ## Writers and moves -/

/-- What a writer holds: the slice that it read last, its last plan with the slice on which it was
made, and its last stamp. -/
structure Writer (α : Type) where
  slice? : Option (List (Record α))
  draft? : Option (List (Record α) × Plan α)
  stamp? : Option Instant

/-- A writer that has done nothing. -/
def Writer.idle : Writer α := ⟨none, none, none⟩

/-- What a writer may do next. -/
inductive Move (α : Type) where
  /-- Read the current slice. -/
  | read
  /-- Plan on the slice that was read, and check the plan on it. -/
  | plan (planner : Planner α)
  /-- Ask for a stamp, at a reading of any clock. -/
  | stamp (now : Instant)
  /-- Commit the plan at the stamp. -/
  | commit

/-- A commit that succeeded: the plan and the slice on which it was made, the batch, and the
records that were inserted. -/
structure Committed (α : Type) where
  slice : List (Record α)
  plan : Plan α
  batch : Batch α
  inserted : List (Record α)

namespace Committed

/-- What was planned took effect: a planner made the plan on the slice that was read, the batch is
the plan at its stamp, and the records that were inserted are the inserts of the batch, numbered
on in order and current from the stamp on. -/
structure AsPlanned (c : Committed α) (object : ObjectId) : Prop where
  drafted : ∃ planner : Planner α, planner.draft object c.slice = .ok c.plan
  stamps : c.plan.Stamps object c.batch.stamp c.batch
  inserted_eq : ∃ n, c.inserted = c.batch.additions n

/-- The records that were closed, as the writer had read them. -/
def closed (c : Committed α) : List (Record α) :=
  c.slice.filter fun r => c.batch.closes.contains r.id

/-- Whether a record that was closed or inserted covers an instant. -/
def touches (c : Committed α) (t : Instant) : Bool :=
  (c.closed ++ c.inserted).any fun r => r.version.contains t

/-- A commit touches the instants of the records that it closed or inserted. -/
theorem touches_iff {c : Committed α} {t : Instant} :
    c.touches t = true ↔ ∃ r, (r ∈ c.closed ∨ r ∈ c.inserted) ∧ t ∈ r.version := by
  rw [touches, List.any_eq_true]
  simp only [List.mem_append, Interval.contains_iff]

end Committed

/-- The store, what each writer holds, and the commits that succeeded, newest first. -/
structure Race (ι α : Type) where
  store : Store α
  writers : ι → Writer α
  commits : List (Committed α)

namespace Race

/-- The race over a store in which no writer has done anything. -/
def opened (s : Store α) : Race ι α := ⟨s, fun _ => .idle, []⟩

/-- Whose record should hold at an instant: the one that the newest commit inserted there of those
that touch the instant, and if there is none, the one of the slice at the beginning. -/
def holder? (first : List (Record α)) (commits : List (Committed α)) (t : Instant) :
    Option (Record α) :=
  match commits.find? fun c => c.touches t with
  | some c => Timeline.covering? c.inserted t
  | none => Timeline.covering? first t

/-- The newest commit decides if it touches the instant, and otherwise the earlier ones do. -/
theorem holder?_cons (first : List (Record α)) (c : Committed α) (commits : List (Committed α))
    (t : Instant) :
    holder? first (c :: commits) t =
      if c.touches t then Timeline.covering? c.inserted t else holder? first commits t := by
  unfold holder?
  rw [List.find?_cons]
  cases c.touches t <;> rfl

variable [DecidableEq ι]

/-- The race with something else in the hands of one writer. -/
def hand (race : Race ι α) (w : ι) (writer : Writer α) : Race ι α :=
  { race with writers := Function.update race.writers w writer }

/-- One move of one writer.  A move that fails, or for which the writer lacks something, changes
nothing but what a failed commit leaves of the store. -/
def step (object : ObjectId) (race : Race ι α) : ι × Move α → Race ι α
  | (w, .read) =>
    match race.store.activeSlice object with
    | .ok slice => race.hand w { race.writers w with slice? := some slice }
    | .error _ => race
  | (w, .plan planner) =>
    match (race.writers w).slice? with
    | some slice =>
      match planner.draft object slice with
      | .ok plan => race.hand w { race.writers w with draft? := some (slice, plan) }
      | .error _ => race
    | none => race
  | (w, .stamp now) =>
    race.hand w { race.writers w with stamp? := some (race.store.nextCorrection object now) }
  | (w, .commit) =>
    match (race.writers w).draft?, (race.writers w).stamp? with
    | some (slice, plan), some stamp =>
      match plan.toBatch object stamp with
      | .ok b =>
        match (Store.commit b).run race.store with
        | .ok inserted store =>
          { race with store := store, commits := ⟨slice, plan, b, inserted⟩ :: race.commits }
        | .error _ store => { race with store := store }
      | .error _ => race
    | _, _ => race

/-- The race after some moves. -/
def run (object : ObjectId) (race : Race ι α) (moves : List (ι × Move α)) : Race ι α :=
  moves.foldl (step object) race

end Race

end Bitemporal
