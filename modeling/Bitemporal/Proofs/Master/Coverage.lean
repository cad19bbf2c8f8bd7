import Bitemporal.Proofs.Coverage
import Bitemporal.Proofs.Master.Faults
import Bitemporal.Proofs.Master.Step

/-!
# Coverage is never lost

The current slice of an object that was once created is never empty again, and no request
makes it start later.  What it covers stays covered, whatever is asked and whether it is
answered or refused; only a removal that succeeds uncovers anything, and that is just the
instants from its own on.

A committed edit leaves the intervals that its plan leaves (`Plan.Settles.versions_perm`), so all
of this is about plans: those of removals, and the others.
-/

namespace Bitemporal

variable {α : Type}

namespace Store

/-- The version intervals of the current slice of an object, in ascending order. -/
def held (s : Store α) (object : ObjectId) : List Interval :=
  (s.lineage object).activeRecords.map Record.version

/-- Every known object has a current record. -/
def Populated (s : Store α) : Prop := ∀ object, s.contains object = true → s.held object ≠ []

/-- An object is known, and its current slice starts at an instant or before. -/
def StartsBy (s : Store α) (object : ObjectId) (bound : Instant) : Prop :=
  s.contains object = true ∧ ∃ first ∈ (s.held object).head?, first.start ≤ bound

variable {s : Store α} {object other : ObjectId} {tl : Timeline α}

theorem Populated.empty : (Store.empty : Store α).Populated := by
  intro object known
  simp [Store.contains, Store.empty, timeline?] at known

theorem Sound.held_tiled (sound : s.Sound) (object : ObjectId) : IsTiling (s.held object) :=
  (sound.lineage_sound object).activeRecords_tiled

theorem Sound.active_distinct (sound : s.Sound) (object : ObjectId) :
    ∀ r ∈ (s.lineage object).activeRecords,
      ∀ r' ∈ (s.lineage object).activeRecords, r.id = r'.id → r = r' := by
  have indexed := (sound.lineage_sound object).toIndexed
  intro r listed r' listed' same
  exact indexed.eq_of_id_eq (indexed.mem_activeRecords.mp listed).1
    (indexed.mem_activeRecords.mp listed').1 same

theorem held_committed_of_ne (distinct : object ≠ other) :
    (s.committed object tl).held other = s.held other := by
  rw [held, lineage_committed_of_ne distinct, held]

end Store

/-! ## Committed edits -/

namespace Edit.Commits

variable {m m' : Master (Store α)} {e : Edit α} {plan : Plan α} {b : Batch α} {tl : Timeline α}
  {shown : List (Record α)} {object : ObjectId} {t : Instant}

/-- An edit that is committed leaves of its object what it planned. -/
theorem held_perm (commits : Commits m e plan b tl shown m') (sound : m.store.Sound) :
    (m'.store.held (e.object m.config)).Perm
      (plan.outlook (m.store.lineage (e.object m.config)).activeRecords) := by
  rw [commits.store_eq, Store.held, Store.lineage_committed]
  exact commits.settles.versions_perm sound

theorem held_of_ne (commits : Commits m e plan b tl shown m')
    (other : e.object m.config ≠ object) : m'.store.held object = m.store.held object := by
  rw [commits.store_eq]
  exact Store.held_committed_of_ne other

theorem held_ne_nil (commits : Commits m e plan b tl shown m') (sound : m.store.Sound) :
    m'.store.held (e.object m.config) ≠ [] := by
  have inserts : plan.inserts ≠ [] :=
    (draft_suits sound commits.prechecked commits.drafted).2.inserts_ne_nil
  intro empty
  have perm := commits.held_perm sound
  rw [empty, List.nil_perm, Plan.outlook, List.append_eq_nil_iff,
    List.map_eq_nil_iff (f := Pending.version)] at perm
  exact inserts perm.2

/-- After an edit every known object still has a current record. -/
theorem populated (commits : Commits m e plan b tl shown m') (sound : m.store.Sound)
    (populated : m.store.Populated) : m'.store.Populated := by
  intro object known
  by_cases own : e.object m.config = object
  · rw [← own]
    exact commits.held_ne_nil sound
  · rw [commits.store_eq, Store.contains_committed] at known
    rw [commits.held_of_ne own]
    exact populated object (known.resolve_left (Ne.symm own))

theorem contains_of_contains (commits : Commits m e plan b tl shown m')
    (known : m.store.contains object = true) : m'.store.contains object = true := by
  rw [commits.store_eq, Store.contains_committed]
  exact .inr known

/-- An edit that does not remove the object uncovers nothing. -/
theorem covers (commits : Commits m e plan b tl shown m') (sound : m.store.Sound)
    (keeps : ∀ stop, e ≠ .remove object stop) (covered : Covers (m.store.held object) t) :
    Covers (m'.store.held object) t := by
  by_cases own : e.object m.config = object
  · subst own
    have noRemoval : ∀ other stop, e ≠ .remove other stop := by
      rintro other stop rfl
      exact keeps stop rfl
    rw [covers_congr (commits.held_perm sound)]
    rcases draft_lays sound commits.prechecked commits.drafted with
        ⟨-, closed, start, stop, lays, within⟩
    exact lays.covers (sound.active_distinct _) (within noRemoval) covered
  · rwa [commits.held_of_ne own]

theorem terminated {stop : Option Instant}
    (commits : Commits m (.remove object stop) plan b tl shown m') (sound : m.store.Sound) :
    Plan.terminate object (m.store.lineage object).activeRecords (stop.getD m.now) = .ok plan :=
  (draftOn_eq_ok sound commits.drafted).2

/-- A removal uncovers just the instants from its own on. -/
theorem covers_iff_of_remove {stop : Option Instant}
    (commits : Commits m (.remove object stop) plan b tl shown m') (sound : m.store.Sound) :
    Covers (m'.store.held object) t ↔ Covers (m.store.held object) t ∧ t < stop.getD m.now := by
  have perm : (m'.store.held object).Perm (plan.outlook (m.store.lineage object).activeRecords) :=
    commits.held_perm sound
  rw [covers_congr perm]
  exact Plan.terminate_covers_iff (sound.held_tiled object) (sound.active_distinct object)
    (commits.terminated sound)

/-- Whatever is edited, the instants at which records of a slice start stay covered. -/
theorem covers_start (commits : Commits m e plan b tl shown m') (sound : m.store.Sound)
    {i : Interval} (listed : i ∈ m.store.held object) :
    Covers (m'.store.held object) i.start := by
  have covered : Covers (m.store.held object) i.start := ⟨i, listed, i.start_mem⟩
  by_cases removal : ∃ stop, e = .remove object stop
  · rcases removal with ⟨stop, rfl⟩
    rcases List.mem_map.mp listed with ⟨r, active, rfl⟩
    have early : r.version.start < stop.getD m.now :=
      Plan.start_lt_of_terminate (sound.held_tiled object) (commits.terminated sound) r active
    exact (commits.covers_iff_of_remove sound).mpr ⟨covered, early⟩
  · exact commits.covers sound (fun stop same => removal ⟨stop, same⟩) covered

/-- No edit lets a lineage start later than it did. -/
theorem startsBy (commits : Commits m e plan b tl shown m') (sound : m.store.Sound)
    (starts : m.store.StartsBy object t) : m'.store.StartsBy object t := by
  rcases starts with ⟨known, i, head, early⟩
  have covered := commits.covers_start sound (List.mem_of_mem_head? head)
  have tiled : IsTiling (m'.store.held object) := (commits.grows sound).sound.held_tiled object
  refine ⟨commits.contains_of_contains known, ?_⟩
  cases held : m'.store.held object with
  | nil =>
    rw [held] at covered
    rcases covered with ⟨j, member, -⟩
    cases member
  | cons j rest =>
    rw [held] at covered tiled
    exact ⟨j, rfl, (tiled.start_le_of_covers covered).trans early⟩

end Edit.Commits

/-! ## Requests -/

namespace Master

variable {m : Master (Store α)} {request : Request α} {object : ObjectId} {t instant : Instant}

/-- A request removes an object at an instant, and succeeds. -/
def RemovesAt (m : Master (Store α)) (request : Request α) (object : ObjectId)
    (instant : Instant) : Prop :=
  ∃ stop answer, request = .edit (.remove object stop) ∧ stop.getD m.now = instant ∧
    Program.outcome request.run m = .ok answer

/-- No request of a script removes an object, or else the removal is refused. -/
def NeverRemoves (object : ObjectId) : Master (Store α) → List (Instant × Request α) → Prop
  | _, [] => True
  | m, (now, request) :: rest =>
    (∀ instant, ¬ RemovesAt (m.withClock now) request object instant) ∧
      NeverRemoves object (Program.final request.run (m.withClock now)) rest

namespace Sound

/-- Whatever is asked, what is covered stays covered, unless the object is removed. -/
theorem covers_final (sound : m.Sound) (keeps : ∀ instant, ¬ RemovesAt m request object instant)
    (covered : Covers (m.store.held object) t) :
    Covers ((Program.final request.run m).store.held object) t := by
  rcases sound.step_cases request with
      ⟨unchanged, -⟩ | ⟨e, plan, b, tl, shown, rfl, answered, commits⟩
  · rwa [unchanged]
  · refine commits.covers sound.store (fun stop => ?_) covered
    rintro rfl
    exact keeps _ ⟨stop, _, rfl, rfl, answered⟩

/-- A removal uncovers just the instants from its end on. -/
theorem covers_final_iff (sound : m.Sound) (removes : RemovesAt m request object instant) :
    Covers ((Program.final request.run m).store.held object) t ↔
      Covers (m.store.held object) t ∧ t < instant := by
  rcases removes with ⟨stop, answer, rfl, rfl, answered⟩
  rcases sound.step_cases (.edit (.remove object stop)) with
      ⟨-, refused⟩ | ⟨e, plan, b, tl, shown, same, -, commits⟩
  · rcases refused _ rfl with ⟨fault, failed⟩
    cases answered.symm.trans failed
  · cases same
    exact commits.covers_iff_of_remove sound.store

/-- A slice that starts early enough never starts later. -/
theorem startsBy_after (sound : m.Sound) (starts : m.store.StartsBy object t)
    (script : List (Instant × Request α)) : (m.after script).store.StartsBy object t :=
  sound.after_induction (P := fun s => s.StartsBy object t) starts
    (fun sound starts commits => commits.startsBy sound.store starts) script

theorem populated_after (sound : m.Sound) (populated : m.store.Populated)
    (script : List (Instant × Request α)) : (m.after script).store.Populated :=
  sound.after_induction (P := Store.Populated) populated
    (fun sound populated commits => commits.populated sound.store populated) script

/-- What is covered stays covered for as long as the object is not removed. -/
theorem covers_after (sound : m.Sound) {script : List (Instant × Request α)}
    (keeps : NeverRemoves object m script) (covered : Covers (m.store.held object) t) :
    Covers ((m.after script).store.held object) t := by
  induction script generalizing m with
  | nil => exact covered
  | cons entry rest ih =>
    have ticked : (m.withClock entry.1).Sound := sound.withClock entry.1
    exact ih (ticked.final entry.2).1 keeps.2 (ticked.covers_final keeps.1 covered)

end Sound

/-! ## Runs -/

/-- Neither slice is empty, and the second starts no later than the first. -/
def StartsNoLater (slice slice' : List (Record α)) : Prop :=
  ∃ first ∈ slice.head?, ∃ first' ∈ slice'.head?, first'.version.start ≤ first.version.start

/-- The last record of a slice never ends. -/
def IsOpenEnded (slice : List (Record α)) : Prop := ∃ r ∈ slice.getLast?, r.version.isOpen = true

/-- A slice has no end exactly if it covers the last instant. -/
theorem isOpenEnded_iff_covers {slice : List (Record α)}
    (tiled : IsTiling (slice.map Record.version)) :
    IsOpenEnded slice ↔ Covers (slice.map Record.version) .last := by
  rw [tiled.covers_last_iff, IsOpenEnded, List.getLast?_map]
  simp only [Option.mem_def, Option.map_eq_some_iff, exists_exists_and_eq_and]

/-- A slice that is read later is not empty and starts no later. -/
theorem Sound.startsNoLater_after (sound : m.Sound) (populated : m.store.Populated)
    (known : m.store.contains object = true) (script : List (Instant × Request α)) :
    (m.after script).store.activeSlice object =
      .ok ((m.after script).store.lineage object).activeRecords ∧
      StartsNoLater (m.store.lineage object).activeRecords
        ((m.after script).store.lineage object).activeRecords := by
  have nonempty : (m.store.lineage object).activeRecords ≠ [] := by
    intro empty
    exact populated object known (List.map_eq_nil_iff.mpr empty)
  have head := List.head?_eq_some_head nonempty
  have starts : m.store.StartsBy object
      ((m.store.lineage object).activeRecords.head nonempty).version.start := by
    refine ⟨known, _, ?_, le_rfl⟩
    rw [Store.held, List.head?_map, head]
    rfl
  rcases sound.startsBy_after starts script with ⟨known', i, found, early⟩
  rw [Store.held, List.head?_map, Option.mem_map] at found
  rcases found with ⟨first', head', rfl⟩
  exact ⟨(sound.after script).1.store.activeSlice_of_contains known', _, head, first', head',
    early⟩

/-- Whatever a master over the empty store was asked, and by whatever clock, before and after it
created an object: the current slice of the object is not empty, and starts no later than in any
state before.  A removal that succeeds uncovers just the instants from its own on, and any other
request, answered or refused, uncovers nothing.  So what is covered stays covered, and what is
open-ended stays open-ended, for as long as the object is not removed. -/
theorem coverage_never_lost {config : Config} {start : Instant}
    {script : List (Instant × Request α)} {object : ObjectId}
    (created :
      ((opened config start : Master (Store α)).after script).store.contains object = true) :
    let m : Master (Store α) := (opened config start).after script
    ∃ slice, m.store.activeSlice object = .ok slice ∧
      (∀ (now : Instant) (request : Request α),
        ∃ slice',
          (Program.final request.run (m.withClock now)).store.activeSlice object = .ok slice' ∧
          StartsNoLater slice slice' ∧
          (∀ instant, RemovesAt (m.withClock now) request object instant → ∀ t,
            Covers (slice'.map Record.version) t ↔
              Covers (slice.map Record.version) t ∧ t < instant) ∧
          ((∀ instant, ¬ RemovesAt (m.withClock now) request object instant) → ∀ t,
            Covers (slice.map Record.version) t → Covers (slice'.map Record.version) t)) ∧
      ∀ later : List (Instant × Request α),
        ∃ slice', (m.after later).store.activeSlice object = .ok slice' ∧
          StartsNoLater slice slice' ∧
          (NeverRemoves object m later →
            (∀ t, Covers (slice.map Record.version) t → Covers (slice'.map Record.version) t) ∧
            (IsOpenEnded slice → IsOpenEnded slice')) := by
  intro m
  have sound₀ : (opened config start : Master (Store α)).Sound := .opened config start
  have sound : m.Sound := (sound₀.after script).1
  have populated : m.store.Populated := sound₀.populated_after .empty script
  refine ⟨_, sound.store.activeSlice_of_contains created, fun now request => ?_, fun later => ?_⟩
  · -- One request is a script by itself.
    rcases sound.startsNoLater_after populated created [(now, request)] with ⟨read, starts⟩
    have ticked : (m.withClock now).Sound := sound.withClock now
    exact ⟨_, read, starts, fun instant removes t => ticked.covers_final_iff removes,
      fun keeps t covered => ticked.covers_final keeps covered⟩
  · rcases sound.startsNoLater_after populated created later with ⟨read, starts⟩
    refine ⟨_, read, starts,
      fun keeps => ⟨fun t covered => sound.covers_after keeps covered, fun isOpen => ?_⟩⟩
    rw [isOpenEnded_iff_covers (sound.store.held_tiled object)] at isOpen
    rw [isOpenEnded_iff_covers ((sound.after later).1.store.held_tiled object)]
    exact sound.covers_after keeps isOpen

/-- A loan is ended at 9. -/
def loanEnding : Request String := .edit (.remove loan (some ⟨9, by decide⟩))

/-- A loan that runs on covers the same instants after it is removed at 9, up to there. -/
theorem coverage_never_lost_loanScript :
    let m : Master (Store String) := (opened .default .epoch).after (loanScript ⟨5, by decide⟩)
    let now : Instant := ⟨7, by decide⟩
    m.store.contains loan = true ∧ RemovesAt (m.withClock now) loanEnding loan ⟨9, by decide⟩ ∧
      ∃ slice slice', m.store.activeSlice loan = .ok slice ∧
        (Program.final loanEnding.run (m.withClock now)).store.activeSlice loan = .ok slice' ∧
        StartsNoLater slice slice' ∧
        ∀ t, Covers (slice'.map Record.version) t ↔
          Covers (slice.map Record.version) t ∧ t < ⟨9, by decide⟩ := by
  have succeeds : (Program.outcome loanEnding.run
      (((opened .default .epoch).after (loanScript ⟨5, by decide⟩)).withClock
        ⟨7, by decide⟩)).isOk = true := by
    decide
  intro m now
  have created : m.store.contains loan = true := rfl
  have removes : RemovesAt (m.withClock now) loanEnding loan ⟨9, by decide⟩ := by
    cases answered : Program.outcome loanEnding.run (m.withClock now) with
    | ok answer => exact ⟨_, answer, rfl, rfl, answered⟩
    | error fault =>
      rw [answered] at succeeds
      cases succeeds
  rcases coverage_never_lost created with ⟨slice, read, step, -⟩
  rcases step now loanEnding with ⟨slice', read', starts, uncovers, -⟩
  exact ⟨created, removes, slice, slice', read, read', starts, uncovers _ removes⟩

end Master

end Bitemporal
