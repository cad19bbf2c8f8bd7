import Bitemporal.Proofs.Master.Coverage
import Bitemporal.Proofs.Pages
import Bitemporal.Proofs.Timeline.Dates
import Mathlib.Data.List.Dedup
import Mathlib.Data.List.Perm.Basic

/-!
# Every write is one correction event

The journal of an object (`Master.journal`) holds its successful writes in a run, each with the
clock's reading and the records of the object before and after it.  A write is one event
(`Write.At`): whatever it closes and whatever it adds carries one instant, and it adds something.
`Chronicle` says what a journal tells about the timeline: the instants of its events ascend, they
are just the instants at which the records were recorded, and every superseded record was closed
by an event.

`Master.writes_are_events` draws the conclusion for every run, whatever the clock reads.
-/

namespace Bitemporal

variable {α : Type}

/-! ## Writes and events -/

/-- A successful write of an object: the clock's reading, and the records of the object
before and after it. -/
structure Write (α : Type) where
  now : Instant
  before : List (Record α)
  after : List (Record α)

namespace Write

/-- A write is one event at `stamp`, which is not before the clock's reading: of the records that
were there, some current ones are closed at `stamp`, and at least one record is added, recorded at
`stamp` and current. -/
structure At (w : Write α) (stamp : Instant) : Prop where
  now_le : w.now ≤ stamp
  exists_split : ∃ kept added, w.after = kept ++ added ∧
    List.Forall₂ (Record.Passes stamp) w.before kept ∧
    added ≠ [] ∧ ∀ r ∈ added, r.correction = .openFrom stamp

/-- The record `r` is what a write left of a current record by closing it at `stop`. -/
def Closes (w : Write α) (stop : Instant) (r : Record α) : Prop :=
  r ∈ w.after ∧ ∃ s ∈ w.before, s.isCurrent = true ∧ s.close stop = .ok r

end Write

/-! ## Chronicles -/

/-- What a journal tells about the timeline `tl` before it and the timeline `tl'` after it, if its
writes are events at `stamps`. -/
structure Chronicle (journal : List (Write α)) (stamps : List Instant) (tl tl' : Timeline α) :
    Prop where
  events : List.Forall₂ Write.At journal stamps
  ascends : stamps.Pairwise (· < ·)
  later : ∀ stamp ∈ stamps, ∀ latest, tl.latest = some latest → latest < stamp
  mem_starts_iff : ∀ t, t ∈ tl'.records.map (·.correction.start) ↔
    t ∈ tl.records.map (·.correction.start) ∨ t ∈ stamps
  closed_or_old : ∀ r ∈ tl'.records, ∀ stop, r.correction.stop = .finite stop →
    r ∈ tl.records ∨ ∃ w ∈ journal, w.At stop ∧ w.Closes stop r

namespace Chronicle

variable {journal : List (Write α)} {stamps : List Instant} {tl mid tl' : Timeline α}
    {b : Batch α} {now : Instant}

theorem nil (tl : Timeline α) : Chronicle [] [] tl tl where
  events := .nil
  ascends := .nil
  later := nofun
  mem_starts_iff t := by simp
  closed_or_old r stored stop _ := .inl stored

/-- A batch that inserts something is one event at its stamp. -/
theorem at_of_applied (sound : tl.Sound) (fits : b.Fits tl) (applied : b.Applied tl mid)
    (filled : b.inserts ≠ []) (early : now ≤ b.stamp) :
    Write.At ⟨now, tl.records, mid.records⟩ b.stamp where
  now_le := early
  exists_split := by
    refine ⟨_, _, applied.records_eq, ?_, Batch.additions_ne_nil filled _,
      fun r => Batch.mem_additions_correction⟩
    rw [List.forall₂_map_right_iff, List.forall₂_same]
    exact fun r stored => fits.revise_passes sound stored

/-- One more event before all others. -/
theorem cons (sound : tl.Sound) (fits : b.Fits tl) (applied : b.Applied tl mid)
    (filled : b.inserts ≠ []) (early : now ≤ b.stamp) (rest : Chronicle journal stamps mid tl') :
    Chronicle (⟨now, tl.records, mid.records⟩ :: journal) (b.stamp :: stamps) tl tl' where
  events := .cons (at_of_applied sound fits applied filled early) rest.events
  ascends := .cons (fun stamp member => rest.later stamp member _ applied.latest_eq) rest.ascends
  later := by
    intro stamp member latest newest
    have first : latest < b.stamp := fits.fresh latest newest
    rcases List.mem_cons.mp member with rfl | member
    · exact first
    · exact first.trans (rest.later stamp member _ applied.latest_eq)
  mem_starts_iff t := by
    rw [rest.mem_starts_iff, applied.mem_starts_iff filled, List.mem_cons, or_assoc]
  closed_or_old := by
    intro r stored stop ended
    rcases rest.closed_or_old r stored stop ended with old | ⟨w, listed, event, closes⟩
    · rcases applied.closed_or_old sound fits old ended with older | ⟨rfl, closes⟩
      · exact .inl older
      · exact .inr ⟨_, List.mem_cons_self, at_of_applied sound fits applied filled early, old,
          closes⟩
    · exact .inr ⟨w, List.mem_cons_of_mem _ listed, event, closes⟩

/-- From an empty timeline on, there are as many instants at which records were recorded as there
are writes. -/
theorem length_dedup (chronicle : Chronicle journal stamps tl tl') (fresh : tl.records = []) :
    (tl'.records.map (·.correction.start)).dedup.length = journal.length := by
  have same : (tl'.records.map (·.correction.start)).dedup.Perm stamps := by
    refine (List.perm_ext_iff_of_nodup (List.nodup_dedup _)
      (chronicle.ascends.imp fun order => order.ne)).mpr fun t => ?_
    rw [List.mem_dedup, chronicle.mem_starts_iff, fresh]
    simp
  rw [same.length_eq, chronicle.events.length_eq]

end Chronicle

/-! ## Stamps of committed edits -/

/-- The next stamp is not before the clock's reading, as long as there is a new one. -/
theorem Timeline.le_nextCorrection {tl : Timeline α} (now : Instant)
    (room : tl.latest ≠ some .last) : now ≤ tl.nextCorrection now := by
  unfold nextCorrection
  split
  · rename_i latest newest
    split
    · rename_i early
      have next : latest < latest.next := by
        refine Instant.lt_next (lt_of_le_of_ne latest.le_last fun last => room ?_)
        rw [newest, last]
      exact early.trans next.le
    · exact le_rfl
  · exact le_rfl

namespace Edit.Commits

variable {m m' : Master (Store α)} {e : Edit α} {plan : Plan α} {b : Batch α} {tl : Timeline α}
  {shown : List (Record α)} {object : ObjectId}

/-- Every edit that is committed inserts something. -/
theorem inserts_ne_nil (commits : Commits m e plan b tl shown m') (sound : m.store.Sound) :
    b.inserts ≠ [] := by
  rw [commits.settles.inserts_eq]
  exact (draft_suits sound commits.prechecked commits.drafted).2.inserts_ne_nil

theorem now_le_stamp (commits : Commits m e plan b tl shown m') : m.now ≤ b.stamp := by
  have room := commits.room
  rw [Store.latestCorrection_eq] at room
  rw [commits.settles.stamp_eq, Store.nextCorrection_eq]
  exact Timeline.le_nextCorrection m.now room

theorem lineage_of_ne (commits : Commits m e plan b tl shown m')
    (other : e.object m.config ≠ object) : m'.store.lineage object = m.store.lineage object := by
  rw [commits.store_eq, Store.lineage_committed_of_ne other]

end Edit.Commits

/-! ## Journals -/

namespace Master

variable {m : Master (Store α)} {object : ObjectId}

/-- Whether a request is an edit of an object that succeeds. -/
def writes (m : Master (Store α)) (object : ObjectId) : Request α → Bool
  | .edit e => decide (e.object m.config = object) && (Program.outcome e.run m).isOk
  | .query _ => false

/-- The successful writes of an object in a script, one after the other. -/
def journal (object : ObjectId) (m : Master (Store α)) :
    List (Instant × Request α) → List (Write α)
  | [] => []
  | (now, request) :: rest =>
    let m' := Program.final request.run (m.withClock now)
    if (m.withClock now).writes object request then
      ⟨now, (m.store.lineage object).records, (m'.store.lineage object).records⟩ ::
        journal object m' rest
    else journal object m' rest

/-- A request writes an object by committing an edit of it, and leaves the timeline of the object
alone otherwise. -/
theorem Sound.writes_cases (sound : m.Sound) (object : ObjectId) (request : Request α) :
    m.writes object request = false ∧
        (Program.final request.run m).store.lineage object = m.store.lineage object ∨
      m.writes object request = true ∧ ∃ e plan b tl shown, e.object m.config = object ∧
        Edit.Commits m e plan b tl shown (Program.final request.run m) := by
  rcases sound.step_cases request with
      ⟨unchanged, refused⟩ | ⟨e, plan, b, tl, shown, rfl, answered, commits⟩
  · refine .inl ⟨?_, by rw [unchanged]⟩
    cases request with
    | query q => rfl
    | edit e =>
      rcases refused e rfl with ⟨fault, failed⟩
      rw [outcome_edit] at failed
      rw [writes, Bool.and_eq_false_iff]
      cases run : Program.outcome e.run m with
      | ok shown =>
        rw [run] at failed
        cases failed
      | error fault => exact .inr rfl
  · have succeeds : (Program.outcome e.run m).isOk = true := by
      rw [outcome_edit] at answered
      cases run : Program.outcome e.run m with
      | ok shown => rfl
      | error fault =>
        rw [run] at answered
        cases answered
    by_cases own : e.object m.config = object
    · exact .inr ⟨by simp [writes, own, succeeds], e, plan, b, tl, shown, own, commits⟩
    · exact .inl ⟨by simp [writes, own], commits.lineage_of_ne own⟩

/-- The journal of an object is the chronicle of its timeline. -/
theorem Sound.chronicle (sound : m.Sound) (object : ObjectId)
    (script : List (Instant × Request α)) :
    ∃ stamps, Chronicle (m.journal object script) stamps (m.store.lineage object)
      ((m.after script).store.lineage object) := by
  induction script generalizing m with
  | nil => exact ⟨[], .nil _⟩
  | cons entry rest ih =>
    rcases entry with ⟨now, request⟩
    have ticked : (m.withClock now).Sound := sound.withClock now
    rcases ih (ticked.final request).1 with ⟨stamps, later⟩
    change ∃ stamps, Chronicle _ stamps
      _ (((Program.final request.run (m.withClock now)).after rest).store.lineage object)
    rw [journal]
    rcases ticked.writes_cases object request with
        ⟨idle, same⟩ | ⟨writes, e, plan, b, tl, shown, rfl, commits⟩
    · rw [same] at later
      simp only [idle]
      exact ⟨stamps, later⟩
    · have left : (Program.final request.run (m.withClock now)).store.lineage
          (e.object (m.withClock now).config) = tl := by
        rw [commits.store_eq, Store.lineage_committed]
      rw [left] at later
      simp only [writes, left]
      exact ⟨b.stamp :: stamps,
        later.cons (ticked.store.lineage_sound _) commits.settles.fits commits.settles.applied
        (commits.inserts_ne_nil ticked.store) commits.now_le_stamp⟩

/-! ## Unpaged histories -/

/-- A history without windows shows every record once. -/
theorem history_perm (tl : Timeline α) : (tl.history none none).Perm tl.records := by
  have all : tl.records.filter
      (fun r => Timeline.inWindow none r.version && Timeline.inWindow none r.correction) =
      tl.records := List.filter_eq_self.mpr fun r _ => rfl
  rw [Timeline.history, all]
  exact stableSort_perm _ _

theorem outcome_query (m : Master (Store α)) (q : Query) :
    Program.outcome (Request.query q).run m = q.reply m := by
  change Program.outcome q.run m = _
  rw [Program.outcome, Query.run_eq_reply]
  cases q.reply m <;> rfl

/-- A first page with nothing after it shows the whole result. -/
theorem documents_of_last {result : List (Record α)} {size : Nat}
    (last : (HistoryPage.cut result 0 size).paging.hasMore = false) :
    (HistoryPage.cut result 0 size).documents = result := by
  rw [HistoryPage.documents_of_not_hasMore last, List.drop_zero]

/-- The history of a known object without windows and pages shows every record, as many
as a page can hold. -/
theorem outcome_history_unpaged (m : Master (Store α)) (known : m.store.contains object = true) :
    m.store.history object none none = .ok ((m.store.lineage object).history none none) ∧
      Program.outcome (Request.query (.history (HistoryRequest.all object).unpaged)).run m =
        .ok (.page
          (.cut ((m.store.lineage object).history none none) 0 18446744073709551615)) := by
  rcases Option.isSome_iff_exists.mp known with ⟨tl, found⟩
  have read : m.store.history object none none =
      .ok ((m.store.lineage object).history none none) := by
    rw [Store.history, Store.timeline, found, Store.lineage_of_known found]
    rfl
  refine ⟨read, ?_⟩
  rw [outcome_query]
  change (m.store.history object none none >>=
    fun result => pure (Answer.page (.cut result 0 18446744073709551615))) = _
  rw [read]
  rfl

/-- Whatever a master over the empty store was asked, and by whatever clock: each successful write
of an object is one event of correction time, at an instant that is not before the clock's reading
and is after the instants of all earlier writes of the object.  A superseded record was closed by
such an event, after it was recorded.  In the history of the object there are as many instants at
which records were recorded as there were successful writes. -/
theorem writes_are_events (config : Config) (start : Instant)
    (script : List (Instant × Request α)) (object : ObjectId) :
    let m : Master (Store α) := (opened config start).after script
    let journal := (opened config start : Master (Store α)).journal object script
    (∃ stamps, List.Forall₂ Write.At journal stamps ∧ stamps.Pairwise (· < ·)) ∧
    (∀ r ∈ (m.store.lineage object).records, ∀ stop, r.correction.stop = .finite stop →
      r.correction.start < stop ∧ ∃ w ∈ journal, w.At stop ∧ w.Closes stop r) ∧
    (m.store.contains object = true ↔ journal ≠ []) ∧
    ∀ now, m.store.contains object = true →
      ∃ all page, m.store.history object none none = .ok all ∧
      all.Perm (m.store.lineage object).records ∧
      (all.map (·.correction.start)).dedup.length = journal.length ∧
      Program.outcome (Request.query (.history (HistoryRequest.all object).unpaged)).run
        (m.withClock now) = .ok (.page page) ∧
      (page.paging.hasMore = false → page.documents = all) := by
  intro m journal
  have sound₀ : (opened config start : Master (Store α)).Sound := .opened config start
  rcases sound₀.chronicle object script with ⟨stamps, chronicle⟩
  have counted : (((m.store.lineage object).records).map (·.correction.start)).dedup.length =
      journal.length :=
    chronicle.length_dedup rfl
  refine ⟨⟨stamps, chronicle.events, chronicle.ascends⟩, fun r stored stop ended => ⟨?_, ?_⟩,
    ⟨fun known => ?_, ?_⟩, fun now known => ?_⟩
  · have nonempty := r.correction.start_lt_stop
    rwa [ended] at nonempty
  · exact (chronicle.closed_or_old r stored stop ended).resolve_left List.not_mem_nil
  · have populated : m.store.Populated := sound₀.populated_after .empty script
    intro empty
    rw [empty, List.length_nil, List.length_eq_zero_iff, List.dedup_eq_nil, List.map_eq_nil_iff]
      at counted
    refine populated object known ?_
    rw [Store.held, List.map_eq_nil_iff, List.eq_nil_iff_forall_not_mem]
    intro r current
    have stored :=
      (((sound₀.after script).1.store.lineage_sound object).toIndexed.mem_activeRecords.mp
        current).1
    rw [counted] at stored
    cases stored
  · intro written
    have recorded : (m.store.lineage object).records ≠ [] := by
      intro empty
      rw [empty] at counted
      exact written (List.length_eq_zero_iff.mp counted.symm)
    rcases List.exists_mem_of_ne_nil _ recorded with ⟨r, stored⟩
    exact Store.contains_of_mem stored
  · rcases outcome_history_unpaged (m.withClock now) known with ⟨read, answered⟩
    have perm := history_perm (m.store.lineage object)
    refine ⟨_, _, read, perm, ?_, answered, documents_of_last⟩
    rw [← counted]
    exact (perm.map _).dedup.length_eq

/-- A clock that is set back does not turn the events of an object around: the update of a loan at
3 is an event after its record at 5, and closes that. -/
theorem writes_are_events_clockSetBack :
    let script : List (Instant × Request String) := loanScript ⟨5, by decide⟩ ++
      [(⟨3, by decide⟩, .edit (.update loan "3000" (some ⟨9, by decide⟩)))]
    let m : Master (Store String) := (opened .default .epoch).after script
    let journal := (opened .default .epoch : Master (Store String)).journal loan script
    journal.length = 2 ∧
      (∃ stamps, List.Forall₂ Write.At journal stamps ∧ stamps.Pairwise (· < ·)) ∧
      (∃ r ∈ (m.store.lineage loan).records,
        r.correction.stop = .finite ⟨6, by decide⟩ ∧
          ∃ w ∈ journal, w.At ⟨6, by decide⟩ ∧ w.Closes ⟨6, by decide⟩ r) ∧
      ∃ all, m.store.history loan none none = .ok all ∧
        (all.map (·.correction.start)).dedup.length = 2 := by
  intro script m journal
  obtain ⟨events, closed, -, counted⟩ := writes_are_events .default .epoch script loan
  have written : journal.length = 2 := by decide
  have superseded : ∃ r ∈ (m.store.lineage loan).records,
      r.correction.stop = .finite ⟨6, by decide⟩ := by decide
  rcases superseded with ⟨r, stored, ended⟩
  rcases counted .epoch (by decide) with ⟨all, page, shown, -, dates, -⟩
  exact ⟨written, events, ⟨r, stored, ended, (closed r stored _ ended).2⟩, all, shown,
    dates.trans written⟩

end Master

end Bitemporal
