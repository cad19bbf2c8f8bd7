import Bitemporal.Proofs.Master.Query
import Bitemporal.Proofs.Pages
import Bitemporal.Proofs.Timeline.History
import Bitemporal.Proofs.Timeline.Replay

/-!
# Histories of a master

A history query shows one page of the history of an object.  `Master.history_exact` says what
stands on each page and what all of them show together, for every store that batches lead to.
-/

namespace Bitemporal

variable {α : Type}

theorem Store.history_of_known {s : Store α} {object : ObjectId} {tl : Timeline α}
    (known : s.timeline? object = some tl) (versions corrections : Option Interval) :
    s.history object versions corrections = .ok (tl.history versions corrections) := by
  rw [history, timeline, known]
  rfl

namespace Master

variable {m : Master (Store α)} {request : HistoryRequest} {result : List (Record α)}

/-- A history query with room on its pages shows the page that it asks for, and leaves the master
as it was. -/
theorem run_history
    (found : m.store.history request.object request.versions request.corrections = .ok result)
    (pos : 0 < request.pageSize.getD m.config.historyPageSize) :
    (history request).run m =
      .ok (.cut result request.firstItem (request.pageSize.getD m.config.historyPageSize)) m := by
  unfold history
  rw [EStateM.run_bind, EStateM.run_get]
  dsimp only
  rw [if_neg (Nat.pos_iff_ne_zero.mp pos)]
  refine (run_onStore_read_bind _ _ m).trans ?_
  rw [found]
  rfl

/-- Whatever batches were committed, accepted or not: the history of a known object shows the
records that share an instant with each window, each of them once and by strictly descending
places, as no two records of the object have one place.  A query for a page shows what stands on
it, says how many records there are and whether one stands after it, up to the largest count, and
leaves the master as it was.  The walk over all pages ends and shows the history once. -/
theorem history_exact (batches : List (Batch α)) (object : ObjectId) :
    let s := (Store.empty : Store α).commitEach batches
    ∀ tl, s.timeline? object = some tl →
      (∀ (p q : Nat) (r r' : Record α), tl.records[p]? = some r → tl.records[q]? = some r' →
        r.place = r'.place → p = q) ∧
      ∀ versions corrections : Option Interval,
        ∃ result, s.history object versions corrections = .ok result ∧
        (∀ r, r ∈ result ↔
          r ∈ tl.records ∧ (∀ w, versions = some w → ∃ t, t ∈ r.version ∧ t ∈ w) ∧
          ∀ w, corrections = some w → ∃ t, t ∈ r.correction ∧ t ∈ w) ∧
        result.Nodup ∧ result.Pairwise (fun r r' => r'.place < r.place) ∧
        ∀ (config : Config) (now : Instant) (writes : Coordinator) (pageSize : Option Nat),
          let m : Master (Store α) := ⟨config, now, ⟨s, writes⟩⟩
          let size := pageSize.getD config.historyPageSize
          let ask : Nat → MasterM (Store α) (HistoryPage α) := fun first =>
            history ⟨object, versions, corrections, first, pageSize⟩
          0 < size →
          (∀ first, ∃ page, (ask first).run m = .ok page m ∧
            page.paging = ⟨first, size, result.length⟩ ∧
            page.documents = (result.drop first).take size ∧
            (page.paging.hasMore = true ↔
              ∃ place r, first + size ≤ place ∧ result[place]? = some r) ∧
            (page.paging.hasMore = true ↔ page.paging.nextItem < page.paging.totalItems) ∧
            (result.length ≤ Paging.maxCount →
              page.paging.nextItem = min (first + size) Paging.maxCount)) ∧
          ∃ pages, HistoryPage.Walk (fun first => Program.outcome (ask first) m) size 0 pages ∧
            (∀ pages', HistoryPage.Walk
              (fun first => Program.outcome (ask first) m) size 0 pages' → pages' = pages) ∧
            pages.flatMap HistoryPage.documents = result ∧
            ∀ i page, pages[i]? = some page →
              page = .cut result (i * size) size ∧ (i = 0 ∨ i * size < result.length) := by
  intro s tl known
  have sound : tl.Sound := (Store.Sound.empty.commitEach batches object tl known).2
  refine ⟨fun p q r r' => sound.position_eq_of_place, fun versions corrections => ?_⟩
  have read := Store.history_of_known known versions corrections
  refine ⟨_, read, fun r => Timeline.mem_history_iff, sound.history_nodup versions corrections,
    sound.history_descends versions corrections, fun config now writes pageSize => ?_⟩
  intro m size ask pos
  have answered (first : Nat) :
      (ask first).run m = .ok (.cut (tl.history versions corrections) first size) m :=
    run_history (m := m) read pos
  refine ⟨fun first => ⟨_, answered first, rfl, rfl, HistoryPage.hasMore_cut_iff_exists,
    Paging.hasMore_iff_nextItem, fun counted => Paging.nextItem_eq counted⟩, ?_⟩
  exact HistoryPage.Walk.exists_unique (fun first => Program.outcome_of_ok (answered first)) pos

/-- The two rents of a lease, one record to a page. -/
theorem history_exact_leaseBatches :
    let s := (Store.empty : Store String).commitEach Timeline.leaseBatches
    let m : Master (Store String) := ⟨.default, .epoch, ⟨s, .empty⟩⟩
    ∃ tl result pages, s.timeline? Timeline.lease = some tl ∧
      s.history Timeline.lease none none = .ok result ∧
      HistoryPage.Walk
        (fun first => Program.outcome (history ⟨Timeline.lease, none, none, first, some 1⟩) m) 1 0
          pages ∧
      pages.flatMap HistoryPage.documents = result ∧
      result.map Record.payload = ["120", "100"] := by
  intro s m
  have known : (s.timeline? Timeline.lease).isSome = true := by decide
  obtain ⟨tl, known⟩ := Option.isSome_iff_exists.mp known
  obtain ⟨-, histories⟩ := history_exact Timeline.leaseBatches Timeline.lease tl known
  obtain ⟨result, read, -, -, -, paged⟩ := histories none none
  obtain ⟨-, pages, walk, -, shown, -⟩ := paged .default .epoch .empty (some 1) (by decide)
  refine ⟨tl, result, pages, known, read, walk, shown, ?_⟩
  have payloads : (s.history Timeline.lease none none).map (List.map Record.payload) =
      .ok ["120", "100"] := by decide
  rw [read] at payloads
  exact Except.ok.inj payloads

end Master

end Bitemporal
