import Bitemporal.History

/-!
# Pages

A page shows the places of a result from its first item on, as many as it has.  One who asks for
page after page until nothing is left (`HistoryPage.Walk`) gets the result in pieces: the walk
ends, there is no other, its page number `i` starts at `i * size`, and the documents of its pages
are the result once (`HistoryPage.Walk.exists_unique`).
-/

namespace Bitemporal

variable {α : Type} {result : List (Record α)} {first size : Nat}

/-! ## One page -/

namespace Paging

variable {p : Paging}

/-- The place after a page saturates, if the result can be counted. -/
theorem nextItem_eq (counted : p.totalItems ≤ maxCount) :
    p.nextItem = min (p.firstItem + p.pageSize) maxCount := by
  rw [nextItem, Nat.max_eq_left counted]

/-- There are more records exactly if one has the place after the page. -/
theorem hasMore_iff_nextItem : p.hasMore = true ↔ p.nextItem < p.totalItems := decide_eq_true_iff

/-- The bound on the place after a page never hides a record. -/
theorem hasMore_iff : p.hasMore = true ↔ p.firstItem + p.pageSize < p.totalItems := by
  rw [hasMore_iff_nextItem, nextItem]
  omega

end Paging

namespace HistoryPage

theorem hasMore_cut_iff :
    (cut result first size).paging.hasMore = true ↔ first + size < result.length :=
  Paging.hasMore_iff

/-- There are more pages exactly if some record has its place after the page. -/
theorem hasMore_cut_iff_exists :
    (cut result first size).paging.hasMore = true ↔
      ∃ place r, first + size ≤ place ∧ result[place]? = some r := by
  rw [hasMore_cut_iff]
  constructor
  · intro more
    exact ⟨first + size, result[first + size], Nat.le_refl _, List.getElem?_eq_getElem more⟩
  · rintro ⟨place, r, after, shown⟩
    exact Nat.lt_of_le_of_lt after (List.getElem?_eq_some_iff.mp shown).1

/-- A page and what stands after it is what stands from its start on. -/
theorem documents_append_drop (result : List (Record α)) (first size : Nat) :
    (cut result first size).documents ++ result.drop (first + size) = result.drop first := by
  rw [cut, ← List.drop_drop]
  exact List.take_append_drop size (result.drop first)

theorem documents_of_not_hasMore (last : (cut result first size).paging.hasMore = false) :
    (cut result first size).documents = result.drop first := by
  have fits : ¬ first + size < result.length := fun more => by
    rw [hasMore_cut_iff.mpr more] at last
    cases last
  have shown := documents_append_drop result first size
  rwa [List.drop_of_length_le (Nat.not_lt.mp fits), List.append_nil] at shown

/-! ## Walks -/

/-- The pages that are shown from `first` on to someone who asks for the page after each one that
is not the last. -/
inductive Walk (ask : Nat → Except Fault (HistoryPage α)) (size : Nat) : Nat →
    List (HistoryPage α) → Prop
  | last {first : Nat} {page : HistoryPage α} (shown : ask first = .ok page)
  (done : page.paging.hasMore = false) :
    Walk ask size first [page]
  | next {first : Nat} {page : HistoryPage α} {rest : List (HistoryPage α)}
  (shown : ask first = .ok page)
    (more : page.paging.hasMore = true) (walk : Walk ask size (first + size) rest) :
    Walk ask size first (page :: rest)

namespace Walk

variable {ask : Nat → Except Fault (HistoryPage α)} {pages pages' : List (HistoryPage α)}
    {page : HistoryPage α}

/-- There is at most one walk. -/
theorem unique (walk : Walk ask size first pages) (walk' : Walk ask size first pages') :
    pages = pages' := by
  induction walk generalizing pages' with
  | last shown done =>
    cases walk' with
    | last shown' done' => rw [Except.ok.inj (shown.symm.trans shown')]
    | next shown' more' rest' =>
      rw [← Except.ok.inj (shown.symm.trans shown'), done] at more'
      cases more'
  | next shown more rest ih =>
    cases walk' with
    | last shown' done' =>
      rw [← Except.ok.inj (shown.symm.trans shown'), more] at done'
      cases done'
    | next shown' more' rest' => rw [Except.ok.inj (shown.symm.trans shown'), ih rest']

/-- Each page of a walk was asked for where the pages before it end. -/
theorem shown_of_getElem? (walk : Walk ask size first pages) {i : Nat}
    (shown : pages[i]? = some page) : ask (first + i * size) = .ok page := by
  induction walk generalizing i with
  | @last first own answered done =>
    obtain ⟨rfl, rfl⟩ : i = 0 ∧ own = page := by simpa [List.getElem?_singleton] using shown
    rwa [Nat.zero_mul, Nat.add_zero]
  | @next first own rest answered more walk ih =>
    cases i with
    | zero =>
      rw [List.getElem?_cons_zero, Option.some.injEq] at shown
      rwa [Nat.zero_mul, Nat.add_zero, ← shown]
    | succ i =>
      rw [List.getElem?_cons_succ] at shown
      rw [Nat.succ_mul, Nat.add_comm (i * size), ← Nat.add_assoc]
      exact ih shown

section

variable (cuts : ∀ first, ask first = .ok (.cut result first size))

include cuts

/-- A walk shows what lies behind its start, in order. -/
theorem documents_eq (walk : Walk ask size first pages) :
    pages.flatMap documents = result.drop first := by
  induction walk with
  | last shown done =>
    cases Except.ok.inj (shown.symm.trans (cuts _))
    rw [List.flatMap_singleton, documents_of_not_hasMore done]
  | next shown more walk ih =>
    cases Except.ok.inj (shown.symm.trans (cuts _))
    rw [List.flatMap_cons, ih, documents_append_drop]

/-- Every page of a walk but the first shows a record. -/
theorem start_lt (walk : Walk ask size first pages) {i : Nat}
    (shown : pages[i + 1]? = some page) : first + (i + 1) * size < result.length := by
  induction walk generalizing i with
  | last answered done => simp at shown
  | @next first own rest answered more walk ih =>
    cases Except.ok.inj (answered.symm.trans (cuts _))
    rw [Nat.succ_mul, Nat.add_comm (i * size), ← Nat.add_assoc]
    cases i with
    | zero =>
      rw [Nat.zero_mul, Nat.add_zero]
      exact hasMore_cut_iff.mp more
    | succ i => exact ih shown

/-- Pages with at least one place come to an end. -/
theorem exists_of_pos (pos : 0 < size) (first : Nat) : ∃ pages, Walk ask size first pages := by
  -- What is left after a page is shorter than before it.
  induction left : result.length - first using Nat.strongRecOn generalizing first with
  | _ left ih =>
    cases more : (cut result first size).paging.hasMore with
    | false => exact ⟨_, .last (cuts first) more⟩
    | true =>
      have behind := hasMore_cut_iff.mp more
      obtain ⟨rest, walk⟩ := ih (result.length - (first + size)) (by omega) (first + size) rfl
      exact ⟨_, .next (cuts first) more walk⟩

/-- From the start of a result there is one walk; it shows the result once, and its pages start
one after the other. -/
theorem exists_unique (pos : 0 < size) :
    ∃ pages, Walk ask size 0 pages ∧ (∀ pages', Walk ask size 0 pages' → pages' = pages) ∧
      pages.flatMap documents = result ∧
      ∀ i page, pages[i]? = some page → page = .cut result (i * size) size ∧
        (i = 0 ∨ i * size < result.length) := by
  obtain ⟨pages, walk⟩ := exists_of_pos cuts pos 0
  refine ⟨pages, walk, fun pages' walk' => walk'.unique walk, walk.documents_eq cuts,
    fun i page shown => ⟨?_, ?_⟩⟩
  · have answered := walk.shown_of_getElem? shown
    rw [Nat.zero_add, cuts] at answered
    exact (Except.ok.inj answered).symm
  · cases i with
    | zero => exact .inl rfl
    | succ i => exact .inr (by simpa only [Nat.zero_add] using walk.start_lt cuts shown)

end

end Walk

end HistoryPage

end Bitemporal
