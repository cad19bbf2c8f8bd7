import Bitemporal.Proofs.Clip
import Bitemporal.Proofs.LayOut

/-!
# Splices, exactly

A contiguous run of replacements can be spliced into any slice (`Plan.exists_splice`).  In a
tiling the records that the span of the run overlaps lie next to each other (`exists_split_at`),
so the splice exchanges a part of the slice (`Plan.Splices.exchanges`).

* The plan leaves a tiling exactly if the span overlaps or touches what the slice covers
  (`Plan.Splices.fits_iff`).
* What it leaves is what the replacements say, laid over the span (`Plan.Splices.content_eq`).
  So inside the span it reads as the replacement in force (`Plan.Splices.payloadAt?_of_mem`), and
  outside it as before (`Plan.Splices.payloadAt?_of_not_mem`).
-/

namespace Bitemporal

variable {α : Type} {t : Instant} {span : Interval}

/-- Records in order fall into those before a span, those that overlap it, and those after it. -/
theorem exists_split_at {l : List (Record α)}
    (ordered : l.Pairwise fun r s => r.version.Before s.version) (span : Interval) :
    ∃ before after, l = before ++ (l.filter (fun r => r.version.overlaps span) ++ after) ∧
      (∀ r ∈ before, r.version.Before span) ∧ ∀ r ∈ after, span.Before r.version := by
  induction l with
  | nil => exact ⟨[], [], rfl, nofun, nofun⟩
  | cons r rest ih =>
    rcases List.pairwise_cons.mp ordered with ⟨first, ordered⟩
    rcases ih ordered with ⟨before, after, shape, early, late⟩
    by_cases shares : r.version.overlaps span = true
    · -- Nothing before the span can follow a record that reaches into it.
      have none : before = [] := by
        refine List.eq_nil_iff_forall_not_mem.mpr fun s member => ?_
        have listed : s ∈ rest := shape ▸ List.mem_append_left _ member
        have apart := ((first s listed).trans (early s member)).not_overlaps
        rw [shares] at apart
        cases apart
      subst none
      refine ⟨[], after, ?_, nofun, late⟩
      have kept : (r :: rest).filter (fun r => r.version.overlaps span) =
          r :: rest.filter (fun r => r.version.overlaps span) := List.filter_cons_of_pos shares
      rw [kept]
      exact congrArg (r :: ·) shape
    · rw [Bool.not_eq_true] at shares
      have skipped : (r :: rest).filter (fun r => r.version.overlaps span) =
          rest.filter (fun r => r.version.overlaps span) :=
        List.filter_cons_of_neg (by simp [shares])
      rw [skipped]
      rcases Interval.overlaps_eq_false_iff.mp shares with here | beyond
      · refine ⟨r :: before, after, ?_, ?_, late⟩
        · rw [List.cons_append]
          exact congrArg (r :: ·) shape
        · intro s member
          rcases List.mem_cons.mp member with rfl | member
          · exact here
          · exact early s member
      · have later : ∀ s ∈ r :: rest, span.Before s.version := by
          intro s member
          rcases List.mem_cons.mp member with rfl | member
          · exact beyond
          · exact beyond.trans (first s member)
        have none : rest.filter (fun r => r.version.overlaps span) = [] := by
          refine List.filter_eq_nil_iff.mpr fun s member shares => ?_
          have apart := (later s (List.mem_cons_of_mem r member)).not_overlaps
          rw [Interval.overlaps_comm, shares] at apart
          cases apart
        rw [none]
        exact ⟨[], r :: rest, rfl, nofun, later⟩

/-- An interval that no member of a tiling overlaps meets its neighbours exactly if it touches
what the tiling covers. -/
theorem Spans.meets_iff {start : Instant} {stop : Boundary} {left right : List Interval}
    (spans : Spans start stop (left ++ right)) (early : ∀ i ∈ left, i.Before span)
    (late : ∀ j ∈ right, span.Before j) :
    ((∀ i ∈ left.getLast?, i.stop = .finite span.start) ∧
      ∀ j ∈ right.head?, span.stop = .finite j.start) ↔
      .finite span.start ≤ stop ∧ .finite start ≤ span.stop := by
  have extent := spans.start_lt_stop
  rcases left.eq_nil_or_concat' with rfl | ⟨init, i, rfl⟩
  · rcases spans.exists_cons with ⟨j, rest, shape, rfl⟩
    rw [List.nil_append] at shape
    subst shape
    have beyond : span.stop ≤ .finite j.start := late j List.mem_cons_self
    constructor
    · intro h
      exact ⟨(span.start_lt_stop.trans_le beyond).le.trans extent.le, (h.2 j rfl).ge⟩
    · intro h
      refine ⟨nofun, fun k first => ?_⟩
      cases first
      exact le_antisymm beyond h.2
  · have here : i.stop ≤ .finite span.start :=
      early i (List.mem_append_right _ (List.mem_singleton_self i))
    cases right with
    | nil =>
      rw [List.append_nil] at spans
      rcases spans.exists_getLast with ⟨i', final, rfl⟩
      rw [List.getLast?_concat] at final
      cases final
      constructor
      · intro h
        exact ⟨(h.1 i List.getLast?_concat).ge,
          extent.le.trans (here.trans span.start_lt_stop.le)⟩
      · intro h
        refine ⟨fun k last => ?_, nofun⟩
        rw [List.getLast?_concat] at last
        cases last
        exact le_antisymm here h.1
    | cons j rest =>
      have meets : i.Meets j :=
        (List.isChain_append.mp spans.tiling).2.2 i List.getLast?_concat j rfl
      have beyond : span.stop ≤ .finite j.start := late j List.mem_cons_self
      exact absurd (span.start_lt_stop.trans_le (beyond.trans (meets.ge.trans here)))
        (lt_irrefl _)

namespace Plan

variable {active closed before after : List (Record α)} {replacements : List (Replacement α)}
  {head laid tail : List (Pending α)}

/-! ## Remnants -/

/-- The first overlapped record leaves the part of it before the span, if there is one. -/
theorem headRemnant_cases (span : Interval) (closed : List (Record α)) :
    (headRemnant span closed = .ok [] ∧ ∀ r ∈ closed.head?, span.start ≤ r.version.start) ∨
      ∃ r extent, closed.head? = some r ∧ extent.start = r.version.start ∧
        extent.stop = .finite span.start ∧
        headRemnant span closed = .ok [⟨extent, r.payload⟩] := by
  unfold headRemnant
  cases closed.head? with
  | none => exact .inl ⟨rfl, nofun⟩
  | some r =>
    by_cases early : r.version.start < span.start
    · refine .inr ⟨r, ⟨r.version.start, .finite span.start, early⟩, rfl, rfl, rfl, ?_⟩
      have cut : r.version.withStop (.finite span.start) =
          .ok ⟨r.version.start, .finite span.start, early⟩ :=
        Interval.between_eq_ok_iff.mpr ⟨rfl, rfl⟩
      dsimp only
      rw [if_pos early, cut]
      rfl
    · refine .inl ⟨if_neg early, fun s member => ?_⟩
      cases member
      exact not_lt.mp early

/-- The last overlapped record leaves the part of it after the span, if there is one. -/
theorem tailRemnant_cases (span : Interval) (closed : List (Record α)) :
    (tailRemnant span closed = .ok [] ∧ ∀ r ∈ closed.getLast?, r.version.stop ≤ span.stop) ∨
      ∃ r extent, closed.getLast? = some r ∧ span.stop = .finite extent.start ∧
        extent.stop = r.version.stop ∧ tailRemnant span closed = .ok [⟨extent, r.payload⟩] := by
  unfold tailRemnant
  cases closed.getLast? with
  | none => exact .inl ⟨rfl, nofun⟩
  | some r =>
    cases ends : span.stop with
    | unbounded => exact .inl ⟨rfl, fun _ _ => Boundary.le_unbounded⟩
    | finite stop =>
      by_cases late : .finite stop < r.version.stop
      · refine .inr ⟨r, ⟨stop, r.version.stop, late⟩, rfl, rfl, rfl, ?_⟩
        have cut : r.version.withStart stop = .ok ⟨stop, r.version.stop, late⟩ :=
          Interval.between_eq_ok_iff.mpr ⟨rfl, rfl⟩
        dsimp only
        rw [if_pos late, cut]
        rfl
      · refine .inl ⟨if_neg late, fun s member => ?_⟩
        cases member
        exact not_lt.mp late

/-- At most one record is left of what starts before the span. -/
theorem length_headRemnant_le (made : headRemnant span closed = .ok head) : head.length ≤ 1 := by
  rcases headRemnant_cases span closed with ⟨none, -⟩ | ⟨r, i, -, -, -, cut⟩
  · cases made.symm.trans none
    exact Nat.zero_le 1
  · cases made.symm.trans cut
    exact le_rfl

/-- At most one record is left of what ends after the span. -/
theorem length_tailRemnant_le (made : tailRemnant span closed = .ok tail) : tail.length ≤ 1 := by
  rcases tailRemnant_cases span closed with ⟨none, -⟩ | ⟨r, i, -, -, -, cut⟩
  · cases made.symm.trans none
    exact Nat.zero_le 1
  · cases made.symm.trans cut
    exact le_rfl

section Remnants

variable (ordered : closed.Pairwise fun r s => r.version.Before s.version)
  (shares : ∀ r ∈ closed, r.version.overlaps span = true)

include ordered shares

/-- The first remnant is what was overlapped, up to the span. -/
theorem headRemnant_eq_clip (made : headRemnant span closed = .ok head) :
    head = clip (.finite .epoch) (.finite span.start) (closed.map Record.content) := by
  cases closed with
  | nil =>
    cases made
    rfl
  | cons r rest =>
    have reaches : Boundary.finite span.start < r.version.stop :=
      (Interval.overlaps_iff.mp (shares r List.mem_cons_self)).2
    have others : clip (.finite .epoch) (.finite span.start) (rest.map Record.content) = [] := by
      refine clip_of_beyond (List.forall_mem_map.mpr fun s member => .inr ?_)
      have next : r.version.Before s.version := List.rel_of_pairwise_cons ordered member
      exact reaches.le.trans next
    rw [List.map_cons, ← List.singleton_append, clip_append, others, List.append_nil]
    rcases headRemnant_cases span (r :: rest) with
        ⟨none, inside⟩ | ⟨r', extent, found, starts, stops, cut⟩
    · cases made.symm.trans none
      refine (clip_of_beyond fun p member => .inr ?_).symm
      cases List.mem_singleton.mp member
      exact Boundary.finite_le_finite.mpr (inside r rfl)
    · cases found
      cases made.symm.trans cut
      have part : r.content.clip? (.finite .epoch) (.finite span.start) =
          some ⟨extent, r.payload⟩ := by
        refine Pending.clip?_eq_some_iff.mpr ⟨?_, ?_, rfl⟩
        · exact (congrArg Boundary.finite starts).trans (max_eq_left (Boundary.epoch_le _)).symm
        · exact stops.trans (min_eq_right reaches.le).symm
      exact (clip_singleton part).symm

/-- The last remnant is what was overlapped, from the end of the span on. -/
theorem tailRemnant_eq_clip (made : tailRemnant span closed = .ok tail) :
    tail = clip span.stop .unbounded (closed.map Record.content) := by
  rcases closed.eq_nil_or_concat' with rfl | ⟨rest, r, rfl⟩
  · cases made
    rfl
  · have reaches : Boundary.finite r.version.start < span.stop :=
      (Interval.overlaps_iff.mp
        (shares r (List.mem_append_right _ (List.mem_singleton_self r)))).1
    have others : clip span.stop .unbounded (rest.map Record.content) = [] := by
      refine clip_of_beyond (List.forall_mem_map.mpr fun s member => .inl ?_)
      have next : s.version.Before r.version :=
        (List.pairwise_append.mp ordered).2.2 s member r (List.mem_singleton_self r)
      exact le_trans next reaches.le
    rw [List.map_append, clip_append, others, List.nil_append, List.map_singleton]
    rcases tailRemnant_cases span (rest ++ [r]) with
        ⟨none, inside⟩ | ⟨r', extent, found, starts, stops, cut⟩
    · cases made.symm.trans none
      refine (clip_of_beyond fun p member => .inl ?_).symm
      cases List.mem_singleton.mp member
      exact inside r List.getLast?_concat
    · rw [List.getLast?_concat] at found
      cases found
      cases made.symm.trans cut
      have part : r.content.clip? span.stop .unbounded = some ⟨extent, r.payload⟩ := by
        refine Pending.clip?_eq_some_iff.mpr ⟨?_, ?_, rfl⟩
        · exact starts.symm.trans (max_eq_right reaches.le).symm
        · exact stops.trans (min_eq_left Boundary.le_unbounded).symm
      exact (clip_singleton part).symm

end Remnants

/-! ## Splices -/

/-- A contiguous run of replacements has the span from its first start to the boundary
of its last member. -/
theorem exists_span (run : Replacement.IsRun replacements) :
    ∃ span first last, Plan.span replacements = .ok span ∧ replacements.head? = some first ∧
      replacements.getLast? = some last ∧ span.start = first.start ∧
      span.stop = last.boundary := by
  rcases run.exists_extent with ⟨first, rest, last, shape, found, nonempty, -⟩
  have head : replacements.head? = some first := by rw [shape, List.head?_cons]
  refine ⟨⟨first.start, last.boundary, nonempty⟩, first, last, ?_, head, found, rfl, rfl⟩
  rw [Plan.span, head, found]
  exact Interval.between_eq_ok_iff.mpr ⟨rfl, rfl⟩

/-- A contiguous run of replacements can be laid over its span. -/
theorem exists_layOut_span (run : Replacement.IsRun replacements)
    (covered : Plan.span replacements = .ok span) :
    ∃ laid, layOut span.start span.stop replacements = .ok laid := by
  rcases run.exists_extent with ⟨first, rest, last, shape, found, nonempty, inside⟩
  rcases exists_span run with ⟨span', first', last', covered', head, found', starts, stops⟩
  cases covered.symm.trans covered'
  cases found.symm.trans found'
  rw [shape] at head
  cases head
  rw [exists_layOut_iff run.ne_nil run.ascends span.start_lt_stop, shape, starts, stops]
  exact inside

/-- A splice taken apart.  What it closes lies between `before` and `after`, and what it inserts
is laid over the span of the replacements, with a remnant on each side. -/
structure Splices (plan : Plan α) (replacements : List (Replacement α)) (span : Interval)
    (before closed after : List (Record α)) (head laid tail : List (Pending α)) : Prop where
  span_eq : Plan.span replacements = .ok span
  early : ∀ r ∈ before, r.version.Before span
  shares : ∀ r ∈ closed, r.version.overlaps span = true
  late : ∀ r ∈ after, span.Before r.version
  head_eq : headRemnant span closed = .ok head
  laid_eq : layOut span.start span.stop replacements = .ok laid
  tail_eq : tailRemnant span closed = .ok tail
  closes_eq : plan.closes = closed.map Record.id
  inserts_eq : plan.inserts = head ++ laid ++ tail

/-- A contiguous run of replacements can be spliced into any slice. -/
theorem exists_splice (run : Replacement.IsRun replacements) (active : List (Record α)) :
    ∃ span head laid tail, Plan.span replacements = .ok span ∧
      headRemnant span (active.filter fun r => r.version.overlaps span) = .ok head ∧
      layOut span.start span.stop replacements = .ok laid ∧
      tailRemnant span (active.filter fun r => r.version.overlaps span) = .ok tail ∧
      splice active replacements =
        .ok ⟨(active.filter fun r => r.version.overlaps span).map Record.id,
          head ++ laid ++ tail⟩ := by
  rcases exists_span run with ⟨span, -, -, covered, -⟩
  rcases exists_layOut_span run covered with ⟨laid, made⟩
  have head : ∃ head, headRemnant span (active.filter fun r => r.version.overlaps span) =
      .ok head := by
    rcases headRemnant_cases span (active.filter fun r => r.version.overlaps span) with
        ⟨none, -⟩ | ⟨r, i, -, -, -, cut⟩
    · exact ⟨_, none⟩
    · exact ⟨_, cut⟩
  have tail : ∃ tail, tailRemnant span (active.filter fun r => r.version.overlaps span) =
      .ok tail := by
    rcases tailRemnant_cases span (active.filter fun r => r.version.overlaps span) with
        ⟨none, -⟩ | ⟨r, i, -, -, -, cut⟩
    · exact ⟨_, none⟩
    · exact ⟨_, cut⟩
  rcases head with ⟨head, headMade⟩
  rcases tail with ⟨tail, tailMade⟩
  refine ⟨span, head, laid, tail, covered, headMade, made, tailMade, ?_⟩
  rw [splice, covered]
  change (headRemnant span _ >>=
    fun before => layOut span.start span.stop replacements >>= fun laid =>
    tailRemnant span _ >>= fun after => _) = _
  rw [headMade, made, tailMade]
  rfl

/-- In a tiling a contiguous run of replacements can be spliced, which exchanges
a part of the slice. -/
theorem exists_splices (run : Replacement.IsRun replacements)
    (tiled : IsTiling (active.map Record.version)) :
    ∃ plan span before closed after head laid tail, splice active replacements = .ok plan ∧
      active = before ++ (closed ++ after) ∧
      plan.Splices replacements span before closed after head laid tail := by
  rcases exists_splice run active with
      ⟨span, head, laid, tail, covered, headMade, made, tailMade, planned⟩
  rcases exists_split_at (List.pairwise_map.mp tiled.pairwise) span with
      ⟨before, after, shape, early, late⟩
  exact ⟨_, span, before, _, after, head, laid, tail, planned, shape,
    ⟨covered, early, fun r member => (List.mem_filter.mp member).2, late, headMade, made,
      tailMade, rfl, rfl⟩⟩

/-! ## Splices over a run of records -/

section Runs

variable (spans : Spans span.start span.stop (closed.map Record.version))

include spans

/-- Records that tile the span leave no remnant. -/
theorem remnants_of_spans :
    headRemnant span closed = .ok [] ∧ tailRemnant span closed = .ok [] := by
  constructor
  · rcases headRemnant_cases span closed with ⟨none, -⟩ | ⟨r, extent, found, starts, stops, -⟩
    · exact none
    · rcases spans.exists_cons with ⟨i, rest, shape, first⟩
      rcases List.head?_eq_some_iff.mp found with ⟨others, rfl⟩
      cases shape
      have early : extent.start < span.start :=
        Boundary.finite_lt_finite.mp (stops ▸ extent.start_lt_stop)
      rw [starts, first] at early
      exact absurd early (lt_irrefl _)
  · rcases tailRemnant_cases span closed with ⟨none, -⟩ | ⟨r, extent, found, starts, stops, -⟩
    · exact none
    · rcases spans.exists_getLast with ⟨i, final, last⟩
      rw [List.getLast?_map, found] at final
      cases final
      have late : span.stop < extent.stop := starts ▸ extent.start_lt_stop
      rw [stops, last] at late
      exact absurd late (lt_irrefl _)

variable (tiled : IsTiling ((before ++ (closed ++ after)).map Record.version))

include tiled

/-- In a tiling the records that tile the span are those that overlap it. -/
theorem filter_overlaps_of_spans :
    (before ++ (closed ++ after)).filter (fun r => r.version.overlaps span) = closed := by
  rcases spans.clear_of_tiling tiled with ⟨clearBefore, clearAfter⟩
  have early : before.filter (fun r => r.version.overlaps span) = [] := by
    refine List.filter_eq_nil_iff.mpr fun r member => ?_
    rw [Interval.Before.not_overlaps (clearBefore r member)]
    exact Bool.false_ne_true
  have late : after.filter (fun r => r.version.overlaps span) = [] := by
    refine List.filter_eq_nil_iff.mpr fun r member => ?_
    rw [Interval.overlaps_comm, Interval.Before.not_overlaps (clearAfter r member)]
    exact Bool.false_ne_true
  have inside : closed.filter (fun r => r.version.overlaps span) = closed := by
    refine List.filter_eq_self.mpr fun r member => Interval.overlaps_iff.mpr ?_
    have within := spans.within r.version (List.mem_map_of_mem member)
    exact ⟨r.version.start_lt_stop.trans_le within.2,
      (Boundary.finite_le_finite.mpr within.1).trans_lt r.version.start_lt_stop⟩
  rw [List.filter_append, List.filter_append, early, inside, late, List.nil_append,
    List.append_nil]

/-- A splice over records that tile its span replaces them by what is laid over it. -/
theorem splice_of_spans (covered : Plan.span replacements = .ok span) :
    splice (before ++ (closed ++ after)) replacements =
      (layOut span.start span.stop replacements).map (Plan.mk (closed.map Record.id)) := by
  rcases remnants_of_spans spans with ⟨head, tail⟩
  rw [splice, covered]
  change (headRemnant span
    ((before ++ (closed ++ after)).filter fun r => r.version.overlaps span) >>= fun head =>
    layOut span.start span.stop replacements >>= fun laid =>
      tailRemnant span ((before ++ (closed ++ after)).filter fun r => r.version.overlaps span) >>=
        fun tail => _) = _
  rw [filter_overlaps_of_spans spans tiled, head]
  change (layOut span.start span.stop replacements >>=
    fun laid => tailRemnant span closed >>= fun tail => _) = _
  rw [tail]
  cases layOut span.start span.stop replacements with
  | ok laid =>
    change Except.ok (Plan.mk (closed.map Record.id) (laid ++ [])) =
      .ok (Plan.mk (closed.map Record.id) laid)
    rw [List.append_nil]
  | error fault => rfl

end Runs

namespace Splices

variable {plan : Plan α}
    (splices : plan.Splices replacements span before closed after head laid tail)

include splices

theorem ne_nil : replacements ≠ [] := by
  rcases span_eq_ok splices.span_eq with ⟨-, -, -, nonempty⟩
  exact nonempty

theorem laid_spans : Spans span.start span.stop (laid.map Pending.version) :=
  layOut_spans splices.ne_nil splices.laid_eq

/-- A record of the slice is closed exactly if it overlaps the span. -/
theorem overlaps_iff {r : Record α} (listed : r ∈ before ++ (closed ++ after)) :
    r.version.overlaps span = true ↔ r ∈ closed := by
  refine ⟨fun shares => ?_, splices.shares r⟩
  rcases List.mem_append.mp listed with early | listed
  · rw [(splices.early r early).not_overlaps] at shares
    cases shares
  · rcases List.mem_append.mp listed with here | late
    · exact here
    · rw [Interval.overlaps_comm, (splices.late r late).not_overlaps] at shares
      cases shares

theorem length_head_le : head.length ≤ 1 := length_headRemnant_le splices.head_eq

theorem length_tail_le : tail.length ≤ 1 := length_tailRemnant_le splices.tail_eq

/-- The exchange of a splice.  With its remnants the run reaches to where the
overlapped records reach. -/
theorem exchanges (tiled : IsTiling ((before ++ (closed ++ after)).map Record.version)) :
    ∃ start stop, plan.Exchanges before closed after start stop ∧
      ((∀ r ∈ closed, start ≤ r.version.start) ∧
        (start = span.start ∨ ∃ r ∈ closed, start = r.version.start)) ∧
      (∀ r ∈ closed, r.version.stop ≤ stop) ∧
      (stop = span.stop ∨ ∃ r ∈ closed, stop = r.version.stop) := by
  have ordered := List.pairwise_append.mp (List.pairwise_map.mp tiled.pairwise)
  have ordered' := List.pairwise_append.mp ordered.2.1
  rcases headRemnant_spans ordered'.1 splices.head_eq splices.laid_spans with
      ⟨start, leftSpans, leftmost, startsAt⟩
  rcases tailRemnant_spans ordered'.1 splices.tail_eq leftSpans with
      ⟨stop, spans, rightmost, stopsAt⟩
  refine ⟨start, stop, ⟨splices.closes_eq, ?_, fun r member => ?_, fun r member => ?_⟩,
    ⟨leftmost, startsAt⟩, rightmost, stopsAt⟩
  · rw [splices.inserts_eq, List.map_append, List.map_append]
    exact spans
  · rcases startsAt with rfl | ⟨first, inside, rfl⟩
    · exact splices.early r member
    · exact ordered.2.2 r member first (List.mem_append_left after inside)
  · rcases stopsAt with rfl | ⟨last, inside, rfl⟩
    · exact splices.late r member
    · exact ordered'.2.2 last inside r member

/-- A splice that overlaps a record fits in: its remnants reach to where its neighbours are. -/
theorem fits_of_overlap (tiled : IsTiling ((before ++ (closed ++ after)).map Record.version))
    (nonempty : closed ≠ []) : IsTiling (plan.exchanged before after) := by
  rcases splices.exchanges tiled with
      ⟨start, stop, exchanges, ⟨leftmost, startsAt⟩, rightmost, stopsAt⟩
  rw [List.map_append, List.map_append] at tiled
  have middle : IsTiling (closed.map Record.version) := tiled.right_of_append.left_of_append
  rcases middle.exists_spans (mt List.map_eq_nil_iff.mp nonempty) with ⟨lo, hi, spans⟩
  rcases spans.tiling_between_iff.mp tiled with ⟨tiledBefore, tiledAfter, leftSeam, rightSeam⟩
  refine exchanges.spans.tiling_between_iff.mpr
    ⟨tiledBefore, tiledAfter, fun i last => ?_, fun j first => ?_⟩
  · have meets := leftSeam i last
    rcases List.mem_map.mp (List.mem_of_getLast? last) with ⟨s, listed, rfl⟩
    have early : lo ≤ span.start :=
      Boundary.finite_le_finite.mp (meets.ge.trans (splices.early s listed))
    have same : lo = start := by
      refine le_antisymm ?_ ?_
      · rcases startsAt with rfl | ⟨c, member, rfl⟩
        · exact early
        · exact (spans.within c.version (List.mem_map_of_mem member)).1
      · rcases spans.exists_start with ⟨k, listed, rfl⟩
        rcases List.mem_map.mp listed with ⟨c, member, rfl⟩
        exact leftmost c member
    rw [meets, same]
  · have meets := rightSeam j first
    rcases List.mem_map.mp (List.mem_of_mem_head? first) with ⟨s, listed, rfl⟩
    have late : span.stop ≤ hi := meets ▸ splices.late s listed
    have same : hi = stop := by
      refine le_antisymm ?_ ?_
      · rcases spans.exists_stop with ⟨k, listed, rfl⟩
        rcases List.mem_map.mp listed with ⟨c, member, rfl⟩
        exact rightmost c member
      · rcases stopsAt with rfl | ⟨c, member, rfl⟩
        · exact late
        · exact (spans.within c.version (List.mem_map_of_mem member)).2
    rw [← same, meets]

/-- What a splice leaves is a tiling exactly if its span overlaps or touches
what the slice covers. -/
theorem fits_iff {start : Instant} {stop : Boundary}
    (spans : Spans start stop ((before ++ (closed ++ after)).map Record.version)) :
    IsTiling (plan.exchanged before after) ↔
      .finite span.start ≤ stop ∧ .finite start ≤ span.stop := by
  by_cases empty : closed = []
  · -- Nothing is overlapped, so all records are on one side of the span, and only the seam there
    -- is in question.
    subst empty
    rcases splices.exchanges spans.tiling with
        ⟨start', stop', exchanges, ⟨-, startsAt⟩, -, stopsAt⟩
    have starts : start' = span.start := by simpa using startsAt
    have stops : stop' = span.stop := by simpa using stopsAt
    have early : ∀ i ∈ before.map Record.version, i.Before span := by
      intro i listed
      rcases List.mem_map.mp listed with ⟨r, member, rfl⟩
      exact splices.early r member
    have late : ∀ j ∈ after.map Record.version, span.Before j := by
      intro j listed
      rcases List.mem_map.mp listed with ⟨r, member, rfl⟩
      exact splices.late r member
    rw [List.nil_append, List.map_append] at spans
    rw [exchanged, exchanges.spans.tiling_between_iff, starts, stops,
      ← spans.meets_iff early late]
    have tiles := List.isChain_append.mp spans.tiling
    exact ⟨fun h => h.2.2, fun meets => ⟨tiles.1, tiles.2.1, meets⟩⟩
  · rcases List.exists_mem_of_ne_nil closed empty with ⟨r, member⟩
    have shares := Interval.overlaps_iff.mp (splices.shares r member)
    have within := spans.within r.version
      (List.mem_map_of_mem (List.mem_append_right _ (List.mem_append_left _ member)))
    have touches : .finite span.start ≤ stop ∧ .finite start ≤ span.stop :=
      ⟨shares.2.le.trans within.2, (Boundary.finite_le_finite.mpr within.1).trans shares.1.le⟩
    exact iff_of_true (splices.fits_of_overlap spans.tiling empty) touches

/-! ## What a splice leaves to be read -/

section Contents

variable (tiled : IsTiling ((before ++ (closed ++ after)).map Record.version))

include tiled

/-- A splice lays its run into the contents of the slice. -/
theorem content_eq : before.map Record.content ++ (plan.inserts ++ after.map Record.content) =
    laidInto span laid ((before ++ (closed ++ after)).map Record.content) := by
  have ordered := (List.pairwise_append.mp (List.pairwise_map.mp tiled.pairwise)).2.1
  have ordered' := (List.pairwise_append.mp ordered).1
  rw [laidInto_between splices.early splices.late, laidInto,
    ← headRemnant_eq_clip ordered' splices.shares splices.head_eq,
    ← tailRemnant_eq_clip ordered' splices.shares splices.tail_eq, splices.inserts_eq,
    List.append_assoc head]

/-- A splice lays its run into the contents of the slice. -/
theorem map_content_eq {inserted : List (Record α)}
    (content : inserted.map Record.content = plan.inserts) :
    (before ++ (inserted ++ after)).map Record.content =
      laidInto span laid ((before ++ (closed ++ after)).map Record.content) := by
  rw [← splices.content_eq tiled, List.map_append, List.map_append, content]

/-- Inside the span a splice leaves the replacement in force. -/
theorem payloadAt?_of_mem (ascends : replacements.Pairwise (·.start < ·.start))
    (inside : t ∈ span) :
    ∃ r, Replacement.inForce? replacements t = some r ∧
      payloadAt? (before.map Record.content ++ (plan.inserts ++ after.map Record.content)) t =
        some r.payload := by
  rcases List.exists_cons_of_ne_nil splices.ne_nil with ⟨first, rest, rfl⟩
  rcases span_eq_ok splices.span_eq with ⟨first', head, starts, -⟩
  cases head
  have made := splices.laid_eq
  rw [starts] at made
  rcases payloadAt?_layOut ascends made (starts ▸ inside.1) inside.2 with ⟨r, found, reads⟩
  refine ⟨r, found, ?_⟩
  rw [splices.content_eq tiled]
  exact payloadAt?_laidInto_of_mem inside reads

/-- Outside the span a splice leaves what was there. -/
theorem payloadAt?_of_not_mem (outside : t ∉ span) :
    payloadAt? (before.map Record.content ++ (plan.inserts ++ after.map Record.content)) t =
      payloadAt? ((before ++ (closed ++ after)).map Record.content) t := by
  have laid : payloadAt? laid t = none :=
    payloadAt?_of_not_covers fun covered => outside (splices.laid_spans.covers_iff.mp covered)
  rw [splices.content_eq tiled]
  exact payloadAt?_laidInto_of_not_mem outside laid

end Contents

end Splices

end Plan

end Bitemporal
