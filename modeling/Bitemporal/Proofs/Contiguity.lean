import Bitemporal.Proofs.Splice

/-!
# Contiguous lists of replacements

`Replacement.validate` looks at neighbours.  What it accepts is a run of version time as a whole:
the starts ascend, and each replacement ends where the next one starts.  What it says of a list
that is none is decided by the first two neighbours that do not follow one another
(`Replacement.FirstBreak`).

Each member of a run is laid out from its own start to where the next one starts
(`Plan.exists_laid`), and no interval on the way is empty.  So a splice of a run cannot fail,
whatever the slice is (`Plan.contiguity_exact`).
-/

namespace Bitemporal

variable {α : Type} {replacements : List (Replacement α)}

namespace Replacement

variable {r next : Replacement α} {index place : Nat} {defect : SequenceDefect}

/-! ## The first break -/

/-- How two neighbours do not follow one another, of which the first has place `index`.  A break
in the order is placed at the second of them, a gap or an overlap at the first. -/
inductive Breaks (r next : Replacement α) (index : Nat) : Nat → SequenceDefect → Prop
  | order : next.start ≤ r.start → Breaks r next index (index + 1) (.notAfter next.start r.start)
  | gap {stop : Instant} : r.start < next.start → r.stop = some stop → stop < next.start →
    Breaks r next index index (.misfit .gap stop next.start)
  | overlap {stop : Instant} : r.start < next.start → r.stop = some stop → next.start < stop →
    Breaks r next index index (.misfit .overlap stop next.start)

/-- The place and the kind of the first break of a list: up to the first of the two
neighbours it is a run. -/
def FirstBreak (replacements : List (Replacement α)) (place : Nat) (defect : SequenceDefect) :
    Prop :=
  ∃ before r next after, replacements = before ++ r :: next :: after ∧
    (before ++ [r]).IsChain Leads ∧ r.Breaks next before.length place defect

/-- What is wrong with a pair of neighbours, and at which place. -/
theorem pairDefect?_eq_some_iff :
    pairDefect? index r next = some (.nonContiguous place defect) ↔
      r.Breaks next index place defect := by
  constructor
  · intro found
    unfold pairDefect? at found
    split at found
    · rename_i early
      cases found
      exact .order early
    · rename_i late
      rw [not_le] at late
      split at found
      · rename_i stop ends
        split at found
        · cases found
        · rename_i misfit
          cases found
          split
          · rename_i early
            exact .gap late ends early
          · rename_i beyond
            exact .overlap late ends (lt_of_le_of_ne (not_lt.mp beyond) (Ne.symm misfit))
      · cases found
  · intro breaks
    unfold pairDefect?
    cases breaks with
    | order early => rw [if_pos early]
    | gap late ends early => simp [late.not_ge, ends, early.ne, early]
    | overlap late ends beyond => simp [late.not_ge, ends, beyond.ne', beyond.not_gt]

/-- Neighbours that do not follow one another break in one of the three ways. -/
theorem exists_breaks (apart : ¬ r.Leads next) (index : Nat) :
    ∃ place defect, pairDefect? index r next = some (.nonContiguous place defect) := by
  cases found : pairDefect? index r next with
  | none => exact absurd (pairDefect?_eq_none_iff.mp found) apart
  | some fault =>
    unfold pairDefect? at found
    split at found
    · cases found
      exact ⟨_, _, rfl⟩
    · split at found
      · split at found
        · cases found
        · cases found
          exact ⟨_, _, rfl⟩
      · cases found

theorem defect?_cons_of_some {fault : Fault} (here : pairDefect? index r next = some fault)
    (rest : List (Replacement α)) : defect? index (r :: next :: rest) = some fault := by
  rw [defect?, here]

theorem defect?_cons_of_leads (leads : r.Leads next) (rest : List (Replacement α)) :
    defect? index (r :: next :: rest) = defect? (index + 1) (next :: rest) := by
  rw [defect?, pairDefect?_eq_none_iff.mpr leads]

/-- The last member of a list breaks with no other. -/
theorem defect?_singleton_ne (last : Replacement α) :
    defect? index [last] ≠ some (.nonContiguous place defect) := by
  unfold defect?
  split
  · split <;> exact nofun
  · exact nofun

/-- In a list whose head has place `index` the first break is found, and
nothing else is placed. -/
theorem defect?_eq_nonContiguous_iff :
    defect? index replacements = some (.nonContiguous place defect) ↔
      ∃ before r next after, replacements = before ++ r :: next :: after ∧
        (before ++ [r]).IsChain Leads ∧ r.Breaks next (index + before.length) place defect := by
  constructor
  · intro found
    induction replacements generalizing index with
    | nil => cases found
    | cons r rest ih =>
      cases rest with
      | nil => exact absurd found (defect?_singleton_ne r)
      | cons next rest =>
        by_cases leads : r.Leads next
        · rw [defect?_cons_of_leads leads] at found
          rcases ih found with ⟨before, r', next', after, shape, chain, breaks⟩
          refine ⟨r :: before, r', next', after, by rw [shape, List.cons_append], ?_, ?_⟩
          · refine List.isChain_cons.mpr ⟨fun s first => ?_, chain⟩
            -- The next member is `next`, whether the break is right behind it or later.
            have same : (before ++ [r']).head? = some next := by
              cases before <;> cases shape <;> rfl
            cases same.symm.trans first
            exact leads
          · rwa [List.length_cons, ← Nat.add_assoc, Nat.add_right_comm]
        · rcases exists_breaks leads index with ⟨place', defect', here⟩
          rw [defect?_cons_of_some here] at found
          cases found
          exact ⟨[], r, next, rest, rfl, List.isChain_singleton r,
            pairDefect?_eq_some_iff.mp here⟩
  · rintro ⟨before, r, next, after, rfl, chain, breaks⟩
    induction before generalizing index with
    | nil => exact defect?_cons_of_some (pairDefect?_eq_some_iff.mpr breaks) after
    | cons s before ih =>
      rcases List.isChain_cons.mp chain with ⟨leads, chain⟩
      rw [List.length_cons, ← Nat.add_assoc, Nat.add_right_comm] at breaks
      have rest := ih chain breaks
      cases before with
      | nil => exact (defect?_cons_of_leads (leads _ rfl) _).trans rest
      | cons s' before => exact (defect?_cons_of_leads (leads _ rfl) _).trans rest

/-- A list that is not too long is refused for its first break, and a place is named
for no other reason. -/
theorem validate_eq_nonContiguous_iff {limit : Nat} :
    validate replacements limit = .error (.nonContiguous place defect) ↔
      replacements.length ≤ limit ∧ FirstBreak replacements place defect := by
  have first : FirstBreak replacements place defect ↔
      defect? 0 replacements = some (.nonContiguous place defect) := by
    rw [defect?_eq_nonContiguous_iff]
    simp only [FirstBreak, Nat.zero_add]
  rw [first]
  unfold validate
  by_cases empty : replacements = []
  · subst empty
    exact iff_of_false nofun (fun h => nomatch h.2)
  · by_cases long : replacements.length > limit
    · simp [empty, long]
    · cases defect? 0 replacements <;> simp [empty, long, Nat.le_of_not_gt long]

/-- A list with neighbours that do not follow one another has a first break. -/
theorem exists_firstBreak (broken : ¬ replacements.IsChain Leads) :
    ∃ place defect, FirstBreak replacements place defect := by
  suffices found : ∀ index,
      ∃ place defect, defect? index replacements = some (.nonContiguous place defect) by
    rcases found 0 with ⟨place, defect, found⟩
    refine ⟨place, defect, ?_⟩
    simpa only [FirstBreak, Nat.zero_add] using defect?_eq_nonContiguous_iff.mp found
  intro index
  induction replacements generalizing index with
  | nil => exact absurd List.isChain_nil broken
  | cons r rest ih =>
    cases rest with
    | nil => exact absurd (List.isChain_singleton r) broken
    | cons next rest =>
      by_cases leads : r.Leads next
      · rw [defect?_cons_of_leads leads]
        exact ih (fun chain => broken (List.isChain_cons_cons.mpr ⟨leads, chain⟩)) (index + 1)
      · rcases exists_breaks leads index with ⟨place, defect, here⟩
        exact ⟨place, defect, defect?_cons_of_some here rest⟩

/-! ## Runs, place by place -/

/-- Each replacement of a list that says where it ends says so of the start of the next one. -/
def EndsMeet (replacements : List (Replacement α)) : Prop :=
  ∀ i r next stop, replacements[i]? = some r → replacements[i + 1]? = some next →
    r.stop = some stop → stop = next.start

/-- Each replacement leads to the next exactly if starts ascend and explicit ends meet. -/
theorem isChain_leads_iff :
    replacements.IsChain Leads ↔ replacements.Pairwise (·.start < ·.start) ∧
      EndsMeet replacements := by
  have starts : replacements.Pairwise (·.start < ·.start) ↔
      replacements.IsChain (·.start < ·.start) := by
    rw [← List.pairwise_map (f := Replacement.start) (R := (· < ·)), ← List.isChain_iff_pairwise,
      List.isChain_map]
  rw [starts, List.isChain_iff_getElem, List.isChain_iff_getElem]
  constructor
  · intro chain
    refine ⟨fun i inside => (chain i inside).1, fun i r next stop here there ends => ?_⟩
    rcases List.getElem?_eq_some_iff.mp here with ⟨_, rfl⟩
    rcases List.getElem?_eq_some_iff.mp there with ⟨inside, rfl⟩
    exact (chain i inside).2 stop ends
  · rintro ⟨ascends, meet⟩ i inside
    refine ⟨ascends i inside, fun stop ends => ?_⟩
    exact meet i _ _ stop (List.getElem?_eq_getElem _) (List.getElem?_eq_getElem inside) ends

/-- The lists that are accepted, in terms of places. -/
theorem isRun_iff :
    IsRun replacements ↔ 1 ≤ replacements.length ∧ replacements.Pairwise (·.start < ·.start) ∧
      EndsMeet replacements ∧
      ∀ last stop, replacements.getLast? = some last → last.stop = some stop →
        last.start < stop := by
  have nonempty : 1 ≤ replacements.length ↔ replacements ≠ [] := by
    rw [Nat.one_le_iff_ne_zero, ne_eq, List.length_eq_zero_iff]
  rw [nonempty, ← and_assoc (a := List.Pairwise _ _), ← isChain_leads_iff]
  constructor
  · intro run
    refine ⟨run.ne_nil, run.chain, fun last stop final => ?_⟩
    exact finite_start_lt_boundary_iff.mp (run.last_nonempty last final) stop
  · rintro ⟨ne_nil, chain, last_nonempty⟩
    exact ⟨ne_nil, chain,
      fun last final => finite_start_lt_boundary_iff.mpr fun stop =>
        last_nonempty last stop final⟩

/-- Where the replacement at a place ends: where the next one starts, or at its own boundary if
there is none. -/
def reach (replacements : List (Replacement α)) (i : Nat) (r : Replacement α) : Boundary :=
  match replacements[i + 1]? with
  | some next => .finite next.start
  | none => r.boundary

end Replacement

/-! ## Runs laid over their own span -/

namespace Plan

open Replacement

variable {span : Interval} {laid : List (Pending α)} {r : Replacement α} {i : Nat}

/-- Each member of a run is laid out once, in its place, from its start to where
the next one starts. -/
theorem exists_laid (run : IsRun replacements) (covered : Plan.span replacements = .ok span)
    (made : layOut span.start span.stop replacements = .ok laid)
    (found : replacements[i]? = some r) :
    ∃ p, laid[i]? = some p ∧ p.payload = r.payload ∧ p.version.start = r.start ∧
      p.version.stop = reach replacements i r := by
  rcases exists_span run with ⟨span', first, last, covered', head, final, starts, stops⟩
  cases covered.symm.trans covered'
  have payloads := congrArg (·[i]?) (layOut_payloads made)
  have starting := congrArg (·[i]?) (layOut_starts run.ne_nil made)
  have ending := congrArg (·[i]?) (layOut_stops run.ne_nil made)
  have own : first.start :: replacements.tail.map Replacement.start =
      replacements.map Replacement.start := by
    rcases List.head?_eq_some_iff.mp head with ⟨rest, rfl⟩
    rfl
  simp only [starts, own, List.getElem?_map, found, Option.map_some, Option.map_eq_some_iff]
    at payloads starting
  rcases payloads with ⟨p, here, payload⟩
  rcases starting with ⟨p', here', start⟩
  cases here.symm.trans here'
  refine ⟨p, here, payload, start, ?_⟩
  simp only [List.getElem?_map, here, Option.map_some] at ending
  rw [reach]
  cases next : replacements[i + 1]? with
  | some next' =>
    -- Another member follows, and the end is its start.
    have later : replacements.tail[i]? = some next' := by rw [List.getElem?_tail, next]
    rw [List.getElem?_append_left, List.getElem?_map, later] at ending
    · exact Option.some.inj ending
    · rw [List.length_map]
      exact (List.getElem?_eq_some_iff.mp later).1
  | none =>
    -- This is the last member, and the end is that of the span.
    have length : replacements.length = i + 1 := by
      have inside := (List.getElem?_eq_some_iff.mp found).1
      have outside := List.getElem?_eq_none_iff.mp next
      omega
    have same : last = r := by
      rw [List.getLast?_eq_getElem?, length, Nat.add_sub_cancel, found] at final
      exact (Option.some.inj final).symm
    have tail : (replacements.tail.map fun next => Boundary.finite next.start).length = i := by
      rw [List.length_map, List.length_tail, length, Nat.add_sub_cancel]
    rw [List.getElem?_append_right tail.le, tail, Nat.sub_self, List.getElem?_cons_zero, stops,
      same] at ending
    exact Option.some.inj ending

/-- The lists that are accepted are the contiguous ones that are not too long: the starts ascend
in the caller's order, an end in the middle is the next start, and an end at last is after the
last start.  A list is refused with a place exactly if some neighbours do not follow one another,
and the place is that of the first such pair.  An accepted list can be spliced into any slice
whatever.  Beside a remnant on each side at most, the plan then inserts the replacements in the
caller's order, each from its start to where the next one starts. -/
theorem contiguity_exact (replacements : List (Replacement α)) (limit : Nat) :
    (validate replacements limit = .ok () ↔
      (1 ≤ replacements.length ∧ replacements.length ≤ limit) ∧
      replacements.Pairwise (·.start < ·.start) ∧
      EndsMeet replacements ∧
      ∀ last stop, replacements.getLast? = some last → last.stop = some stop →
        last.start < stop) ∧
    (∀ place defect, validate replacements limit = .error (.nonContiguous place defect) ↔
      replacements.length ≤ limit ∧ FirstBreak replacements place defect) ∧
    (∀ i r next, replacements[i]? = some r → replacements[i + 1]? = some next → ¬ r.Leads next →
      replacements.length ≤ limit →
      ∃ place defect, validate replacements limit = .error (.nonContiguous place defect)) ∧
    (validate replacements limit = .ok () → ∀ active : List (Record α),
      ∃ plan before laid after, splice active replacements = .ok plan ∧
        plan.inserts = before ++ laid ++ after ∧
        before.length ≤ 1 ∧ after.length ≤ 1 ∧ laid.length = replacements.length ∧
        ∀ i r, replacements[i]? = some r → ∃ p, laid[i]? = some p ∧ p.payload = r.payload ∧
          p.version.start = r.start ∧ p.version.stop = reach replacements i r ∧
          .finite r.start < reach replacements i r) := by
  refine ⟨?_, fun place defect => validate_eq_nonContiguous_iff,
    fun i r next here there apart short => ?_, fun accepted active => ?_⟩
  · rw [validate_eq_ok_iff, isRun_iff, and_right_comm]
  · have broken : ¬ replacements.IsChain Leads := by
      intro chain
      rcases List.getElem?_eq_some_iff.mp here with ⟨_, rfl⟩
      rcases List.getElem?_eq_some_iff.mp there with ⟨inside, rfl⟩
      exact apart (List.isChain_iff_getElem.mp chain i inside)
    rcases exists_firstBreak broken with ⟨place, defect, first⟩
    exact ⟨place, defect, validate_eq_nonContiguous_iff.mpr ⟨short, first⟩⟩
  · have run : IsRun replacements := (validate_eq_ok_iff.mp accepted).1
    rcases exists_splice run active with
        ⟨span, head, laid, tail, covered, headMade, made, tailMade, planned⟩
    refine ⟨_, head, laid, tail, planned, rfl, length_headRemnant_le headMade,
      length_tailRemnant_le tailMade, ?_, fun i r found => ?_⟩
    · have lengths := congrArg List.length (layOut_payloads made)
      rwa [List.length_map, List.length_map] at lengths
    · rcases exists_laid run covered made found with ⟨p, here, payload, starts, stops⟩
      refine ⟨p, here, payload, starts, stops, ?_⟩
      rw [← starts, ← stops]
      exact p.version.start_lt_stop

/-- Two rents are spliced into a slice that is out of order and has a gap. -/
theorem contiguity_exact_rents :
    let flat : ObjectId := ⟨"flat", "2"⟩
    let rents : List (Replacement String) :=
      [⟨"125", ⟨10, by decide⟩, some ⟨15, by decide⟩⟩, ⟨"135", ⟨15, by decide⟩, none⟩]
    let slice : List (Record String) :=
      [⟨flat.atVersion "3", .openFrom ⟨20, by decide⟩, .openFrom ⟨5, by decide⟩, "140"⟩,
        ⟨flat.atVersion "1", ⟨.epoch, .finite ⟨12, by decide⟩, by decide⟩,
          .openFrom ⟨3, by decide⟩, "120"⟩]
    validate rents 2 = .ok () ∧
      reach rents 0 ⟨"125", ⟨10, by decide⟩, some ⟨15, by decide⟩⟩ = .finite ⟨15, by decide⟩ ∧
      ∃ plan before laid after, splice slice rents = .ok plan ∧
        plan.inserts = before ++ laid ++ after ∧
        ∃ p, laid[1]? = some p ∧ p.payload = "135" ∧ p.version.start = ⟨15, by decide⟩ ∧
          p.version.stop = .unbounded := by
  intro flat rents slice
  have valid : validate rents 2 = .ok () := by decide
  rcases contiguity_exact rents 2 with ⟨-, -, -, spliced⟩
  rcases spliced valid slice with ⟨plan, before, laid, after, planned, inserts, -, -, -, members⟩
  rcases members 1 ⟨"135", ⟨15, by decide⟩, none⟩ rfl with ⟨p, here, payload, starts, stops, -⟩
  exact ⟨valid, rfl, plan, before, laid, after, planned, inserts, p, here, payload, starts, stops⟩

end Plan

end Bitemporal
