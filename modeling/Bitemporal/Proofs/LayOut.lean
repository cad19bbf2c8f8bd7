import Bitemporal.Proofs.Exchange
import Bitemporal.Proofs.Replacement

/-!
# Replacements laid end to end

`Plan.layOut` lays replacements over a range.  Each gets its payload, and each but the first its
own start (`Plan.layOut_payloads`, `Plan.layOut_starts`, `Plan.layOut_stops`), so the first starts
with the range and the last ends with it.  The range may be another one than the replacements were
made for.  Then what can go wrong is that some later one starts outside of it
(`Plan.exists_layOut_iff`), and nothing else (`Plan.layOut_eq_error`).

Over their own range replacements read at each instant as the one in force
(`Plan.payloadAt?_layOut`).  `LaidOver` is the outcome in terms of the records that are made of
it.
-/

namespace Bitemporal.Plan

variable {α : Type} {start t : Instant} {stop : Boundary} {replacements : List (Replacement α)}
  {laid : List (Pending α)} {fault : Fault}

/-- Of two replacements or more the first runs up to the second, and the others are
laid out from there. -/
theorem layOut_cons_cons_eq_ok_iff {r next : Replacement α} {rest : List (Replacement α)} :
    layOut start stop (r :: next :: rest) = .ok laid ↔
      ∃ extent others, extent.start = start ∧ extent.stop = .finite next.start ∧
        layOut next.start stop (next :: rest) = .ok others ∧
        laid = ⟨extent, r.payload⟩ :: others := by
  constructor
  · intro made
    rcases Program.exists_of_bind_eq_ok made with ⟨extent, between, made⟩
    rcases Program.exists_of_bind_eq_ok made with ⟨others, later, done⟩
    rcases Interval.between_eq_ok_iff.mp between with ⟨starts, stops⟩
    cases done
    exact ⟨extent, others, starts, stops, later, rfl⟩
  · intro h
    rcases h with ⟨extent, others, starts, stops, later, rfl⟩
    have between := Interval.between_eq_ok_iff.mpr ⟨starts, stops⟩
    rw [layOut, between, later]
    rfl

theorem layOut_singleton_eq_ok_iff {last : Replacement α} :
    layOut start stop [last] = .ok laid ↔
      ∃ extent : Interval, extent.start = start ∧ extent.stop = stop ∧
        laid = [⟨extent, last.payload⟩] := by
  constructor
  · intro made
    rcases Program.exists_of_bind_eq_ok made with ⟨extent, between, done⟩
    rcases Interval.between_eq_ok_iff.mp between with ⟨starts, stops⟩
    cases done
    exact ⟨extent, starts, stops, rfl⟩
  · intro h
    rcases h with ⟨extent, starts, stops, rfl⟩
    rw [layOut, Interval.between_eq_ok_iff.mpr ⟨starts, stops⟩]
    rfl

/-- Ascending replacements can be laid over a range exactly if all but the first start strictly
inside of it. -/
theorem exists_layOut_iff (nonempty : replacements ≠ [])
    (ascends : replacements.Pairwise (·.start < ·.start)) (room : .finite start < stop) :
    (∃ laid, layOut start stop replacements = .ok laid) ↔
      ∀ r ∈ replacements.tail, start < r.start ∧ .finite r.start < stop := by
  induction replacements generalizing start with
  | nil => exact absurd rfl nonempty
  | cons r rest ih =>
    cases rest with
    | nil =>
      exact ⟨fun _ => nofun,
        fun _ => ⟨_, layOut_singleton_eq_ok_iff.mpr ⟨⟨start, stop, room⟩, rfl, rfl, rfl⟩⟩⟩
    | cons next rest =>
      rcases List.pairwise_cons.mp ascends with ⟨-, ascends⟩
      constructor
      · intro h
        rcases h with ⟨laid, made⟩
        rcases layOut_cons_cons_eq_ok_iff.mp made with ⟨extent, others, rfl, stops, later, -⟩
        have first : extent.start < next.start :=
          Boundary.finite_lt_finite.mp (stops ▸ extent.start_lt_stop)
        have room' := (layOut_spans (List.cons_ne_nil next rest) later).start_lt_stop
        have inside := (ih (List.cons_ne_nil next rest) ascends room').mp ⟨others, later⟩
        intro s member
        rcases List.mem_cons.mp member with rfl | member
        · exact ⟨first, room'⟩
        · exact ⟨first.trans (inside s member).1, (inside s member).2⟩
      · intro inside
        rcases inside next List.mem_cons_self with ⟨first, room'⟩
        have inside' : ∀ s ∈ rest, next.start < s.start ∧ .finite s.start < stop :=
          fun s member =>
          ⟨List.rel_of_pairwise_cons ascends member,
            (inside s (List.mem_cons_of_mem next member)).2⟩
        rcases (ih (List.cons_ne_nil next rest) ascends room').mpr inside' with ⟨others, later⟩
        exact ⟨_, layOut_cons_cons_eq_ok_iff.mpr
          ⟨⟨start, .finite next.start, first⟩, others, rfl, rfl, later, rfl⟩⟩

/-- Replacements that do not fit would leave one of them empty. -/
theorem layOut_eq_error (failed : layOut start stop replacements = .error fault) :
    ∃ a b, fault = .invalidInterval a b := by
  have between {a : Instant} {b : Boundary} (refused : Interval.between a b = .error fault) :
      ∃ a b, fault = .invalidInterval a b := ⟨a, b, (Interval.between_eq_error_iff.mp refused).2⟩
  induction replacements generalizing start with
  | nil => cases failed
  | cons r rest ih =>
    cases rest with
    | nil =>
      rcases Program.error_of_bind_eq_error failed with refused | ⟨extent, -, refused⟩
      · exact between refused
      · cases refused
    | cons next rest =>
      rcases Program.error_of_bind_eq_error failed with refused | ⟨extent, -, failed⟩
      · exact between refused
      · rcases Program.error_of_bind_eq_error failed with later | ⟨others, -, refused⟩
        · exact ih later
        · cases refused

/-- What is laid out says what the replacements say, in order. -/
theorem layOut_payloads (made : layOut start stop replacements = .ok laid) :
    laid.map Pending.payload = replacements.map Replacement.payload := by
  induction replacements generalizing start laid with
  | nil =>
    cases made
    rfl
  | cons r rest ih =>
    cases rest with
    | nil =>
      rcases layOut_singleton_eq_ok_iff.mp made with ⟨extent, -, -, rfl⟩
      rfl
    | cons next rest =>
      rcases layOut_cons_cons_eq_ok_iff.mp made with ⟨extent, others, -, -, later, rfl⟩
      rw [List.map_cons, ih later]
      rfl

/-- What is laid out starts with the range, and then where the replacements start. -/
theorem layOut_starts (nonempty : replacements ≠ [])
    (made : layOut start stop replacements = .ok laid) :
    laid.map (·.version.start) = start :: replacements.tail.map Replacement.start := by
  induction replacements generalizing start laid with
  | nil => exact absurd rfl nonempty
  | cons r rest ih =>
    cases rest with
    | nil =>
      rcases layOut_singleton_eq_ok_iff.mp made with ⟨extent, rfl, -, rfl⟩
      rfl
    | cons next rest =>
      rcases layOut_cons_cons_eq_ok_iff.mp made with ⟨extent, others, rfl, -, later, rfl⟩
      rw [List.map_cons, ih (List.cons_ne_nil next rest) later]
      rfl

/-- What is laid out ends where the next replacement starts, and at the end
of the range at last. -/
theorem layOut_stops (nonempty : replacements ≠ [])
    (made : layOut start stop replacements = .ok laid) :
    laid.map (·.version.stop) = replacements.tail.map (fun next => .finite next.start) ++
      [stop] := by
  induction replacements generalizing start laid with
  | nil => exact absurd rfl nonempty
  | cons r rest ih =>
    cases rest with
    | nil =>
      rcases layOut_singleton_eq_ok_iff.mp made with ⟨extent, -, rfl, rfl⟩
      rfl
    | cons next rest =>
      rcases layOut_cons_cons_eq_ok_iff.mp made with ⟨extent, others, -, ends, later, rfl⟩
      rw [List.map_cons, ih (List.cons_ne_nil next rest) later, ends]
      rfl

/-- At each instant of their own range replacements read as the one that is in force. -/
theorem payloadAt?_layOut {first : Replacement α} {rest : List (Replacement α)}
    (ascends : (first :: rest).Pairwise (·.start < ·.start))
    (made : layOut first.start stop (first :: rest) = .ok laid) (started : first.start ≤ t)
    (early : .finite t < stop) :
    ∃ r, Replacement.inForce? (first :: rest) t = some r ∧
      payloadAt? laid t = some r.payload := by
  induction rest generalizing first laid with
  | nil =>
    rcases layOut_singleton_eq_ok_iff.mp made with ⟨extent, starts, stops, rfl⟩
    have holds : t ∈ extent := by
      rw [Interval.mem_iff, starts, stops]
      exact ⟨started, early⟩
    refine ⟨first, Replacement.inForce?_cons_of_lt started nofun, ?_⟩
    rw [payloadAt?_singleton, if_pos holds]
  | cons next rest ih =>
    rcases layOut_cons_cons_eq_ok_iff.mp made with ⟨extent, others, starts, stops, later, rfl⟩
    rcases List.pairwise_cons.mp ascends with ⟨before, ascends⟩
    rw [payloadAt?_cons, payloadAt?_singleton]
    rcases lt_or_ge t next.start with first' | second
    · have holds : t ∈ extent := by
        rw [Interval.mem_iff, starts, stops]
        exact ⟨started, first'⟩
      have waiting : ∀ r ∈ next :: rest, t < r.start := by
        intro r member
        rcases List.mem_cons.mp member with rfl | member
        · exact first'
        · exact first'.trans (List.rel_of_pairwise_cons ascends member)
      rw [if_pos holds]
      exact ⟨first, Replacement.inForce?_cons_of_lt started waiting, rfl⟩
    · have beyond : t ∉ extent := fun holds =>
        absurd (stops ▸ holds.2 : Boundary.finite t < .finite next.start) second.not_gt
      rcases ih ascends later second with ⟨r, found, reads⟩
      rw [if_neg beyond, Option.none_or]
      exact ⟨r, Replacement.inForce?_cons_of_some found, reads⟩

end Bitemporal.Plan

namespace Bitemporal

variable {α : Type}

/-- Records are replacements laid over a range, one for each and in their order.  The first starts
with the range, the last ends with it, and all others start where they ask to. -/
structure LaidOver (replacements : List (Replacement α)) (start : Instant) (stop : Boundary)
    (laid : List (Record α)) : Prop where
  spans : Spans start stop (laid.map Record.version)
  payloads_eq : laid.map Record.payload = replacements.map Replacement.payload
  starts_eq : laid.map (·.version.start) = start :: replacements.tail.map Replacement.start

theorem Plan.laidOver {replacements : List (Replacement α)} {start : Instant} {stop : Boundary}
    {pendings : List (Pending α)} {laid : List (Record α)} (nonempty : replacements ≠ [])
    (made : layOut start stop replacements = .ok pendings)
    (content : laid.map Record.content = pendings) : LaidOver replacements start stop laid where
  spans := by
    rw [← map_version_content, content]
    exact layOut_spans nonempty made
  payloads_eq := by
    rw [← map_payload_content, content]
    exact layOut_payloads made
  starts_eq := by
    rw [← layOut_starts nonempty made, ← content, List.map_map]
    rfl

end Bitemporal
