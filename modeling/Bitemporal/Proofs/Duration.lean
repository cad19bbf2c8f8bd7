import Bitemporal.Duration
import Bitemporal.Proofs.Order

/-!
# Sums and differences of instants and durations

A sum should stop at the last instant and a difference at the epoch, however long the duration is.
They do for every duration whose whole microseconds fit in 64 bits, and the time between two
instants is always one of these, so it leads from the one to the other (`Instant.add_of_since?`,
`Instant.sub_of_since?`).  Of a longer duration only the low 64 bits are read.
`Instant.saturates_iff` says for which of them sum and difference are right all the same.
-/

namespace Bitemporal

namespace Duration

variable {d e : Duration}

/-- Durations are ordered by their seconds, and by their fraction within a second. -/
instance : LE Duration :=
  ⟨fun d e => d.seconds < e.seconds ∨ d.seconds = e.seconds ∧ d.nanos ≤ e.nanos⟩

theorem le_iff : d ≤ e ↔ d.seconds < e.seconds ∨ d.seconds = e.seconds ∧ d.nanos ≤ e.nanos :=
  Iff.rfl

/-- A longer duration has at least as many microseconds. -/
theorem wholeMicros_le (le : d ≤ e) : d.wholeMicros ≤ e.wholeMicros := by
  have fraction : d.nanos / 1000 < 1000000 := by
    have := d.nanos_lt
    omega
  unfold wholeMicros
  rcases le_iff.mp le with shorter | ⟨same, shorter⟩
  · omega
  · have order : d.nanos / 1000 ≤ e.nanos / 1000 := Nat.div_le_div_right shorter
    omega

/-- A duration of at most 64 bits of microseconds is read as a whole. -/
theorem wordMicros_eq (fits : d.wholeMicros ≤ Instant.maxMicros) : d.wordMicros = d.wholeMicros :=
  Nat.mod_eq_of_lt (Nat.lt_succ_of_le fits)

end Duration

namespace Instant

variable {a b : Instant} {d e : Duration}

/-- Adding a duration stops at the last instant. -/
theorem micros_add (a : Instant) (d : Duration) :
    (a.add d).micros = min (a.micros + d.wordMicros) maxMicros := rfl

theorem micros_sub (a : Instant) (d : Duration) : (a.sub d).micros = a.micros - d.wordMicros :=
  rfl

/-! ## Durations that fit -/

/-- Adding more leads further, as long as the duration fits in 64 bits. -/
theorem add_le_add (le : d ≤ e) (fits : e.wholeMicros ≤ maxMicros) : a.add d ≤ a.add e := by
  have order := Duration.wholeMicros_le le
  rw [le_iff, micros_add, micros_add, Duration.wordMicros_eq fits,
    Duration.wordMicros_eq (order.trans fits)]
  omega

theorem sub_le_sub (le : d ≤ e) (fits : e.wholeMicros ≤ maxMicros) : a.sub e ≤ a.sub d := by
  have order := Duration.wholeMicros_le le
  rw [le_iff, micros_sub, micros_sub, Duration.wordMicros_eq fits,
    Duration.wordMicros_eq (order.trans fits)]
  omega

/-- The time between two instants has as many whole microseconds as lie between them. -/
theorem wholeMicros_of_since? (since : a.since? b = some d) :
    b ≤ a ∧ d.wholeMicros = a.micros - b.micros := by
  unfold since? at since
  split at since
  · rename_i order
    cases since
    refine ⟨order, ?_⟩
    dsimp only [Duration.wholeMicros]
    omega
  · cases since

theorem wordMicros_of_since? (since : a.since? b = some d) :
    b ≤ a ∧ d.wordMicros = a.micros - b.micros := by
  obtain ⟨order, whole⟩ := wholeMicros_of_since? since
  have fits : d.wholeMicros ≤ maxMicros := whole ▸ (Nat.sub_le _ _).trans a.micros_le
  exact ⟨order, (Duration.wordMicros_eq fits).trans whole⟩

/-- An instant is an earlier one with the duration since then added. -/
theorem add_of_since? (since : a.since? b = some d) : b.add d = a := by
  obtain ⟨order, word⟩ := wordMicros_of_since? since
  have bound : a.micros ≤ maxMicros := a.micros_le
  rw [le_iff] at order
  rw [Instant.ext_iff, micros_add, word, Nat.add_sub_of_le order, min_eq_left bound]

/-- An instant is a later one with the duration up to then taken away. -/
theorem sub_of_since? (since : a.since? b = some d) : a.sub d = b := by
  obtain ⟨order, word⟩ := wordMicros_of_since? since
  rw [le_iff] at order
  rw [Instant.ext_iff, micros_sub, word, Nat.sub_sub_self order]

/-! ## Durations of any length -/

/-- A duration that does not fit should lead to the last instant; it does if its low
64 bits lead there. -/
theorem micros_add_eq_iff : (a.add d).micros = min (a.micros + d.wholeMicros) maxMicros ↔
    d.wholeMicros ≤ maxMicros ∨ maxMicros ≤ a.micros + d.wordMicros := by
  rw [micros_add]
  by_cases fits : d.wholeMicros ≤ maxMicros
  · rw [Duration.wordMicros_eq fits]
    exact iff_of_true rfl (.inl fits)
  · omega

/-- A duration that does not fit should lead to the epoch; it does if its low
64 bits lead there. -/
theorem micros_sub_eq_iff : ((a.sub d).micros : Int) = max (a.micros - d.wholeMicros) 0 ↔
    d.wholeMicros ≤ maxMicros ∨ a.micros ≤ d.wordMicros := by
  have bound : a.micros ≤ maxMicros := a.micros_le
  rw [micros_sub]
  by_cases fits : d.wholeMicros ≤ maxMicros
  · rw [Duration.wordMicros_eq fits]
    omega
  · omega

/-- The sum of an instant and a duration is the instant so much later, or the last one, and the
difference the instant so much earlier, or the epoch, exactly if the whole microseconds of the
duration fit in 64 bits or their low 64 bits lead beyond the range too.  Up to there both follow
the order of durations.  The time between two instants, whichever they are, leads from the earlier
to the later and back. -/
theorem saturates_iff (a : Instant) (d : Duration) :
    ((a.add d).micros = min (a.micros + d.wholeMicros) maxMicros ↔
      d.wholeMicros ≤ maxMicros ∨ maxMicros ≤ a.micros + d.wordMicros) ∧
    (((a.sub d).micros : Int) = max (a.micros - d.wholeMicros) 0 ↔
      d.wholeMicros ≤ maxMicros ∨ a.micros ≤ d.wordMicros) ∧
    (∀ e : Duration, d ≤ e → e.wholeMicros ≤ maxMicros → a.add d ≤ a.add e ∧ a.sub e ≤ a.sub d) ∧
    ∀ b : Instant, a.since? b = some d → b.add d = a ∧ a.sub d = b :=
  ⟨micros_add_eq_iff, micros_sub_eq_iff,
    fun _ le fits => ⟨add_le_add le fits, sub_le_sub le fits⟩,
    fun _ since => ⟨add_of_since? since, sub_of_since? since⟩⟩

/-- The least number of seconds that no instant holds moves an instant by less than half a second,
and so by less than one second fewer does. -/
theorem moves_little_beyond_word :
    let d : Duration := ⟨18446744073710, 0, by decide, by decide⟩
    let e : Duration := ⟨18446744073709, 0, by decide, by decide⟩
    (epoch.add d).micros = 448384 ∧ min (epoch.micros + d.wholeMicros) maxMicros = maxMicros ∧
      ((ofSeconds 1).sub d).micros = 551616 ∧
      max (((ofSeconds 1).micros : Int) - d.wholeMicros) 0 = 0 ∧
      e ≤ d ∧ epoch.add d < epoch.add e ∧ (ofSeconds 1).sub e < (ofSeconds 1).sub d := by
  refine ⟨by decide, by decide, by decide, by decide, ?_, by decide, by decide⟩
  rw [Duration.le_iff]
  decide

end Instant

end Bitemporal
