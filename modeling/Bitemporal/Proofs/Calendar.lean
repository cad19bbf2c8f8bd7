import Bitemporal.Calendar
import Mathlib.Order.Monotone.Basic
import Mathlib.Tactic.IntervalCases

/-!
# Dates are those of the Gregorian calendar

`Date.ofEpochDay` finds a date by divisions.  The calendar itself is a rule for the next day
(`Date.next`): a month has as many days as `Date.daysInMonth` says, and a year twelve months.  The
two agree (`Date.ofEpochDay_eq`): the date of a day is reached from 1970-01-01 by taking the next
day so many times.  Dates only grow on the way, so no two days have the same date
(`Date.ofEpochDay_injective`).

The proof counts as the divisions do, in eras of 400 years that start in March.  Each day has one
place in such an era (`Date.Placed`), from which its date is read off, and the place moves on with
the day.
-/

namespace Bitemporal.Date

variable {days era year month day : Nat}

/-- The day after a date. -/
def next (d : Date) : Date :=
  if d.day < daysInMonth d.year d.month then ⟨d.year, d.month, d.day + 1⟩
  else if d.month < 12 then ⟨d.year, d.month + 1, 1⟩
  else ⟨d.year + 1, 1, 1⟩

/-! ## Years that start in March -/

/-- The date of the day `day`, from 0, of the month `month`, from March as month 0, of the year
that starts in March of `year`. -/
def ofMarch (year month day : Nat) : Date :=
  { year := if month < 10 then year else year + 1
    month := if month < 10 then month + 3 else month - 9
    day := day + 1 }

/-- The length of a month of the year that starts in March of `year`.  Its
last month is February. -/
def marchMonthLength (year month : Nat) : Nat :=
  if month = 11 then daysInMonth (year + 1) 2
    else daysBeforeMarchMonth (month + 1) - daysBeforeMarchMonth month

/-- The months have the same lengths whether years start in January or in March. -/
theorem daysInMonth_ofMarch (inYear : month < 12) :
    daysInMonth (ofMarch year month day).year (ofMarch year month day).month =
      marchMonthLength year month := by
  interval_cases month <;> rfl

/-- The day after one within a month is in the same month. -/
theorem next_ofMarch_day (inYear : month < 12) (inMonth : day + 1 < marchMonthLength year month) :
    (ofMarch year month day).next = ofMarch year month (day + 1) := by
  rw [next, daysInMonth_ofMarch inYear]
  exact if_pos inMonth

/-- After the last day of a month comes the first of the next. -/
theorem next_ofMarch_month (inYear : month < 11) (last : day + 1 = marchMonthLength year month) :
    (ofMarch year month day).next = ofMarch year (month + 1) 0 := by
  have full : ¬ (ofMarch year month day).day < marchMonthLength year month := by
    rw [← last]
    exact lt_irrefl _
  rw [next, daysInMonth_ofMarch (by omega), if_neg full]
  interval_cases month <;> rfl

/-- After the last day of February comes the first of March. -/
theorem next_ofMarch_year (last : day + 1 = marchMonthLength year 11) :
    (ofMarch year 11 day).next = ofMarch (year + 1) 0 0 := by
  have full : ¬ (ofMarch year 11 day).day < marchMonthLength year 11 := by
    rw [← last]
    exact lt_irrefl _
  rw [next, daysInMonth_ofMarch (by omega), if_neg full]
  rfl

/-- A month starts when the month before it is over. -/
theorem daysBeforeMarchMonth_succ (year : Nat) (inYear : month < 11) :
    daysBeforeMarchMonth (month + 1) = daysBeforeMarchMonth month +
      marchMonthLength year month := by
  rw [marchMonthLength, if_neg (by omega)]
  unfold daysBeforeMarchMonth
  omega

/-- The leap day comes last in its year, so February alone depends on the year. -/
theorem marchMonthLength_february (year : Nat) :
    marchMonthLength year 11 =
      if (year + 1) % 4 = 0 ∧ ((year + 1) % 100 ≠ 0 ∨ (year + 1) % 400 = 0) then 29 else 28 := rfl

theorem marchMonthLength_mem (year month : Nat) :
    0 < marchMonthLength year month ∧ marchMonthLength year month ≤ 31 := by
  by_cases february : month = 11
  · rw [february, marchMonthLength_february]
    split <;> omega
  · rw [marchMonthLength, if_neg february]
    unfold daysBeforeMarchMonth
    omega

/-- The lengths of months repeat every 400 years. -/
theorem marchMonthLength_era (era year month : Nat) :
    marchMonthLength (400 * era + year) month = marchMonthLength year month := by
  have quarter : (400 * era + year + 1) % 4 = (year + 1) % 4 := by omega
  have century : (400 * era + year + 1) % 100 = (year + 1) % 100 := by omega
  have whole : (400 * era + year + 1) % 400 = (year + 1) % 400 := by omega
  by_cases february : month = 11
  · rw [february, marchMonthLength_february, marchMonthLength_february, quarter, century, whole]
  · rw [marchMonthLength, marchMonthLength, if_neg february, if_neg february]

/-- The month of a day is found from any day of it. -/
theorem marchMonthOfDay_eq (inMonth : day < marchMonthLength year month) :
    marchMonthOfDay (daysBeforeMarchMonth month + day) = month := by
  by_cases february : month = 11
  · rw [february, marchMonthLength_february] at inMonth
    rw [february]
    unfold marchMonthOfDay daysBeforeMarchMonth
    split at inMonth <;> omega
  · rw [marchMonthLength, if_neg february] at inMonth
    unfold marchMonthOfDay daysBeforeMarchMonth at *
    omega

/-! ## Eras of 400 years -/

/-- Within an era each century has 36524 days, and each four years of a century have 1461.  Only a
leap day makes a century or four years longer, as the last day of them. -/
theorem marchYearOfEra_parts {century quarter rest : Nat} (inEra : century < 4)
    (inCentury : quarter < 25) (inQuarter : rest < 4)
    (inYear : day < 365 ∨ day = 365 ∧ rest = 3 ∧ (quarter < 24 ∨ century = 3)) :
    marchYearOfEra (36524 * century + 1461 * quarter + 365 * rest + day) = 100 * century +
      4 * quarter + rest := by
  unfold marchYearOfEra
  generalize shape : 36524 * century + 1461 * quarter + 365 * rest + day = n
  have eras : n / 146096 = 0 ∧ n < 146096 ∨
      n / 146096 = 1 ∧ n = 146096 ∧ century = 3 ∧ quarter = 24 ∧ rest = 3 ∧ day = 365 := by omega
  have centuries : n / 36524 = century ∧ n < 146096 ∨ n / 36524 = 4 ∧ n = 146096 := by omega
  have quarters : n / 1460 = 25 * century + quarter ∧ day < 365 ∨
      n / 1460 = 25 * century + quarter + 1 ∧ 0 < day := by omega
  omega

/-- The year of a day is found from any day of it. -/
theorem marchYearOfEra_eq (inEra : year < 400) (inYear : day < 337 + marchMonthLength year 11) :
    marchYearOfEra (daysBeforeMarchYear year + day) = year := by
  have parts : year = 100 * (year / 100) + 4 * (year % 100 / 4) + year % 4 := by omega
  have before : daysBeforeMarchYear year = 36524 * (year / 100) + 1461 * (year % 100 / 4) +
      365 * (year % 4) := by
    unfold daysBeforeMarchYear
    omega
  have ends : day < 365 ∨ day = 365 ∧ year % 4 = 3 ∧ (year % 100 / 4 < 24 ∨ year / 100 = 3) := by
    rw [marchMonthLength_february] at inYear
    split at inYear <;> omega
  rw [before, marchYearOfEra_parts (by omega) (by omega) (by omega) ends, ← parts]

/-- A year starts when the year before it is over. -/
theorem daysBeforeMarchYear_succ (inEra : year < 399) :
    daysBeforeMarchYear (year + 1) = daysBeforeMarchYear year +
      (337 + marchMonthLength year 11) := by
  rw [marchMonthLength_february]
  unfold daysBeforeMarchYear
  split <;> omega

/-! ## Places in the calendar -/

/-- The place of the day `days` after 1970-01-01: its era, its year in the era, its month in the
year and its day in the month, where eras and years start in March. -/
structure Placed (days era year month day : Nat) : Prop where
  shifted_eq : days + 719468 = 146097 * era +
    (daysBeforeMarchYear year + (daysBeforeMarchMonth month + day))
  year_lt : year < 400
  month_lt : month < 12
  day_lt : day < marchMonthLength year month

namespace Placed

theorem dayOfYear_lt (placed : Placed days era year month day) :
    daysBeforeMarchMonth month + day < 337 + marchMonthLength year 11 := by
  have inYear := placed.month_lt
  have inMonth := placed.day_lt
  by_cases february : month = 11
  · subst february
    have before : daysBeforeMarchMonth 11 = 337 := rfl
    omega
  · have upTo := daysBeforeMarchMonth_succ year (show month < 11 by omega)
    unfold daysBeforeMarchMonth at *
    omega

theorem dayOfEra_lt (placed : Placed days era year month day) :
    daysBeforeMarchYear year + (daysBeforeMarchMonth month + day) < 146097 := by
  have inYear := placed.dayOfYear_lt
  have inEra := placed.year_lt
  rw [marchMonthLength_february] at inYear
  unfold daysBeforeMarchYear
  split at inYear <;> omega

/-- The date of a day is read off its place. -/
theorem ofEpochDay_eq (placed : Placed days era year month day) :
    ofEpochDay days = ofMarch (400 * era + year) month day := by
  have within := placed.dayOfEra_lt
  have eras : (days + 719468) / 146097 = era := by
    rw [placed.shifted_eq]
    omega
  have dayOfEra : (days + 719468) % 146097 = daysBeforeMarchYear year +
      (daysBeforeMarchMonth month + day) := by
    rw [placed.shifted_eq]
    omega
  have year := marchYearOfEra_eq placed.year_lt placed.dayOfYear_lt
  have month := marchMonthOfDay_eq placed.day_lt
  unfold ofEpochDay
  simp only [eras, dayOfEra, year, month, Nat.add_sub_cancel_left]
  rfl

/-- The place moves on with the day: to the next day of the month, or the next month, or the next
year, which may be in the next era. -/
theorem exists_succ (placed : Placed days era year month day) :
    ∃ era' year' month' day', Placed (days + 1) era' year' month' day' ∧
      (ofMarch (400 * era + year) month day).next = ofMarch (400 * era' + year') month' day' := by
  obtain ⟨shifted, inEra, inYear, inMonth⟩ := placed
  by_cases sameMonth : day + 1 < marchMonthLength year month
  · refine ⟨era, year, month, day + 1, ⟨by omega, inEra, inYear, sameMonth⟩,
      next_ofMarch_day inYear ?_⟩
    rwa [marchMonthLength_era]
  · have last : day + 1 = marchMonthLength year month := by omega
    have last' : day + 1 = marchMonthLength (400 * era + year) month := by
      rwa [marchMonthLength_era]
    by_cases sameYear : month < 11
    · have upTo := daysBeforeMarchMonth_succ year sameYear
      have nonempty := (marchMonthLength_mem year (month + 1)).1
      exact ⟨era, year, month + 1, 0, ⟨by omega, inEra, by omega, nonempty⟩,
        next_ofMarch_month sameYear last'⟩
    · obtain rfl : month = 11 := by omega
      have before : daysBeforeMarchMonth 11 = 337 := rfl
      have start : daysBeforeMarchMonth 0 = 0 := rfl
      by_cases sameEra : year < 399
      · have upTo := daysBeforeMarchYear_succ sameEra
        have nonempty := (marchMonthLength_mem (year + 1) 0).1
        exact ⟨era, year + 1, 0, 0, ⟨by omega, by omega, by decide, nonempty⟩,
          next_ofMarch_year last'⟩
      · obtain rfl : year = 399 := by omega
        have length : marchMonthLength 399 11 = 29 := rfl
        have upTo : daysBeforeMarchYear 399 = 145731 := rfl
        have first : daysBeforeMarchYear 0 = 0 := rfl
        exact ⟨era + 1, 0, 0, 0, ⟨by omega, by decide, by decide, by decide⟩,
          next_ofMarch_year last'⟩

end Placed

/-- 1970-01-01 is the first day of the eleventh month of its year. -/
theorem exists_placed (days : Nat) : ∃ era year month day, Placed days era year month day := by
  induction days with
  | zero => exact ⟨4, 369, 10, 0, rfl, by decide, by decide, by decide⟩
  | succ days ih =>
    obtain ⟨era, year, month, day, placed⟩ := ih
    obtain ⟨era', year', month', day', placed', -⟩ := placed.exists_succ
    exact ⟨era', year', month', day', placed'⟩

/-! ## Dates -/

/-- The date of a day is the date after that of the day before. -/
theorem ofEpochDay_succ (days : Nat) : ofEpochDay (days + 1) = (ofEpochDay days).next := by
  obtain ⟨era, year, month, day, placed⟩ := exists_placed days
  obtain ⟨era', year', month', day', placed', moved⟩ := placed.exists_succ
  rw [placed.ofEpochDay_eq, placed'.ofEpochDay_eq, moved]

/-- The date of a day is that many days after 1970-01-01. -/
theorem ofEpochDay_eq (days : Nat) : ofEpochDay days = next^[days] ⟨1970, 1, 1⟩ := by
  induction days with
  | zero => rfl
  | succ days ih => rw [ofEpochDay_succ, ih, Function.iterate_succ_apply']

/-- A number that grows with the date: it counts months as if each had 31 days. -/
def rank (d : Date) : Nat := 31 * (12 * d.year + d.month) + d.day

/-- Dates ascend from day to day. -/
theorem rank_lt_next {d : Date} (inYear : d.month ≤ 12) (inMonth : d.day ≤ 31) :
    d.rank < d.next.rank := by
  unfold next rank
  split
  · dsimp only
    omega
  · split <;> dsimp only <;> omega

/-- Later days have later dates. -/
theorem strictMono_rank : StrictMono fun days => (ofEpochDay days).rank := by
  refine strictMono_nat_of_lt_succ fun days => ?_
  obtain ⟨era, year, month, day, placed⟩ := exists_placed days
  have inYear := placed.month_lt
  have inMonth := placed.day_lt.trans_le (marchMonthLength_mem year month).2
  rw [ofEpochDay_succ, placed.ofEpochDay_eq]
  refine rank_lt_next ?_ inMonth
  unfold ofMarch
  split <;> dsimp only <;> omega

/-- No two days have one date. -/
theorem ofEpochDay_injective : Function.Injective ofEpochDay := by
  intro days days' same
  exact strictMono_rank.injective (congrArg rank same)

end Bitemporal.Date
