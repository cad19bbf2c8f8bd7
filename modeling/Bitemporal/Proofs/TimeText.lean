import Bitemporal.Coordinate
import Bitemporal.Interval
import Bitemporal.Proofs.Calendar
import Bitemporal.Proofs.Digits
import Mathlib.Logic.Function.Basic

/-!
# Texts of time are unambiguous

An instant is written as a date-time if there is one for it, and as seconds else.  A date-time is
a row of numbers between characters that are no digits, so it determines the numbers, the numbers
determine the date and the time of day, and no two days have the same date.  Seconds hold no `T`.
So different instants have different texts (`Instant.text_injective`).

The characters of instants are few (`Instant.isTimeChar_text`).  What stands between the parts of
an interval or a coordinate is none of them, and neither is a letter of the words for an open end
or for the latest instant.  `texts_unambiguous` collects all this.
-/

namespace Bitemporal

/-! ## Instants and date-times -/

section DateTimes

variable {a : Instant}

/-- There is a date-time for every instant up to the last microsecond of the year 262142. -/
theorem Instant.isSome_toDateTime?_iff :
    a.toDateTime?.isSome = true ↔ a.micros ≤ 8210266876799999999 := by
  have fraction : a.micros % 1000000 * 1000 < 1000000000 := by omega
  have first : DateTime.firstSecond ≤ (a.seconds : Int) := by
    unfold DateTime.firstSecond
    omega
  have last : (a.seconds : Int) ≤ DateTime.lastSecond ↔ a.micros ≤ 8210266876799999999 := by
    unfold DateTime.lastSecond seconds
    omega
  rw [← last, toDateTime?, DateTime.ofUnix?]
  simp [fraction, first]

/-- The date-time of an instant is that of no other one. -/
theorem Instant.ofDateTime?_of_toDateTime? {d : DateTime} (found : a.toDateTime? = some d) :
    ofDateTime? d = some a := by
  unfold toDateTime? DateTime.ofUnix? at found
  split at found
  · cases found
    have whole : (a.seconds : Int) * 1000000 + (a.micros % 1000000 * 1000 / 1000 : Nat) =
        a.micros := by
      unfold seconds
      omega
    rw [ofDateTime?]
    dsimp only
    rw [whole, if_pos (Int.natCast_nonneg _), Int.toNat_natCast, ofMicros?]
    exact dif_pos a.micros_le
  · cases found

end DateTimes

/-! ## Texts of dates -/

/-- The year of a date, as it is written. -/
def yearChars (year : Nat) : List Char :=
  if year ≤ 9999 then paddedDigits 10 4 year else '+' :: paddedDigits 10 5 year

/-- A year is written with digits and perhaps a sign. -/
theorem mem_yearChars {year : Nat} {c : Char} (member : c ∈ yearChars year) :
    c.isDigit = true ∨ c = '+' := by
  unfold yearChars at member
  split at member
  · exact .inl (isDigit_of_mem_paddedDigits member)
  · rcases List.mem_cons.mp member with plus | digit
    · exact .inr plus
    · exact .inl (isDigit_of_mem_paddedDigits digit)

/-- Only years of more than four digits are signed. -/
theorem yearChars_inj {year year' : Nat} : yearChars year = yearChars year' ↔ year = year' := by
  have unsigned {width n : Nat} {digits : List Char} :
      paddedDigits 10 width n ≠ '+' :: digits := by
    intro same
    have plus : '+' ∈ paddedDigits 10 width n := same ▸ List.mem_cons_self
    exact not_mem_paddedDigits rfl plus
  unfold yearChars
  split <;> split
  · exact paddedDigits_inj
  · exact iff_of_false unsigned (by omega)
  · exact iff_of_false unsigned.symm (by omega)
  · rw [List.cons_inj_right, paddedDigits_inj]

namespace Date

variable {d d' : Date} {rest rest' : List Char}

theorem toList_text (d : Date) :
    d.text.toList = yearChars d.year ++
      '-' :: (paddedDigits 10 2 d.month ++ '-' :: paddedDigits 10 2 d.day) := by
  rw [text, yearChars]
  split <;> simp [paddedDecimal]

/-- A date in front of a character that is no digit is determined by the text,
as is what follows. -/
theorem text_append_cons_inj {c : Char} (solid : c.isDigit = false) :
    d.text.toList ++ c :: rest = d'.text.toList ++ c :: rest' ↔ d = d' ∧ rest = rest' := by
  have free {year : Nat} : '-' ∉ yearChars year := fun member => by
    rcases mem_yearChars member with digit | plus
    · cases digit
    · cases plus
  rw [toList_text, toList_text, List.append_assoc, List.append_assoc, List.cons_append,
    List.cons_append, append_cons_inj_of_not_mem free free, yearChars_inj, List.append_assoc,
    List.append_assoc, List.cons_append,
    List.cons_append, paddedDigits_append_cons_inj (by rfl), paddedDigits_append_cons_inj solid,
    Date.ext_iff, and_assoc, and_assoc]

end Date

/-! ## Texts of instants -/

namespace Instant

variable {a : Instant}

theorem toList_timeOfDayText (second : Nat) :
    (timeOfDayText second).toList = paddedDigits 10 2 (second / 3600) ++ ':' ::
      (paddedDigits 10 2 (second / 60 % 60) ++ ':' :: paddedDigits 10 2 (second % 60)) := by
  simp [timeOfDayText, paddedDecimal]

/-- A time of day in front of a character that is no digit is determined by the text,
as is what follows. -/
theorem timeOfDayText_append_cons_inj {c : Char} {second second' : Nat} {rest rest' : List Char}
    (solid : c.isDigit = false) :
    (timeOfDayText second).toList ++ c :: rest = (timeOfDayText second').toList ++ c :: rest' ↔
      second = second' ∧ rest = rest' := by
  rw [toList_timeOfDayText, toList_timeOfDayText, List.append_assoc, List.append_assoc,
    List.cons_append, List.cons_append, paddedDigits_append_cons_inj (by rfl), List.append_assoc,
    List.append_assoc, List.cons_append,
    List.cons_append, paddedDigits_append_cons_inj (by rfl), paddedDigits_append_cons_inj solid,
    ← and_assoc, ← and_assoc]
  refine and_congr_left' ⟨fun same => by omega, ?_⟩
  rintro rfl
  exact ⟨⟨rfl, rfl⟩, rfl⟩

/-- An instant within the calendar is written as date and time of day. -/
theorem toList_text_of_isSome (dated : a.toDateTime?.isSome = true) :
    a.text.toList = (Date.ofEpochDay (a.seconds / 86400)).text.toList ++ 'T' ::
      ((timeOfDayText (a.seconds % 86400)).toList ++
        '.' :: (paddedDigits 10 6 (a.micros % 1000000) ++ ['Z'])) := by
  simp [text, dated, paddedDecimal]

/-- An instant beyond the calendar is written as seconds and microseconds. -/
theorem toList_text_of_not_isSome (undated : ¬ a.toDateTime?.isSome = true) :
    a.text.toList = paddedDigits 10 0 a.seconds ++
      '.' :: paddedDigits 10 6 (a.micros % 1000000) := by
  rw [text, if_neg undated, paddedDigits_zero]
  simp [paddedDecimal]

/-- Only a date-time holds a `T`. -/
theorem t_mem_text_iff : 'T' ∈ a.text.toList ↔ a.toDateTime?.isSome = true := by
  constructor
  · intro member
    by_contra undated
    rw [toList_text_of_not_isSome undated] at member
    rcases List.mem_append.mp member with digit | member
    · exact not_mem_paddedDigits rfl digit
    · rcases List.mem_cons.mp member with same | digit
      · cases same
      · exact not_mem_paddedDigits rfl digit
  · intro dated
    rw [toList_text_of_isSome dated]
    exact List.mem_append_right _ List.mem_cons_self

/-- Different instants have different texts. -/
theorem text_injective : Function.Injective text := by
  intro a b same
  have form : a.toDateTime?.isSome = true ↔ b.toDateTime?.isSome = true := by
    rw [← t_mem_text_iff, ← t_mem_text_iff, same]
  rw [← String.toList_inj] at same
  have parts : a.seconds = b.seconds ∧ a.micros % 1000000 = b.micros % 1000000 := by
    by_cases dated : a.toDateTime?.isSome = true
    · rw [toList_text_of_isSome dated, toList_text_of_isSome (form.mp dated),
        Date.text_append_cons_inj (by rfl), timeOfDayText_append_cons_inj (by rfl),
        paddedDigits_append_cons_inj (by rfl)] at same
      obtain ⟨date, time, fraction, -⟩ := same
      have day : a.seconds / 86400 = b.seconds / 86400 := Date.ofEpochDay_injective date
      exact ⟨by omega, fraction⟩
    · rw [toList_text_of_not_isSome dated,
        toList_text_of_not_isSome (fun dated' => dated (form.mpr dated')),
        paddedDigits_append_cons_inj (by rfl), paddedDigits_inj] at same
      exact same
  refine Instant.ext ?_
  unfold seconds at parts
  omega

/-! ### The characters of instants -/

/-- The characters of instants: digits, signs, separators and the letters `T` and `Z`. -/
def IsTimeChar (c : Char) : Prop := c.isDigit = true ∨ c ∈ ['+', '-', ':', '.', 'T', 'Z']

instance (c : Char) : Decidable (IsTimeChar c) := inferInstanceAs (Decidable (_ ∨ _))

/-- The text of an instant holds only the characters of dates, times and numbers. -/
theorem isTimeChar_text : ∀ c ∈ a.text.toList, IsTimeChar c := by
  have digits {width n : Nat} : ∀ c ∈ paddedDigits 10 width n, IsTimeChar c :=
    fun _ member => .inl (isDigit_of_mem_paddedDigits member)
  have year {n : Nat} : ∀ c ∈ yearChars n, IsTimeChar c := by
    intro c member
    rcases mem_yearChars member with digit | rfl
    · exact .inl digit
    · exact .inr List.mem_cons_self
  have mark {c : Char} (listed : c ∈ ['+', '-', ':', '.', 'T', 'Z']) : IsTimeChar c := .inr listed
  by_cases dated : a.toDateTime?.isSome = true
  · rw [toList_text_of_isSome dated, Date.toList_text, toList_timeOfDayText]
    simp only [List.forall_mem_append, List.forall_mem_cons]
    exact ⟨⟨year, mark (by decide), digits, mark (by decide), digits⟩, mark (by decide),
      ⟨digits, mark (by decide), digits, mark (by decide), digits⟩, mark (by decide), digits,
      mark (by decide), List.forall_mem_nil _⟩
  · rw [toList_text_of_not_isSome dated]
    simp only [List.forall_mem_append, List.forall_mem_cons]
    exact ⟨digits, mark (by decide), digits⟩

theorem not_mem_text {c : Char} (foreign : ¬ IsTimeChar c) : c ∉ a.text.toList :=
  fun member => foreign (isTimeChar_text c member)

/-- No word with another character is the text of an instant. -/
theorem text_ne_of_mem {word : String} {c : Char} (member : c ∈ word.toList)
    (foreign : ¬ IsTimeChar c) : a.text ≠ word := by
  rintro rfl
  exact not_mem_text foreign member

end Instant

/-! ## Texts of boundaries, intervals and coordinates -/

theorem Boundary.text_injective : Function.Injective Boundary.text := by
  have foreign (t : Instant) : t.text ≠ "unbounded" :=
    Instant.text_ne_of_mem (c := 'u') (by decide) (by decide)
  intro b b' same
  cases b with
  | finite t =>
    cases b' with
    | finite t' => exact congrArg finite (Instant.text_injective same)
    | unbounded => exact absurd same (foreign t)
  | unbounded =>
    cases b' with
    | finite t' => exact absurd same.symm (foreign t')
    | unbounded => rfl

theorem Interval.text_injective : Function.Injective Interval.text := by
  intro i j same
  have shape (i : Interval) :
      i.text.toList = ('[' :: i.start.text.toList) ++
        ',' :: ' ' :: (i.stop.text.toList ++ [')']) := by
    simp [text, boundsText]
  have free (t : Instant) : ',' ∉ '[' :: t.text.toList := by
    rw [List.mem_cons, not_or]
    exact ⟨by decide, Instant.not_mem_text (by decide)⟩
  rw [← String.toList_inj, shape, shape, append_cons_inj_of_not_mem (free _) (free _),
    List.cons_inj_right, List.cons_inj_right, List.append_cancel_right_eq, String.toList_inj,
    String.toList_inj] at same
  exact Interval.ext (Instant.text_injective same.1) (Boundary.text_injective same.2)

namespace Coordinate

/-- No two instants of an axis have one text, the latest included. -/
theorem axisText_injective : Function.Injective axisText := by
  have foreign (t : Instant) : t.text ≠ "LATEST" :=
    Instant.text_ne_of_mem (c := 'L') (by decide) (by decide)
  intro t t' same
  cases t with
  | some t =>
    cases t' with
    | some t' => exact congrArg some (Instant.text_injective same)
    | none => exact absurd same (foreign t)
  | none =>
    cases t' with
    | some t' => exact absurd same.symm (foreign t')
    | none => rfl

theorem text_injective : Function.Injective text := by
  intro c c' same
  have shape (c : Coordinate) :
      c.text.toList = ('V' :: ((axisText c.version).toList ++ ['.'])) ++
        'C' :: (axisText c.correction).toList := by
    simp [text]
  have free (t : Option Instant) : 'C' ∉ 'V' :: ((axisText t).toList ++ ['.']) := by
    cases t with
    | none => decide
    | some t =>
      rw [List.mem_cons, List.mem_append, not_or, not_or]
      exact ⟨by decide, Instant.not_mem_text (by decide), by decide⟩
  rw [← String.toList_inj, shape, shape, append_cons_inj_of_not_mem (free _) (free _),
    List.cons_inj_right, List.append_cancel_right_eq, String.toList_inj, String.toList_inj]
      at same
  exact Coordinate.ext (axisText_injective same.1) (axisText_injective same.2)

end Coordinate

/-- The date of a day is that of the Gregorian calendar.  There is a date-time just for the
instants up to the last microsecond of the year 262142, and it leads back to the instant.
Different instants have different texts, on whichever side of that limit they are, and so do
different boundaries, intervals and coordinates. -/
theorem texts_unambiguous :
    (∀ days, Date.ofEpochDay days = Date.next^[days] ⟨1970, 1, 1⟩) ∧
    (∀ a : Instant, (a.toDateTime?.isSome = true ↔ a.micros ≤ 8210266876799999999) ∧
      ∀ d, a.toDateTime? = some d → Instant.ofDateTime? d = some a) ∧
    Function.Injective Instant.text ∧ Function.Injective Boundary.text ∧
    Function.Injective Interval.text ∧
    Function.Injective Coordinate.text :=
  ⟨Date.ofEpochDay_eq,
    fun _ => ⟨Instant.isSome_toDateTime?_iff, fun _ => Instant.ofDateTime?_of_toDateTime?⟩,
    Instant.text_injective, Boundary.text_injective, Interval.text_injective,
    Coordinate.text_injective⟩

end Bitemporal
