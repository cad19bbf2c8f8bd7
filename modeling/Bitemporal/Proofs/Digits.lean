import Bitemporal.Digits
import Mathlib.Data.List.Basic

/-!
# Digits of numbers

The digits of a number are read back as the number, with leading zeros or without.  In front of a
character that is no digit they determine the number and the rest of the text
(`paddedDigits_append_cons_inj`), so a text that is made of numbers between such characters
determines all of them.
-/

namespace Bitemporal

/-! ## Parts of a text -/

/-- What stands in front of the first separator is determined by the text, as
is what follows it. -/
theorem append_cons_inj_of_not_mem {ι : Type} {c : ι} {front front' rest rest' : List ι}
    (free : c ∉ front) (free' : c ∉ front') :
    front ++ c :: rest = front' ++ c :: rest' ↔ front = front' ∧ rest = rest' := by
  constructor
  · intro same
    rcases List.append_eq_append_iff.mp same with ⟨extra, rfl, shape⟩ | ⟨extra, rfl, shape⟩
    · cases extra with
      | nil => exact ⟨(List.append_nil front).symm, (List.cons.inj shape).2⟩
      | cons d extra =>
        cases shape
        exact absurd (List.mem_append_right front List.mem_cons_self) free'
    · cases extra with
      | nil => exact ⟨List.append_nil front', (List.cons.inj shape).2.symm⟩
      | cons d extra =>
        cases shape
        exact absurd (List.mem_append_right front' List.mem_cons_self) free
  · rintro ⟨rfl, rfl⟩
    rfl

/-! ## Decimal digits -/

section Digits

variable {n m width : Nat} {c : Char}

theorem isDigit_of_mem_toDigits (member : c ∈ Nat.toDigits 10 n) : c.isDigit = true :=
  Nat.isDigit_of_mem_toDigits (by decide) (by decide) member

/-- A number has a first digit. -/
theorem exists_toDigits (n : Nat) : ∃ c cs, Nat.toDigits 10 n = c :: cs ∧ c.isDigit = true := by
  obtain ⟨c, cs, shape⟩ := List.exists_cons_of_ne_nil (Nat.toDigits_ne_nil (b := 10) (n := n))
  have member : c ∈ Nat.toDigits 10 n := by simp [shape]
  exact ⟨c, cs, shape, isDigit_of_mem_toDigits member⟩

theorem digitChar_ne_zero : ∀ d < 10, d ≠ 0 → Nat.digitChar d ≠ '0' := by decide

theorem head?_toDigits_ne_zero (positive : n ≠ 0) : (Nat.toDigits 10 n).head? ≠ some '0' := by
  induction n using Nat.strongRecOn with
  | ind n ih =>
    rw [Nat.toDigits_eq_if (by decide)]
    split
    · simpa using digitChar_ne_zero n ‹_› positive
    · have shorter := ih (n / 10) (by omega) (by omega)
      rwa [List.head?_append_of_ne_nil _ Nat.toDigits_ne_nil]

/-! ## Leading zeros -/

theorem isDigit_of_mem_paddedDigits (member : c ∈ paddedDigits 10 width n) :
    c.isDigit = true := by
  rw [paddedDigits, List.leftpad, List.mem_append] at member
  rcases member with padding | digit
  · rw [List.eq_of_mem_replicate padding]
    rfl
  · exact isDigit_of_mem_toDigits digit

/-- Leading zeros do not change a number. -/
theorem ofDigitChars_paddedDigits (width n : Nat) :
    Nat.ofDigitChars 10 (paddedDigits 10 width n) 0 = n := by
  rw [paddedDigits, List.leftpad, Nat.ofDigitChars_append, Nat.ofDigitChars_replicate_zero,
    Nat.mul_zero, Nat.ofDigitChars_ten_toDigits]

theorem paddedDigits_inj : paddedDigits 10 width m = paddedDigits 10 width n ↔ m = n := by
  constructor
  · intro same
    rw [← ofDigitChars_paddedDigits width m, same, ofDigitChars_paddedDigits]
  · rintro rfl
    rfl

theorem not_mem_paddedDigits (solid : c.isDigit = false) : c ∉ paddedDigits 10 width n := by
  intro member
  rw [isDigit_of_mem_paddedDigits member] at solid
  cases solid

/-- A number in front of a character that is no digit is determined by the text,
as is what follows. -/
theorem paddedDigits_append_cons_inj {rest rest' : List Char} (solid : c.isDigit = false) :
    paddedDigits 10 width m ++ c :: rest = paddedDigits 10 width n ++ c :: rest' ↔
      m = n ∧ rest = rest' := by
  rw [append_cons_inj_of_not_mem (not_mem_paddedDigits solid) (not_mem_paddedDigits solid),
    paddedDigits_inj]

/-- Without a width there are no leading zeros. -/
theorem paddedDigits_zero (n : Nat) : paddedDigits 10 0 n = Nat.toDigits 10 n := by
  rw [paddedDigits, List.leftpad, Nat.zero_sub, List.replicate_zero, List.nil_append]

end Digits

end Bitemporal
