/-!
Digits of natural numbers: numbers of a least width, and the values of hexadecimal digits.
-/

namespace Bitemporal

/-- The digits of `n` in a base up to sixteen, with leading zeros up to `width` digits. -/
def paddedDigits (base width n : Nat) : List Char := (Nat.toDigits base n).leftpad width '0'

/-- The decimal digits of `n`, with leading zeros up to `width` digits. -/
def paddedDecimal (width n : Nat) : String := String.ofList (paddedDigits 10 width n)

/-- The value of a hexadecimal digit. -/
def hexDigit? (c : Char) : Option Nat :=
  if '0' ≤ c ∧ c ≤ '9' then some (c.toNat - 48)
  else if 'a' ≤ c ∧ c ≤ 'f' then some (c.toNat - 87)
  else if 'A' ≤ c ∧ c ≤ 'F' then some (c.toNat - 55)
  else none

end Bitemporal
