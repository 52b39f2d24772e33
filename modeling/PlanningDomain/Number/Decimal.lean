namespace PlanningDomain

/-!
# Decimal numbers and their digits

Digits are read and written most significant first.  A decimal number is a
natural number times a power of ten.  It is written either with its point in
place or with one digit before the point and an explicit exponent.
-/

/-- The value of one digit. -/
def digitValue (digit : Char) : Nat :=
  digit.toNat - '0'.toNat

/-- The natural number that a sequence of digits denotes. -/
def digitsValue (digits : List Char) : Nat :=
  digits.foldl (fun value digit => 10 * value + digitValue digit) 0

theorem digitsValue_toDigits (value : Nat) : digitsValue (Nat.toDigits 10 value) = value :=
  Nat.ofDigitChars_toDigits (by decide) (by decide)

theorem toList_toString (value : Nat) : (toString value).toList = Nat.toDigits 10 value :=
  String.toList_ofList

theorem isDigit_of_mem_toString {value : Nat} {char : Char}
    (member : char ∈ (toString value).toList) : char.isDigit = true := by
  rw [toList_toString] at member
  exact Nat.isDigit_of_mem_toDigits (by decide) (by decide) member

/-- The decimal number `digits * 10 ^ exponent`. -/
structure Decimal where
  digits : Nat
  exponent : Int
deriving DecidableEq, Repr

namespace Decimal

/-- The same number without zeros at the end of its digits. -/
def trim (number : Decimal) : Decimal :=
  if number.digits ≠ 0 ∧ number.digits % 10 = 0 then
    trim ⟨number.digits / 10, number.exponent + 1⟩
  else
    number
termination_by number.digits
decreasing_by omega

/-- The digits as they are written. -/
def digitChars (number : Decimal) : List Char :=
  Nat.toDigits 10 number.digits

/-- The exponent that belongs to the first digit. -/
def order (number : Decimal) : Int :=
  number.exponent + number.digitChars.length - 1

/-- The number with its point in place and at least one digit on each side. -/
def positional (number : Decimal) : List Char :=
  let digits := number.digitChars
  if 0 ≤ number.exponent then
    digits ++ List.replicate number.exponent.toNat '0' ++ ['.', '0']
  else
    let places := (-number.exponent).toNat
    if places < digits.length then
      digits.take (digits.length - places) ++ '.' :: digits.drop (digits.length - places)
    else
      '0' :: '.' :: List.replicate (places - digits.length) '0' ++ digits

/-- The number with one digit before the point, and no point if there is only
that digit, followed by its exponent. -/
def scientific (number : Decimal) : List Char :=
  let order := (toString number.order).toList
  match number.digitChars with
  | [] => 'e' :: order
  | [digit] => digit :: 'e' :: order
  | digit :: digits => digit :: '.' :: digits ++ 'e' :: order

/-- The orders of magnitude, from the least to the greatest, that are written
with the point in place. -/
structure PositionalRange where
  least : Int
  greatest : Int
deriving DecidableEq, Repr

/-- The number positionally within a range of magnitudes and scientifically
outside of it. -/
def write (range : PositionalRange) (number : Decimal) : List Char :=
  if number.digits = 0 then
    positional ⟨0, 0⟩
  else if range.least ≤ number.order ∧ number.order ≤ range.greatest then
    number.positional
  else
    number.scientific

end Decimal

end PlanningDomain
