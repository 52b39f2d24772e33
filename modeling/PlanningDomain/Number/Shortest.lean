import PlanningDomain.Number.Binary64
import PlanningDomain.Number.Decimal

namespace PlanningDomain

/-!
# The shortest digits that read back

A finite number of 64 bits is the nearest one to every real number of an
interval around it.  It may be written by any decimal number of that interval
and be read back.  The one chosen here has the fewest digits, of those with
as few digits it is nearest to the value, and of two equally near ones it is
the greater.  For a grid of decimal numbers with a common exponent it is
enough to try the two neighbours of the value: if any point of the grid lies
in the interval, so does one of them.
-/

/-- An interval around a value.  All three are fractions with one common
denominator.  A closed interval includes its ends. -/
structure RoundingInterval where
  low : Nat
  value : Nat
  high : Nat
  denominator : Nat
  closed : Bool
deriving DecidableEq, Repr

namespace RoundingInterval

/-- The numbers that round to a positive significand times a power of two.
Their interval reaches half way to the neighbours, and the neighbour below a
power of two is only half as far away as the one above, unless it is among
the least numbers.  An end rounds to the number if its significand is even. -/
def around (significand : Nat) (exponent : Int) : RoundingInterval :=
  let below := if significand = Nat.pow 2 52 ∧ -1074 < exponent then 1 else 2
  let unit := Nat.pow 2 (exponent - 2).toNat
  { low := (4 * significand - below) * unit
    value := 4 * significand * unit
    high := (4 * significand + 2) * unit
    denominator := Nat.pow 2 (2 - exponent).toNat
    closed := significand % 2 == 0 }

/-- Whether a decimal number lies in the interval. -/
def contains (interval : RoundingInterval) (number : Decimal) : Bool :=
  let scale := Nat.pow 10 (-number.exponent).toNat
  let point := number.digits * Nat.pow 10 number.exponent.toNat * interval.denominator
  if interval.closed then
    interval.low * scale ≤ point && point ≤ interval.high * scale
  else
    interval.low * scale < point && point < interval.high * scale

/-- The digits of the value down to an exponent, all others dropped. -/
def truncate (interval : RoundingInterval) (exponent : Int) : Nat :=
  interval.value * Nat.pow 10 (-exponent).toNat / (interval.denominator * Nat.pow 10 exponent.toNat)

/-- Whether the value lies at least half way from the truncated digits to the
next ones. -/
def upperHalf (interval : RoundingInterval) (exponent : Int) : Bool :=
  (2 * interval.truncate exponent + 1) * (interval.denominator * Nat.pow 10 exponent.toNat) ≤
    2 * interval.value * Nat.pow 10 (-exponent).toNat

/-- The neighbour of the value on the grid of an exponent that lies in the
interval, and the nearer one if both do. -/
def nearestOnGrid (interval : RoundingInterval) (exponent : Int) : Option Decimal :=
  let below : Decimal := ⟨interval.truncate exponent, exponent⟩
  let above : Decimal := ⟨interval.truncate exponent + 1, exponent⟩
  if interval.upperHalf exponent then
    [above, below].find? interval.contains
  else
    [below, above].find? interval.contains

/-- The exponent of ten that follows the first digit of the value.  No
positive number of 64 bits is below the power of ten used here, so the value
has a digit before the point after it is scaled. -/
def decimalOrder (interval : RoundingInterval) : Int :=
  (Nat.toDigits 10 (interval.truncate (-324))).length - 324

/-- Tries the grids from one digit to seventeen, which always suffice. -/
def shortest (interval : RoundingInterval) : Decimal :=
  let grids := (List.range 17).map (fun index : Nat => interval.decimalOrder - 1 - index)
  let finest := interval.decimalOrder - 17
  ((grids.findSome? interval.nearestOnGrid).getD ⟨interval.truncate finest, finest⟩).trim

end RoundingInterval

namespace Binary64

/-- The number in the fewest digits that read back, or the word for what is
not finite.  A number that is none has no sign. -/
def write (range : Decimal.PositionalRange) (number : Binary64) : String :=
  let sign := if number.isNegative then "-" else ""
  match number.magnitude with
  | .notANumber => "NaN"
  | .infinite => sign ++ "inf"
  | .finite 0 _ => sign ++ String.ofList (Decimal.write range ⟨0, 0⟩)
  | .finite significand exponent =>
      sign ++ String.ofList
        ((RoundingInterval.around significand exponent).shortest.write range)

/-- The number nearest to a decimal fraction, given by its digits before and
after the point. -/
def ofDigits (whole fraction : List Char) : Binary64 :=
  ofRatio (digitsValue (whole ++ fraction)) (Nat.pow 10 fraction.length)

end Binary64

end PlanningDomain
