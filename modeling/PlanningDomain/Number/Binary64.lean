namespace PlanningDomain

/-!
# Floating-point numbers of 64 bits

A `Binary64` is a bit pattern: one bit of sign, eleven of exponent and
fifty-two of fraction.  Two numbers are the same if their patterns are, so a
zero differs from its negative, and every pattern of a number that is none
equals itself.  Values are read off the pattern as exact natural numbers
times powers of two, and a ratio of natural numbers is rounded to a pattern
in exact arithmetic.  No arithmetic of the machine is involved.
-/

structure Binary64 where
  bits : UInt64
deriving DecidableEq, Repr

namespace Binary64

/-! ## Reading a pattern -/

def isNegative (number : Binary64) : Bool :=
  number.bits.toNat / Nat.pow 2 63 == 1

def exponentField (number : Binary64) : Nat :=
  number.bits.toNat / Nat.pow 2 52 % Nat.pow 2 11

def fractionField (number : Binary64) : Nat :=
  number.bits.toNat % Nat.pow 2 52

/-- What a pattern stands for, its sign apart. -/
inductive Magnitude where
  | notANumber
  | infinite
  /-- The value `significand * 2 ^ exponent`. -/
  | finite (significand : Nat) (exponent : Int)
deriving DecidableEq, Repr

/-- The greatest exponent field marks what is not finite, and the least one
numbers whose significand lacks the leading bit. -/
def magnitude (number : Binary64) : Magnitude :=
  if number.exponentField = Nat.pow 2 11 - 1 then
    if number.fractionField = 0 then .infinite else .notANumber
  else if number.exponentField = 0 then
    .finite number.fractionField (-1074)
  else
    .finite (Nat.pow 2 52 + number.fractionField) (number.exponentField - 1075)

/-! ## Rounding a ratio -/

/-- The quotient rounded to a natural number, a half to the even neighbour. -/
def divideToEven (numerator denominator : Nat) : Nat :=
  let quotient := numerator / denominator
  let excess := 2 * (numerator % denominator)
  if denominator < excess || (denominator == excess && quotient % 2 == 1) then
    quotient + 1
  else
    quotient

/-- Numerator and denominator of a ratio divided by a power of two. -/
def scaleDown (numerator denominator : Nat) (exponent : Int) : Nat × Nat :=
  if exponent < 0 then
    (numerator * Nat.pow 2 (-exponent).toNat, denominator)
  else
    (numerator, denominator * Nat.pow 2 exponent.toNat)

/-- The exponent of the greatest power of two that is not above a positive
ratio.  The lengths of its two terms leave only two candidates. -/
def binaryOrder (numerator denominator : Nat) : Int :=
  let upper : Int := numerator.log2 - denominator.log2
  let (scaled, unit) := scaleDown numerator denominator upper
  if unit ≤ scaled then upper else upper - 1

def infinity : Binary64 :=
  ⟨0x7ff0000000000000⟩

/-- The number nearest to a ratio, of two equally near ones that with an even
significand.  The significand takes fifty-three bits, or fewer next to zero.
Added to its exponent in place, it carries into it when rounding lengthens
it.  What would need a larger exponent than there is becomes infinite. -/
def ofRatio (numerator denominator : Nat) : Binary64 :=
  if numerator = 0 then
    ⟨0⟩
  else
    let exponent := max (binaryOrder numerator denominator - 52) (-1074)
    let (scaled, unit) := scaleDown numerator denominator exponent
    let pattern := (exponent + 1074).toNat * Nat.pow 2 52 + divideToEven scaled unit
    if pattern < infinity.bits.toNat then ⟨UInt64.ofNat pattern⟩ else infinity

end Binary64

end PlanningDomain
