import Mathlib.Algebra.Order.Field.Power
import Mathlib.Algebra.Order.Ring.Rat
import Mathlib.Tactic.Linarith
import Mathlib.Tactic.LinearCombination
import Mathlib.Tactic.Ring
import PlanningDomain.Number.Shortest

namespace PlanningDomain

/-!
# Rounding to the nearest number

A decimal fraction of the source is read as a number of 64 bits.  It is the nearest one to
the fraction, and the one with an even pattern if two are equally near.  Patterns
without a sign have greater values the greater they are.  A ratio is scaled by a power of
two, such that the quotient is a significand of full length or has the least exponent, and the
quotient is rounded.  Among the patterns with this power of two the rounded quotient is
nearest, and all others are further away than the least significand of full length.
-/

namespace Binary64

/-! ## Rounding to a natural number -/

section Quotients

variable (numerator : Nat) {denominator : Nat}

/-- The rounded quotient is at most one half away from the ratio, and even if it is as far. -/
theorem divideToEven_bounds (positive : 0 < denominator) :
    let rounded := divideToEven numerator denominator
    2 * (denominator * rounded) ≤ 2 * numerator + denominator ∧
      2 * numerator ≤ 2 * (denominator * rounded) + denominator ∧
      (2 * (denominator * rounded) = 2 * numerator + denominator ∨
        2 * numerator = 2 * (denominator * rounded) + denominator -> rounded % 2 = 0) := by
  intro rounded
  have divided := Nat.div_add_mod numerator denominator
  have less := Nat.mod_lt numerator positive
  have next : denominator * (numerator / denominator + 1) =
      denominator * (numerator / denominator) + denominator := Nat.mul_succ _ _
  unfold rounded divideToEven
  dsimp only
  split
  case isTrue up =>
    rw [Bool.or_eq_true, Bool.and_eq_true, decide_eq_true_iff, beq_iff_eq, beq_iff_eq] at up
    rw [next]
    omega
  case isFalse down =>
    rw [Bool.or_eq_true, Bool.and_eq_true, decide_eq_true_iff, beq_iff_eq, beq_iff_eq] at down
    omega

theorem divideToEven_error (positive : 0 < denominator) :
    let ratio : Rat := numerator / denominator
    let rounded := divideToEven numerator denominator
    |(rounded : Rat) - ratio| ≤ 1 / 2 ∧
      (|(rounded : Rat) - ratio| = 1 / 2 -> rounded % 2 = 0) := by
  intro ratio rounded
  have scale : (0 : Rat) < denominator := Nat.cast_pos.mpr positive
  have same : ratio * denominator = numerator := div_mul_cancel₀ _ scale.ne'
  rcases divideToEven_bounds numerator positive with ⟨above, below, tie⟩
  have above : (2 * (denominator * rounded) : Rat) ≤ 2 * numerator + denominator :=
    mod_cast above
  have below : (2 * numerator : Rat) ≤ 2 * (denominator * rounded) + denominator :=
    mod_cast below
  have upper : (rounded - ratio) * denominator ≤ 1 / 2 * denominator := by linarith
  have lower : -(1 / 2) * denominator ≤ (rounded - ratio) * denominator := by linarith
  refine ⟨abs_le.mpr ⟨le_of_mul_le_mul_right lower scale, le_of_mul_le_mul_right upper scale⟩,
    fun half => tie ?_⟩
  rcases eq_or_eq_neg_of_abs_eq half with larger | smaller
  · have : (2 * (denominator * rounded) : Rat) = 2 * numerator + denominator := by
      linear_combination 2 * denominator * larger + 2 * same
    exact Or.inl (mod_cast this)
  · have : (2 * numerator : Rat) = 2 * (denominator * rounded) + denominator := by
      linear_combination -2 * denominator * smaller - 2 * same
    exact Or.inr (mod_cast this)

/-- No natural number is nearer to the ratio than the rounded quotient, and if another one is as
near, the rounded quotient is even. -/
theorem divideToEven_nearest (positive : 0 < denominator) (other : Nat) :
    let ratio : Rat := numerator / denominator
    let rounded := divideToEven numerator denominator
    |(rounded : Rat) - ratio| ≤ |(other : Rat) - ratio| ∧
      (|(rounded : Rat) - ratio| = |(other : Rat) - ratio| ->
        other = rounded ∨ rounded % 2 = 0) := by
  intro ratio rounded
  rcases divideToEven_error numerator positive with ⟨near, tie⟩
  by_cases same : other = rounded
  · exact ⟨same ▸ le_refl _, fun _ => Or.inl same⟩
  · have apart : (1 : Rat) ≤ |(other : Rat) - rounded| := by
      have : (other : Int) - rounded ≠ 0 := by omega
      exact_mod_cast Int.one_le_abs this
    have way := abs_sub_le (other : Rat) ratio rounded
    rw [abs_sub_comm ratio] at way
    refine ⟨by linarith, fun equal => Or.inr (tie ?_)⟩
    exact le_antisymm near (by linarith)

/-- Rounding does not go beyond a natural number. -/
theorem divideToEven_le (positive : 0 < denominator) {bound : Nat}
    (below : (numerator / denominator : Rat) ≤ bound) :
    divideToEven numerator denominator ≤ bound := by
  have near := (abs_le.mp (divideToEven_error numerator positive).1).2
  have less : (divideToEven numerator denominator : Rat) < (bound + 1 : Nat) := by
    rw [Nat.cast_succ]
    linarith
  exact Nat.le_of_lt_succ (Nat.cast_lt.mp less)

theorem le_divideToEven (positive : 0 < denominator) {bound : Nat}
    (above : (bound : Rat) ≤ numerator / denominator) :
    bound ≤ divideToEven numerator denominator := by
  have near := (abs_le.mp (divideToEven_error numerator positive).1).1
  have less : (bound : Rat) < (divideToEven numerator denominator + 1 : Nat) := by
    rw [Nat.cast_succ]
    linarith
  exact Nat.le_of_lt_succ (Nat.cast_lt.mp less)

/-! ## Powers of two below a ratio -/

/-- The terms of the scaled ratio. -/
theorem scaleDown_spec (positive : 0 < denominator) (exponent : Int) :
    let scaled := scaleDown numerator denominator exponent
    0 < scaled.2 ∧ (scaled.1 : Rat) / scaled.2 = numerator / denominator / 2 ^ exponent := by
  intro scaled
  unfold scaled scaleDown
  split
  case isTrue below =>
    rcases Int.eq_ofNat_of_zero_le (Int.neg_nonneg_of_nonpos (Int.le_of_lt below)) with
      ⟨count, same⟩
    refine ⟨positive, ?_⟩
    rw [same, Int.toNat_natCast, Nat.cast_mul, Nat.pow_eq, Nat.cast_pow, Nat.cast_ofNat,
      ← neg_neg exponent, same, zpow_neg, zpow_natCast, div_inv_eq_mul, div_mul_eq_mul_div]
  case isFalse notBelow =>
    rcases Int.eq_ofNat_of_zero_le (Int.not_lt.mp notBelow) with ⟨count, same⟩
    refine ⟨Nat.mul_pos positive (Nat.pow_pos Nat.two_pos), ?_⟩
    rw [same, Int.toNat_natCast, Nat.cast_mul, Nat.pow_eq, Nat.cast_pow, Nat.cast_ofNat,
      zpow_natCast, div_div]

theorem scaleDown_le_iff (positive : 0 < denominator) (exponent : Int) :
    (scaleDown numerator denominator exponent).2 ≤ (scaleDown numerator denominator exponent).1 ↔
      (2 : Rat) ^ exponent ≤ numerator / denominator := by
  rcases scaleDown_spec numerator positive exponent with ⟨unit, ratio⟩
  rw [← one_le_div₀ (zpow_pos two_pos exponent), ← ratio, one_le_div₀ (Nat.cast_pos.mpr unit),
    Nat.cast_le]

/-- The lengths of the terms leave two powers of two. -/
theorem log2_bounds {numerator : Nat} (notZero : numerator ≠ 0) (positive : 0 < denominator) :
    let order : Int := numerator.log2 - denominator.log2
    (2 : Rat) ^ (order - 1) ≤ numerator / denominator ∧
      (numerator / denominator : Rat) < 2 ^ (order + 1) := by
  intro order
  have scale : (0 : Rat) < denominator := Nat.cast_pos.mpr positive
  have least : (2 : Rat) ^ (numerator.log2 : Int) ≤ numerator := by
    exact_mod_cast Nat.log2_self_le notZero
  have most : (numerator : Rat) < 2 ^ (numerator.log2 + 1 : Int) := by
    exact_mod_cast Nat.lt_log2_self
  have leastUnit : (2 : Rat) ^ (denominator.log2 : Int) ≤ denominator := by
    exact_mod_cast Nat.log2_self_le (Nat.ne_of_gt positive)
  have mostUnit : (denominator : Rat) < 2 ^ (denominator.log2 + 1 : Int) := by
    exact_mod_cast Nat.lt_log2_self
  constructor
  · rw [le_div_iff₀ scale]
    calc (2 : Rat) ^ (order - 1) * denominator
        ≤ 2 ^ (order - 1) * 2 ^ (denominator.log2 + 1 : Int) :=
          mul_le_mul_of_nonneg_left (le_of_lt mostUnit) (zpow_nonneg two_pos.le _)
      _ = 2 ^ (numerator.log2 : Int) := by
          rw [← zpow_add₀ two_ne_zero]
          congr 1
          omega
      _ ≤ numerator := least
  · rw [div_lt_iff₀ scale]
    calc (numerator : Rat)
        < 2 ^ (numerator.log2 + 1 : Int) := most
      _ = 2 ^ (order + 1) * 2 ^ (denominator.log2 : Int) := by
          rw [← zpow_add₀ two_ne_zero]
          congr 1
          omega
      _ ≤ 2 ^ (order + 1) * denominator :=
          mul_le_mul_of_nonneg_left leastUnit (zpow_nonneg two_pos.le _)

theorem binaryOrder_bounds {numerator : Nat} (notZero : numerator ≠ 0)
    (positive : 0 < denominator) :
    let order := binaryOrder numerator denominator
    (2 : Rat) ^ order ≤ numerator / denominator ∧
      (numerator / denominator : Rat) < 2 ^ (order + 1) := by
  intro order
  rcases log2_bounds notZero positive with ⟨below, above⟩
  unfold order binaryOrder
  dsimp only
  split
  case isTrue fits => exact ⟨(scaleDown_le_iff numerator positive _).mp fits, above⟩
  case isFalse large =>
    rw [scaleDown_le_iff numerator positive, not_le] at large
    rw [Int.sub_add_cancel]
    exact ⟨below, large⟩

end Quotients

/-! ## Values of patterns -/

/-- What a pattern without a sign stands for, as a multiple of the least positive number.  The
pattern of infinity counts as the number that would come after the greatest one. -/
def units (pattern : Nat) : Nat :=
  if pattern < 2 ^ 52 then pattern
  else (2 ^ 52 + pattern % 2 ^ 52) * 2 ^ (pattern / 2 ^ 52 - 1)

def value (pattern : Nat) : Rat :=
  units pattern * 2 ^ (-1074 : Int)

theorem units_of_field {field fraction : Nat} (bound : fraction < 2 ^ 52) (normal : field ≠ 0) :
    units (field * 2 ^ 52 + fraction) = (2 ^ 52 + fraction) * 2 ^ (field - 1) := by
  have large : ¬ field * 2 ^ 52 + fraction < 2 ^ 52 := by omega
  have rest : (field * 2 ^ 52 + fraction) % 2 ^ 52 = fraction := by omega
  have quotient : (field * 2 ^ 52 + fraction) / 2 ^ 52 = field := by omega
  rw [units, if_neg large, rest, quotient]

/-- A significand may be added to its exponent in place, also one that is too long by one. -/
theorem units_of_carry {exponent significand : Nat} (fits : significand ≤ 2 ^ 53)
    (long : 2 ^ 52 ≤ significand ∨ exponent = 0) :
    units (exponent * 2 ^ 52 + significand) = significand * 2 ^ exponent := by
  by_cases short : significand < 2 ^ 52
  · have least : exponent = 0 := by omega
    rw [least, Nat.zero_mul, Nat.zero_add, units, if_pos short, Nat.pow_zero, Nat.mul_one]
  · by_cases carries : significand = 2 ^ 53
    · have same : exponent * 2 ^ 52 + significand = (exponent + 2) * 2 ^ 52 + 0 := by omega
      have next : exponent + 2 - 1 = exponent + 1 := rfl
      rw [same, units_of_field (by decide) (by omega), carries, next, Nat.pow_succ 2 exponent]
      ring
    · have same : exponent * 2 ^ 52 + significand =
          (exponent + 1) * 2 ^ 52 + (significand - 2 ^ 52) := by omega
      have whole : 2 ^ 52 + (significand - 2 ^ 52) = significand := by omega
      have next : exponent + 1 - 1 = exponent := rfl
      rw [same, units_of_field (by omega) (Nat.succ_ne_zero _), whole, next]

/-- Every pattern is a significand of full length with its exponent, or has the least one. -/
theorem exists_significand (pattern : Nat) :
    Exists fun exponent : Nat => Exists fun significand : Nat =>
      pattern = exponent * 2 ^ 52 + significand ∧ significand < 2 ^ 53 ∧
        (2 ^ 52 ≤ significand ∨ exponent = 0) := by
  by_cases small : pattern < 2 ^ 52
  · exact ⟨0, pattern, by omega, by omega, Or.inr rfl⟩
  · exact ⟨pattern / 2 ^ 52 - 1, 2 ^ 52 + pattern % 2 ^ 52, by omega, by omega,
      Or.inl (Nat.le_add_right _ _)⟩

/-- Greater patterns have greater values. -/
theorem units_strictMono : StrictMono units := by
  refine strictMono_nat_of_lt_succ (fun pattern => ?_)
  rcases exists_significand pattern with ⟨exponent, significand, same, fits, long⟩
  rw [same, Nat.add_assoc, units_of_carry (Nat.le_of_lt fits) long,
    units_of_carry fits (long.imp_left Nat.le_succ_of_le)]
  exact Nat.mul_lt_mul_of_pos_right (Nat.lt_succ_self _) (Nat.two_pow_pos _)

theorem value_strictMono : StrictMono value := fun _ _ less =>
  mul_lt_mul_of_pos_right (Nat.cast_lt.mpr (units_strictMono less)) (zpow_pos two_pos _)

/-- Values are multiples of a power of two, from some value on. -/
theorem units_grid (exponent pattern : Nat) :
    (Exists fun multiple : Nat => units pattern = multiple * 2 ^ exponent) ∨
      0 < exponent ∧ units pattern < 2 ^ 52 * 2 ^ exponent := by
  rcases exists_significand pattern with ⟨own, significand, same, fits, long⟩
  rw [same, units_of_carry (Nat.le_of_lt fits) long]
  by_cases above : exponent ≤ own
  · refine Or.inl ⟨significand * 2 ^ (own - exponent), ?_⟩
    rw [Nat.mul_assoc, ← Nat.pow_add, Nat.sub_add_cancel above]
  · have below : own < exponent := Nat.lt_of_not_le above
    refine Or.inr ⟨Nat.zero_lt_of_lt below, ?_⟩
    calc significand * 2 ^ own
        < 2 ^ 53 * 2 ^ own := Nat.mul_lt_mul_of_pos_right fits (Nat.two_pow_pos _)
      _ = 2 ^ 52 * 2 ^ (own + 1) := by ring
      _ ≤ 2 ^ 52 * 2 ^ exponent := Nat.mul_le_mul_left _ (Nat.pow_le_pow_right Nat.two_pos below)

/-- The value of a pattern is the magnitude that is read off it. -/
theorem magnitude_of_finite {number : Binary64}
    (finite : number.bits.toNat < infinity.bits.toNat) :
    Exists fun significand : Nat => Exists fun exponent : Int =>
      number.isNegative = false ∧ number.magnitude = .finite significand exponent ∧
        value number.bits.toNat = significand * 2 ^ exponent := by
  have bound : number.bits.toNat < 2047 * 2 ^ 52 := finite
  have unsigned : number.isNegative = false := by
    rw [isNegative, Nat.pow_eq, Nat.div_eq_of_lt (by omega)]
    rfl
  have field : number.exponentField = number.bits.toNat / 2 ^ 52 := by
    rw [exponentField, Nat.pow_eq, Nat.pow_eq, Nat.mod_eq_of_lt (by omega)]
  have notLast : number.exponentField ≠ Nat.pow 2 11 - 1 := by
    rw [field, Nat.pow_eq]
    omega
  have fraction : number.fractionField = number.bits.toNat % 2 ^ 52 := rfl
  rw [magnitude, if_neg notLast]
  by_cases least : number.exponentField = 0
  · rw [if_pos least]
    refine ⟨_, _, unsigned, rfl, ?_⟩
    rw [value, units, if_pos (by omega), fraction, Nat.mod_eq_of_lt (by omega)]
  · rw [if_neg least]
    refine ⟨_, _, unsigned, rfl, ?_⟩
    have positive : 1 ≤ number.bits.toNat / 2 ^ 52 := by omega
    have exponent : ((number.exponentField : Int) - 1075) =
        ((number.bits.toNat / 2 ^ 52 - 1 : Nat) : Int) + -1074 := by
      rw [field]
      omega
    rw [value, units, if_neg (by omega), exponent, zpow_add₀ two_ne_zero, zpow_natCast, fraction,
      Nat.cast_mul, Nat.cast_pow, Nat.cast_ofNat, mul_assoc]
    rfl

/-! ## The nearest pattern -/

/-- A pattern is preferred to another one for a ratio if it is nearer, or if it is as near and
even. -/
def IsPreferred (ratio : Rat) (chosen other : Nat) : Prop :=
  |value chosen - ratio| ≤ |value other - ratio| ∧
    (|value chosen - ratio| = |value other - ratio| -> other = chosen ∨ chosen % 2 = 0)

/-- The exponent of the last bit of the significand that a ratio is rounded to. -/
def lastExponent (numerator denominator : Nat) : Int :=
  max (binaryOrder numerator denominator - 52) (-1074)

/-- The significand that a ratio is rounded to. -/
def significand (numerator denominator : Nat) : Nat :=
  let scaled := scaleDown numerator denominator (lastExponent numerator denominator)
  divideToEven scaled.1 scaled.2

/-- The pattern that a ratio is rounded to, whether or not there is an exponent as large. -/
def carried (numerator denominator : Nat) : Nat :=
  (lastExponent numerator denominator + 1074).toNat * 2 ^ 52 + significand numerator denominator

section Ratios

variable {numerator denominator : Nat}

theorem toNat_ofRatio (notZero : numerator ≠ 0) :
    (ofRatio numerator denominator).bits.toNat =
      min (carried numerator denominator) infinity.bits.toNat := by
  have large : infinity.bits.toNat < 2 ^ 64 := infinity.bits.toNat_lt
  have cut : ofRatio numerator denominator =
      if carried numerator denominator < infinity.bits.toNat then
        ⟨UInt64.ofNat (carried numerator denominator)⟩ else infinity := by
    rw [ofRatio, if_neg notZero]
    rfl
  rw [cut]
  split
  case isTrue finite =>
    rw [Nat.min_eq_left (Nat.le_of_lt finite)]
    exact UInt64.toNat_ofNat_of_lt' (Nat.lt_trans finite large)
  case isFalse notFinite => rw [Nat.min_eq_right (Nat.not_lt.mp notFinite)]

/-- The scaled ratio has the length of a significand. -/
theorem scaled_bounds (notZero : numerator ≠ 0) (positive : 0 < denominator) :
    let scaled : Rat := numerator / denominator / 2 ^ lastExponent numerator denominator
    scaled ≤ 2 ^ 53 ∧ (2 ^ 52 ≤ scaled ∨ lastExponent numerator denominator = -1074) := by
  intro scaled
  rcases binaryOrder_bounds notZero positive with ⟨below, above⟩
  have unit : (0 : Rat) < 2 ^ lastExponent numerator denominator := zpow_pos two_pos _
  have shifted (count : Nat) : (2 : Rat) ^ count * 2 ^ lastExponent numerator denominator =
      2 ^ (count + lastExponent numerator denominator) := by
    rw [zpow_add₀ two_ne_zero, zpow_natCast]
  constructor
  · rw [div_le_iff₀ unit, shifted]
    refine le_trans (le_of_lt above) (zpow_le_zpow_right₀ one_le_two ?_)
    rw [lastExponent]
    omega
  · by_cases least : lastExponent numerator denominator = -1074
    · exact Or.inr least
    · refine Or.inl ((le_div_iff₀ unit).mpr ?_)
      rw [shifted]
      refine le_trans (zpow_le_zpow_right₀ one_le_two ?_) below
      rw [lastExponent] at least ⊢
      omega

/-- The significand is of full length unless its exponent is the least one. -/
theorem significand_bounds (notZero : numerator ≠ 0) (positive : 0 < denominator) :
    significand numerator denominator ≤ 2 ^ 53 ∧
      (2 ^ 52 ≤ significand numerator denominator ∨
        (lastExponent numerator denominator + 1074).toNat = 0) := by
  rcases scaleDown_spec numerator positive (lastExponent numerator denominator) with
    ⟨divisor, isScaled⟩
  rcases scaled_bounds notZero positive with ⟨short, long⟩
  rw [← isScaled] at short long
  refine ⟨divideToEven_le _ divisor (mod_cast short), ?_⟩
  rcases long with full | least
  · exact Or.inl (le_divideToEven _ divisor (mod_cast full))
  · exact Or.inr (by rw [least]; rfl)

/-- Distances in units of the last bit. -/
theorem distance_scaled {unit : Rat} (positive : 0 < unit) (count ratio : Rat) :
    |count * unit - ratio| = |count - ratio / unit| * unit := by
  rw [← abs_of_pos positive, ← abs_mul, abs_of_pos positive, sub_mul,
    div_mul_cancel₀ _ positive.ne']

/-- Multiples of the last bit, as values. -/
theorem cast_units_mul (count : Nat) :
    let last := lastExponent numerator denominator
    ((count * 2 ^ (last + 1074).toNat : Nat) : Rat) * 2 ^ (-1074 : Int) = count * 2 ^ last := by
  intro last
  have least : -1074 ≤ last := le_max_right _ _
  have whole : ((last + 1074).toNat : Int) + -1074 = last := by omega
  rw [← whole, zpow_add₀ two_ne_zero, zpow_natCast, Nat.cast_mul, Nat.cast_pow, Nat.cast_ofNat,
    mul_assoc, whole]

theorem value_carried (notZero : numerator ≠ 0) (positive : 0 < denominator) :
    value (carried numerator denominator) =
      significand numerator denominator * 2 ^ lastExponent numerator denominator := by
  rcases significand_bounds notZero positive with ⟨fits, long⟩
  rw [value, carried, units_of_carry fits long, cast_units_mul]

/-- The significand is the nearest natural number to the scaled ratio. -/
theorem significand_nearest (positive : 0 < denominator) (count : Nat) :
    let scaled : Rat := numerator / denominator / 2 ^ lastExponent numerator denominator
    let nearest := significand numerator denominator
    |(nearest : Rat) - scaled| ≤ |(count : Rat) - scaled| ∧
      (|(nearest : Rat) - scaled| = |(count : Rat) - scaled| ->
        count = nearest ∨ nearest % 2 = 0) := by
  rcases scaleDown_spec numerator positive (lastExponent numerator denominator) with
    ⟨divisor, isScaled⟩
  rw [← isScaled]
  exact divideToEven_nearest _ divisor count

/-- A multiple of the last bit competes with the significand. -/
theorem isPreferred_of_multiple (notZero : numerator ≠ 0) (positive : 0 < denominator)
    {other count : Nat}
    (multiple : units other = count * 2 ^ (lastExponent numerator denominator + 1074).toNat) :
    IsPreferred (numerator / denominator) (carried numerator denominator) other := by
  have unit : (0 : Rat) < 2 ^ lastExponent numerator denominator := zpow_pos two_pos _
  have isOther : value other = count * 2 ^ lastExponent numerator denominator := by
    rw [value, multiple, cast_units_mul]
  rcases significand_nearest positive count with ⟨near, tie⟩
  unfold IsPreferred
  rw [value_carried notZero positive, isOther, distance_scaled unit, distance_scaled unit]
  refine ⟨mul_le_mul_of_nonneg_right near unit.le, fun equal => ?_⟩
  rcases tie (mul_right_cancel₀ unit.ne' equal) with same | even
  · refine Or.inl (units_strictMono.injective ?_)
    rcases significand_bounds notZero positive with ⟨fits, long⟩
    rw [multiple, same]
    exact (units_of_carry fits long).symm
  · rw [carried]
    omega

/-- All others are below the least significand of full length, and that is below the ratio. -/
theorem isPreferred_of_below (notZero : numerator ≠ 0) (positive : 0 < denominator)
    {other : Nat} (notLeast : 0 < (lastExponent numerator denominator + 1074).toNat)
    (small : units other < 2 ^ 52 * 2 ^ (lastExponent numerator denominator + 1074).toNat) :
    IsPreferred (numerator / denominator) (carried numerator denominator) other := by
  let ratio : Rat := numerator / denominator
  let last := lastExponent numerator denominator
  have unit : (0 : Rat) < 2 ^ last := zpow_pos two_pos last
  have full : 2 ^ 52 ≤ ratio / 2 ^ last :=
    (scaled_bounds notZero positive).2.resolve_right (fun least => by omega)
  have below : value other < (2 ^ 52 : Nat) * 2 ^ last := by
    rw [← cast_units_mul, value]
    exact mul_lt_mul_of_pos_right (Nat.cast_lt.mpr small) (zpow_pos two_pos _)
  have strict : |value (carried numerator denominator) - ratio| < |value other - ratio| := calc
    _ = |(significand numerator denominator : Rat) - ratio / 2 ^ last| * 2 ^ last := by
        rw [value_carried notZero positive, distance_scaled unit]
    _ ≤ |((2 ^ 52 : Nat) : Rat) - ratio / 2 ^ last| * 2 ^ last :=
        mul_le_mul_of_nonneg_right (significand_nearest positive (2 ^ 52)).1 unit.le
    _ = ratio - (2 ^ 52 : Nat) * 2 ^ last := by
        rw [abs_sub_comm, abs_of_nonneg (sub_nonneg.mpr (mod_cast full)), sub_mul,
          div_mul_cancel₀ _ unit.ne']
    _ < ratio - value other := sub_lt_sub_left below ratio
    _ ≤ |value other - ratio| := abs_sub_comm ratio _ ▸ le_abs_self _
  exact ⟨strict.le, fun equal => absurd equal strict.ne⟩

theorem isPreferred_carried (notZero : numerator ≠ 0) (positive : 0 < denominator)
    (other : Nat) :
    IsPreferred (numerator / denominator) (carried numerator denominator) other := by
  rcases units_grid (lastExponent numerator denominator + 1074).toNat other with
    ⟨count, multiple⟩ | ⟨notLeast, small⟩
  · exact isPreferred_of_multiple notZero positive multiple
  · exact isPreferred_of_below notZero positive notLeast small

/-- What is preferred to every pattern may be cut off at an even one. -/
theorem isPreferred_min {ratio : Rat} {chosen greatest : Nat} (even : greatest % 2 = 0)
    (preferred : forall other, IsPreferred ratio chosen other) {other : Nat}
    (inside : other ≤ greatest) : IsPreferred ratio (min chosen greatest) other := by
  by_cases within : chosen ≤ greatest
  · rw [Nat.min_eq_left within]
    exact preferred other
  · have beyond : greatest < chosen := Nat.lt_of_not_le within
    have less := value_strictMono.monotone inside
    have more := value_strictMono beyond
    rw [Nat.min_eq_right (Nat.le_of_lt beyond)]
    refine ⟨?_, fun _ => Or.inr even⟩
    -- If the ratio were below the greatest pattern, that would have been nearer.
    have above : value greatest < ratio := by
      by_contra notAbove
      have nearer := (preferred greatest).1
      rw [abs_of_nonneg (by linarith), abs_of_nonneg (by linarith)] at nearer
      linarith
    rw [abs_of_neg (by linarith), abs_of_neg (by linarith)]
    linarith

/-- A ratio is rounded to the nearest number, and to the even one if two are equally near.
Infinity takes part as the number that would come after the greatest one. -/
theorem isPreferred_ofRatio (numerator : Nat) (positive : 0 < denominator) {other : Nat}
    (inside : other ≤ infinity.bits.toNat) :
    IsPreferred (numerator / denominator) (ofRatio numerator denominator).bits.toNat other := by
  by_cases zero : numerator = 0
  · have isZero : (ofRatio numerator denominator).bits.toNat = 0 := by
      rw [ofRatio, if_pos zero]
      rfl
    have exactly : value 0 - (numerator / denominator : Rat) = 0 := by
      rw [zero, Nat.cast_zero, zero_div, sub_zero, value]
      exact zero_mul _
    rw [isZero, IsPreferred, exactly, abs_zero]
    exact ⟨abs_nonneg _, fun _ => Or.inr rfl⟩
  · rw [toNat_ofRatio zero]
    exact isPreferred_min rfl (isPreferred_carried zero positive) inside

end Ratios

/-- The digits of a decimal fraction are read as the number nearest to it. -/
theorem isPreferred_ofDigits (whole fraction : List Char) {other : Nat}
    (inside : other ≤ infinity.bits.toNat) :
    IsPreferred ((digitsValue (whole ++ fraction) : Rat) / 10 ^ fraction.length)
      (ofDigits whole fraction).bits.toNat other := by
  have denominator : ((Nat.pow 10 fraction.length : Nat) : Rat) = 10 ^ fraction.length :=
    Nat.cast_pow 10 fraction.length
  rw [← denominator]
  exact isPreferred_ofRatio _ (Nat.pow_pos (by decide)) inside

/-- One tenth lies between two numbers, and the greater one is nearer. -/
example : ofDigits ['0'] ['1'] = ⟨0x3fb999999999999a⟩ := by
  decide +kernel

end Binary64

end PlanningDomain
