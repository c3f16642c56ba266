import Abacus.Decimal.Basic

/-!
Binary64 magnitudes, and rounding to them. A magnitude is named by its bit pattern without the
sign: the patterns below `infinity` are the finite ones, in the order of their values. Every
finite magnitude is a whole number of units of `2 ^ -1074`, so rounding is exact arithmetic on
natural numbers: the nearest magnitude to a quotient, a tie going to the even pattern. All that is
not a number is one value, `quietNaN`: the sign that its bits may carry elsewhere is not modelled.
-/
namespace Abacus.Binary

def infinity : Nat := 0x7FF * 2 ^ 52

def quietNaN : Nat := infinity + 2 ^ 51

/-- Magnitudes are counted in units of `2 ^ -unitExponent`, the smallest of them. -/
def unitExponent : Nat := 1074

def units (pattern : Nat) : Nat :=
  if pattern < 2 ^ 52 then pattern
  else (2 ^ 52 + pattern % 2 ^ 52) * 2 ^ (pattern / 2 ^ 52 - 1)

def roundDiv (num den : Nat) : Nat :=
  let quotient := num / den
  let twice := 2 * (num % den)
  if twice < den || (twice == den && quotient % 2 == 0) then quotient else quotient + 1

/-- The pattern nearest to the quotient `num / den`: the significand keeps 53 bits, or as many as
stand above `2 ^ -1074`, and a significand rounded up to `2 ^ 53` carries into the exponent. -/
def nearest (num den : Nat) : Nat :=
  let shift := Nat.log2 (num * 2 ^ unitExponent / den) - 52
  min infinity (shift * 2 ^ 52 + roundDiv (num * 2 ^ unitExponent) (den * 2 ^ shift))

/-- The pattern nearest to a decimal. The tests on the exponent spare the arithmetic on decimals
that are out of range: at least `10 ^ 309`, or below `10 ^ -324`. -/
def ofDecimal (d : Decimal) : Nat :=
  if d.digits = 0 then 0
  else if 308 < d.exponent then infinity
  else if d.exponent + (Nat.log2 d.digits + 1 : Nat) < -323 then 0
  else nearest d.numerator d.denominator

def toFloat (negative : Bool) (pattern : Nat) : Float :=
  Float.ofBits (UInt64.ofNat (if negative then 2 ^ 63 + pattern else pattern))

def isNegative (x : Float) : Bool := 2 ^ 63 ≤ x.toBits.toNat

def pattern (x : Float) : Nat := x.toBits.toNat % 2 ^ 63

def isFinite (x : Float) : Bool := pattern x < infinity

theorem roundDiv_mul (m : Nat) {den : Nat} (h : 0 < den) : roundDiv (m * den) den = m := by
  simp [roundDiv, Nat.mul_div_cancel _ h, h]

theorem units_of_lt {pattern : Nat} (h : pattern < 2 ^ 52) : units pattern = pattern := if_pos h

theorem units_of_le {pattern : Nat} (h : 2 ^ 52 ≤ pattern) :
    units pattern = (2 ^ 52 + pattern % 2 ^ 52) * 2 ^ (pattern / 2 ^ 52 - 1) :=
  if_neg (by omega)

theorem units_pos {pattern : Nat} (h : 0 < pattern) : 0 < units pattern := by
  unfold units
  split
  · exact h
  · exact Nat.mul_pos (by omega) (Nat.pow_pos (by decide))

/-- How far the significand of a pattern is shifted to give its units. -/
theorem log2_units (pattern : Nat) :
    Nat.log2 (units pattern) - 52 = pattern / 2 ^ 52 - 1 := by
  by_cases h : pattern < 2 ^ 52
  · rw [units_of_lt h]
    by_cases h0 : pattern = 0
    · simp [h0]
    · have := (Nat.log2_lt h0).2 h
      omega
  · have hlow : pattern % 2 ^ 52 < 2 ^ 52 := Nat.mod_lt _ (by decide)
    rw [units_of_le (by omega)]
    generalize pattern / 2 ^ 52 - 1 = shift
    generalize pattern % 2 ^ 52 = low at hlow
    have hpos : 0 < 2 ^ shift := Nat.pow_pos (by decide)
    have hlog : Nat.log2 ((2 ^ 52 + low) * 2 ^ shift) = 52 + shift := by
      refine (Nat.log2_eq_iff (Nat.mul_ne_zero (by omega) (by omega))).2 ⟨?_, ?_⟩
      · rw [Nat.pow_add]
        exact Nat.mul_le_mul_right _ (by omega)
      · rw [show 52 + shift + 1 = 53 + shift by omega, Nat.pow_add]
        exact Nat.mul_lt_mul_of_pos_right (by omega) hpos
    omega

/-- A quotient that is the value of a finite pattern rounds to that pattern. -/
theorem nearest_eq_of_units {num den pattern : Nat} (hden : 0 < den) (hp : pattern < infinity)
    (h : num * 2 ^ unitExponent = units pattern * den) : nearest num den = pattern := by
  rw [nearest, h, Nat.mul_div_cancel _ hden, log2_units]
  by_cases hsmall : pattern < 2 ^ 52
  · have hshift : pattern / 2 ^ 52 - 1 = 0 := by omega
    rw [units_of_lt hsmall, hshift, Nat.pow_zero, Nat.mul_one, roundDiv_mul _ hden]
    omega
  · have hpos : 0 < den * 2 ^ (pattern / 2 ^ 52 - 1) :=
      Nat.mul_pos hden (Nat.pow_pos (by decide))
    rw [units_of_le (by omega), Nat.mul_assoc, Nat.mul_comm _ den, roundDiv_mul _ hpos]
    omega

end Abacus.Binary
