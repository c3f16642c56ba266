/-!
Decimal numbers with a finite expansion, as a quotient of natural numbers: a significand and a
power of ten. Two decimals may denote the same number.
-/
namespace Abacus

/-- Powers of natural numbers are those of core, whatever a module imports beside it. -/
@[default_instance 20000]
instance powNat : Pow Nat Nat := instPowNat

/-- The number `digits * 10 ^ exponent`. -/
structure Decimal where
  digits : Nat
  exponent : Int
deriving DecidableEq, Repr

namespace Decimal

def numerator (d : Decimal) : Nat := d.digits * 10 ^ d.exponent.toNat

def denominator (d : Decimal) : Nat := 10 ^ (-d.exponent).toNat

theorem denominator_pos (d : Decimal) : 0 < d.denominator := Nat.pow_pos (by decide)

end Decimal
end Abacus
