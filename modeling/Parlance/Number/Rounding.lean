import Parlance.Number.Basic

/-! Rounding to the nearest double, halves to the even significand. A magnitude is given as a ratio of
natural numbers; because the bits of the non-negative doubles are in the order of their values, the
rounded significand and its scale add up to the bits, and a carry into the next binade needs no case of
its own. Sums, products and quotients are exact ratios that are rounded once. -/

namespace Parlance.Number

/-- The integer nearest to `a / d`, a half going to the even neighbour. -/
def roundDiv (a d : Nat) : Nat :=
  if 2 * (a % d) < d then a / d
  else if d < 2 * (a % d) then a / d + 1
  else a / d + a / d % 2

/-- The bits of the double nearest to `num / den`, or those of infinity when it is too large. -/
def roundRatio (num den : Nat) : Nat :=
  let scale := Nat.log2 (num * Nat.pow 2 granularity / den) - 52
  min infiniteBits (scale * Nat.pow 2 52 + roundDiv (num * Nat.pow 2 granularity) (den * Nat.pow 2 scale))

/-- The double nearest to `± num / den`. -/
def ofRatio (negative : Bool) (num den : Nat) : Number := ofMagnitudeBits negative (roundRatio num den)

def ofNat (n : Nat) : Number := ofRatio false n 1

def ofInt (n : Int) : Number := ofRatio (n < 0) n.natAbs 1

/-- The double nearest to `± digits * 10 ^ exponent`. Beyond every finite double the answer is
infinity and below half of the smallest one it is zero, so no huge power is computed. -/
def ofDecimal (negative : Bool) (digits : Nat) (exponent : Int) : Number :=
  let top : Int := (Nat.toDigits 10 digits).length + exponent
  if digits = 0 ∨ top < -340 then ofMagnitudeBits negative 0
  else if 320 < top then infinity negative
  else if 0 ≤ exponent then ofRatio negative (digits * Nat.pow 10 exponent.toNat) 1
  else ofRatio negative digits (Nat.pow 10 (-exponent).toNat)

/-- The sum. Two zeros of one sign keep it, and any other zero sum is positive. -/
def add (a b : Number) : Number :=
  if a.isNaN || b.isNaN then nan
  else if a.isInfinite then
    if b.isInfinite && a.isNegative != b.isNegative then nan else a
  else if b.isInfinite then b
  else
    let sum := a.signedUnits + b.signedUnits
    if sum = 0 then ofMagnitudeBits (a.isNegative && b.isNegative) 0
    else ofRatio (sum < 0) sum.natAbs (Nat.pow 2 granularity)

/-- The product of two finite magnitudes. -/
def mulMagnitude (a b : Number) : Number := ofRatio false (a.units * b.units) (Nat.pow 2 (2 * granularity))

/-- The quotient of a finite magnitude by a finite magnitude that is not zero. -/
def divMagnitude (a b : Number) : Number := ofRatio false a.units b.units

end Parlance.Number
