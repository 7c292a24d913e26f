/-! The numbers of the library: doubles, held as their sixty-four bits. A finite double is an exact
multiple of `2^-1074`, so its sign, its significand and the power of two that scales it are read off
the bits by division, and every comparison below is one of natural numbers. -/

namespace Parlance

/-- A double, held as its sixty-four bits. -/
structure Number where
  bits : UInt64
deriving DecidableEq, Inhabited

namespace Number

/-- Every finite double is a multiple of `2^-granularity`. -/
def granularity : Nat := 1074

/-- The bits without the sign, as a natural number. -/
def magnitudeBits (n : Number) : Nat := n.bits.toNat % Nat.pow 2 63

def isNegative (n : Number) : Bool := Nat.pow 2 63 ≤ n.bits.toNat

/-- The eleven exponent bits. -/
def exponentField (n : Number) : Nat := n.magnitudeBits / Nat.pow 2 52

/-- The fifty-two fraction bits. -/
def fractionField (n : Number) : Nat := n.magnitudeBits % Nat.pow 2 52

/-- The bits of positive infinity, above those of every finite magnitude. -/
def infiniteBits : Nat := 2047 * Nat.pow 2 52

def isNaN (n : Number) : Bool := infiniteBits < n.magnitudeBits

def isInfinite (n : Number) : Bool := n.magnitudeBits = infiniteBits

def isFinite (n : Number) : Bool := n.magnitudeBits < infiniteBits

/-- The significand of a finite double, with the leading bit that normal doubles leave out. -/
def significand (n : Number) : Nat :=
  if n.exponentField = 0 then n.fractionField else Nat.pow 2 52 + n.fractionField

/-- The power of two by which the significand is scaled, in units of `2^-1074`. -/
def scale (n : Number) : Nat := n.exponentField - 1

/-- The magnitude of a finite double, in units of `2^-1074`. -/
def units (n : Number) : Nat := n.significand * Nat.pow 2 n.scale

/-- The value of a finite double, in units of `2^-1074`. -/
def signedUnits (n : Number) : Int := if n.isNegative then -n.units else n.units

/-- The double with a given sign and given bits below the sign. -/
def ofMagnitudeBits (negative : Bool) (magnitude : Nat) : Number :=
  ⟨UInt64.ofNat ((if negative then Nat.pow 2 63 else 0) + magnitude)⟩

def zero : Number := ⟨0⟩

def infinity (negative : Bool) : Number := ofMagnitudeBits negative infiniteBits

/-- A quiet NaN; all NaN are written alike. -/
def nan : Number := ofMagnitudeBits false (infiniteBits + Nat.pow 2 51)

def isZero (n : Number) : Bool := n.magnitudeBits = 0

/-- Equality of values: the two zeros are equal, and NaN differs from everything. -/
def equals (a b : Number) : Bool := !a.isNaN && !b.isNaN && (a.bits = b.bits || a.isZero && b.isZero)

/-- Zero and NaN count as false. -/
def isTruthy (n : Number) : Bool := !n.isZero && !n.isNaN

def neg (n : Number) : Number := ofMagnitudeBits (!n.isNegative) n.magnitudeBits

/-- Whether a finite double is a whole number. -/
def isWhole (n : Number) : Bool := n.isFinite && n.units % Nat.pow 2 granularity = 0

/-- The whole part of the magnitude of a finite double. -/
def wholePart (n : Number) : Nat := n.units / Nat.pow 2 granularity

end Number

end Parlance
