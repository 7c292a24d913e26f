import Parlance.Number.Layout
import Parlance.Json.Problem

/-! Numerals of a document. Whole numbers that fit in sixty-four bits stay whole; any other numeral is
computed in doubles from as many leading digits as fit in sixty-four bits, multiplied or divided by a
power of ten. That is two roundings at most for the usual exponents, and it is the value the format has:
a numeral with very many digits may differ from the nearest double in its last bit. -/

namespace Parlance.Json

inductive Numeral where
  | natural (n : Nat)
  | negative (n : Nat)
  | real (x : Number)
deriving DecidableEq

def Numeral.toNumber : Numeral → Number
  | .natural n => Number.ofNat n
  | .negative n => Number.ofInt (-n)
  | .real x => x

/-- How a numeral is named in a problem. -/
def Numeral.found : Numeral → String
  | .natural n => s!"integer `{n}`"
  | .negative n => s!"integer `-{n}`"
  | .real x => s!"floating point `{x.toDocument}`"

/-- The largest significand that is kept. -/
def significandLimit : Nat := Nat.pow 2 64 - 1

/-- Appends digits to a significand while it stays within the limit, and counts them. -/
def absorb (significand : Nat) : List Char → Nat × Nat
  | [] => (significand, 0)
  | c :: cs =>
      let next := significand * 10 + (c.toNat - '0'.toNat)
      if significandLimit < next then (significand, 0)
      else let (s, n) := absorb next cs; (s, n + 1)

/-- `f * 10 ^ exponent` in doubles; a power beyond `10 ^ 308` is applied in steps of `10 ^ 308`. -/
def scaleByTen (fuel : Nat) (f : Number) (exponent : Int) : Except Problem Number :=
  if exponent.natAbs ≤ 308 then
    let power := Number.ofNat (Nat.pow 10 exponent.natAbs)
    if 0 ≤ exponent then
      let product := Number.mulMagnitude f power
      if product.isInfinite then .error (.flaw .numberTooLarge) else .ok product
    else .ok (Number.divMagnitude f power)
  else if f.isZero then .ok f
  else if 0 ≤ exponent then .error (.flaw .numberTooLarge)
  else match fuel with
    | 0 => .ok Number.zero
    | fuel + 1 => scaleByTen fuel (Number.divMagnitude f (Number.ofNat (Nat.pow 10 308))) (exponent + 308)

/-- The parts of a numeral as they are written. -/
structure Written where
  negative : Bool
  whole : List Char
  fraction : Option (List Char)
  exponent : Option (Bool × List Char)

/-- The exponent of a numeral, or nothing when it does not fit in thirty-two bits. -/
def exponentValue? (digits : List Char) : Option Nat :=
  let value := digits.foldl (fun n c => min (n * 10 + (c.toNat - '0'.toNat)) (Nat.pow 2 31)) 0
  if value < Nat.pow 2 31 then some value else none

/-- The value of a numeral. -/
def Written.value (w : Written) : Except Problem Numeral :=
  let (whole, used) := absorb 0 w.whole
  let dropped := w.whole.length - used
  if dropped = 0 ∧ w.fraction.isNone ∧ w.exponent.isNone then
    if !w.negative then .ok (.natural whole)
    else if whole = 0 ∨ Nat.pow 2 63 < whole then .ok (.real (Number.ofNat whole).neg)
    else .ok (.negative whole)
  else
    let (significand, places) := absorb whole (w.fraction.getD [])
    let start : Int := dropped - places
    let signed (x : Number) : Numeral := .real (if w.negative then x.neg else x)
    match w.exponent with
    | none => (scaleByTen 8 (Number.ofNat significand) start).map signed
    | some (negative, digits) =>
        match exponentValue? digits with
        | some e =>
            (scaleByTen 8 (Number.ofNat significand) (if negative then start - e else start + e)).map signed
        | none =>
            if significand ≠ 0 ∧ !negative then .error (.flaw .numberTooLarge)
            else .ok (signed Number.zero)

end Parlance.Json
