import Parlance.Number.Rounding
import Parlance.Number.Shortest

/-! How numbers are written. The text form is positional and has no exponent, and whole numbers below
`10^15` are written as integers. The document form always shows a point or an exponent, turns to an
exponent outside `10^-5 ≤ |n| < 10^16`, keeps the sign of zero, and has `null` where there is no finite
value. -/

namespace Parlance.Number

/-- The digits of a natural number in base ten. -/
def digitsText (n : Nat) : String := String.ofList (Nat.toDigits 10 n)

/-- Writes a decimal with its point in place: zeros before the digits, after them, or neither. -/
def Decimal.positional (d : Decimal) : String :=
  let digits := Nat.toDigits 10 d.digits
  if 0 ≤ d.exponent then String.ofList (digits ++ List.replicate d.exponent.toNat '0')
  else
    let places := (-d.exponent).toNat
    if places < digits.length then
      String.ofList (digits.take (digits.length - places)) ++ "." ++
        String.ofList (digits.drop (digits.length - places))
    else "0." ++ String.ofList (List.replicate (places - digits.length) '0' ++ digits)

def signText (n : Number) : String := if n.isNegative then "-" else ""

/-- The text form of a number. -/
def toText (n : Number) : String :=
  if n.isNaN then "NaN"
  else if n.isInfinite then n.signText ++ "inf"
  else if n.isWhole && n.wholePart < Nat.pow 10 15 then
    (if n.isZero then "" else n.signText) ++ digitsText n.wholePart
  else n.signText ++ (n.shortest .up).positional

/-- One digit, the others behind a point, and the power of ten. -/
def Decimal.scientific (d : Decimal) : String :=
  let digits := Nat.toDigits 10 d.digits
  let power : Int := d.exponent + (digits.length - 1 : Nat)
  let fraction := if digits.length ≤ 1 then "" else "." ++ String.ofList (digits.drop 1)
  String.ofList (digits.take 1) ++ fraction ++ (if power < 0 then "e-" else "e+") ++ digitsText power.natAbs

/-- The document form of a finite magnitude other than zero. -/
def Decimal.document (d : Decimal) : String :=
  let power : Int := d.exponent + ((Nat.toDigits 10 d.digits).length - 1 : Nat)
  if power < -5 ∨ 16 ≤ power then d.scientific
  else if 0 ≤ d.exponent then d.positional ++ ".0"
  else d.positional

/-- The document form of a finite number, also where there is a mention of it in an error. -/
def toDocument (n : Number) : String :=
  if !n.isFinite then "null"
  else n.signText ++ if n.isZero then "0.0" else (n.shortest .even).document

/-- The value of a run of decimal digits, or nothing when another character is among them. -/
def digitsValue? (cs : List Char) : Option Nat :=
  if cs.all Char.isDigit then some (cs.foldl (fun n c => n * 10 + (c.toNat - '0'.toNat)) 0) else none

/-- Reads the digits of a decimal, with at most one point and at most one exponent. -/
def readDecimal? (negative : Bool) (cs : List Char) : Option Number := do
  let mantissa := cs.takeWhile fun c => c != 'e' && c != 'E'
  let exponent ← match cs.drop mantissa.length with
    | [] => some (0 : Int)
    | _ :: '-' :: ds => if ds.isEmpty then none else (digitsValue? ds).map fun n => -(n : Int)
    | _ :: '+' :: ds => if ds.isEmpty then none else (digitsValue? ds).map Int.ofNat
    | _ :: ds => if ds.isEmpty then none else (digitsValue? ds).map Int.ofNat
  let whole := mantissa.takeWhile (· != '.')
  let fraction := (mantissa.drop whole.length).drop 1
  if whole.isEmpty && fraction.isEmpty then none
  let digits ← digitsValue? (whole ++ fraction)
  pure (ofDecimal negative digits (exponent - fraction.length))

/-- Reads a number from its text: a decimal with an optional sign, point and exponent, or one of the
words for NaN and infinity in any case. -/
def ofText? (text : String) : Option Number :=
  let (negative, cs) := match text.toList with
    | '-' :: cs => (true, cs)
    | '+' :: cs => (false, cs)
    | cs => (false, cs)
  match String.ofList (cs.map Char.toLower) with
  | "nan" => some nan
  | "inf" => some (infinity negative)
  | "infinity" => some (infinity negative)
  | _ => readDecimal? negative cs

end Parlance.Number
