import Parlance.Number.Basic

/-! The fewest decimal digits that read back as a given double. The doubles that a decimal reads back to
form an interval around the value, which includes its ends exactly when the significand is even. For
one digit, two digits and so on up to seventeen, the two neighbours of the value on that decimal grid are
tried; the first grid with a neighbour inside the interval gives the answer, and of two neighbours inside
it the nearer one. -/

namespace Parlance.Number

/-- A decimal `digits * 10 ^ exponent`. -/
structure Decimal where
  digits : Nat
  exponent : Int
deriving DecidableEq

/-- Which of two equally near decimals is taken. -/
inductive Tie where
  | even
  | up
deriving DecidableEq

/-- The interval of the decimals that read back as a double: the value lies at `value / unit`, and the
ends at `low / unit` and `high / unit`. -/
structure ReadBack where
  low : Nat
  value : Nat
  high : Nat
  unit : Nat
  closed : Bool

/-- Midway to the two neighbouring doubles; below a power of two the neighbour is half as far. -/
def readBack (n : Number) : ReadBack :=
  let narrow := n.significand = Nat.pow 2 52 ∧ 0 < n.scale
  { low := (4 * n.significand - if narrow then 1 else 2) * Nat.pow 2 n.scale
    value := 4 * n.significand * Nat.pow 2 n.scale
    high := (4 * n.significand + 2) * Nat.pow 2 n.scale
    unit := 4 * Nat.pow 2 granularity
    closed := n.significand % 2 = 0 }

/-- Whether `num / den` lies in the interval. -/
def ReadBack.contains (r : ReadBack) (num den : Nat) : Bool :=
  if r.closed then r.low * den ≤ num * r.unit && num * r.unit ≤ r.high * den
  else r.low * den < num * r.unit && num * r.unit < r.high * den

/-- Ten to a whole power, as a ratio. -/
def tenRatio (exponent : Int) : Nat × Nat :=
  if 0 ≤ exponent then (Nat.pow 10 exponent.toNat, 1) else (1, Nat.pow 10 (-exponent).toNat)

/-- The decimal on the grid of `10 ^ exponent` that reads back, if there is one. -/
def ReadBack.onGrid? (r : ReadBack) (tie : Tie) (exponent : Int) : Option Decimal :=
  let (up, down) := tenRatio exponent
  let below := r.value * down / (r.unit * up)
  let rest := 2 * (r.value * down % (r.unit * up))
  let above := below + 1
  match r.contains (below * up) down, r.contains (above * up) down with
  | false, false => none
  | true, false => some ⟨below, exponent⟩
  | false, true => some ⟨above, exponent⟩
  | true, true =>
      let takeAbove := r.unit * up < rest ∨ rest = r.unit * up ∧ (tie = .up ∨ below % 2 = 1)
      some ⟨if takeAbove then above else below, exponent⟩

/-- The exponent of the leading digit of `value / unit`, for a value that is not zero. -/
def ReadBack.leading (r : ReadBack) : Int :=
  if r.unit ≤ r.value then (Nat.toDigits 10 (r.value / r.unit)).length - 1
  else
    let places := (Nat.toDigits 10 (r.unit / r.value)).length
    if r.unit ≤ r.value * Nat.pow 10 (places - 1) then -(places - 1 : Nat) else -places

/-- The first grid that holds a decimal reading back, from `exponent` on downwards. -/
def ReadBack.search (r : ReadBack) (tie : Tie) : Nat → Int → Decimal
  | 0, exponent => ⟨0, exponent⟩
  | tries + 1, exponent => (r.onGrid? tie exponent).getD (r.search tie tries (exponent - 1))

/-- Moves trailing zeros of the digits into the exponent. -/
def Decimal.trim : Nat → Decimal → Decimal
  | 0, d => d
  | fuel + 1, d =>
      if d.digits % 10 = 0 ∧ d.digits ≠ 0 then trim fuel ⟨d.digits / 10, d.exponent + 1⟩ else d

/-- The shortest decimal that reads back as the magnitude of a finite double other than zero. -/
def shortest (tie : Tie) (n : Number) : Decimal :=
  (n.readBack.search tie 19 (n.readBack.leading + 1)).trim 20

end Parlance.Number
