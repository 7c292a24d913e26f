import Parlance.Number.Layout
import Parlance.Text.Quoted

/-! Scalars: the values that are compared by what they are, and the only ones a property of a host node
can hold. -/

namespace Parlance

inductive Scalar where
  | null
  | bool (value : Bool)
  | number (value : Number)
  | str (value : String)
deriving DecidableEq

namespace Scalar

/-- Equality of values; numbers compare as numbers do, so NaN equals nothing. -/
def equals : Scalar → Scalar → Bool
  | null, null => true
  | bool a, bool b => a = b
  | number a, number b => a.equals b
  | str a, str b => a = b
  | _, _ => false

def isTruthy : Scalar → Bool
  | null => false
  | bool b => b
  | number n => n.isTruthy
  | str s => s ≠ ""

/-- The text of a scalar, with null by its name. -/
def toText : Scalar → String
  | null => "null"
  | bool b => if b then "true" else "false"
  | number n => n.toText
  | str s => s

end Scalar

end Parlance
