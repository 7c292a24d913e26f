import Parlance.Json.Decode
import Parlance.Json.Value
import Parlance.Sentence.Scalar

/-! The written form of scalars: a word, a numeral or a text, without any mention of the type. -/

namespace Parlance.Scalar

open Json

def toJson : Scalar → Value
  | .null => .null
  | .bool b => .bool b
  | .number n => .number n
  | .str s => .text s

/-- Reads a scalar. The part is read as a whole before it is asked what it is. -/
def read (d : Draft) : Except Problem Scalar := do
  d.buffer depthLimit
  match d with
  | .null => pure .null
  | .bool b => pure (.bool b)
  | .number n => do pure (.number (← n).toNumber)
  | .text literal => do pure (.str (← literal.value))
  | _ => throw (.shape "data did not match any variant of untagged enum Scalar")

/-- Reads a scalar from its written form. -/
def ofText (text : String) : Except Problem Scalar := decode read text

end Parlance.Scalar
