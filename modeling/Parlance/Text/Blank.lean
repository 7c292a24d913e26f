/-! White space in the sense of the Unicode property, which is wider than what ASCII knows: it divides a
list of classes into names, and surrounds values that are read leniently. -/

namespace Parlance.Text

/-- The characters with the property White_Space. -/
def isBlank (c : Char) : Bool :=
  let n := c.toNat
  0x9 ≤ n && n ≤ 0xD || n = 0x20 || n = 0x85 || n = 0xA0 || n = 0x1680 || 0x2000 ≤ n && n ≤ 0x200A ||
    n = 0x2028 || n = 0x2029 || n = 0x202F || n = 0x205F || n = 0x3000

/-- The runs of characters between blanks, given the run that is being read, backwards. -/
def wordsFrom (run : List Char) : List Char → List String
  | [] => if run.isEmpty then [] else [String.ofList run.reverse]
  | c :: cs =>
      if isBlank c then (if run.isEmpty then [] else [String.ofList run.reverse]) ++ wordsFrom [] cs
      else wordsFrom (c :: run) cs

/-- The parts of a text between blanks, none of them empty. -/
def words (s : String) : List String := wordsFrom [] s.toList

/-- A text without the blanks at its end. -/
def trimEnd (s : String) : String := String.ofList (s.toList.reverse.dropWhile isBlank).reverse

/-- A text without the blanks at both ends. -/
def trim (s : String) : String := trimEnd (String.ofList (s.toList.dropWhile isBlank))

end Parlance.Text
