/-! The two levels on which sentences are built. -/

namespace Parlance

/-- How far the words of a sentence are expanded while it is built. -/
inductive Level where
  /-- Compounds run at once, and only atoms remain. -/
  | atomic
  /-- Compounds stay as single lexems, to be developed later. -/
  | firstLevel
deriving DecidableEq

namespace Level

def name : Level → String
  | atomic => "atomic"
  | firstLevel => "first-level"

/-- The levels by name, in the order in which they are listed. -/
def named : List (String × Level) := [("atomic", atomic), ("first-level", firstLevel)]

end Level

end Parlance
