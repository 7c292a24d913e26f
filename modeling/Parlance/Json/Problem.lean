import Parlance.Text.Quoted

/-! What can be wrong with a text that should be a JSON document of a known shape. Reading stops at the
first problem in the order of the text: a flaw of the notation, an early end, or a part whose shape is not
the expected one. -/

namespace Parlance.Json

/-- A flaw of the notation itself. -/
inductive Flaw where
  | expectedValue
  | expectedWord
  | expectedColon
  | expectedListEnd
  | expectedObjectEnd
  | keyNotText
  | trailingComma
  | trailingCharacters
  | invalidNumber
  | numberTooLarge
  | invalidEscape
  | controlCharacter
  | loneSurrogate
  | surrogateCutShort
  | tooDeep
deriving DecidableEq

/-- What was being read when the text ended. -/
inductive Unfinished where
  | value
  | text
  | list
  | object
deriving DecidableEq

inductive Problem where
  | flaw (what : Flaw)
  | ended (inside : Unfinished)
  | shape (message : String)
deriving DecidableEq

/-- The three families of problems. -/
inductive Category where
  | flaw
  | ended
  | shape
deriving DecidableEq

def Problem.category : Problem → Category
  | .flaw _ => .flaw
  | .ended _ => .ended
  | .shape _ => .shape

def Flaw.message : Flaw → String
  | .expectedValue => "expected value"
  | .expectedWord => "expected ident"
  | .expectedColon => "expected `:`"
  | .expectedListEnd => "expected `,` or `]`"
  | .expectedObjectEnd => "expected `,` or `\x7d`"
  | .keyNotText => "key must be a string"
  | .trailingComma => "trailing comma"
  | .trailingCharacters => "trailing characters"
  | .invalidNumber => "invalid number"
  | .numberTooLarge => "number out of range"
  | .invalidEscape => "invalid escape"
  | .controlCharacter => "control character (\\u0000-\\u001F) found while parsing a string"
  | .loneSurrogate => "lone leading surrogate in hex escape"
  | .surrogateCutShort => "unexpected end of hex escape"
  | .tooDeep => "recursion limit exceeded"

def Unfinished.message : Unfinished → String
  | .value => "EOF while parsing a value"
  | .text => "EOF while parsing a string"
  | .list => "EOF while parsing a list"
  | .object => "EOF while parsing an object"

/-- The text of a problem, without the place where it stands. -/
def Problem.message : Problem → String
  | .flaw what => what.message
  | .ended inside => inside.message
  | .shape message => message

/-- A part of one kind where another was expected. -/
def Problem.wrongKind (found expected : String) : Problem :=
  .shape s!"invalid type: {found}, expected {expected}"

def Problem.missing (field : String) : Problem := .shape s!"missing field `{field}`"

def Problem.duplicate (field : String) : Problem := .shape s!"duplicate field `{field}`"

def Problem.wrongLength (found : Nat) (expected : String) : Problem :=
  .shape s!"invalid length {found}, expected {expected}"

/-- The names that were possible, as they are listed in a problem. -/
def listed : List String → String
  | [a] => s!"`{a}`"
  | [a, b] => s!"`{a}` or `{b}`"
  | names => "one of " ++ ", ".intercalate (names.map fun n => s!"`{n}`")

def Problem.unknownVariant (found : String) (known : List String) : Problem :=
  .shape s!"unknown variant `{found}`, expected {listed known}"

end Parlance.Json
