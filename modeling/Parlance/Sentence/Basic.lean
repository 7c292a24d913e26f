import Parlance.Lexicon.Basic
import Parlance.Sentence.Scalar

/-! Sentences, the lexems they consist of, and the arguments that lexems carry. Scalars are compared by
value. Every other argument has an identity, a number that is given out once, and two such arguments are
the same only if their identities agree; what a function does when it is called is not part of the
argument. A component factory is compared by the type of component that it makes. -/

namespace Parlance

/-- A number that is given to one value only. -/
structure Identity where
  number : Nat
deriving DecidableEq, Inhabited

/-- A maker of components of one type. -/
structure Factory where
  typeName : String
  identity : Identity
deriving DecidableEq

mutual

inductive Arg where
  | null
  | bool (value : Bool)
  | number (value : Number)
  | str (value : String)
  | sentence (identity : Identity) (value : Sentence)
  | list (identity : Identity) (items : List Arg)
  /-- A shared record. -/
  | data (identity : Identity)
  /-- A function from an item and its index to a sentence. -/
  | render (identity : Identity)
  /-- A function that is called with an event. -/
  | handler (identity : Identity)
  | callback (identity : Identity)
  | component (factory : Factory)
  /-- A set of functions that act on a host node directly. -/
  | hook (identity : Identity)

/-- One instruction: a word, the lexicon that defines it, and the arguments. -/
structure Lexem where
  space : String
  name : String
  args : List Arg

/-- Lexems in order, with the lexicon whose words may follow and the level on which they are built. -/
structure Sentence where
  lexicon : Lexicon
  level : Level
  lexems : List Lexem

end

namespace Arg

/-- Whether two arguments count as unchanged. -/
def same : Arg → Arg → Bool
  | null, null => true
  | bool a, bool b => a = b
  | number a, number b => a.equals b
  | str a, str b => a = b
  | sentence a _, sentence b _ => a = b
  | list a _, list b _ => a = b
  | data a, data b => a = b
  | render a, render b => a = b
  | handler a, handler b => a = b
  | callback a, callback b => a = b
  | component a, component b => a.typeName = b.typeName
  | hook a, hook b => a = b
  | _, _ => false

def isTruthy : Arg → Bool
  | null => false
  | bool b => b
  | number n => n.isTruthy
  | str s => s ≠ ""
  | _ => true

def isNull : Arg → Bool
  | null => true
  | _ => false

def asStr? : Arg → Option String
  | str s => some s
  | _ => none

def asSentence? : Arg → Option Sentence
  | sentence _ s => some s
  | _ => none

def asList? : Arg → Option (List Arg)
  | list _ items => some items
  | _ => none

/-- The items of a list; any other argument counts as empty. -/
def items (arg : Arg) : List Arg := arg.asList?.getD []

def toScalar? : Arg → Option Scalar
  | null => some .null
  | bool b => some (.bool b)
  | number n => some (.number n)
  | str s => some (.str s)
  | _ => none

def ofScalar : Scalar → Arg
  | .null => null
  | .bool b => bool b
  | .number n => number n
  | .str s => str s

/-- The name of the kind of an argument. -/
def kind : Arg → String
  | null => "null"
  | bool _ => "bool"
  | number _ => "number"
  | str _ => "str"
  | sentence _ _ => "sentence"
  | list _ _ => "list"
  | data _ => "data"
  | render _ => "render"
  | handler _ => "handler"
  | callback _ => "callback"
  | component _ => "component"
  | hook _ => "hook"

mutual

/-- The text that attributes and text nodes show. -/
def toText : Arg → String
  | null => ""
  | bool b => if b then "true" else "false"
  | number n => n.toText
  | str s => s
  | list _ items => ",".intercalate (textsOf items)
  | other => other.kind

def textsOf : List Arg → List String
  | [] => []
  | a :: as => a.toText :: textsOf as

end

end Arg

mutual

/-- An argument as descriptions show it. -/
def Arg.describe : Arg → String
  | .null => "null"
  | .bool b => if b then "true" else "false"
  | .number n => n.toText
  | .str s => Text.quoted s
  | .sentence _ s => s.describe
  | .list _ items => "[" ++ ", ".intercalate (describeArgs items) ++ "]"
  | .component factory => "<component " ++ factory.typeName ++ ">"
  | other => "<" ++ other.kind ++ ">"

def describeArgs : List Arg → List String
  | [] => []
  | a :: as => a.describe :: describeArgs as

/-- A lexem as descriptions show it; a single argument is followed by a comma. -/
def Lexem.describe : Lexem → String
  | ⟨space, name, args⟩ =>
      let shown := describeArgs args
      space ++ ":" ++ name ++
        (match shown with
          | [] => ""
          | [only] => "(" ++ only ++ ",)"
          | several => "(" ++ ", ".intercalate several ++ ")")

def Sentence.describe : Sentence → String
  | ⟨_, _, lexems⟩ => "[" ++ ", ".intercalate (describeLexems lexems) ++ "]"

def describeLexems : List Lexem → List String
  | [] => []
  | l :: ls => l.describe :: describeLexems ls

end

/-- The argument at a position; a missing one is null. -/
def argAt (args : List Arg) (index : Nat) : Arg := args.getD index .null

namespace Lexem

def arg (lexem : Lexem) (index : Nat) : Arg := argAt lexem.args index

/-- The lexicon and the word, as errors name them. -/
def qualified (lexem : Lexem) : String := lexem.space ++ ":" ++ lexem.name

/-- Whether two lexems may stand in the same place. -/
def isCongruent (a b : Lexem) : Bool := a.name = b.name && a.space = b.space

/-- Whether the number of arguments or the identity of any one differs. -/
def argsChanged (lexem previous : Lexem) : Bool :=
  lexem.args.length ≠ previous.args.length || (lexem.args.zip previous.args).any fun p => !p.1.same p.2

end Lexem

namespace Sentence

def empty (lexicon : Lexicon) (level : Level) : Sentence := ⟨lexicon, level, []⟩

def length (s : Sentence) : Nat := s.lexems.length

/-- Appends a lexem that no lexicon is asked about. -/
def append (s : Sentence) (space name : String) (args : List Arg) : Sentence :=
  { s with lexems := s.lexems ++ [⟨space, name, args⟩] }

/-- Appends the lexems of another sentence. -/
def splice (s other : Sentence) : Sentence := { s with lexems := s.lexems ++ other.lexems }

end Sentence

/-- Starts new sentences of a lexicon on a level. -/
structure Initializer where
  lexicon : Lexicon
  level : Level

def Initializer.empty (h : Initializer) : Sentence := Sentence.empty h.lexicon h.level

/-- An event of a host node. -/
structure Event where
  name : String
  keyCode : Option Nat
  value : Option String
  checked : Option Bool
  text : Option String

end Parlance
